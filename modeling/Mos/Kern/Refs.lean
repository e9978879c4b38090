import Mos.Kern.PageWalk
import Mos.Lib.RefCount
import Mathlib.Data.Fintype.Sigma
import Mathlib.Data.Fintype.Sum
import Mathlib.Tactic.DeriveFintype

namespace Mos

/-- The pages that an env owns outside its page tables. -/
structure Root where
  pgdir : Nat
  vars : Option Nat

abbrev Roots := EnvPtr → Option Root

/-- The places that refer to a page: `env_pgdir`, `env_vars`, a page directory entry and a page table entry. -/
inductive Ref where
  | pgdir (e : EnvPtr)
  | vars (e : EnvPtr)
  | pde (e : EnvPtr) (i : Fin 1024)
  | pte (e : EnvPtr) (i j : Fin 1024)
deriving DecidableEq, Fintype

def Ref.Table : Ref → Prop
  | .pgdir _ => True
  | .pde _ _ => True
  | _ => False

def Ref.env : Ref → EnvPtr
  | .pgdir e => e
  | .vars e => e
  | .pde e _ => e
  | .pte e _ _ => e

/-- The directory entries that `env_setup_vm` fills: the copies from `base_pgdir` and the self map. -/
def Shared (i : Fin 1024) : Prop := pdx utop ≤ i.val ∧ i.val ≤ pdx uvpt

instance (i : Fin 1024) : Decidable (Shared i) := inferInstanceAs (Decidable (_ ∧ _))

def pageOf (w : Word) : Option Nat := if w &&& pteV = 0 then none else some (ppn w)

def entry (vm : Vm) (d : Nat) (i : Fin 1024) : Option Nat := pageOf (vm.mem d i.val)

/-- The page that `r` refers to. -/
def target (roots : Roots) (vm : Vm) : Ref → Option Nat
  | .pgdir e => (roots e).map Root.pgdir
  | .vars e => (roots e).bind Root.vars
  | .pde e i => (roots e).bind fun root => if Shared i then none else entry vm root.pgdir i
  | .pte e i j => (roots e).bind fun root => if Shared i then none else
      (entry vm root.pgdir i).bind fun table => entry vm table j

@[simp] theorem pageOf_zero : pageOf 0#32 = none := rfl

theorem pageOf_some {w : Word} {pp : Nat} : pageOf w = some pp ↔ w &&& pteV ≠ 0 ∧ ppn w = pp := by
  unfold pageOf
  split
  · rename_i invalid
    exact iff_of_false (by simp) fun h => h.1 invalid
  · rename_i valid
    exact ⟨fun h => ⟨valid, Option.some.inj h⟩, fun h => congrArg some h.2⟩

theorem pageOf_pteOf {pp : Nat} {perm : Word} (bound : pp < 2^20) (flags : FlagBits perm) :
    pageOf (pteOf pp perm) = some pp := pageOf_some.mpr ⟨pteOf_valid pp perm, ppn_pteOf bound flags⟩

theorem entry_write (vm : Vm) (q d : Nat) (j i : Fin 1024) (w : Word) :
    entry (vm.write ⟨q, j.val⟩ w) d i = if d = q ∧ i = j then pageOf w else entry vm d i := by
  unfold entry Vm.write
  by_cases page : d = q
  · subst page
    by_cases index : i = j
    · simp [index]
    · have index' : i.val ≠ j.val := fun same => index (Fin.ext same)
      simp [index, index']
  · simp [page]

theorem target_pgdir {roots : Roots} {vm : Vm} {e : EnvPtr} {root : Root} (found : roots e = some root) :
    target roots vm (.pgdir e) = some root.pgdir := by simp [target, found]

theorem target_pde {roots : Roots} {vm : Vm} {e : EnvPtr} {root : Root} {i : Fin 1024} (found : roots e = some root)
    (own : ¬ Shared i) : target roots vm (.pde e i) = entry vm root.pgdir i := by simp [target, found, own]

theorem target_pte {roots : Roots} {vm : Vm} {e : EnvPtr} {i j : Fin 1024} {t : Nat}
    (table : target roots vm (.pde e i) = some t) : target roots vm (.pte e i j) = entry vm t j := by
  simp only [target, Option.bind_eq_some_iff] at table
  obtain ⟨root, found, table⟩ := table
  split at table
  · cases table
  · rename_i own
    simp [target, found, own, table]

theorem target_pte_none {roots : Roots} {vm : Vm} {e : EnvPtr} {i j : Fin 1024}
    (table : target roots vm (.pde e i) = none) : target roots vm (.pte e i j) = none := by
  simp only [target] at *
  cases found : roots e with
  | none => rfl
  | some root =>
    simp only [found, Option.bind_some] at table ⊢
    split
    · rfl
    · rename_i own
      rw [if_neg own] at table
      rw [table, Option.bind_none]

theorem target_congr {roots : Roots} {vm vm' : Vm}
    (same : ∀ r pp, r.Table → target roots vm r = some pp → vm'.mem pp = vm.mem pp) :
    target roots vm' = target roots vm := by
  have pdes : ∀ e i, target roots vm' (.pde e i) = target roots vm (.pde e i) := by
    intro e i
    cases found : roots e with
    | none => simp [target, found]
    | some root =>
      have dir := same (.pgdir e) root.pgdir trivial (target_pgdir found)
      simp [target, found, entry, dir]
  funext r
  cases r with
  | pgdir e => rfl
  | vars e => rfl
  | pde e i => exact pdes e i
  | pte e i j =>
    cases table : target roots vm (.pde e i) with
    | none => rw [target_pte_none table, target_pte_none ((pdes e i).trans table)]
    | some t =>
      rw [target_pte table, target_pte ((pdes e i).trans table), entry, entry, same (.pde e i) t trivial table]

/-- The invariant of physical memory for the address spaces of `roots`: the reference counts of the managed
    pages are right, page directories and page tables are referred to once, and the entries that all
    address spaces share are those of the template `base`. -/
structure Pages (managed : Nat → Prop) (base : Nat) (roots : Roots) (vm : Vm) : Prop where
  accounts : RefCount.Accounts managed (target roots vm) (fun pp => (vm.ppRef pp).toNat) vm.pageFreeList
  stock : ∀ pp ∈ vm.pageFreeList, managed pp ∨ vm.holdsEnvs pp = true
  bound : ∀ pp, managed pp → pp < vm.npage
  small : vm.npage ≤ 2^20
  owned : ∀ r pp, target roots vm r = some pp → managed pp
  sole : ∀ r r' pp, r.Table → target roots vm r = some pp → target roots vm r' = some pp → r' = r
  whole : ∀ e root (i : Fin 1024), roots e = some root → ¬ Shared i →
    vm.mem root.pgdir i.val = 0 ∨ vm.mem root.pgdir i.val &&& pteV ≠ 0
  self : ∀ e root, roots e = some root → vm.mem root.pgdir (pdx uvpt) = page2pa root.pgdir ||| pteV
  copied : ∀ e root i, roots e = some root → pdx utop ≤ i → i < pdx uvpt → vm.mem root.pgdir i &&& pteV ≠ 0
  template : ∀ i, pdx utop ≤ i → i < pdx uvpt → vm.mem base i &&& pteV ≠ 0
  apart : ¬ managed base

variable {managed : Nat → Prop} {base : Nat} {roots : Roots} {vm vm' : Vm}

theorem Pages.frame (pages : Pages managed base roots vm)
    (tables : ∀ r pp, r.Table → target roots vm r = some pp → vm'.mem pp = vm.mem pp)
    (template : vm'.mem base = vm.mem base) (npage : vm'.npage = vm.npage)
    (accounts : RefCount.Accounts managed (target roots vm) (fun pp => (vm'.ppRef pp).toNat) vm'.pageFreeList)
    (stock : ∀ pp ∈ vm'.pageFreeList, managed pp ∨ vm'.holdsEnvs pp = true) : Pages managed base roots vm' := by
  have same := target_congr tables
  have dirs : ∀ e root, roots e = some root → vm'.mem root.pgdir = vm.mem root.pgdir :=
    fun e root found => tables (.pgdir e) root.pgdir trivial (target_pgdir found)
  refine ⟨same ▸ accounts, stock, npage ▸ pages.bound, npage ▸ pages.small, same ▸ pages.owned, same ▸ pages.sole,
    fun e root i found own => ?_, fun e root found => ?_, fun e root i found low high => ?_, fun i low high => ?_,
    pages.apart⟩
  · rw [dirs e root found]
    exact pages.whole e root i found own
  · rw [dirs e root found]
    exact pages.self e root found
  · rw [dirs e root found]
    exact pages.copied e root i found low high
  · rw [template]
    exact pages.template i low high

theorem Pages.target_ne (pages : Pages managed base roots vm) {r : Ref} {pp : Nat}
    (full : target roots vm r = some pp) : base ≠ pp :=
  fun same => pages.apart (same ▸ pages.owned r pp full)

theorem Pages.target_small (pages : Pages managed base roots vm) {r : Ref} {pp : Nat}
    (full : target roots vm r = some pp) : pp < 2^20 :=
  lt_of_lt_of_le (pages.bound pp (pages.owned r pp full)) pages.small

/-- A managed page without references that is not on the free list. -/
structure Fresh (managed : Nat → Prop) (roots : Roots) (vm : Vm) (pp : Nat) : Prop where
  managed : managed pp
  unused : ∀ r, target roots vm r ≠ some pp
  out : pp ∉ vm.pageFreeList

theorem pageAlloc_ok {pp : Nat} (h : pageAlloc vm = .ok pp vm') :
    ∃ rest, vm.pageFreeList = pp :: rest ∧ vm.holdsEnvs pp = false ∧
      vm' = { vm with pageFreeList := rest, mem := Function.update vm.mem pp fun _ => 0 } := by
  unfold pageAlloc at h
  split at h
  · cases h
  · split at h
    · cases h
    · rename_i rest list free
      cases h
      exact ⟨rest, list, by simpa using free, rfl⟩

theorem Pages.alloc (pages : Pages managed base roots vm) {pp : Nat} (h : pageAlloc vm = .ok pp vm') :
    Pages managed base roots vm' ∧ target roots vm' = target roots vm ∧ Fresh managed roots vm' pp ∧
      (∀ i, vm'.mem pp i = 0) ∧ vm'.ppRef = vm.ppRef := by
  obtain ⟨rest, list, notEnvs, rfl⟩ := pageAlloc_ok h
  have accounts := pages.accounts
  rw [list] at accounts
  obtain ⟨accounts, out, refs⟩ := accounts.take
  have unused := RefCount.refs_eq_zero.mp refs
  have mine : managed pp := by
    rcases pages.stock pp (by simp [list]) with mine | envs
    · exact mine
    · cases notEnvs.symm.trans envs
  have tables : ∀ r q, r.Table → target roots vm r = some q → Function.update vm.mem pp (fun _ => 0) q = vm.mem q := by
    intro r q _ full
    exact Function.update_of_ne (fun same => unused r (by rw [full, same])) _ _
  have away : base ≠ pp := fun same => pages.apart (same ▸ mine)
  have same : target roots { vm with pageFreeList := rest, mem := Function.update vm.mem pp fun _ => 0 } =
      target roots vm := target_congr tables
  refine ⟨pages.frame tables (Function.update_of_ne away _ _) rfl accounts fun q mem => ?_, same,
    ⟨mine, same ▸ unused, out⟩, fun i => by simp, rfl⟩
  exact pages.stock q (by simp [list, mem])

theorem target_of_mem (same : vm'.mem = vm.mem) : target roots vm' = target roots vm :=
  target_congr fun _ _ _ _ => congrFun same _

theorem write_mem_ne (vm : Vm) {q d : Nat} (ne : d ≠ q) (j : Nat) (w : Word) : (vm.write ⟨q, j⟩ w).mem d = vm.mem d :=
  Function.update_of_ne ne _ _

theorem write_mem_index (vm : Vm) (q : Nat) {i j : Nat} (ne : i ≠ j) (w : Word) :
    (vm.write ⟨q, j⟩ w).mem q i = vm.mem q i := by
  simp [Vm.write, ne]

theorem write_mem_self (vm : Vm) (q j : Nat) (w : Word) : (vm.write ⟨q, j⟩ w).mem q j = w := by
  simp [Vm.write]

theorem Pages.pgdir_ne_table (pages : Pages managed base roots vm) {e b : EnvPtr} {i : Fin 1024} {root : Root} {t : Nat}
    (found : roots b = some root) (table : target roots vm (.pde e i) = some t) : root.pgdir ≠ t := by
  intro same
  cases pages.sole (.pde e i) (.pgdir b) t trivial table (same ▸ target_pgdir found)

theorem Pages.pgdir_inj (pages : Pages managed base roots vm) {e b : EnvPtr} {root root' : Root}
    (found : roots e = some root) (found' : roots b = some root') (same : root'.pgdir = root.pgdir) : b = e := by
  have eq := pages.sole (.pgdir e) (.pgdir b) root.pgdir trivial (target_pgdir found) (same ▸ target_pgdir found')
  cases eq
  rfl

section pte

variable {e : EnvPtr} {i j : Fin 1024} {t : Nat} {w : Word}

theorem target_writePte (pages : Pages managed base roots vm) (table : target roots vm (.pde e i) = some t) :
    target roots (vm.write ⟨t, j.val⟩ w) = Function.update (target roots vm) (.pte e i j) (pageOf w) := by
  have pdes : ∀ b k, target roots (vm.write ⟨t, j.val⟩ w) (.pde b k) = target roots vm (.pde b k) := by
    intro b k
    cases found : roots b with
    | none => simp [target, found]
    | some root => simp [target, found, entry_write, pages.pgdir_ne_table found table]
  funext r
  cases r with
  | pgdir b => rfl
  | vars b => rfl
  | pde b k => rw [pdes, Function.update_of_ne (by simp)]
  | pte b k l =>
    cases there : target roots vm (.pde b k) with
    | none =>
      rw [target_pte_none ((pdes b k).trans there), Function.update_of_ne, target_pte_none there]
      rintro ⟨rfl, rfl, rfl⟩
      cases there.symm.trans table
    | some u =>
      rw [target_pte ((pdes b k).trans there), entry_write]
      split
      · rename_i here
        obtain ⟨rfl, rfl⟩ := here
        obtain ⟨rfl, rfl⟩ : b = e ∧ k = i := by simpa using pages.sole (.pde e i) (.pde b k) u trivial table there
        rw [Function.update_self]
      · rename_i away
        rw [Function.update_of_ne, target_pte there]
        rintro ⟨rfl, rfl, rfl⟩
        exact away ⟨Option.some.inj (there.symm.trans table), rfl⟩

theorem Pages.setPte (pages : Pages managed base roots vm) (table : target roots vm (.pde e i) = some t)
    (mem : vm'.mem = (vm.write ⟨t, j.val⟩ w).mem) (npage : vm'.npage = vm.npage)
    (accounts : RefCount.Accounts managed (Function.update (target roots vm) (.pte e i j) (pageOf w))
      (fun pp => (vm'.ppRef pp).toNat) vm'.pageFreeList)
    (stock : ∀ pp ∈ vm'.pageFreeList, managed pp ∨ vm'.holdsEnvs pp = true)
    (data : ∀ pp, pageOf w = some pp → managed pp ∧ ∀ r, r.Table → target roots vm r ≠ some pp) :
    Pages managed base roots vm' ∧ target roots vm' = Function.update (target roots vm) (.pte e i j) (pageOf w) := by
  have same : target roots vm' = Function.update (target roots vm) (.pte e i j) (pageOf w) :=
    (target_of_mem mem).trans (target_writePte pages table)
  have dirs : ∀ b root, roots b = some root → vm'.mem root.pgdir = vm.mem root.pgdir := fun b root found => by
    rw [mem, write_mem_ne vm (pages.pgdir_ne_table found table)]
  refine ⟨⟨same ▸ accounts, stock, npage ▸ pages.bound, npage ▸ pages.small, fun r pp full => ?_, fun r r' pp kind full full' => ?_,
    fun b root k found own => ?_, fun b root found => ?_, fun b root k found low high => ?_, fun k low high => ?_,
    pages.apart⟩, same⟩
  · rw [same] at full
    by_cases here : r = .pte e i j
    · rw [here, Function.update_self] at full
      exact (data pp full).1
    · rw [Function.update_of_ne here] at full
      exact pages.owned r pp full
  · rw [same] at full full'
    have other : r ≠ .pte e i j := by
      rintro rfl
      exact kind
    rw [Function.update_of_ne other] at full
    by_cases here : r' = .pte e i j
    · rw [here, Function.update_self] at full'
      exact absurd full ((data pp full').2 r kind)
    · rw [Function.update_of_ne here] at full'
      exact pages.sole r r' pp kind full full'
  · rw [dirs b root found]
    exact pages.whole b root k found own
  · rw [dirs b root found]
    exact pages.self b root found
  · rw [dirs b root found]
    exact pages.copied b root k found low high
  · rw [mem, write_mem_ne vm (pages.target_ne table)]
    exact pages.template k low high

end pte

section pde

variable {e : EnvPtr} {i : Fin 1024} {root : Root} {w : Word}

theorem target_writePde (pages : Pages managed base roots vm) (found : roots e = some root) (own : ¬ Shared i)
    (old : ∀ j, target roots vm (.pte e i j) = none)
    (new : ∀ t, pageOf w = some t → t ≠ root.pgdir ∧ ∀ j, entry vm t j = none) :
    target roots (vm.write ⟨root.pgdir, i.val⟩ w) = Function.update (target roots vm) (.pde e i) (pageOf w) := by
  have pdes : ∀ b k, target roots (vm.write ⟨root.pgdir, i.val⟩ w) (.pde b k) =
      Function.update (target roots vm) (.pde e i) (pageOf w) (.pde b k) := by
    intro b k
    cases there : roots b with
    | none =>
      have other : (Ref.pde b k) ≠ .pde e i := by
        rintro ⟨rfl, rfl⟩
        cases there.symm.trans found
      rw [Function.update_of_ne other]
      simp [target, there]
    | some root' =>
      by_cases here : b = e ∧ k = i
      · obtain ⟨rfl, rfl⟩ := here
        cases there.symm.trans found
        rw [Function.update_self, target_pde found own, entry_write, if_pos ⟨rfl, rfl⟩]
      · have other : (Ref.pde b k) ≠ .pde e i := fun same => here (by simpa using same)
        have away : ¬ (root'.pgdir = root.pgdir ∧ k = i) := fun same => here ⟨pages.pgdir_inj found there same.1, same.2⟩
        rw [Function.update_of_ne other]
        simp [target, there, entry_write, away]
  funext r
  cases r with
  | pgdir b => rw [Function.update_of_ne (by simp)]; rfl
  | vars b => rw [Function.update_of_ne (by simp)]; rfl
  | pde b k => exact pdes b k
  | pte b k l =>
    rw [Function.update_of_ne (by simp)]
    by_cases here : b = e ∧ k = i
    · obtain ⟨rfl, rfl⟩ := here
      rw [old l]
      have now := pdes b k
      rw [Function.update_self] at now
      cases value : pageOf w with
      | none => exact target_pte_none (now.trans value)
      | some t =>
        obtain ⟨away, empty⟩ := new t value
        rw [target_pte (now.trans value), entry_write, if_neg (fun same => away same.1)]
        exact empty l
    · have now := pdes b k
      rw [Function.update_of_ne (fun same => here (by simpa using same))] at now
      cases there : target roots vm (.pde b k) with
      | none => rw [target_pte_none there, target_pte_none (now.trans there)]
      | some u =>
        rw [target_pte there, target_pte (now.trans there), entry_write,
          if_neg fun same => pages.pgdir_ne_table found there same.1.symm]

theorem Pages.setPde (pages : Pages managed base roots vm) (found : roots e = some root) (own : ¬ Shared i)
    (old : ∀ j, target roots vm (.pte e i j) = none)
    (new : ∀ t, pageOf w = some t → managed t ∧ (∀ r, target roots vm r ≠ some t) ∧ ∀ j, entry vm t j = none)
    (whole : w = 0 ∨ w &&& pteV ≠ 0)
    (mem : vm'.mem = (vm.write ⟨root.pgdir, i.val⟩ w).mem) (npage : vm'.npage = vm.npage)
    (accounts : RefCount.Accounts managed (Function.update (target roots vm) (.pde e i) (pageOf w))
      (fun pp => (vm'.ppRef pp).toNat) vm'.pageFreeList)
    (stock : ∀ pp ∈ vm'.pageFreeList, managed pp ∨ vm'.holdsEnvs pp = true) :
    Pages managed base roots vm' ∧ target roots vm' = Function.update (target roots vm) (.pde e i) (pageOf w) := by
  have same : target roots vm' = Function.update (target roots vm) (.pde e i) (pageOf w) := by
    refine (target_of_mem mem).trans (target_writePde pages found own old fun t value => ?_)
    obtain ⟨_, unused, empty⟩ := new t value
    exact ⟨fun same => unused (.pgdir e) (same ▸ target_pgdir found), empty⟩
  have words : ∀ b root' k, roots b = some root' → ¬ (b = e ∧ k = i.val) → vm'.mem root'.pgdir k = vm.mem root'.pgdir k := by
    intro b root' k there away
    rw [mem]
    by_cases here : root'.pgdir = root.pgdir
    · have env := pages.pgdir_inj found there here
      rw [here, write_mem_index vm _ (fun index => away ⟨env, index⟩)]
    · rw [write_mem_ne vm here]
  refine ⟨⟨same ▸ accounts, stock, npage ▸ pages.bound, npage ▸ pages.small, fun r pp full => ?_, fun r r' pp kind full full' => ?_,
    fun b root' k there own' => ?_, fun b root' there => ?_, fun b root' k there low high => ?_, fun k low high => ?_,
    pages.apart⟩, same⟩
  · rw [same] at full
    by_cases here : r = .pde e i
    · rw [here, Function.update_self] at full
      exact (new pp full).1
    · rw [Function.update_of_ne here] at full
      exact pages.owned r pp full
  · rw [same] at full full'
    by_cases here : r = .pde e i <;> by_cases here' : r' = .pde e i
    · rw [here, here']
    · rw [here, Function.update_self] at full
      rw [Function.update_of_ne here'] at full'
      exact absurd full' ((new pp full).2.1 r')
    · rw [here', Function.update_self] at full'
      rw [Function.update_of_ne here] at full
      exact absurd full ((new pp full').2.1 r)
    · rw [Function.update_of_ne here] at full
      rw [Function.update_of_ne here'] at full'
      exact pages.sole r r' pp kind full full'
  · by_cases here : b = e ∧ k = i
    · obtain ⟨rfl, rfl⟩ := here
      cases there.symm.trans found
      rw [mem, write_mem_self]
      exact whole
    · rw [words b root' k.val there fun same => here ⟨same.1, Fin.ext same.2⟩]
      exact pages.whole b root' k there own'
  · rw [words b root' _ there fun same => own ⟨by rw [← same.2]; decide, by rw [← same.2]⟩]
    exact pages.self b root' there
  · rw [words b root' k there fun same => own ⟨same.2 ▸ low, same.2 ▸ high.le⟩]
    exact pages.copied b root' k there low high
  · rw [mem, write_mem_ne vm (pages.target_ne (target_pgdir found))]
    exact pages.template k low high

end pde

section root

variable {e : EnvPtr} {d : Nat}

theorem target_other {x : Option Root} {r : Ref} (away : r.env ≠ e) (mem : vm'.mem = vm.mem) :
    target (Function.update roots e x) vm' r = target roots vm r := by
  cases r <;> rw [Ref.env] at away <;> simp [target, entry, mem, away]

theorem update_other {T : Ref → Option Nat} {r s : Ref} {x : Option Nat} (away : s.env ≠ r.env) :
    Function.update T r x s = T s :=
  Function.update_of_ne (fun same => away (congrArg Ref.env same)) _ _

theorem Pages.setVars (pages : Pages managed base roots vm) {old new : Option Nat} (found : roots e = some ⟨d, old⟩)
    (mem : vm'.mem = vm.mem) (npage : vm'.npage = vm.npage)
    (accounts : RefCount.Accounts managed (Function.update (target roots vm) (.vars e) new)
      (fun pp => (vm'.ppRef pp).toNat) vm'.pageFreeList)
    (stock : ∀ pp ∈ vm'.pageFreeList, managed pp ∨ vm'.holdsEnvs pp = true)
    (data : ∀ pp, new = some pp → managed pp ∧ ∀ r, target roots vm r ≠ some pp) :
    Pages managed base (Function.update roots e (some ⟨d, new⟩)) vm' ∧
      target (Function.update roots e (some ⟨d, new⟩)) vm' = Function.update (target roots vm) (.vars e) new := by
  have same : target (Function.update roots e (some ⟨d, new⟩)) vm' = Function.update (target roots vm) (.vars e) new := by
    funext r
    by_cases here : r.env = e
    · cases r <;> simp only [Ref.env] at here <;> subst here
      · rw [Function.update_of_ne (by simp)]
        simp [target, found]
      · simp [target]
      · rw [Function.update_of_ne (by simp)]
        simp [target, found, entry, mem]
      · rw [Function.update_of_ne (by simp)]
        simp [target, found, entry, mem]
    · rw [target_other here mem, update_other here]
  have dirs : ∀ b root, Function.update roots e (some ⟨d, new⟩) b = some root →
      ∃ root', roots b = some root' ∧ root'.pgdir = root.pgdir := by
    intro b root there
    by_cases here : b = e
    · subst here
      rw [Function.update_self] at there
      cases there
      exact ⟨_, found, rfl⟩
    · rw [Function.update_of_ne here] at there
      exact ⟨root, there, rfl⟩
  refine ⟨⟨same ▸ accounts, stock, npage ▸ pages.bound, npage ▸ pages.small, fun r pp full => ?_, fun r r' pp kind full full' => ?_,
    fun b root k there own => ?_, fun b root there => ?_, fun b root k there low high => ?_, fun k low high => ?_,
    pages.apart⟩, same⟩
  · rw [same] at full
    by_cases here : r = .vars e
    · rw [here, Function.update_self] at full
      exact (data pp full).1
    · rw [Function.update_of_ne here] at full
      exact pages.owned r pp full
  · rw [same] at full full'
    have other : r ≠ .vars e := by
      rintro rfl
      exact kind
    rw [Function.update_of_ne other] at full
    by_cases here : r' = .vars e
    · rw [here, Function.update_self] at full'
      exact absurd full ((data pp full').2 r)
    · rw [Function.update_of_ne here] at full'
      exact pages.sole r r' pp kind full full'
  · obtain ⟨root', there', dir⟩ := dirs b root there
    rw [mem, ← dir]
    exact pages.whole b root' k there' own
  · obtain ⟨root', there', dir⟩ := dirs b root there
    rw [mem, ← dir]
    exact pages.self b root' there'
  · obtain ⟨root', there', dir⟩ := dirs b root there
    rw [mem, ← dir]
    exact pages.copied b root' k there' low high
  · rw [mem]
    exact pages.template k low high

theorem Pages.addRoot (pages : Pages managed base roots vm) (page : Nat → Word) (absent : roots e = none)
    (mine : managed d) (unused : ∀ r, target roots vm r ≠ some d) (mem : vm'.mem = Function.update vm.mem d page)
    (empty : ∀ i : Fin 1024, ¬ Shared i → page i.val = 0) (self : page (pdx uvpt) = page2pa d ||| pteV)
    (copied : ∀ i, pdx utop ≤ i → i < pdx uvpt → page i &&& pteV ≠ 0) (npage : vm'.npage = vm.npage)
    (accounts : RefCount.Accounts managed (Function.update (target roots vm) (.pgdir e) (some d))
      (fun pp => (vm'.ppRef pp).toNat) vm'.pageFreeList)
    (stock : ∀ pp ∈ vm'.pageFreeList, managed pp ∨ vm'.holdsEnvs pp = true) :
    Pages managed base (Function.update roots e (some ⟨d, none⟩)) vm' ∧
      target (Function.update roots e (some ⟨d, none⟩)) vm' = Function.update (target roots vm) (.pgdir e) (some d) := by
  have kept : ∀ r pp, target roots vm r = some pp → vm'.mem pp = vm.mem pp := by
    intro r pp full
    rw [mem, Function.update_of_ne fun same => unused r (by rw [full, same])]
  have before : target roots vm' = target roots vm := target_congr fun r pp _ => kept r pp
  have pde : ∀ k, target (Function.update roots e (some ⟨d, none⟩)) vm' (.pde e k) = none := by
    intro k
    by_cases own : Shared k
    · simp [target, own]
    · simp [target, own, entry, mem, empty k own]
  have same : target (Function.update roots e (some ⟨d, none⟩)) vm' =
      Function.update (target roots vm) (.pgdir e) (some d) := by
    rw [← before]
    funext r
    by_cases here : r.env = e
    · cases r <;> simp only [Ref.env] at here <;> subst here
      · simp [target]
      · rw [Function.update_of_ne (by simp)]
        simp [target, absent]
      · rw [Function.update_of_ne (by simp), pde]
        simp [target, absent]
      · rw [Function.update_of_ne (by simp), target_pte_none (pde _)]
        simp [target, absent]
    · rw [target_other here rfl, update_other here]
  have dirs : ∀ b root, Function.update roots e (some ⟨d, none⟩) b = some root →
      (root.pgdir = d ∧ vm'.mem root.pgdir = page) ∨ (roots b = some root ∧ vm'.mem root.pgdir = vm.mem root.pgdir) := by
    intro b root there
    by_cases here : b = e
    · subst here
      rw [Function.update_self] at there
      cases there
      exact Or.inl ⟨rfl, by rw [mem, Function.update_self]⟩
    · rw [Function.update_of_ne here] at there
      exact Or.inr ⟨there, kept (.pgdir b) _ (target_pgdir there)⟩
  refine ⟨⟨same ▸ accounts, stock, npage ▸ pages.bound, npage ▸ pages.small, fun r pp full => ?_, fun r r' pp kind full full' => ?_,
    fun b root k there own => ?_, fun b root there => ?_, fun b root k there low high => ?_, fun k low high => ?_,
    pages.apart⟩, same⟩
  · rw [same] at full
    by_cases here : r = .pgdir e
    · rw [here, Function.update_self] at full
      exact Option.some.inj full ▸ mine
    · rw [Function.update_of_ne here] at full
      exact pages.owned r pp full
  · rw [same] at full full'
    by_cases here : r = .pgdir e <;> by_cases here' : r' = .pgdir e
    · rw [here, here']
    · rw [here, Function.update_self] at full
      rw [Function.update_of_ne here', ← full] at full'
      exact absurd full' (unused r')
    · rw [here', Function.update_self] at full'
      rw [Function.update_of_ne here, ← full'] at full
      exact absurd full (unused r)
    · rw [Function.update_of_ne here] at full
      rw [Function.update_of_ne here'] at full'
      exact pages.sole r r' pp kind full full'
  · rcases dirs b root there with ⟨_, words⟩ | ⟨there, words⟩
    · rw [words]
      exact Or.inl (empty k own)
    · rw [words]
      exact pages.whole b root k there own
  · rcases dirs b root there with ⟨dir, words⟩ | ⟨there, words⟩
    · rw [words, self, dir]
    · rw [words]
      exact pages.self b root there
  · rcases dirs b root there with ⟨_, words⟩ | ⟨there, words⟩
    · rw [words]
      exact copied k low high
    · rw [words]
      exact pages.copied b root k there low high
  · have away : base ≠ d := fun same => pages.apart (same.symm ▸ mine)
    rw [mem, Function.update_of_ne away]
    exact pages.template k low high

/-- `e` loses its page directory. The tables that the directory still names have no entries, and are lost. -/
theorem Pages.dropRoot {left : Nat → Prop} (pages : Pages managed base roots vm) (found : roots e = some ⟨d, none⟩)
    (bare : ∀ i j, target roots vm (.pte e i j) = none)
    (stays : ∀ q, left q ↔ managed q ∧ ∀ i, target roots vm (.pde e i) ≠ some q) (mem : vm'.mem = vm.mem)
    (npage : vm'.npage = vm.npage) (accounts : RefCount.Accounts managed (Function.update (target roots vm) (.pgdir e) none)
      (fun pp => (vm'.ppRef pp).toNat) vm'.pageFreeList)
    (stock : ∀ pp ∈ vm'.pageFreeList, managed pp ∨ vm'.holdsEnvs pp = true) :
    Pages left base (Function.update roots e none) vm' := by
  have gone : ∀ r, r.env = e → target (Function.update roots e none) vm' r = none := by
    intro r here
    cases r <;> simp only [Ref.env] at here <;> subst here <;> simp [target]
  have same : ∀ r, r.env ≠ e → target (Function.update roots e none) vm' r = target roots vm r :=
    fun r away => target_other away mem
  have before : ∀ r pp, target (Function.update roots e none) vm' r = some pp → r.env ≠ e ∧ target roots vm r = some pp := by
    intro r pp full
    have away : r.env ≠ e := by
      intro here
      rw [gone r here] at full
      cases full
    rw [same r away] at full
    exact ⟨away, full⟩
  have dropped : ∀ r, r.env ≠ e → Function.update (target roots vm) (.pgdir e) none r = target roots vm r := by
    intro r away
    refine Function.update_of_ne ?_ _ _
    rintro rfl
    exact away rfl
  have settled : RefCount.Accounts left (target (Function.update roots e none) vm') (fun pp => (vm'.ppRef pp).toNat)
      vm'.pageFreeList := by
    refine accounts.forget (fun r pp full => ?_) fun q mine => ⟨((stays q).mp mine).1, fun r full => ?_⟩
    · obtain ⟨away, full⟩ := before r pp full
      rw [dropped r away]
      exact full
    · by_cases here : r.env = e
      · exfalso
        cases r <;> simp only [Ref.env] at here <;> subst here
        · rw [Function.update_self] at full
          cases full
        · rw [Function.update_of_ne (by simp)] at full
          simp [target, found] at full
        · rw [Function.update_of_ne (by simp)] at full
          exact ((stays q).mp mine).2 _ full
        · rw [Function.update_of_ne (by simp), bare] at full
          cases full
      · rw [same r here, ← dropped r here]
        exact full
  have roots' : ∀ b root, Function.update roots e none b = some root → roots b = some root := by
    intro b root there
    by_cases here : b = e
    · rw [here, Function.update_self] at there
      cases there
    · rwa [Function.update_of_ne here] at there
  refine ⟨settled, fun pp inside => (stock pp inside).imp_left fun mine => (stays pp).mpr ⟨mine, fun i full => ?_⟩,
    fun q mine => npage ▸ pages.bound q ((stays q).mp mine).1, npage ▸ pages.small, fun r pp full => ?_,
    fun r r' pp kind full full' => pages.sole r r' pp kind (before r pp full).2 (before r' pp full').2,
    fun b root k there own => ?_, fun b root there => ?_, fun b root k there low high => ?_, fun k low high => ?_,
    fun mine => pages.apart ((stays base).mp mine).1⟩
  · refine RefCount.refs_eq_zero.mp (accounts.idle pp inside) (.pde e i) ?_
    rw [Function.update_of_ne (by simp)]
    exact full
  · obtain ⟨away, full⟩ := before r pp full
    refine (stays pp).mpr ⟨pages.owned r pp full, fun i lost => away ?_⟩
    rw [pages.sole (.pde e i) r pp trivial lost full]
    rfl
  · rw [mem]
    exact pages.whole b root k (roots' b root there) own
  · rw [mem]
    exact pages.self b root (roots' b root there)
  · rw [mem]
    exact pages.copied b root k (roots' b root there) low high
  · rw [mem]
    exact pages.template k low high

end root

end Mos
