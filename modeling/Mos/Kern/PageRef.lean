import Mos.Kern.Refs

namespace Mos

variable {managed : Nat → Prop} {base : Nat} {roots : Roots} {vm vm' : Vm}

def pdxFin (va : Word) : Fin 1024 := ⟨pdx va, pdx_lt va⟩
def ptxFin (va : Word) : Fin 1024 := ⟨ptx va, ptx_lt va⟩

theorem pdx_user {va : Word} (user : va < utop) : ¬ Shared (pdxFin va) := by
  intro shared
  have low : pdx utop ≤ pdx va := shared.1
  have small : va.toNat < 0x7f400000 := user
  rw [pdx_eq, pdx_eq] at low
  have top : utop.toNat = 0x7f400000 := by decide
  omega

theorem Pages.sameVm (pages : Pages managed base roots vm) (mem : vm'.mem = vm.mem) (ppRef : vm'.ppRef = vm.ppRef)
    (freeList : vm'.pageFreeList = vm.pageFreeList) (npage : vm'.npage = vm.npage) (envs : vm'.envsBase = vm.envsBase) :
    Pages managed base roots vm' := by
  refine pages.frame (fun _ _ _ _ => congrFun mem _) (congrFun mem _) npage ?_ fun pp inside => ?_
  · rw [ppRef, freeList]
    exact pages.accounts
  · rw [Vm.holdsEnvs, envs]
    exact pages.stock pp (freeList ▸ inside)

theorem Pages.tlb (pages : Pages managed base roots vm) (asid va : Word) :
    Pages managed base roots (tlbInvalidate vm asid va) := pages.sameVm rfl rfl rfl rfl rfl

theorem incRef_count {pp : Nat} (room : vm.ppRef pp ≠ 65535) :
    ((vm.incRef pp).ppRef pp).toNat = (vm.ppRef pp).toNat + 1 := by
  have full : (vm.ppRef pp).toNat ≠ 65535 := fun same => room (BitVec.eq_of_toNat_eq same)
  have bound := (vm.ppRef pp).isLt
  have one : (1 : BitVec 16).toNat = 1 := by decide
  simp only [Vm.incRef, Vm.setRef, Function.update_self, BitVec.toNat_add, one]
  omega

theorem incRef_others {pp q : Nat} (ne : q ≠ pp) : ((vm.incRef pp).ppRef q).toNat = (vm.ppRef q).toNat := by
  simp [Vm.incRef, Vm.setRef, ne]

/-- What `page_decref` of `pp` changes. -/
structure Decref (vm vm' : Vm) (pp : Nat) : Prop where
  mem : vm'.mem = vm.mem
  npage : vm'.npage = vm.npage
  envs : vm'.envsBase = vm.envsBase
  others : ∀ q, q ≠ pp → vm'.ppRef q = vm.ppRef q
  freed : ∀ q ∈ vm'.pageFreeList, q = pp ∨ q ∈ vm.pageFreeList

theorem Pages.decref (pages : Pages managed base roots vm) {r : Ref} {pp : Nat} {u : Unit}
    (full : target roots vm r = some pp) (h : pageDecref vm pp = .ok u vm') :
    Decref vm vm' pp ∧ RefCount.Accounts managed (Function.update (target roots vm) r none)
      (fun q => (vm'.ppRef q).toNat) vm'.pageFreeList := by
  have mine := pages.owned r pp full
  rcases pageDecref_cases vm pp with ⟨_, eq⟩ | ⟨one, eq⟩ | ⟨many, eq⟩ <;> rw [eq] at h <;> cases h
  · have others : ∀ q, q ≠ pp → (vm.setRef pp 0).ppRef q = vm.ppRef q := fun q ne => Function.update_of_ne ne _ _
    refine ⟨⟨rfl, rfl, rfl, others, fun q mem => by simpa using mem⟩,
      pages.accounts.release mine full (by rw [one]; rfl) (by simp [Vm.setRef]) fun q ne => congrArg _ (others q ne)⟩
  · have others : ∀ q, q ≠ pp → (vm.setRef pp (vm.ppRef pp - 1)).ppRef q = vm.ppRef q :=
      fun q ne => Function.update_of_ne ne _ _
    refine ⟨⟨rfl, rfl, rfl, others, fun q mem => Or.inr mem⟩,
      pages.accounts.drop full ?_ fun q ne => congrArg _ (others q ne)⟩
    have bound := (vm.ppRef pp).isLt
    have one : (1 : BitVec 16).toNat = 1 := by decide
    simp only [Vm.setRef, Function.update_self, BitVec.toNat_sub, one]
    omega

theorem Pages.stock_decref (pages : Pages managed base roots vm) {pp : Nat} (decref : Decref vm vm' pp)
    (mine : managed pp) : ∀ q ∈ vm'.pageFreeList, managed q ∨ vm'.holdsEnvs q = true := by
  intro q mem
  rcases decref.freed q mem with rfl | mem
  · exact Or.inl mine
  · rw [Vm.holdsEnvs, decref.envs]
    exact pages.stock q mem

section user

variable {e : EnvPtr} {root : Root} {va asid : Word}

theorem Pages.noPage (_ : Pages managed base roots vm) (found : roots e = some root) (own : ¬ Shared (pdxFin va))
    (no : NoPage vm root.pgdir va) : target roots vm (.pte e (pdxFin va) (ptxFin va)) = none := by
  rcases no with absent | ⟨_, invalid⟩
  · refine target_pte_none ?_
    rw [target_pde found own, entry, pageOf, if_pos]
    rw [show vm.mem root.pgdir (pdxFin va).val = 0 from absent]
    rfl
  · cases table : target roots vm (.pde e (pdxFin va)) with
    | none => exact target_pte_none table
    | some t =>
      rw [target_pte table, entry, pageOf, if_pos]
      rw [target_pde found own, entry, pageOf_some] at table
      rw [← table.2]
      exact invalid

theorem Pages.hasTable (pages : Pages managed base roots vm) (found : roots e = some root) (own : ¬ Shared (pdxFin va))
    (table : pdeOf vm root.pgdir va ≠ 0) :
    target roots vm (.pde e (pdxFin va)) = some (ppn (pdeOf vm root.pgdir va)) := by
  rw [target_pde found own, entry, pageOf_some]
  exact ⟨(pages.whole e root (pdxFin va) found own).resolve_left table, rfl⟩

theorem Pages.hasPage (pages : Pages managed base roots vm) (found : roots e = some root) (own : ¬ Shared (pdxFin va))
    (has : HasPage vm root.pgdir va) :
    target roots vm (.pte e (pdxFin va) (ptxFin va)) = some (ppn (pteAt vm root.pgdir va)) := by
  rw [target_pte (pages.hasTable found own has.table), entry, pageOf_some]
  exact ⟨has.valid, rfl⟩

/-- `page_remove` empties the slot for `va` and counts its page down. -/
structure Removed (managed : Nat → Prop) (base : Nat) (roots : Roots) (vm vm' : Vm) (e : EnvPtr) (va : Word) :
    Prop where
  pages : Pages managed base roots vm'
  targets : target roots vm' = Function.update (target roots vm) (.pte e (pdxFin va) (ptxFin va)) none
  others : ∀ q, target roots vm (.pte e (pdxFin va) (ptxFin va)) ≠ some q → vm'.ppRef q = vm.ppRef q
  freed : ∀ q ∈ vm'.pageFreeList, target roots vm (.pte e (pdxFin va) (ptxFin va)) = some q ∨ q ∈ vm.pageFreeList

theorem Pages.remove (pages : Pages managed base roots vm) {u : Unit} (found : roots e = some root)
    (own : ¬ Shared (pdxFin va)) (h : pageRemove vm root.pgdir asid va = .ok u vm') :
    Removed managed base roots vm vm' e va := by
  rcases pageLookup_cases vm root.pgdir va with no | has | stop
  · rw [pageRemove_none no] at h
    cases h
    refine ⟨pages, ?_, fun q _ => rfl, fun q mem => Or.inr mem⟩
    rw [← pages.noPage found own no, Function.update_eq_self]
  · rw [pageRemove_some has] at h
    obtain ⟨_, mid, decref, h⟩ := Result.bind_ok h
    cases h
    have full := pages.hasPage found own has
    obtain ⟨dec, accounts⟩ := pages.decref full decref
    have table := pages.hasTable found own has.table
    obtain ⟨pages', targets⟩ :
        Pages managed base roots (tlbInvalidate (mid.write ⟨ppn (pdeOf vm root.pgdir va), ptx va⟩ 0) asid va) ∧
          target roots (tlbInvalidate (mid.write ⟨ppn (pdeOf vm root.pgdir va), ptx va⟩ 0) asid va) =
            Function.update (target roots vm) (.pte e (pdxFin va) (ptxFin va)) (pageOf 0) := by
      have stock := pages.stock_decref dec (pages.owned _ _ full)
      refine pages.setPte table ?_ dec.npage accounts stock fun pp full => (by cases full)
      simp [tlbInvalidate, Vm.write, dec.mem, ptxFin]
    refine ⟨pages', targets, fun q ne => dec.others q fun same => ne (same ▸ full), fun q mem => ?_⟩
    rcases dec.freed q mem with rfl | mem
    · exact Or.inl full
    · exact Or.inr mem
  · rw [pageRemove, stop] at h
    cases h

/-- A page that may be mapped: it is managed, holds no table and is not on the free list. -/
structure Data (managed : Nat → Prop) (roots : Roots) (vm : Vm) (pp : Nat) : Prop where
  mine : managed pp
  notTable : ∀ r, r.Table → target roots vm r ≠ some pp
  out : pp ∉ vm.pageFreeList

theorem Fresh.data {pp : Nat} (fresh : Fresh managed roots vm pp) : Data managed roots vm pp :=
  ⟨fresh.managed, fun r _ => fresh.unused r, fresh.out⟩

theorem Pages.data (pages : Pages managed base roots vm) {i j : Fin 1024} {pp : Nat}
    (full : target roots vm (.pte e i j) = some pp) : Data managed roots vm pp := by
  refine ⟨pages.owned _ pp full, fun r kind same => ?_, pages.accounts.busy full⟩
  have eq := pages.sole r (.pte e i j) pp kind same full
  rw [← eq] at kind
  exact kind

theorem Pages.fresh_count (pages : Pages managed base roots vm) {pp : Nat} (fresh : Fresh managed roots vm pp) :
    vm.ppRef pp ≠ 65535 := by
  intro full
  have counted := pages.accounts.counted pp fresh.managed
  rw [RefCount.refs_eq_zero.mpr fresh.unused, full] at counted
  cases counted

theorem pageOf_table {pp : Nat} (bound : pp < 2^20) : pageOf (page2pa pp ||| pteCCacheable ||| pteV) = some pp := by
  refine pageOf_some.mpr ⟨fun h => ?_, ?_⟩
  · have bit := congrArg (fun w : Word => w.getLsbD 7) h
    simp [pteV] at bit
  · rw [ppn_or_flags _ pteV (by decide), ppn_or_flags _ pteCCacheable (by decide), ppn_page2pa bound]

theorem Pages.addRef (pages : Pages managed base roots vm) {r : Ref} {pp : Nat} (empty : target roots vm r = none)
    (out : pp ∉ vm.pageFreeList) (room : vm.ppRef pp ≠ 65535) :
    RefCount.Accounts managed (Function.update (target roots vm) r (some pp)) (fun q => ((vm.incRef pp).ppRef q).toNat)
      vm.pageFreeList :=
  pages.accounts.add empty out (incRef_count room) fun _ ne => incRef_others ne

theorem Pages.linkTable (pages : Pages managed base roots vm) {i : Fin 1024} {t : Nat} {w : Word}
    (found : roots e = some root) (own : ¬ Shared i) (absent : target roots vm (.pde e i) = none)
    (fresh : Fresh managed roots vm t) (zero : ∀ k, vm.mem t k = 0) (value : pageOf w = some t) :
    Pages managed base roots ((vm.write ⟨root.pgdir, i.val⟩ w).incRef t) ∧
      target roots ((vm.write ⟨root.pgdir, i.val⟩ w).incRef t) =
        Function.update (target roots vm) (.pde e i) (some t) := by
  have accounts := pages.addRef absent fresh.out (pages.fresh_count fresh)
  rw [← value] at accounts ⊢
  refine pages.setPde found own (fun j => target_pte_none absent) (fun q full => ?_)
    (Or.inr (pageOf_some.mp value).1) rfl rfl accounts pages.stock
  obtain rfl : t = q := Option.some.inj (value.symm.trans full)
  exact ⟨fresh.managed, fresh.unused, fun j => by rw [entry, zero]; rfl⟩

theorem Pages.linkPage (pages : Pages managed base roots vm) {i j : Fin 1024} {t pp : Nat} {w : Word}
    (table : target roots vm (.pde e i) = some t) (empty : target roots vm (.pte e i j) = none)
    (data : Data managed roots vm pp) (room : vm.ppRef pp ≠ 65535) (value : pageOf w = some pp) :
    Pages managed base roots ((vm.write ⟨t, j.val⟩ w).incRef pp) ∧
      target roots ((vm.write ⟨t, j.val⟩ w).incRef pp) =
        Function.update (target roots vm) (.pte e i j) (some pp) := by
  have accounts := pages.addRef empty data.out room
  rw [← value] at accounts ⊢
  refine pages.setPte table rfl rfl accounts pages.stock fun q full => ?_
  obtain rfl : pp = q := Option.some.inj (value.symm.trans full)
  exact ⟨data.mine, data.notTable⟩

/-- What `pgdir_walk` with `create` set does to the references: the page table of `va` is there. -/
structure Walked (managed : Nat → Prop) (base : Nat) (roots : Roots) (vm vm' : Vm) (e : EnvPtr) (va : Word) (t : Nat) :
    Prop where
  pages : Pages managed base roots vm'
  targets : target roots vm' = Function.update (target roots vm) (.pde e (pdxFin va)) (some t)
  data : ∀ pp, Data managed roots vm pp → Data managed roots vm' pp ∧ vm'.ppRef pp = vm.ppRef pp

theorem Pages.walk (pages : Pages managed base roots vm) {at_ : Option PtePtr} (found : roots e = some root)
    (own : ¬ Shared (pdxFin va)) (h : pgdirWalk vm root.pgdir va true = .ok at_ vm') :
    ∃ t, at_ = some ⟨t, ptx va⟩ ∧ Walked managed base roots vm vm' e va t := by
  unfold pgdirWalk at h
  split at h
  · rename_i absent
    simp only [if_true] at h
    obtain ⟨t, mid, alloc, h⟩ := Result.bind_ok h
    obtain ⟨pagesMid, same, fresh, zero, counts⟩ := pages.alloc alloc
    obtain ⟨rest, list, _, eq⟩ := pageAlloc_ok alloc
    have bound : t < 2^20 := lt_of_lt_of_le (pagesMid.bound t fresh.managed) pagesMid.small
    unfold pteIn at h
    split at h
    · cases h
    · cases h
      have empty : target roots mid (.pde e (pdxFin va)) = none := by
        rw [same, target_pde found own, entry, pageOf, if_pos]
        rw [show vm.mem root.pgdir (pdxFin va).val = 0 from absent]
        rfl
      obtain ⟨pages', targets⟩ := pagesMid.linkTable found own empty fresh zero (pageOf_table bound)
      rw [same] at targets
      refine ⟨t, by rw [(pageOf_some.mp (pageOf_table bound)).2], pages', targets, fun pp data => ?_⟩
      have other : pp ≠ t := by
        rintro rfl
        exact data.out (by simp [list])
      refine ⟨⟨data.mine, fun r kind => ?_, fun mem => data.out ?_⟩, ?_⟩
      · intro full
        have full' := (congrFun targets r).symm.trans full
        by_cases here : r = .pde e (pdxFin va)
        · rw [here, Function.update_self] at full'
          exact other (Option.some.inj full').symm
        · rw [Function.update_of_ne here] at full'
          exact data.notTable r kind full'
      · rw [eq] at mem
        rw [list]
        exact List.mem_cons_of_mem _ mem
      · simp [Vm.incRef, Vm.setRef, Vm.write, other, counts]
  · rename_i present
    unfold pteIn at h
    split at h
    · cases h
    · cases h
      refine ⟨_, rfl, pages, ?_, fun pp data => ⟨data, rfl⟩⟩
      have table := pages.hasTable found own present
      rw [pdeOf] at table
      rw [← table, Function.update_eq_self]

theorem Pages.insertNew (pages : Pages managed base roots vm) {pp : Nat} {perm : Word} {u : Unit}
    (found : roots e = some root) (own : ¬ Shared (pdxFin va)) (data : Data managed roots vm pp)
    (empty : target roots vm (.pte e (pdxFin va) (ptxFin va)) = none) (flags : FlagBits perm)
    (room : vm.ppRef pp ≠ 65535) (h : pageInsertNew vm root.pgdir asid pp va perm = .ok u vm') :
    Pages managed base roots vm' := by
  obtain ⟨at_, mid, walk, h⟩ := Result.bind_ok h
  obtain ⟨t, rfl, walked⟩ := (pages.tlb asid va).walk found own walk
  cases h
  have small : pp < 2^20 := lt_of_lt_of_le (pages.bound pp data.mine) pages.small
  obtain ⟨data', same⟩ := walked.data pp ⟨data.mine, data.notTable, data.out⟩
  have table : target roots mid (.pde e (pdxFin va)) = some t := by rw [walked.targets, Function.update_self]
  have empty' : target roots mid (.pte e (pdxFin va) (ptxFin va)) = none := by
    rw [walked.targets, Function.update_of_ne (by simp)]
    exact empty
  exact (walked.pages.linkPage table empty' data' (by rw [same]; exact room) (pageOf_pteOf small flags)).1

theorem Removed.data {pp : Nat} (removed : Removed managed base roots vm vm' e va) (data : Data managed roots vm pp)
    (other : target roots vm (.pte e (pdxFin va) (ptxFin va)) ≠ some pp) : Data managed roots vm' pp := by
  refine ⟨data.mine, fun r kind there => ?_, fun mem => ?_⟩
  · rw [removed.targets] at there
    by_cases here : r = .pte e (pdxFin va) (ptxFin va)
    · rw [here] at kind
      exact kind
    · rw [Function.update_of_ne here] at there
      exact data.notTable r kind there
  · rcases removed.freed pp mem with here | mem
    · exact other here
    · exact data.out mem

/-- `page_insert` adds a reference to `pp` unless `pp` is mapped at `va` already. -/
def Adds (vm : Vm) (pgdir : Nat) (va : Word) (pp : Nat) : Prop :=
  ¬ (HasPage vm pgdir va ∧ ppn (pteAt vm pgdir va) = pp)

theorem Pages.insert (pages : Pages managed base roots vm) {pp : Nat} {perm : Word} {u : Unit}
    (found : roots e = some root) (own : ¬ Shared (pdxFin va)) (data : Data managed roots vm pp) (flags : FlagBits perm)
    (room : Adds vm root.pgdir va pp → vm.ppRef pp ≠ 65535)
    (h : pageInsert vm root.pgdir asid pp va perm = .ok u vm') : Pages managed base roots vm' := by
  obtain ⟨at_, mid, lookup, h⟩ := Result.bind_ok h
  obtain ⟨rfl, ⟨no, rfl⟩ | ⟨has, rfl⟩⟩ := pageLookup_ok lookup
  · exact pages.insertNew found own data (pages.noPage found own no) flags (room fun both => no.not_hasPage both.1) h
  · have full := pages.hasPage found own has
    dsimp only at h
    split at h
    · rename_i other
      obtain ⟨_, left, remove, h⟩ := Result.bind_ok h
      have removed := pages.remove found own remove
      have unlike : target roots mid (.pte e (pdxFin va) (ptxFin va)) ≠ some pp :=
        fun here => other (Option.some.inj (full.symm.trans here))
      have data' := removed.data data unlike
      have same : left.ppRef pp = mid.ppRef pp := removed.others pp unlike
      refine removed.pages.insertNew found own data' ?_ flags ?_ h
      · rw [removed.targets, Function.update_self]
      · rw [same]
        exact room fun both => other both.2
    · rename_i same
      cases h
      have small : pp < 2^20 := lt_of_lt_of_le (pages.bound pp data.mine) pages.small
      have value := pageOf_pteOf small flags
      have kept : Function.update (target roots mid) (.pte e (pdxFin va) (ptxFin va)) (pageOf (pteOf pp perm)) =
          target roots mid := by
        rw [value, ← not_not.mp same, ← full, Function.update_eq_self]
      refine (pages.setPte (pages.hasTable found own has.table) (j := ptxFin va) (w := pteOf pp perm) ?_ ?_ ?_ ?_
        fun q eq => ?_).1
      · rfl
      · rfl
      · rw [kept]
        exact pages.accounts
      · exact pages.stock
      · obtain rfl : pp = q := Option.some.inj (value.symm.trans eq)
        exact ⟨data.mine, data.notTable⟩

theorem self_valid (pp : Nat) : (page2pa pp ||| pteV) &&& pteV ≠ 0 := by
  intro zero
  have bit := congrArg (fun w : Word => w.getLsbD 7) zero
  simp [pteV] at bit

theorem Pages.windowTable (pages : Pages managed base roots vm) (found : roots e = some root)
    (window : pdx va = pdx uvpt) : pdeOf vm root.pgdir va ≠ 0 ∧ ppn (pdeOf vm root.pgdir va) = root.pgdir := by
  have pde : pdeOf vm root.pgdir va = page2pa root.pgdir ||| pteV := by
    rw [pdeOf, window]
    exact pages.self e root found
  rw [pde]
  refine ⟨fun absent => self_valid root.pgdir (by rw [absent]; rfl), ?_⟩
  rw [ppn_or_flags _ pteV (by decide), ppn_page2pa (pages.target_small (target_pgdir found))]

theorem Pages.window_noPage (pages : Pages managed base roots vm) (found : roots e = some root)
    (window : pdx va = pdx uvpt) : NoPage vm root.pgdir va ↔ vm.mem root.pgdir (ptx va) &&& pteV = 0 := by
  obtain ⟨present, table⟩ := pages.windowTable found window
  have bound := pages.bound _ (pages.owned _ _ (target_pgdir found))
  rw [NoPage, pteAt, table]
  exact ⟨fun no => (no.resolve_left present).2, fun invalid => Or.inr ⟨bound, invalid⟩⟩

theorem Pages.window_empty (pages : Pages managed base roots vm) (found : roots e = some root)
    (window : pdx va = pdx uvpt) (no : NoPage vm root.pgdir va) :
    ¬ Shared (ptxFin va) ∧ target roots vm (.pde e (ptxFin va)) = none := by
  have invalid := (pages.window_noPage found window).mp no
  have own : ¬ Shared (ptxFin va) := by
    rintro ⟨low, high⟩
    rcases Nat.lt_or_eq_of_le high with inside | last
    · exact pages.copied e root (ptx va) found low inside invalid
    · have self := pages.self e root found
      rw [← last] at self
      rw [show vm.mem root.pgdir (ptx va) = _ from self] at invalid
      exact self_valid _ invalid
  refine ⟨own, ?_⟩
  rw [target_pde found own, entry, pageOf, if_pos]
  exact invalid

theorem Pages.insertTable_eq (pages : Pages managed base roots vm) {pp : Nat} {u : Unit} (found : roots e = some root)
    (window : pdx va = pdx uvpt) (no : NoPage vm root.pgdir va) (h : pageInsert vm root.pgdir asid pp va 0 = .ok u vm') :
    vm' = ((tlbInvalidate vm asid va).write ⟨root.pgdir, (ptxFin va).val⟩ (pteOf pp 0)).incRef pp := by
  obtain ⟨present, table⟩ := pages.windowTable found window
  rw [pageInsert, pageLookup_none no, Result.ok_bind] at h
  obtain ⟨at_, mid, walk, h⟩ := Result.bind_ok h
  have here : (tlbInvalidate vm asid va).mem root.pgdir (pdx va) ≠ 0 := present
  rw [pgdirWalk, if_neg here, pteIn] at walk
  split at walk
  · cases walk
  · cases walk
    cases h
    have same : ppn ((tlbInvalidate vm asid va).mem root.pgdir (pdx va)) = root.pgdir := table
    rw [same]
    rfl

theorem Pages.insertTable (pages : Pages managed base roots vm) {pp : Nat} {u : Unit} (found : roots e = some root)
    (window : pdx va = pdx uvpt) (fresh : Fresh managed roots vm pp) (zero : ∀ i, vm.mem pp i = 0)
    (no : NoPage vm root.pgdir va) (h : pageInsert vm root.pgdir asid pp va 0 = .ok u vm') :
    Pages managed base roots vm' := by
  obtain ⟨own, absent⟩ := pages.window_empty found window no
  have value : pageOf (pteOf pp 0) = some pp :=
    pageOf_pteOf (lt_of_lt_of_le (pages.bound pp fresh.managed) pages.small) (by decide)
  rw [pages.insertTable_eq found window no h]
  exact ((pages.tlb asid va).linkTable found own absent ⟨fresh.managed, fresh.unused, fresh.out⟩ zero value).1

theorem pdx_pteAddr (va : Word) : pdx (pteAddr va) = pdx va := by
  rw [pdx, pteAddr, BitVec.ushiftRight_and_distrib, BitVec.and_assoc,
    show (~~~0xfff#32 >>> pdshift &&& 0x3ff : Word) = 0x3ff by decide, pdx]

theorem ptx_pteAddr (va : Word) : ptx (pteAddr va) = ptx va := by
  rw [ptx, pteAddr, BitVec.ushiftRight_and_distrib, BitVec.and_assoc,
    show (~~~0xfff#32 >>> pgshift &&& 0x3ff : Word) = 0x3ff by decide, ptx]

theorem pdx_window {va : Word} (low : uvpt ≤ va) (high : va < ulim) : pdx va = pdx uvpt := by
  have low' : 0x7fc00000 ≤ va.toNat := low
  have high' : va.toNat < 0x80000000 := high
  rw [pdx_eq, show pdx uvpt = 511 by decide]
  omega

theorem passiveAlloc_ok {pgdir : Nat} {u : Unit} (h : passiveAlloc va pgdir asid vm = .ok u vm') :
    ∃ pp mid, pageAlloc vm = .ok pp mid ∧
      ((pdx va = pdx uvpt ∧ pageInsert mid pgdir asid pp (pteAddr va) 0 = .ok () vm') ∨
        (va < utop ∧ pageInsert mid pgdir asid pp (pteAddr va) pteD = .ok () vm')) := by
  unfold passiveAlloc at h
  split at h
  · cases h
  · rename_i inside
    split at h
    · rename_i pp mid alloc
      split at h
      · rename_i last insert
        cases h
        refine ⟨pp, mid, alloc, ?_⟩
        by_cases window : uvpt ≤ va ∧ va < ulim
        · rw [if_pos (by simpa using window)] at insert
          exact Or.inl ⟨pdx_window window.1 window.2, insert⟩
        · rw [if_neg (by simpa using window)] at insert
          refine Or.inr ⟨?_, insert⟩
          simp only [Bool.or_eq_true, Bool.and_eq_true, decide_eq_true_eq, not_or, not_and, BitVec.not_lt] at inside
          obtain ⟨⟨⟨_, envs⟩, pages'⟩, high⟩ := inside
          by_contra above
          have low := pages' (envs (BitVec.not_lt.mp above))
          exact window ⟨low, BitVec.not_le.mp high⟩
      · cases h
      · cases h
    · cases h
    · cases h

theorem Pages.alloc_mem (pages : Pages managed base roots vm) {pp d : Nat} (found : target roots vm (.pgdir e) = some d)
    (h : pageAlloc vm = .ok pp vm') : vm'.mem d = vm.mem d := by
  obtain ⟨_, same, fresh, _, _⟩ := pages.alloc h
  obtain ⟨rest, _, _, rfl⟩ := pageAlloc_ok h
  refine Function.update_of_ne (fun eq => fresh.unused (.pgdir e) ?_) _ _
  rw [same, found, eq]

theorem Pages.passive_window (pages : Pages managed base roots vm) {mid : Vm} {pp : Nat} (found : roots e = some root)
    (no : NoPage vm root.pgdir va) (alloc : pageAlloc vm = .ok pp mid) (window : pdx va = pdx uvpt) :
    pdx (pteAddr va) = pdx uvpt ∧ NoPage mid root.pgdir (pteAddr va) := by
  have index : pdx (pteAddr va) = pdx uvpt := (pdx_pteAddr va).trans window
  refine ⟨index, ?_⟩
  rw [(pages.alloc alloc).1.window_noPage found index, ptx_pteAddr, pages.alloc_mem (target_pgdir found) alloc]
  exact (pages.window_noPage found window).mp no

theorem pdxFin_pteAddr (va : Word) : pdxFin (pteAddr va) = pdxFin va := Fin.ext (pdx_pteAddr va)

theorem Pages.passive (pages : Pages managed base roots vm) {u : Unit} (found : roots e = some root)
    (no : NoPage vm root.pgdir va) (h : passiveAlloc va root.pgdir asid vm = .ok u vm') :
    Pages managed base roots vm' := by
  obtain ⟨pp, mid, alloc, insert⟩ := passiveAlloc_ok h
  obtain ⟨pagesMid, _, fresh, zero, _⟩ := pages.alloc alloc
  rcases insert with ⟨window, insert⟩ | ⟨user, insert⟩
  · obtain ⟨index, none⟩ := pages.passive_window found no alloc window
    exact pagesMid.insertTable found index fresh zero none insert
  · have own : ¬ Shared (pdxFin (pteAddr va)) := by
      rw [pdxFin_pteAddr]
      exact pdx_user user
    exact pagesMid.insert found own fresh.data (by decide) (fun _ => pagesMid.fresh_count fresh) insert

theorem Pages.refill (pages : Pages managed base roots vm) {pte : PtePtr} {fuel : Nat} (found : roots e = some root)
    (h : refillLookup va root.pgdir asid fuel vm = .ok pte vm') : Pages managed base roots vm' := by
  induction fuel generalizing vm with
  | zero => cases h
  | succ fuel ih =>
    obtain ⟨at_, mid, lookup, h⟩ := Result.bind_ok h
    obtain ⟨rfl, ⟨no, rfl⟩ | ⟨has, rfl⟩⟩ := pageLookup_ok lookup
    · obtain ⟨_, left, passive, h⟩ := Result.bind_ok h
      exact ih (pages.passive found no passive) h
    · cases h
      exact pages

theorem Pages.doTlbRefill (pages : Pages managed base roots vm) {victim : Nat} {u : Unit} (found : roots e = some root)
    (h : doTlbRefill va root.pgdir asid victim vm = .ok u vm') : Pages managed base roots vm' := by
  obtain ⟨pte, mid, refill, h⟩ := Result.bind_ok h
  cases h
  exact ((pages.tlb asid va).refill found refill).sameVm rfl rfl rfl rfl rfl

theorem pageInsert_state_cases {pgdir pp : Nat} {perm : Word}
    (h : (pageInsert vm pgdir asid pp va perm).state = some vm') :
    pageInsert vm pgdir asid pp va perm = .ok () vm' ∨
      ∃ mid, (mid = vm ∨ pageRemove vm pgdir asid va = .ok () mid) ∧ vm' = tlbInvalidate mid asid va := by
  cases result : pageInsert vm pgdir asid pp va perm with
  | ok u s =>
    rw [result] at h
    cases h
    exact Or.inl rfl
  | err code s =>
    rw [result] at h
    cases h
    rcases Result.bind_err result with h | ⟨at_, mid, lookup, h⟩
    · exact absurd h (pageLookup_noErr _ _ _ _ _)
    · obtain ⟨rfl, ⟨_, rfl⟩ | ⟨_, rfl⟩⟩ := pageLookup_ok lookup
      · exact Or.inr ⟨mid, Or.inl rfl, (pageInsertNew_err h).2⟩
      · dsimp only at h
        split at h
        · rcases Result.bind_err h with h | ⟨u, left, remove, h⟩
          · exact absurd h (pageRemove_noErr _ _ _ _ _ _)
          · exact Or.inr ⟨left, Or.inr remove, (pageInsertNew_err h).2⟩
        · cases h
  | stop cause =>
    rw [result] at h
    cases h

theorem Pages.insert_state (pages : Pages managed base roots vm) {pp : Nat} {perm : Word}
    (found : roots e = some root) (own : ¬ Shared (pdxFin va)) (data : Data managed roots vm pp) (flags : FlagBits perm)
    (room : Adds vm root.pgdir va pp → vm.ppRef pp ≠ 65535)
    (h : (pageInsert vm root.pgdir asid pp va perm).state = some vm') : Pages managed base roots vm' := by
  rcases pageInsert_state_cases h with inserted | ⟨mid, rfl | remove, rfl⟩
  · exact pages.insert found own data flags room inserted
  · exact pages.tlb asid va
  · exact (pages.remove found own remove).pages.tlb asid va

end user

theorem pageDecref_write {p : PtePtr} {w : Word} {pp : Nat} {u : Unit}
    (h : pageDecref (vm.write p w) pp = .ok u vm') : ∃ mid, pageDecref vm pp = .ok u mid ∧ vm' = mid.write p w := by
  have same : (vm.write p w).ppRef pp = vm.ppRef pp := rfl
  rcases pageDecref_cases (vm.write p w) pp with ⟨_, eq⟩ | ⟨one, eq⟩ | ⟨many, eq⟩ <;> rw [eq] at h <;> cases h
  · rcases pageDecref_cases vm pp with ⟨zero, _⟩ | ⟨_, eq'⟩ | ⟨many, _⟩
    · rw [same, zero] at one
      cases one
    · exact ⟨_, eq', rfl⟩
    · rw [same] at one
      simp [one] at many
  · rcases pageDecref_cases vm pp with ⟨zero, _⟩ | ⟨one, _⟩ | ⟨_, eq'⟩
    · rw [same, zero] at many
      simp at many
    · rw [same, one] at many
      simp at many
    · exact ⟨_, eq', rfl⟩

theorem slotVa_toNat {i j : Nat} (hi : i < 1024) (hj : j < 1024) :
    (BitVec.ofNat 32 i <<< pdshift ||| BitVec.ofNat 32 j <<< pgshift).toNat = i * 2^22 + j * 2^12 := by
  have small : j * 2^12 < 2^22 := by omega
  have first : (BitVec.ofNat 32 i <<< pdshift).toNat = 2^22 * i := by
    simp only [pdshift, BitVec.toNat_shiftLeft, BitVec.toNat_ofNat, Nat.shiftLeft_eq]
    omega
  have second : (BitVec.ofNat 32 j <<< pgshift).toNat = j * 2^12 := by
    simp only [pgshift, BitVec.toNat_shiftLeft, BitVec.toNat_ofNat, Nat.shiftLeft_eq]
    omega
  rw [BitVec.toNat_or, first, second, ← Nat.two_pow_add_eq_or_of_lt small, Nat.mul_comm]

theorem pdx_slotVa {i j : Nat} (hi : i < 1024) (hj : j < 1024) :
    pdx (BitVec.ofNat 32 i <<< pdshift ||| BitVec.ofNat 32 j <<< pgshift) = i := by
  rw [pdx_eq, slotVa_toNat hi hj]
  omega

theorem ptx_slotVa {i j : Nat} (hi : i < 1024) (hj : j < 1024) :
    ptx (BitVec.ofNat 32 i <<< pdshift ||| BitVec.ofNat 32 j <<< pgshift) = j := by
  rw [ptx_eq, slotVa_toNat hi hj]
  omega

section teardown

variable {e : EnvPtr} {root : Root} {asid : Word}

theorem Pages.clearTable (pages : Pages managed base roots vm) {i : Fin 1024} {t : Nat} {u : Unit}
    (found : roots e = some root) (own : ¬ Shared i) (table : target roots vm (.pde e i) = some t)
    (h : Result.forRange 1024 (fun pteno vm =>
      if vm.mem t pteno &&& pteV ≠ 0 then
        pageRemove vm root.pgdir asid (BitVec.ofNat 32 i.val <<< pdshift ||| BitVec.ofNat 32 pteno <<< pgshift)
      else .ok () vm) vm = .ok u vm') :
    Pages managed base roots vm' ∧ (∀ b k, target roots vm' (.pde b k) = target roots vm (.pde b k)) ∧
      ∀ j, target roots vm' (.pte e i j) = none := by
  have step := Result.forRange_ok (fun n mid => Pages managed base roots mid ∧
      (∀ b k, target roots mid (.pde b k) = target roots vm (.pde b k)) ∧
      ∀ j : Fin 1024, j.val < n → target roots mid (.pte e i j) = none)
    ⟨pages, fun _ _ => rfl, fun j low => absurd low (Nat.not_lt_zero _)⟩ ?_ h
  · exact ⟨step.1, step.2.1, fun j => step.2.2 j j.isLt⟩
  · rintro n mid last small ⟨pagesMid, pdes, before⟩ body
    have here : target roots mid (.pde e i) = some t := (pdes e i).trans table
    split at body
    · have va : pdxFin (BitVec.ofNat 32 i.val <<< pdshift ||| BitVec.ofNat 32 n <<< pgshift) = i :=
        Fin.ext (pdx_slotVa i.isLt small)
      have index : ptxFin (BitVec.ofNat 32 i.val <<< pdshift ||| BitVec.ofNat 32 n <<< pgshift) = ⟨n, small⟩ :=
        Fin.ext (ptx_slotVa i.isLt small)
      have removed := pagesMid.remove found (by rw [va]; exact own) body
      have targets := removed.targets
      rw [va, index] at targets
      refine ⟨removed.pages, fun b k => ?_, fun j low => ?_⟩
      · rw [targets, Function.update_of_ne (by simp), pdes]
      · rw [targets]
        by_cases same : j = ⟨n, small⟩
        · rw [same, Function.update_self]
        · have earlier : j.val < n := by
            have ne : j.val ≠ n := fun eq => same (Fin.ext eq)
            omega
          rw [Function.update_of_ne (by simpa using same), before j earlier]
    · rename_i invalid
      cases body
      refine ⟨pagesMid, pdes, fun j low => ?_⟩
      by_cases same : j.val = n
      · rw [target_pte here, entry, pageOf, if_pos]
        rw [same]
        exact not_not.mp invalid
      · exact before j (by omega)

theorem Pages.freePde (pages : Pages managed base roots vm) {i : Fin 1024} {u : Unit} (found : roots e = some root)
    (own : ¬ Shared i) (h : envFreePde root.pgdir asid i.val vm = .ok u vm') :
    Pages managed base roots vm' ∧ target roots vm' (.pde e i) = none ∧
      ∀ k, k ≠ i → target roots vm' (.pde e k) = target roots vm (.pde e k) := by
  unfold envFreePde at h
  dsimp only at h
  split at h
  · rename_i invalid
    cases h
    refine ⟨pages, ?_, fun k _ => rfl⟩
    rw [target_pde found own, entry, pageOf, if_pos invalid]
  · rename_i valid
    have table : target roots vm (.pde e i) = some (ppn (vm.mem root.pgdir i.val)) := by
      rw [target_pde found own, entry, pageOf, if_neg valid]
    split at h
    · cases h
    · obtain ⟨_, cleared, loop, h⟩ := Result.bind_ok h
      obtain ⟨_, last, decref, h⟩ := Result.bind_ok h
      cases h
      obtain ⟨pages', pdes, ptes⟩ := pages.clearTable found own table loop
      have table' := (pdes e i).trans table
      obtain ⟨mid, decref', rfl⟩ := pageDecref_write decref
      obtain ⟨dec, accounts⟩ := pages'.decref table' decref'
      have stock := pages'.stock_decref dec (pages'.owned _ _ table')
      obtain ⟨done, targets⟩ : Pages managed base roots (mid.write ⟨root.pgdir, i.val⟩ 0) ∧
          target roots (mid.write ⟨root.pgdir, i.val⟩ 0) = Function.update (target roots cleared) (.pde e i) (pageOf 0) := by
        refine pages'.setPde found own ptes (fun t full => (by cases full)) (Or.inl rfl) ?_ dec.npage accounts stock
        simp [Vm.write, dec.mem]
      refine ⟨done.tlb _ _, ?_, fun k ne => ?_⟩
      · exact (congrFun targets _).trans (Function.update_self _ _ _)
      · exact ((congrFun targets _).trans (Function.update_of_ne (by simpa using ne) _ _)).trans (pdes e k)

/-- The outer loop of `env_free` empties the entries below `UTOP` and leaves those above the self map. -/
theorem Pages.freeTables (pages : Pages managed base roots vm) {u : Unit} (found : roots e = some root)
    (h : Result.forRange (pdx utop) (envFreePde root.pgdir asid) vm = .ok u vm') :
    Pages managed base roots vm' ∧ (∀ i : Fin 1024, i.val < pdx utop → target roots vm' (.pde e i) = none) ∧
      ∀ i : Fin 1024, pdx utop ≤ i.val → target roots vm' (.pde e i) = target roots vm (.pde e i) := by
  refine Result.forRange_ok (fun n mid => Pages managed base roots mid ∧
      (∀ i : Fin 1024, i.val < n → target roots mid (.pde e i) = none) ∧
      ∀ i : Fin 1024, pdx utop ≤ i.val → target roots mid (.pde e i) = target roots vm (.pde e i))
    ⟨pages, fun i low => absurd low (Nat.not_lt_zero _), fun _ _ => rfl⟩ ?_ h
  rintro n mid last small ⟨pagesMid, before, above⟩ body
  have bound : n < 1024 := Nat.lt_trans small (pdx_lt utop)
  have own : ¬ Shared ⟨n, bound⟩ := fun shared => absurd shared.1 (Nat.not_le.mpr small)
  obtain ⟨pages', empty, others⟩ := pagesMid.freePde (i := ⟨n, bound⟩) found own body
  refine ⟨pages', fun i low => ?_, fun i high => ?_⟩
  · by_cases same : i = ⟨n, bound⟩
    · rw [same]
      exact empty
    · rw [others i same]
      have ne : i.val ≠ n := fun eq => same (Fin.ext eq)
      exact before i (by omega)
  · have ne : i ≠ ⟨n, bound⟩ := by
      rintro rfl
      exact absurd high (Nat.not_le.mpr small)
    rw [others i ne, above i high]

theorem Pages.pde_zero (pages : Pages managed base roots vm) {i : Fin 1024} (found : roots e = some root) (own : ¬ Shared i)
    (none : target roots vm (.pde e i) = none) : vm.mem root.pgdir i.val = 0 := by
  refine (pages.whole e root i found own).resolve_right fun valid => ?_
  rw [target_pde found own, entry, pageOf, if_neg valid] at none
  cases none

end teardown

end Mos
