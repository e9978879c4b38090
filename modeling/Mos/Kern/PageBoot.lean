import Mos.Kern.PageRun

namespace Mos

variable {base : Nat} {used : Nat → Prop} {vm vm' : Vm}

/-- The template directory `base` while `env_init` maps the virtual pages `used`. -/
structure Building (base : Nat) (used : Nat → Prop) (vm : Vm) : Prop where
  nodup : vm.pageFreeList.Nodup
  clean : ∀ pp ∈ vm.pageFreeList, vm.holdsEnvs pp = false → vm.ppRef pp = 0
  bound : ∀ pp ∈ vm.pageFreeList, pp < vm.npage
  above : ∀ pp ∈ vm.pageFreeList, vm.envsBase ≤ pp
  small : vm.npage ≤ 2^20
  out : base ∉ vm.pageFreeList
  whole : ∀ i : Fin 1024, vm.mem base i.val = 0 ∨ vm.mem base i.val &&& pteV ≠ 0
  away : ∀ i t, entry vm base i = some t → t ≠ base ∧ t ∉ vm.pageFreeList
  sole : ∀ i i' t, entry vm base i = some t → entry vm base i' = some t → i' = i
  empty : ∀ i t (j : Fin 1024), entry vm base i = some t → ¬ used (1024 * i.val + j.val) → vm.mem t j.val = 0

/-- The sizes stay, and no directory entry of `base` gets lost. -/
structure Extends (base : Nat) (vm vm' : Vm) : Prop where
  npage : vm'.npage = vm.npage
  envs : vm'.envsBase = vm.envsBase
  entries : ∀ i, vm.mem base i &&& pteV ≠ 0 → vm'.mem base i &&& pteV ≠ 0

theorem Extends.refl (base : Nat) (vm : Vm) : Extends base vm vm := ⟨rfl, rfl, fun _ valid => valid⟩

theorem Extends.trans {vm'' : Vm} (first : Extends base vm vm') (second : Extends base vm' vm'') : Extends base vm vm'' :=
  ⟨second.npage.trans first.npage, second.envs.trans first.envs, fun i valid => second.entries i (first.entries i valid)⟩

theorem vpn_eq (va : Word) : vpn va = 1024 * pdx va + ptx va := by
  have bound := va.isLt
  have page : vpn va = va.toNat / 2^12 := by
    simp only [vpn, pgshift, BitVec.toNat_ushiftRight, Nat.shiftRight_eq_div_pow]
  rw [page, pdx_eq, ptx_eq]
  omega

theorem Building.tlb (build : Building base used vm) (asid va : Word) : Building base used (tlbInvalidate vm asid va) :=
  ⟨build.nodup, build.clean, build.bound, build.above, build.small, build.out, build.whole, build.away, build.sole,
    build.empty⟩

theorem Building.table {va : Word} (build : Building base used vm) (present : pdeOf vm base va ≠ 0) :
    entry vm base (pdxFin va) = some (ppn (pdeOf vm base va)) :=
  pageOf_some.mpr ⟨(build.whole (pdxFin va)).resolve_left present, rfl⟩

theorem Building.not_hasPage {va : Word} (build : Building base used vm) (fresh : ¬ used (vpn va)) :
    ¬ HasPage vm base va := by
  intro has
  rw [vpn_eq] at fresh
  have zero : pteAt vm base va = 0 := build.empty (pdxFin va) _ (ptxFin va) (build.table has.table) fresh
  refine has.valid ?_
  rw [zero]
  rfl

theorem Building.incRef {pp : Nat} (build : Building base used vm) (safe : pp ∈ vm.pageFreeList → vm.holdsEnvs pp = true) :
    Building base used (vm.incRef pp) := by
  refine ⟨build.nodup, fun q mem user => ?_, build.bound, build.above, build.small, build.out, build.whole, build.away,
    build.sole, build.empty⟩
  have other : q ≠ pp := by
    rintro rfl
    exact absurd ((safe mem).symm.trans user) (by decide)
  have same : (vm.incRef pp).ppRef q = vm.ppRef q := Function.update_of_ne other _ _
  rw [same]
  exact build.clean q mem user

theorem Building.takePage {pp : Nat} {rest : List Nat} (build : Building base used vm)
    (list : vm.pageFreeList = pp :: rest) :
    Building base used { vm with pageFreeList := rest, mem := Function.update vm.mem pp fun _ => 0 } := by
  have subset : ∀ q ∈ rest, q ∈ vm.pageFreeList := fun q mem => by simp [list, mem]
  have fresh : pp ∈ vm.pageFreeList := by simp [list]
  have other : base ≠ pp := fun same => build.out (same ▸ fresh)
  have entries : ∀ i, entry { vm with pageFreeList := rest, mem := Function.update vm.mem pp fun _ => 0 } base i =
      entry vm base i := fun i => by simp [entry, other]
  have nodup := build.nodup
  rw [list] at nodup
  refine ⟨nodup.of_cons, fun q mem => build.clean q (subset q mem), fun q mem => build.bound q (subset q mem),
    fun q mem => build.above q (subset q mem), build.small, fun mem => build.out (subset base mem), fun i => ?_,
    fun i t full => ?_, fun i i' t full full' => ?_, fun i t j full free => ?_⟩
  · simpa [other] using build.whole i
  · rw [entries] at full
    exact ⟨(build.away i t full).1, fun mem => (build.away i t full).2 (subset t mem)⟩
  · rw [entries] at full full'
    exact build.sole i i' t full full'
  · rw [entries] at full
    have apart : t ≠ pp := fun same => (build.away i t full).2 (same ▸ fresh)
    simpa [apart] using build.empty i t j full free

theorem Building.linkTable {i : Fin 1024} {t : Nat} {w : Word} (build : Building base used vm)
    (absent : vm.mem base i.val = 0) (value : pageOf w = some t) (out : t ∉ vm.pageFreeList) (other : t ≠ base)
    (fresh : ∀ k, entry vm base k ≠ some t) (zero : ∀ k, vm.mem t k = 0) :
    Building base used (vm.write ⟨base, i.val⟩ w) ∧ Extends base vm (vm.write ⟨base, i.val⟩ w) := by
  have entries : ∀ k, entry (vm.write ⟨base, i.val⟩ w) base k = if k = i then some t else entry vm base k := by
    intro k
    simp [entry_write, value]
  have kept : ∀ q, q ≠ base → (vm.write ⟨base, i.val⟩ w).mem q = vm.mem q := fun q ne => write_mem_ne vm ne i.val w
  refine ⟨⟨build.nodup, build.clean, build.bound, build.above, build.small, build.out, fun k => ?_, fun k u full => ?_,
    fun k k' u full full' => ?_, fun k u j full free => ?_⟩, rfl, rfl, fun k valid => ?_⟩
  · by_cases here : k = i
    · rw [here, write_mem_self]
      exact Or.inr (pageOf_some.mp value).1
    · rw [write_mem_index vm base (fun same => here (Fin.ext same))]
      exact build.whole k
  · rw [entries] at full
    split at full
    · cases full
      exact ⟨other, out⟩
    · exact build.away k u full
  · rw [entries] at full full'
    split at full <;> split at full'
    · rename_i here here'
      rw [here, here']
    · cases full
      exact absurd full' (fresh k')
    · cases full'
      exact absurd full (fresh k)
    · exact build.sole k k' u full full'
  · rw [entries] at full
    split at full
    · cases full
      rw [kept _ other]
      exact zero j.val
    · rw [kept u (build.away k u full).1]
      exact build.empty k u j full free
  · by_cases here : k = i.val
    · rw [here, absent] at valid
      exact absurd rfl valid
    · rw [write_mem_index vm base here]
      exact valid

theorem Building.walk {va : Word} {at_ : Option PtePtr} (build : Building base used vm)
    (h : pgdirWalk vm base va true = .ok at_ vm') : ∃ t, at_ = some ⟨t, ptx va⟩ ∧ entry vm' base (pdxFin va) = some t ∧
      Building base used vm' ∧ Extends base vm vm' ∧ ∀ pp ∈ vm'.pageFreeList, pp ∈ vm.pageFreeList := by
  unfold pgdirWalk at h
  split at h
  · rename_i absent
    simp only [if_true] at h
    obtain ⟨t, mid, alloc, h⟩ := Result.bind_ok h
    obtain ⟨rest, list, _, rfl⟩ := pageAlloc_ok alloc
    have fresh : t ∈ vm.pageFreeList := by simp [list]
    have other : t ≠ base := fun same => build.out (same ▸ fresh)
    have taken := build.takePage list
    have nodup := build.nodup
    rw [list, List.nodup_cons] at nodup
    have value : pageOf (page2pa t ||| pteCCacheable ||| pteV) = some t :=
      pageOf_table (lt_of_lt_of_le (build.bound t fresh) build.small)
    unfold pteIn at h
    split at h
    · cases h
    · cases h
      have absent' : vm.mem base (pdxFin va).val = 0 := absent
      obtain ⟨linked, grown⟩ := taken.linkTable (i := pdxFin va) (by simpa [other.symm] using absent') value nodup.1 other
        (fun k full => (build.away k t (by simpa [entry, other.symm] using full)).2 fresh) (fun k => by simp)
      refine ⟨t, by rw [(pageOf_some.mp value).2], ?_, linked.incRef fun mem => absurd mem nodup.1,
        ⟨grown.npage, grown.envs, fun i valid => grown.entries i (by simpa [other.symm] using valid)⟩,
        fun pp mem => by simp [list]; exact Or.inr mem⟩
      simp [Vm.incRef, Vm.setRef, entry, Vm.write, pdxFin, value]
  · rename_i present
    unfold pteIn at h
    split at h
    · cases h
    · cases h
      exact ⟨_, rfl, build.table present, build, .refl base _, fun pp mem => mem⟩

theorem Building.setPte {i j : Fin 1024} {t : Nat} {w : Word} (build : Building base used vm)
    (table : entry vm base i = some t) :
    Building base (fun v => v = 1024 * i.val + j.val ∨ used v) (vm.write ⟨t, j.val⟩ w) ∧
      (vm.write ⟨t, j.val⟩ w).mem base = vm.mem base := by
  have same : (vm.write ⟨t, j.val⟩ w).mem base = vm.mem base := write_mem_ne vm (build.away i t table).1.symm j.val w
  have entries : ∀ k, entry (vm.write ⟨t, j.val⟩ w) base k = entry vm base k := fun k => by rw [entry, same, entry]
  refine ⟨⟨build.nodup, build.clean, build.bound, build.above, build.small, build.out, fun k => ?_, fun k u full => ?_,
    fun k k' u full full' => ?_, fun k u l full free => ?_⟩, same⟩
  · rw [same]
    exact build.whole k
  · exact build.away k u (entries k ▸ full)
  · exact build.sole k k' u (entries k ▸ full) (entries k' ▸ full')
  · rw [entries] at full
    simp only [not_or] at free
    by_cases here : u = t
    · subst here
      have slot : k = i := build.sole i k u table full
      have index : l.val ≠ j.val := fun eq => free.1 (by rw [slot, eq])
      rw [write_mem_index vm u index]
      exact build.empty k u l full free.2
    · rw [write_mem_ne vm here]
      exact build.empty k u l full free.2

theorem Building.insert {pp : Nat} {va asid perm : Word} {u : Unit} (build : Building base used vm)
    (fresh : ¬ used (vpn va)) (safe : pp ∈ vm.pageFreeList → vm.holdsEnvs pp = true)
    (h : pageInsert vm base asid pp va perm = .ok u vm') :
    Building base (fun v => v = vpn va ∨ used v) vm' ∧ Extends base vm vm' ∧ vm'.mem base (pdx va) &&& pteV ≠ 0 ∧
      ∀ q ∈ vm'.pageFreeList, q ∈ vm.pageFreeList := by
  rcases pageLookup_cases vm base va with no | has | stop
  · rw [pageInsert, pageLookup_none no, Result.ok_bind] at h
    obtain ⟨at_, mid, walk, h⟩ := Result.bind_ok h
    obtain ⟨t, rfl, table, walked, grown, subset⟩ := (build.tlb asid va).walk walk
    cases h
    obtain ⟨done, same⟩ := walked.setPte (j := ptxFin va) (w := pteOf pp perm) table
    have envs : mid.envsBase = vm.envsBase := grown.envs
    refine ⟨?_, ⟨grown.npage, grown.envs, fun i valid => ?_⟩, ?_, subset⟩
    · rw [vpn_eq]
      refine done.incRef fun mem => ?_
      have held := safe (subset pp mem)
      rw [Vm.holdsEnvs] at held ⊢
      rw [show (mid.write ⟨t, (ptxFin va).val⟩ (pteOf pp perm)).envsBase = vm.envsBase from envs]
      exact held
    · exact (congrFun same i).symm ▸ grown.entries i valid
    · exact (congrFun same (pdx va)).symm ▸ (pageOf_some.mp table).1
  · exact absurd has (build.not_hasPage fresh)
  · rw [pageInsert, stop] at h
    cases h

theorem Building.more {used' : Nat → Prop} (build : Building base used vm) (more : ∀ v, used v → used' v) :
    Building base used' vm :=
  ⟨build.nodup, build.clean, build.bound, build.above, build.small, build.out, build.whole, build.away, build.sole,
    fun i t j full free => build.empty i t j full fun was => free (more _ was)⟩

theorem vpn_add {va : Word} {i : Nat} (space : vpn va + i < 2^20) : vpn (va + BitVec.ofNat 32 i <<< pgshift) = vpn va + i := by
  have bound := va.isLt
  simp only [vpn, pgshift, BitVec.toNat_ushiftRight, Nat.shiftRight_eq_div_pow, BitVec.toNat_add, BitVec.toNat_shiftLeft,
    BitVec.toNat_ofNat, Nat.shiftLeft_eq] at *
  omega

/-- `map_segment` of the pages from `pp` on at the virtual pages from `va` on, none of them mapped. -/
theorem Building.mapSegment {pp n : Nat} {asid va perm : Word} {u : Unit} (build : Building base used vm)
    (space : vpn va + n ≤ 2^20) (fresh : ∀ i, i < n → ¬ used (vpn va + i))
    (safe : ∀ i, i < n → pp + i ∈ vm.pageFreeList → vm.holdsEnvs (pp + i) = true)
    (h : mapSegment base asid pp va n perm vm = .ok u vm') :
    Building base (fun v => (vpn va ≤ v ∧ v < vpn va + n) ∨ used v) vm' ∧ Extends base vm vm' ∧
      (0 < n → vm'.mem base (pdx va) &&& pteV ≠ 0) ∧ ∀ q ∈ vm'.pageFreeList, q ∈ vm.pageFreeList := by
  refine Result.forRange_ok (fun i mid => Building base (fun v => (vpn va ≤ v ∧ v < vpn va + i) ∨ used v) mid ∧
    Extends base vm mid ∧ (0 < i → mid.mem base (pdx va) &&& pteV ≠ 0) ∧ ∀ q ∈ mid.pageFreeList, q ∈ vm.pageFreeList)
    ⟨build.more fun v was => Or.inr was, .refl base vm, fun pos => absurd pos (Nat.lt_irrefl 0), fun q mem => mem⟩ ?_ h
  rintro i mid last small ⟨done, grown, valid, subset⟩ body
  have page : vpn (va + BitVec.ofNat 32 i <<< pgshift) = vpn va + i := vpn_add (by omega)
  have held : pp + i ∈ mid.pageFreeList → mid.holdsEnvs (pp + i) = true := by
    intro mem
    rw [Vm.holdsEnvs, grown.envs]
    exact safe i small (subset _ mem)
  have free : ¬ ((vpn va ≤ vpn va + i ∧ vpn va + i < vpn va + i) ∨ used (vpn va + i)) := by
    rintro (⟨_, above⟩ | was)
    · exact absurd above (Nat.lt_irrefl _)
    · exact fresh i small was
  obtain ⟨next, grown', valid', subset'⟩ := done.insert (page ▸ free) held (panicOn_ok body)
  refine ⟨next.more fun v was => ?_, grown.trans grown', fun _ => ?_, fun q mem => subset q (subset' q mem)⟩
  · rw [page] at was
    rcases was with rfl | ⟨low, high⟩ | was
    · exact Or.inl ⟨by omega, by omega⟩
    · exact Or.inl ⟨low, by omega⟩
    · exact Or.inr was
  · cases i with
    | zero =>
      have start : va + BitVec.ofNat 32 0 <<< pgshift = va := by simp [pgshift]
      rw [start] at valid'
      exact valid'
    | succ i => exact grown'.entries _ (valid (Nat.succ_pos i))

theorem pageInit_building {npage p : Nat} {mem : Nat → Nat → Word} {vm : Vm} (small : npage ≤ 2^20)
    (alloc : pageAlloc (pageInit npage mem) = .ok p vm) : Building p (fun _ => False) vm ∧
      vm.npage = npage ∧ vm.envsBase = bootPages npage := by
  obtain ⟨rest, list, _, rfl⟩ := pageAlloc_ok alloc
  have range : ∀ q ∈ p :: rest, bootPages npage ≤ q ∧ q < npage := by
    intro q inside
    rw [← list] at inside
    simp only [pageInit, List.mem_reverse, List.mem_range'_1] at inside
    omega
  have nodup : (p :: rest).Nodup := by
    rw [← list]
    exact List.nodup_reverse.mpr List.nodup_range'
  obtain ⟨out, rest'⟩ := List.nodup_cons.mp nodup
  have zero : ∀ i : Fin 1024, Function.update mem p (fun _ => 0) p i.val = 0 := fun i => by simp
  have none : ∀ (i : Fin 1024) t, entry { pageInit npage mem with
      pageFreeList := rest, mem := Function.update mem p fun _ => 0 } p i ≠ some t := by
    intro i t full
    have empty : pageOf 0 = some t := by
      rw [← zero i]
      exact full
    cases empty
  refine ⟨⟨rest', fun q inside _ => ?_, fun q inside => (range q (List.mem_cons_of_mem p inside)).2,
    fun q inside => (range q (List.mem_cons_of_mem p inside)).1, small, out, fun i => Or.inl (zero i),
    fun i t full => absurd full (none i t), fun i _ t full => absurd full (none i t),
    fun i t _ full => absurd full (none i t)⟩, rfl, rfl⟩
  have low := (range q (List.mem_cons_of_mem p inside)).1
  simp [pageInit, Nat.not_lt.mpr low]

theorem buildBasePgdir_building {npage p : Nat} {mem : Nat → Nat → Word} {vm : Vm} (small : npage ≤ 2^20)
    (some : 0 < npage) (h : buildBasePgdir (pageInit npage mem) = .ok p vm) :
    (∃ used, Building p used vm) ∧ ∀ i, pdx utop ≤ i → i < pdx uvpt → vm.mem p i &&& pteV ≠ 0 := by
  obtain ⟨q, vm1, alloc, h⟩ := Result.bind_ok h
  obtain ⟨_, vm2, first, h⟩ := Result.bind_ok h
  obtain ⟨_, vm3, second, h⟩ := Result.bind_ok h
  cases h
  obtain ⟨start, size, envs⟩ := pageInit_building small (panicOn_ok alloc)
  have room : pagesPages npage ≤ 3072 := by
    unfold pagesPages
    omega
  have mapped : 0 < pagesPages npage := by
    unfold pagesPages
    omega
  have upages' : vpn upages = 0x7f800 := by decide
  have uenvs' : vpn uenvs = 0x7f400 := by decide
  rw [size] at first
  have apart : ∀ i, i < pagesPages npage → pagesBase + i ∉ vm1.pageFreeList := by
    intro i inside mem
    have low := start.above _ mem
    rw [envs, bootPages] at low
    omega
  obtain ⟨build2, grown2, valid2, _⟩ := (start.incRef fun mem => absurd mem start.out).mapSegment (by omega)
    (fun _ _ was => was) (fun i inside mem => absurd mem (apart i inside)) first
  have held : ∀ i, i < envsPages → vm2.envsBase + i ∈ vm2.pageFreeList → vm2.holdsEnvs (vm2.envsBase + i) = true := by
    intro i inside _
    simp [Vm.holdsEnvs, inside]
  have below : ∀ i, i < envsPages → ¬ ((vpn upages ≤ vpn uenvs + i ∧ vpn uenvs + i < vpn upages + pagesPages npage) ∨
      False) := by
    rintro i inside (⟨high, _⟩ | none)
    · unfold envsPages at inside
      omega
    · exact none
  obtain ⟨build3, grown3, valid3, _⟩ := build2.mapSegment (by unfold envsPages; omega) below held second
  refine ⟨⟨_, build3⟩, fun i low high => ?_⟩
  have bounds : pdx utop = 509 ∧ pdx uvpt = 511 := by decide
  have dirs : pdx uenvs = 509 ∧ pdx upages = 510 := by decide
  rcases (by omega : i = 509 ∨ i = 510) with rfl | rfl
  · rw [← dirs.1]
    exact valid3 (by decide)
  · rw [← dirs.2]
    exact grown3.entries _ (valid2 mapped)

/-- A page that is on the free list at boot and holds no part of `envs`. -/
def Managed (k0 : Kernel) (pp : Nat) : Prop := pp ∈ k0.vm.pageFreeList ∧ k0.vm.holdsEnvs pp = false

theorem boot_pages {npage : Nat} {mem : Nat → Nat → Word} {k : Kernel} (small : npage ≤ 2^20)
    (booted : boot npage mem = some k) : PageInv (Managed k) k := by
  obtain ⟨p, vm, fits, built, rfl⟩ := boot_init booted
  obtain ⟨⟨used, build⟩, template⟩ := buildBasePgdir_building small (Nat.zero_lt_of_lt fits) built
  have roots : ∀ e, rootsOf (initKernel p vm) e = none := fun e => rfl
  have none : ∀ r pp, target (rootsOf (initKernel p vm)) vm r ≠ some pp := by
    intro r pp full
    cases r <;> simp [target, roots] at full
  refine ⟨⟨⟨fun pp mine => ?_, build.nodup, fun pp _ => RefCount.refs_eq_zero.mpr fun r => none r pp⟩,
    fun pp inside => ?_, fun pp mine => build.bound pp mine.1, build.small, fun r pp full => absurd full (none r pp),
    fun r _ pp _ full => absurd full (none r pp), fun e root _ found => ?_, fun e root found => ?_,
    fun e root _ found => ?_, template, fun mine => build.out mine.1⟩, fun e cur => ?_, fun e => ?_⟩
  · refine Eq.trans ?_ (RefCount.refs_eq_zero.mpr fun r => none r pp).symm
    exact congrArg BitVec.toNat (build.clean pp mine.1 mine.2)
  · cases held : vm.holdsEnvs pp with
    | true => exact Or.inr held
    | false => exact Or.inl ⟨inside, held⟩
  · cases (roots e).symm.trans found
  · cases (roots e).symm.trans found
  · cases (roots e).symm.trans found
  · cases cur
  · exact (by decide : (0 : Word) < utop)

/-- The pages of `k` on a machine that booted into `k0`: the free list holds each page once and only pages
    without references, and the count of each page from the allocator is its number of references. -/
structure PagesCounted (k0 k : Kernel) : Prop where
  once : k.vm.pageFreeList.Nodup
  unused : ∀ pp ∈ k.vm.pageFreeList, ∀ r, target (rootsOf k) k.vm r ≠ some pp
  counted : ∀ pp, Managed k0 pp → (k.vm.ppRef pp).toNat = RefCount.refs (target (rootsOf k) k.vm) pp

theorem PageInv.counted {k0 k : Kernel} (inv : PageInv (Managed k0) k) : PagesCounted k0 k :=
  ⟨inv.pages.accounts.nodup, fun pp mem => RefCount.refs_eq_zero.mp (inv.pages.accounts.idle pp mem),
    inv.pages.accounts.counted⟩

/-- In every run whose steps meet `PageGuard` no page is used after it is freed, and every reference is counted. -/
theorem pages_counted {npage : Nat} {mem : Nat → Nat → Word} {k0 k : Kernel} {ops : List Op} (small : npage ≤ 2^20)
    (booted : boot npage mem = some k0) (run : Run step PageGuard k0 ops k) : PagesCounted k0 k :=
  (run.invariant (fun k => EnvInv k ∧ PageInv (Managed k0) k) ⟨boot_envInv booted, boot_pages small booted⟩
    fun _ _ _ inv meets next => ⟨step_envInv inv.1 next, step_pages inv.2 inv.1 meets next⟩).2.counted

/-- An env maps a page, touches another one and unmaps the first. -/
def touchRun : List Op :=
  [.envCreate emptyBinary 1, .timer zeroFrame, .call (.memAlloc 0 0x400000 pteD), .tlbRefill 0x500000 0,
    .call (.memUnmap 0 0x400000)]

set_option maxRecDepth 100000 in
theorem pages_counted_touchRun : ∃ k0 k, clearBoot = some k0 ∧ Run step PageGuard k0 touchRun k ∧ PagesCounted k0 k := by
  have check : (clearBoot.bind fun k0 => Run.exec step k0 touchRun).isSome = true := by
    rw [clearBoot_eq]
    decide +kernel
  obtain ⟨k, check⟩ := Option.isSome_iff_exists.mp check
  obtain ⟨k0, booted, exec⟩ := Option.bind_eq_some_iff.mp check
  have guarded : Run step PageGuard k0 touchRun k := by
    refine Run.of_exec (fun op mem t => ?_) exec
    simp only [touchRun, List.mem_cons, List.not_mem_nil, or_false] at mem
    rcases mem with rfl | rfl | rfl | rfl | rfl
    · intro page inside
      cases inside
    · trivial
    · exact (by decide : FlagBits pteD)
    · trivial
    · trivial
  exact ⟨k0, k, booted, guarded, pages_counted (by decide) booted guarded⟩

/-- When the directory of the only env has no entries of its own, its page and the variable page are all that
    is referred to. -/
theorem target_lone {k : Kernel} {e : EnvPtr} (lone : ∀ b, b ≠ e → (k.envs b).envStatus = .free)
    (empty : ∀ i : Fin 1024, ¬ Shared i → k.vm.mem (k.envs e).envPgdir i.val = 0) {r : Ref} {pp : Nat}
    (full : target (rootsOf k) k.vm r = some pp) : pp = (k.envs e).envPgdir ∨ (k.envs e).envVars = some pp := by
  have only : ∀ b root, rootsOf k b = some root → root = ⟨(k.envs e).envPgdir, (k.envs e).envVars⟩ := by
    intro b root found
    by_cases same : b = e
    · subst same
      unfold rootsOf at found
      split at found <;> cases found
      rfl
    · rw [rootsOf, if_pos (lone b same)] at found
      cases found
  have pdes : ∀ b i, target (rootsOf k) k.vm (.pde b i) = none := by
    intro b i
    cases found : rootsOf k b with
    | none => simp [target, found]
    | some root =>
      by_cases own : Shared i
      · simp [target, own]
      · rw [target_pde found own, only b root found, entry, empty i own]
        rfl
  cases r with
  | pgdir b =>
    obtain ⟨root, found, rfl⟩ := Option.map_eq_some_iff.mp full
    rw [only b root found]
    exact Or.inl rfl
  | vars b =>
    obtain ⟨root, found, vars⟩ := Option.bind_eq_some_iff.mp full
    rw [only b root found] at vars
    exact Or.inr vars
  | pde b i => cases (pdes b i).symm.trans full
  | pte b i j => cases (target_pte_none (pdes b i)).symm.trans full

/-- The child 4097 touches an address in the upper half of the self map and exits, and its parent reaps it. -/
def leakRun : List Op :=
  [.envCreate emptyBinary 1, .timer zeroFrame, .call .exofork, .call (.setEnvStatus 4097 1), .call .yield,
    .tlbRefill 0x7fe00000 0, .call (.envDestroy 0 0), .call (.envDestroy 4097 0)]

/-- The count of `pp` is 1, and the only env in use does not refer to it. -/
def leaked (k0 k : Kernel) (pp : Nat) : Bool :=
  k0.vm.pageFreeList.contains pp && !k0.vm.holdsEnvs pp && k.vm.ppRef pp == 1 && (k.envs 0).envPgdir != pp &&
    (k.envs 0).envVars != some pp && ((List.finRange 1024).all fun e => e = 0 || (k.envs e).envStatus = .free) &&
    (List.finRange 1024).all fun i => decide (Shared i) || k.vm.mem (k.envs 0).envPgdir i.val = 0

theorem leaked_refs {k0 k : Kernel} {pp : Nat} (leak : leaked k0 k pp = true) : ¬ PagesCounted k0 k := by
  simp only [leaked, Bool.and_eq_true, List.all_eq_true, List.mem_finRange, forall_const, Bool.or_eq_true,
    decide_eq_true_eq, bne_iff_ne, beq_iff_eq, List.contains_iff_mem, Bool.not_eq_true'] at leak
  obtain ⟨⟨⟨⟨⟨⟨stock, envs⟩, count⟩, dir⟩, vars⟩, lone⟩, bare⟩ := leak
  intro all
  have counted := all.counted pp ⟨stock, envs⟩
  rw [RefCount.refs_eq_zero.mpr, count] at counted
  · cases counted
  · intro r full
    rcases target_lone (e := 0) (fun b ne => (lone b).resolve_left ne) (fun i own => (bare i).resolve_left own) full with
      same | same
    · exact dir same.symm
    · exact vars same

set_option maxRecDepth 100000 in
theorem envFree_leaks_page : ∃ k0 k, clearBoot = some k0 ∧ Run step (fun _ _ => True) k0 leakRun k ∧
    ¬ PagesCounted k0 k := by
  have check : (clearBoot.bind fun k0 => (Run.exec step k0 leakRun).map fun k => leaked k0 k 2040) = some true := by
    rw [clearBoot_eq]
    decide +kernel
  obtain ⟨k0, booted, check⟩ := Option.bind_eq_some_iff.mp check
  obtain ⟨k, exec, leak⟩ := Option.map_eq_some_iff.mp check
  exact ⟨k0, k, booted, Run.of_exec (fun _ _ _ => trivial) exec, leaked_refs leak⟩

end Mos
