import Mos.Kern.Mappings

namespace Mos

/-- The page of `va` is there, or the TLB refill adds it. -/
def refilled (cur : EnvPtr) (victim : Word → Nat) (va : Word) (k : Kernel) : Option Kernel :=
  match translate k.vm (k.envs cur).envPgdir va with
  | some _ => some k
  | none => step k (.tlbRefill va (victim va))

/-- The kernel stores bytes to the memory of the current env. A refill for `va` replaces the TLB entry `victim va`. -/
def fillBytes (cur : EnvPtr) (victim : Word → Nat) : List Store → Kernel → Option Kernel
  | [], k => some k
  | s :: rest, k =>
    (refilled cur victim s.1 k).bind fun k => (storeBytes cur [s] k).bind (fillBytes cur victim rest)

/-- The current env makes a call that fills a buffer, and the kernel accepts it. -/
def Filling (k : Kernel) (cur : EnvPtr) (stores : List Store) (k' : Kernel) : Prop :=
  k.curenv = some cur ∧ ∃ tf load call r, Fills call ∧ userTable cur load call (k.trap tf) = .ok (r, stores) k'

/-- The stores of the calls that fill a buffer do not fault. -/
def StoresLand (k : Kernel) : Prop :=
  ∀ cur stores k' victim, Filling k cur stores k' → (fillBytes cur victim stores k').isSome = true

/-- The pages that the stores take: one for each page that is not mapped and one for each page table that is missing. -/
def taking (vm : Vm) (pgdir : Nat) (stores : List Store) : Nat :=
  ((stores.filter fun s => translate vm pgdir s.1 = none).map fun s => vpageOf s.1).dedup.length +
    ((stores.filter fun s => vm.mem pgdir (pdx s.1) = 0).map fun s => pdxFin s.1).dedup.length

/-- The page that `passive_alloc` refuses among those of the user. -/
def GuardPage (va : Word) : Prop := ustacktop ≤ va ∧ va < ustacktop + pageSize

/-- The refill has a page for each one that is missing. -/
structure Refillable (k : Kernel) (cur : EnvPtr) (stores : List Store) : Prop where
  inside : ∀ s ∈ stores, translate k.vm (k.envs cur).envPgdir s.1 = none → ¬ GuardPage s.1
  enough : taking k.vm (k.envs cur).envPgdir stores ≤ k.vm.pageFreeList.length
  free : ∀ pp ∈ k.vm.pageFreeList.take (taking k.vm (k.envs cur).envPgdir stores), k.vm.holdsEnvs pp = false

def MachineOp.MapsDirty : MachineOp → Prop
  | .syscall tf out => ∀ call, (MachineOp.syscall tf out).call = some call → Mos.MapsDirty (.syscall tf call)
  | .envCreate binary priority => Mos.MapsDirty (.envCreate binary priority)
  | _ => True

/-- The condition on a step: it maps pages with `PTE_D` only. -/
def DirtyGuard (k : Kernel) (op : MachineOp) : Prop := MachineGuard k op ∧ op.MapsDirty

variable {managed : Nat → Prop} {base : Nat} {roots : Roots} {vm vm' : Vm} {e cur : EnvPtr} {root : Root}
variable {k k' mid : Kernel} {va asid : Word} {u : Unit} {stores : List Store} {op : MachineOp}

section Refill

/-- `vm'` has taken the first `n` pages of `page_free_list`, none of them a page of `envs`. -/
structure TakesFree (n : Nat) (vm vm' : Vm) : Prop where
  list : vm'.pageFreeList = vm.pageFreeList.drop n
  enough : n ≤ vm.pageFreeList.length
  free : ∀ pp ∈ vm.pageFreeList.take n, vm.holdsEnvs pp = false
  envs : vm'.envsBase = vm.envsBase

/-- `page_free_list` begins with `n` pages, none of them a page of `envs`. -/
structure HasFree (n : Nat) (vm : Vm) : Prop where
  enough : n ≤ vm.pageFreeList.length
  free : ∀ pp ∈ vm.pageFreeList.take n, vm.holdsEnvs pp = false

/-- The pages that the page tables take for `va` beside its own. -/
def tableCost (vm : Vm) (pgdir : Nat) (va : Word) : Nat := if vm.mem pgdir (pdx va) = 0 then 1 else 0

theorem holdsEnvs_congr (envs : vm'.envsBase = vm.envsBase) (pp : Nat) : vm'.holdsEnvs pp = vm.holdsEnvs pp := by
  rw [Vm.holdsEnvs, Vm.holdsEnvs, envs]

theorem TakesFree.zero (list : vm'.pageFreeList = vm.pageFreeList) (envs : vm'.envsBase = vm.envsBase) : TakesFree 0 vm vm' :=
  ⟨list, Nat.zero_le _, fun _ inside => (by cases inside), envs⟩

theorem HasFree.mono {n m : Nat} (has : HasFree m vm) (le : n ≤ m) : HasFree n vm :=
  ⟨le.trans has.enough, fun pp inside => has.free pp (List.take_subset_take_left _ le inside)⟩

/-- What is there for `n + m` pages is there for `m` when `n` have been taken. -/
theorem TakesFree.rest {n m : Nat} (taken : TakesFree n vm vm') : HasFree (n + m) vm ↔ HasFree m vm' := by
  have low := taken.enough
  constructor
  · rintro ⟨enough, free⟩
    rw [List.take_add] at free
    refine ⟨by rw [taken.list, List.length_drop]; omega, fun pp inside => ?_⟩
    rw [holdsEnvs_congr taken.envs]
    rw [taken.list] at inside
    exact free pp (List.mem_append_right _ inside)
  · rintro ⟨enough, free⟩
    rw [taken.list, List.length_drop] at enough
    refine ⟨by omega, fun pp inside => ?_⟩
    rw [List.take_add] at inside
    rcases List.mem_append.mp inside with inside | inside
    · exact taken.free pp inside
    · rw [← holdsEnvs_congr taken.envs]
      exact free pp (taken.list ▸ inside)

theorem TakesFree.trans {n m : Nat} {vm'' : Vm} (first : TakesFree n vm vm') (second : TakesFree m vm' vm'') :
    TakesFree (n + m) vm vm'' := by
  obtain ⟨enough, free⟩ := first.rest.mpr ⟨second.enough, second.free⟩
  exact ⟨by rw [second.list, first.list, List.drop_drop], enough, free, second.envs.trans first.envs⟩

theorem pageAlloc_takes {pp : Nat} (h : pageAlloc vm = .ok pp vm') : TakesFree 1 vm vm' := by
  obtain ⟨rest, list, free, rfl⟩ := pageAlloc_ok h
  refine ⟨by rw [list]; rfl, by rw [list]; exact Nat.succ_pos _, fun q inside => ?_, rfl⟩
  rw [list] at inside
  rw [List.mem_singleton.mp inside]
  exact free

theorem pageAlloc_can (has : HasFree 1 vm) : ∃ pp vm', pageAlloc vm = .ok pp vm' := by
  obtain ⟨enough, free⟩ := has
  unfold pageAlloc
  cases list : vm.pageFreeList with
  | nil =>
    rw [list] at enough
    cases enough
  | cons pp rest =>
    rw [list] at free
    have own : vm.holdsEnvs pp = false := free pp List.mem_cons_self
    exact ⟨pp, _, if_neg (by simp [own])⟩

theorem pgdirWalk_takes {pgdir : Nat} {at_ : Option PtePtr} (h : pgdirWalk vm pgdir va true = .ok at_ vm') :
    TakesFree (tableCost vm pgdir va) vm vm' := by
  unfold pgdirWalk at h
  split at h
  · rename_i absent
    simp only [if_true] at h
    obtain ⟨t, mid, alloc, h⟩ := Result.bind_ok h
    have taken := pageAlloc_takes alloc
    unfold pteIn at h
    split at h
    · cases h
    · cases h
      rw [tableCost, if_pos absent]
      exact ⟨taken.list, taken.enough, taken.free, taken.envs⟩
  · rename_i present
    unfold pteIn at h
    split at h
    · cases h
    · cases h
      rw [tableCost, if_neg present]
      exact .zero rfl rfl

theorem Pages.walk_can (pages : Pages managed base roots vm) (found : roots e = some root) (own : ¬ Shared (pdxFin va))
    (has : HasFree (tableCost vm root.pgdir va) vm) :
    ∃ pte vm', pgdirWalk vm root.pgdir va true = .ok (some pte) vm' := by
  unfold pgdirWalk
  by_cases absent : vm.mem root.pgdir (pdx va) = 0
  · rw [tableCost, if_pos absent] at has
    obtain ⟨t, mid, alloc⟩ := pageAlloc_can has
    obtain ⟨pagesMid, _, fresh, _, _⟩ := pages.alloc alloc
    have low := pagesMid.bound t fresh.managed
    have here : ppn (page2pa t ||| pteCCacheable ||| pteV) = t :=
      (pageOf_some.mp (pageOf_table (lt_of_lt_of_le low pagesMid.small))).2
    rw [if_pos absent, alloc, if_pos rfl, Result.ok_bind]
    refine ⟨_, _, if_neg ?_⟩
    rw [here]
    exact Nat.not_le.mpr low
  · rw [if_neg absent]
    have table := pages.hasTable found own absent
    exact ⟨_, vm, if_neg (Nat.not_le.mpr (pages.bound _ (pages.owned _ _ table)))⟩

/-- A page is mapped at `va`, with a page table where there was none. -/
def Adding (roots : Roots) (vm vm' : Vm) (e : EnvPtr) (va : Word) : Prop :=
  ∃ t pp, target roots vm' = Function.update (Function.update (target roots vm) (.pde e (pdxFin va)) (some t))
    (.pte e (pdxFin va) (ptxFin va)) (some pp)

theorem pageInsertNew_adding (pages : Pages managed base roots vm) {pp : Nat} {perm : Word}
    (found : roots e = some root) (own : ¬ Shared (pdxFin va)) (data : Data managed roots vm pp)
    (empty : target roots vm (.pte e (pdxFin va) (ptxFin va)) = none) (flags : FlagBits perm)
    (room : vm.ppRef pp ≠ 65535) (h : pageInsertNew vm root.pgdir asid pp va perm = .ok u vm') :
    Adding roots vm vm' e va ∧ TakesFree (tableCost vm root.pgdir va) vm vm' := by
  obtain ⟨at_, mid, walk, h⟩ := Result.bind_ok h
  obtain ⟨t, rfl, walked⟩ := (pages.tlb asid va).walk found own walk
  have taken := pgdirWalk_takes walk
  cases h
  have small : pp < 2^20 := lt_of_lt_of_le (pages.bound pp data.mine) pages.small
  obtain ⟨data', same⟩ := walked.data pp ⟨data.mine, data.notTable, data.out⟩
  have table : target roots mid (.pde e (pdxFin va)) = some t := by rw [walked.targets, Function.update_self]
  have empty' : target roots mid (.pte e (pdxFin va) (ptxFin va)) = none := by
    rw [walked.targets, Function.update_of_ne (by simp)]
    exact empty
  have linked := (walked.pages.linkPage table empty' data' (by rw [same]; exact room) (pageOf_pteOf small flags)).2
  refine ⟨⟨t, pp, ?_⟩, ⟨taken.list, taken.enough, taken.free, taken.envs⟩⟩
  rw [show target roots vm = target roots (tlbInvalidate vm asid va) from rfl, ← walked.targets]
  exact linked

theorem Pages.insertNew_can (pages : Pages managed base roots vm) {pp : Nat} {perm : Word} (found : roots e = some root)
    (own : ¬ Shared (pdxFin va)) (has : HasFree (tableCost vm root.pgdir va) vm) :
    ∃ vm', pageInsertNew vm root.pgdir asid pp va perm = .ok () vm' := by
  obtain ⟨pte, mid, walk⟩ := (pages.tlb asid va).walk_can found own ⟨has.enough, has.free⟩
  rw [pageInsertNew, walk, Result.ok_bind]
  exact ⟨_, rfl⟩

theorem passiveAlloc_user {pgdir : Nat} (low : utemp ≤ va) (user : va < utop) (outside : ¬ GuardPage va) {pp : Nat}
    (alloc : pageAlloc vm = .ok pp vm') {vm2 : Vm} (inserted : pageInsert vm' pgdir asid pp (pteAddr va) pteD = .ok () vm2) :
    passiveAlloc va pgdir asid vm = .ok () vm2 := by
  have limits : uenvs.toNat = 0x7f400000 ∧ upages.toNat = 0x7f800000 ∧ uvpt.toNat = 0x7fc00000 ∧
    ulim.toNat = 0x80000000 ∧ utop.toNat = 0x7f400000 := by decide
  have below : va.toNat < utop.toNat := user
  have inside : ¬ ((va < utemp || (ustacktop ≤ va && va < ustacktop + pageSize) || (uenvs ≤ va && va < upages) ||
      (upages ≤ va && va < uvpt) || ulim ≤ va) = true) := by
    simp only [Bool.or_eq_true, Bool.and_eq_true, decide_eq_true_eq, not_or]
    refine ⟨⟨⟨⟨BitVec.not_lt.mpr low, outside⟩, fun bad => ?_⟩, fun bad => ?_⟩, fun bad => ?_⟩
    · exact absurd (show uenvs.toNat ≤ va.toNat from bad.1) (by omega)
    · exact absurd (show upages.toNat ≤ va.toNat from bad.1) (by omega)
    · exact absurd (show ulim.toNat ≤ va.toNat from bad) (by omega)
  have window : ¬ ((uvpt ≤ va && va < ulim) = true) := by
    simp only [Bool.and_eq_true, decide_eq_true_eq]
    exact fun bad => absurd (show uvpt.toNat ≤ va.toNat from bad.1) (by omega)
  rw [passiveAlloc, if_neg inside, alloc]
  simp only [if_neg window, inserted]

theorem passiveAlloc_outside {pgdir : Nat} (h : passiveAlloc va pgdir asid vm = .ok u vm') : ¬ GuardPage va := by
  intro inside
  unfold passiveAlloc at h
  rw [if_pos] at h
  · cases h
  · simp only [Bool.or_eq_true, Bool.and_eq_true, decide_eq_true_eq]
    exact .inl (.inl (.inl (.inr inside)))

theorem Pages.unmapped (pages : Pages managed base roots vm) (found : roots e = some root) (own : ¬ Shared (pdxFin va))
    (none : target roots vm (.pte e (pdxFin va) (ptxFin va)) = none) : NoPage vm root.pgdir va := by
  by_cases absent : pdeOf vm root.pgdir va = 0
  · exact .inl absent
  · have table := pages.hasTable found own absent
    refine .inr ⟨pages.bound _ (pages.owned _ _ table), ?_⟩
    by_contra valid
    have full : pageOf (pteAt vm root.pgdir va) = some (ppn (pteAt vm root.pgdir va)) := pageOf_some.mpr ⟨valid, rfl⟩
    rw [target_pte table, entry] at none
    cases none.symm.trans full

theorem slot_pteAddr (va : Word) : pdxFin (pteAddr va) = pdxFin va ∧ ptxFin (pteAddr va) = ptxFin va :=
  ⟨pdxFin_pteAddr va, Fin.ext (ptx_pteAddr va)⟩

theorem Pages.alloc_noPage (pages : Pages managed base roots vm) {pp : Nat} (found : roots e = some root)
    (own : ¬ Shared (pdxFin va)) (none : target roots vm (.pte e (pdxFin va) (ptxFin va)) = none)
    (alloc : pageAlloc vm = .ok pp vm') : NoPage vm' root.pgdir (pteAddr va) := by
  obtain ⟨pages', same, _⟩ := pages.alloc alloc
  obtain ⟨dir, table⟩ := slot_pteAddr va
  refine pages'.unmapped found (by rwa [dir]) ?_
  rw [same, dir, table]
  exact none

theorem tableCost_alloc (pages : Pages managed base roots vm) {pp : Nat} (found : roots e = some root)
    (alloc : pageAlloc vm = .ok pp vm') (va : Word) : tableCost vm' root.pgdir (pteAddr va) = tableCost vm root.pgdir va := by
  rw [tableCost, tableCost, pages.alloc_mem (target_pgdir found) alloc, pdx_pteAddr]

theorem passiveAlloc_adding (pages : Pages managed base roots vm) (found : roots e = some root) (user : va < utop)
    (none : target roots vm (.pte e (pdxFin va) (ptxFin va)) = none) (h : passiveAlloc va root.pgdir asid vm = .ok u vm') :
    Adding roots vm vm' e va ∧ TakesFree (1 + tableCost vm root.pgdir va) vm vm' := by
  obtain ⟨pp, mid, alloc, insert⟩ := passiveAlloc_ok h
  obtain ⟨pagesMid, same, fresh, _, _⟩ := pages.alloc alloc
  have own := pdx_user user
  have no := pages.alloc_noPage found own none alloc
  rcases insert with ⟨window, _⟩ | ⟨_, insert⟩
  · refine absurd (show Shared (pdxFin va) from ?_) own
    show pdx utop ≤ pdx va ∧ pdx va ≤ pdx uvpt
    rw [window]
    exact ⟨by decide, Nat.le_refl _⟩
  · rw [pageInsert, pageLookup_none no, Result.ok_bind] at insert
    obtain ⟨dir, table⟩ := slot_pteAddr va
    obtain ⟨⟨t, q, targets⟩, taken⟩ := pageInsertNew_adding pagesMid found (by rwa [dir]) fresh.data
      (by rw [dir, table, same]; exact none) (by decide) (pagesMid.fresh_count fresh) insert
    rw [dir, table, same] at targets
    rw [tableCost_alloc pages found alloc va] at taken
    exact ⟨⟨t, q, targets⟩, (pageAlloc_takes alloc).trans taken⟩

theorem Pages.passive_can (pages : Pages managed base roots vm) (found : roots e = some root) (low : utemp ≤ va)
    (user : va < utop) (outside : ¬ GuardPage va) (none : target roots vm (.pte e (pdxFin va) (ptxFin va)) = none)
    (has : HasFree (1 + tableCost vm root.pgdir va) vm) (asid : Word) :
    ∃ vm', passiveAlloc va root.pgdir asid vm = .ok () vm' := by
  obtain ⟨pp, mid, alloc⟩ := pageAlloc_can (has.mono (Nat.le_add_right _ _))
  obtain ⟨pagesMid, _, _, _, _⟩ := pages.alloc alloc
  have taken := pageAlloc_takes alloc
  have own := pdx_user user
  have cost := tableCost_alloc pages found alloc va
  obtain ⟨vm', inserted⟩ : ∃ vm', pageInsert mid root.pgdir asid pp (pteAddr va) pteD = .ok () vm' := by
    rw [pageInsert, pageLookup_none (pages.alloc_noPage found own none alloc), Result.ok_bind]
    refine pagesMid.insertNew_can found (by rwa [pdxFin_pteAddr]) ?_
    rw [cost]
    exact taken.rest.mp has
  exact ⟨vm', passiveAlloc_user low user outside alloc inserted⟩

theorem Pages.mapped (pages : Pages managed base roots vm) {pp : Nat} (found : roots e = some root)
    (own : ¬ Shared (pdxFin va)) (full : target roots vm (.pte e (pdxFin va) (ptxFin va)) = some pp) :
    HasPage vm root.pgdir va := by
  rcases pageLookup_cases vm root.pgdir va with no | has | stop
  · cases (pages.noPage found own no).symm.trans full
  · exact has
  · have present : pdeOf vm root.pgdir va ≠ 0 := by
      intro absent
      cases stop.symm.trans (pageLookup_none (.inl absent))
    have table := pages.hasTable found own present
    rw [target_pte table, entry, pageOf_some] at full
    refine ⟨present, pages.bound _ (pages.owned _ _ table), full.1, ?_⟩
    show ppn (vm.mem _ (ptxFin va).val) < _
    rw [full.2]
    exact pages.bound pp (pages.owned (.pte e (pdxFin va) (ptxFin va)) pp (by
      rw [target_pte table, entry, pageOf_some]
      exact full))

theorem doTlbRefill_adding (pages : Pages managed base roots vm) {victim : Nat} (found : roots e = some root)
    (user : va < utop) (none : target roots vm (.pte e (pdxFin va) (ptxFin va)) = none)
    (h : doTlbRefill va root.pgdir asid victim vm = .ok u vm') :
    ¬ GuardPage va ∧ Adding roots vm vm' e va ∧ TakesFree (1 + tableCost vm root.pgdir va) vm vm' := by
  obtain ⟨pte, last, refill, h⟩ := Result.bind_ok h
  cases h
  have start := pages.tlb asid va
  have no : NoPage (tlbInvalidate vm asid va) root.pgdir va := start.unmapped found (pdx_user user) none
  rw [refillLookup, pageLookup_none no, Result.ok_bind] at refill
  obtain ⟨_, left, passive, refill⟩ := Result.bind_ok refill
  obtain ⟨⟨t, pp, targets⟩, taken⟩ := passiveAlloc_adding start found user none passive
  have full : target roots left (.pte e (pdxFin va) (ptxFin va)) = some pp := by rw [targets, Function.update_self]
  have has := (start.passive found no passive).mapped found (pdx_user user) full
  rw [refillLookup, pageLookup_some has, Result.ok_bind] at refill
  cases refill
  exact ⟨passiveAlloc_outside passive, ⟨t, pp, targets⟩, ⟨taken.list, taken.enough, taken.free, taken.envs⟩⟩

theorem doTlbRefill_can (pages : Pages managed base roots vm) (found : roots e = some root) (low : utemp ≤ va)
    (user : va < utop) (outside : ¬ GuardPage va) (none : target roots vm (.pte e (pdxFin va) (ptxFin va)) = none)
    (has : HasFree (1 + tableCost vm root.pgdir va) vm) (asid : Word) (victim : Nat) :
    ∃ vm', doTlbRefill va root.pgdir asid victim vm = .ok () vm' := by
  have start := pages.tlb asid va
  have no : NoPage (tlbInvalidate vm asid va) root.pgdir va := start.unmapped found (pdx_user user) none
  obtain ⟨left, passive⟩ := start.passive_can found low user outside none ⟨has.enough, has.free⟩ asid
  obtain ⟨⟨t, pp, targets⟩, _⟩ := passiveAlloc_adding start found user none passive
  have full : target roots left (.pte e (pdxFin va) (ptxFin va)) = some pp := by rw [targets, Function.update_self]
  have has := (start.passive found no passive).mapped found (pdx_user user) full
  rw [doTlbRefill, refillLookup, pageLookup_none no, Result.ok_bind, passive, Result.ok_bind, refillLookup,
    pageLookup_some has, Result.ok_bind, Result.ok_bind]
  exact ⟨_, rfl⟩

end Refill

section Supply

variable {T T' : Ref → Option Nat} {s : Store} {rest : List Store} {t pp : Nat}

def gaps (T : Ref → Option Nat) (cur : EnvPtr) (stores : List Store) : Finset VPage :=
  (stores.map fun s => vpageOf s.1).toFinset.filter fun v => T (.pte cur v.1 v.2) = none

def holes (T : Ref → Option Nat) (cur : EnvPtr) (stores : List Store) : Finset (Fin 1024) :=
  (stores.map fun s => pdxFin s.1).toFinset.filter fun i => T (.pde cur i) = none

/-- `Refillable` by the references to pages. -/
structure Supplied (T : Ref → Option Nat) (vm : Vm) (cur : EnvPtr) (stores : List Store) : Prop where
  inside : ∀ s ∈ stores, T (.pte cur (pdxFin s.1) (ptxFin s.1)) = none → ¬ GuardPage s.1
  enough : (gaps T cur stores).card + (holes T cur stores).card ≤ vm.pageFreeList.length
  free : ∀ pp ∈ vm.pageFreeList.take ((gaps T cur stores).card + (holes T cur stores).card), vm.holdsEnvs pp = false

theorem Supplied.has (supplied : Supplied T vm cur stores) : HasFree ((gaps T cur stores).card + (holes T cur stores).card) vm :=
  ⟨supplied.enough, supplied.free⟩

theorem guardPage_vpn : GuardPage va ↔ vpn va = 0x7f3fe := by
  have bound := va.isLt
  have top : ustacktop.toNat = 0x7f3fe000 ∧ (ustacktop + pageSize).toNat = 0x7f3ff000 := by decide
  rw [GuardPage, BitVec.le_def, BitVec.lt_def, top.1, top.2, vpn, pgshift, BitVec.toNat_ushiftRight, Nat.shiftRight_eq_div_pow]
  omega

theorem mem_gaps {v : VPage} :
    v ∈ gaps T cur stores ↔ v ∈ (stores.map fun s => vpageOf s.1) ∧ T (.pte cur v.1 v.2) = none := by
  rw [gaps, Finset.mem_filter, List.mem_toFinset]

theorem mem_holes {i : Fin 1024} :
    i ∈ holes T cur stores ↔ i ∈ (stores.map fun s => pdxFin s.1) ∧ T (.pde cur i) = none := by
  rw [holes, Finset.mem_filter, List.mem_toFinset]

theorem gaps_mapped (full : T (.pte cur (pdxFin s.1) (ptxFin s.1)) ≠ none) : gaps T cur (s :: rest) = gaps T cur rest := by
  ext v
  rw [mem_gaps, mem_gaps, List.map_cons, List.mem_cons]
  constructor
  · rintro ⟨rfl | there, none⟩
    · exact absurd none full
    · exact ⟨there, none⟩
  · exact fun both => ⟨.inr both.1, both.2⟩

theorem holes_mapped (full : T (.pde cur (pdxFin s.1)) ≠ none) : holes T cur (s :: rest) = holes T cur rest := by
  ext i
  rw [mem_holes, mem_holes, List.map_cons, List.mem_cons]
  constructor
  · rintro ⟨rfl | there, none⟩
    · exact absurd none full
    · exact ⟨there, none⟩
  · exact fun both => ⟨.inr both.1, both.2⟩

theorem Supplied.mapped (page : T (.pte cur (pdxFin s.1) (ptxFin s.1)) ≠ none) (table : T (.pde cur (pdxFin s.1)) ≠ none) :
    Supplied T vm cur (s :: rest) ↔ Supplied T vm cur rest := by
  constructor
  · rintro ⟨inside, enough, free⟩
    rw [gaps_mapped page, holes_mapped table] at enough free
    exact ⟨fun s' there => inside s' (List.mem_cons_of_mem s there), enough, free⟩
  · rintro ⟨inside, enough, free⟩
    refine ⟨fun s' there none => ?_, by rwa [gaps_mapped page, holes_mapped table],
      by rwa [gaps_mapped page, holes_mapped table]⟩
    rcases List.mem_cons.mp there with rfl | there
    · exact absurd none page
    · exact inside s' there none

theorem Supplied.first (supplied : Supplied T vm cur (s :: rest)) (none : T (.pte cur (pdxFin s.1) (ptxFin s.1)) = none) :
    HasFree (1 + if T (.pde cur (pdxFin s.1)) = .none then 1 else 0) vm := by
  have page : 1 ≤ (gaps T cur (s :: rest)).card := Finset.card_pos.mpr ⟨vpageOf s.1, mem_gaps.mpr ⟨List.mem_cons_self, none⟩⟩
  have table : (if T (.pde cur (pdxFin s.1)) = .none then 1 else 0) ≤ (holes T cur (s :: rest)).card := by
    split
    · rename_i missing
      exact Finset.card_pos.mpr ⟨pdxFin s.1, mem_holes.mpr ⟨List.mem_cons_self, missing⟩⟩
    · exact Nat.zero_le _
  exact supplied.has.mono (Nat.add_le_add page table)

section Adding

variable (added : T' = Function.update (Function.update T (.pde cur (pdxFin s.1)) (some t))
  (.pte cur (pdxFin s.1) (ptxFin s.1)) (some pp))

include added

theorem adding_pte (v : VPage) : T' (.pte cur v.1 v.2) = none ↔ T (.pte cur v.1 v.2) = none ∧ v ≠ vpageOf s.1 := by
  rw [added]
  by_cases same : v = vpageOf s.1
  · subst same
    exact iff_of_false (by simp [vpageOf]) fun both => both.2 rfl
  · have ne : Ref.pte cur v.1 v.2 ≠ .pte cur (pdxFin s.1) (ptxFin s.1) := by
      intro eq
      injection eq with _ dir table
      exact same (Prod.ext dir table)
    rw [Function.update_of_ne ne, Function.update_of_ne (by simp)]
    exact ⟨fun none => ⟨none, same⟩, And.left⟩

theorem adding_pde (i : Fin 1024) : T' (.pde cur i) = none ↔ T (.pde cur i) = none ∧ i ≠ pdxFin s.1 := by
  rw [added, Function.update_of_ne (by simp)]
  by_cases same : i = pdxFin s.1
  · subst same
    exact iff_of_false (by simp) fun both => both.2 rfl
  · rw [Function.update_of_ne (by simpa using same)]
    exact ⟨fun none => ⟨none, same⟩, And.left⟩

theorem gaps_adding (none : T (.pte cur (pdxFin s.1) (ptxFin s.1)) = none) :
    (gaps T cur (s :: rest)).card = (gaps T' cur rest).card + 1 := by
  have out : vpageOf s.1 ∉ gaps T' cur rest := fun there => ((adding_pte added _).mp (mem_gaps.mp there).2).2 rfl
  rw [← Finset.card_insert_of_notMem out]
  congr 1
  ext v
  rw [Finset.mem_insert, mem_gaps, mem_gaps, adding_pte added, List.map_cons, List.mem_cons]
  constructor
  · rintro ⟨rfl | there, empty⟩
    · exact .inl rfl
    · by_cases same : v = vpageOf s.1
      · exact .inl same
      · exact .inr ⟨there, empty, same⟩
  · rintro (rfl | ⟨there, empty, _⟩)
    · exact ⟨.inl rfl, none⟩
    · exact ⟨.inr there, empty⟩

theorem holes_adding : (holes T cur (s :: rest)).card =
    (holes T' cur rest).card + if T (.pde cur (pdxFin s.1)) = none then 1 else 0 := by
  have out : pdxFin s.1 ∉ holes T' cur rest := fun there => ((adding_pde added _).mp (mem_holes.mp there).2).2 rfl
  split
  · rename_i none
    rw [← Finset.card_insert_of_notMem out]
    congr 1
    ext i
    rw [Finset.mem_insert, mem_holes, mem_holes, adding_pde added, List.map_cons, List.mem_cons]
    constructor
    · rintro ⟨rfl | there, empty⟩
      · exact .inl rfl
      · by_cases same : i = pdxFin s.1
        · exact .inl same
        · exact .inr ⟨there, empty, same⟩
    · rintro (rfl | ⟨there, empty, _⟩)
      · exact ⟨.inl rfl, none⟩
      · exact ⟨.inr there, empty⟩
  · rename_i full
    rw [holes_mapped full, Nat.add_zero]
    congr 1
    ext i
    rw [mem_holes, mem_holes, adding_pde added]
    refine and_congr_right fun _ => ⟨fun empty => ⟨empty, fun same => full (same ▸ empty)⟩, And.left⟩

theorem Supplied.adding (none : T (.pte cur (pdxFin s.1) (ptxFin s.1)) = none) (outside : ¬ GuardPage s.1)
    (taken : TakesFree (1 + if T (.pde cur (pdxFin s.1)) = .none then 1 else 0) vm vm') :
    Supplied T vm cur (s :: rest) ↔ Supplied T' vm' cur rest := by
  have total : (gaps T cur (s :: rest)).card + (holes T cur (s :: rest)).card =
      (1 + if T (.pde cur (pdxFin s.1)) = .none then 1 else 0) + ((gaps T' cur rest).card + (holes T' cur rest).card) := by
    rw [gaps_adding added none, holes_adding added]
    omega
  have rest := taken.rest (m := (gaps T' cur rest).card + (holes T' cur rest).card)
  rw [← total] at rest
  constructor
  · intro supplied
    obtain ⟨enough, free⟩ := rest.mp supplied.has
    refine ⟨fun s' there empty => ?_, enough, free⟩
    exact supplied.inside s' (List.mem_cons_of_mem s there) ((adding_pte added (vpageOf s'.1)).mp empty).1
  · intro supplied
    obtain ⟨enough, free⟩ := rest.mpr supplied.has
    refine ⟨fun s' there empty => ?_, enough, free⟩
    rcases List.mem_cons.mp there with rfl | there
    · exact outside
    · by_cases same : vpageOf s'.1 = vpageOf s.1
      · rw [guardPage_vpn, vpageOf_eq.mp same, ← guardPage_vpn]
        exact outside
      · exact supplied.inside s' there ((adding_pte added (vpageOf s'.1)).mpr ⟨empty, same⟩)

end Adding

end Supply

section Fill

variable {victim : Word → Nat} {s : Store} {pte : Word}

/-- What the kernel is while it stores to the pages of the current env. -/
structure FillInv (k : Kernel) (cur : EnvPtr) : Prop where
  machine : MachineInv k
  writable : Writable k
  current : k.curenv = some cur

def Kernel.refs (k : Kernel) : Ref → Option Nat := target (rootsOf k) k.vm

theorem FillInv.found (inv : FillInv k cur) : rootsOf k cur = some ⟨(k.envs cur).envPgdir, (k.envs cur).envVars⟩ :=
  rootsOf_used (inv.machine.env.current_used inv.current)

theorem FillInv.page (inv : FillInv k cur) (user : va < utop) :
    translate k.vm (k.envs cur).envPgdir va = none ↔ k.refs (.pte cur (pdxFin va) (ptxFin va)) = none := by
  obtain ⟨managed, pages, _⟩ := inv.machine.pages
  constructor
  · intro seen
    cases full : k.refs (.pte cur (pdxFin va) (ptxFin va)) with
    | none => rfl
    | some pp =>
      obtain ⟨table, _, valid, _⟩ := pages.pages.mapped inv.found (pdx_user user) full
      rw [translate, if_neg (not_or.mpr ⟨table, valid⟩)] at seen
      cases seen
  · intro none
    have no := pages.pages.unmapped inv.found (pdx_user user) none
    rw [translate, if_pos (no.imp_right And.right)]

theorem FillInv.table (inv : FillInv k cur) (user : va < utop) :
    k.vm.mem (k.envs cur).envPgdir (pdx va) = 0 ↔ k.refs (.pde cur (pdxFin va)) = none := by
  obtain ⟨managed, pages, _⟩ := inv.machine.pages
  constructor
  · intro absent
    rw [Kernel.refs, target_pde inv.found (pdx_user user), entry]
    show pageOf (k.vm.mem (k.envs cur).envPgdir (pdx va)) = none
    rw [absent]
    rfl
  · intro none
    by_contra present
    cases none.symm.trans (pages.pages.hasTable inv.found (pdx_user user) present)

theorem FillInv.cost (inv : FillInv k cur) (user : va < utop) :
    tableCost k.vm (k.envs cur).envPgdir va = if k.refs (.pde cur (pdxFin va)) = none then 1 else 0 := by
  rw [tableCost]
  exact if_congr (inv.table user) rfl rfl

theorem FillInv.taking (inv : FillInv k cur) (user : ∀ s ∈ stores, s.1 < utop) :
    taking k.vm (k.envs cur).envPgdir stores = (gaps k.refs cur stores).card + (holes k.refs cur stores).card := by
  rw [Mos.taking, ← List.card_toFinset, ← List.card_toFinset]
  congr 2
  · ext v
    simp only [List.mem_toFinset, List.mem_map, List.mem_filter, decide_eq_true_eq, mem_gaps]
    constructor
    · rintro ⟨s, ⟨there, seen⟩, rfl⟩
      exact ⟨⟨s, there, rfl⟩, (inv.page (user s there)).mp seen⟩
    · rintro ⟨⟨s, there, rfl⟩, none⟩
      exact ⟨s, ⟨there, (inv.page (user s there)).mpr none⟩, rfl⟩
  · ext i
    simp only [List.mem_toFinset, List.mem_map, List.mem_filter, decide_eq_true_eq, mem_holes]
    constructor
    · rintro ⟨s, ⟨there, seen⟩, rfl⟩
      exact ⟨⟨s, there, rfl⟩, (inv.table (user s there)).mp seen⟩
    · rintro ⟨⟨s, there, rfl⟩, none⟩
      exact ⟨s, ⟨there, (inv.table (user s there)).mpr none⟩, rfl⟩

theorem FillInv.supplied (inv : FillInv k cur) (user : ∀ s ∈ stores, s.1 < utop) :
    Refillable k cur stores ↔ Supplied k.refs k.vm cur stores := by
  have total := inv.taking user
  constructor
  · rintro ⟨inside, enough, free⟩
    rw [total] at enough free
    exact ⟨fun s there none => inside s there ((inv.page (user s there)).mpr none), enough, free⟩
  · rintro ⟨inside, enough, free⟩
    rw [← total] at enough free
    exact ⟨fun s there none => inside s there ((inv.page (user s there)).mp none), enough, free⟩

theorem Serves.writable (serves : Serves cur k k') (inv : MachineInv k) (writable : Writable k) : Writable k' := by
  intro b v w own there
  rw [serves.leaves inv b] at there
  exact writable b v w own there

theorem Serves.refs (serves : Serves cur k k') (inv : MachineInv k) :
    k'.refs = k.refs ∧ k'.vm.pageFreeList = k.vm.pageFreeList ∧ k'.vm.envsBase = k.vm.envsBase := by
  induction serves with
  | refl => exact ⟨rfl, rfl, rfl⟩
  | tail first serve ih =>
    obtain ⟨managed, pages, _⟩ := (Serves.inv first inv).1.pages
    have same := serve.target pages
    rcases serve.vm with vm | ⟨_, _, _, _, _, vm⟩
    · exact ⟨same.trans ih.1, by rw [vm]; exact ih.2.1, by rw [vm]; exact ih.2.2⟩
    · exact ⟨same.trans ih.1, by rw [vm]; exact ih.2.1, by rw [vm]; exact ih.2.2⟩

theorem FillInv.serves (inv : FillInv k cur) (serves : Serves cur k k') : FillInv k' cur :=
  ⟨(serves.inv inv.machine).1, serves.writable inv.machine inv.writable, (serves.inv inv.machine).2.trans inv.current⟩

theorem FillInv.lands (inv : FillInv k cur) (user : s.1 < utop)
    (seen : translate k.vm (k.envs cur).envPgdir s.1 = some pte) : ∃ k', storeBytes cur [s] k = some k' := by
  have dirty := inv.writable cur (vpageOf s.1) pte (pdx_user user) (translate_leaf inv.machine inv.current user seen)
  rw [storeBytes, seen, Option.bind_some, if_neg dirty]
  exact ⟨_, rfl⟩

theorem FillInv.refill (inv : FillInv k cur) (user : va < utop) (none : k.refs (.pte cur (pdxFin va) (ptxFin va)) = none)
    {n : Nat} (h : step k (.tlbRefill va n) = some k') :
    FillInv k' cur ∧ ¬ GuardPage va ∧ TakesFree (1 + tableCost k.vm (k.envs cur).envPgdir va) k.vm k'.vm ∧
      ∃ t pp, k'.refs = Function.update (Function.update k.refs (.pde cur (pdxFin va)) (some t))
        (.pte cur (pdxFin va) (ptxFin va)) (some pp) := by
  obtain ⟨managed, pages, tlb⟩ := inv.machine.pages
  have machine : MachineInv k' := inv.machine.step (show TlbGuard k (.tlbRefill va n) from trivial) h
  have writable : Writable k' :=
    step_writable inv.writable pages tlb inv.machine.env inv.machine.table (show TlbGuard k (.tlbRefill va n) from trivial)
      (show MapsDirty (.tlbRefill va n) from trivial) h
  dsimp only [step] at h
  rw [inv.current, Option.bind_some, pages.space cur inv.current] at h
  obtain ⟨vm', rfl⟩ := withVm_state h
  have ran : doTlbRefill va (k.envs cur).envPgdir (asidWord (k.envs cur).envAsid) n k.vm = .ok () vm' := by
    cases result : doTlbRefill va (k.envs cur).envPgdir (asidWord (k.envs cur).envAsid) n k.vm with
    | ok u vm =>
      rw [result] at h
      cases h
      rfl
    | err code vm => exact absurd result (doTlbRefill_noErr _ _ _ _ _ _ _)
    | stop cause =>
      rw [result] at h
      cases h
  obtain ⟨outside, adding, taken⟩ := doTlbRefill_adding pages.pages inv.found user none ran
  exact ⟨⟨machine, writable, inv.current⟩, outside, taken, adding⟩

theorem FillInv.refill_can (inv : FillInv k cur) (low : utemp ≤ va) (user : va < utop) (outside : ¬ GuardPage va)
    (none : k.refs (.pte cur (pdxFin va) (ptxFin va)) = none)
    (has : HasFree (1 + tableCost k.vm (k.envs cur).envPgdir va) k.vm) (n : Nat) :
    ∃ k', step k (.tlbRefill va n) = some k' := by
  obtain ⟨managed, pages, _⟩ := inv.machine.pages
  obtain ⟨vm', ran⟩ := doTlbRefill_can pages.pages inv.found low user outside none has (asidWord (k.envs cur).envAsid) n
  dsimp only [step]
  rw [inv.current, Option.bind_some, pages.space cur inv.current, ran]
  exact ⟨_, rfl⟩

/-- The stores land if and only if the refill has the pages for them. -/
theorem fillBytes_iff (inv : FillInv k cur) (user : ∀ s ∈ stores, utemp ≤ s.1 ∧ s.1 < utop) :
    (fillBytes cur victim stores k).isSome = true ↔ Refillable k cur stores := by
  induction stores generalizing k with
  | nil => exact iff_of_true rfl ⟨fun _ there => (by cases there), Nat.zero_le _, fun _ there => (by cases there)⟩
  | cons s rest ih =>
    obtain ⟨low, top⟩ := user s List.mem_cons_self
    have rest_user : ∀ s' ∈ rest, utemp ≤ s'.1 ∧ s'.1 < utop := fun s' there => user s' (List.mem_cons_of_mem s there)
    -- after the store the rest is as in `ih`
    have after {mid : Kernel} (invMid : FillInv mid cur) {pte : Word}
        (seen : translate mid.vm (mid.envs cur).envPgdir s.1 = some pte) :
        ((storeBytes cur [s] mid).bind (fillBytes cur victim rest)).isSome = true ↔
          Supplied mid.refs mid.vm cur rest := by
      obtain ⟨last, stored⟩ := invMid.lands top seen
      have serves : Serves cur mid last := storeBytes_serves invMid.machine invMid.current
        (fun t there => by rw [List.mem_singleton.mp there]; exact top) stored
      obtain ⟨refs, list, envs⟩ := serves.refs invMid.machine
      have invLast := invMid.serves serves
      rw [stored, Option.bind_some, ih invLast rest_user, invLast.supplied fun t there => (rest_user t there).2, refs]
      have same {n : Nat} : HasFree n mid.vm ↔ HasFree n last.vm := by
        have rest := (TakesFree.zero list envs).rest (m := n)
        rwa [Nat.zero_add] at rest
      constructor
      · intro supplied
        obtain ⟨enough, free⟩ := same.mpr supplied.has
        exact ⟨supplied.inside, enough, free⟩
      · intro supplied
        obtain ⟨enough, free⟩ := same.mp supplied.has
        exact ⟨supplied.inside, enough, free⟩
    rw [inv.supplied fun t there => (user t there).2, fillBytes, refilled]
    cases seen : translate k.vm (k.envs cur).envPgdir s.1 with
    | some pte =>
      have page : k.refs (.pte cur (pdxFin s.1) (ptxFin s.1)) ≠ none := by
        intro none
        cases seen.symm.trans ((inv.page top).mpr none)
      have table : k.refs (.pde cur (pdxFin s.1)) ≠ none := fun none => page (target_pte_none none)
      rw [Supplied.mapped page table]
      exact after inv seen
    | none =>
      have none := (inv.page top).mp seen
      have refill {k1 : Kernel} (ran : step k (.tlbRefill s.1 (victim s.1)) = some k1) :
          (((some k1 : Option Kernel).bind fun k => (storeBytes cur [s] k).bind (fillBytes cur victim rest)).isSome = true) ↔
            Supplied k.refs k.vm cur (s :: rest) := by
        obtain ⟨inv1, outside, taken, t, pp, added⟩ := inv.refill top none ran
        rw [inv.cost top] at taken
        have there : translate k1.vm (k1.envs cur).envPgdir s.1 ≠ .none := by
          intro seen
          have none' := (inv1.page top).mp seen
          rw [added, Function.update_self] at none'
          cases none'
        obtain ⟨pte, seen⟩ := Option.ne_none_iff_exists'.mp there
        rw [Supplied.adding added none outside taken]
        exact after inv1 seen
      constructor
      · intro filled
        cases ran : step k (.tlbRefill s.1 (victim s.1)) with
        | none =>
          simp only [ran] at filled
          cases filled
        | some k1 =>
          simp only [ran] at filled
          exact (refill ran).mp filled
      · intro supplied
        have has := supplied.first none
        rw [← inv.cost top] at has
        obtain ⟨k1, ran⟩ := inv.refill_can low top (supplied.inside s List.mem_cons_self none) none has (victim s.1)
        simp only [ran]
        exact (refill ran).mpr supplied

variable {tf inner : Trapframe} {out : Option Outside} {call : UserCall} {load : Load} {r : Word}

theorem storesUntilMod_none (inv : FillInv k cur) (user : ∀ s ∈ stores, s.1 < utop) : storesUntilMod cur stores k = none := by
  induction stores generalizing k with
  | nil => rfl
  | cons s rest ih =>
    have top := user s List.mem_cons_self
    rw [storesUntilMod]
    cases seen : translate k.vm (k.envs cur).envPgdir s.1 with
    | none => rfl
    | some pte =>
      obtain ⟨mid, stored⟩ := inv.lands top seen
      have dirty : pte &&& pteD ≠ 0 := by
        intro clean
        rw [storeBytes, seen, Option.bind_some, if_pos clean] at stored
        cases stored
      have serves : Serves cur k mid := storeBytes_serves inv.machine inv.current
        (fun t there => by rw [List.mem_singleton.mp there]; exact top) stored
      rw [Option.bind_some, if_neg dirty, stored, Option.bind_some]
      exact ih (inv.serves serves) fun t there => user t (List.mem_cons_of_mem s there)

theorem FillInv.trap (inv : FillInv k cur) (tf : Trapframe) : FillInv (k.trap tf) cur := by
  have trapped : Serve cur k (k.trap tf) := .frame _
  exact inv.serves (.single trapped)

theorem FillInv.called (inv : FillInv k cur) (called : userTable cur load call (k.trap tf) = .ok (r, stores) k') :
    FillInv k' cur :=
  (inv.trap tf).serves (userTable_serves ((inv.trap tf).machine.env.current_used inv.current) (congrArg Result.state called))

theorem kernelMod_none (inv : FillInv k cur) : kernelMod cur tf out inner k = none := by
  unfold kernelMod
  split
  · rfl
  · cases pending : pendingStores cur tf k out with
    | none => rfl
    | some pair =>
      obtain ⟨stores, mid⟩ := pair
      have invMid := inv.serves (pendingStores_serves inv.machine inv.current pending)
      rw [Option.bind_some, storesUntilMod_none invMid (pendingStores_user pending), Option.bind_none]

theorem MachineInv.step_writable {op : Op} (inv : MachineInv k) (writable : Writable k) (meets : TlbGuard k op) (dirty : MapsDirty op)
    (h : Mos.step k op = some k') : Writable k' := by
  obtain ⟨managed, pages, tlb⟩ := inv.pages
  exact Mos.step_writable writable pages tlb inv.env inv.table meets dirty h

theorem machineStep_writable (inv : MachineInv k) (writable : Writable k) (meets : DirtyGuard k op)
    (h : machineStep k op = some k') : Writable k' := by
  obtain ⟨guard, dirty⟩ := meets
  cases op with
  | timer tf => exact inv.step_writable writable (show TlbGuard k (.timer tf) from trivial) (show Mos.MapsDirty (.timer tf) from trivial) h
  | tlbRefill va victim =>
    exact inv.step_writable writable (show TlbGuard k (.tlbRefill va victim) from trivial)
      (show Mos.MapsDirty (.tlbRefill va victim) from trivial) h
  | envCreate binary priority =>
    exact inv.step_writable writable (show TlbGuard k (.envCreate binary priority) from guard)
      (show Mos.MapsDirty (.envCreate binary priority) from dirty) h
  | store va byte =>
    obtain ⟨cur, current, h⟩ := Option.bind_eq_some_iff.mp h
    have user : ∀ s ∈ [(va, byte)], s.1 < utop := by
      intro s inside
      rw [List.mem_singleton.mp inside]
      exact guard
    exact (storeBytes_serves inv current user h).writable inv writable
  | tlbMod tf =>
    obtain ⟨cur, current, h⟩ := Option.bind_eq_some_iff.mp h
    exact (doTlbMod_serves inv current h).writable inv writable
  | kernelMod tf out inner =>
    obtain ⟨cur, current, h⟩ := Option.bind_eq_some_iff.mp h
    exact (kernelMod_serves inv current h).writable inv writable
  | syscall tf out =>
    obtain ⟨cur, current, h⟩ := Option.bind_eq_some_iff.mp h
    rcases doAnySyscall_cases inv current h with ⟨call, entry, h⟩ | serves
    · refine inv.step_writable writable (guard call entry) (dirty call ?_) ?_
      · rw [MachineOp.call, entry]
        rfl
      · show (k.curenv.bind fun cur => doSyscall cur tf call k) = some k'
        rw [current]
        exact h
    · exact serves.writable inv writable

end Fill

/-- In every run whose steps map pages with `PTE_D` only, the stores of a system call land if and only if the refill has the
    pages for them, and the kernel takes no TLB Mod exception of its own. -/
theorem storesLand_run {npage : Nat} {mem : Nat → Nat → Word} {k0 : Kernel} {ops : List MachineOp} (small : npage ≤ 2^20)
    (booted : boot npage mem = some k0) (run : Run machineStep DirtyGuard k0 ops k) :
    (∀ cur stores k', Filling k cur stores k' →
      ((∀ victim, (fillBytes cur victim stores k').isSome = true) ↔ Refillable k' cur stores)) ∧
      ∀ tf out inner, machineStep k (.kernelMod tf out inner) = none := by
  obtain ⟨inv, writable⟩ := run.invariant (fun k => MachineInv k ∧ Writable k)
    ⟨boot_machineInv small booted, boot_writable booted⟩
    fun t op u inv meets next => ⟨machineStep_inv inv.1 meets.1 next, machineStep_writable inv.1 inv.2 meets next⟩
  refine ⟨fun cur stores k' filling => ?_, fun tf out inner => ?_⟩
  · obtain ⟨current, tf, load, call, r, fills, called⟩ := filling
    have after : FillInv k' cur := FillInv.called ⟨inv, writable, current⟩ called
    have each (victim : Word → Nat) : (fillBytes cur victim stores k').isSome = true ↔ Refillable k' cur stores :=
      fillBytes_iff after fun s there => fills_user fills called there
    exact ⟨fun lands => (each fun _ => 0).mp (lands _), fun refillable victim => (each victim).mpr refillable⟩
  · cases current : k.curenv with
    | none => rw [machineStep, current, Option.bind_none]
    | some cur =>
      rw [machineStep, current, Option.bind_some]
      exact kernelMod_none ⟨inv, writable, current⟩

instance (va : Word) : Decidable (GuardPage va) := inferInstanceAs (Decidable (_ ∧ _))

instance (k : Kernel) (cur : EnvPtr) (stores : List Store) : Decidable (Refillable k cur stores) :=
  decidable_of_iff (stores.all (fun s => (translate k.vm (k.envs cur).envPgdir s.1).isSome || ¬ GuardPage s.1) ∧
    taking k.vm (k.envs cur).envPgdir stores ≤ k.vm.pageFreeList.length ∧
    ∀ pp ∈ k.vm.pageFreeList.take (taking k.vm (k.envs cur).envPgdir stores), k.vm.holdsEnvs pp = false) <| by
    have inside : (stores.all fun s => (translate k.vm (k.envs cur).envPgdir s.1).isSome || ¬ GuardPage s.1) = true ↔
        ∀ s ∈ stores, translate k.vm (k.envs cur).envPgdir s.1 = none → ¬ GuardPage s.1 := by
      simp only [List.all_eq_true, Bool.or_eq_true, decide_eq_true_eq, or_iff_not_imp_left, Option.not_isSome_iff_eq_none]
    rw [inside]
    exact ⟨fun h => ⟨h.1, h.2.1, h.2.2⟩, fun h => ⟨h.inside, h.enough, h.free⟩⟩

/-- An env allocates a page. -/
def bufferRun : List MachineOp :=
  [.envCreate emptyBinary 1, .timer zeroFrame, .syscall (mapCall 6 0 0x400000 pteD) silence]

/-- The stores of its `sys_getcwd`. -/
def cwdStores (buf : Word) (k : Kernel) : Option (List Store × Kernel) :=
  match userTable 0 silence.load (.getcwd buf 1024) (k.trap zeroFrame) with
  | .ok (_, stores) k' => some (stores, k')
  | _ => none

theorem cwdStores_filling {buf : Word} (current : k.curenv = some 0) (h : cwdStores buf k = some (stores, k')) :
    Filling k 0 stores k' := by
  unfold cwdStores at h
  split at h
  · rename_i r _ _ called
    cases h
    exact ⟨current, zeroFrame, silence.load, _, r, .getcwd buf 1024, called⟩
  · cases h

set_option maxRecDepth 100000 in
/-- The buffer of `sys_getcwd` goes on in a page that is not mapped. -/
theorem storesLand_bufferRun : ∃ k0 k k', clearBoot = some k0 ∧ Run machineStep DirtyGuard k0 bufferRun k ∧
    Filling k 0 [(0x400fff, 47), (0x401000, 0)] k' ∧
    (∀ victim, (fillBytes 0 victim [(0x400fff, 47), (0x401000, 0)] k').isSome = true) ∧
    ∀ tf out inner, machineStep k (.kernelMod tf out inner) = none := by
  have check : (clearBoot.bind fun k0 => (Run.exec machineStep k0 bufferRun).bind fun k =>
      (cwdStores 0x400fff k).map fun pair => ((k.curenv, decide (Refillable pair.2 0 pair.1)), pair.1)) =
      some ((some 0, true), [(0x400fff, 47), (0x401000, 0)]) := by
    rw [clearBoot_eq]
    decide +kernel
  obtain ⟨k0, booted, check⟩ := Option.bind_eq_some_iff.mp check
  obtain ⟨k, exec, check⟩ := Option.bind_eq_some_iff.mp check
  obtain ⟨⟨stores, k'⟩, called, check⟩ := Option.map_eq_some_iff.mp check
  simp only [Prod.mk.injEq, decide_eq_true_eq] at check
  obtain ⟨⟨current, refillable⟩, rfl⟩ := check
  have guarded : Run machineStep DirtyGuard k0 bufferRun k := by
    refine Run.of_exec (fun op mem t => ?_) exec
    simp only [bufferRun, List.mem_cons, List.not_mem_nil, or_false] at mem
    rcases mem with rfl | rfl | rfl
    · exact ⟨fun page inside => (by cases inside), fun page inside => by cases inside⟩
    · exact ⟨trivial, trivial⟩
    · refine ⟨fun call entry => ?_, fun call entry => ?_⟩
      · cases entry
        exact (by decide : FlagBits pteD)
      · cases entry
        exact (by decide : pteD &&& pteD ≠ 0)
  obtain ⟨lands, noMod⟩ := storesLand_run (by decide) booted guarded
  have filling := cwdStores_filling current called
  exact ⟨k0, k, k', booted, guarded, filling, (lands 0 _ k' filling).mpr refillable, noMod⟩

/-- The other arguments of `sys_mem_map`, on the stack: the address `0x400000` and `PTE_COW`. -/
def cowArgs : Outside := { silence with load := fun a => if a = 18 then 0x40 else if a = 20 then 1 else 0 }

/-- The env marks its page copy-on-write, as `duppage` does. -/
def cowRun : List MachineOp := bufferRun ++ [.syscall (mapCall 7 0 0x400000 0) cowArgs]

set_option maxRecDepth 100000 in
theorem getcwd_faults : ∃ k0 k, clearBoot = some k0 ∧ Run machineStep (fun _ _ => True) k0 cowRun k ∧ ¬ StoresLand k := by
  have check : (clearBoot.bind fun k0 => (Run.exec machineStep k0 cowRun).bind fun k =>
      (cwdStores 0x400000 k).map fun pair => (k.curenv, (fillBytes 0 (fun _ => 0) pair.1 pair.2).isSome)) =
      some (some 0, false) := by
    rw [clearBoot_eq]
    decide +kernel
  obtain ⟨k0, booted, check⟩ := Option.bind_eq_some_iff.mp check
  obtain ⟨k, exec, check⟩ := Option.bind_eq_some_iff.mp check
  obtain ⟨⟨stores, k'⟩, called, check⟩ := Option.map_eq_some_iff.mp check
  simp only [Prod.mk.injEq] at check
  obtain ⟨current, faults⟩ := check
  refine ⟨k0, k, booted, Run.of_exec (fun _ _ _ => trivial) exec, fun lands => ?_⟩
  have landed := lands 0 stores k' (fun _ => 0) (cwdStores_filling current called)
  cases faults.symm.trans landed

end Mos
