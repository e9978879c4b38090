import Mos.Kern.TlbRun

namespace Mos

/-- What `page_lookup` gives: it may panic, find no page, or find a page. -/
def pageAt (vm : Vm) (pgdir : Nat) (va : Word) : Option (Option Nat) :=
  match pageLookup vm pgdir va with
  | .ok found _ => some (found.map Prod.fst)
  | _ => none

def lookupPage (k : Kernel) (e : EnvPtr) (va : Word) : Option (Option Nat) := pageAt k.vm (k.envs e).envPgdir va

/-- The lookup of `va` in `e` gives `found`, and the lookup of every other user page in every env gives what it gave. -/
structure Translates (k k' : Kernel) (e : EnvPtr) (va : Word) (found : Option Nat) : Prop where
  here : lookupPage k' e va = some found
  others : ∀ b va', (k.envs b).envStatus ≠ .free → va' < utop → ¬ (b = e ∧ vpn va' = vpn va) →
    lookupPage k' b va' = lookupPage k b va'

/-- What a successful call of `cur` that maps or unmaps a page does to the address spaces. -/
def OneTranslation (k k' : Kernel) (cur : EnvPtr) : Call → Prop
  | .memAlloc envid va _ => ∃ e pp, envid2env k cur envid true = .ok e ∧ pp ∈ k.vm.pageFreeList ∧
      pp ∉ k'.vm.pageFreeList ∧ (∀ i, k'.vm.mem pp i = 0) ∧ Translates k k' e va (some pp)
  | .memMap srcid srcva dstid dstva _ => ∃ src dst pp, envid2env k cur srcid true = .ok src ∧
      envid2env k cur dstid true = .ok dst ∧ lookupPage k src srcva = some (some pp) ∧ Translates k k' dst dstva (some pp)
  | .memUnmap envid va => ∃ e, envid2env k cur envid true = .ok e ∧ Translates k k' e va none
  | _ => True

/-- `perm` adds no bit to the page number in the word that `page_insert` stores. -/
def NamesPage (pp : Nat) (perm : Word) : Prop := ppn (page2pa pp ||| perm) = pp

instance (pp : Nat) (perm : Word) : Decidable (NamesPage pp perm) := inferInstanceAs (Decidable (_ = _))

/-- The perm word of a call that maps a page leaves the number of that page as it is. -/
def CallNames (k : Kernel) (cur : EnvPtr) : Call → Prop
  | .memAlloc _ _ perm => ∀ pp, k.vm.pageFreeList.head? = some pp → NamesPage pp perm
  | .memMap srcid srcva _ _ perm => ∀ src pp, envid2env k cur srcid true = .ok src →
      lookupPage k src srcva = some (some pp) → NamesPage pp perm
  | _ => True

variable {managed : Nat → Prop} {base : Nat} {roots : Roots} {vm vm' : Vm} {k k' : Kernel}
variable {e b cur : EnvPtr} {root : Root} {pp q : Nat} {va asid perm w : Word} {u : Unit}

theorem ppn_pteOf_eq (pp : Nat) (perm : Word) : ppn (pteOf pp perm) = ppn (page2pa pp ||| perm) := by
  rw [pteOf, ppn_or_flags _ pteV (by decide), ppn_or_flags _ pteCCacheable (by decide)]

theorem vpageOf_eq {va va' : Word} : vpageOf va' = vpageOf va ↔ vpn va' = vpn va := by
  have small := ptx_lt va
  have small' := ptx_lt va'
  rw [vpn_eq, vpn_eq, vpageOf, vpageOf, Prod.mk.injEq, pdxFin, pdxFin, ptxFin, ptxFin, Fin.mk.injEq, Fin.mk.injEq]
  omega

def Tables (roots : Roots) (vm : Vm) : Prop :=
  ∀ e root (i : Fin 1024), roots e = some root → ¬ Shared i →
    vm.mem root.pgdir i.val = 0 ∨ vm.mem root.pgdir i.val &&& pteV ≠ 0 ∧ ppn (vm.mem root.pgdir i.val) < vm.npage

theorem Pages.tables (pages : Pages managed base roots vm) : Tables roots vm := by
  intro e root i found own
  refine (pages.whole e root i found own).imp_right fun valid => ⟨valid, ?_⟩
  have table : target roots vm (.pde e i) = some (ppn (vm.mem root.pgdir i.val)) := by
    rw [target_pde found own, entry, pageOf_some]
    exact ⟨valid, rfl⟩
  exact pages.bound _ (pages.owned _ _ table)

theorem Pages.writePte_tables (pages : Pages managed base roots vm) {i j : Fin 1024} {t : Nat}
    (table : target roots vm (.pde e i) = some t) : Tables roots (vm.write ⟨t, j.val⟩ w) := by
  intro b root k found own
  rw [write_mem_ne vm (pages.pgdir_ne_table found table)]
  exact pages.tables b root k found own

/-- What `page_lookup` makes of a translation. -/
def seen (npage : Nat) : Option Word → Option (Option Nat)
  | none => some none
  | some w => if npage ≤ ppn w then none else some (some (ppn w))

theorem Tables.pageAt (tables : Tables roots vm) (found : roots e = some root) (user : va < utop) :
    pageAt vm root.pgdir va = seen vm.npage (leaf roots vm e (vpageOf va)) := by
  have table : leaf roots vm e (vpageOf va) = (leafOf (pdeOf vm root.pgdir va)).bind fun _ =>
      leafOf (pteAt vm root.pgdir va) := by
    rw [leaf, tableOf_found found, entry, pageOf_leafOf, Option.bind_map]
    show (leafOf (pdeOf vm root.pgdir va)).bind _ = _
    cases valid : leafOf (pdeOf vm root.pgdir va) with
    | none => rfl
    | some x =>
      rw [(leafOf_eq valid).1]
      rfl
  have pde : pdeOf vm root.pgdir va = 0 ∨ pdeOf vm root.pgdir va &&& pteV ≠ 0 ∧ ppn (pdeOf vm root.pgdir va) < vm.npage :=
    tables e root (pdxFin va) found (pdx_user user)
  rcases pde with absent | ⟨valid, bound⟩
  · rw [table, Mos.pageAt, pageLookup_none (Or.inl absent), absent]
    rfl
  · rw [table, leafOf_some.mpr valid, Option.bind_some]
    by_cases mapped : pteAt vm root.pgdir va &&& pteV = 0
    · rw [leafOf_none.mpr mapped, Mos.pageAt, pageLookup_none (Or.inr ⟨bound, mapped⟩)]
      rfl
    · have present : pdeOf vm root.pgdir va ≠ 0 := by
        intro zero
        rw [zero] at valid
        exact valid rfl
      rw [leafOf_some.mpr mapped, seen]
      split
      · rename_i high
        have stop := ((pageLookup_cases vm root.pgdir va).resolve_left fun no =>
          no.elim present fun invalid => mapped invalid.2).resolve_left fun has => absurd has.bound (not_lt.mpr high)
        rw [Mos.pageAt, stop]
      · rename_i low
        rw [Mos.pageAt, pageLookup_some ⟨present, bound, mapped, not_le.mp low⟩]
        rfl

/-- The translations after a page table word of `e` for `va` has been set to `w`. -/
structure Retargeted (roots : Roots) (vm vm' : Vm) (e : EnvPtr) (va : Word) (here : Option Word) : Prop where
  here : leaf roots vm' e (vpageOf va) = here
  others : ∀ b va', va' < utop → ¬ (b = e ∧ vpn va' = vpn va) → leaf roots vm' b (vpageOf va') = leaf roots vm b (vpageOf va')
  tables : Tables roots vm'
  npage : vm'.npage = vm.npage

theorem Moves.retargeted {here : Option Word} (moves : Moves managed roots e asid (Near va) vm vm')
    (leafHere : leaf roots vm' e (vpageOf va) = here) (tables : Tables roots vm') (npage : vm'.npage = vm.npage) :
    Retargeted roots vm vm' e va here := by
  refine ⟨leafHere, fun b va' user other => ?_, tables, npage⟩
  by_cases same : b = e
  · subst same
    refine moves.own.outside ?_
    rintro (eq | eq)
    · exact other ⟨rfl, vpageOf_eq.mp eq⟩
    · have window : pdxFin va' = windowFin := (Prod.mk.inj eq).1
      refine pdx_user user ?_
      rw [window]
      exact ⟨by decide, le_refl _⟩
  · rw [moves.others b same]

theorem pageInsertNew_tables (pages : Pages managed base roots vm) (found : roots e = some root)
    (own : ¬ Shared (pdxFin va)) (h : pageInsertNew vm root.pgdir asid pp va perm = .ok u vm') : Tables roots vm' := by
  obtain ⟨at_, mid, walk, h⟩ := Result.bind_ok h
  obtain ⟨t, rfl, walked⟩ := (pages.tlb asid va).walk found own walk
  cases h
  have table : target roots mid (.pde e (pdxFin va)) = some t := by rw [walked.targets, Function.update_self]
  exact walked.pages.writePte_tables (j := ptxFin va) (w := pteOf pp perm) table

theorem pageInsert_tables (pages : Pages managed base roots vm) (found : roots e = some root)
    (own : ¬ Shared (pdxFin va)) (h : pageInsert vm root.pgdir asid pp va perm = .ok u vm') : Tables roots vm' := by
  obtain ⟨at_, mid, lookup, h⟩ := Result.bind_ok h
  obtain ⟨rfl, ⟨_, rfl⟩ | ⟨has, rfl⟩⟩ := pageLookup_ok lookup
  · exact pageInsertNew_tables pages found own h
  · dsimp only at h
    split at h
    · obtain ⟨_, left, remove, h⟩ := Result.bind_ok h
      exact pageInsertNew_tables (pages.remove found own remove).pages found own h
    · cases h
      exact pages.writePte_tables (j := ptxFin va) (w := pteOf pp perm) (pages.hasTable found own has.table)

theorem pageInsert_retargeted {vm0 : Vm} (first : Moves managed roots e asid (Near va) vm0 vm) (npage : vm.npage = vm0.npage)
    (pages : Pages managed base roots vm) (template : Template managed base roots vm) (found : roots e = some root)
    (own : ¬ Shared (pdxFin va)) (h : pageInsert vm root.pgdir asid pp va perm = .ok u vm') :
    Retargeted roots vm0 vm' e va (some (pteOf pp perm)) := by
  have inserted : Moves managed roots e asid (Near va) vm vm' ∧ leaf roots vm' e (vpageOf va) = some (pteOf pp perm) :=
    pageInsert_moves pages template found own (fun _ near => near) h
  obtain ⟨moves, here⟩ := inserted
  exact (first.trans moves).retargeted here (pageInsert_tables pages found own h) ((pageInsert_settled h).npage.trans npage)

theorem pageRemove_retargeted (pages : Pages managed base roots vm) (template : Template managed base roots vm)
    (found : roots e = some root) (own : ¬ Shared (pdxFin va)) (h : pageRemove vm root.pgdir asid va = .ok u vm') :
    Retargeted roots vm vm' e va none := by
  have removed : Moves managed roots e asid (Near va) vm vm' ∧ leaf roots vm' e (vpageOf va) = none :=
    pageRemove_moves pages template found own (Or.inl rfl) h
  obtain ⟨moves, here⟩ := removed
  exact moves.retargeted here (pages.remove found own h).pages.tables (pageRemove_settled h).npage

theorem lookupPage_eq (tables : Tables (rootsOf k) k.vm) (used : (k.envs e).envStatus ≠ .free) (user : va < utop) :
    lookupPage k e va = seen k.vm.npage (leaf (rootsOf k) k.vm e (vpageOf va)) := tables.pageAt (rootsOf_used used) user

theorem Retargeted.translates {here : Option Word} {found : Option Nat} {tf : Trapframe}
    (done : Retargeted (rootsOf k) k.vm vm e va here) (tables : Tables (rootsOf k) k.vm)
    (used : (k.envs e).envStatus ≠ .free) (user : va < utop) :
    Translates k { k.putVm vm with tf := tf } e va found ↔ seen k.vm.npage here = some found := by
  have now : lookupPage { k.putVm vm with tf := tf } e va = seen k.vm.npage here := by
    rw [← done.npage, ← done.here]
    exact done.tables.pageAt (rootsOf_used used) user
  refine ⟨fun all => now.symm.trans all.here, fun eq => ⟨now.trans eq, fun b va' usedB user' other => ?_⟩⟩
  rw [lookupPage_eq tables usedB user', ← done.others b va' user' other, ← done.npage]
  exact done.tables.pageAt (rootsOf_used usedB) user'

/-- A page that `pgdir_walk` takes from the free list is the table it returns, and it writes to no other data page. -/
theorem Pages.walk_free (pages : Pages managed base roots vm) {at_ : Option PtePtr} (found : roots e = some root)
    (h : pgdirWalk vm root.pgdir va true = .ok at_ vm') :
    (∀ q ∈ vm.pageFreeList, q ∈ vm'.pageFreeList ∨ at_ = some ⟨q, ptx va⟩) ∧
      ∀ q, Data managed roots vm q → vm'.mem q = vm.mem q := by
  unfold pgdirWalk at h
  split at h
  · simp only [if_true] at h
    obtain ⟨t, mid, alloc, h⟩ := Result.bind_ok h
    obtain ⟨pagesMid, _, fresh, _, _⟩ := pages.alloc alloc
    have bound : t < 2^20 := lt_of_lt_of_le (pagesMid.bound t fresh.managed) pagesMid.small
    obtain ⟨rest, list, _, rfl⟩ := pageAlloc_ok alloc
    unfold pteIn at h
    split at h
    · cases h
    · cases h
      refine ⟨fun q free => ?_, fun q data => ?_⟩
      · rw [list] at free
        rcases List.mem_cons.mp free with rfl | later
        · rw [(pageOf_some.mp (pageOf_table bound)).2]
          exact Or.inr rfl
        · exact Or.inl later
      · have other : q ≠ t := by
          rintro rfl
          exact data.out (by simp [list])
        have dir : q ≠ root.pgdir := by
          rintro rfl
          exact data.notTable (.pgdir e) trivial (target_pgdir found)
        show (Vm.write _ _ _).mem q = _
        rw [write_mem_ne _ dir]
        exact Function.update_of_ne other _ _
  · unfold pteIn at h
    split at h
    · cases h
    · cases h
      exact ⟨fun q free => Or.inl free, fun q _ => rfl⟩

theorem pageRemove_free {pgdir : Nat} (h : pageRemove vm pgdir asid va = .ok u vm') :
    ∀ q ∈ vm.pageFreeList, q ∈ vm'.pageFreeList := by
  intro q free
  rcases pageLookup_cases vm pgdir va with no | has | stop
  · rw [pageRemove_none no] at h
    cases h
    exact free
  · rw [pageRemove_some has] at h
    obtain ⟨_, mid, decref, h⟩ := Result.bind_ok h
    cases h
    rcases pageDecref_cases vm (ppn (pteAt vm pgdir va)) with ⟨_, eq⟩ | ⟨_, eq⟩ | ⟨_, eq⟩ <;> rw [eq] at decref <;>
      cases decref
    · exact List.mem_cons_of_mem _ free
    · exact free
  · rw [pageRemove, stop] at h
    cases h

/-- What `page_insert` of the data page `pp` does to free pages and to the contents of `pp`. -/
structure Spares (roots : Roots) (vm vm' : Vm) (e : EnvPtr) (va : Word) (pp : Nat) : Prop where
  free : ∀ q ∈ vm.pageFreeList, q ∈ vm'.pageFreeList ∨ tableOf roots vm' e (pdxFin va) = some q
  words : vm'.mem pp = vm.mem pp

theorem pageInsertNew_spares (pages : Pages managed base roots vm) (found : roots e = some root)
    (own : ¬ Shared (pdxFin va)) (data : Data managed roots vm pp)
    (h : pageInsertNew vm root.pgdir asid pp va perm = .ok u vm') : Spares roots vm vm' e va pp := by
  obtain ⟨at_, mid, walk, h⟩ := Result.bind_ok h
  obtain ⟨t, rfl, walked⟩ := (pages.tlb asid va).walk found own walk
  obtain ⟨free, words⟩ := (pages.tlb asid va).walk_free found walk
  cases h
  have data' : Data managed roots (tlbInvalidate vm asid va) pp := ⟨data.mine, data.notTable, data.out⟩
  have table : target roots mid (.pde e (pdxFin va)) = some t := by rw [walked.targets, Function.update_self]
  refine ⟨fun q inside => (free q inside).imp_right fun eq => ?_, ?_⟩
  · obtain rfl : t = q := congrArg PtePtr.page (Option.some.inj eq)
    refine Eq.trans ?_ (table_own table).2
    exact tableOf_writePte (j := ptxFin va) (w := pteOf pp perm) walked.pages table (pdxFin va)
  · have other : pp ≠ t := fun eq => (walked.data pp data').1.notTable (.pde e (pdxFin va)) trivial (eq ▸ table)
    exact (write_mem_ne mid other _ _).trans (words pp data')

theorem pageInsert_spares (pages : Pages managed base roots vm) (found : roots e = some root) (own : ¬ Shared (pdxFin va))
    (data : Data managed roots vm pp) (h : pageInsert vm root.pgdir asid pp va perm = .ok u vm') :
    Spares roots vm vm' e va pp := by
  obtain ⟨at_, mid, lookup, h⟩ := Result.bind_ok h
  obtain ⟨rfl, ⟨_, rfl⟩ | ⟨has, rfl⟩⟩ := pageLookup_ok lookup
  · exact pageInsertNew_spares pages found own data h
  · have table := pages.hasTable found own has.table
    have away : pp ≠ ppn (pdeOf mid root.pgdir va) := fun eq => data.notTable (.pde e (pdxFin va)) trivial (eq ▸ table)
    dsimp only at h
    split at h
    · rename_i other
      obtain ⟨_, left, remove, h⟩ := Result.bind_ok h
      have removed := pages.remove found own remove
      have full := pages.hasPage found own has
      have data' := removed.data data fun here => other (Option.some.inj (full.symm.trans here))
      have rest := pageInsertNew_spares removed.pages found own data' h
      refine ⟨fun q inside => rest.free q (pageRemove_free remove q inside), rest.words.trans ?_⟩
      rw [pageRemove_some has] at remove
      obtain ⟨_, last, decref, remove⟩ := Result.bind_ok remove
      cases remove
      show (last.write _ _).mem pp = _
      rw [write_mem_ne last away, (pageDecref_tlb decref).1]
    · cases h
      exact ⟨fun q inside => Or.inl inside, write_mem_ne _ away _ _⟩

theorem pteOf_flags {pp : Nat} {perm : Word} (bound : pp < 2^20) (names : NamesPage pp perm) :
    pteOf pp perm = pteOf pp (pteFlags perm) := by
  have high : (page2pa pp ||| perm) >>> 12 = BitVec.ofNat 32 pp := by
    apply BitVec.eq_of_toNat_eq
    rw [show ((page2pa pp ||| perm) >>> 12).toNat = pp from names, BitVec.toNat_ofNat]
    omega
  have mask : ∀ i < 32, (0xfff#32).getLsbD i = decide (i < 12) := by decide
  have same : page2pa pp ||| perm = page2pa pp ||| pteFlags perm := by
    apply BitVec.eq_of_getLsbD_eq
    intro i low
    simp only [pteFlags, BitVec.getLsbD_or, BitVec.getLsbD_and, mask i low]
    by_cases flag : i < 12
    · simp [flag]
    · have bit := congrArg (fun w : Word => w.getLsbD (i - 12)) high
      simp only [BitVec.getLsbD_ushiftRight, show 12 + (i - 12) = i by omega, BitVec.getLsbD_or] at bit
      have page : (page2pa pp).getLsbD i = (BitVec.ofNat 32 pp).getLsbD (i - 12) := by
        rw [page2pa, BitVec.getLsbD_shiftLeft, pgshift]
        simp only [low, decide_true, flag, decide_false, Bool.not_false, Bool.true_and]
      rw [bit, page]
      simp [flag]
  rw [pteOf, same, pteOf]

theorem pageInsert_perm {pgdir : Nat} {perm' : Word} (same : pteOf pp perm = pteOf pp perm') :
    pageInsert vm pgdir asid pp va perm = pageInsert vm pgdir asid pp va perm' := by
  unfold pageInsert pageInsertNew
  rw [same]

theorem flagBits_pteFlags (perm : Word) : FlagBits (pteFlags perm) := by
  rw [FlagBits, pteFlags, BitVec.ushiftRight_and_distrib]
  exact BitVec.and_zero

/-- A call whose perm word adds no bit to the page number is the call with the flag bits of that word. -/
theorem sysMemAlloc_flags {envid : Word} (pages : Pages managed k.basePgdir (rootsOf k) k.vm)
    (names : CallNames k cur (.memAlloc envid va perm)) :
    sysMemAlloc cur envid va perm k = sysMemAlloc cur envid va (pteFlags perm) k := by
  unfold sysMemAlloc
  refine ite_congr rfl (fun _ => rfl) fun _ => congrArg (tryEnv _ k) (funext fun e => ?_)
  cases alloc : pageAlloc k.vm with
  | ok pp vm =>
    obtain ⟨rest, list, _, _⟩ := pageAlloc_ok alloc
    obtain ⟨pages', _, fresh, _, _⟩ := pages.alloc alloc
    have bound : pp < 2^20 := lt_of_lt_of_le (pages'.bound pp fresh.managed) pages'.small
    have same := pteOf_flags bound (names pp (by rw [list]; rfl))
    simp only [Kernel.withVm, Result.ok_lift, Result.ok_bind, pageInsert_perm same]
  | err code vm => simp only [Kernel.withVm, Result.err_lift, Result.err_bind]
  | stop cause => simp only [Kernel.withVm, Result.stop_lift, Result.stop_bind]

theorem lookupPage_hasPage (has : HasPage k.vm (k.envs e).envPgdir va) :
    lookupPage k e va = some (some (ppn (pteAt k.vm (k.envs e).envPgdir va))) := by
  rw [lookupPage, pageAt, pageLookup_some has]
  rfl

theorem sysMemMap_flags {srcid srcva dstid dstva : Word} (pages : Pages managed k.basePgdir (rootsOf k) k.vm)
    (env : EnvInv k) (current : k.curenv = some cur) (names : CallNames k cur (.memMap srcid srcva dstid dstva perm)) :
    sysMemMap cur srcid srcva dstid dstva perm k = sysMemMap cur srcid srcva dstid dstva (pteFlags perm) k := by
  unfold sysMemMap
  refine ite_congr rfl (fun _ => rfl) fun legal => ?_
  simp only [Bool.or_eq_true, not_or, Bool.not_eq_true] at legal
  cases foundSrc : envid2env k cur srcid true with
  | error code => simp only [tryEnv]
  | ok src =>
    change tryEnv (envid2env k cur dstid true) k _ = tryEnv (envid2env k cur dstid true) k _
    refine congrArg (tryEnv _ k) (funext fun dst => ?_)
    rcases pageLookup_cases k.vm (k.envs src).envPgdir srcva with no | has | stop
    · simp only [pageLookup_none no, Kernel.withVm, Result.ok_lift, Result.ok_bind]
    · have full := pages.hasPage (rootsOf_used (env.target_used current foundSrc)) (pdx_user (legal_user legal.1)) has
      have same := pteOf_flags (pages.target_small full) (names src _ foundSrc (lookupPage_hasPage has))
      rw [pageLookup_some has]
      simp only [Kernel.withVm, Result.ok_lift, Result.ok_bind, pageInsert_perm same]
    · simp only [stop, Kernel.withVm, Result.stop_lift, Result.stop_bind]

/-- The condition on a step: that of `TlbGuard`, with perm words of `sys_mem_alloc` and `sys_mem_map` that leave the page
    number as it is in the place of flag bits. -/
def NamesGuard (k : Kernel) : Op → Prop
  | .syscall _ (.memAlloc envid va perm) => ∀ cur, k.curenv = some cur → CallNames k cur (.memAlloc envid va perm)
  | .syscall tf (.memMap srcid srcva dstid dstva perm) =>
    (∀ cur, k.curenv = some cur → CallNames k cur (.memMap srcid srcva dstid dstva perm)) ∧
      TlbGuard k (.syscall tf (.memMap srcid srcva dstid dstva (pteFlags perm)))
  | op => TlbGuard k op

theorem step_call {tf : Trapframe} {call call' : Call}
    (same : ∀ cur, k.curenv = some cur → syscallTable cur call (k.trap tf) = syscallTable cur call' (k.trap tf)) :
    step k (.syscall tf call) = step k (.syscall tf call') := by
  unfold step
  cases current : k.curenv with
  | none => rfl
  | some cur =>
    simp only [Option.bind_some, doSyscall]
    rw [same cur current]

theorem NamesGuard.flags {op : Op} (pages : PageInv managed k) (env : EnvInv k) (meets : NamesGuard k op) :
    ∃ op', TlbGuard k op' ∧ step k op = step k op' := by
  have pages' := (pages.trap (k := k))
  cases op with
  | syscall tf call =>
    cases call with
    | memAlloc envid va perm =>
      refine ⟨.syscall tf (.memAlloc envid va (pteFlags perm)), flagBits_pteFlags perm, step_call fun cur current => ?_⟩
      exact sysMemAlloc_flags (pages' tf).pages (meets cur current)
    | memMap srcid srcva dstid dstva perm =>
      refine ⟨.syscall tf (.memMap srcid srcva dstid dstva (pteFlags perm)), meets.2, step_call fun cur current => ?_⟩
      exact sysMemMap_flags (pages' tf).pages (env.setFrame _) current (meets.1 cur current)
    | _ =>
      refine ⟨_, ?_, rfl⟩
      exact meets
  | _ =>
    refine ⟨_, ?_, rfl⟩
    exact meets

theorem envid2env_error {envid code : Word} {checkperm : Bool} (h : envid2env k cur envid checkperm = .error code) :
    code = -eBadEnv := by
  unfold envid2env at h
  split at h
  · cases h
  · dsimp only at h
    split at h
    · cases h
      rfl
    · split at h <;> cases h
      rfl

theorem sysMemAlloc_code {envid code : Word} (h : sysMemAlloc cur envid va perm k = .err code k') : code ≠ 0 := by
  unfold sysMemAlloc at h
  split at h
  · cases h
    decide
  · cases found : envid2env k cur envid true with
    | error bad =>
      rw [found] at h
      cases h
      rw [envid2env_error found]
      decide
    | ok e =>
      rw [found] at h
      rcases Result.bind_err h with h | ⟨pp, mid, alloc, h⟩
      · obtain ⟨vm, alloc, _⟩ := withVm_err h
        rw [(pageAlloc_err alloc).2.1]
        decide
      · rcases Result.bind_err h with h | ⟨_, _, _, h⟩
        · obtain ⟨vm, insert, _⟩ := withVm_err h
          rw [pageInsert_err_code insert]
          decide
        · cases h

theorem sysMemMap_code {srcid srcva dstid dstva code : Word} (h : sysMemMap cur srcid srcva dstid dstva perm k = .err code k') :
    code ≠ 0 := by
  unfold sysMemMap at h
  split at h
  · cases h
    decide
  · cases foundSrc : envid2env k cur srcid true with
    | error bad =>
      rw [foundSrc] at h
      cases h
      rw [envid2env_error foundSrc]
      decide
    | ok src =>
      cases foundDst : envid2env k cur dstid true with
      | error bad =>
        rw [foundSrc, foundDst] at h
        cases h
        rw [envid2env_error foundDst]
        decide
      | ok dst =>
        rw [foundSrc, foundDst] at h
        rcases Result.bind_err h with h | ⟨found, mid, _, h⟩
        · obtain ⟨vm, h, _⟩ := withVm_err h
          exact absurd h (pageLookup_noErr _ _ _ _ _)
        · cases found with
          | none =>
            cases h
            decide
          | some found =>
            rcases Result.bind_err h with h | ⟨_, _, _, h⟩
            · obtain ⟨vm, insert, _⟩ := withVm_err h
              rw [pageInsert_err_code insert]
              decide
            · cases h

theorem sysMemUnmap_code {envid code : Word} (h : sysMemUnmap cur envid va k = .err code k') : code ≠ 0 := by
  unfold sysMemUnmap at h
  split at h
  · cases h
    decide
  · cases found : envid2env k cur envid true with
    | error bad =>
      rw [found] at h
      cases h
      rw [envid2env_error found]
      decide
    | ok e =>
      rw [found] at h
      rcases Result.bind_err h with h | ⟨_, _, _, h⟩
      · obtain ⟨vm, remove, _⟩ := withVm_err h
        exact absurd remove (pageRemove_noErr _ _ _ _ _ _)
      · cases h

theorem doSyscall_zero {tf : Trapframe} (call : Call)
    (codes : ∀ code mid, syscallTable cur call (k.trap tf) = .err code mid → code ≠ 0)
    (h : doSyscall cur tf call k = some k') (zero : k'.tf.regs 2 = 0) :
    ∃ r mid, syscallTable cur call (k.trap tf) = .ok r mid ∧ k' = { mid with tf := k'.tf } := by
  unfold doSyscall at h
  cases result : syscallTable cur call (k.trap tf) with
  | ok r mid =>
    rw [result] at h
    cases r with
    | none => cases h; exact ⟨none, k', rfl, rfl⟩
    | some r => cases h; exact ⟨some r, mid, rfl, rfl⟩
  | err code mid =>
    rw [result] at h
    cases h
    refine absurd ?_ (codes code mid result)
    simpa [Trapframe.setReg] using zero
  | stop cause =>
    rw [result] at h
    cases h

theorem sysMemAlloc_ok {envid : Word} {r : Option Word} (h : sysMemAlloc cur envid va perm k = .ok r k') :
    va < utop ∧ ∃ e pp vm vm', envid2env k cur envid true = .ok e ∧ pageAlloc k.vm = .ok pp vm ∧
      pageInsert vm (k.envs e).envPgdir (asidWord (k.envs e).envAsid) pp va perm = .ok () vm' ∧ k' = k.putVm vm' := by
  unfold sysMemAlloc at h
  split at h
  · cases h
  · rename_i legal
    cases found : envid2env k cur envid true with
    | error bad =>
      rw [found] at h
      cases h
    | ok e =>
      rw [found] at h
      obtain ⟨pp, mid, alloc, h⟩ := Result.bind_ok h
      obtain ⟨vm, taken, rfl⟩ := withVm_ok alloc
      obtain ⟨_, last, insert, h⟩ := Result.bind_ok h
      obtain ⟨vm', inserted, rfl⟩ := withVm_ok insert
      cases h
      exact ⟨legal_user (by simpa using legal), e, pp, vm, vm', rfl, taken, inserted, rfl⟩

theorem sysMemMap_ok {srcid srcva dstid dstva : Word} {r : Option Word}
    (h : sysMemMap cur srcid srcva dstid dstva perm k = .ok r k') :
    srcva < utop ∧ dstva < utop ∧ ∃ src dst vm', envid2env k cur srcid true = .ok src ∧ envid2env k cur dstid true = .ok dst ∧
      HasPage k.vm (k.envs src).envPgdir srcva ∧
      pageInsert k.vm (k.envs dst).envPgdir (asidWord (k.envs dst).envAsid) (ppn (pteAt k.vm (k.envs src).envPgdir srcva))
        dstva perm = .ok () vm' ∧ k' = k.putVm vm' := by
  unfold sysMemMap at h
  split at h
  · cases h
  · rename_i legal
    simp only [Bool.or_eq_true, not_or, Bool.not_eq_true] at legal
    cases foundSrc : envid2env k cur srcid true with
    | error bad =>
      rw [foundSrc] at h
      cases h
    | ok src =>
      cases foundDst : envid2env k cur dstid true with
      | error bad =>
        rw [foundSrc, foundDst] at h
        cases h
      | ok dst =>
        rw [foundSrc, foundDst] at h
        obtain ⟨found, mid, lookup, h⟩ := Result.bind_ok h
        obtain ⟨vm, looked, rfl⟩ := withVm_ok lookup
        obtain ⟨rfl, ⟨_, rfl⟩ | ⟨has, rfl⟩⟩ := pageLookup_ok looked
        · cases h
        · obtain ⟨_, last, insert, h⟩ := Result.bind_ok h
          obtain ⟨vm', inserted, rfl⟩ := withVm_ok insert
          cases h
          exact ⟨legal_user legal.1, legal_user legal.2, src, dst, vm', rfl, rfl, has, inserted, rfl⟩

theorem sysMemUnmap_ok {envid : Word} {r : Option Word} (h : sysMemUnmap cur envid va k = .ok r k') :
    va < utop ∧ ∃ e vm', envid2env k cur envid true = .ok e ∧
      pageRemove k.vm (k.envs e).envPgdir (asidWord (k.envs e).envAsid) va = .ok () vm' ∧ k' = k.putVm vm' := by
  unfold sysMemUnmap at h
  split at h
  · cases h
  · rename_i legal
    cases found : envid2env k cur envid true with
    | error bad =>
      rw [found] at h
      cases h
    | ok e =>
      rw [found] at h
      obtain ⟨_, last, remove, h⟩ := Result.bind_ok h
      obtain ⟨vm', removed, rfl⟩ := withVm_ok remove
      cases h
      exact ⟨legal_user (by simpa using legal), e, vm', rfl, removed, rfl⟩

theorem seen_page {npage : Nat} : seen npage (some w) = some (some q) ↔ ppn w = q ∧ q < npage := by
  show (if npage ≤ ppn w then none else some (some (ppn w))) = some (some q) ↔ _
  split
  · rename_i high
    refine iff_of_false (by simp) ?_
    rintro ⟨rfl, low⟩
    exact absurd low (not_lt.mpr high)
  · rename_i low
    rw [Option.some.injEq, Option.some.injEq]
    constructor
    · rintro rfl
      exact ⟨rfl, not_le.mp low⟩
    · exact fun both => both.1

theorem sysMemAlloc_iff {envid : Word} {r : Option Word} (tf : Trapframe) (pages : PageInv managed k)
    (template : Template managed k.basePgdir (rootsOf k) k.vm) (env : EnvInv k) (current : k.curenv = some cur)
    (h : sysMemAlloc cur envid va perm k = .ok r k') :
    OneTranslation k { k' with tf := tf } cur (.memAlloc envid va perm) ↔ CallNames k cur (.memAlloc envid va perm) := by
  obtain ⟨user, e, pp, vm, vm', foundEnv, alloc, insert, rfl⟩ := sysMemAlloc_ok h
  have used := env.target_used current foundEnv
  have found := rootsOf_used used
  have own := pdx_user user
  obtain ⟨pages', same, fresh, zero, _⟩ := pages.pages.alloc alloc
  have first : Moves managed (rootsOf k) e (asidWord (k.envs e).envAsid) (Near va) k.vm vm :=
    pageAlloc_moves pages.pages template alloc
  have spares := pageInsert_spares pages' found own fresh.data insert
  obtain ⟨rest, list, _, eq⟩ := pageAlloc_ok alloc
  have npage : vm.npage = k.vm.npage := by rw [eq]
  have done := pageInsert_retargeted first npage pages' (first.template pages.pages template) found own insert
  have bound : pp < k.vm.npage := npage ▸ pages'.bound pp fresh.managed
  have word := ppn_pteOf_eq pp perm
  constructor
  · rintro ⟨e', pp', foundEnv', free, taken, cleared, translates⟩ p head
    obtain rfl : pp = p := by
      rw [list] at head
      exact Option.some.inj head
    cases foundEnv.symm.trans foundEnv'
    have named := (seen_page.mp ((done.translates pages.pages.tables used user).mp translates)).1
    rw [word] at named
    rw [list] at free
    rcases List.mem_cons.mp free with rfl | later
    · exact named
    · -- otherwise the page is the new page table, which is not clear
      exfalso
      have inside : pp' ∈ vm.pageFreeList := by
        rw [eq]
        exact later
      rcases spares.free pp' inside with free' | table
      · exact taken free'
      · have here := done.here
        rw [vpageOf, leaf_table table, show vm'.mem pp' (ptxFin va).val = 0 from cleared _] at here
        cases here
  · intro names
    have named : NamesPage pp perm := names pp (by rw [list]; rfl)
    have small : pp < 2^20 := lt_of_lt_of_le (pages'.bound pp fresh.managed) pages'.small
    have page : ppn (pteOf pp perm) = pp := word.trans named
    rw [pageInsert_perm (pteOf_flags small named)] at insert
    have last := pages'.insert found own fresh.data (flagBits_pteFlags perm) (fun _ => pages'.fresh_count fresh) insert
    have full : target (rootsOf k) vm' (.pte e (pdxFin va) (ptxFin va)) = some pp := by
      rw [target_leaf own, show leaf (rootsOf k) vm' e (pdxFin va, ptxFin va) = _ from done.here, Option.map_some, page]
    refine ⟨e, pp, foundEnv, by simp [list], last.accounts.busy full, fun i => ?_, ?_⟩
    · show vm'.mem pp i = 0
      rw [spares.words, zero]
    · exact (done.translates pages.pages.tables used user).mpr (seen_page.mpr ⟨page, bound⟩)

theorem sysMemMap_iff {srcid srcva dstid dstva : Word} {r : Option Word} (tf : Trapframe) (pages : PageInv managed k)
    (template : Template managed k.basePgdir (rootsOf k) k.vm) (env : EnvInv k) (current : k.curenv = some cur)
    (h : sysMemMap cur srcid srcva dstid dstva perm k = .ok r k') :
    OneTranslation k { k' with tf := tf } cur (.memMap srcid srcva dstid dstva perm) ↔
      CallNames k cur (.memMap srcid srcva dstid dstva perm) := by
  obtain ⟨_, user, src, dst, vm', foundSrc, foundDst, has, insert, rfl⟩ := sysMemMap_ok h
  have used := env.target_used current foundDst
  have done := pageInsert_retargeted (.refl k.vm) rfl pages.pages template (rootsOf_used used) (pdx_user user) insert
  have looked := lookupPage_hasPage has
  have word := ppn_pteOf_eq (ppn (pteAt k.vm (k.envs src).envPgdir srcva)) perm
  constructor
  · rintro ⟨src', dst', pp, foundSrc', foundDst', looked', translates⟩ src'' p foundSrc'' looked''
    cases foundSrc.symm.trans foundSrc'
    cases foundSrc.symm.trans foundSrc''
    cases foundDst.symm.trans foundDst'
    cases looked.symm.trans looked'
    cases looked.symm.trans looked''
    have named := (seen_page.mp ((done.translates pages.pages.tables used user).mp translates)).1
    rw [word] at named
    exact named
  · intro names
    refine ⟨src, dst, _, foundSrc, foundDst, looked, ?_⟩
    refine (done.translates pages.pages.tables used user).mpr (seen_page.mpr ⟨?_, has.bound⟩)
    rw [word]
    exact names src _ foundSrc looked

theorem sysMemUnmap_exact {envid : Word} {r : Option Word} (tf : Trapframe) (pages : PageInv managed k)
    (template : Template managed k.basePgdir (rootsOf k) k.vm) (env : EnvInv k) (current : k.curenv = some cur)
    (h : sysMemUnmap cur envid va k = .ok r k') : OneTranslation k { k' with tf := tf } cur (.memUnmap envid va) := by
  obtain ⟨user, e, vm', found, remove, rfl⟩ := sysMemUnmap_ok h
  have used := env.target_used current found
  have done := pageRemove_retargeted pages.pages template (rootsOf_used used) (pdx_user user) remove
  exact ⟨e, found, (done.translates pages.pages.tables used user).mpr rfl⟩

theorem oneTranslation_trap (tf : Trapframe) {call : Call} :
    OneTranslation (k.trap tf) k' cur call ↔ OneTranslation k k' cur call := by
  have same : ∀ e va found, Translates (k.trap tf) k' e va found ↔ Translates k k' e va found :=
    fun e va found => ⟨fun all => ⟨all.here, all.others⟩, fun all => ⟨all.here, all.others⟩⟩
  cases call with
  | memAlloc envid va perm =>
    simp only [OneTranslation, same]
    exact Iff.rfl
  | memMap srcid srcva dstid dstva perm =>
    simp only [OneTranslation, same]
    exact Iff.rfl
  | memUnmap envid va =>
    simp only [OneTranslation, same]
    exact Iff.rfl
  | _ => exact Iff.rfl

/-- In every run whose steps meet `NamesGuard`, a call that maps or unmaps a page and returns 0 changes exactly the
    translation it is asked to, if and only if its perm word leaves the number of the page as it is. -/
theorem oneTranslation_iff {npage : Nat} {mem : Nat → Nat → Word} {k0 : Kernel} {ops : List Op} {tf : Trapframe} {call : Call}
    (small : npage ≤ 2^20) (booted : boot npage mem = some k0) (run : Run step NamesGuard k0 ops k)
    (current : k.curenv = some cur) (next : step k (.syscall tf call) = some k') (zero : k'.tf.regs 2 = 0) :
    OneTranslation k k' cur call ↔ CallNames k cur call := by
  obtain ⟨env, _, managed, pages, inv⟩ := run.invariant
    (fun k => EnvInv k ∧ k.table.WellFormed ∧ ∃ managed, PageInv managed k ∧ TlbInv managed k)
    ⟨boot_envInv booted, boot_wellFormed booted, Managed k0, boot_pages small booted, boot_tlb small booted⟩
    fun t op u inv meets next => by
      obtain ⟨env, wf, managed, pages, inv⟩ := inv
      obtain ⟨op', meets', same⟩ := meets.flags pages env
      exact ⟨step_envInv env next, step_wellFormed env wf next, step_tlb inv pages env wf meets' (same ▸ next)⟩
  have called : doSyscall cur tf call k = some k' := by
    rw [step, current] at next
    exact next
  have env' : EnvInv (k.trap tf) := env.setFrame _
  have pages' := pages.trap tf
  cases call with
  | memAlloc envid va perm =>
    have codes : ∀ code mid, sysMemAlloc cur envid va perm (k.trap tf) = .err code mid → code ≠ 0 :=
      fun _ _ => sysMemAlloc_code
    obtain ⟨r, mid, ok, eq⟩ := doSyscall_zero (.memAlloc envid va perm) codes called zero
    rw [eq, ← oneTranslation_trap tf]
    exact sysMemAlloc_iff (k := k.trap tf) k'.tf pages' inv.template env' current ok
  | memMap srcid srcva dstid dstva perm =>
    have codes : ∀ code mid, sysMemMap cur srcid srcva dstid dstva perm (k.trap tf) = .err code mid → code ≠ 0 :=
      fun _ _ => sysMemMap_code
    obtain ⟨r, mid, ok, eq⟩ := doSyscall_zero (.memMap srcid srcva dstid dstva perm) codes called zero
    rw [eq, ← oneTranslation_trap tf]
    exact sysMemMap_iff (k := k.trap tf) k'.tf pages' inv.template env' current ok
  | memUnmap envid va =>
    have codes : ∀ code mid, sysMemUnmap cur envid va (k.trap tf) = .err code mid → code ≠ 0 := fun _ _ => sysMemUnmap_code
    obtain ⟨r, mid, ok, eq⟩ := doSyscall_zero (.memUnmap envid va) codes called zero
    rw [eq, ← oneTranslation_trap tf]
    exact iff_of_true (sysMemUnmap_exact (k := k.trap tf) k'.tf pages' inv.template env' current ok) trivial
  | _ => exact iff_of_true trivial trivial

/-- An env touches a page. -/
def firstRun : List Op := [.envCreate emptyBinary 1, .timer zeroFrame, .tlbRefill 0x500000 0]

set_option maxRecDepth 100000 in
theorem oneTranslation_iff_firstRun : ∃ k0 k k', clearBoot = some k0 ∧ Run step NamesGuard k0 firstRun k ∧
    step k (.call (.memAlloc 0 0x400000 pteD)) = some k' ∧ OneTranslation k k' 0 (.memAlloc 0 0x400000 pteD) := by
  have check : (clearBoot.bind fun k0 => (Run.exec step k0 firstRun).bind fun k =>
      (step k (.call (.memAlloc 0 0x400000 pteD))).map fun k' =>
        (k.curenv, k.vm.pageFreeList.head?, k'.tf.regs 2)) = some (some 0, some 2040, 0) := by
    rw [clearBoot_eq]
    decide +kernel
  obtain ⟨k0, booted, check⟩ := Option.bind_eq_some_iff.mp check
  obtain ⟨k, exec, check⟩ := Option.bind_eq_some_iff.mp check
  obtain ⟨k', next, check⟩ := Option.map_eq_some_iff.mp check
  obtain ⟨current, head, zero⟩ : k.curenv = some 0 ∧ k.vm.pageFreeList.head? = some 2040 ∧ k'.tf.regs 2 = 0 := by
    simpa using check
  have guarded : Run step NamesGuard k0 firstRun k := by
    refine Run.of_exec (fun op mem t => ?_) exec
    simp only [firstRun, List.mem_cons, List.not_mem_nil, or_false] at mem
    rcases mem with rfl | rfl | rfl
    · intro page inside
      cases inside
    · trivial
    · trivial
  refine ⟨k0, k, k', booted, guarded, next, ?_⟩
  refine (oneTranslation_iff (by decide) booted guarded current next zero).mpr fun pp first => ?_
  cases head.symm.trans first
  decide

/-- Bits 12 to 14 of the perm word turn the new page 2040 into page 2047, the template page directory. -/
def namesTemplate : Call := .memAlloc 0 0x400000 (0x7000 ||| pteD)

theorem memAlloc_maps_template : ∃ k0 k k', clearBoot = some k0 ∧ Run step (fun _ _ => True) k0 firstRun k ∧
    k.curenv = some 0 ∧ step k (.call namesTemplate) = some k' ∧ k'.tf.regs 2 = 0 ∧ ¬ OneTranslation k k' 0 namesTemplate := by
  have check : (clearBoot.bind fun k0 => (Run.exec step k0 firstRun).bind fun k =>
      (step k (.call namesTemplate)).map fun k' =>
        (k.curenv, k'.tf.regs 2, lookupPage k' 0 0x400000, k.vm.pageFreeList.contains 2047)) =
      some (some 0, 0, some (some 2047), false) := by
    rw [clearBoot_eq]
    decide +kernel
  obtain ⟨k0, booted, check⟩ := Option.bind_eq_some_iff.mp check
  obtain ⟨k, exec, check⟩ := Option.bind_eq_some_iff.mp check
  obtain ⟨k', next, check⟩ := Option.map_eq_some_iff.mp check
  simp only [Prod.mk.injEq] at check
  obtain ⟨current, zero, looked, used⟩ := check
  refine ⟨k0, k, k', booted, Run.of_exec (fun _ _ _ => trivial) exec, current, next, zero, ?_⟩
  rintro ⟨e, pp, found, free, _, _, translates⟩
  cases found
  cases looked.symm.trans translates.here
  simp [free] at used

end Mos
