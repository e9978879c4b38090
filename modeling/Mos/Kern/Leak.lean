import Mos.Kern.PageBoot

namespace Mos

/-- The page is on the free list or counted as referred to. -/
def Held (vm : Vm) (pp : Nat) : Prop := pp ∈ vm.pageFreeList ∨ vm.ppRef pp ≠ 0

def Conserves (vm vm' : Vm) : Prop := ∀ pp, Held vm pp → Held vm' pp

/-- No page is lost but `pp`, which the caller has in hand. -/
def ConservesBut (pp : Nat) (vm vm' : Vm) : Prop := ∀ q, q ≠ pp → Held vm q → Held vm' q

variable {vm vm' vm'' : Vm} {pgdir pp : Nat} {asid va perm : Word}

theorem Conserves.refl (vm : Vm) : Conserves vm vm := fun _ held => held

theorem Conserves.trans (first : Conserves vm vm') (second : Conserves vm' vm'') : Conserves vm vm'' :=
  fun pp held => second pp (first pp held)

theorem conserves_of_eq (list : vm'.pageFreeList = vm.pageFreeList) (refs : vm'.ppRef = vm.ppRef) : Conserves vm vm' := by
  intro pp held
  rwa [Held, list, refs]

theorem ConservesBut.put (but : ConservesBut pp vm vm') (rest : Conserves vm' vm'') (held : Held vm'' pp) :
    Conserves vm vm'' := by
  intro q before
  by_cases same : q = pp
  · exact same ▸ held
  · exact rest q (but q same before)

/-- Free pages have no references, except those of `envs`. -/
def Stock (vm : Vm) : Prop := ∀ pp ∈ vm.pageFreeList, vm.holdsEnvs pp = false → vm.ppRef pp = 0

theorem pageAlloc_conserves (h : pageAlloc vm = .ok pp vm') : ConservesBut pp vm vm' := by
  obtain ⟨rest, list, _, rfl⟩ := pageAlloc_ok h
  intro q ne held
  rcases held with inside | counted
  · rw [list] at inside
    exact Or.inl (List.mem_of_ne_of_mem ne inside)
  · exact Or.inr counted

theorem pageAlloc_stock (stock : Stock vm) (h : pageAlloc vm = .ok pp vm') : Stock vm' ∧ vm'.ppRef pp = 0 := by
  obtain ⟨rest, list, own, rfl⟩ := pageAlloc_ok h
  exact ⟨fun q inside other => stock q (by simp [list, inside]) other, stock pp (by simp [list]) own⟩

theorem incRef_conserves (room : vm.ppRef pp ≠ 65535) : Conserves vm (vm.incRef pp) ∧ Held (vm.incRef pp) pp := by
  have counted : (vm.incRef pp).ppRef pp ≠ 0 := by
    intro zero
    have count := incRef_count room
    rw [zero] at count
    cases count
  refine ⟨fun q held => ?_, Or.inr counted⟩
  by_cases same : q = pp
  · rw [same]
    exact Or.inr counted
  · have kept : (vm.incRef pp).ppRef q = vm.ppRef q := by simp [Vm.incRef, Vm.setRef, same]
    rcases held with inside | some
    · exact Or.inl inside
    · exact Or.inr (kept ▸ some)

theorem pageDecref_conserves {u : Unit} (h : pageDecref vm pp = .ok u vm') : Conserves vm vm' := by
  rcases pageDecref_cases vm pp with ⟨_, eq⟩ | ⟨_, eq⟩ | ⟨many, eq⟩ <;> rw [eq] at h <;> cases h
  · intro q held
    by_cases same : q = pp
    · exact Or.inl (by simp [same])
    · refine held.imp (fun inside => by simp [inside]) fun counted => ?_
      simpa [Vm.setRef, same] using counted
  · intro q held
    by_cases same : q = pp
    · subst same
      refine Or.inr fun zero => ?_
      have one := congrArg BitVec.toNat zero
      have bound := (vm.ppRef q).isLt
      simp only [Vm.setRef, Function.update_self, BitVec.toNat_sub] at one
      have unit : (1 : BitVec 16).toNat = 1 := rfl
      have none : (0 : BitVec 16).toNat = 0 := rfl
      omega
    · exact held.imp id fun counted => by simpa [Vm.setRef, same] using counted

theorem pageDecref_stock {u : Unit} (stock : Stock vm) (h : pageDecref vm pp = .ok u vm') : Stock vm' := by
  rcases pageDecref_cases vm pp with ⟨_, eq⟩ | ⟨_, eq⟩ | ⟨many, eq⟩ <;> rw [eq] at h <;> cases h
  · intro q inside own
    by_cases same : q = pp
    · simp [Vm.setRef, same]
    · have before := stock q (List.mem_of_ne_of_mem same inside) own
      simpa [Vm.setRef, same] using before
  · intro q inside own
    have before := stock q inside own
    by_cases same : q = pp
    · rw [← same, before] at many
      exact absurd many (by decide)
    · simpa [Vm.setRef, same] using before

theorem pageRemove_conserves {u : Unit} (h : pageRemove vm pgdir asid va = .ok u vm') :
    Conserves vm vm' ∧ (Stock vm → Stock vm') := by
  rcases pageLookup_cases vm pgdir va with no | has | stop
  · rw [pageRemove_none no] at h
    cases h
    exact ⟨.refl vm, id⟩
  · rw [pageRemove_some has] at h
    obtain ⟨_, mid, decref, h⟩ := Result.bind_ok h
    cases h
    have kept : Conserves vm mid := pageDecref_conserves decref
    have stocked : Stock vm → Stock mid := fun stock => pageDecref_stock stock decref
    exact ⟨kept, stocked⟩
  · rw [pageRemove, stop] at h
    cases h

theorem pgdirWalk_conserves {pte : Option PtePtr} (stock : Stock vm) (h : pgdirWalk vm pgdir va true = .ok pte vm') :
    Conserves vm vm' ∧ ∀ q, q ∉ vm.pageFreeList → vm'.ppRef q = vm.ppRef q := by
  unfold pgdirWalk at h
  split at h
  · simp only [if_true] at h
    obtain ⟨t, mid, alloc, h⟩ := Result.bind_ok h
    unfold pteIn at h
    split at h <;> cases h
    obtain ⟨_, zero⟩ := pageAlloc_stock stock alloc
    have room : (mid.write ⟨pgdir, pdx va⟩ (page2pa t ||| pteCCacheable ||| pteV)).ppRef t ≠ 65535 := by
      show mid.ppRef t ≠ 65535
      rw [zero]
      decide
    obtain ⟨kept, held⟩ := incRef_conserves room
    refine ⟨(pageAlloc_conserves alloc).put kept held, fun q out => ?_⟩
    obtain ⟨rest, list, _, rfl⟩ := pageAlloc_ok alloc
    have ne : q ≠ t := fun same => out (by simp [list, same])
    simp [Vm.incRef, Vm.setRef, Vm.write, ne]
  · unfold pteIn at h
    split at h <;> cases h
    exact ⟨.refl _, fun _ _ => rfl⟩

theorem pageInsertNew_conserves {u : Unit} (stock : Stock vm) (out : pp ∉ vm.pageFreeList) (room : vm.ppRef pp ≠ 65535)
    (h : pageInsertNew vm pgdir asid pp va perm = .ok u vm') : Conserves vm vm' ∧ Held vm' pp := by
  obtain ⟨pte, mid, walk, h⟩ := Result.bind_ok h
  have stock' : Stock (tlbInvalidate vm asid va) := stock
  obtain ⟨kept, counts⟩ := pgdirWalk_conserves stock' walk
  cases pte with
  | none => cases h
  | some pte =>
    cases h
    have room' : (mid.write pte (pteOf pp perm)).ppRef pp ≠ 65535 := by
      show mid.ppRef pp ≠ 65535
      rw [counts pp out]
      exact room
    obtain ⟨kept', held⟩ := incRef_conserves room'
    have first : Conserves vm mid := kept
    exact ⟨first.trans kept', held⟩

theorem pageInsert_conserves {u : Unit} (stock : Stock vm) (out : pp ∉ vm.pageFreeList)
    (room : Adds vm pgdir va pp → vm.ppRef pp ≠ 65535) (h : pageInsert vm pgdir asid pp va perm = .ok u vm') :
    Conserves vm vm' ∧ (Adds vm pgdir va pp → Held vm' pp) := by
  obtain ⟨found, mid, lookup, h⟩ := Result.bind_ok h
  obtain ⟨rfl, ⟨no, rfl⟩ | ⟨has, rfl⟩⟩ := pageLookup_ok lookup
  · have adds : Adds mid pgdir va pp := fun both => no.not_hasPage both.1
    obtain ⟨kept, held⟩ := pageInsertNew_conserves stock out (room adds) h
    exact ⟨kept, fun _ => held⟩
  · dsimp only at h
    split at h
    · rename_i other
      have adds : Adds mid pgdir va pp := fun both => other both.2
      obtain ⟨_, left, remove, h⟩ := Result.bind_ok h
      obtain ⟨kept, stock'⟩ := pageRemove_conserves remove
      rw [pageRemove_some has] at remove
      obtain ⟨_, dropped, decref, remove⟩ := Result.bind_ok remove
      cases remove
      have same : dropped.ppRef pp = mid.ppRef pp ∧ pp ∉ dropped.pageFreeList := by
        rcases pageDecref_cases mid (ppn (pteAt mid pgdir va)) with ⟨_, eq⟩ | ⟨_, eq⟩ | ⟨_, eq⟩ <;> rw [eq] at decref <;>
          cases decref
        · simpa [Vm.setRef, Ne.symm other] using out
        · simpa [Vm.setRef, Ne.symm other] using out
      have room' : dropped.ppRef pp ≠ 65535 := same.1 ▸ room adds
      obtain ⟨kept', held⟩ := pageInsertNew_conserves (stock' stock) same.2 room' h
      exact ⟨kept.trans kept', fun _ => held⟩
    · rename_i same
      cases h
      exact ⟨conserves_of_eq rfl rfl, fun adds => absurd ⟨has, not_not.mp same⟩ adds⟩

theorem pageInsert_state_conserves (stock : Stock vm) (out : pp ∉ vm.pageFreeList)
    (room : Adds vm pgdir va pp → vm.ppRef pp ≠ 65535)
    (h : (pageInsert vm pgdir asid pp va perm).state = some vm') : Conserves vm vm' := by
  rcases pageInsert_state_cases h with inserted | ⟨mid, rfl | remove, rfl⟩
  · exact (pageInsert_conserves stock out room inserted).1
  · exact conserves_of_eq rfl rfl
  · exact (pageRemove_conserves remove).1.trans (conserves_of_eq rfl rfl)

variable {managed : Nat → Prop} {base : Nat} {roots : Roots}

theorem Pages.stock_zero (pages : Pages managed base roots vm) : Stock vm := by
  intro pp inside own
  have mine : managed pp := by
    rcases pages.stock pp inside with mine | envs
    · exact mine
    · exact absurd (own.symm.trans envs) Bool.false_ne_true
  have count := pages.accounts.counted pp mine
  rw [pages.accounts.idle pp inside] at count
  exact BitVec.eq_of_toNat_eq count

theorem noPage_alloc (no : NoPage vm pgdir va) (away : pgdir ≠ pp) (h : pageAlloc vm = .ok pp vm') :
    NoPage vm' pgdir va := by
  obtain ⟨rest, _, _, rfl⟩ := pageAlloc_ok h
  have dir : Function.update vm.mem pp (fun _ => 0) pgdir = vm.mem pgdir := Function.update_of_ne away _ _
  refine no.imp (fun absent => ?_) fun ⟨bound, invalid⟩ => ?_
  · dsimp only [pdeOf]
    rw [dir]
    exact absent
  · dsimp only [pteAt, pdeOf]
    rw [dir]
    refine ⟨bound, ?_⟩
    by_cases same : ppn (vm.mem pgdir (pdx va)) = pp
    · simp [same]
    · rw [Function.update_of_ne same]
      exact invalid

/-- A page that `page_alloc` gave, whatever is stored in it, and `page_insert` maps where it was not. -/
theorem allocInsert_conserves {mid : Vm} {words : Nat → Nat → Word} {u : Unit} (stock : Stock vm)
    (once : vm.pageFreeList.Nodup) (alloc : pageAlloc vm = .ok pp mid) (adds : Adds { mid with mem := words } pgdir va pp)
    (insert : pageInsert { mid with mem := words } pgdir asid pp va perm = .ok u vm') : Conserves vm vm' := by
  obtain ⟨stock', zero⟩ := pageAlloc_stock stock alloc
  have out : pp ∉ mid.pageFreeList := by
    obtain ⟨rest, list, _, rfl⟩ := pageAlloc_ok alloc
    rw [list, List.nodup_cons] at once
    exact once.1
  have filled : Stock { mid with mem := words } := stock'
  have room : ({ mid with mem := words } : Vm).ppRef pp ≠ 65535 := by
    show mid.ppRef pp ≠ 65535
    rw [zero]
    decide
  obtain ⟨kept, held⟩ := pageInsert_conserves filled out (fun _ => room) insert
  exact (pageAlloc_conserves alloc).put kept (held adds)

theorem Pages.passive_conserves (pages : Pages managed base roots vm) {e : EnvPtr} {root : Root} {u : Unit}
    (found : roots e = some root) (no : NoPage vm root.pgdir va)
    (h : passiveAlloc va root.pgdir asid vm = .ok u vm') : Conserves vm vm' := by
  unfold passiveAlloc at h
  split at h
  · cases h
  · split at h
    · rename_i pp mid alloc
      obtain ⟨_, _, fresh, _, _⟩ := pages.alloc alloc
      have away : root.pgdir ≠ pp := fun eq => fresh.unused (.pgdir e) ((target_pgdir found).trans (congrArg some eq))
      have still : NoPage mid root.pgdir (pteAddr va) := by
        have here := noPage_alloc no away alloc
        unfold NoPage pteAt pdeOf at *
        rw [pdx_pteAddr, ptx_pteAddr]
        exact here
      split at h
      · rename_i last insert
        cases h
        exact allocInsert_conserves pages.stock_zero pages.accounts.nodup alloc
          (fun both => still.not_hasPage both.1) insert
      · cases h
      · cases h
    · cases h
    · cases h

theorem Pages.refill_conserves (pages : Pages managed base roots vm) {e : EnvPtr} {root : Root} {pte : PtePtr}
    {fuel : Nat} (found : roots e = some root) (h : refillLookup va root.pgdir asid fuel vm = .ok pte vm') :
    Conserves vm vm' := by
  induction fuel generalizing vm with
  | zero => cases h
  | succ fuel ih =>
    obtain ⟨at_, mid, lookup, h⟩ := Result.bind_ok h
    obtain ⟨rfl, ⟨no, rfl⟩ | ⟨has, rfl⟩⟩ := pageLookup_ok lookup
    · obtain ⟨_, left, passive, h⟩ := Result.bind_ok h
      exact (pages.passive_conserves found no passive).trans (ih (pages.passive found no passive) h)
    · cases h
      exact .refl _

theorem Pages.loadPages_conserves (pages : Pages managed base roots vm) {e : EnvPtr} {root : Root}
    {list : List IcodePage} {u : Unit} (found : roots e = some root)
    (legal : ∀ page ∈ list, page.va < utop ∧ FlagBits page.perm) (h : Mos.loadPages root.pgdir asid list vm = .ok u vm') :
    Conserves vm vm' := by
  induction list generalizing vm with
  | nil =>
    cases h
    exact .refl _
  | cons page rest ih =>
    obtain ⟨_, mid, first, h⟩ := Result.bind_ok h
    obtain ⟨user, flags⟩ := legal page List.mem_cons_self
    have pages' := pages.loadIcodeMapper found user flags first
    refine Conserves.trans ?_ (ih pages' (fun q mem => legal q (List.mem_cons_of_mem page mem)) h)
    obtain ⟨p, left, alloc, insert⟩ := Result.bind_ok first
    obtain ⟨pagesLeft, _, fresh, _, _⟩ := pages.alloc alloc
    refine allocInsert_conserves pages.stock_zero pages.accounts.nodup alloc (fun both => ?_) insert
    have filled : Pages managed base roots { left with mem := Function.update left.mem p page.words } :=
      pagesLeft.setContents fresh.managed fun r _ => fresh.unused r
    have kept : target roots { left with mem := Function.update left.mem p page.words } = target roots left :=
      target_congr fun r q _ full => Function.update_of_ne (fun eq => fresh.unused r (by rw [full, eq])) _ _
    have full := filled.hasPage found (pdx_user user) both.1
    rw [kept, both.2] at full
    exact fresh.unused _ full

theorem allocRef_conserves {mid : Vm} (stock : Stock vm) (alloc : pageAlloc vm = .ok pp mid) :
    Conserves vm (mid.incRef pp) := by
  have room : mid.ppRef pp ≠ 65535 := by
    rw [(pageAlloc_stock stock alloc).2]
    decide
  obtain ⟨kept, held⟩ := incRef_conserves room
  exact (pageAlloc_conserves alloc).put kept held

theorem envAlloc_conserves {parentId : Word} {e : EnvPtr} {k k' : Kernel}
    (pages : Pages managed k.basePgdir roots k.vm) (absent : ∀ b ∈ k.envFreeList, roots b = none)
    (h : envAlloc parentId k = .ok e k') : Conserves k.vm k'.vm := by
  obtain ⟨k1, k2, vars, vm2, asid, ran⟩ := envAlloc_runs h
  have pages1 := pages.setupVm (absent e (by simp [ran.free])) ran.setup
  obtain ⟨p, vm, alloc, _, eq⟩ := envSetupVm_spec ran.setup
  have one : Conserves k.vm k1.vm := by
    rw [eq]
    exact (allocRef_conserves pages.stock_zero alloc).trans (conserves_of_eq rfl rfl)
  obtain ⟨page, eq2⟩ := ran.vm_eq
  have two := allocRef_conserves pages1.stock_zero ran.alloc
  rw [eq2]
  exact one.trans (two.trans (conserves_of_eq rfl rfl))

theorem envFreePde_conserves {pdeno : Nat} {u : Unit} (h : envFreePde pgdir asid pdeno vm = .ok u vm') :
    Conserves vm vm' := by
  unfold envFreePde at h
  dsimp only at h
  split at h
  · cases h
    exact .refl _
  · split at h
    · cases h
    · obtain ⟨_, cleared, loop, h⟩ := Result.bind_ok h
      obtain ⟨_, last, decref, h⟩ := Result.bind_ok h
      cases h
      have slots : Conserves vm cleared := by
        refine Result.forRange_ok (fun _ mid => Conserves vm mid) (.refl vm) (fun i s t _ kept body => ?_) loop
        split at body
        · exact kept.trans (pageRemove_conserves body).1
        · cases body
          exact kept
      have table : Conserves (cleared.write ⟨pgdir, pdeno⟩ 0) last := pageDecref_conserves decref
      have table' : Conserves cleared last := table
      exact slots.trans table'

theorem envFree_conserves {e : EnvPtr} {k k' : Kernel} {u : Unit} (h : envFree e k = .ok u k') :
    Conserves k.vm k'.vm := by
  obtain ⟨vm1, vm2, vm3, ran⟩ := envFree_runs h
  have start : Conserves k.vm vm1 := by
    rcases ran.vars with ⟨_, rfl⟩ | ⟨_, _, dropped⟩
    · exact .refl _
    · exact pageDecref_conserves dropped
  have middle : Conserves vm1 vm2 :=
    Result.forRange_ok (fun _ mid => Conserves vm1 mid) (.refl _)
      (fun i s t _ kept body => kept.trans (envFreePde_conserves body)) ran.loop
  have last : Conserves vm2 vm3 := pageDecref_conserves ran.release
  rw [ran.last]
  exact start.trans (middle.trans last)

/-- `sys_mem_alloc` finds a page table for `va` or a second page to make one of. -/
def HasTable (k : Kernel) (e : EnvPtr) (va : Word) : Prop :=
  ∀ pp, k.vm.pageFreeList = [pp] → pdeOf k.vm (k.envs e).envPgdir va ≠ 0

/-- The condition on a step under which no page is lost: the one under which every reference stays counted, and
    `sys_mem_alloc` can insert the page it allocates. -/
def LeakGuard (k : Kernel) (op : Op) : Prop :=
  PageGuard k op ∧ ∀ tf envid va perm, op = .syscall tf (.memAlloc envid va perm) → ∀ cur e, k.curenv = some cur →
    isIllegalVa va = false → envid2env k cur envid true = .ok e → HasTable k e va

variable {k k' : Kernel} {cur : EnvPtr}

theorem sysMemAlloc_conserves {envid : Word} (inv : PageInv managed k) (env : EnvInv k) (current : k.curenv = some cur)
    (table : ∀ e, isIllegalVa va = false → envid2env k cur envid true = .ok e → HasTable k e va)
    (h : (sysMemAlloc cur envid va perm k).state = some k') : Conserves k.vm k'.vm := by
  rcases sysMemAlloc_runs h with rfl | ⟨e, pp, vm, vm', legal, found, alloc, inserted, rfl⟩
  · exact .refl _
  · have root := rootsOf_used (env.target_used current found)
    have own := pdx_user (legal_user legal)
    obtain ⟨pages', _, fresh, _, _⟩ := inv.pages.alloc alloc
    cases insert : pageInsert vm (k.envs e).envPgdir (asidWord (k.envs e).envAsid) pp va perm with
    | ok u last =>
      rw [insert] at inserted
      cases inserted
      refine allocInsert_conserves inv.pages.stock_zero inv.pages.accounts.nodup alloc ?_ insert
      exact fun both => fresh.unused _ ((pages'.hasPage root own both.1).trans (congrArg some both.2))
    | err code last =>
      exfalso
      obtain ⟨empty, missing⟩ := pageInsert_err_iff.mp ⟨code, last, insert⟩
      have away : (k.envs e).envPgdir ≠ pp :=
        fun eq => fresh.unused (.pgdir e) ((target_pgdir root).trans (congrArg some eq))
      rcases missing with absent | ⟨has, self, _⟩
      · obtain ⟨rest, list, _, rfl⟩ := pageAlloc_ok alloc
        refine table e legal found pp (by rw [list]; exact congrArg _ empty) ?_
        have dir : Function.update k.vm.mem pp (fun _ => 0) (k.envs e).envPgdir = k.vm.mem (k.envs e).envPgdir :=
          Function.update_of_ne away _ _
        rw [pdeOf, ← dir]
        exact absent
      · exact pages'.pgdir_ne_table root (pages'.hasTable root own has.table) self.1.symm
    | stop cause =>
      rw [insert] at inserted
      cases inserted

/-- A page that an env maps already is mapped once more. -/
theorem Pages.share_conserves {s : EnvPtr} {src : Root} {srcva : Word} (pages : Pages managed base roots vm)
    (found : roots s = some src) (legal : srcva < utop) (has : HasPage vm src.pgdir srcva)
    (room : Adds vm pgdir va (ppn (pteAt vm src.pgdir srcva)) → vm.ppRef (ppn (pteAt vm src.pgdir srcva)) ≠ 65535)
    (h : (pageInsert vm pgdir asid (ppn (pteAt vm src.pgdir srcva)) va perm).state = some vm') : Conserves vm vm' := by
  have data := pages.data (pages.hasPage found (pdx_user legal) has)
  exact pageInsert_state_conserves pages.stock_zero data.out room h

theorem sysMemMap_conserves {srcid srcva dstid dstva : Word} (inv : PageInv managed k) (env : EnvInv k)
    (current : k.curenv = some cur)
    (room : ∀ src dst, isIllegalVa srcva = false → isIllegalVa dstva = false → envid2env k cur srcid true = .ok src →
      envid2env k cur dstid true = .ok dst → HasPage k.vm (k.envs src).envPgdir srcva →
      Adds k.vm (k.envs dst).envPgdir dstva (ppn (pteAt k.vm (k.envs src).envPgdir srcva)) →
      k.vm.ppRef (ppn (pteAt k.vm (k.envs src).envPgdir srcva)) ≠ 65535)
    (h : (sysMemMap cur srcid srcva dstid dstva perm k).state = some k') : Conserves k.vm k'.vm := by
  rcases sysMemMap_runs h with rfl | ⟨src, dst, vm', legalSrc, legalDst, foundSrc, foundDst, has, insert, rfl⟩
  · exact .refl _
  · have srcRoot := rootsOf_used (env.target_used current foundSrc)
    exact inv.pages.share_conserves srcRoot (legal_user legalSrc) has
      (room src dst legalSrc legalDst foundSrc foundDst has) insert

theorem sysMemUnmap_conserves {envid : Word} (h : (sysMemUnmap cur envid va k).state = some k') :
    Conserves k.vm k'.vm := by
  rcases sysMemUnmap_runs h with rfl | ⟨e, vm', legal, found, remove, rfl⟩
  · exact .refl _
  · exact (pageRemove_conserves remove).1

theorem sysIpcTrySend_conserves {envid value srcva : Word} (inv : PageInv managed k) (env : EnvInv k)
    (current : k.curenv = some cur)
    (room : ∀ e, Accepts k cur envid srcva e → srcva ≠ 0 → HasPage k.vm (k.envs cur).envPgdir srcva →
      Adds k.vm (k.envs e).envPgdir (k.envs e).envIpcDstva (ppn (pteAt k.vm (k.envs cur).envPgdir srcva)) →
      k.vm.ppRef (ppn (pteAt k.vm (k.envs cur).envPgdir srcva)) ≠ 65535)
    (h : (sysIpcTrySend cur envid value srcva perm k).state = some k') : Conserves k.vm k'.vm := by
  rcases sysIpcTrySend_runs h with rfl | ⟨e, vm, accepts, rfl, rfl | ⟨sends, has, insert⟩⟩
  · exact .refl _
  · exact .refl _
  · exact inv.pages.share_conserves (rootsOf_used (env.current_used current)) (optional_user accepts.va) has
      (room e accepts sends has) insert

theorem syscall_conserves {tf : Trapframe} {call : Call} (inv : PageInv managed k) (env : EnvInv k)
    (current : k.curenv = some cur) (meets : LeakGuard k (.syscall tf call))
    (h : (syscallTable cur call (k.trap tf)).state = some k') : Conserves k.vm k'.vm := by
  have inv' := inv.trap tf
  have env' : EnvInv (k.trap tf) := env.setFrame _
  have current' : (k.trap tf).curenv = some cur := current
  have start : (k.trap tf).vm = k.vm := rfl
  rw [← start]
  have scheduled : ∀ {mid : Kernel}, mid.vm = (k.trap tf).vm → schedule true mid = .ok () k' →
      Conserves (k.trap tf).vm k'.vm := by
    intro mid same run
    obtain ⟨_, _, resumed⟩ := schedule_ok run
    rw [resumed.vm, same]
    exact .refl _
  cases call with
  | yield => exact scheduled rfl (schedule_state (switch_state h))
  | envDestroy envid status =>
    have destroyed : (sysEnvDestroy cur envid status (k.trap tf)).state = some k' := h
    rcases sysEnvDestroy_state current' destroyed with ⟨rfl, _⟩ | ⟨mid, left, _, run, _⟩ | ⟨e, reaps, free⟩
    · exact .refl _
    · exact scheduled left.vm run
    · exact envFree_conserves free
  | memAlloc envid va perm =>
    exact sysMemAlloc_conserves inv' env' current (fun e legal found => meets.2 tf envid va perm rfl cur e current legal found) h
  | memMap srcid srcva dstid dstva perm =>
    exact sysMemMap_conserves inv' env' current (fun src dst => meets.1.2 cur src dst current) h
  | memUnmap envid va => exact sysMemUnmap_conserves h
  | exofork =>
    rcases sysExofork_state h with ⟨code, alloc⟩ | ⟨e, mid, alloc, rfl⟩
    · rw [envAlloc_err_vm inv'.pages meets.1 alloc]
      exact .refl _
    · have kept : Conserves (k.trap tf).vm mid.vm := envAlloc_conserves inv'.pages env'.absent alloc
      exact kept
  | setEnvStatus envid status =>
    rcases sysSetEnvStatus_state h with ⟨rfl, _⟩ | ⟨e, q, _, _, run⟩
    · exact .refl _
    · have same : (setStatus (k.trap tf) e (statusOf status) q).vm = (k.trap tf).vm := rfl
      split at run
      · exact scheduled same run
      · rw [run]
        exact .refl _
  | ipcTrySend envid value srcva perm =>
    exact sysIpcTrySend_conserves inv' env' current
      (fun e accepts => meets.1.2 cur e current ⟨accepts.1, accepts.2, accepts.3⟩) h
  | ipcRecv dstva =>
    rcases sysIpcRecv_state h with ⟨_, rfl⟩ | ⟨_, mid, left, _, run⟩
    · exact .refl _
    · exact scheduled left.vm run

theorem step_conserves {op : Op} (inv : PageInv managed k) (env : EnvInv k) (meets : LeakGuard k op)
    (h : step k op = some k') : Conserves k.vm k'.vm := by
  cases op with
  | syscall tf call =>
    obtain ⟨cur, current, h⟩ := Option.bind_eq_some_iff.mp h
    obtain ⟨after, mid, called, rfl⟩ := doSyscall_state h
    have kept : Conserves k.vm mid.vm := syscall_conserves inv env current meets called
    exact kept
  | timer tf =>
    obtain ⟨_, _, resumed⟩ := schedule_ok (schedule_state h)
    rw [resumed.vm]
    exact .refl _
  | tlbRefill va victim =>
    obtain ⟨cur, current, h⟩ := Option.bind_eq_some_iff.mp h
    rw [inv.space cur current] at h
    cases result : doTlbRefill va (k.envs cur).envPgdir (asidWord (k.envs cur).envAsid) victim k.vm with
    | ok u vm =>
      rw [result] at h
      cases h
      obtain ⟨pte, mid, refill, last⟩ := Result.bind_ok result
      cases last
      have kept := (inv.pages.tlb (asidWord (k.envs cur).envAsid) va).refill_conserves
        (rootsOf_used (env.current_used current)) refill
      exact kept
    | err code vm => exact absurd result (doTlbRefill_noErr _ _ _ _ _ _ _)
    | stop cause =>
      rw [result] at h
      cases h
  | envCreate binary priority =>
    obtain ⟨e, mid, alloc, created, load⟩ := envCreate_state h
    obtain ⟨setup, list⟩ := envAlloc_ok alloc
    have used : (k'.envs e).envStatus ≠ .free := by
      rw [created.env]
      exact fun free => by cases free
    have dir : (k'.envs e).envPgdir = (mid.envs e).envPgdir := by rw [created.env]
    have vars : (k'.envs e).envVars = (mid.envs e).envVars := by rw [created.env]
    have roots : rootsOf k' = Function.update (rootsOf k) e (some ⟨(mid.envs e).envPgdir, (mid.envs e).envVars⟩) := by
      rw [rootsOf_update used fun b ne => (created.others b ne).trans (setup.others b ne), dir, vars]
    have taken := envAlloc_pages inv.pages env.absent alloc
    rw [← roots] at taken
    rw [← dir] at load
    exact (envAlloc_conserves inv.pages env.absent alloc).trans
      (taken.loadPages_conserves (rootsOf_used used) meets.1 load)

end Mos
