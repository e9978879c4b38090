import Mos.Kern.PageRef
import Mos.Kern.EnvInv

namespace Mos

variable {managed : Nat → Prop} {base : Nat} {roots : Roots}

theorem Pages.incRef_root {vm : Vm} {pp : Nat} (pages : Pages managed base roots vm) {r : Ref}
    (fresh : Fresh managed roots vm pp) (empty : target roots vm r = none) :
    RefCount.Accounts managed (Function.update (target roots vm) r (some pp)) (fun q => ((vm.incRef pp).ppRef q).toNat)
      vm.pageFreeList := pages.addRef empty fresh.out (pages.fresh_count fresh)

theorem envSetupVm_spec {e : EnvPtr} {k k' : Kernel} {u : Unit} (h : envSetupVm e k = .ok u k') :
    ∃ p vm, pageAlloc k.vm = .ok p vm ∧ (k'.envs e).envPgdir = p ∧
      k'.vm = { vm.incRef p with mem := Function.update vm.mem p (setupPgdir vm.mem k.basePgdir p) } := by
  obtain ⟨p, vm, alloc, rfl⟩ := envSetupVm_runs h
  exact ⟨p, vm, alloc, by simp [Kernel.updateEnv, Kernel.putVm], rfl⟩

theorem Pages.setupVm {e : EnvPtr} {k k' : Kernel} {u : Unit} (pages : Pages managed k.basePgdir roots k.vm)
    (absent : roots e = none) (h : envSetupVm e k = .ok u k') :
    Pages managed k.basePgdir (Function.update roots e (some ⟨(k'.envs e).envPgdir, none⟩)) k'.vm := by
  obtain ⟨p, vm, alloc, pgdir, eq⟩ := envSetupVm_spec h
  obtain ⟨pages', same, fresh, zero, _⟩ := pages.alloc alloc
  have accounts := pages'.incRef_root fresh (r := .pgdir e) (by simp [target, absent])
  rw [pgdir, eq]
  refine (pages'.addRoot (setupPgdir vm.mem k.basePgdir p) absent fresh.managed fresh.unused ?_ (fun i own => ?_) ?_
    (fun i low high => ?_) ?_ ?_ ?_).1
  · rfl
  · unfold setupPgdir
    rw [if_neg (fun eq => own ⟨by rw [eq]; decide, by rw [eq]⟩), if_neg]
    · exact zero i.val
    · exact fun shared => own ⟨shared.1, shared.2.le⟩
  · exact if_pos rfl
  · unfold setupPgdir
    rw [if_neg (Nat.ne_of_lt high), if_pos ⟨low, high⟩]
    exact pages'.template i low high
  · rfl
  · exact accounts
  · exact pages'.stock

theorem Pages.setContents {vm : Vm} {pp : Nat} {words : Nat → Word} (pages : Pages managed base roots vm)
    (mine : managed pp) (notTable : ∀ r, r.Table → target roots vm r ≠ some pp) :
    Pages managed base roots { vm with mem := Function.update vm.mem pp words } := by
  have away : base ≠ pp := fun eq => pages.apart (eq.symm ▸ mine)
  refine pages.frame (fun r q kind full => ?_) (Function.update_of_ne away _ _) rfl pages.accounts pages.stock
  exact Function.update_of_ne (fun eq => notTable r kind (by rw [full, eq])) _ _

theorem Pages.vars_notTable {vm : Vm} {e : EnvPtr} {pp : Nat} (pages : Pages managed base roots vm)
    (full : target roots vm (.vars e) = some pp) : ∀ r, r.Table → target roots vm r ≠ some pp := by
  intro r kind same
  have eq := pages.sole r (.vars e) pp kind same full
  rw [← eq] at kind
  exact kind

theorem Pages.takeVars {vm : Vm} {e : EnvPtr} {d v : Nat} (pages : Pages managed base roots vm)
    (found : roots e = some ⟨d, none⟩) (fresh : Fresh managed roots vm v) :
    Pages managed base (Function.update roots e (some ⟨d, some v⟩)) (vm.incRef v) ∧
      target (Function.update roots e (some ⟨d, some v⟩)) (vm.incRef v) =
        Function.update (target roots vm) (.vars e) (some v) := by
  have accounts := pages.incRef_root fresh (r := .vars e) (by simp [target, found])
  refine pages.setVars found rfl rfl accounts pages.stock fun q eq => ?_
  obtain rfl := Option.some.inj eq
  exact ⟨fresh.managed, fresh.unused⟩

theorem envAlloc_pages {parentId : Word} {e : EnvPtr} {k k' : Kernel} (pages : Pages managed k.basePgdir roots k.vm)
    (absent : ∀ b ∈ k.envFreeList, roots b = none) (h : envAlloc parentId k = .ok e k') :
    Pages managed k.basePgdir (Function.update roots e (some ⟨(k'.envs e).envPgdir, (k'.envs e).envVars⟩)) k'.vm := by
  obtain ⟨k1, k2, vars, vm, asid, ran⟩ := envAlloc_runs h
  have pages1 := pages.setupVm (absent e (by simp [ran.free])) ran.setup
  obtain ⟨pages2, same, fresh, _, _⟩ := pages1.alloc ran.alloc
  have root1 : Function.update roots e (some ⟨(k1.envs e).envPgdir, none⟩) e = some ⟨(k1.envs e).envPgdir, none⟩ :=
    Function.update_self _ _ _
  obtain ⟨pages3, targets⟩ := pages2.takeVars root1 fresh
  rw [Function.update_idem] at pages3 targets
  have full : target (Function.update roots e (some ⟨(k1.envs e).envPgdir, some vars⟩)) (vm.incRef vars) (.vars e) =
      some vars := by rw [targets, Function.update_self]
  obtain ⟨page, eq⟩ := ran.vm_eq
  rw [ran.root.1, ran.root.2, eq]
  exact pages3.setContents (pages3.owned _ _ full) (pages3.vars_notTable full)

theorem Pages.releaseVars {vm vm' : Vm} {e : EnvPtr} {d v : Nat} {u : Unit} (pages : Pages managed base roots vm)
    (found : roots e = some ⟨d, some v⟩) (h : pageDecref vm v = .ok u vm') :
    Pages managed base (Function.update roots e (some ⟨d, none⟩)) vm' ∧ vm'.mem = vm.mem := by
  have full : target roots vm (.vars e) = some v := by simp [target, found]
  obtain ⟨dec, accounts⟩ := pages.decref full h
  have stock := pages.stock_decref dec (pages.owned _ _ full)
  exact ⟨(pages.setVars found dec.mem dec.npage accounts stock fun q eq => by cases eq).1, dec.mem⟩

theorem Pages.releaseRoot {left : Nat → Prop} {vm vm' : Vm} {e : EnvPtr} {d : Nat} {u : Unit}
    (pages : Pages managed base roots vm) (found : roots e = some ⟨d, none⟩)
    (bare : ∀ i j, target roots vm (.pte e i j) = none)
    (stays : ∀ q, left q ↔ managed q ∧ ∀ i, target roots vm (.pde e i) ≠ some q) (h : pageDecref vm d = .ok u vm') :
    Pages left base (Function.update roots e none) vm' := by
  have full : target roots vm (.pgdir e) = some d := target_pgdir found
  obtain ⟨dec, accounts⟩ := pages.decref full h
  exact pages.dropRoot found bare stays dec.mem dec.npage accounts (pages.stock_decref dec (pages.owned _ _ full))

theorem pageDecref_tlb {vm vm' : Vm} {pp : Nat} {u : Unit} (h : pageDecref vm pp = .ok u vm') :
    vm'.mem = vm.mem ∧ vm'.tlb = vm.tlb := by
  rcases pageDecref_cases vm pp with ⟨_, eq⟩ | ⟨_, eq⟩ | ⟨_, eq⟩ <;> rw [eq] at h <;> cases h
  · exact ⟨rfl, rfl⟩
  · exact ⟨rfl, rfl⟩

/-- The memory in `env_free` of `e`: `vm1` after the release of the variable page, `vm2` after the loop over the
    tables and `vm3` after the release of the directory. -/
structure Teardown (managed : Nat → Prop) (roots : Roots) (k k' : Kernel) (e : EnvPtr) (vm1 vm2 vm3 : Vm) : Prop where
  pages : Pages managed k.basePgdir (Function.update roots e (some ⟨(k.envs e).envPgdir, none⟩)) vm1
  mem : vm1.mem = k.vm.mem
  tlb : vm1.tlb = k.vm.tlb
  loop : Result.forRange (pdx utop) (envFreePde (k.envs e).envPgdir (asidWord (k.envs e).envAsid)) vm1 = .ok () vm2
  release : pageDecref vm2 (k.envs e).envPgdir = .ok () vm3
  last : k'.vm = tlbInvalidate vm3 (asidWord (k.envs e).envAsid) (uvpt + BitVec.ofNat 32 (pdx uvpt) <<< pgshift)

theorem envFree_teardown {e : EnvPtr} {k k' : Kernel} {u : Unit} (pages : Pages managed k.basePgdir roots k.vm)
    (found : roots e = some ⟨(k.envs e).envPgdir, (k.envs e).envVars⟩) (h : envFree e k = .ok u k') :
    ∃ vm1 vm2 vm3, Teardown managed roots k k' e vm1 vm2 vm3 := by
  obtain ⟨vm1, vm2, vm3, ran⟩ := envFree_runs h
  refine ⟨vm1, vm2, vm3, ?_⟩
  rcases ran.vars with ⟨absent, rfl⟩ | ⟨v, present, dropped⟩
  · refine ⟨?_, rfl, rfl, ran.loop, ran.release, ran.last⟩
    rw [absent] at found
    rw [← found, Function.update_eq_self]
    exact pages
  · rw [present] at found
    obtain ⟨mem, tlb⟩ := pageDecref_tlb dropped
    exact ⟨(pages.releaseVars found dropped).1, mem, tlb, ran.loop, ran.release, ran.last⟩

theorem teardown_root (roots : Roots) (e : EnvPtr) (d : Nat) :
    Function.update roots e (some ⟨d, none⟩) e = some ⟨d, none⟩ := Function.update_self _ _ _

theorem Teardown.empty {e : EnvPtr} {k k' : Kernel} {vm1 vm2 vm3 : Vm} (down : Teardown managed roots k k' e vm1 vm2 vm3)
    (high : ∀ i : Fin 1024, pdx uvpt < i.val → k.vm.mem (k.envs e).envPgdir i.val = 0) (i : Fin 1024) :
    target (Function.update roots e (some ⟨(k.envs e).envPgdir, none⟩)) vm2 (.pde e i) = none := by
  have root := teardown_root roots e (k.envs e).envPgdir
  obtain ⟨_, low, above⟩ := down.pages.freeTables root down.loop
  by_cases small : i.val < pdx utop
  · exact low i small
  · rw [above i (Nat.not_lt.mp small)]
    by_cases own : Shared i
    · simp [target, own]
    · have top : pdx uvpt < i.val := by
        unfold Shared at own
        omega
      rw [target_pde root own, entry, down.mem, high i top]
      rfl

theorem envFree_pages {e : EnvPtr} {k k' : Kernel} {u : Unit} (pages : Pages managed k.basePgdir roots k.vm)
    (found : roots e = some ⟨(k.envs e).envPgdir, (k.envs e).envVars⟩)
    (high : ∀ i : Fin 1024, pdx uvpt < i.val → k.vm.mem (k.envs e).envPgdir i.val = 0) (h : envFree e k = .ok u k') :
    Pages managed k.basePgdir (Function.update roots e none) k'.vm := by
  obtain ⟨vm1, vm2, vm3, down⟩ := envFree_teardown pages found h
  have root := teardown_root roots e (k.envs e).envPgdir
  have none := down.empty high
  have last := (down.pages.freeTables root down.loop).1.releaseRoot root (fun i j => target_pte_none (none i))
    (fun q => ⟨fun mine => ⟨mine, fun i full => by cases (none i).symm.trans full⟩, And.left⟩) down.release
  rw [Function.update_idem] at last
  rw [down.last]
  exact last.tlb _ _

def rootsOf (k : Kernel) : Roots := fun e =>
  if (k.envs e).envStatus = .free then none else some ⟨(k.envs e).envPgdir, (k.envs e).envVars⟩

theorem rootsOf_congr {k k' : Kernel} (same : ∀ e, ((k'.envs e).envStatus = .free ↔ (k.envs e).envStatus = .free) ∧
    (k'.envs e).envPgdir = (k.envs e).envPgdir ∧ (k'.envs e).envVars = (k.envs e).envVars) : rootsOf k' = rootsOf k := by
  funext e
  obtain ⟨free, dir, vars⟩ := same e
  simp only [rootsOf, free, dir, vars]

theorem rootsOf_used {k : Kernel} {e : EnvPtr} (used : (k.envs e).envStatus ≠ .free) :
    rootsOf k e = some ⟨(k.envs e).envPgdir, (k.envs e).envVars⟩ := if_neg used

/-- The pages of a kernel state: the invariant for the envs in use, the directory of the current env, and
    receive addresses below `UTOP`. -/
structure PageInv (managed : Nat → Prop) (k : Kernel) : Prop where
  pages : Pages managed k.basePgdir (rootsOf k) k.vm
  space : ∀ e, k.curenv = some e → k.curPgdir = (k.envs e).envPgdir
  dst : ∀ e, (k.envs e).envIpcDstva < utop

theorem legal_user {va : Word} (legal : isIllegalVa va = false) : va < utop := by
  simp only [isIllegalVa, Bool.or_eq_false_iff, decide_eq_false_iff_not, BitVec.not_le] at legal
  exact legal.2

theorem optional_user {va : Word} (valid : ¬ (va ≠ 0 ∧ isIllegalVa va = true)) : va < utop := by
  by_cases zero : va = 0
  · rw [zero]
    decide
  · exact legal_user (Bool.eq_false_iff.mpr fun bad => valid ⟨zero, bad⟩)

theorem PageInv.putVm {k : Kernel} {vm : Vm} (inv : PageInv managed k)
    (pages : Pages managed k.basePgdir (rootsOf k) vm) : PageInv managed (k.putVm vm) := ⟨pages, inv.space, inv.dst⟩

theorem schedule_pages {yield : Bool} {k k' : Kernel} (pages : Pages managed k.basePgdir (rootsOf k) k.vm)
    (dst : ∀ e, (k.envs e).envIpcDstva < utop) (h : schedule yield k = .ok () k') : PageInv managed k' := by
  obtain ⟨e, _, resumed⟩ := schedule_ok h
  have roots : rootsOf k' = rootsOf k := by
    refine rootsOf_congr fun b => ?_
    rw [resumed.envs b]
    exact ⟨Iff.rfl, rfl, rfl⟩
  refine ⟨?_, fun b cur => ?_, fun b => ?_⟩
  · rw [roots, resumed.vm, resumed.basePgdir]
    exact pages
  · obtain rfl := Option.some.inj (resumed.curenv.symm.trans cur)
    rw [resumed.curPgdir, resumed.envs e]
  · rw [resumed.envs b]
    exact dst b

theorem Left.pages {cur : EnvPtr} {k mid k' : Kernel} (left : Left cur k mid) (inv : PageInv managed k)
    (used : (k.envs cur).envStatus ≠ .free) (now : (mid.envs cur).envStatus ≠ .free)
    (pgdir : (mid.envs cur).envPgdir = (k.envs cur).envPgdir) (vars : (mid.envs cur).envVars = (k.envs cur).envVars)
    (dst : (mid.envs cur).envIpcDstva < utop) (h : schedule true mid = .ok () k') : PageInv managed k' := by
  have roots : rootsOf mid = rootsOf k := by
    refine rootsOf_congr fun b => ?_
    by_cases same : b = cur
    · subst same
      exact ⟨iff_of_false now used, pgdir, vars⟩
    · rw [left.others b same]
      exact ⟨Iff.rfl, rfl, rfl⟩
  refine schedule_pages ?_ (fun b => ?_) h
  · rw [roots, left.vm, left.basePgdir]
    exact inv.pages
  · by_cases same : b = cur
    · exact same ▸ dst
    · rw [left.others b same]
      exact inv.dst b

section calls

variable {k k' : Kernel} {cur e : EnvPtr} {envid va perm : Word}

theorem retVm_ran {α : Type} {r : Res Vm α} {w : Word} (h : (ret w (k.withVm r)).state = some k') :
    ∃ vm', r.state = some vm' ∧ k' = k.putVm vm' := by
  have h := ret_state h
  cases r with
  | ok a vm' => cases h; exact ⟨vm', rfl, rfl⟩
  | err code vm' => cases h; exact ⟨vm', rfl, rfl⟩
  | stop cause => cases h

theorem sysMemAlloc_runs (h : (sysMemAlloc cur envid va perm k).state = some k') :
    k' = k ∨ ∃ e pp vm vm', isIllegalVa va = false ∧ envid2env k cur envid true = .ok e ∧ pageAlloc k.vm = .ok pp vm ∧
      (pageInsert vm (k.envs e).envPgdir (asidWord (k.envs e).envAsid) pp va perm).state = some vm' ∧ k' = k.putVm vm' := by
  unfold sysMemAlloc at h
  split at h
  · cases h
    exact Or.inl rfl
  · rename_i legal
    rcases tryEnv_state h with ⟨rfl, _⟩ | ⟨e, found, h⟩
    · exact Or.inl rfl
    · rcases Result.bind_state h with ⟨code, h⟩ | ⟨pp, mid, alloc, h⟩
      · obtain ⟨vm, alloc, rfl⟩ := withVm_err h
        rw [(pageAlloc_err alloc).1]
        exact Or.inl rfl
      · obtain ⟨vm, taken, rfl⟩ := withVm_ok alloc
        obtain ⟨vm', insert, rfl⟩ := retVm_ran h
        exact Or.inr ⟨e, pp, vm, vm', Bool.eq_false_iff.mpr legal, found, taken, insert, rfl⟩

theorem sysMemMap_runs {srcid srcva dstid dstva : Word}
    (h : (sysMemMap cur srcid srcva dstid dstva perm k).state = some k') :
    k' = k ∨ ∃ src dst vm', isIllegalVa srcva = false ∧ isIllegalVa dstva = false ∧ envid2env k cur srcid true = .ok src ∧
      envid2env k cur dstid true = .ok dst ∧ HasPage k.vm (k.envs src).envPgdir srcva ∧
      (pageInsert k.vm (k.envs dst).envPgdir (asidWord (k.envs dst).envAsid) (ppn (pteAt k.vm (k.envs src).envPgdir srcva))
        dstva perm).state = some vm' ∧ k' = k.putVm vm' := by
  unfold sysMemMap at h
  split at h
  · cases h
    exact Or.inl rfl
  · rename_i legal
    simp only [Bool.or_eq_true, not_or, Bool.not_eq_true] at legal
    rcases tryEnv_state h with ⟨rfl, _⟩ | ⟨src, foundSrc, h⟩
    · exact Or.inl rfl
    · rcases tryEnv_state h with ⟨rfl, _⟩ | ⟨dst, foundDst, h⟩
      · exact Or.inl rfl
      · rcases Result.bind_state h with ⟨code, h⟩ | ⟨found, mid, lookup, h⟩
        · obtain ⟨vm, h, _⟩ := withVm_err h
          exact absurd h (pageLookup_noErr _ _ _ _ _)
        · obtain ⟨vm, looked, rfl⟩ := withVm_ok lookup
          obtain ⟨rfl, ⟨_, rfl⟩ | ⟨has, rfl⟩⟩ := pageLookup_ok looked
          · cases h
            exact Or.inl rfl
          · obtain ⟨vm', insert, rfl⟩ := retVm_ran h
            exact Or.inr ⟨src, dst, vm', legal.1, legal.2, foundSrc, foundDst, has, insert, rfl⟩

theorem sysMemUnmap_runs (h : (sysMemUnmap cur envid va k).state = some k') :
    k' = k ∨ ∃ e vm', isIllegalVa va = false ∧ envid2env k cur envid true = .ok e ∧
      pageRemove k.vm (k.envs e).envPgdir (asidWord (k.envs e).envAsid) va = .ok () vm' ∧ k' = k.putVm vm' := by
  unfold sysMemUnmap at h
  split at h
  · cases h
    exact Or.inl rfl
  · rename_i legal
    rcases tryEnv_state h with ⟨rfl, _⟩ | ⟨e, found, h⟩
    · exact Or.inl rfl
    · obtain ⟨vm', remove, rfl⟩ := retVm_ran h
      refine Or.inr ⟨e, vm', Bool.eq_false_iff.mpr legal, found, ?_, rfl⟩
      cases result : pageRemove k.vm (k.envs e).envPgdir (asidWord (k.envs e).envAsid) va with
      | ok u s =>
        rw [result] at remove
        cases remove
        rfl
      | err code s => exact absurd result (pageRemove_noErr _ _ _ _ _ _)
      | stop cause =>
        rw [result] at remove
        cases remove

theorem sysIpcTrySend_runs {value srcva : Word} (h : (sysIpcTrySend cur envid value srcva perm k).state = some k') :
    k' = k ∨ ∃ e vm, Accepts k cur envid srcva e ∧ k' = (ipcDeliver cur e value perm k).putVm vm ∧
      (vm = k.vm ∨ srcva ≠ 0 ∧ HasPage k.vm (k.envs cur).envPgdir srcva ∧
        (pageInsert k.vm (k.envs e).envPgdir (asidWord (k.envs e).envAsid) (ppn (pteAt k.vm (k.envs cur).envPgdir srcva))
          (k.envs e).envIpcDstva perm).state = some vm) := by
  rcases sysIpcTrySend_cases cur envid value srcva perm k with ⟨_, _, eq, _⟩ | ⟨e, accepts, eq⟩
  · rw [eq] at h
    cases h
    exact Or.inl rfl
  · rw [eq, ipcMap] at h
    split at h
    · rename_i sends
      rcases Result.bind_state h with ⟨code, h⟩ | ⟨found, mid, lookup, h⟩
      · obtain ⟨vm, h, _⟩ := withVm_err h
        exact absurd h (pageLookup_noErr _ _ _ _ _)
      · obtain ⟨vm, looked, rfl⟩ := withVm_ok lookup
        rw [ipcDeliver_pgdir] at looked
        obtain ⟨rfl, ⟨_, rfl⟩ | ⟨has, rfl⟩⟩ := pageLookup_ok looked
        · cases h
          exact Or.inr ⟨e, k.vm, accepts, rfl, Or.inl rfl⟩
        · obtain ⟨vm', insert, rfl⟩ := retVm_ran h
          simp only [Kernel.putVm, ipcDeliver_self] at insert
          exact Or.inr ⟨e, vm', accepts, rfl, Or.inr ⟨sends, has, insert⟩⟩
    · cases h
      exact Or.inr ⟨e, k.vm, accepts, rfl, Or.inl rfl⟩

end calls

theorem sysMemAlloc_pages {cur : EnvPtr} {envid va perm : Word} {k k' : Kernel} (inv : PageInv managed k)
    (env : EnvInv k) (current : k.curenv = some cur) (flags : FlagBits perm)
    (h : (sysMemAlloc cur envid va perm k).state = some k') : PageInv managed k' := by
  rcases sysMemAlloc_runs h with rfl | ⟨e, pp, vm, vm', legal, found, alloc, insert, rfl⟩
  · exact inv
  · obtain ⟨pages', _, fresh, _, _⟩ := inv.pages.alloc alloc
    exact inv.putVm (pages'.insert_state (rootsOf_used (env.target_used current found)) (pdx_user (legal_user legal))
      fresh.data flags (fun _ => pages'.fresh_count fresh) insert)

theorem sysMemMap_pages {cur : EnvPtr} {srcid srcva dstid dstva perm : Word} {k k' : Kernel} (inv : PageInv managed k)
    (env : EnvInv k) (current : k.curenv = some cur) (flags : FlagBits perm)
    (room : ∀ src dst, isIllegalVa srcva = false → isIllegalVa dstva = false → envid2env k cur srcid true = .ok src →
      envid2env k cur dstid true = .ok dst → HasPage k.vm (k.envs src).envPgdir srcva →
      Adds k.vm (k.envs dst).envPgdir dstva (ppn (pteAt k.vm (k.envs src).envPgdir srcva)) →
      k.vm.ppRef (ppn (pteAt k.vm (k.envs src).envPgdir srcva)) ≠ 65535)
    (h : (sysMemMap cur srcid srcva dstid dstva perm k).state = some k') : PageInv managed k' := by
  rcases sysMemMap_runs h with rfl | ⟨src, dst, vm', legalSrc, legalDst, foundSrc, foundDst, has, insert, rfl⟩
  · exact inv
  · have srcRoot := rootsOf_used (env.target_used current foundSrc)
    have data := inv.pages.data (inv.pages.hasPage srcRoot (pdx_user (legal_user legalSrc)) has)
    exact inv.putVm (inv.pages.insert_state (rootsOf_used (env.target_used current foundDst)) (pdx_user (legal_user legalDst))
      data flags (room src dst legalSrc legalDst foundSrc foundDst has) insert)

theorem sysMemUnmap_pages {cur : EnvPtr} {envid va : Word} {k k' : Kernel} (inv : PageInv managed k)
    (env : EnvInv k) (current : k.curenv = some cur) (h : (sysMemUnmap cur envid va k).state = some k') :
    PageInv managed k' := by
  rcases sysMemUnmap_runs h with rfl | ⟨e, vm', legal, found, remove, rfl⟩
  · exact inv
  · have root := rootsOf_used (env.target_used current found)
    exact inv.putVm (inv.pages.remove root (pdx_user (legal_user legal)) remove).pages

theorem ipcDeliver_roots {cur e : EnvPtr} {value perm : Word} {k : Kernel} (used : (k.envs e).envStatus ≠ .free) :
    rootsOf (ipcDeliver cur e value perm k) = rootsOf k := by
  refine rootsOf_congr fun b => ?_
  by_cases same : b = e
  · subst same
    rw [ipcDeliver_self]
    exact ⟨iff_of_false (by simp) used, rfl, rfl⟩
  · rw [ipcDeliver_others same]
    exact ⟨Iff.rfl, rfl, rfl⟩

theorem ipcDeliver_pages {cur e : EnvPtr} {value perm : Word} {k : Kernel} (inv : PageInv managed k)
    (used : (k.envs e).envStatus ≠ .free) : PageInv managed (ipcDeliver cur e value perm k) := by
  refine ⟨?_, fun b current => ?_, fun b => ?_⟩
  · rw [ipcDeliver_roots used]
    exact inv.pages
  · rw [ipcDeliver_pgdir]
    exact inv.space b current
  · by_cases here : b = e
    · rw [here, ipcDeliver_self]
      exact inv.dst e
    · rw [ipcDeliver_others here]
      exact inv.dst b

theorem sysIpcTrySend_pages {cur : EnvPtr} {envid value srcva perm : Word} {k k' : Kernel} (inv : PageInv managed k)
    (env : EnvInv k) (current : k.curenv = some cur) (flags : FlagBits perm)
    (room : ∀ e, Accepts k cur envid srcva e → srcva ≠ 0 → HasPage k.vm (k.envs cur).envPgdir srcva →
      Adds k.vm (k.envs e).envPgdir (k.envs e).envIpcDstva (ppn (pteAt k.vm (k.envs cur).envPgdir srcva)) →
      k.vm.ppRef (ppn (pteAt k.vm (k.envs cur).envPgdir srcva)) ≠ 65535)
    (h : (sysIpcTrySend cur envid value srcva perm k).state = some k') : PageInv managed k' := by
  rcases sysIpcTrySend_runs h with rfl | ⟨e, vm, accepts, rfl, moved⟩
  · exact inv
  · have used := env.target_used current accepts.env
    have pages : Pages managed k.basePgdir (rootsOf k) vm := by
      rcases moved with rfl | ⟨sends, has, insert⟩
      · exact inv.pages
      · have own := pdx_user (optional_user accepts.va)
        have data := inv.pages.data (inv.pages.hasPage (rootsOf_used (env.current_used current)) own has)
        exact inv.pages.insert_state (rootsOf_used used) (pdx_user (inv.dst e)) data flags (room e accepts sends has) insert
    refine (ipcDeliver_pages inv used).putVm ?_
    rw [ipcDeliver_roots used]
    exact pages

/-- The failures of `env_alloc` that take no page. -/
def TakesAsid (k : Kernel) : Prop := k.envFreeList = [] ∨ k.vm.pageFreeList = [] ∨ ∃ i, k.asidBitmap i = false

theorem envSetupVm_counted {e : EnvPtr} {k k' : Kernel} {u u' : Unit} {vm : Vm}
    (pages : Pages managed k.basePgdir roots k.vm) (setup : envSetupVm e k = .ok u k') :
    pageFree k'.vm (k'.envs e).envPgdir ≠ .ok u' vm := by
  obtain ⟨p, vm1, alloc, pgdir, eq⟩ := envSetupVm_spec setup
  obtain ⟨pages', _, fresh, _, _⟩ := pages.alloc alloc
  have count : k'.vm.ppRef (k'.envs e).envPgdir ≠ 0 := by
    rw [eq, pgdir]
    intro zero
    have one := incRef_count (pages'.fresh_count fresh)
    rw [show (vm1.incRef p).ppRef p = 0 from zero] at one
    cases one
  rw [pageFree, if_pos count]
  intro freed
  cases freed

theorem envAlloc_err_vm {parentId code : Word} {k k' : Kernel} (pages : Pages managed k.basePgdir roots k.vm)
    (takes : TakesAsid k) (h : envAlloc parentId k = .err code k') : k' = k := by
  cases envAlloc_refuses h with
  | envs => rfl
  | pgdir => rfl
  | vars _ setup _ release => exact absurd release (envSetupVm_counted pages setup)
  | asid free setup _ full =>
    exfalso
    obtain ⟨p, vm, alloc, _⟩ := envSetupVm_runs setup
    obtain ⟨rest, list, _⟩ := pageAlloc_ok alloc
    rcases takes with none | none | ⟨i, idle⟩
    · cases none.symm.trans free
    · cases none.symm.trans list
    · exact Bool.false_ne_true (idle.symm.trans (full i))

end Mos
