import Mos.Kern.PageCount

namespace Mos

variable {managed : Nat → Prop} {base : Nat} {roots : Roots}

theorem Pages.loadIcodeMapper {vm vm' : Vm} {e : EnvPtr} {root : Root} {asid : Word} {page : IcodePage} {u : Unit}
    (pages : Pages managed base roots vm) (found : roots e = some root) (user : page.va < utop)
    (flags : FlagBits page.perm) (h : loadIcodeMapper root.pgdir asid page vm = .ok u vm') :
    Pages managed base roots vm' := by
  obtain ⟨p, mid, alloc, h⟩ := Result.bind_ok h
  obtain ⟨pagesMid, same, fresh, _, _⟩ := pages.alloc alloc
  have filled : Pages managed base roots { mid with mem := Function.update mid.mem p page.words } :=
    pagesMid.setContents fresh.managed fun r _ => fresh.unused r
  have kept : target roots { mid with mem := Function.update mid.mem p page.words } = target roots mid :=
    target_congr fun r q _ full => Function.update_of_ne (fun eq => fresh.unused r (by rw [full, eq])) _ _
  have data : Data managed roots { mid with mem := Function.update mid.mem p page.words } p :=
    ⟨fresh.managed, fun r _ => kept ▸ fresh.unused r, fresh.out⟩
  exact filled.insert found (pdx_user user) data flags (fun _ => pagesMid.fresh_count fresh) h

theorem Pages.loadPages {vm vm' : Vm} {e : EnvPtr} {root : Root} {asid : Word} {list : List IcodePage} {u : Unit}
    (pages : Pages managed base roots vm) (found : roots e = some root)
    (legal : ∀ page ∈ list, page.va < utop ∧ FlagBits page.perm) (h : loadPages root.pgdir asid list vm = .ok u vm') :
    Pages managed base roots vm' := by
  induction list generalizing vm with
  | nil =>
    cases h
    exact pages
  | cons page rest ih =>
    obtain ⟨_, mid, first, h⟩ := Result.bind_ok h
    obtain ⟨user, flags⟩ := legal page List.mem_cons_self
    exact ih (pages.loadIcodeMapper found user flags first) (fun q mem => legal q (List.mem_cons_of_mem page mem)) h

theorem rootsOf_update {e : EnvPtr} {k k' : Kernel} (used : (k'.envs e).envStatus ≠ .free)
    (others : ∀ b, b ≠ e → k'.envs b = k.envs b) :
    rootsOf k' = Function.update (rootsOf k) e (some ⟨(k'.envs e).envPgdir, (k'.envs e).envVars⟩) := by
  funext b
  by_cases same : b = e
  · rw [same, Function.update_self, rootsOf_used used]
  · rw [Function.update_of_ne same, rootsOf, rootsOf, others b same]

theorem rootsOf_drop {e : EnvPtr} {k k' : Kernel} (free : (k'.envs e).envStatus = .free)
    (others : ∀ b, b ≠ e → k'.envs b = k.envs b) : rootsOf k' = Function.update (rootsOf k) e none := by
  funext b
  by_cases same : b = e
  · rw [same, Function.update_self, rootsOf, if_pos free]
  · rw [Function.update_of_ne same, rootsOf, rootsOf, others b same]

theorem EnvInv.absent {k : Kernel} (env : EnvInv k) : ∀ b ∈ k.envFreeList, rootsOf k b = none :=
  fun b mem => if_pos (env.free b mem)

theorem Env.Allocated.dst {a b : Env} (same : a.Allocated b) : b.envIpcDstva = a.envIpcDstva := by rw [same]

theorem PageInv.taken {parentId : Word} {e : EnvPtr} {k mid k' : Kernel} (inv : PageInv managed k) (env : EnvInv k)
    (alloc : envAlloc parentId k = .ok e mid) (used : (k'.envs e).envStatus ≠ .free)
    (others : ∀ b, b ≠ e → k'.envs b = mid.envs b) (dir : (k'.envs e).envPgdir = (mid.envs e).envPgdir)
    (vars : (k'.envs e).envVars = (mid.envs e).envVars) (dst : (k'.envs e).envIpcDstva = (mid.envs e).envIpcDstva)
    (curenv : k'.curenv = mid.curenv) (curPgdir : k'.curPgdir = mid.curPgdir) (basePgdir : k'.basePgdir = mid.basePgdir)
    (pages : Pages managed mid.basePgdir (rootsOf k') mid.vm → Pages managed mid.basePgdir (rootsOf k') k'.vm) :
    PageInv managed k' := by
  obtain ⟨setup, list⟩ := envAlloc_ok alloc
  have taken := setup.taken env list
  have others' : ∀ b, b ≠ e → k'.envs b = k.envs b := fun b ne => (others b ne).trans (setup.others b ne)
  have roots : rootsOf k' = Function.update (rootsOf k) e (some ⟨(mid.envs e).envPgdir, (mid.envs e).envVars⟩) := by
    rw [rootsOf_update used others', dir, vars]
  have allocated := envAlloc_pages inv.pages env.absent alloc
  rw [← roots, ← setup.basePgdir] at allocated
  refine ⟨basePgdir ▸ pages allocated, fun b cur => ?_, fun b => ?_⟩
  · rw [curenv] at cur
    have ne : b ≠ e := by
      rintro rfl
      exact taken.other cur
    rw [curPgdir, setup.curPgdir, others' b ne]
    exact inv.space b (setup.curenv ▸ cur)
  · by_cases same : b = e
    · rw [same, dst, setup.env.dst]
      exact inv.dst e
    · rw [others' b same]
      exact inv.dst b

theorem sysExofork_pages {cur : EnvPtr} {k k' : Kernel} (inv : PageInv managed k) (env : EnvInv k)
    (takes : TakesAsid k) (h : (sysExofork cur k).state = some k') : PageInv managed k' := by
  rcases sysExofork_state h with ⟨code, alloc⟩ | ⟨e, mid, alloc, rfl⟩
  · rw [envAlloc_err_vm inv.pages takes alloc]
    exact inv
  · refine inv.taken env alloc ?_ (fun b ne => forked_others ne) ?_ ?_ ?_ rfl rfl rfl fun pages => pages
    · simp [forked, Kernel.updateEnv]
    · simp [forked, Kernel.updateEnv]
    · simp [forked, Kernel.updateEnv]
    · simp [forked, Kernel.updateEnv]

theorem envCreate_pages {binary : Binary} {priority : Word} {k k' : Kernel} (inv : PageInv managed k) (env : EnvInv k)
    (legal : ∀ page ∈ binary.pages, page.va < utop ∧ FlagBits page.perm)
    (h : (envCreate binary priority k).state = some k') : PageInv managed k' := by
  obtain ⟨e, mid, alloc, created, load⟩ := envCreate_state h
  have used : (k'.envs e).envStatus ≠ .free := by
    rw [created.env]
    exact fun free => by cases free
  have dir : (k'.envs e).envPgdir = (mid.envs e).envPgdir := by rw [created.env]
  refine inv.taken env alloc used created.others dir (by rw [created.env]) (by rw [created.env]) created.curenv
    created.curPgdir created.basePgdir fun pages => ?_
  rw [← dir] at load
  exact pages.loadPages (rootsOf_used used) legal load

theorem sysIpcRecv_pages {cur : EnvPtr} {dstva : Word} {k k' : Kernel} (inv : PageInv managed k) (env : EnvInv k)
    (current : k.curenv = some cur) (h : (sysIpcRecv cur dstva k).state = some k') : PageInv managed k' := by
  rcases sysIpcRecv_state h with ⟨_, rfl⟩ | ⟨valid, mid, left, now, h⟩
  · exact inv
  · refine left.pages inv (env.current_used current) ?_ ?_ ?_ ?_ h
    · rw [now]
      exact fun free => by cases free
    · rw [now]
    · rw [now]
    · rw [now]
      exact optional_user valid

theorem sysSetEnvStatus_pages {cur : EnvPtr} {envid status : Word} {k k' : Kernel} (inv : PageInv managed k)
    (env : EnvInv k) (current : k.curenv = some cur) (h : (sysSetEnvStatus cur envid status k).state = some k') :
    PageInv managed k' := by
  rcases sysSetEnvStatus_state h with ⟨rfl, _⟩ | ⟨e, q, sets, _, h⟩
  · exact inv
  · have used := env.target_used current sets.env
    have now : statusOf status ≠ .free := by
      unfold statusOf
      split
      · exact fun free => by cases free
      · exact fun free => by cases free
    have roots : rootsOf (setStatus k e (statusOf status) q) = rootsOf k := by
      refine rootsOf_congr fun b => ?_
      by_cases same : b = e
      · rw [same, setStatus_self]
        exact ⟨iff_of_false now used, rfl, rfl⟩
      · rw [setStatus_others same]
        exact ⟨Iff.rfl, rfl, rfl⟩
    have fields : ∀ b, ((setStatus k e (statusOf status) q).envs b).envPgdir = (k.envs b).envPgdir ∧
        ((setStatus k e (statusOf status) q).envs b).envIpcDstva = (k.envs b).envIpcDstva := by
      intro b
      by_cases same : b = e
      · rw [same, setStatus_self]
        exact ⟨rfl, rfl⟩
      · rw [setStatus_others same]
        exact ⟨rfl, rfl⟩
    have pages : Pages managed k.basePgdir (rootsOf (setStatus k e (statusOf status) q)) k.vm := by
      rw [roots]
      exact inv.pages
    have dst : ∀ b, ((setStatus k e (statusOf status) q).envs b).envIpcDstva < utop := by
      intro b
      rw [(fields b).2]
      exact inv.dst b
    split at h
    · exact schedule_pages pages dst h
    · subst h
      refine ⟨pages, fun b cur' => ?_, dst⟩
      rw [(fields b).1]
      exact inv.space b cur'

theorem sysEnvDestroy_pages {cur : EnvPtr} {envid status : Word} {k k' : Kernel} (inv : PageInv managed k)
    (env : EnvInv k) (current : k.curenv = some cur)
    (high : ∀ e, Reaps k cur envid e → ∀ i : Fin 1024, pdx uvpt < i.val → k.vm.mem (k.envs e).envPgdir i.val = 0)
    (h : (sysEnvDestroy cur envid status k).state = some k') : PageInv managed k' := by
  rcases sysEnvDestroy_state current h with ⟨rfl, _⟩ | ⟨mid, left, now, h, _⟩ | ⟨e, reaps, free⟩
  · exact inv
  · refine left.pages inv (env.current_used current) ?_ ?_ ?_ ?_ h
    · rw [now]
      exact fun free => by cases free
    · rw [now]
    · rw [now]
    · rw [now]
      exact inv.dst cur
  · have freed := envFree_ok free
    have used := env.target_used current reaps.env
    have pages := envFree_pages inv.pages (rootsOf_used used) (high e reaps) free
    have gone : (k'.envs e).envStatus = .free := by rw [freed.env]
    refine ⟨?_, fun b cur' => ?_, fun b => ?_⟩
    · rw [rootsOf_drop gone freed.others, freed.basePgdir]
      exact pages
    · rw [freed.curenv] at cur'
      have ne : b ≠ e := by
        rintro rfl
        exact reaps.other (Option.some.inj (cur'.symm.trans current))
      rw [freed.curPgdir, freed.others b ne]
      exact inv.space b cur'
    · by_cases same : b = e
      · rw [same, freed.env]
        exact inv.dst e
      · rw [freed.others b same]
        exact inv.dst b

/-- The condition on a step under which every reference stays counted: permissions are flag bits, no count is
    full when a reference is added, `env_alloc` finds an ASID for an env it has pages for, and a reaped env has
    no page tables above the self map. -/
def PageGuard (k : Kernel) : Op → Prop
  | .syscall _ (.memAlloc _ _ perm) => FlagBits perm
  | .syscall _ (.memMap srcid srcva dstid dstva perm) => FlagBits perm ∧
      ∀ cur src dst, k.curenv = some cur → isIllegalVa srcva = false → isIllegalVa dstva = false →
        envid2env k cur srcid true = .ok src → envid2env k cur dstid true = .ok dst →
        HasPage k.vm (k.envs src).envPgdir srcva →
        Adds k.vm (k.envs dst).envPgdir dstva (ppn (pteAt k.vm (k.envs src).envPgdir srcva)) →
        k.vm.ppRef (ppn (pteAt k.vm (k.envs src).envPgdir srcva)) ≠ 65535
  | .syscall _ (.ipcTrySend envid _ srcva perm) => FlagBits perm ∧
      ∀ cur e, k.curenv = some cur → Accepts k cur envid srcva e → srcva ≠ 0 →
        HasPage k.vm (k.envs cur).envPgdir srcva →
        Adds k.vm (k.envs e).envPgdir (k.envs e).envIpcDstva (ppn (pteAt k.vm (k.envs cur).envPgdir srcva)) →
        k.vm.ppRef (ppn (pteAt k.vm (k.envs cur).envPgdir srcva)) ≠ 65535
  | .syscall _ .exofork => TakesAsid k
  | .syscall _ (.envDestroy envid _) => ∀ cur e, k.curenv = some cur → Reaps k cur envid e →
      ∀ i : Fin 1024, pdx uvpt < i.val → k.vm.mem (k.envs e).envPgdir i.val = 0
  | .envCreate binary _ => ∀ page ∈ binary.pages, page.va < utop ∧ FlagBits page.perm
  | _ => True

theorem PageInv.trap {k : Kernel} (inv : PageInv managed k) (tf : Trapframe) : PageInv managed (k.trap tf) :=
  ⟨inv.pages, inv.space, inv.dst⟩

theorem syscall_pages {cur : EnvPtr} {tf : Trapframe} {call : Call} {k k' : Kernel} (inv : PageInv managed k)
    (env : EnvInv k) (current : k.curenv = some cur) (meets : PageGuard k (.syscall tf call))
    (h : (syscallTable cur call (k.trap tf)).state = some k') : PageInv managed k' := by
  have inv' := inv.trap tf
  have env' : EnvInv (k.trap tf) := env.setFrame _
  cases call with
  | yield => exact schedule_pages inv'.pages inv'.dst (schedule_state (switch_state h))
  | envDestroy envid status =>
    exact sysEnvDestroy_pages inv' env' current (fun e reaps => meets cur e current ⟨reaps.1, reaps.2, reaps.3, reaps.4⟩) h
  | memAlloc envid va perm => exact sysMemAlloc_pages inv' env' current meets h
  | memMap srcid srcva dstid dstva perm =>
    exact sysMemMap_pages inv' env' current meets.1 (fun src dst => meets.2 cur src dst current) h
  | memUnmap envid va => exact sysMemUnmap_pages inv' env' current h
  | exofork => exact sysExofork_pages inv' env' meets h
  | setEnvStatus envid status => exact sysSetEnvStatus_pages inv' env' current h
  | ipcTrySend envid value srcva perm =>
    exact sysIpcTrySend_pages inv' env' current meets.1
      (fun e accepts => meets.2 cur e current ⟨accepts.1, accepts.2, accepts.3⟩) h
  | ipcRecv dstva => exact sysIpcRecv_pages inv' env' current h

theorem passiveAlloc_noErr (va : Word) (pgdir : Nat) (asid : Word) (vm : Vm) :
    NoErr (passiveAlloc va pgdir asid vm) := by
  intro code s h
  unfold passiveAlloc at h
  split at h
  · cases h
  · split at h
    · split at h <;> cases h
    · cases h
    · cases h

theorem refillLookup_noErr (va : Word) (pgdir : Nat) (asid : Word) (fuel : Nat) (vm : Vm) :
    NoErr (refillLookup va pgdir asid fuel vm) := by
  induction fuel generalizing vm with
  | zero => exact fun code s h => by cases h
  | succ fuel ih =>
    refine (pageLookup_noErr vm pgdir va).bind fun found s => ?_
    cases found with
    | none => exact (passiveAlloc_noErr va pgdir asid s).bind fun _ t => ih t
    | some found => exact fun code t h => by cases h

theorem doTlbRefill_noErr (va : Word) (pgdir : Nat) (asid : Word) (victim : Nat) (vm : Vm) :
    NoErr (doTlbRefill va pgdir asid victim vm) :=
  (refillLookup_noErr va pgdir asid 2 _).bind fun _ _ code t h => by cases h

theorem step_pages {op : Op} {k k' : Kernel} (inv : PageInv managed k) (env : EnvInv k) (meets : PageGuard k op)
    (h : step k op = some k') : PageInv managed k' := by
  cases op with
  | syscall tf call =>
    obtain ⟨cur, current, h⟩ := Option.bind_eq_some_iff.mp h
    obtain ⟨after, mid, called, rfl⟩ := doSyscall_state h
    obtain ⟨pages, space, dst⟩ := syscall_pages inv env current meets called
    exact ⟨pages, space, dst⟩
  | timer tf => exact schedule_pages (k := { k with tf := tf }) inv.pages inv.dst (schedule_state h)
  | tlbRefill va victim =>
    obtain ⟨cur, current, h⟩ := Option.bind_eq_some_iff.mp h
    rw [inv.space cur current] at h
    cases result : doTlbRefill va (k.envs cur).envPgdir (asidWord (k.envs cur).envAsid) victim k.vm with
    | ok u vm =>
      rw [result] at h
      cases h
      exact inv.putVm (inv.pages.doTlbRefill (rootsOf_used (env.current_used current)) result)
    | err code vm => exact absurd result (doTlbRefill_noErr _ _ _ _ _ _ _)
    | stop cause =>
      rw [result] at h
      cases h
  | envCreate binary priority => exact envCreate_pages inv env meets h

end Mos
