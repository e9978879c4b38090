import Mos.Kern.Template

namespace Mos

def Kernel.Runnable (k : Kernel) (e : EnvPtr) : Prop := (k.envs e).envStatus = .runnable

/-- The current env is runnable and `env_free_list` holds free envs, each once. -/
structure EnvInv (k : Kernel) : Prop where
  current : ∀ e, k.curenv = some e → k.Runnable e
  free : ∀ e ∈ k.envFreeList, (k.envs e).envStatus = .free
  nodup : k.envFreeList.Nodup

theorem Env.Resumed.status {a b : Env} (same : a.Resumed b) : b.envStatus = a.envStatus := by rw [same]

theorem Env.Allocated.status {a b : Env} (same : a.Allocated b) : b.envStatus = a.envStatus := by rw [same]

theorem Setup.status {e : EnvPtr} {k k' : Kernel} (setup : Setup e k k') (b : EnvPtr) :
    (k'.envs b).envStatus = (k.envs b).envStatus := by
  by_cases same : b = e
  · subst same
    exact setup.env.status
  · rw [setup.others b same]

theorem curRunnable_some {k : Kernel} {e : EnvPtr} (h : k.curRunnable = some e) : k.curenv = some e ∧ k.Runnable e := by
  simpa [Kernel.curRunnable, Kernel.Runnable, Option.filter_eq_some_iff] using h

theorem EnvInv.same {k k' : Kernel} (inv : EnvInv k) (curenv : k'.curenv = k.curenv)
    (freeList : k'.envFreeList = k.envFreeList) (status : ∀ e, (k'.envs e).envStatus = (k.envs e).envStatus) :
    EnvInv k' := by
  refine ⟨fun e cur => ?_, fun e mem => ?_, freeList ▸ inv.nodup⟩
  · exact (status e).trans (inv.current e (curenv ▸ cur))
  · exact (status e).trans (inv.free e (freeList ▸ mem))

/-- An env that was not free has another status now, and is not current unless it is runnable. -/
theorem EnvInv.change {e : EnvPtr} {k k' : Kernel} (inv : EnvInv k) (used : (k.envs e).envStatus ≠ .free)
    (curenv : k'.curenv = k.curenv) (freeList : k'.envFreeList = k.envFreeList)
    (others : ∀ b, b ≠ e → (k'.envs b).envStatus = (k.envs b).envStatus) (now : k.curenv = some e → k'.Runnable e) :
    EnvInv k' := by
  refine ⟨fun b cur => ?_, fun b mem => ?_, freeList ▸ inv.nodup⟩
  · rw [curenv] at cur
    by_cases same : b = e
    · subst same
      exact now cur
    · exact (others b same).trans (inv.current b cur)
  · rw [freeList] at mem
    have ne : b ≠ e := by
      rintro rfl
      exact used (inv.free b mem)
    exact (others b ne).trans (inv.free b mem)

theorem EnvInv.putVm {k : Kernel} (inv : EnvInv k) (vm : Vm) : EnvInv (k.putVm vm) := inv.same rfl rfl fun _ => rfl

theorem EnvInv.setFrame {k : Kernel} (inv : EnvInv k) (tf : Trapframe) : EnvInv { k with tf := tf } :=
  inv.same rfl rfl fun _ => rfl

theorem EnvInv.current_used {k : Kernel} {cur : EnvPtr} (inv : EnvInv k) (current : k.curenv = some cur) :
    (k.envs cur).envStatus ≠ .free := by
  rw [inv.current cur current]
  exact fun free => by cases free

theorem EnvInv.target_used {k : Kernel} {cur e : EnvPtr} {envid : Word} {checkperm : Bool} (inv : EnvInv k)
    (current : k.curenv = some cur) (h : envid2env k cur envid checkperm = .ok e) : (k.envs e).envStatus ≠ .free := by
  unfold envid2env at h
  split at h
  · cases h
    exact inv.current_used current
  · dsimp only at h
    split at h
    · cases h
    · rename_i found
      split at h
      · cases h
      · cases h
        exact fun free => found (Or.inl free)

theorem schedule_state {yield : Bool} {k k' : Kernel} (h : (schedule yield k).state = some k') :
    schedule yield k = .ok () k' := by
  cases eq : schedule yield k with
  | ok u s => rw [eq] at h; cases h; rfl
  | err code s => exact absurd eq (schedule_noErr _ _ _ _)
  | stop cause => rw [eq] at h; cases h

theorem switch_state {res : Res Kernel Unit} {k' : Kernel} (h : (switch res).state = some k') :
    res.state = some k' := by
  cases res <;> exact h

theorem schedule_envInv {yield : Bool} {k k' : Kernel} (free : ∀ e ∈ k.envFreeList, (k.envs e).envStatus = .free)
    (nodup : k.envFreeList.Nodup) (h : schedule yield k = .ok () k') : EnvInv k' := by
  obtain ⟨e, _, resumed⟩ := schedule_ok h
  refine ⟨fun b cur => ?_, fun b mem => ?_, resumed.freeList ▸ nodup⟩
  · obtain rfl := Option.some.inj (resumed.curenv.symm.trans cur)
    exact (resumed.envs e).status.trans resumed.runnable
  · exact (resumed.envs b).status.trans (free b (resumed.freeList ▸ mem))

/-- The current env takes another status and leaves the queue before another env runs. -/
structure Left (cur : EnvPtr) (k mid : Kernel) : Prop where
  removed : k.envSchedList.remove cur = some mid.envSchedList
  freeList : mid.envFreeList = k.envFreeList
  now : ¬ mid.Runnable cur
  others : ∀ b, b ≠ cur → mid.envs b = k.envs b
  vm : mid.vm = k.vm
  basePgdir : mid.basePgdir = k.basePgdir
  asidBitmap : mid.asidBitmap = k.asidBitmap
  curenv : mid.curenv = k.curenv

theorem Left.envInv {cur : EnvPtr} {k mid k' : Kernel} (left : Left cur k mid) (inv : EnvInv k)
    (current : k.curenv = some cur) (h : schedule true mid = .ok () k') : EnvInv k' := by
  refine schedule_envInv (fun b mem => ?_) (left.freeList ▸ inv.nodup) h
  have free := inv.free b (left.freeList ▸ mem)
  have ne : b ≠ cur := by
    rintro rfl
    exact inv.current_used current free
  rw [left.others b ne]
  exact free

theorem sysIpcRecv_state {cur : EnvPtr} {dstva : Word} {k k' : Kernel} (h : (sysIpcRecv cur dstva k).state = some k') :
    ((dstva ≠ 0 ∧ isIllegalVa dstva = true) ∧ k' = k) ∨
      (¬ (dstva ≠ 0 ∧ isIllegalVa dstva = true) ∧ ∃ mid, Left cur k mid ∧
        mid.envs cur = { k.envs cur with envIpcRecving := 1, envIpcDstva := dstva, envStatus := .notRunnable } ∧
        schedule true mid = .ok () k') := by
  unfold sysIpcRecv at h
  split at h
  · rename_i bad
    cases h
    exact Or.inl ⟨bad, rfl⟩
  · rename_i valid
    rcases Result.bind_state (switch_state h) with ⟨code, h⟩ | ⟨_, left, unlink, h⟩
    · exact absurd h (tailqRemove_noErr _ _ _ _)
    · obtain ⟨q, removed, rfl⟩ := tailqRemove_ok unlink
      refine Or.inr ⟨valid, _, ⟨?_, ?_, ?_, fun b ne => ?_, ?_, ?_, ?_, ?_⟩, ?_, schedule_state h⟩
      · exact removed
      · rfl
      · simp [Kernel.Runnable, Kernel.updateEnv]
      · simp [Kernel.updateEnv, ne]
      · rfl
      · rfl
      · rfl
      · rfl
      · simp [Kernel.updateEnv]

theorem sysIpcRecv_envInv {cur : EnvPtr} {dstva : Word} {k k' : Kernel} (inv : EnvInv k)
    (current : k.curenv = some cur) (h : (sysIpcRecv cur dstva k).state = some k') : EnvInv k' := by
  rcases sysIpcRecv_state h with ⟨_, rfl⟩ | ⟨_, mid, left, _, h⟩
  · exact inv
  · exact left.envInv inv current h

/-- An env taken from the free list is free, is not current and leaves the list. -/
structure Taken (e : EnvPtr) (k mid : Kernel) : Prop where
  setup : Setup e k mid
  list : k.envFreeList = e :: mid.envFreeList
  inv : EnvInv mid
  free : (mid.envs e).envStatus = .free
  other : mid.curenv ≠ some e
  out : e ∉ mid.envFreeList

theorem Setup.taken {e : EnvPtr} {k mid : Kernel} (setup : Setup e k mid) (inv : EnvInv k)
    (list : k.envFreeList = e :: mid.envFreeList) : Taken e k mid := by
  have free : (mid.envs e).envStatus = .free := (setup.status e).trans (inv.free e (by simp [list]))
  have nodup := inv.nodup
  rw [list, List.nodup_cons] at nodup
  have rest : EnvInv mid := by
    refine ⟨fun b cur => ?_, fun b mem => ?_, nodup.2⟩
    · exact (setup.status b).trans (inv.current b (setup.curenv ▸ cur))
    · exact (setup.status b).trans (inv.free b (by simp [list, mem]))
  exact ⟨setup, list, rest, free, fun cur => rest.current_used cur free, nodup.1⟩

theorem Taken.envInv {e : EnvPtr} {k mid k' : Kernel} (taken : Taken e k mid) (curenv : k'.curenv = mid.curenv)
    (freeList : k'.envFreeList = mid.envFreeList)
    (others : ∀ b, b ≠ e → (k'.envs b).envStatus = (mid.envs b).envStatus) : EnvInv k' := by
  refine ⟨fun b cur => ?_, fun b mem => ?_, freeList ▸ taken.inv.nodup⟩
  · rw [curenv] at cur
    have ne : b ≠ e := by
      rintro rfl
      exact taken.other cur
    exact (others b ne).trans (taken.inv.current b cur)
  · rw [freeList] at mem
    have ne : b ≠ e := by
      rintro rfl
      exact taken.out mem
    exact (others b ne).trans (taken.inv.free b mem)

theorem forked_others {cur e b : EnvPtr} {k : Kernel} (ne : b ≠ e) : (forked cur e k).envs b = k.envs b := by
  simp [forked, Kernel.updateEnv, ne]

theorem sysExofork_envInv {cur : EnvPtr} {k k' : Kernel} (inv : EnvInv k)
    (h : (sysExofork cur k).state = some k') : EnvInv k' := by
  rcases sysExofork_state h with ⟨code, alloc⟩ | ⟨e, mid, alloc, rfl⟩
  · obtain ⟨e, _, setup, freeList⟩ := envAlloc_err alloc
    exact inv.same setup.curenv freeList setup.status
  · obtain ⟨setup, list⟩ := envAlloc_ok alloc
    exact (setup.taken inv list).envInv rfl rfl fun b ne => by rw [forked_others ne]

theorem envCreate_envInv {binary : Binary} {priority : Word} {k k' : Kernel} (inv : EnvInv k)
    (h : (envCreate binary priority k).state = some k') : EnvInv k' := by
  obtain ⟨e, mid, alloc, created, _⟩ := envCreate_state h
  obtain ⟨setup, list⟩ := envAlloc_ok alloc
  exact (setup.taken inv list).envInv created.curenv created.freeList fun b ne => by rw [created.others b ne]

theorem Freed.envInv {e : EnvPtr} {k k' : Kernel} (freed : Freed e k k') (inv : EnvInv k)
    (used : (k.envs e).envStatus ≠ .free) (other : k.curenv ≠ some e) : EnvInv k' := by
  have status : ∀ b, b ≠ e → (k'.envs b).envStatus = (k.envs b).envStatus := fun b ne => by rw [freed.others b ne]
  refine ⟨fun b cur => ?_, ?_, ?_⟩
  · rw [freed.curenv] at cur
    have ne : b ≠ e := by
      rintro rfl
      exact other cur
    exact (status b ne).trans (inv.current b cur)
  · rw [freed.freeList]
    intro b mem
    by_cases same : b = e
    · rw [same, freed.env]
    · exact (status b same).trans (inv.free b (List.mem_of_ne_of_mem same mem))
  · rw [freed.freeList, List.nodup_cons]
    exact ⟨fun mem => used (inv.free e mem), inv.nodup⟩

/-- The tests that take `sys_env_destroy` to the reaping of `e`. -/
structure Reaps (k : Kernel) (cur : EnvPtr) (envid : Word) (e : EnvPtr) : Prop where
  env : envid2env k cur envid true = .ok e
  other : e ≠ cur
  child : (k.envs e).envParentId = (k.envs cur).envId
  zombie : (k.envs e).envStatus = .zombie

theorem envDestroy_state {e : EnvPtr} {k k' : Kernel} (other : k.curenv ≠ some e)
    (h : (envDestroy e k).state = some k') : envFree e k = .ok () k' := by
  rcases Result.bind_state h with ⟨code, h⟩ | ⟨_, mid, free, h⟩
  · exact absurd h (envFree_noErr _ _ _ _)
  · have freed := envFree_ok free
    rw [if_neg (freed.curenv ▸ other)] at h
    cases h
    exact free

theorem exit_state {cur : EnvPtr} {status : Word} {k k' : Kernel}
    (h : (switch (((k.updateEnv cur fun env => { env with envExitStatus := status, envStatus := .zombie }).tailqRemove
      cur).bind fun _ k => schedule true k)).state = some k') :
    ∃ mid, Left cur k mid ∧ mid.envs cur = { k.envs cur with envExitStatus := status, envStatus := .zombie } ∧
      schedule true mid = .ok () k' := by
  rcases Result.bind_state (switch_state h) with ⟨code, h⟩ | ⟨_, left, unlink, h⟩
  · exact absurd h (tailqRemove_noErr _ _ _ _)
  · obtain ⟨q, removed, rfl⟩ := tailqRemove_ok unlink
    refine ⟨_, ⟨?_, ?_, ?_, fun b ne => ?_, ?_, ?_, ?_, ?_⟩, ?_, schedule_state h⟩
    · exact removed
    · rfl
    · simp [Kernel.Runnable, Kernel.updateEnv]
    · simp [Kernel.updateEnv, ne]
    · rfl
    · rfl
    · rfl
    · rfl
    · simp [Kernel.updateEnv]

theorem sysEnvDestroy_state {cur : EnvPtr} {envid status : Word} {k k' : Kernel} (current : k.curenv = some cur)
    (h : (sysEnvDestroy cur envid status k).state = some k') :
    (k' = k ∧ ∀ e, ¬ Reaps k cur envid e) ∨
      (∃ mid, Left cur k mid ∧ mid.envs cur = { k.envs cur with envExitStatus := status, envStatus := .zombie } ∧
        schedule true mid = .ok () k' ∧ ∀ e, ¬ Reaps k cur envid e) ∨
      ∃ e, Reaps k cur envid e ∧ envFree e k = .ok () k' := by
  unfold sysEnvDestroy at h
  split at h
  · rename_i code bad
    cases h
    exact Or.inl ⟨rfl, fun e reaps => by cases bad.symm.trans reaps.env⟩
  · rename_i e env
    have only : ∀ b, Reaps k cur envid b → b = e := fun b reaps => by cases env.symm.trans reaps.env; rfl
    split at h
    · rename_i self
      subst self
      obtain ⟨mid, left, zombie, run⟩ := exit_state h
      exact Or.inr (Or.inl ⟨mid, left, zombie, run, fun b reaps => reaps.other (only b reaps)⟩)
    · rename_i other
      split at h
      · rename_i refused
        cases h
        refine Or.inl ⟨rfl, fun b reaps => ?_⟩
        obtain rfl := only b reaps
        rcases refused with stranger | alive
        · exact stranger reaps.child
        · exact alive reaps.zombie
      · rename_i allowed
        simp only [not_or, not_not] at allowed
        refine Or.inr (Or.inr ⟨e, ⟨env, other, allowed.1, allowed.2⟩, envDestroy_state ?_ (ret_state h)⟩)
        exact fun cur' => other (Option.some.inj (cur'.symm.trans current))

theorem sysEnvDestroy_envInv {cur : EnvPtr} {envid status : Word} {k k' : Kernel} (inv : EnvInv k)
    (current : k.curenv = some cur) (h : (sysEnvDestroy cur envid status k).state = some k') : EnvInv k' := by
  rcases sysEnvDestroy_state current h with ⟨rfl, _⟩ | ⟨mid, left, _, h, _⟩ | ⟨e, reaps, free⟩
  · exact inv
  · exact left.envInv inv current h
  · refine (envFree_ok free).envInv inv (inv.target_used current reaps.env) ?_
    exact fun cur' => reaps.other (Option.some.inj (cur'.symm.trans current))

/-- How `sys_set_env_status` leaves the queue of `k` for the env `e` and its new status. -/
inductive Requeued (k : Kernel) (e : EnvPtr) (status : EnvStatus) : TailQueue.Links EnvPtr → Prop where
  | linked (now : status = .runnable) (idle : ¬ k.Runnable e) : Requeued k e status (k.envSchedList.insertTail e)
  | unlinked {q : TailQueue.Links EnvPtr} (now : status = .notRunnable) (was : (k.envs e).envStatus ≠ .notRunnable)
      (removed : k.envSchedList.remove e = some q) : Requeued k e status q
  | kept (same : (k.envs e).envStatus = status) : Requeued k e status k.envSchedList

/-- What `sys_set_env_status` changes before the scheduler may run. -/
def setStatus (k : Kernel) (e : EnvPtr) (status : EnvStatus) (q : TailQueue.Links EnvPtr) : Kernel :=
  { k with envSchedList := q }.updateEnv e fun env => { env with envStatus := status }

theorem setStatus_others {k : Kernel} {e b : EnvPtr} {status : EnvStatus} {q : TailQueue.Links EnvPtr} (ne : b ≠ e) :
    (setStatus k e status q).envs b = k.envs b := by
  simp [setStatus, Kernel.updateEnv, ne]

theorem setStatus_self (k : Kernel) (e : EnvPtr) (status : EnvStatus) (q : TailQueue.Links EnvPtr) :
    (setStatus k e status q).envs e = { k.envs e with envStatus := status } := by
  simp [setStatus, Kernel.updateEnv]

theorem setEnvStatus_state {cur e : EnvPtr} {status : EnvStatus} {k k' : Kernel}
    (target : status = .runnable ∨ status = .notRunnable) (h : (setEnvStatus cur e status k).state = some k') :
    ∃ q, Requeued k e status q ∧
      if e = cur then schedule true (setStatus k e status q) = .ok () k' else k' = setStatus k e status q := by
  have finish : ∀ mid : Kernel, Result.state (if e = cur then switch (schedule true mid) else .ok (some 0) mid : SysRes)
      = some k' → if e = cur then schedule true mid = .ok () k' else k' = mid := by
    intro mid h
    split at h
    · rename_i self
      simpa only [self, if_true] using schedule_state (switch_state h)
    · rename_i other
      cases h
      simp only [other, if_false]
  unfold setEnvStatus at h
  split at h
  · rename_i link
    exact ⟨_, .linked link.1 link.2, finish _ h⟩
  · rename_i noLink
    split at h
    · rename_i unlink
      rcases Result.bind_state h with ⟨code, h⟩ | ⟨_, mid, removed, h⟩
      · exact absurd h (tailqRemove_noErr _ _ _ _)
      · obtain ⟨q, first, rfl⟩ := tailqRemove_ok removed
        exact ⟨q, .unlinked unlink.1 unlink.2 first, finish _ h⟩
    · rename_i noUnlink
      refine ⟨_, .kept ?_, finish _ h⟩
      rcases target with rfl | rfl
      · simpa using noLink
      · simpa using noUnlink

/-- The status that `sys_set_env_status` sets for its argument. -/
def statusOf (status : Word) : EnvStatus := if status = EnvStatus.runnable.code then .runnable else .notRunnable

/-- The checks of `sys_set_env_status`. -/
structure Sets (k : Kernel) (cur : EnvPtr) (envid status : Word) (e : EnvPtr) : Prop where
  valid : status = EnvStatus.runnable.code ∨ status = EnvStatus.notRunnable.code
  env : envid2env k cur envid true = .ok e

theorem sysSetEnvStatus_state {cur : EnvPtr} {envid status : Word} {k k' : Kernel}
    (h : (sysSetEnvStatus cur envid status k).state = some k') :
    (k' = k ∧ ∀ e, ¬ Sets k cur envid status e) ∨
      ∃ e q, Sets k cur envid status e ∧ Requeued k e (statusOf status) q ∧
        if e = cur then schedule true (setStatus k e (statusOf status) q) = .ok () k'
        else k' = setStatus k e (statusOf status) q := by
  unfold sysSetEnvStatus at h
  split at h
  · rename_i bad
    cases h
    exact Or.inl ⟨rfl, fun e sets => sets.valid.elim bad.1 bad.2⟩
  · rename_i valid
    rcases tryEnv_state h with ⟨rfl, code, bad⟩ | ⟨e, env, h⟩
    · exact Or.inl ⟨rfl, fun e sets => by cases bad.symm.trans sets.env⟩
    · have sets : Sets k cur envid status e := ⟨by tauto, env⟩
      have target : statusOf status = .runnable ∨ statusOf status = .notRunnable := by
        unfold statusOf
        split
        · exact Or.inl rfl
        · exact Or.inr rfl
      obtain ⟨q, requeued, h⟩ := setEnvStatus_state target h
      exact Or.inr ⟨e, q, sets, requeued, h⟩

theorem sysSetEnvStatus_envInv {cur : EnvPtr} {envid status : Word} {k k' : Kernel} (inv : EnvInv k)
    (current : k.curenv = some cur) (h : (sysSetEnvStatus cur envid status k).state = some k') : EnvInv k' := by
  rcases sysSetEnvStatus_state h with ⟨rfl, _⟩ | ⟨e, q, sets, _, h⟩
  · exact inv
  · have used := inv.target_used current sets.env
    split at h
    · refine schedule_envInv (fun b mem => ?_) ?_ h
      · have ne : b ≠ e := by
          rintro rfl
          exact used (inv.free b mem)
        rw [setStatus_others ne]
        exact inv.free b mem
      · exact inv.nodup
    · rename_i other
      subst h
      refine inv.change used rfl rfl (fun b ne => by rw [setStatus_others ne]) fun cur' => ?_
      exact absurd (Option.some.inj (cur'.symm.trans current)) other

theorem ipcDeliver_others {cur e b : EnvPtr} {value perm : Word} {k : Kernel} (ne : b ≠ e) :
    (ipcDeliver cur e value perm k).envs b = k.envs b := by
  simp [ipcDeliver, Kernel.tailqInsertTail, Kernel.updateEnv, ne]

theorem ipcDeliver_self (cur e : EnvPtr) (value perm : Word) (k : Kernel) :
    (ipcDeliver cur e value perm k).envs e = { k.envs e with
      envIpcValue := value, envIpcFrom := (k.envs cur).envId, envIpcPerm := pteV ||| perm,
      envIpcRecving := 0, envStatus := .runnable } := by
  simp [ipcDeliver, Kernel.tailqInsertTail, Kernel.updateEnv]

theorem ipcDeliver_pgdir (cur e b : EnvPtr) (value perm : Word) (k : Kernel) :
    ((ipcDeliver cur e value perm k).envs b).envPgdir = (k.envs b).envPgdir := by
  by_cases here : b = e
  · rw [here, ipcDeliver_self]
  · rw [ipcDeliver_others here]

theorem sysIpcTrySend_envInv {cur : EnvPtr} {envid value srcva perm : Word} {k k' : Kernel} (inv : EnvInv k)
    (current : k.curenv = some cur) (h : (sysIpcTrySend cur envid value srcva perm k).state = some k') : EnvInv k' := by
  rcases sysIpcTrySend_state h with ⟨rfl, _⟩ | ⟨e, vm, accepts, rfl⟩
  · exact inv
  · refine EnvInv.putVm ?_ vm
    refine inv.change (inv.target_used current accepts.env) rfl rfl (fun b ne => by rw [ipcDeliver_others ne]) fun _ => ?_
    rw [Kernel.Runnable, ipcDeliver_self]

theorem syscall_envInv {cur : EnvPtr} {call : Call} {k k' : Kernel} (inv : EnvInv k) (current : k.curenv = some cur)
    (h : (syscallTable cur call k).state = some k') : EnvInv k' := by
  cases call with
  | yield => exact schedule_envInv inv.free inv.nodup (schedule_state (switch_state h))
  | memAlloc envid va perm =>
    obtain ⟨vm, rfl⟩ := sysMemAlloc_state h
    exact inv.putVm vm
  | memMap srcid srcva dstid dstva perm =>
    obtain ⟨vm, rfl⟩ := sysMemMap_state h
    exact inv.putVm vm
  | memUnmap envid va =>
    obtain ⟨vm, rfl⟩ := sysMemUnmap_state h
    exact inv.putVm vm
  | exofork => exact sysExofork_envInv inv h
  | ipcRecv dstva => exact sysIpcRecv_envInv inv current h
  | envDestroy envid status => exact sysEnvDestroy_envInv inv current h
  | setEnvStatus envid status => exact sysSetEnvStatus_envInv inv current h
  | ipcTrySend envid value srcva perm => exact sysIpcTrySend_envInv inv current h

theorem step_envInv {op : Op} {k k' : Kernel} (inv : EnvInv k) (h : step k op = some k') : EnvInv k' := by
  cases op with
  | syscall tf call =>
    obtain ⟨cur, current, h⟩ := Option.bind_eq_some_iff.mp h
    obtain ⟨after, mid, called, rfl⟩ := doSyscall_state h
    have trapped : EnvInv (k.trap tf) := inv.setFrame _
    exact (syscall_envInv trapped current called).setFrame after
  | timer tf => exact schedule_envInv (inv.setFrame tf).free inv.nodup (schedule_state h)
  | tlbRefill va victim =>
    obtain ⟨cur, _, h⟩ := Option.bind_eq_some_iff.mp h
    obtain ⟨vm, rfl⟩ := withVm_state h
    exact inv.putVm vm
  | envCreate binary priority => exact envCreate_envInv inv h

theorem boot_envInv {npage : Nat} {mem : Nat → Nat → Word} {k : Kernel} (booted : boot npage mem = some k) :
    EnvInv k := by
  obtain ⟨p, vm, _, _, rfl⟩ := boot_init booted
  refine ⟨fun e cur => ?_, fun e _ => rfl, ?_⟩
  · cases cur
  · simp only [initKernel]
    exact List.nodup_finRange 1024

end Mos
