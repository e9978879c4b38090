import Mos.Kern.EnvInv

namespace Mos

open TailQueue

/-- `env_sched_list` is a well-formed tail queue of exactly the runnable envs. -/
def WellQueued (k : Kernel) : Prop := ∃ l, Repr k.envSchedList l ∧ ∀ e, e ∈ l ↔ k.Runnable e

theorem WellQueued.same {k k' : Kernel} (queued : WellQueued k) (sched : k'.envSchedList = k.envSchedList)
    (status : ∀ e, (k'.envs e).envStatus = (k.envs e).envStatus) : WellQueued k' := by
  obtain ⟨l, repr, mem⟩ := queued
  refine ⟨l, sched ▸ repr, fun e => ?_⟩
  rw [mem, Kernel.Runnable, Kernel.Runnable, status]

theorem WellQueued.aside {k k' : Kernel} {e : EnvPtr} (queued : WellQueued k) (idle : ¬ k.Runnable e)
    (sched : k'.envSchedList = k.envSchedList) (now : ¬ k'.Runnable e)
    (others : ∀ b, b ≠ e → (k'.envs b).envStatus = (k.envs b).envStatus) : WellQueued k' := by
  obtain ⟨l, repr, mem⟩ := queued
  refine ⟨l, sched ▸ repr, fun b => ?_⟩
  by_cases same : b = e
  · subst same
    exact ⟨fun inside => absurd ((mem b).mp inside) idle, fun runnable => absurd runnable now⟩
  · rw [mem, Kernel.Runnable, Kernel.Runnable, others b same]

theorem WellQueued.insertTail {k k' : Kernel} {e : EnvPtr} (queued : WellQueued k) (idle : ¬ k.Runnable e)
    (sched : k'.envSchedList = k.envSchedList.insertTail e) (now : k'.Runnable e)
    (others : ∀ b, b ≠ e → (k'.envs b).envStatus = (k.envs b).envStatus) : WellQueued k' := by
  obtain ⟨l, repr, mem⟩ := queued
  refine ⟨l ++ [e], sched ▸ repr.insertTail (fun inside => idle ((mem e).mp inside)), fun b => ?_⟩
  by_cases same : b = e
  · subst same
    simpa using now
  · simp [mem, Kernel.Runnable, others b same, same]

theorem WellQueued.insertHead {k k' : Kernel} {e : EnvPtr} (queued : WellQueued k) (idle : ¬ k.Runnable e)
    (sched : k'.envSchedList = k.envSchedList.insertHead e) (now : k'.Runnable e)
    (others : ∀ b, b ≠ e → (k'.envs b).envStatus = (k.envs b).envStatus) : WellQueued k' := by
  obtain ⟨l, repr, mem⟩ := queued
  refine ⟨e :: l, sched ▸ repr.insertHead (fun inside => idle ((mem e).mp inside)), fun b => ?_⟩
  by_cases same : b = e
  · subst same
    simpa using now
  · simp [mem, Kernel.Runnable, others b same, same]

theorem WellQueued.remove {k k' : Kernel} {e : EnvPtr} (queued : WellQueued k) (runnable : k.Runnable e)
    (sched : k.envSchedList.remove e = some k'.envSchedList) (now : ¬ k'.Runnable e)
    (others : ∀ b, b ≠ e → (k'.envs b).envStatus = (k.envs b).envStatus) : WellQueued k' := by
  obtain ⟨l, repr, mem⟩ := queued
  obtain ⟨q, removed, left⟩ := repr.remove ((mem e).mpr runnable)
  obtain rfl : q = k'.envSchedList := Option.some.inj (removed.symm.trans sched)
  refine ⟨l.erase e, left, fun b => ?_⟩
  rw [repr.nodup.mem_erase_iff]
  by_cases same : b = e
  · subst same
    simpa using now
  · simp [mem, Kernel.Runnable, others b same, same]

/-- Unlinking an env that is not in the queue writes back what the queue already holds. -/
def UnlinkIdle (k : Kernel) (e : EnvPtr) : Prop := Idle k.envSchedList k.Runnable e

theorem wellQueued_unlink_iff {k k' : Kernel} {e : EnvPtr} (queued : WellQueued k) (idle : ¬ k.Runnable e)
    (sched : k.envSchedList.remove e = some k'.envSchedList) (now : ¬ k'.Runnable e)
    (others : ∀ b, b ≠ e → (k'.envs b).envStatus = (k.envs b).envStatus) : WellQueued k' ↔ UnlinkIdle k e := by
  obtain ⟨l, repr, mem⟩ := queued
  have same : ∀ b, k'.Runnable b ↔ k.Runnable b := by
    intro b
    by_cases eq : b = e
    · subst eq
      exact ⟨fun h => absurd h now, fun h => absurd h idle⟩
    · rw [Kernel.Runnable, Kernel.Runnable, others b eq]
  have queuedEq : (· ∈ l) = k.Runnable := funext fun b => propext (mem b)
  constructor
  · rintro ⟨l', repr', mem'⟩
    have stale := repr.idle_of_remove sched repr' fun b => ((mem' b).trans (same b)).trans (mem b).symm
    rwa [queuedEq] at stale
  · intro stale
    refine ⟨l, repr.remove_idle ?_ sched, fun b => (mem b).trans (same b).symm⟩
    rwa [queuedEq]

theorem not_wellQueued_twice {k k' : Kernel} {e : EnvPtr} (queued : WellQueued k) (runnable : k.Runnable e)
    (sched : k'.envSchedList = k.envSchedList.insertTail e) : ¬ WellQueued k' := by
  rintro ⟨l', repr', _⟩
  obtain ⟨l, repr, mem⟩ := queued
  exact repr.not_insertTail ((mem e).mpr runnable) (sched ▸ repr')

theorem schedule_queue {yield : Bool} {k k' : Kernel} (queued : WellQueued k) (h : schedule yield k = .ok () k') :
    WellQueued k' := by
  obtain ⟨e, choice, resumed⟩ := schedule_ok h
  have status : ∀ b, (k'.envs b).envStatus = (k.envs b).envStatus := fun b => (resumed.envs b).status
  generalize sched : k'.envSchedList = q at choice
  cases choice with
  | again _ => exact queued.same sched status
  | head _ _ => exact queued.same sched status
  | @rotated cur q current removed _ =>
    obtain ⟨l, repr, mem⟩ := queued
    have inside : cur ∈ l := (mem cur).mpr (curRunnable_some current).2
    obtain ⟨q', removed', left⟩ := repr.remove inside
    obtain rfl := Option.some.inj (removed'.symm.trans removed)
    have fresh : cur ∉ l.erase cur := fun again => (repr.nodup.mem_erase_iff.mp again).1 rfl
    refine ⟨l.erase cur ++ [cur], sched ▸ left.insertTail fresh, fun b => ?_⟩
    rw [Kernel.Runnable, status, List.mem_append, repr.nodup.mem_erase_iff, mem, List.mem_singleton]
    constructor
    · rintro (⟨_, runnable⟩ | rfl)
      · exact runnable
      · exact (mem _).mp inside
    · intro runnable
      by_cases same : b = cur
      · exact Or.inr same
      · exact Or.inl ⟨same, runnable⟩

theorem Left.queue {cur : EnvPtr} {k mid k' : Kernel} (left : Left cur k mid) (queued : WellQueued k)
    (runnable : k.Runnable cur) (h : schedule true mid = .ok () k') : WellQueued k' :=
  schedule_queue (queued.remove runnable left.removed left.now fun b ne => by rw [left.others b ne]) h

theorem sysExofork_queue {cur : EnvPtr} {k k' : Kernel} (inv : EnvInv k) (queued : WellQueued k)
    (h : (sysExofork cur k).state = some k') : WellQueued k' := by
  rcases sysExofork_state h with ⟨code, alloc⟩ | ⟨e, mid, alloc, rfl⟩
  · obtain ⟨e, _, setup, _⟩ := envAlloc_err alloc
    exact queued.same setup.sched setup.status
  · obtain ⟨setup, list⟩ := envAlloc_ok alloc
    have taken := setup.taken inv list
    have idle : ¬ mid.Runnable e := by simp [Kernel.Runnable, taken.free]
    refine (queued.same setup.sched setup.status).aside idle rfl ?_ fun b ne => by rw [forked_others ne]
    simp [Kernel.Runnable, forked, Kernel.updateEnv]

theorem envCreate_queue {binary : Binary} {priority : Word} {k k' : Kernel} (inv : EnvInv k) (queued : WellQueued k)
    (h : (envCreate binary priority k).state = some k') : WellQueued k' := by
  obtain ⟨e, mid, alloc, created, _⟩ := envCreate_state h
  obtain ⟨setup, list⟩ := envAlloc_ok alloc
  have taken := setup.taken inv list
  have idle : ¬ mid.Runnable e := by simp [Kernel.Runnable, taken.free]
  refine (queued.same setup.sched setup.status).insertHead idle created.sched ?_ fun b ne => by rw [created.others b ne]
  rw [Kernel.Runnable, created.env]

theorem sysEnvDestroy_queue {cur : EnvPtr} {envid status : Word} {k k' : Kernel} (inv : EnvInv k)
    (queued : WellQueued k) (current : k.curenv = some cur)
    (h : (sysEnvDestroy cur envid status k).state = some k') :
    WellQueued k' ↔ ∀ e, Reaps k cur envid e → UnlinkIdle k e := by
  rcases sysEnvDestroy_state current h with ⟨rfl, no⟩ | ⟨mid, left, _, h, no⟩ | ⟨e, reaps, free⟩
  · exact iff_of_true queued fun e reaps => absurd reaps (no e)
  · exact iff_of_true (left.queue queued (inv.current cur current) h) fun e reaps => absurd reaps (no e)
  · have freed := envFree_ok free
    have idle : ¬ k.Runnable e := by simp [Kernel.Runnable, reaps.zombie]
    have now : ¬ k'.Runnable e := by simp [Kernel.Runnable, freed.env]
    have unlink := wellQueued_unlink_iff queued idle freed.unlinked now fun b ne => by rw [freed.others b ne]
    refine unlink.trans ⟨fun stale b again => ?_, fun all => all e reaps⟩
    cases reaps.env.symm.trans again.env
    exact stale

theorem Requeued.queue {e : EnvPtr} {status : EnvStatus} {q : TailQueue.Links EnvPtr} {k : Kernel}
    (queued : WellQueued k) (requeued : Requeued k e status q) (used : (k.envs e).envStatus ≠ .free) :
    WellQueued (setStatus k e status q) ↔
      ((k.envs e).envStatus = .zombie → status = .notRunnable → UnlinkIdle k e) := by
  have others : ∀ b, b ≠ e → ((setStatus k e status q).envs b).envStatus = (k.envs b).envStatus :=
    fun b ne => by rw [setStatus_others ne]
  cases requeued with
  | linked now idle =>
    refine ⟨fun _ _ stop => (by cases now.symm.trans stop), fun _ => ?_⟩
    exact queued.insertTail idle rfl (by rw [Kernel.Runnable, setStatus_self]; exact now) others
  | @unlinked q now was removed =>
    have left : ¬ (setStatus k e status q).Runnable e := by simp [Kernel.Runnable, setStatus_self, now]
    cases old : (k.envs e).envStatus with
    | free => exact absurd old used
    | notRunnable => exact absurd old was
    | runnable => exact ⟨fun _ zombie => (by cases zombie), fun _ => queued.remove old removed left others⟩
    | zombie =>
      have idle : ¬ k.Runnable e := by simp [Kernel.Runnable, old]
      have unlink := wellQueued_unlink_iff queued idle removed left others
      exact ⟨fun queued _ _ => unlink.mp queued, fun stale => unlink.mpr (stale rfl now)⟩
  | kept same =>
    refine ⟨fun _ zombie stop => ?_, fun _ => queued.same rfl fun b => ?_⟩
    · cases zombie.symm.trans (same.trans stop)
    · by_cases eq : b = e
      · rw [eq, setStatus_self, same]
      · exact others b eq

/-- The tests that take `sys_set_env_status` to the unlinking of a zombie child. -/
structure Suspends (k : Kernel) (cur : EnvPtr) (envid status : Word) (e : EnvPtr) : Prop where
  env : envid2env k cur envid true = .ok e
  zombie : (k.envs e).envStatus = .zombie
  status : status = EnvStatus.notRunnable.code

theorem statusOf_notRunnable {status : Word}
    (valid : status = EnvStatus.runnable.code ∨ status = EnvStatus.notRunnable.code) :
    statusOf status = .notRunnable ↔ status = EnvStatus.notRunnable.code := by
  rcases valid with rfl | rfl <;> decide

theorem sysSetEnvStatus_queue {cur : EnvPtr} {envid status : Word} {k k' : Kernel} (inv : EnvInv k)
    (queued : WellQueued k) (current : k.curenv = some cur)
    (h : (sysSetEnvStatus cur envid status k).state = some k') :
    WellQueued k' ↔ ∀ e, Suspends k cur envid status e → UnlinkIdle k e := by
  rcases sysSetEnvStatus_state h with ⟨rfl, no⟩ | ⟨e, q, sets, requeued, done⟩
  · exact iff_of_true queued fun e suspends => absurd ⟨Or.inr suspends.status, suspends.env⟩ (no e)
  · have iff := requeued.queue queued (inv.target_used current sets.env)
    have only : ∀ b, Suspends k cur envid status b → b = e := fun b s => by cases sets.env.symm.trans s.env; rfl
    split at done
    · rename_i self
      subst self
      have alive : ∀ b, ¬ Suspends k e envid status b := by
        intro b suspends
        obtain rfl := only b suspends
        cases suspends.zombie.symm.trans (inv.current b current)
      have kept := schedule_queue (iff.mpr fun zombie => by cases zombie.symm.trans (inv.current e current)) done
      exact iff_of_true kept fun b suspends => absurd suspends (alive b)
    · subst done
      refine iff.trans ⟨fun stale b suspends => ?_, fun all zombie stop => all e ⟨sets.env, zombie, ?_⟩⟩
      · obtain rfl := only b suspends
        exact stale suspends.zombie ((statusOf_notRunnable sets.valid).mpr suspends.status)
      · exact (statusOf_notRunnable sets.valid).mp stop

theorem sysIpcTrySend_queue {cur : EnvPtr} {envid value srcva perm : Word} {k k' : Kernel} (queued : WellQueued k)
    (h : (sysIpcTrySend cur envid value srcva perm k).state = some k') :
    WellQueued k' ↔ ∀ e, Accepts k cur envid srcva e → ¬ k.Runnable e := by
  rcases sysIpcTrySend_state h with ⟨rfl, refused⟩ | ⟨e, vm, accepts, rfl⟩
  · exact iff_of_true queued fun e accepts => absurd accepts (refused e)
  · have now : ((ipcDeliver cur e value perm k).putVm vm).Runnable e :=
      congrArg Env.envStatus (ipcDeliver_self cur e value perm k)
    refine ⟨fun again b accepts' runnable => ?_, fun idle => ?_⟩
    · cases accepts.env.symm.trans accepts'.env
      exact not_wellQueued_twice queued runnable rfl again
    · exact queued.insertTail (idle e accepts) rfl now fun b ne => congrArg Env.envStatus (ipcDeliver_others ne)

/-- The condition on a system call under which the queue survives it: an env that is not in the queue is
    unlinked only while its links still match the queue, and no message goes to a runnable env. -/
def QueueGuard (k : Kernel) : Op → Prop
  | .syscall _ (.envDestroy envid _) => ∀ cur e, k.curenv = some cur → Reaps k cur envid e → UnlinkIdle k e
  | .syscall _ (.setEnvStatus envid status) =>
      ∀ cur e, k.curenv = some cur → Suspends k cur envid status e → UnlinkIdle k e
  | .syscall _ (.ipcTrySend envid _ srcva _) =>
      ∀ cur e, k.curenv = some cur → Accepts k cur envid srcva e → ¬ k.Runnable e
  | _ => True

theorem syscall_queue {cur : EnvPtr} {tf : Trapframe} {call : Call} {k k' : Kernel} (inv : EnvInv k)
    (queued : WellQueued k) (current : k.curenv = some cur)
    (h : (syscallTable cur call (k.trap tf)).state = some k') :
    WellQueued k' ↔ QueueGuard k (.syscall tf call) := by
  have inv' : EnvInv (k.trap tf) := inv.setFrame _
  have queued' : WellQueued (k.trap tf) := queued
  have only : ∀ {p : EnvPtr → EnvPtr → Prop}, (∀ c e, k.curenv = some c → p c e) ↔ ∀ e, p cur e := by
    intro p
    refine ⟨fun all e => all cur e current, fun all c e cur' => ?_⟩
    cases cur'.symm.trans current
    exact all e
  cases call with
  | yield => exact iff_of_true (schedule_queue queued' (schedule_state (switch_state h))) trivial
  | memAlloc envid va perm =>
    obtain ⟨vm, rfl⟩ := sysMemAlloc_state h
    exact iff_of_true queued trivial
  | memMap srcid srcva dstid dstva perm =>
    obtain ⟨vm, rfl⟩ := sysMemMap_state h
    exact iff_of_true queued trivial
  | memUnmap envid va =>
    obtain ⟨vm, rfl⟩ := sysMemUnmap_state h
    exact iff_of_true queued trivial
  | exofork => exact iff_of_true (sysExofork_queue inv' queued' h) trivial
  | ipcRecv dstva =>
    refine iff_of_true ?_ trivial
    rcases sysIpcRecv_state h with ⟨_, rfl⟩ | ⟨_, mid, left, _, h⟩
    · exact queued
    · exact left.queue queued' (inv.current cur current) h
  | envDestroy envid status =>
    refine (sysEnvDestroy_queue inv' queued' current h).trans (Iff.trans ?_ only.symm)
    exact forall_congr' fun e => imp_congr ⟨fun r => ⟨r.1, r.2, r.3, r.4⟩, fun r => ⟨r.1, r.2, r.3, r.4⟩⟩ Iff.rfl
  | setEnvStatus envid status =>
    refine (sysSetEnvStatus_queue inv' queued' current h).trans (Iff.trans ?_ only.symm)
    exact forall_congr' fun e => imp_congr ⟨fun r => ⟨r.1, r.2, r.3⟩, fun r => ⟨r.1, r.2, r.3⟩⟩ Iff.rfl
  | ipcTrySend envid value srcva perm =>
    refine (sysIpcTrySend_queue queued' h).trans (Iff.trans ?_ only.symm)
    exact forall_congr' fun e => imp_congr ⟨fun r => ⟨r.1, r.2, r.3⟩, fun r => ⟨r.1, r.2, r.3⟩⟩ Iff.rfl

theorem step_queue {op : Op} {k k' : Kernel} (inv : EnvInv k) (queued : WellQueued k) (h : step k op = some k') :
    WellQueued k' ↔ QueueGuard k op := by
  cases op with
  | syscall tf call =>
    obtain ⟨cur, current, h⟩ := Option.bind_eq_some_iff.mp h
    obtain ⟨after, mid, called, rfl⟩ := doSyscall_state h
    have same : WellQueued { mid with tf := after } ↔ WellQueued mid := Iff.rfl
    exact same.trans (syscall_queue inv queued current called)
  | timer tf =>
    have queued' : WellQueued { k with tf := tf } := queued
    exact iff_of_true (schedule_queue queued' (schedule_state h)) trivial
  | tlbRefill va victim =>
    obtain ⟨cur, _, h⟩ := Option.bind_eq_some_iff.mp h
    obtain ⟨vm, rfl⟩ := withVm_state h
    exact iff_of_true queued trivial
  | envCreate binary priority => exact iff_of_true (envCreate_queue inv queued h) trivial

theorem boot_queue {npage : Nat} {mem : Nat → Nat → Word} {k : Kernel} (booted : boot npage mem = some k) :
    WellQueued k := by
  obtain ⟨p, vm, _, _, rfl⟩ := boot_init booted
  refine ⟨[], init_repr _ _, fun e => ?_⟩
  simp [Kernel.Runnable, initKernel, zeroEnv]

/-- From boot, the queue holds exactly the runnable envs in every state a run reaches if and only if every
    system call of the run meets `QueueGuard`. -/
theorem schedList_runnable_iff {npage : Nat} {mem : Nat → Nat → Word} {k0 k : Kernel} {ops : List Op}
    (booted : boot npage mem = some k0) (run : Run step (fun _ _ => True) k0 ops k) :
    Run step QueueGuard k0 ops k ↔
      ∀ pre mid, pre <+: ops → Run step (fun _ _ => True) k0 pre mid → WellQueued mid :=
  run.guarded_iff (fun k => EnvInv k ∧ WellQueued k) ⟨boot_envInv booted, boot_queue booted⟩
    (fun _ inv => inv.2) (fun _ _ _ inv meets next => ⟨step_envInv inv.1 next, (step_queue inv.1 inv.2 next).mpr meets⟩)
    fun _ _ _ inv next queued => (step_queue inv.1 inv.2 next).mp queued

/-- Two envs and a forked child take turns; nobody exits. -/
def forkRun : List Op :=
  [.envCreate emptyBinary 1, .envCreate emptyBinary 1, .timer zeroFrame, .call .exofork, .call .yield,
    .call (.ipcRecv 0), .timer zeroFrame]

set_option maxRecDepth 100000 in
theorem schedList_runnable_iff_forkRun : ∃ k0 k, clearBoot = some k0 ∧ Run step QueueGuard k0 forkRun k ∧ WellQueued k := by
  have check : (clearBoot.bind fun k0 => Run.exec step k0 forkRun).isSome = true := by
    rw [clearBoot_eq]
    decide +kernel
  obtain ⟨k, check⟩ := Option.isSome_iff_exists.mp check
  obtain ⟨k0, booted, exec⟩ := Option.bind_eq_some_iff.mp check
  have guarded : Run step QueueGuard k0 forkRun k := by
    refine Run.of_exec (fun op mem t => ?_) exec
    simp only [forkRun, List.mem_cons, List.not_mem_nil, or_false] at mem
    rcases mem with rfl | rfl | rfl | rfl | rfl | rfl | rfl <;> trivial
  have run := guarded.weaken (fun _ _ _ => trivial)
  exact ⟨k0, k, booted, guarded, (schedList_runnable_iff booted run).mp guarded _ k (List.prefix_refl _) run⟩

/-- The child 6146 of env 1 exits at the head of the queue, env 0 yields and env 1 reaps the child. -/
def reapRun : List Op :=
  [.envCreate emptyBinary 1, .envCreate emptyBinary 1, .timer zeroFrame, .call .yield, .call (.ipcRecv 0),
    .call .exofork, .call (.setEnvStatus 6146 1), .call (.ipcTrySend 2048 0 0 0), .call .yield,
    .call (.envDestroy 0 0), .call .yield, .call (.envDestroy 6146 0)]

set_option maxRecDepth 100000 in
theorem schedList_loses_runnable : ∃ k0 k, clearBoot = some k0 ∧ Run step (fun _ _ => True) k0 reapRun k ∧
    ¬ WellQueued k := by
  have check : (clearBoot.bind fun k0 => (Run.exec step k0 reapRun).map fun k =>
      (k.envSchedList.first, k.envSchedList.next 0, (k.envs 1).envStatus)) = some (some 0, none, .runnable) := by
    rw [clearBoot_eq]
    decide +kernel
  obtain ⟨k0, booted, check⟩ := Option.bind_eq_some_iff.mp check
  obtain ⟨k, exec, check⟩ := Option.map_eq_some_iff.mp check
  simp only [Prod.mk.injEq] at check
  refine ⟨k0, k, booted, Run.of_exec (fun _ _ _ => trivial) exec, fun queued => ?_⟩
  obtain ⟨l, repr, mem⟩ := queued
  have inside : (1 : EnvPtr) ∈ l := (mem 1).mpr check.2.2
  rw [repr.single check.1 check.2.1] at inside
  exact absurd inside (by decide)

end Mos
