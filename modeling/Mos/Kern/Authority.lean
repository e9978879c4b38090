import Mos.Kern.MachineRun

namespace Mos

/-- What a step leaves of an env: its fields, its translations below `UTOP` and its variables. -/
structure Spared (k k' : Kernel) (y : EnvPtr) : Prop where
  env : (k.envs y).Resumed (k'.envs y)
  pages : ∀ s : VPage, ¬ Shared s.1 → leaf (rootsOf k') k'.vm y s = leaf (rootsOf k) k.vm y s
  vars : ∀ v, (k.envs y).envVars = some v → k'.vm.mem v = k.vm.mem v

/-- The env `y` is in `k'` as it was in `k`, with the frame that it goes on with. -/
structure Unaffected (k k' : Kernel) (y : EnvPtr) : Prop extends Spared k k' y where
  frame : k'.frameOf y = k.frameOf y

def Env.Woken (a b : Env) : Prop :=
  ∃ value sender perm, b = { a with
    envIpcValue := value, envIpcFrom := sender, envIpcPerm := perm, envIpcRecving := 0, envStatus := .runnable }

/-- What a step leaves of an env that it wakes: at its `env_ipc_dstva` a page may be mapped. -/
structure Woken (k k' : Kernel) (y : EnvPtr) : Prop where
  env : (k.envs y).Woken (k'.envs y)
  pages : ∀ s : VPage, ¬ Shared s.1 → s ≠ vpageOf (k.envs y).envIpcDstva →
    leaf (rootsOf k') k'.vm y s = leaf (rootsOf k) k.vm y s
  vars : ∀ v, (k.envs y).envVars = some v → k'.vm.mem v = k.vm.mem v

/-- A message has come to `y`, which was blocked in `sys_ipc_recv`. -/
structure Delivered (k k' : Kernel) (y : EnvPtr) : Prop extends Woken k k' y where
  recving : (k.envs y).envIpcRecving = 1
  blocked : (k.envs y).envStatus = .notRunnable
  frame : k'.frameOf y = k.frameOf y

/-- The system call of `tf` is a `sys_ipc_try_send` that `y` accepts. -/
def Wakes (k : Kernel) (cur : EnvPtr) (tf : Trapframe) (y : EnvPtr) : Prop :=
  tf.regs 4 = 13 ∧ Accepts k cur (tf.regs 5) (tf.regs 7) y

/-- The call of `cur` leaves each env that is neither `cur` nor its child alone, unless it delivers a message to it. -/
def Authority (k k' : Kernel) (cur : EnvPtr) (tf : Trapframe) : Prop :=
  ∀ y, (k.envs y).envStatus ≠ .free → ¬ k.table.Controls cur y →
    Unaffected k k' y ∨ tf.regs 4 = 13 ∧ Delivered k k' y

variable {managed : Nat → Prop} {k k' mid : Kernel} {cur y : EnvPtr} {tf : Trapframe} {out : Outside}

namespace Spared

theorem refl (k : Kernel) (y : EnvPtr) : Spared k k y := ⟨.refl _, fun _ _ => rfl, fun _ _ => rfl⟩

theorem trans (first : Spared k mid y) (second : Spared mid k' y) : Spared k k' y := by
  refine ⟨first.env.trans second.env, fun s own => (second.pages s own).trans (first.pages s own), fun v has => ?_⟩
  have has' : (mid.envs y).envVars = some v := by
    rw [first.env]
    exact has
  exact (second.vars v has').trans (first.vars v has)

end Spared

theorem Serve.spared (serve : Serve cur k k') (inv : MachineInv k) (used : (k.envs y).envStatus ≠ .free)
    (stranger : ¬ k.table.Controls cur y) : Spared k k' y := by
  obtain ⟨managed, pages, tlb⟩ := inv.pages
  have env : k'.envs y = k.envs y := by
    cases serve with
    | frame tf => rfl
    | @tune e f controls _ =>
      have ne : y ≠ e := fun eq => stranger (eq ▸ controls)
      simp [Kernel.updateEnv, ne]
    | write words mine full => rfl
  refine ⟨env ▸ .refl _, fun s _ => ?_, fun v has => ?_⟩
  · rw [serve.roots]
    rcases serve.vm with vm | ⟨r, q, words, mine, full, vm⟩
    · rw [vm]
    · have same : leaf (rootsOf k) k'.vm y = leaf (rootsOf k) k.vm y := by
        refine leaf_congr pages.pages tlb.template (fun r' p kind there => ?_) fun p foreign => ?_
        · have other : p ≠ q := fun eq => mine.notTable pages.pages full r' kind (eq ▸ there)
          rw [vm]
          exact Function.update_of_ne other _ _
        · have other : p ≠ q := fun eq => foreign (eq ▸ pages.pages.owned r q full)
          rw [vm]
          exact Function.update_of_ne other _ _
      rw [same]
  · rcases serve.vm with vm | ⟨r, q, words, mine, full, vm⟩
    · rw [vm]
    · have page := inv.vars y v (by simp [Mos.target, rootsOf_used used, has])
      have other : v ≠ q := by
        rintro rfl
        obtain rfl := page.sole pages.pages full
        exact stranger (.inl mine)
      rw [vm]
      exact Function.update_of_ne other _ _

theorem Serves.spared (serves : Serves cur k k') (inv : MachineInv k) (used : (k.envs y).envStatus ≠ .free)
    (stranger : ¬ k.table.Controls cur y) : Spared k k' y ∧ k'.table = k.table := by
  induction serves with
  | refl => exact ⟨.refl k y, rfl⟩
  | @tail mid k' before serve ih =>
    obtain ⟨spared, table⟩ := ih
    have used' : (mid.envs y).envStatus ≠ .free := by
      rw [spared.env]
      exact used
    have later := serve.spared (Serves.inv before inv).1 used' (table ▸ stranger)
    exact ⟨spared.trans later, serve.table.trans table⟩

section Calls

/-- The call is a `sys_ipc_try_send` that `y` accepts. -/
def Accepted (k : Kernel) (cur : EnvPtr) (call : Call) (y : EnvPtr) : Prop :=
  ∃ envid value srcva perm, call = .ipcTrySend envid value srcva perm ∧ Accepts k cur envid srcva y

theorem schedule_resumed {yield : Bool} (h : schedule yield k = .ok () k') (y : EnvPtr) : (k.envs y).Resumed (k'.envs y) := by
  obtain ⟨e, _, resumed⟩ := schedule_ok h
  exact resumed.envs y

theorem syscall_fields {call : Call} (env : EnvInv k) (current : k.curenv = some cur)
    (used : (k.envs y).envStatus ≠ .free) (stranger : ¬ k.table.Controls cur y)
    (h : (syscallTable cur call k).state = some k') :
    ((k.envs y).Resumed (k'.envs y) ∧ ¬ Accepted k cur call y) ∨
      (Accepted k cur call y ∧ (k.envs y).Woken (k'.envs y)) := by
  have other : y ≠ cur := fun eq => stranger (.inl eq)
  have away : ∀ {e : EnvPtr} {envid : Word}, envid2env k cur envid true = .ok e → y ≠ e :=
    fun found eq => stranger (eq ▸ envid2env_self found rfl)
  have left : ∀ {mid : Kernel}, Left cur k mid → schedule true mid = .ok () k' → (k.envs y).Resumed (k'.envs y) := by
    intro mid left switched
    have resumed := schedule_resumed switched y
    rwa [left.others y other] at resumed
  have quiet : (∀ envid value srcva perm, call ≠ .ipcTrySend envid value srcva perm) → (k.envs y).Resumed (k'.envs y) →
      ((k.envs y).Resumed (k'.envs y) ∧ ¬ Accepted k cur call y) ∨
        (Accepted k cur call y ∧ (k.envs y).Woken (k'.envs y)) := by
    refine fun no resumed => .inl ⟨resumed, ?_⟩
    rintro ⟨envid, value, srcva, perm, eq, _⟩
    exact no envid value srcva perm eq
  cases call with
  | yield => exact quiet (fun _ _ _ _ eq => by cases eq) (schedule_resumed (schedule_state (switch_state h)) y)
  | envDestroy envid status =>
    refine quiet (fun _ _ _ _ eq => by cases eq) ?_
    rcases sysEnvDestroy_state current h with ⟨rfl, _⟩ | ⟨mid, gone, _, switched, _⟩ | ⟨e, reaps, free⟩
    · exact .refl _
    · exact left gone switched
    · rw [(envFree_ok free).others y (away reaps.env)]
      exact .refl _
  | memAlloc envid va perm =>
    obtain ⟨vm, rfl⟩ := sysMemAlloc_state h
    exact quiet (fun _ _ _ _ eq => by cases eq) (.refl _)
  | memMap srcid srcva dstid dstva perm =>
    obtain ⟨vm, rfl⟩ := sysMemMap_state h
    exact quiet (fun _ _ _ _ eq => by cases eq) (.refl _)
  | memUnmap envid va =>
    obtain ⟨vm, rfl⟩ := sysMemUnmap_state h
    exact quiet (fun _ _ _ _ eq => by cases eq) (.refl _)
  | exofork =>
    refine quiet (fun _ _ _ _ eq => by cases eq) ?_
    rcases sysExofork_state h with ⟨code, alloc⟩ | ⟨e, mid, alloc, rfl⟩
    · obtain ⟨e, inside, setup, _⟩ := envAlloc_err alloc
      rcases inside with empty | inside
      · rw [envAlloc, empty] at alloc
        cases alloc
        exact .refl _
      · rw [setup.others y fun eq => used (eq ▸ env.free e inside)]
        exact .refl _
    · obtain ⟨setup, list⟩ := envAlloc_ok alloc
      have ne : y ≠ e := fun eq => used (eq ▸ env.free e (by rw [list]; exact List.mem_cons_self))
      rw [forked_others ne, setup.others y ne]
      exact .refl _
  | setEnvStatus envid status =>
    refine quiet (fun _ _ _ _ eq => by cases eq) ?_
    rcases sysSetEnvStatus_state h with ⟨rfl, _⟩ | ⟨e, q, sets, _, done⟩
    · exact .refl _
    · have same : (setStatus k e (statusOf status) q).envs y = k.envs y := setStatus_others (away sets.env)
      split at done
      · have resumed := schedule_resumed done y
        rwa [same] at resumed
      · rw [done, same]
        exact .refl _
  | ipcTrySend envid value srcva perm =>
    rcases sysIpcTrySend_state h with ⟨rfl, refused⟩ | ⟨e, vm, accepts, rfl⟩
    · refine .inl ⟨.refl _, ?_⟩
      rintro ⟨_, _, _, _, eq, accepts⟩
      cases eq
      exact refused y accepts
    · by_cases same : y = e
      · subst same
        exact .inr ⟨⟨envid, value, srcva, perm, rfl, accepts⟩, _, _, _, ipcDeliver_self cur y value perm k⟩
      · refine .inl ⟨?_, ?_⟩
        · rw [show ((ipcDeliver cur e value perm k).putVm vm).envs y = k.envs y from ipcDeliver_others same]
          exact .refl _
        · rintro ⟨_, _, _, _, eq, accepts'⟩
          cases eq
          cases accepts.env.symm.trans accepts'.env
          exact same rfl
  | ipcRecv dstva =>
    refine quiet (fun _ _ _ _ eq => by cases eq) ?_
    rcases sysIpcRecv_state h with ⟨_, rfl⟩ | ⟨_, mid, gone, _, switched⟩
    · exact .refl _
    · exact left gone switched

/-- The translations of `y` stay, but for that of the page of a message. -/
def strangerRel (k : Kernel) (cur : EnvPtr) (call : Call) (y : EnvPtr) : LeafRel := fun b s before after =>
  b = y → after = before ∨ Accepted k cur call y ∧ s = vpageOf (k.envs y).envIpcDstva

theorem strangerRel_order (k : Kernel) (cur : EnvPtr) (call : Call) (y : EnvPtr) : (strangerRel k cur call y).Order := by
  refine ⟨fun _ _ _ _ => .inl rfl, fun first second here => ?_⟩
  rcases first here with same | message
  · rcases second here with same' | message
    · exact .inl (same'.trans same)
    · exact .inr message
  · exact .inr message

theorem syscall_stranger {call : Call} (inv : MachineInv k) (current : k.curenv = some cur)
    (stranger : ¬ k.table.Controls cur y) (h : (syscallTable cur call (k.trap tf)).state = some k') (s : VPage)
    (own : ¬ Shared s.1) : leaf (rootsOf k') k'.vm y s = leaf (rootsOf k) k.vm y s ∨
      Accepted k cur call y ∧ s = vpageOf (k.envs y).envIpcDstva := by
  obtain ⟨managed, pages, tlb⟩ := inv.pages
  have target : ∀ {e : EnvPtr} {envid : Word}, envid2env k cur envid true = .ok e → e ≠ y :=
    fun found eq => stranger (eq ▸ envid2env_self found rfl)
  have message : ∀ {e s x x'}, Clears k (.syscall tf call) e s → strangerRel k cur call y e s x x' := by
    intro e s x x' clears here
    cases clears with
    | memAlloc current' env => cases current'.symm.trans current; exact absurd here (target env)
    | memMap current' env => cases current'.symm.trans current; exact absurd here (target env)
    | memUnmap current' env => cases current'.symm.trans current; exact absurd here (target env)
    | ipcTrySend current' accepts sends =>
      cases current'.symm.trans current
      subst here
      exact .inr ⟨⟨_, _, _, _, rfl, accepts⟩, rfl⟩
    | envDestroy s current' reaps => cases current'.symm.trans current; exact absurd here (target reaps.env)
  refine syscall_leaves (strangerRel_order k cur call y) pages tlb.template inv.env current
    (fun e s x clears => message clears) (fun e s x pp perm maps => ?_) h y s own rfl
  cases maps with
  | memAlloc current' env => exact message (.memAlloc current' env)
  | memMap current' env => exact message (.memMap current' env)
  | ipcTrySend current' accepts sends => exact message (.ipcTrySend current' accepts sends)

theorem syscall_spared {call : Call} (inv : MachineInv k) (current : k.curenv = some cur)
    (used : (k.envs y).envStatus ≠ .free) (stranger : ¬ k.table.Controls cur y)
    (h : (syscallTable cur call (k.trap tf)).state = some k') :
    (Spared k k' y ∧ ¬ Accepted k cur call y) ∨ (Accepted k cur call y ∧ Woken k k' y) := by
  obtain ⟨managed, pages, tlb⟩ := inv.pages
  have space := fun s own => syscall_stranger (y := y) inv current stranger h s own
  have vars : rootsOf k' y = rootsOf k y → ∀ v, (k.envs y).envVars = some v → k'.vm.mem v = k.vm.mem v := by
    intro roots v has
    have page := inv.vars y v (by simp [target, rootsOf_used used, has])
    exact ((syscall_varStep pages inv.env current h).keeps y v page roots).mem
  have trapped : EnvInv (k.trap tf) := inv.env.setFrame _
  have acceptance : Accepted (k.trap tf) cur call y ↔ Accepted k cur call y := by
    constructor
    all_goals
      rintro ⟨envid, value, srcva, perm, eq, accepts⟩
      exact ⟨envid, value, srcva, perm, eq, accepts.va, accepts.env, accepts.recving⟩
  have fields : ((k.envs y).Resumed (k'.envs y) ∧ ¬ Accepted (k.trap tf) cur call y) ∨
      (Accepted (k.trap tf) cur call y ∧ (k.envs y).Woken (k'.envs y)) := syscall_fields trapped current used stranger h
  rw [acceptance] at fields
  rcases fields with ⟨resumed, refused⟩ | ⟨accepted, woken⟩
  · have roots : rootsOf k' y = rootsOf k y := by
      simp only [rootsOf]
      rw [resumed]
    exact .inl ⟨⟨resumed, fun s own => (space s own).resolve_right fun message => refused message.1, vars roots⟩, refused⟩
  · obtain ⟨value, sender, perm, eq⟩ := woken
    have roots : rootsOf k' y = rootsOf k y := by
      rw [rootsOf_used used, rootsOf_used (by rw [eq]; exact fun free => by cases free), eq]
    exact .inr ⟨accepted, ⟨value, sender, perm, eq⟩,
      fun s own away => (space s own).resolve_right fun message => away message.2, vars roots⟩

end Calls

section Syscalls

theorem doAnySyscall_send (number : tf.regs 4 = 13) : doAnySyscall cur tf out k =
    doSyscall cur tf (.ipcTrySend (tf.regs 5) (tf.regs 6) (tf.regs 7) (Args.of tf out.load).arg4) k := by
  have valid : ¬ ((tf.regs 4).toInt < 0 ∨ (maxSysno : Int) ≤ (tf.regs 4).toInt) := by
    rw [sysno_valid, number]
    decide
  have entry : syscallAt (Args.of tf out.load) out (tf.regs 4).toNat =
      some (.inl (.ipcTrySend (tf.regs 5) (tf.regs 6) (tf.regs 7) (Args.of tf out.load).arg4)) := by
    rw [number]
    rfl
  rw [doAnySyscall, if_neg valid, entry]

theorem syscallAt_send {a : Args} {n : Nat} {envid value srcva perm : Word}
    (h : syscallAt a out n = some (.inl (.ipcTrySend envid value srcva perm))) : n = 13 := by
  unfold syscallAt at h
  split at h <;> first | rfl | cases h

theorem doAnySyscall_strangers (inv : MachineInv k) (current : k.curenv = some cur) (used : (k.envs y).envStatus ≠ .free)
    (stranger : ¬ k.table.Controls cur y) (h : doAnySyscall cur tf out k = some k') :
    (Spared k k' y ∧ ¬ Wakes k cur tf y) ∨ (Wakes k cur tf y ∧ Woken k k' y) := by
  by_cases number : tf.regs 4 = 13
  · rw [doAnySyscall_send number] at h
    obtain ⟨after, mid, called, rfl⟩ := doSyscall_state h
    rcases syscall_spared (y := y) inv current used stranger called with ⟨spared, no⟩ | ⟨accepted, woken⟩
    · refine .inl ⟨⟨spared.env, spared.pages, spared.vars⟩, fun wakes => no ?_⟩
      exact ⟨_, _, _, _, rfl, wakes.2⟩
    · obtain ⟨envid, value, srcva, perm, eq, accepts⟩ := accepted
      cases eq
      exact .inr ⟨⟨number, accepts⟩, woken.env, woken.pages, woken.vars⟩
  · have no : ¬ Wakes k cur tf y := fun wakes => number wakes.1
    refine .inl ⟨?_, no⟩
    rcases doAnySyscall_cases inv current h with ⟨call, entry, h⟩ | serves
    · obtain ⟨after, mid, called, rfl⟩ := doSyscall_state h
      rcases syscall_spared (y := y) inv current used stranger called with ⟨spared, _⟩ | ⟨accepted, _⟩
      · exact ⟨spared.env, spared.pages, spared.vars⟩
      · obtain ⟨envid, value, srcva, perm, rfl, _⟩ := accepted
        exact absurd (BitVec.eq_of_toNat_eq (syscallAt_send entry)) number
    · exact (serves.spared inv used stranger).1

theorem authority_step (inv : MachineInv k) (current : k.curenv = some cur)
    (h : machineStep k (.syscall tf out) = some k') :
    Authority k k' cur tf ↔ ∀ y, ¬ k.table.Controls cur y → Wakes k cur tf y → (k.envs y).envStatus = .notRunnable := by
  obtain ⟨actor, running, called⟩ := Option.bind_eq_some_iff.mp h
  obtain rfl := Option.some.inj (running.symm.trans current)
  have strangers := fun (y : EnvPtr) used stranger => doAnySyscall_strangers (y := y) inv current used stranger called
  constructor
  · intro authority y stranger wakes
    have used : (k.envs y).envStatus ≠ .free := inv.env.target_used current wakes.2.env
    rcases authority y used stranger with unaffected | ⟨_, delivered⟩
    · rcases strangers y used stranger with ⟨_, no⟩ | ⟨_, woken⟩
      · exact absurd wakes no
      · have kept : (k'.envs y).envIpcRecving = (k.envs y).envIpcRecving := by rw [unaffected.env]
        obtain ⟨value, sender, perm, eq⟩ := woken.env
        rw [eq, wakes.2.recving] at kept
        cases kept
    · exact delivered.blocked
  · intro blocked y used stranger
    have frame : k'.frameOf y = k.frameOf y := by
      refine machineStep_frameOf inv.env (fun eq => ?_) used (fun reframes => ?_) h
      · exact stranger (.inl (Option.some.inj (eq.symm.trans current)))
      · obtain ⟨_, _, actor', running', found⟩ := reframes
        cases running'.symm.trans current
        exact stranger (envid2env_self found rfl)
    rcases strangers y used stranger with ⟨spared, _⟩ | ⟨wakes, woken⟩
    · exact .inl ⟨spared, frame⟩
    · exact .inr ⟨wakes.1, woken, wakes.2.recving, blocked y stranger wakes, frame⟩

end Syscalls

/-- In every state that the machine reaches a system call keeps to the caller and its children, but for a message, exactly
    when it does not wake an env that is not blocked. -/
theorem authority_iff {npage : Nat} {mem : Nat → Nat → Word} {k0 : Kernel} {ops : List MachineOp} (small : npage ≤ 2^20)
    (booted : boot npage mem = some k0) (run : Run machineStep MachineGuard k0 ops k) (current : k.curenv = some cur)
    (h : machineStep k (.syscall tf out) = some k') :
    Authority k k' cur tf ↔ ∀ y, ¬ k.table.Controls cur y → Wakes k cur tf y → (k.envs y).envStatus = .notRunnable :=
  authority_step (machineRun_inv small booted run) current h

def asking (n a b : Word) : Trapframe := ((zeroFrame.setReg 4 n).setReg 5 a).setReg 6 b

/-- Env 0 forks twice, and its first child blocks in `sys_ipc_recv`. -/
def recvRun : List MachineOp := [.envCreate emptyBinary 1, .timer zeroFrame, .syscall (asking 9 0 0) silence,
  .syscall (asking 9 0 0) silence, .syscall (asking 10 4097 1) silence, .syscall (asking 3 0 0) silence,
  .syscall (asking 14 0 0) silence]

/-- The second child runs. -/
def siblingRun : List MachineOp := recvRun ++ [.syscall (asking 10 6146 1) silence, .syscall (asking 3 0 0) silence]

/-- The first child is resumed and exits before the second one runs. -/
def zombieRun : List MachineOp := recvRun ++ [.syscall (asking 10 4097 1) silence, .syscall (asking 3 0 0) silence,
  .syscall (asking 4 0 0) silence, .syscall (asking 10 6146 1) silence, .syscall (asking 3 0 0) silence]

def sends : Trapframe := asking 13 4097 7

theorem siblingRun_guarded {k0 : Kernel} (exec : Run.exec machineStep k0 siblingRun = some k) :
    Run machineStep MachineGuard k0 siblingRun k := by
  refine Run.of_exec (fun op mem t => ?_) exec
  have plain : ∀ (call : Call) {n a b : Word}, syscallAt (Args.of (asking n a b) silence.load) silence n.toNat = some (.inl call) →
      TlbGuard t (.syscall (asking n a b) call) → MachineGuard t (.syscall (asking n a b) silence) := by
    intro call n a b entry meets call' entry'
    cases entry.symm.trans entry'
    exact meets
  simp only [siblingRun, recvRun, List.cons_append, List.nil_append, List.mem_cons, List.not_mem_nil, or_false] at mem
  rcases mem with rfl | rfl | rfl | rfl | rfl | rfl | rfl | rfl | rfl
  · intro page inside
    cases inside
  · trivial
  · exact plain .exofork rfl trivial
  · exact plain .exofork rfl trivial
  · exact plain (.setEnvStatus 4097 1) rfl trivial
  · exact plain .yield rfl trivial
  · exact plain (.ipcRecv 0) rfl trivial
  · exact plain (.setEnvStatus 6146 1) rfl trivial
  · exact plain .yield rfl trivial

set_option maxRecDepth 100000 in
theorem authority_iff_siblingRun : ∃ k0 k k', clearBoot = some k0 ∧ Run machineStep MachineGuard k0 siblingRun k ∧
    machineStep k (.syscall sends silence) = some k' ∧ (k'.envs 1).envIpcValue = 7 ∧ Authority k k' 2 sends := by
  have check : (clearBoot.bind fun k0 => (Run.exec machineStep k0 siblingRun).bind fun k =>
      (machineStep k (.syscall sends silence)).map fun k' => (k.curenv, (envid2env k 2 4097 false).toOption,
        (k.envs 1).envStatus, (k'.envs 1).envIpcValue)) = some (some 2, some 1, .notRunnable, 7) := by
    rw [clearBoot_eq]
    decide +kernel
  obtain ⟨k0, booted, check⟩ := Option.bind_eq_some_iff.mp check
  obtain ⟨k, exec, check⟩ := Option.bind_eq_some_iff.mp check
  obtain ⟨k', called, check⟩ := Option.map_eq_some_iff.mp check
  simp only [Prod.mk.injEq] at check
  obtain ⟨current, found, blocked, value⟩ := check
  have run := siblingRun_guarded exec
  refine ⟨k0, k, k', booted, run, called, value, (authority_iff (by decide) booted run current called).mpr ?_⟩
  intro y _ wakes
  have same : y = 1 := Except.ok.inj (wakes.2.env.symm.trans (toOption_ok found))
  rw [same]
  exact blocked

set_option maxRecDepth 100000 in
/-- A message to the zombie makes it runnable. -/
theorem ipcTrySend_wakes_zombie : ∃ k0 k k', clearBoot = some k0 ∧ Run machineStep (fun _ _ => True) k0 zombieRun k ∧
    k.curenv = some 2 ∧ machineStep k (.syscall sends silence) = some k' ∧ (k.envs 1).envStatus = .zombie ∧
    (k'.envs 1).envStatus = .runnable ∧ ¬ Authority k k' 2 sends := by
  have check : (clearBoot.bind fun k0 => (Run.exec machineStep k0 zombieRun).bind fun k =>
      (machineStep k (.syscall sends silence)).map fun k' => (k.curenv, (k.envs 1).envParentId, (k.envs 2).envId,
        (k.envs 1).envStatus, (k'.envs 1).envStatus)) = some (some 2, 2048, 6146, .zombie, .runnable) := by
    rw [clearBoot_eq]
    decide +kernel
  obtain ⟨k0, booted, check⟩ := Option.bind_eq_some_iff.mp check
  obtain ⟨k, exec, check⟩ := Option.bind_eq_some_iff.mp check
  obtain ⟨k', called, check⟩ := Option.map_eq_some_iff.mp check
  simp only [Prod.mk.injEq] at check
  obtain ⟨current, parent, caller, zombie, woken⟩ := check
  refine ⟨k0, k, k', booted, Run.of_exec (fun _ _ _ => trivial) exec, current, called, zombie, woken, fun authority => ?_⟩
  have stranger : ¬ k.table.Controls 2 1 := by
    rintro (self | child)
    · cases self
    · have same : (k.envs 1).envParentId = (k.envs 2).envId := child
      rw [parent, caller] at same
      cases same
  have used : (k.envs 1).envStatus ≠ .free := by
    rw [zombie]
    exact fun free => by cases free
  rcases authority 1 used stranger with unaffected | ⟨_, delivered⟩
  · have kept : (k'.envs 1).envStatus = (k.envs 1).envStatus := unaffected.env.status
    rw [zombie, woken] at kept
    cases kept
  · cases delivered.blocked.symm.trans zombie

end Mos
