import Mos.Kern.Ipc
import Mos.Lib.Mailbox

namespace Mos

open Mailbox

/-- A message is the value and the id of its sender. -/
abbrev IpcEvent := Event EnvPtr (Word × Word)

/-- What a system call of `cur` does to the mailboxes: `sys_ipc_recv` blocks the caller, a
    `sys_ipc_try_send` that returns 0 sends, and `sys_exofork` starts an env afresh. -/
def callEvents (cur : EnvPtr) (call : Call) (k : Kernel) : List IpcEvent :=
  match call, syscallTable cur call k with
  | .ipcRecv _, .ok _ _ => [.blocked cur]
  | .ipcTrySend envid value _ _, .ok _ _ =>
    match envid2env k cur envid false with
    | .ok e => [.sent e (value, (k.envs cur).envId)]
    | .error _ => []
  | .exofork, .ok _ _ => (k.envFreeList.head?.map Event.opened).toList
  | _, _ => []

def events (k : Kernel) : Op → List IpcEvent
  | .syscall tf call =>
    match k.curenv with
    | some cur => callEvents cur call (k.trap tf)
    | none => []
  | .envCreate _ _ => (k.envFreeList.head?.map Event.opened).toList
  | _ => []

/-- The machine with the trace of its mailbox events. -/
def traced (s : Kernel × List IpcEvent) (op : Op) : Option (Kernel × List IpcEvent) :=
  (step s.1 op).map fun k => (k, s.2 ++ events s.1 op)

/-- An env that runs after it has called `sys_ipc_recv` has been sent exactly one message since, which its
    fields hold; the fields keep the last message, and each message went to a waiting env. -/
structure ExactlyOnce (k : Kernel) (trace : List IpcEvent) : Prop where
  disciplined : Disciplined trace
  returned : ∀ r messages, k.curenv = some r → received r trace = some messages →
    messages = [((k.envs r).envIpcValue, (k.envs r).envIpcFrom)]
  kept : ∀ r messages m, received r trace = some (messages ++ [m]) →
    m = ((k.envs r).envIpcValue, (k.envs r).envIpcFrom)

/-- `env_ipc_recving` marks the envs that wait. -/
structure MailInv (k : Kernel) (trace : List IpcEvent) : Prop where
  disciplined : Disciplined trace
  open_iff : ∀ r, (k.envs r).envIpcRecving = 1 ↔ received r trace = some []
  waiting : ∀ r, (k.envs r).envIpcRecving = 1 → (k.envs r).envStatus = .notRunnable
  kept : ∀ r messages m, received r trace = some (messages ++ [m]) →
    m = ((k.envs r).envIpcValue, (k.envs r).envIpcFrom)

theorem MailInv.exactlyOnce {k : Kernel} {trace : List IpcEvent} (mail : MailInv k trace) (inv : EnvInv k) :
    ExactlyOnce k trace := by
  refine ⟨mail.disciplined, fun r messages cur got => ?_, mail.kept⟩
  have short := mail.disciplined.atMostOne got
  cases messages with
  | nil =>
    have waits := mail.waiting r ((mail.open_iff r).mpr got)
    cases waits.symm.trans (inv.current r cur)
  | cons m rest =>
    obtain rfl : rest = [] := List.eq_nil_of_length_eq_zero (by simpa using short)
    rw [mail.kept r [] m got]

/-- The fields of IPC stay, and envs that wait keep their status. -/
structure Quiet (k k' : Kernel) : Prop where
  recving : ∀ r, (k'.envs r).envIpcRecving = (k.envs r).envIpcRecving
  value : ∀ r, (k'.envs r).envIpcValue = (k.envs r).envIpcValue
  sender : ∀ r, (k'.envs r).envIpcFrom = (k.envs r).envIpcFrom
  status : ∀ r, (k.envs r).envIpcRecving = 1 → (k'.envs r).envStatus = (k.envs r).envStatus

theorem Quiet.mail {k k' : Kernel} {trace : List IpcEvent} (quiet : Quiet k k') (mail : MailInv k trace) :
    MailInv k' trace := by
  refine ⟨mail.disciplined, fun r => ?_, fun r waits => ?_, fun r messages m got => ?_⟩
  · rw [quiet.recving]
    exact mail.open_iff r
  · rw [quiet.recving] at waits
    exact (quiet.status r waits).trans (mail.waiting r waits)
  · rw [quiet.value, quiet.sender]
    exact mail.kept r messages m got

theorem Quiet.of_envs {k k' : Kernel} (same : k'.envs = k.envs) : Quiet k k' := by
  constructor <;> intro r <;> rw [same]
  exact fun _ => rfl

theorem Quiet.trans {k mid k' : Kernel} (first : Quiet k mid) (second : Quiet mid k') : Quiet k k' := by
  refine ⟨fun r => ?_, fun r => ?_, fun r => ?_, fun r waits => ?_⟩
  · rw [second.recving, first.recving]
  · rw [second.value, first.value]
  · rw [second.sender, first.sender]
  · rw [second.status r ((first.recving r).trans waits), first.status r waits]

theorem schedule_quiet {yield : Bool} {k k' : Kernel} (h : schedule yield k = .ok () k') : Quiet k k' := by
  obtain ⟨e, _, resumed⟩ := schedule_ok h
  constructor <;> intro r <;> rw [resumed.envs r]
  exact fun _ => rfl

theorem Setup.quiet {e : EnvPtr} {k k' : Kernel} (setup : Setup e k k') : Quiet k k' := by
  have same : ∀ r, (k.envs r).Allocated (k'.envs r) := by
    intro r
    by_cases eq : r = e
    · subst eq
      exact setup.env
    · rw [setup.others r eq]
      exact .refl _
  constructor <;> intro r <;> rw [same r]
  exact fun _ => rfl

theorem Quiet.of_one {e : EnvPtr} {k k' : Kernel} (others : ∀ b, b ≠ e → k'.envs b = k.envs b)
    (recving : (k'.envs e).envIpcRecving = (k.envs e).envIpcRecving)
    (value : (k'.envs e).envIpcValue = (k.envs e).envIpcValue) (sender : (k'.envs e).envIpcFrom = (k.envs e).envIpcFrom)
    (status : (k.envs e).envIpcRecving = 1 → (k'.envs e).envStatus = (k.envs e).envStatus) : Quiet k k' := by
  have split : ∀ {p : EnvPtr → Prop}, p e → (∀ b, b ≠ e → p b) → ∀ b, p b := by
    intro p self rest b
    by_cases eq : b = e
    · exact eq ▸ self
    · exact rest b eq
  refine ⟨split recving fun b ne => ?_, split value fun b ne => ?_, split sender fun b ne => ?_,
    split status fun b ne _ => ?_⟩ <;> rw [others b ne]

theorem MailInv.same {k k' : Kernel} {trace : List IpcEvent} (mail : MailInv k trace) (envs : k'.envs = k.envs) :
    MailInv k' trace := (Quiet.of_envs envs).mail mail

theorem MailInv.idle {k : Kernel} {trace : List IpcEvent} {e : EnvPtr} (mail : MailInv k trace)
    (status : (k.envs e).envStatus ≠ .notRunnable) : (k.envs e).envIpcRecving ≠ 1 :=
  fun waits => status (mail.waiting e waits)

theorem MailInv.blocked {k mid : Kernel} {trace : List IpcEvent} {cur : EnvPtr} (mail : MailInv k trace)
    (others : ∀ b, b ≠ cur → mid.envs b = k.envs b) (recving : (mid.envs cur).envIpcRecving = 1)
    (status : (mid.envs cur).envStatus = .notRunnable) : MailInv mid (trace ++ [.blocked cur]) := by
  refine ⟨mail.disciplined.snoc fun r m eq => (by cases eq), fun r => ?_, fun r waits => ?_, fun r messages m got => ?_⟩
  · rw [received_snoc, deliver]
    split
    · rename_i same
      subst same
      exact iff_of_true recving rfl
    · rename_i other
      rw [others r (Ne.symm other)]
      exact mail.open_iff r
  · by_cases same : r = cur
    · rw [same, status]
    · rw [others r same] at waits ⊢
      exact mail.waiting r waits
  · rw [received_snoc, deliver] at got
    split at got
    · simp at got
    · rename_i other
      rw [others r (Ne.symm other)]
      exact mail.kept r messages m got

theorem MailInv.sent {k k' : Kernel} {trace : List IpcEvent} {e : EnvPtr} {m : Word × Word} (mail : MailInv k trace)
    (others : ∀ b, b ≠ e → k'.envs b = k.envs b) (waits : (k.envs e).envIpcRecving = 1)
    (done : (k'.envs e).envIpcRecving = 0) (message : m = ((k'.envs e).envIpcValue, (k'.envs e).envIpcFrom)) :
    MailInv k' (trace ++ [.sent e m]) := by
  have waiting := (mail.open_iff e).mp waits
  refine ⟨mail.disciplined.snoc fun r m eq => ?_, fun r => ?_, fun r waits => ?_, fun r messages m got => ?_⟩
  · cases eq
    exact waiting
  · rw [received_snoc, deliver]
    split
    · rename_i same
      subst same
      rw [waiting, done]
      exact iff_of_false (by decide) (by simp)
    · rename_i other
      rw [others r (Ne.symm other)]
      exact mail.open_iff r
  · by_cases same : r = e
    · rw [same, done] at waits
      cases waits
    · rw [others r same] at waits ⊢
      exact mail.waiting r waits
  · rw [received_snoc, deliver] at got
    split at got
    · rename_i same
      subst same
      rw [waiting] at got
      obtain ⟨_, last⟩ := List.append_inj' (Option.some.inj got) rfl
      rw [← List.singleton_inj.mp last]
      exact message
    · rename_i other
      rw [others r (Ne.symm other)]
      exact mail.kept r messages m got

theorem MailInv.opened {k : Kernel} {trace : List IpcEvent} {e : EnvPtr} (mail : MailInv k trace)
    (idle : (k.envs e).envIpcRecving ≠ 1) : MailInv k (trace ++ [.opened e]) := by
  refine ⟨mail.disciplined.snoc fun r m eq => (by cases eq), fun r => ?_, mail.waiting, fun r messages m got => ?_⟩
  · rw [received_snoc, deliver]
    split
    · rename_i same
      subst same
      exact iff_of_false idle (by simp)
    · exact mail.open_iff r
  · rw [received_snoc, deliver] at got
    split at got
    · cases got
    · exact mail.kept r messages m got

/-- What keeps the mailboxes apart from the other system calls: no env that waits is made runnable by
    `sys_set_env_status`, and no message fails in its page transfer. -/
def MailGuard (k : Kernel) : Op → Prop
  | .syscall _ (.setEnvStatus envid status) => ∀ cur e, k.curenv = some cur → Sets k cur envid status e →
      status = EnvStatus.runnable.code → (k.envs e).envIpcRecving ≠ 1
  | .syscall _ (.ipcTrySend envid _ srcva _) => ∀ cur e, k.curenv = some cur → Accepts k cur envid srcva e →
      ¬ TransferFails k cur e srcva
  | _ => True

theorem sysIpcRecv_mail {cur : EnvPtr} {dstva : Word} {k k' : Kernel} {trace : List IpcEvent} (mail : MailInv k trace)
    (h : (sysIpcRecv cur dstva k).state = some k') : MailInv k' (trace ++ callEvents cur (.ipcRecv dstva) k) := by
  have valued : ∀ {res : Res Kernel Unit} {s : Kernel}, (switch res).state = some s → NoErr res →
      ∃ u, switch res = .ok u s := by
    intro res s h noErr
    cases res with
    | ok u t => cases h; exact ⟨_, rfl⟩
    | err code t => exact absurd rfl (noErr code t)
    | stop cause => cases h
  rcases sysIpcRecv_state h with ⟨bad, rfl⟩ | ⟨valid, mid, left, now, switched⟩
  · have failed : sysIpcRecv cur dstva k' = .err (-eInval) k' := if_pos bad
    simpa only [callEvents, syscallTable, failed, List.append_nil] using mail
  · have event : callEvents cur (.ipcRecv dstva) k = [.blocked cur] := by
      rw [sysIpcRecv, if_neg valid] at h
      obtain ⟨u, ok⟩ := valued h ((tailqRemove_noErr _ _).bind fun _ _ => schedule_noErr _ _)
      simp only [callEvents, syscallTable, sysIpcRecv, if_neg valid, ok]
    rw [event]
    exact (schedule_quiet switched).mail (mail.blocked left.others (by rw [now]) (by rw [now]))

theorem sysIpcTrySend_mail {cur : EnvPtr} {envid value srcva perm : Word} {k k' : Kernel} {trace : List IpcEvent}
    (mail : MailInv k trace) (meets : ∀ e, Accepts k cur envid srcva e → ¬ TransferFails k cur e srcva)
    (h : (sysIpcTrySend cur envid value srcva perm k).state = some k') :
    MailInv k' (trace ++ callEvents cur (.ipcTrySend envid value srcva perm) k) := by
  rcases sysIpcTrySend_cases cur envid value srcva perm k with ⟨code, _, eq, _⟩ | ⟨e, accepts, eq⟩
  · rw [eq] at h
    cases h
    simpa only [callEvents, syscallTable, eq, List.append_nil] using mail
  · have fine := meets e accepts
    rcases ipcMap_cases cur e srcva perm (ipcDeliver cur e value perm k) with ⟨vm, ok⟩ | ⟨code, vm, err⟩ | ⟨_, stop⟩
    · rw [eq, ok] at h
      cases h
      have event : callEvents cur (.ipcTrySend envid value srcva perm) k = [.sent e (value, (k.envs cur).envId)] := by
        simp only [callEvents, syscallTable, eq, ok, accepts.env]
      rw [event]
      refine mail.sent (fun b ne => ipcDeliver_others ne) accepts.recving ?_ ?_
      · exact congrArg Env.envIpcRecving (ipcDeliver_self cur e value perm k)
      · exact (congrArg (fun env => (env.envIpcValue, env.envIpcFrom)) (ipcDeliver_self cur e value perm k)).symm
    · exact absurd (ipcDeliver_transferFails.mp (ipcMap_err_iff.mp ⟨_, _, err⟩)) fine
    · rw [eq, stop] at h
      cases h

theorem Taken.mail {e : EnvPtr} {k mid k' : Kernel} {trace : List IpcEvent} (taken : Taken e k mid)
    (mail : MailInv k trace) (others : ∀ b, b ≠ e → k'.envs b = mid.envs b)
    (recving : (k'.envs e).envIpcRecving = (mid.envs e).envIpcRecving)
    (value : (k'.envs e).envIpcValue = (mid.envs e).envIpcValue)
    (sender : (k'.envs e).envIpcFrom = (mid.envs e).envIpcFrom) :
    MailInv k' (trace ++ (k.envFreeList.head?.map Event.opened).toList) := by
  have before := taken.setup.quiet.mail mail
  have idle : (mid.envs e).envIpcRecving ≠ 1 := before.idle (by rw [taken.free]; exact fun same => by cases same)
  rw [taken.list]
  exact (Quiet.of_one others recving value sender fun waits => absurd waits idle).mail (before.opened idle)

theorem sysExofork_mail {cur : EnvPtr} {k k' : Kernel} {trace : List IpcEvent} (mail : MailInv k trace)
    (inv : EnvInv k) (h : (sysExofork cur k).state = some k') : MailInv k' (trace ++ callEvents cur .exofork k) := by
  cases alloc : envAlloc (k.envs cur).envId k with
  | ok e mid =>
    have forks : sysExofork cur k = .ok (some ((forked cur e mid).envs e).envId) (forked cur e mid) := by
      rw [sysExofork, alloc]
      rfl
    rw [forks] at h
    cases h
    obtain ⟨setup, list⟩ := envAlloc_ok alloc
    simp only [callEvents, syscallTable, forks]
    exact (setup.taken inv list).mail mail (fun b ne => forked_others ne) (by simp [forked, Kernel.updateEnv])
      (by simp [forked, Kernel.updateEnv]) (by simp [forked, Kernel.updateEnv])
  | err code mid =>
    have fails : sysExofork cur k = .err code mid := by rw [sysExofork, alloc, Result.err_bind]
    rw [fails] at h
    cases h
    obtain ⟨e, _, setup, _⟩ := envAlloc_err alloc
    simpa only [callEvents, syscallTable, fails, List.append_nil] using setup.quiet.mail mail
  | stop cause =>
    rw [sysExofork, alloc] at h
    cases h

theorem sysEnvDestroy_quiet {cur : EnvPtr} {envid status : Word} {k k' : Kernel} {trace : List IpcEvent}
    (mail : MailInv k trace) (inv : EnvInv k) (current : k.curenv = some cur)
    (h : (sysEnvDestroy cur envid status k).state = some k') : Quiet k k' := by
  rcases sysEnvDestroy_state current h with ⟨rfl, _⟩ | ⟨mid, left, now, switched, _⟩ | ⟨e, reaps, free⟩
  · exact .of_envs rfl
  · have idle := mail.idle (e := cur) (by rw [inv.current cur current]; exact fun same => by cases same)
    refine Quiet.trans (.of_one left.others ?_ ?_ ?_ fun waits => absurd waits idle) (schedule_quiet switched)
    all_goals rw [now]
  · have idle := mail.idle (e := e) (by rw [reaps.zombie]; exact fun same => by cases same)
    have freed := envFree_ok free
    refine .of_one freed.others ?_ ?_ ?_ fun waits => absurd waits idle
    all_goals rw [freed.env]

theorem sysSetEnvStatus_quiet {cur : EnvPtr} {envid status : Word} {k k' : Kernel} {trace : List IpcEvent}
    (mail : MailInv k trace)
    (meets : ∀ e, Sets k cur envid status e → status = EnvStatus.runnable.code → (k.envs e).envIpcRecving ≠ 1)
    (h : (sysSetEnvStatus cur envid status k).state = some k') : Quiet k k' := by
  rcases sysSetEnvStatus_state h with ⟨rfl, _⟩ | ⟨e, q, sets, _, done⟩
  · exact .of_envs rfl
  · have set : Quiet k (setStatus k e (statusOf status) q) := by
      refine .of_one (fun b ne => setStatus_others ne) ?_ ?_ ?_ fun waits => ?_
      · rw [setStatus_self]
      · rw [setStatus_self]
      · rw [setStatus_self]
      · have stop : status ≠ EnvStatus.runnable.code := fun resume => meets e sets resume waits
        rw [setStatus_self, mail.waiting e waits]
        exact if_neg stop
    split at done
    · exact set.trans (schedule_quiet done)
    · exact done ▸ set

theorem syscall_mail {cur : EnvPtr} {tf : Trapframe} {call : Call} {k k' : Kernel} {trace : List IpcEvent}
    (mail : MailInv k trace) (inv : EnvInv k) (current : k.curenv = some cur) (meets : MailGuard k (.syscall tf call))
    (h : (syscallTable cur call (k.trap tf)).state = some k') :
    MailInv k' (trace ++ callEvents cur call (k.trap tf)) := by
  have inv' : EnvInv (k.trap tf) := inv.setFrame _
  have mail' : MailInv (k.trap tf) trace := mail.same rfl
  have silent : Quiet (k.trap tf) k' → MailInv k' (trace ++ []) := fun quiet => by
    rw [List.append_nil]
    exact quiet.mail mail'
  cases call with
  | yield => exact silent (schedule_quiet (schedule_state (switch_state h)))
  | memAlloc envid va perm =>
    obtain ⟨vm, rfl⟩ := sysMemAlloc_state h
    exact silent (.of_envs rfl)
  | memMap srcid srcva dstid dstva perm =>
    obtain ⟨vm, rfl⟩ := sysMemMap_state h
    exact silent (.of_envs rfl)
  | memUnmap envid va =>
    obtain ⟨vm, rfl⟩ := sysMemUnmap_state h
    exact silent (.of_envs rfl)
  | exofork => exact sysExofork_mail mail' inv' h
  | ipcRecv dstva => exact sysIpcRecv_mail mail' h
  | envDestroy envid status => exact silent (sysEnvDestroy_quiet mail' inv' current h)
  | setEnvStatus envid status =>
    exact silent (sysSetEnvStatus_quiet mail' (fun e sets => meets cur e current ⟨sets.1, sets.2⟩) h)
  | ipcTrySend envid value srcva perm =>
    exact sysIpcTrySend_mail mail' (fun e accepts => meets cur e current ⟨accepts.1, accepts.2, accepts.3⟩) h

theorem step_mail {op : Op} {k k' : Kernel} {trace : List IpcEvent} (mail : MailInv k trace) (inv : EnvInv k)
    (meets : MailGuard k op) (h : step k op = some k') : MailInv k' (trace ++ events k op) := by
  cases op with
  | syscall tf call =>
    obtain ⟨cur, current, h⟩ := Option.bind_eq_some_iff.mp h
    obtain ⟨after, mid, called, rfl⟩ := doSyscall_state h
    have event : events k (.syscall tf call) = callEvents cur call (k.trap tf) := by simp only [events, current]
    rw [event]
    exact (syscall_mail mail inv current meets called).same rfl
  | timer tf =>
    simp only [events, List.append_nil]
    have trapped : MailInv { k with tf := tf } trace := mail.same rfl
    exact (schedule_quiet (schedule_state h)).mail trapped
  | tlbRefill va victim =>
    obtain ⟨cur, _, h⟩ := Option.bind_eq_some_iff.mp h
    obtain ⟨vm, rfl⟩ := withVm_state h
    simp only [events, List.append_nil]
    exact mail.same rfl
  | envCreate binary priority =>
    obtain ⟨e, mid, alloc, created, _⟩ := envCreate_state h
    obtain ⟨setup, list⟩ := envAlloc_ok alloc
    exact (setup.taken inv list).mail mail created.others (by rw [created.env]) (by rw [created.env])
      (by rw [created.env])

theorem boot_mail {npage : Nat} {mem : Nat → Nat → Word} {k : Kernel} (booted : boot npage mem = some k) :
    MailInv k [] := by
  obtain ⟨p, vm, _, _, rfl⟩ := boot_init booted
  refine ⟨disciplined_nil, fun r => iff_of_false ?_ (by simp), fun r waits => ?_, fun r messages m got => by cases got⟩
  · simp [initKernel, zeroEnv]
  · simp [initKernel, zeroEnv] at waits

/-- In every run from boot whose steps meet `MailGuard`, messages are delivered exactly once. -/
theorem ipc_exactlyOnce {npage : Nat} {mem : Nat → Nat → Word} {k0 k : Kernel} {ops : List Op} {trace : List IpcEvent}
    (booted : boot npage mem = some k0)
    (run : Run traced (fun s op => MailGuard s.1 op) (k0, []) ops (k, trace)) : ExactlyOnce k trace := by
  have both : EnvInv k ∧ MailInv k trace := by
    refine run.invariant (fun s => EnvInv s.1 ∧ MailInv s.1 s.2) ⟨boot_envInv booted, boot_mail booted⟩ ?_
    rintro s op s' ⟨inv, mail⟩ meets next
    obtain ⟨k', h, rfl⟩ := Option.map_eq_some_iff.mp next
    exact ⟨step_envInv inv h, step_mail mail inv meets h⟩
  exact both.2.exactlyOnce both.1

/-- Env 1 sends the message 7 to env 0, which then runs. -/
def sendRun : List Op := waitRun ++ [.call (.ipcTrySend 2048 7 0 0), .call .yield]

set_option maxRecDepth 100000 in
theorem ipc_exactlyOnce_sendRun : ∃ k0 k trace, clearBoot = some k0 ∧
    Run traced (fun s op => MailGuard s.1 op) (k0, []) sendRun (k, trace) ∧
    received 0 trace = some [(7, 4097)] ∧ k.curenv = some 0 ∧ ExactlyOnce k trace := by
  have check : (clearBoot.bind fun k0 => (Run.exec traced (k0, []) sendRun).map fun s =>
      (received 0 s.2, s.1.curenv)) = some (some [(7, 4097)], some 0) := by
    rw [clearBoot_eq]
    decide +kernel
  obtain ⟨k0, booted, check⟩ := Option.bind_eq_some_iff.mp check
  obtain ⟨⟨k, trace⟩, exec, check⟩ := Option.map_eq_some_iff.mp check
  obtain ⟨message, current⟩ := Prod.mk.injEq .. ▸ check
  have run : Run traced (fun s op => MailGuard s.1 op) (k0, []) sendRun (k, trace) := by
    refine Run.of_exec (fun op mem s => ?_) exec
    simp only [sendRun, waitRun, List.cons_append, List.nil_append, List.mem_cons, List.not_mem_nil, or_false] at mem
    rcases mem with rfl | rfl | rfl | rfl | rfl | rfl | rfl
    case inr.inr.inr.inr.inr.inl => exact fun _ _ _ _ fails => fails.1 rfl
    all_goals exact trivial
  exact ⟨k0, k, trace, booted, run, message, current, ipc_exactlyOnce booted run⟩

/-- Env 0 makes its waiting child runnable, and the child runs. -/
def resumeRun : List Op :=
  [.envCreate emptyBinary 1, .timer zeroFrame, .call .exofork, .call (.setEnvStatus 4097 1), .call .yield,
    .call (.ipcRecv 0), .call (.setEnvStatus 4097 1), .call .yield]

set_option maxRecDepth 100000 in
theorem ipcRecv_returns_unsent : ∃ k0 k trace, clearBoot = some k0 ∧
    Run traced (fun _ _ => True) (k0, []) resumeRun (k, trace) ∧ ¬ ExactlyOnce k trace := by
  have check : (clearBoot.bind fun k0 => (Run.exec traced (k0, []) resumeRun).map fun s =>
      (received 1 s.2, s.1.curenv)) = some (some [], some 1) := by
    rw [clearBoot_eq]
    decide +kernel
  obtain ⟨k0, booted, check⟩ := Option.bind_eq_some_iff.mp check
  obtain ⟨⟨k, trace⟩, exec, check⟩ := Option.map_eq_some_iff.mp check
  obtain ⟨nothing, current⟩ := Prod.mk.injEq .. ▸ check
  refine ⟨k0, k, trace, booted, Run.of_exec (fun _ _ _ => trivial) exec, fun once => ?_⟩
  cases once.returned 1 [] current nothing

end Mos
