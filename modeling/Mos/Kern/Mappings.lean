import Mos.Kern.MachineRun

namespace Mos

/-- The address that the env in each slot gave in its last `sys_ipc_recv`. -/
abbrev Asked := EnvPtr → Option Word

def MachineOp.call : MachineOp → Option Call
  | .syscall tf out => (syscallAt (Args.of tf out.load) out (tf.regs 4).toNat).bind Sum.getLeft?
  | _ => none

def asks (k : Kernel) (op : MachineOp) (r : EnvPtr) : Option Word :=
  match op.call with
  | some (.ipcRecv dstva) => if k.curenv = some r ∧ ¬ (dstva ≠ 0 ∧ isIllegalVa dstva = true) then some dstva else none
  | _ => none

def mapping (s : Kernel × Asked) (op : MachineOp) : Option (Kernel × Asked) :=
  (machineStep s.1 op).map fun k => (k, fun r => asks s.1 op r <|> s.2 r)

def LegalVa (va : Word) : Prop := utemp ≤ va ∧ va < utop

/-- The page lies in `[UTEMP, UTOP)`. -/
def LegalPage (v : VPage) : Prop :=
  utemp.toNat ≤ (v.1.val * 1024 + v.2.val) * 4096 ∧ (v.1.val * 1024 + v.2.val) * 4096 < utop.toNat

/-- The page tables of `k'` map a page of `e` below `UTOP`, with another entry than those of `k`. -/
def Remapped (k k' : Kernel) (e : EnvPtr) (v : VPage) : Prop :=
  ¬ Shared v.1 ∧ leaf (rootsOf k') k'.vm e v ≠ none ∧ leaf (rootsOf k') k'.vm e v ≠ leaf (rootsOf k) k.vm e v

/-- A system call gives entries to legal pages only, and a message gives none to an env that asked for none. -/
structure LegalMappings (s : Kernel × Asked) (op : MachineOp) (k' : Kernel) : Prop where
  legal : ∀ e v, Remapped s.1 k' e v → LegalPage v
  asked : ∀ e v envid value srcva perm, op.call = some (.ipcTrySend envid value srcva perm) → s.2 e = some 0 →
    ¬ Remapped s.1 k' e v

/-- `sys_ipc_try_send` maps no page for an env that waits with the address 0. -/
def MapGuard (k : Kernel) (op : MachineOp) : Prop :=
  ∀ cur e envid value srcva perm, k.curenv = some cur → op.call = some (.ipcTrySend envid value srcva perm) →
    Accepts k cur envid srcva e → srcva ≠ 0 → HasPage k.vm (k.envs cur).envPgdir srcva → (k.envs e).envIpcDstva ≠ 0

variable {managed : Nat → Prop} {k k' mid : Kernel} {asked : Asked} {cur e : EnvPtr} {tf : Trapframe} {out : Outside}
variable {op : MachineOp} {v : VPage} {va : Word}

/-- `env_ipc_dstva` is the address last asked for, or 0, and it has been checked. -/
structure MapInv (k : Kernel) (asked : Asked) : Prop where
  dstva : ∀ r, (k.envs r).envIpcDstva = (asked r).getD 0
  checked : ∀ r, (k.envs r).envIpcDstva = 0 ∨ LegalVa (k.envs r).envIpcDstva

theorem legalVa_of_check {va : Word} (check : ¬ isIllegalVa va = true) : LegalVa va := by
  simp only [isIllegalVa, Bool.or_eq_true, decide_eq_true_eq, not_or, BitVec.not_lt, BitVec.not_le] at check
  exact check

theorem LegalVa.page (legal : LegalVa va) : LegalPage (vpageOf va) := by
  obtain ⟨low, high⟩ := legal
  have limits : utemp.toNat = 0x3fe000 ∧ utop.toNat = 0x7f400000 := by decide
  simp only [BitVec.le_def, BitVec.lt_def] at low high
  show utemp.toNat ≤ (pdx va * 1024 + ptx va) * 4096 ∧ (pdx va * 1024 + ptx va) * 4096 < utop.toNat
  rw [pdx_eq, ptx_eq]
  omega

/-- The fields that `sys_ipc_recv` and `sys_ipc_try_send` set. -/
def Env.ipc (env : Env) : Word × Word × Word × Word × Word :=
  (env.envIpcValue, env.envIpcFrom, env.envIpcPerm, env.envIpcRecving, env.envIpcDstva)

theorem Env.ipc_dstva {a b : Env} (same : b.ipc = a.ipc) : b.envIpcDstva = a.envIpcDstva :=
  congrArg (fun fields => fields.2.2.2.2) same

theorem schedule_ipc {yield : Bool} (h : schedule yield k = .ok () k') (r : EnvPtr) : (k'.envs r).ipc = (k.envs r).ipc := by
  obtain ⟨_, _, resumed⟩ := schedule_ok h
  rw [resumed.envs r]
  rfl

theorem Setup.ipc {e : EnvPtr} (setup : Setup e k k') (r : EnvPtr) : (k'.envs r).ipc = (k.envs r).ipc := by
  by_cases here : r = e
  · subst here
    rw [setup.env]
    rfl
  · rw [setup.others r here]

theorem sysExofork_ipc (h : (sysExofork cur k).state = some k') (r : EnvPtr) : (k'.envs r).ipc = (k.envs r).ipc := by
  rcases sysExofork_state h with ⟨code, alloc⟩ | ⟨e, mid, alloc, rfl⟩
  · obtain ⟨e, _, setup, _⟩ := envAlloc_err alloc
    exact setup.ipc r
  · have same := (envAlloc_ok alloc).1.ipc r
    by_cases here : r = e
    · subst here
      rw [← same]
      simp [forked, Kernel.updateEnv, Env.ipc]
    · rw [forked_others here, same]

theorem envCreate_ipc {binary : Binary} {priority : Word} (h : (envCreate binary priority k).state = some k') (r : EnvPtr) :
    (k'.envs r).ipc = (k.envs r).ipc := by
  obtain ⟨e, mid, alloc, created, _⟩ := envCreate_state h
  rw [← (envAlloc_ok alloc).1.ipc r]
  by_cases here : r = e
  · rw [here, created.env]
    rfl
  · rw [created.others r here]

theorem sysEnvDestroy_ipc {envid status : Word} (current : k.curenv = some cur)
    (h : (sysEnvDestroy cur envid status k).state = some k') (r : EnvPtr) : (k'.envs r).ipc = (k.envs r).ipc := by
  rcases sysEnvDestroy_state current h with ⟨rfl, _⟩ | ⟨mid, left, zombie, h, _⟩ | ⟨e, reaps, free⟩
  · rfl
  · rw [schedule_ipc h]
    by_cases here : r = cur
    · rw [here, zombie]
      rfl
    · rw [left.others r here]
  · have freed := envFree_ok free
    by_cases here : r = e
    · rw [here, freed.env]
      rfl
    · rw [freed.others r here]

theorem sysSetEnvStatus_ipc {envid status : Word} (h : (sysSetEnvStatus cur envid status k).state = some k') (r : EnvPtr) :
    (k'.envs r).ipc = (k.envs r).ipc := by
  rcases sysSetEnvStatus_state h with ⟨rfl, _⟩ | ⟨e, q, _, _, h⟩
  · rfl
  · have set : ((setStatus k e (statusOf status) q).envs r).ipc = (k.envs r).ipc := by
      by_cases here : r = e
      · rw [here, setStatus_self]
        rfl
      · rw [setStatus_others here]
    split at h
    · rw [schedule_ipc h, set]
    · rw [h, set]

theorem ipcDeliver_dstva (cur e : EnvPtr) (value perm : Word) (k : Kernel) (r : EnvPtr) :
    ((ipcDeliver cur e value perm k).envs r).envIpcDstva = (k.envs r).envIpcDstva := by
  by_cases here : r = e
  · rw [here, ipcDeliver_self]
  · rw [ipcDeliver_others here]

theorem syscall_ipc {call : Call} (current : k.curenv = some cur) (h : (syscallTable cur call k).state = some k')
    (recv : ∀ dstva, call ≠ .ipcRecv dstva) (send : ∀ envid value srcva perm, call ≠ .ipcTrySend envid value srcva perm)
    (r : EnvPtr) : (k'.envs r).ipc = (k.envs r).ipc := by
  cases call with
  | yield => exact schedule_ipc (schedule_state (switch_state h)) r
  | memUnmap envid va =>
    obtain ⟨vm, rfl⟩ := sysMemUnmap_state h
    rfl
  | memAlloc envid va perm =>
    obtain ⟨vm, rfl⟩ := sysMemAlloc_state h
    rfl
  | memMap srcid srcva dstid dstva perm =>
    obtain ⟨vm, rfl⟩ := sysMemMap_state h
    rfl
  | exofork => exact sysExofork_ipc h r
  | envDestroy envid status => exact sysEnvDestroy_ipc current h r
  | setEnvStatus envid status => exact sysSetEnvStatus_ipc h r
  | ipcRecv dstva => exact absurd rfl (recv dstva)
  | ipcTrySend envid value srcva perm => exact absurd rfl (send envid value srcva perm)

theorem syscall_dstva {call : Call} (current : k.curenv = some cur) (h : (syscallTable cur call k).state = some k')
    (other : ∀ dstva, call = .ipcRecv dstva → dstva ≠ 0 ∧ isIllegalVa dstva = true) (r : EnvPtr) :
    (k'.envs r).envIpcDstva = (k.envs r).envIpcDstva := by
  by_cases recv : ∃ dstva, call = .ipcRecv dstva
  · obtain ⟨dstva, rfl⟩ := recv
    rcases sysIpcRecv_state h with ⟨_, rfl⟩ | ⟨valid, _⟩
    · rfl
    · exact absurd (other dstva rfl) valid
  by_cases send : ∃ envid value srcva perm, call = .ipcTrySend envid value srcva perm
  · obtain ⟨envid, value, srcva, perm, rfl⟩ := send
    rcases sysIpcTrySend_state h with ⟨rfl, _⟩ | ⟨e, vm, _, rfl⟩
    · rfl
    · exact ipcDeliver_dstva cur e value perm k r
  refine Env.ipc_dstva (syscall_ipc current h (fun dstva eq => recv ⟨dstva, eq⟩) (fun envid value srcva perm eq => ?_) r)
  exact send ⟨envid, value, srcva, perm, eq⟩

section Step

theorem step_dstva {op : Op} (h : step k op = some k') (other : ∀ tf call, op ≠ .syscall tf call) (r : EnvPtr) :
    (k'.envs r).envIpcDstva = (k.envs r).envIpcDstva := by
  cases op with
  | syscall tf call => exact absurd rfl (other tf call)
  | timer tf => exact Env.ipc_dstva (schedule_ipc (schedule_state h) r)
  | tlbRefill va victim =>
    obtain ⟨cur, _, h⟩ := Option.bind_eq_some_iff.mp h
    obtain ⟨vm, rfl⟩ := withVm_state h
    rfl
  | envCreate binary priority => exact Env.ipc_dstva (envCreate_ipc h r)

theorem Serves.dstva (serves : Serves cur k k') (r : EnvPtr) : (k'.envs r).envIpcDstva = (k.envs r).envIpcDstva := by
  induction serves with
  | refl => rfl
  | tail _ serve ih =>
    rw [serve.envs r]
    exact ih

theorem Serve.leaves (serve : Serve cur k k') (pages : PageInv managed k) (inv : TlbInv managed k) (e : EnvPtr) :
    leaf (rootsOf k') k'.vm e = leaf (rootsOf k) k.vm e := by
  rw [serve.roots]
  rcases serve.vm with vm | ⟨r, q, words, mine, full, vm⟩
  · rw [vm]
  · refine leaf_congr pages.pages inv.template (fun r' p kind there => ?_) fun p out => ?_
    · have other : p ≠ q := fun eq => mine.notTable pages.pages full r' kind (eq ▸ there)
      rw [vm]
      exact Function.update_of_ne other _ _
    · have other : p ≠ q := fun eq => out (eq ▸ pages.pages.owned r q full)
      rw [vm]
      exact Function.update_of_ne other _ _

theorem Serves.leaves (serves : Serves cur k k') (inv : MachineInv k) (e : EnvPtr) :
    leaf (rootsOf k') k'.vm e = leaf (rootsOf k) k.vm e := by
  induction serves with
  | refl => rfl
  | tail first serve ih =>
    obtain ⟨managed, pages, tlb⟩ := (Serves.inv first inv).1.pages
    exact (serve.leaves pages tlb e).trans ih

theorem syscallAt_lt {a : Args} {n : Nat} {call : Call ⊕ UserCall} (h : syscallAt a out n = some call) : n < 24 := by
  by_contra large
  have none : syscallAt a out n = none := by
    unfold syscallAt
    split
    all_goals first
      | rfl
      | exact absurd (by decide) large
  cases none.symm.trans h

theorem machineStep_calls (inv : MachineInv k) (h : machineStep k (.syscall tf out) = some k') :
    ∃ cur, k.curenv = some cur ∧ ((∃ call mid after, (MachineOp.syscall tf out).call = some call ∧
      (syscallTable cur call (k.trap tf)).state = some mid ∧ k' = { mid with tf := after }) ∨
      ((MachineOp.syscall tf out).call = none ∧ Serves cur k k')) := by
  obtain ⟨cur, current, h⟩ := Option.bind_eq_some_iff.mp h
  refine ⟨cur, current, ?_⟩
  by_cases valid : (tf.regs 4).toInt < 0 ∨ maxSysno ≤ (tf.regs 4).toInt
  · rw [doAnySyscall, if_pos valid] at h
    cases h
    refine .inr ⟨?_, .single (.frame _)⟩
    cases entry : syscallAt (Args.of tf out.load) out (tf.regs 4).toNat with
    | none => rw [MachineOp.call, entry, Option.bind_none]
    | some call => exact absurd valid (sysno_valid.mpr (syscallAt_lt entry))
  · cases entry : syscallAt (Args.of tf out.load) out (tf.regs 4).toNat with
    | none =>
      rw [doAnySyscall, if_neg valid, entry] at h
      cases h
    | some call =>
      cases call with
      | inl call =>
        rw [doAnySyscall, if_neg valid, entry] at h
        obtain ⟨after, mid, called, rfl⟩ := doSyscall_state h
        exact .inl ⟨call, mid, after, by rw [MachineOp.call, entry]; rfl, called, rfl⟩
      | inr call =>
        exact .inr ⟨by rw [MachineOp.call, entry]; rfl, userCall_serves inv current entry valid h⟩

theorem MapInv.same (inv : MapInv k asked) (same : ∀ r, (k'.envs r).envIpcDstva = (k.envs r).envIpcDstva) : MapInv k' asked := by
  refine ⟨fun r => ?_, fun r => ?_⟩
  · rw [same]
    exact inv.dstva r
  · rw [same]
    exact inv.checked r

theorem sysIpcRecv_mapInv {dstva : Word} (inv : MapInv k asked) (current : k.curenv = some cur)
    (h : (sysIpcRecv cur dstva k).state = some k') : MapInv k' fun r =>
      (if k.curenv = some r ∧ ¬ (dstva ≠ 0 ∧ isIllegalVa dstva = true) then some dstva else none) <|> asked r := by
  rcases sysIpcRecv_state h with ⟨bad, rfl⟩ | ⟨valid, mid, left, blocked, h⟩
  · have refused (r : EnvPtr) : ¬ (k'.curenv = some r ∧ ¬ (dstva ≠ 0 ∧ isIllegalVa dstva = true)) := fun good => good.2 bad
    simp only [if_neg (refused _)]
    exact inv
  · have others (r : EnvPtr) (other : r ≠ cur) : (k'.envs r).envIpcDstva = (k.envs r).envIpcDstva := by
      rw [Env.ipc_dstva (schedule_ipc h r), left.others r other]
    have here : (k'.envs cur).envIpcDstva = dstva := by rw [Env.ipc_dstva (schedule_ipc h cur), blocked]
    have unasked {r : EnvPtr} (other : r ≠ cur) : k.curenv ≠ some r := by
      rw [current]
      exact fun eq => other (Option.some.inj eq).symm
    refine ⟨fun r => ?_, fun r => ?_⟩
    · by_cases same : r = cur
      · subst same
        rw [here, if_pos ⟨current, valid⟩]
        rfl
      · rw [others r same, if_neg fun asked => unasked same asked.1]
        exact inv.dstva r
    · by_cases same : r = cur
      · subst same
        rw [here]
        by_cases zero : dstva = 0
        · exact .inl zero
        · exact .inr (legalVa_of_check fun illegal => valid ⟨zero, illegal⟩)
      · rw [others r same]
        exact inv.checked r

theorem machineStep_mapInv (inv : MachineInv k) (meets : MachineGuard k op) (map : MapInv k asked)
    (h : machineStep k op = some k') : MapInv k' fun r => asks k op r <|> asked r := by
  have quiet (none : op.call = none) (same : ∀ r, (k'.envs r).envIpcDstva = (k.envs r).envIpcDstva) :
      MapInv k' fun r => asks k op r <|> asked r := by
    simp only [asks, none]
    exact map.same same
  cases op with
  | timer tf => exact quiet rfl (step_dstva (show step k (.timer tf) = some k' from h) fun _ _ eq => by cases eq)
  | tlbRefill va victim => exact quiet rfl (step_dstva (show step k (.tlbRefill va victim) = some k' from h) fun _ _ eq => by cases eq)
  | envCreate binary priority =>
    have same := step_dstva (show step k (.envCreate binary priority) = some k' from h) fun _ _ eq => by cases eq
    exact quiet rfl same
  | store va byte =>
    obtain ⟨cur, current, h⟩ := Option.bind_eq_some_iff.mp h
    have user : ∀ s ∈ [(va, byte)], s.1 < utop := by
      intro s inside
      rw [List.mem_singleton.mp inside]
      exact meets
    exact quiet rfl (storeBytes_serves inv current user h).dstva
  | tlbMod tf =>
    obtain ⟨cur, current, h⟩ := Option.bind_eq_some_iff.mp h
    exact quiet rfl (doTlbMod_serves inv current h).dstva
  | kernelMod tf out inner =>
    obtain ⟨cur, current, h⟩ := Option.bind_eq_some_iff.mp h
    exact quiet rfl (kernelMod_serves inv current h).dstva
  | syscall tf out =>
    obtain ⟨cur, current, ⟨call, mid, after, entry, called, rfl⟩ | ⟨none, serves⟩⟩ := machineStep_calls inv h
    · have trapped : MapInv (k.trap tf) asked := map.same fun _ => rfl
      by_cases receives : ∃ dstva, call = .ipcRecv dstva
      · obtain ⟨dstva, rfl⟩ := receives
        simp only [asks, entry]
        exact (sysIpcRecv_mapInv trapped current called).same fun _ => rfl
      · have unasked : asks k (.syscall tf out) = fun _ => none := by
          funext r
          simp only [asks, entry]
          cases call with
          | ipcRecv dstva => exact absurd ⟨dstva, rfl⟩ receives
          | _ => rfl
        simp only [unasked]
        exact (trapped.same (syscall_dstva current called fun dstva eq => absurd ⟨dstva, eq⟩ receives)).same fun _ => rfl
    · exact quiet none serves.dstva

end Step

section New

variable {call : Call} {P : EnvPtr → VPage → Prop}

/-- New entries are as `P` says. -/
def newRel (P : EnvPtr → VPage → Prop) : LeafRel := fun e v before after => after ≠ none → after ≠ before → P e v

theorem newRel_order : (newRel P).Order := by
  refine ⟨fun _ _ _ _ new => absurd rfl new, fun {e v x y z} first second there new => ?_⟩
  by_cases same : z = y
  · subst same
    exact first there new
  · exact second there same

theorem newRel_none (e : EnvPtr) (v : VPage) (before : Option Word) : newRel P e v before none := fun there => absurd rfl there

theorem syscall_new (pages : PageInv managed k) (tlb : TlbInv managed k) (env : EnvInv k) (current : k.curenv = some cur)
    (maps : ∀ e v perm, Maps k (.syscall tf call) e v perm → P e v)
    (h : (syscallTable cur call (k.trap tf)).state = some k') (new : Remapped k k' e v) : P e v :=
  syscall_leaves newRel_order pages tlb.template env current (fun e s x _ => newRel_none e s x)
    (fun e s _ _ perm there _ _ => maps e s perm there) h e v new.1 new.2.1 new.2.2

theorem sysIpcTrySend_empty {envid value srcva perm : Word} (env : EnvInv k) (current : k.curenv = some cur)
    (empty : ¬ (srcva ≠ 0 ∧ HasPage k.vm (k.envs cur).envPgdir srcva))
    (h : (sysIpcTrySend cur envid value srcva perm k).state = some k') : ¬ Remapped k k' e v := by
  rintro ⟨own, there, new⟩
  apply new
  rcases sysIpcTrySend_runs h with rfl | ⟨r, vm, accepts, rfl, moved⟩
  · rfl
  · have roots : rootsOf ((ipcDeliver cur r value perm k).putVm vm) = rootsOf k :=
      ipcDeliver_roots (env.target_used current accepts.env)
    rcases moved with rfl | ⟨sends, has, _⟩
    · rw [roots]
      rfl
    · exact absurd ⟨sends, has⟩ empty

theorem sysMemAlloc_illegal {envid va perm : Word} (illegal : isIllegalVa va = true)
    (h : (sysMemAlloc cur envid va perm k).state = some k') : k' = k := by
  rw [sysMemAlloc, if_pos illegal] at h
  exact (Option.some.inj h).symm

theorem sysMemMap_illegal {srcid srcva dstid dstva perm : Word} (illegal : isIllegalVa dstva = true)
    (h : (sysMemMap cur srcid srcva dstid dstva perm k).state = some k') : k' = k := by
  rw [sysMemMap, if_pos (by rw [illegal, Bool.or_true])] at h
  exact (Option.some.inj h).symm

theorem not_remapped (e : EnvPtr) (v : VPage) : ¬ Remapped k k e v := fun new => new.2.2 rfl

theorem call_legal (pages : PageInv managed k) (tlb : TlbInv managed k) (env : EnvInv k) (current : k.curenv = some cur)
    (map : MapInv k asked) (entry : op.call = some call) (meets : MapGuard k op)
    (h : (syscallTable cur call (k.trap tf)).state = some k') (new : Remapped k k' e v) : LegalPage v := by
  have none (maps : ∀ e v perm, ¬ Maps k (.syscall tf call) e v perm) : LegalPage v :=
    syscall_new (P := fun _ => LegalPage) pages tlb env current (fun e v perm there => absurd there (maps e v perm)) h new
  cases call with
  | memAlloc envid va perm =>
    by_cases illegal : isIllegalVa va = true
    · obtain rfl := sysMemAlloc_illegal illegal h
      exact absurd new (not_remapped e v)
    · refine syscall_new (P := fun _ => LegalPage) pages tlb env current (fun e v perm there => ?_) h new
      cases there
      exact (legalVa_of_check illegal).page
  | memMap srcid srcva dstid dstva perm =>
    by_cases illegal : isIllegalVa dstva = true
    · obtain rfl := sysMemMap_illegal illegal h
      exact absurd new (not_remapped e v)
    · refine syscall_new (P := fun _ => LegalPage) pages tlb env current (fun e v perm there => ?_) h new
      cases there
      exact (legalVa_of_check illegal).page
  | ipcTrySend envid value srcva perm =>
    by_cases page : srcva ≠ 0 ∧ HasPage k.vm (k.envs cur).envPgdir srcva
    · refine syscall_new (P := fun _ => LegalPage) pages tlb env current (fun e v perm there => ?_) h new
      cases there with
      | ipcTrySend running accepts sends =>
        obtain rfl := Option.some.inj (current.symm.trans running)
        have some := meets _ _ envid value srcva _ current entry accepts sends page.2
        exact ((map.checked _).resolve_left some).page
    · exact absurd new (sysIpcTrySend_empty (k := k.trap tf) (env.setFrame _) current page h)
  | _ => exact none fun e v perm there => by cases there

theorem send_asked {envid value srcva perm : Word} (pages : PageInv managed k) (tlb : TlbInv managed k) (env : EnvInv k)
    (current : k.curenv = some cur) (map : MapInv k asked) (entry : op.call = some (.ipcTrySend envid value srcva perm))
    (meets : MapGuard k op) (h : (sysIpcTrySend cur envid value srcva perm (k.trap tf)).state = some k')
    (none : asked e = some 0) : ¬ Remapped k k' e v := by
  intro new
  by_cases page : srcva ≠ 0 ∧ HasPage k.vm (k.envs cur).envPgdir srcva
  · have maps : ∀ e v perm', Maps k (.syscall tf (.ipcTrySend envid value srcva perm)) e v perm' → asked e ≠ some 0 := by
      intro e v perm' there zero
      cases there with
      | ipcTrySend running accepts sends =>
        obtain rfl := Option.some.inj (current.symm.trans running)
        apply meets _ _ envid value srcva _ current entry accepts sends page.2
        rw [map.dstva, zero]
        rfl
    exact syscall_new pages tlb env current maps h new none
  · exact sysIpcTrySend_empty (k := k.trap tf) (env.setFrame _) current page h new

end New

/-- In every run from boot and at each of its steps, system calls map pages in `[UTEMP, UTOP)` only, and a message maps none
    for an env that asked for none. -/
theorem mappings_legal {npage : Nat} {mem : Nat → Nat → Word} {k0 : Kernel} {ops : List MachineOp} {s : Kernel × Asked}
    (small : npage ≤ 2^20) (booted : boot npage mem = some k0)
    (run : Run mapping (fun s op => MachineGuard s.1 op ∧ MapGuard s.1 op) (k0, fun _ => none) ops s)
    (meets : MapGuard s.1 (.syscall tf out)) (h : machineStep s.1 (.syscall tf out) = some k') :
    LegalMappings s (.syscall tf out) k' := by
  have none : MapInv k0 fun _ => Option.none := by
    obtain ⟨p, vm, _, _, rfl⟩ := boot_init booted
    exact ⟨fun _ => rfl, fun _ => .inl rfl⟩
  obtain ⟨inv, map⟩ := run.invariant (fun s => MachineInv s.1 ∧ MapInv s.1 s.2) ⟨boot_machineInv small booted, none⟩
    fun t op u inv meets next => by
      obtain ⟨k, taken, rfl⟩ := Option.map_eq_some_iff.mp next
      exact ⟨machineStep_inv inv.1 meets.1 taken, machineStep_mapInv inv.1 meets.1 inv.2 taken⟩
  obtain ⟨managed, pages, tlb⟩ := inv.pages
  obtain ⟨cur, current, ⟨call, mid, after, entry, called, rfl⟩ | ⟨other, serves⟩⟩ := machineStep_calls inv h
  · refine ⟨fun e v new => ?_, fun e v envid value srcva perm sends none new => ?_⟩
    · exact call_legal pages tlb inv.env current map entry meets called new
    · cases entry.symm.trans sends
      exact send_asked pages tlb inv.env current map entry meets called none new
  · refine ⟨fun e v new => absurd (congrFun (serves.leaves inv e) v) new.2.2, fun e v _ _ _ _ sends => ?_⟩
    cases other.symm.trans sends

def mapCall (n a b c : Word) : Trapframe := (((zeroFrame.setReg 4 n).setReg 5 a).setReg 6 b).setReg 7 c

/-- Env 0 waits with `dstva` and env 1 maps a page. -/
def pageRun (dstva : Word) : List MachineOp :=
  [.envCreate emptyBinary 1, .envCreate emptyBinary 1, .timer zeroFrame, .syscall (mapCall 3 0 0 0) silence,
    .syscall (mapCall 14 dstva 0 0) silence, .syscall (mapCall 6 0 0x400000 pteD) silence]

def pageSent : Trapframe := mapCall 13 2048 7 0x400000

set_option maxRecDepth 100000 in
theorem mappings_legal_pageRun : ∃ k0 s k', clearBoot = some k0 ∧
    Run mapping (fun s op => MachineGuard s.1 op ∧ MapGuard s.1 op) (k0, fun _ => none) (pageRun 0x500000) s ∧
    s.2 0 = some 0x500000 ∧ machineStep s.1 (.syscall pageSent silence) = some k' ∧ Remapped s.1 k' 0 (vpageOf 0x500000) ∧
    LegalMappings s (.syscall pageSent silence) k' := by
  have check : (clearBoot.bind fun k0 => (Run.exec mapping (k0, fun _ => none) (pageRun 0x500000)).bind fun s =>
      (envid2env s.1 1 2048 false).toOption.bind fun e => (machineStep s.1 (.syscall pageSent silence)).map fun k' =>
        ((s.1.curenv, e, (s.1.envs 0).envIpcDstva, s.2 0), leaf (rootsOf s.1) s.1.vm 0 (vpageOf 0x500000),
          (leaf (rootsOf k') k'.vm 0 (vpageOf 0x500000)).isSome)) =
      some ((some 1, 0, 0x500000, some 0x500000), none, true) := by
    rw [clearBoot_eq]
    decide +kernel
  obtain ⟨k0, booted, check⟩ := Option.bind_eq_some_iff.mp check
  obtain ⟨s, exec, check⟩ := Option.bind_eq_some_iff.mp check
  obtain ⟨e, found, check⟩ := Option.bind_eq_some_iff.mp check
  obtain ⟨k', last, check⟩ := Option.map_eq_some_iff.mp check
  simp only [Prod.mk.injEq] at check
  obtain ⟨⟨current, rfl, dstva, asked⟩, before, after⟩ := check
  have run : Run mapping (fun s op => MachineGuard s.1 op ∧ MapGuard s.1 op) (k0, fun _ => none) (pageRun 0x500000) s := by
    refine Run.of_exec (fun op mem t => ?_) exec
    have plain : ∀ (call : Call) {n a b c : Word},
        syscallAt (Args.of (mapCall n a b c) silence.load) silence n.toNat = some (.inl call) →
        TlbGuard t.1 (.syscall (mapCall n a b c) call) → (∀ envid value srcva perm, call ≠ .ipcTrySend envid value srcva perm) →
        MachineGuard t.1 (.syscall (mapCall n a b c) silence) ∧ MapGuard t.1 (.syscall (mapCall n a b c) silence) := by
      intro call n a b c entry meets other
      have same : (MachineOp.syscall (mapCall n a b c) silence).call = some call := by
        rw [MachineOp.call, show (mapCall n a b c).regs 4 = n from rfl, entry]
        rfl
      refine ⟨fun call' entry' => ?_, fun cur e envid value srcva perm _ sends => ?_⟩
      · cases entry.symm.trans entry'
        exact meets
      · exact absurd (Option.some.inj (same.symm.trans sends)) (other envid value srcva perm)
    simp only [pageRun, List.mem_cons, List.not_mem_nil, or_false] at mem
    rcases mem with rfl | rfl | rfl | rfl | rfl | rfl
    · exact ⟨fun page inside => (by cases inside), fun _ _ _ _ _ _ _ sends => by cases sends⟩
    · exact ⟨fun page inside => (by cases inside), fun _ _ _ _ _ _ _ sends => by cases sends⟩
    · exact ⟨trivial, fun _ _ _ _ _ _ _ sends => by cases sends⟩
    · exact plain .yield rfl trivial fun _ _ _ _ eq => by cases eq
    · exact plain (.ipcRecv 0x500000) rfl trivial fun _ _ _ _ eq => by cases eq
    · exact plain (.memAlloc 0 0x400000 pteD) rfl (by decide : FlagBits pteD) fun _ _ _ _ eq => by cases eq
  have meets : MapGuard s.1 (.syscall pageSent silence) := by
    intro cur e envid value srcva perm running sends accepts _ _
    cases sends
    obtain rfl := Option.some.inj (current.symm.trans running)
    obtain rfl := Except.ok.inj ((toOption_ok found).symm.trans accepts.env)
    rw [dstva]
    decide
  have there := Option.isSome_iff_ne_none.mp after
  refine ⟨k0, s, k', booted, run, asked, last, ⟨by decide, there, ?_⟩, mappings_legal (by decide) booted run meets last⟩
  rw [before]
  exact there

set_option maxRecDepth 100000 in
theorem ipcTrySend_maps_null : ∃ k0 s k', clearBoot = some k0 ∧
    Run mapping (fun _ _ => True) (k0, fun _ => none) (pageRun 0) s ∧ s.2 0 = some 0 ∧
    machineStep s.1 (.syscall pageSent silence) = some k' ∧ Remapped s.1 k' 0 (vpageOf 0) ∧
    ¬ LegalMappings s (.syscall pageSent silence) k' := by
  have check : (clearBoot.bind fun k0 => (Run.exec mapping (k0, fun _ => none) (pageRun 0)).bind fun s =>
      (machineStep s.1 (.syscall pageSent silence)).map fun k' => (s.2 0, leaf (rootsOf s.1) s.1.vm 0 (vpageOf 0),
          (leaf (rootsOf k') k'.vm 0 (vpageOf 0)).isSome)) = some (some 0, none, true) := by
    rw [clearBoot_eq]
    decide +kernel
  obtain ⟨k0, booted, check⟩ := Option.bind_eq_some_iff.mp check
  obtain ⟨s, exec, check⟩ := Option.bind_eq_some_iff.mp check
  obtain ⟨k', last, check⟩ := Option.map_eq_some_iff.mp check
  simp only [Prod.mk.injEq] at check
  obtain ⟨asked, before, after⟩ := check
  have there := Option.isSome_iff_ne_none.mp after
  have new : Remapped s.1 k' 0 (vpageOf 0) := ⟨by decide, there, by rw [before]; exact there⟩
  exact ⟨k0, s, k', booted, Run.of_exec (fun _ _ _ => trivial) exec, asked, last, new, fun legal => absurd (legal.legal 0 _ new) (by
    unfold LegalPage
    decide)⟩

end Mos
