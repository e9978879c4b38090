import Mos.Kern.EnvInv

namespace Mos

/-- What an env's slot in `envs` is used for. -/
structure Slot where
  id : Word
  asid : Fin 256
  parent : Word
  status : EnvStatus
  exitStatus : Word
  recving : Word

/-- The env table of the kernel: the slots, the free ones in the order of their use, the ASIDs in use and the
    env that runs. -/
structure Table where
  slots : EnvPtr → Slot
  freeList : List EnvPtr
  asids : Fin 256 → Bool
  current : Option EnvPtr

inductive Event where
  | quiet
  | create (e : EnvPtr) (parent : Option EnvPtr)
  | exit (e : EnvPtr) (status : Word)
  | reap (parent e : EnvPtr)
  | setStatus (caller e : EnvPtr) (status : EnvStatus)
  | deliver (e : EnvPtr)
  | receive (e : EnvPtr)
deriving DecidableEq

namespace Table

def set (t : Table) (e : EnvPtr) (s : Slot) : Table := { t with slots := Function.update t.slots e s }

@[simp] theorem set_self (t : Table) (e : EnvPtr) (s : Slot) : (t.set e s).slots e = s := by simp [set]

theorem set_other (t : Table) {e b : EnvPtr} (s : Slot) (ne : b ≠ e) : (t.set e s).slots b = t.slots b := by
  simp [set, ne]

def Runnable (t : Table) (e : EnvPtr) : Prop := (t.slots e).status = .runnable

/-- `caller` may act on `e`: itself or an immediate child. -/
def Controls (t : Table) (caller e : EnvPtr) : Prop := e = caller ∨ (t.slots e).parent = (t.slots caller).id

/-- One step of the env table. A step that gives up the processor ends with another runnable env. -/
inductive Step (t : Table) : Event → Table → Prop where
  | quiet {next : Option EnvPtr} (resumes : next = t.current ∨ ∃ b, next = some b ∧ t.Runnable b) :
      Step t .quiet { t with current := next }
  | create {e : EnvPtr} {parent : Option EnvPtr} {rest : List EnvPtr} {id : Word} {asid : Fin 256} {status : EnvStatus}
      (list : t.freeList = e :: rest) (index : envx id = e) (unused : t.asids asid = false) (used : status ≠ .free)
      (alive : status ≠ .zombie) (caller : ∀ p, parent = some p → t.current = some p) :
      Step t (.create e parent)
        { t.set e { t.slots e with id := id, asid := asid, status := status,
                                   parent := (parent.map fun p => (t.slots p).id).getD 0 } with
          freeList := rest, asids := Function.update t.asids asid true }
  | exit {e next : EnvPtr} {status : Word} (current : t.current = some e)
      (runs : (t.set e { t.slots e with exitStatus := status, status := .zombie }).Runnable next) :
      Step t (.exit e status)
        { t.set e { t.slots e with exitStatus := status, status := .zombie } with current := some next }
  | reap {parent e : EnvPtr} (current : t.current = some parent) (other : e ≠ parent)
      (child : (t.slots e).parent = (t.slots parent).id) (zombie : (t.slots e).status = .zombie) :
      Step t (.reap parent e)
        { t.set e { t.slots e with status := .free } with
          freeList := e :: t.freeList, asids := Function.update t.asids (t.slots e).asid false }
  | setStatus {caller e : EnvPtr} {status : EnvStatus} {next : Option EnvPtr} (current : t.current = some caller)
      (controls : t.Controls caller e) (used : (t.slots e).status ≠ .free)
      (target : status = .runnable ∨ status = .notRunnable)
      (resumes : (e ≠ caller ∧ next = t.current) ∨
        ∃ b, next = some b ∧ (t.set e { t.slots e with status := status }).Runnable b) :
      Step t (.setStatus caller e status) { t.set e { t.slots e with status := status } with current := next }
  | deliver {e : EnvPtr} (used : (t.slots e).status ≠ .free) (recving : (t.slots e).recving = 1) :
      Step t (.deliver e) (t.set e { t.slots e with recving := 0, status := .runnable })
  | receive {e next : EnvPtr} (current : t.current = some e)
      (runs : (t.set e { t.slots e with recving := 1, status := .notRunnable }).Runnable next) :
      Step t (.receive e)
        { t.set e { t.slots e with recving := 1, status := .notRunnable } with current := some next }

end Table

def Env.slot (env : Env) : Slot :=
  { id := env.envId, asid := env.envAsid, parent := env.envParentId, status := env.envStatus,
    exitStatus := env.envExitStatus, recving := env.envIpcRecving }

def Kernel.table (k : Kernel) : Table :=
  { slots := fun e => (k.envs e).slot, freeList := k.envFreeList, asids := k.asidBitmap, current := k.curenv }

/-- What a system call of `cur` does to the env table. -/
def callEvent (k : Kernel) (cur : EnvPtr) : Call → Event
  | .envDestroy envid status =>
    match envid2env k cur envid true with
    | .ok e => if e = cur then .exit cur status
        else if (k.envs e).envParentId = (k.envs cur).envId ∧ (k.envs e).envStatus = .zombie then .reap cur e else .quiet
    | .error _ => .quiet
  | .exofork =>
    match envAlloc (k.envs cur).envId k with
    | .ok e _ => .create e (some cur)
    | _ => .quiet
  | .setEnvStatus envid status =>
    match envid2env k cur envid true with
    | .ok e => if status = EnvStatus.runnable.code ∨ status = EnvStatus.notRunnable.code
        then .setStatus cur e (statusOf status) else .quiet
    | .error _ => .quiet
  | .ipcTrySend envid _ srcva _ =>
    match envid2env k cur envid false with
    | .ok e => if (srcva ≠ 0 ∧ isIllegalVa srcva = true) ∨ (k.envs e).envIpcRecving ≠ 1 then .quiet else .deliver e
    | .error _ => .quiet
  | .ipcRecv dstva => if dstva ≠ 0 ∧ isIllegalVa dstva = true then .quiet else .receive cur
  | _ => .quiet

def event (k : Kernel) : Op → Event
  | .syscall tf call =>
    match k.curenv with
    | some cur => callEvent (k.trap tf) cur call
    | none => .quiet
  | .envCreate _ _ =>
    match envAlloc 0 k with
    | .ok e _ => .create e none
    | _ => .quiet
  | _ => .quiet

theorem envx_mkenvid (k : Kernel) (e : EnvPtr) : envx (mkenvid k e).1 = e := by
  have mask : (1023 : Word).toNat = 2 ^ 10 - 1 := rfl
  have high : (k.mkenvidI + 1) <<< 11 &&& (1023 : Word) = 0#32 := by
    apply BitVec.eq_of_toNat_eq
    rw [BitVec.toNat_and, mask, Nat.and_two_pow_sub_one_eq_mod, BitVec.toNat_shiftLeft, Nat.shiftLeft_eq]
    show _ = 0
    omega
  have low : (BitVec.ofNat 32 e.val &&& (1023 : Word)).toNat = e.val := by
    rw [BitVec.toNat_and, mask, Nat.and_two_pow_sub_one_eq_mod, BitVec.toNat_ofNat]
    omega
  apply Fin.ext
  simp only [envx, mkenvid, BitVec.and_or_distrib_right, high, BitVec.zero_or, low]
  exact Nat.mod_eq_of_lt e.isLt

theorem envSetupVm_slot {e : EnvPtr} {k k' : Kernel} {u : Unit} (h : envSetupVm e k = .ok u k') (b : EnvPtr) :
    (k'.envs b).slot = (k.envs b).slot ∧ k'.asidBitmap = k.asidBitmap := by
  obtain ⟨p, vm, _, rfl⟩ := envSetupVm_runs h
  refine ⟨?_, rfl⟩
  by_cases same : b = e
  · subst same
    simp [Kernel.putVm, Kernel.updateEnv, Env.slot]
  · simp [Kernel.putVm, Kernel.updateEnv, same]

/-- The slot that a successful `env_alloc` fills in. -/
structure Allots (parentId : Word) (e : EnvPtr) (k k' : Kernel) : Prop where
  index : envx (k'.envs e).envId = e
  unused : k.asidBitmap (k'.envs e).envAsid = false
  asids : k'.asidBitmap = Function.update k.asidBitmap (k'.envs e).envAsid true
  parent : (k'.envs e).envParentId = parentId

theorem envAlloc_allots {parentId : Word} {e : EnvPtr} {k k' : Kernel} (h : envAlloc parentId k = .ok e k') :
    Allots parentId e k k' := by
  obtain ⟨k1, k2, vars, vm, asid, ran⟩ := envAlloc_runs h
  obtain ⟨asids, given, parent⟩ := ran.asids
  refine ⟨?_, ?_, ?_, parent⟩
  · rw [ran.number.2]
    exact envx_mkenvid k e
  · rw [given]
    exact ran.unused
  · rw [given]
    exact asids

theorem envAlloc_err_table {parentId code : Word} {k k' : Kernel} (h : envAlloc parentId k = .err code k') :
    k'.table = k.table := by
  obtain ⟨e, _, setup, list⟩ := envAlloc_err h
  have slots : ∀ b, (k'.envs b).slot = (k.envs b).slot ∧ k'.asidBitmap = k.asidBitmap := by
    intro b
    cases envAlloc_refuses h with
    | envs => exact ⟨rfl, rfl⟩
    | pgdir => exact ⟨rfl, rfl⟩
    | vars _ given => exact envSetupVm_slot given b
    | @asid first _ k1 vars vm _ given =>
      obtain ⟨slot, asids⟩ := envSetupVm_slot given b
      refine ⟨Eq.trans ?_ slot, asids⟩
      by_cases same : b = first
      · subst same
        simp [Kernel.giveVars, Kernel.putVm, Kernel.updateEnv, Env.slot]
      · simp [Kernel.giveVars, Kernel.putVm, Kernel.updateEnv, same]
  simp only [Kernel.table, Table.mk.injEq]
  exact ⟨funext fun b => (slots b).1, list, (slots e).2, setup.curenv⟩

theorem Env.Resumed.slot {a b : Env} (same : a.Resumed b) : b.slot = a.slot := by rw [same, Env.slot, Env.slot]

theorem schedule_table {yield : Bool} {k k' : Kernel} (h : schedule yield k = .ok () k') :
    ∃ b, k'.table = { k.table with current := some b } ∧ k.table.Runnable b := by
  obtain ⟨b, _, resumed⟩ := schedule_ok h
  refine ⟨b, ?_, resumed.runnable⟩
  simp only [Kernel.table, Table.mk.injEq]
  exact ⟨funext fun e => (resumed.envs e).slot, resumed.freeList, resumed.asidBitmap, resumed.curenv⟩

theorem table_set {e : EnvPtr} {k k' : Kernel} (others : ∀ b, b ≠ e → k'.envs b = k.envs b)
    (list : k'.envFreeList = k.envFreeList) (asids : k'.asidBitmap = k.asidBitmap) (curenv : k'.curenv = k.curenv) :
    k'.table = k.table.set e (k'.envs e).slot := by
  simp only [Kernel.table, Table.set, Table.mk.injEq]
  refine ⟨funext fun b => ?_, list, asids, curenv⟩
  by_cases same : b = e
  · rw [same, Function.update_self]
  · rw [Function.update_of_ne same, others b same]

theorem Left.table {cur : EnvPtr} {k mid k' : Kernel} (left : Left cur k mid) (h : schedule true mid = .ok () k') :
    ∃ b, k'.table = { k.table.set cur (mid.envs cur).slot with current := some b } ∧
      (k.table.set cur (mid.envs cur).slot).Runnable b := by
  obtain ⟨b, table, runs⟩ := schedule_table h
  rw [table_set left.others left.freeList left.asidBitmap left.curenv] at table runs
  exact ⟨b, table, runs⟩

theorem Allots.table {parentId : Word} {e : EnvPtr} {parent : Option EnvPtr} {k mid k' : Kernel}
    (allots : Allots parentId e k mid) (setup : Setup e k mid) (list : k.envFreeList = e :: mid.envFreeList)
    (caller : ∀ p, parent = some p → k.curenv = some p)
    (id : (parent.map fun p => (k.table.slots p).id).getD 0 = parentId)
    (others : ∀ b, b ≠ e → k'.envs b = mid.envs b) (freeList : k'.envFreeList = mid.envFreeList)
    (asids : k'.asidBitmap = mid.asidBitmap) (curenv : k'.curenv = mid.curenv) (used : (k'.envs e).envStatus ≠ .free)
    (alive : (k'.envs e).envStatus ≠ .zombie)
    (slot : (k'.envs e).slot = { (mid.envs e).slot with status := (k'.envs e).envStatus }) :
    Table.Step k.table (.create e parent) k'.table := by
  have step : Table.Step k.table (.create e parent) _ :=
    .create list allots.index allots.unused used alive caller
  have kept : (mid.envs e).envExitStatus = (k.envs e).envExitStatus ∧
      (mid.envs e).envIpcRecving = (k.envs e).envIpcRecving := by
    rw [setup.env]
    exact ⟨rfl, rfl⟩
  have last : (k'.envs e).slot = { (k.envs e).slot with
      id := (mid.envs e).envId, asid := (mid.envs e).envAsid, status := (k'.envs e).envStatus, parent := parentId } := by
    rw [slot]
    simp only [Env.slot, allots.parent, kept]
  rw [id] at step
  convert step using 1
  simp only [Kernel.table, Table.set, Table.mk.injEq]
  refine ⟨funext fun b => ?_, freeList, asids.trans allots.asids, curenv.trans setup.curenv⟩
  by_cases same : b = e
  · rw [same, Function.update_self, last]
  · rw [Function.update_of_ne same, others b same, setup.others b same]

theorem forked_self (cur e : EnvPtr) (k : Kernel) : (forked cur e k).envs e =
    { k.envs e with envTf := k.tf.setReg 2 0, envStatus := .notRunnable, envPri := (k.envs cur).envPri } := by
  simp [forked, Kernel.updateEnv]

theorem sysExofork_table {cur : EnvPtr} {k k' : Kernel} (current : k.curenv = some cur)
    (h : (sysExofork cur k).state = some k') : Table.Step k.table (callEvent k cur .exofork) k'.table := by
  rcases sysExofork_state h with ⟨code, alloc⟩ | ⟨e, mid, alloc, rfl⟩
  · unfold callEvent
    rw [alloc, envAlloc_err_table alloc]
    exact .quiet (Or.inl rfl)
  · unfold callEvent
    rw [alloc]
    obtain ⟨setup, list⟩ := envAlloc_ok alloc
    refine (envAlloc_allots alloc).table setup list (fun p eq => Option.some.inj eq ▸ current) rfl
      (fun b ne => forked_others ne) rfl rfl rfl ?_ ?_ ?_
    · rw [forked_self]
      exact fun free => by cases free
    · rw [forked_self]
      exact fun dead => by cases dead
    · rw [forked_self]
      rfl

theorem envCreate_table {binary : Binary} {priority : Word} {k k' : Kernel}
    (h : (envCreate binary priority k).state = some k') : Table.Step k.table (event k (.envCreate binary priority)) k'.table := by
  obtain ⟨e, mid, alloc, created, _⟩ := envCreate_state h
  simp only [event, alloc]
  obtain ⟨setup, list⟩ := envAlloc_ok alloc
  refine (envAlloc_allots alloc).table setup list (fun p eq => (by cases eq)) rfl created.others created.freeList
    created.asidBitmap created.curenv ?_ ?_ ?_
  · rw [created.env]
    exact fun free => by cases free
  · rw [created.env]
    exact fun dead => by cases dead
  · rw [created.env]
    rfl

theorem envid2env_self {k : Kernel} {cur : EnvPtr} {envid : Word} {checkperm : Bool} {e : EnvPtr}
    (h : envid2env k cur envid checkperm = .ok e) (check : checkperm = true) : k.table.Controls cur e := by
  unfold envid2env at h
  split at h
  · cases h
    exact Or.inl rfl
  · dsimp only at h
    split at h
    · cases h
    · split at h
      · cases h
      · rename_i allowed
        cases h
        rw [check] at allowed
        simp only [true_and, not_and, not_not] at allowed
        by_cases same : envx envid = cur
        · exact Or.inl same
        · exact Or.inr (allowed same)

theorem sysEnvDestroy_table {cur : EnvPtr} {envid status : Word} {k k' : Kernel} (current : k.curenv = some cur)
    (h : (sysEnvDestroy cur envid status k).state = some k') :
    Table.Step k.table (callEvent k cur (.envDestroy envid status)) k'.table := by
  unfold sysEnvDestroy at h
  unfold callEvent
  dsimp only
  cases found : envid2env k cur envid true with
  | error code =>
    rw [found] at h
    cases h
    exact .quiet (Or.inl rfl)
  | ok e =>
    rw [found] at h
    dsimp only at h ⊢
    by_cases self : e = cur
    · subst self
      rw [if_pos rfl] at h ⊢
      obtain ⟨mid, left, zombie, run⟩ := exit_state h
      obtain ⟨b, table, runs⟩ := left.table run
      rw [table, zombie]
      rw [zombie] at runs
      exact .exit current runs
    · rw [if_neg self] at h ⊢
      split at h
      · rename_i refused
        cases h
        rw [if_neg (by tauto)]
        exact .quiet (Or.inl rfl)
      · rename_i allowed
        simp only [not_or, not_not] at allowed
        have freed := envFree_ok (envDestroy_state (fun cur' => self (Option.some.inj (cur'.symm.trans current))) (ret_state h))
        rw [if_pos allowed]
        convert Table.Step.reap (t := k.table) current self allowed.1 allowed.2 using 1
        simp only [Kernel.table, Table.set, Table.mk.injEq]
        refine ⟨funext fun b => ?_, freed.freeList, freed.asidBitmap, freed.curenv⟩
        by_cases same : b = e
        · rw [same, Function.update_self, freed.env]
          rfl
        · rw [Function.update_of_ne same, freed.others b same]

theorem sysSetEnvStatus_table {cur : EnvPtr} {envid status : Word} {k k' : Kernel} (inv : EnvInv k)
    (current : k.curenv = some cur) (h : (sysSetEnvStatus cur envid status k).state = some k') :
    Table.Step k.table (callEvent k cur (.setEnvStatus envid status)) k'.table := by
  unfold callEvent
  dsimp only
  rcases sysSetEnvStatus_state h with ⟨rfl, no⟩ | ⟨e, q, sets, _, h⟩
  · split
    · rename_i e found
      rw [if_neg fun valid => no e ⟨valid, found⟩]
      exact .quiet (Or.inl rfl)
    · exact .quiet (Or.inl rfl)
  · rw [sets.env]
    dsimp only
    rw [if_pos sets.valid]
    have target : statusOf status = .runnable ∨ statusOf status = .notRunnable := by
      unfold statusOf
      split
      · exact Or.inl rfl
      · exact Or.inr rfl
    have slots : (setStatus k e (statusOf status) q).table =
        k.table.set e { k.table.slots e with status := statusOf status } := by
      rw [table_set (e := e) (k := k) (fun b ne => setStatus_others ne) rfl rfl rfl, setStatus_self]
      rfl
    have controls := envid2env_self sets.env rfl
    have used := inv.target_used current sets.env
    split at h
    · obtain ⟨b, table, runs⟩ := schedule_table h
      rw [slots] at table runs
      rw [table]
      exact .setStatus current controls used target (Or.inr ⟨b, rfl, runs⟩)
    · rename_i other
      rw [h, slots]
      exact .setStatus current controls used target (Or.inl ⟨other, rfl⟩)

theorem sysIpcTrySend_table {cur : EnvPtr} {envid value srcva perm : Word} {k k' : Kernel} (inv : EnvInv k)
    (current : k.curenv = some cur) (h : (sysIpcTrySend cur envid value srcva perm k).state = some k') :
    Table.Step k.table (callEvent k cur (.ipcTrySend envid value srcva perm)) k'.table := by
  unfold callEvent
  dsimp only
  rcases sysIpcTrySend_state h with ⟨rfl, refused⟩ | ⟨e, vm, accepts, rfl⟩
  · split
    · rename_i e found
      have no := refused e
      rw [if_pos]
      · exact .quiet (Or.inl rfl)
      · by_contra both
        rw [not_or, not_not] at both
        exact no ⟨both.1, found, both.2⟩
    · exact .quiet (Or.inl rfl)
  · rw [accepts.env]
    dsimp only
    rw [if_neg fun bad => bad.elim accepts.va fun idle => idle accepts.recving]
    have slots : ((ipcDeliver cur e value perm k).putVm vm).table =
        k.table.set e { k.table.slots e with recving := 0, status := .runnable } := by
      have others : ∀ b, b ≠ e → ((ipcDeliver cur e value perm k).putVm vm).envs b = k.envs b :=
        fun b ne => ipcDeliver_others ne
      refine (table_set others rfl rfl rfl).trans (congrArg (k.table.set e) ?_)
      exact congrArg Env.slot (ipcDeliver_self cur e value perm k)
    rw [slots]
    exact .deliver (inv.target_used current accepts.env) accepts.recving

theorem sysIpcRecv_table {cur : EnvPtr} {dstva : Word} {k k' : Kernel} (current : k.curenv = some cur)
    (h : (sysIpcRecv cur dstva k).state = some k') :
    Table.Step k.table (callEvent k cur (.ipcRecv dstva)) k'.table := by
  unfold callEvent
  dsimp only
  rcases sysIpcRecv_state h with ⟨bad, rfl⟩ | ⟨valid, mid, left, blocked, h⟩
  · rw [if_pos bad]
    exact .quiet (Or.inl rfl)
  · rw [if_neg valid]
    obtain ⟨b, table, runs⟩ := left.table h
    rw [table, blocked]
    rw [blocked] at runs
    exact .receive current runs

theorem syscall_table {cur : EnvPtr} {call : Call} {k k' : Kernel} (inv : EnvInv k) (current : k.curenv = some cur)
    (h : (syscallTable cur call k).state = some k') : Table.Step k.table (callEvent k cur call) k'.table := by
  have memory : ∀ vm, Table.Step k.table .quiet (k.putVm vm).table := fun _ => .quiet (Or.inl rfl)
  cases call with
  | yield =>
    obtain ⟨b, table, runs⟩ := schedule_table (schedule_state (switch_state h))
    rw [table]
    exact .quiet (Or.inr ⟨b, rfl, runs⟩)
  | memAlloc envid va perm =>
    obtain ⟨vm, rfl⟩ := sysMemAlloc_state h
    exact memory vm
  | memMap srcid srcva dstid dstva perm =>
    obtain ⟨vm, rfl⟩ := sysMemMap_state h
    exact memory vm
  | memUnmap envid va =>
    obtain ⟨vm, rfl⟩ := sysMemUnmap_state h
    exact memory vm
  | exofork => exact sysExofork_table current h
  | ipcRecv dstva => exact sysIpcRecv_table current h
  | envDestroy envid status => exact sysEnvDestroy_table current h
  | setEnvStatus envid status => exact sysSetEnvStatus_table inv current h
  | ipcTrySend envid value srcva perm => exact sysIpcTrySend_table inv current h

/-- The machine refines the env table: each of its steps is the table's step for its event. -/
theorem step_table {op : Op} {k k' : Kernel} (inv : EnvInv k) (h : step k op = some k') :
    Table.Step k.table (event k op) k'.table := by
  cases op with
  | syscall tf call =>
    obtain ⟨cur, current, h⟩ := Option.bind_eq_some_iff.mp h
    obtain ⟨after, mid, called, rfl⟩ := doSyscall_state h
    simp only [event, current]
    have trapped : EnvInv (k.trap tf) := inv.setFrame _
    have taken : Table.Step (k.trap tf).table (callEvent (k.trap tf) cur call) mid.table :=
      syscall_table trapped current called
    exact taken
  | timer tf =>
    obtain ⟨b, table, runs⟩ := schedule_table (schedule_state h)
    rw [table]
    exact .quiet (Or.inr ⟨b, rfl, runs⟩)
  | tlbRefill va victim =>
    obtain ⟨cur, _, h⟩ := Option.bind_eq_some_iff.mp h
    obtain ⟨vm, rfl⟩ := withVm_state h
    exact .quiet (Or.inl rfl)
  | envCreate binary priority => exact envCreate_table h

end Mos
