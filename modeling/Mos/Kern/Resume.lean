import Mos.Kern.Machine

namespace Mos

/-- The frame with which an env goes on: the one below `KSTACKTOP` for the env that runs, else its `env_tf`. -/
def Kernel.frameOf (k : Kernel) (e : EnvPtr) : Trapframe := if k.curenv = some e then k.tf else (k.envs e).envTf

theorem frameOf_current {k : Kernel} {e : EnvPtr} (current : k.curenv = some e) : k.frameOf e = k.tf := if_pos current

theorem frameOf_waiting {k : Kernel} {e : EnvPtr} (waiting : k.curenv ≠ some e) : k.frameOf e = (k.envs e).envTf :=
  if_neg waiting

@[simp] theorem setReg_setReg (tf : Trapframe) (r : Nat) (v w : Word) : (tf.setReg r v).setReg r w = tf.setReg r w := by
  simp [Trapframe.setReg]

theorem setReg_self (tf : Trapframe) (r : Nat) : tf.setReg r (tf.regs r) = tf := by
  simp [Trapframe.setReg]

theorem schedule_frameOf {yield : Bool} {k k' : Kernel} (h : schedule yield k = .ok () k') (e : EnvPtr) :
    k'.frameOf e = k.frameOf e := by
  obtain ⟨next, -, resumed⟩ := schedule_ok h
  by_cases same : next = e
  · subst same
    rw [frameOf_current resumed.curenv, resumed.tf, Kernel.frameOf]
  · have waiting : k'.curenv ≠ some e := by
      rw [resumed.curenv]
      exact fun eq => same (Option.some.inj eq)
    rw [frameOf_waiting waiting, resumed.saved, Kernel.frameOf]

/-- The same env runs on and the frames of all used envs are as before. -/
structure Kept (k k' : Kernel) : Prop where
  curenv : k'.curenv = k.curenv
  tf : k'.tf = k.tf
  saved : ∀ e, (k.envs e).envStatus ≠ .free → (k'.envs e).envTf = (k.envs e).envTf

theorem Kept.refl (k : Kernel) : Kept k k := ⟨rfl, rfl, fun _ _ => rfl⟩

theorem Kept.putVm (k : Kernel) (vm : Vm) : Kept k (k.putVm vm) := ⟨rfl, rfl, fun _ _ => rfl⟩

theorem Kept.of_envs {k k' : Kernel} (curenv : k'.curenv = k.curenv) (tf : k'.tf = k.tf)
    (frames : ∀ e, (k'.envs e).envTf = (k.envs e).envTf) : Kept k k' :=
  ⟨curenv, tf, fun e _ => frames e⟩

theorem Kept.frameOf {k k' : Kernel} (kept : Kept k k') {e : EnvPtr} (used : (k.envs e).envStatus ≠ .free) :
    k'.frameOf e = k.frameOf e := by
  rw [Kernel.frameOf, Kernel.frameOf, kept.curenv, kept.tf, kept.saved e used]

theorem Kept.updateEnv {k : Kernel} {e : EnvPtr} {f : Env → Env} (same : ∀ env, (f env).envTf = env.envTf) :
    Kept k (k.updateEnv e f) := by
  refine .of_envs rfl rfl fun b => ?_
  by_cases eq : b = e
  · subst eq
    simp [Kernel.updateEnv, same]
  · simp [Kernel.updateEnv, eq]

/-- What a system call does to the frames: it returns to its env and all frames are as before, or another env may run,
    and only the `$v0` of the caller is set. -/
inductive Delivers (k : Kernel) : SysRes → Prop where
  | back {r : Word} {k' : Kernel} (kept : Kept k k') : Delivers k (.ok (some r) k')
  | fail {code : Word} {k' : Kernel} (kept : Kept k k') : Delivers k (.err code k')
  | away {mid k' : Kernel} {v0 : Word} (kept : Kept { k with tf := k.tf.setReg 2 v0 } mid)
      (ran : schedule true mid = .ok () k') : Delivers k (.ok none k')
  | stop {cause : Stop} : Delivers k (.stop cause)

namespace Delivers

variable {k : Kernel}

theorem tryEnv {found : Except Word EnvPtr} {f : EnvPtr → SysRes} (each : ∀ e, found = .ok e → Delivers k (f e)) :
    Delivers k (Mos.tryEnv found k f) := by
  cases found with
  | ok e => exact each e rfl
  | error code => exact .fail (.refl k)

theorem putVm {vm : Vm} {r : SysRes} (delivers : Delivers (k.putVm vm) r) : Delivers k r := by
  cases delivers with
  | back kept => exact .back ⟨kept.curenv, kept.tf, kept.saved⟩
  | fail kept => exact .fail ⟨kept.curenv, kept.tf, kept.saved⟩
  | away kept ran => exact .away ⟨kept.curenv, kept.tf, kept.saved⟩ ran
  | stop => exact .stop

theorem withVm {α : Type} {r : Res Vm α} {f : α → Kernel → SysRes} (each : ∀ a vm, Delivers (k.putVm vm) (f a (k.putVm vm))) :
    Delivers k ((k.withVm r).bind f) := by
  cases r with
  | ok a vm => exact (each a vm).putVm
  | err code vm => exact .fail (.putVm k vm)
  | stop cause => exact .stop

theorem ret {α : Type} {w : Word} {r : Res Vm α} : Delivers k (Mos.ret w (k.withVm r)) :=
  withVm fun _ _ => .back (.refl _)

theorem switch_away {mid : Kernel} (v0 : Word) (kept : Kept { k with tf := k.tf.setReg 2 v0 } mid) :
    Delivers k (switch (schedule true mid)) := by
  cases ran : schedule true mid with
  | ok u k' => exact .away kept ran
  | err code k' => exact absurd ran (schedule_noErr _ _ _ _)
  | stop cause => exact .stop

theorem switch_self {mid : Kernel} (kept : Kept k mid) : Delivers k (switch (schedule true mid)) :=
  switch_away (k.tf.regs 2) ⟨kept.curenv, kept.tf.trans (setReg_self k.tf 2).symm, kept.saved⟩

end Delivers

section Calls

variable {cur : EnvPtr} {k : Kernel}

theorem envFree_kept {e : EnvPtr} {k' : Kernel} {u : Unit} (h : envFree e k = .ok u k') : Kept k k' := by
  have freed := envFree_ok h
  refine .of_envs freed.curenv freed.tf fun b => ?_
  by_cases same : b = e
  · rw [same, freed.env]
  · rw [freed.others b same]

theorem sysEnvDestroy_delivers (current : k.curenv = some cur) (envid status : Word) :
    Delivers k (sysEnvDestroy cur envid status k) := by
  unfold sysEnvDestroy
  split
  · exact .fail (.refl k)
  · rename_i e env
    split
    · rename_i self
      have zombie : Kept k (k.updateEnv e fun env => { env with envExitStatus := status, envStatus := .zombie }) :=
        .updateEnv fun _ => rfl
      show Delivers k (switch (((k.updateEnv e fun env =>
        { env with envExitStatus := status, envStatus := .zombie }).tailqRemove e).bind fun _ k => schedule true k))
      cases removed : Kernel.tailqRemove _ e with
      | ok u mid =>
        obtain ⟨q, -, rfl⟩ := tailqRemove_ok removed
        exact .switch_self ⟨zombie.curenv, zombie.tf, zombie.saved⟩
      | err code mid => exact absurd removed (tailqRemove_noErr _ _ _ _)
      | stop cause => exact .stop
    · rename_i other
      split
      · exact .fail (.refl k)
      · cases destroyed : envDestroy e k with
        | ok u k' =>
          have running : k.curenv ≠ some e := fun eq => other (Option.some.inj (eq.symm.trans current))
          exact .back (envFree_kept (envDestroy_state running (congrArg Result.state destroyed)))
        | err code k' =>
          have running : k.curenv ≠ some e := fun eq => other (Option.some.inj (eq.symm.trans current))
          have freed := envDestroy_state running (congrArg Result.state destroyed)
          exact .fail (envFree_kept freed)
        | stop cause => exact .stop

theorem sysMemAlloc_delivers (envid va perm : Word) : Delivers k (sysMemAlloc cur envid va perm k) := by
  unfold sysMemAlloc
  split
  · exact .fail (.refl k)
  · exact .tryEnv fun env _ => .withVm fun pp vm => .ret

theorem sysMemMap_delivers (srcid srcva dstid dstva perm : Word) :
    Delivers k (sysMemMap cur srcid srcva dstid dstva perm k) := by
  unfold sysMemMap
  split
  · exact .fail (.refl k)
  · refine .tryEnv fun src _ => .tryEnv fun dst _ => .withVm fun found vm => ?_
    cases found with
    | none => exact .fail (.refl _)
    | some found => exact .ret

theorem sysMemUnmap_delivers (envid va : Word) : Delivers k (sysMemUnmap cur envid va k) := by
  unfold sysMemUnmap
  split
  · exact .fail (.refl k)
  · exact .tryEnv fun env _ => .ret

theorem Setup.kept {e : EnvPtr} {k' : Kernel} (setup : Setup e k k') (free : (k.envs e).envStatus = .free) : Kept k k' := by
  refine ⟨setup.curenv, setup.tf, fun b used => ?_⟩
  have ne : b ≠ e := fun eq => used (eq ▸ free)
  rw [setup.others b ne]

theorem envAlloc_kept {parentId code : Word} {k' : Kernel} (inv : EnvInv k) (h : envAlloc parentId k = .err code k') :
    Kept k k' := by
  cases list : k.envFreeList with
  | nil =>
    simp only [envAlloc, list] at h
    cases h
    exact .refl k
  | cons first rest =>
    obtain ⟨e, free, setup, -⟩ := envAlloc_err h
    rcases free with none' | mem
    · cases none'.symm.trans list
    · exact setup.kept (inv.free e mem)

theorem sysExofork_delivers (inv : EnvInv k) : Delivers k (sysExofork cur k) := by
  unfold sysExofork
  cases alloc : envAlloc (k.envs cur).envId k with
  | stop cause => exact .stop
  | err code mid => exact .fail (envAlloc_kept inv alloc)
  | ok e mid =>
    obtain ⟨setup, list⟩ := envAlloc_ok alloc
    have free := inv.free e (by rw [list]; exact List.mem_cons_self)
    have kept := setup.kept free
    refine .back ⟨kept.curenv, kept.tf, fun b used => ?_⟩
    have ne : b ≠ e := fun eq => used (eq ▸ free)
    simp only [Kernel.updateEnv, Function.update_of_ne ne]
    exact kept.saved b used

theorem setEnvStatus_delivers (e : EnvPtr) (status : EnvStatus) : Delivers k (setEnvStatus cur e status k) := by
  have finish (q : TailQueue.Links EnvPtr) : Delivers k
      (if e = cur then switch (schedule true (setStatus k e status q)) else .ok (some 0) (setStatus k e status q)) := by
    have set : Kept { k with envSchedList := q } (setStatus k e status q) := .updateEnv fun _ => rfl
    have kept : Kept k (setStatus k e status q) := ⟨set.curenv, set.tf, set.saved⟩
    split
    · exact .switch_self kept
    · exact .back kept
  unfold setEnvStatus
  split
  · exact finish _
  · split
    · cases removed : k.tailqRemove e with
      | ok u mid =>
        obtain ⟨q, -, rfl⟩ := tailqRemove_ok removed
        exact finish q
      | err code mid => exact absurd removed (tailqRemove_noErr _ _ _ _)
      | stop cause => exact .stop
    · exact finish k.envSchedList

theorem sysSetEnvStatus_delivers (envid status : Word) : Delivers k (sysSetEnvStatus cur envid status k) := by
  unfold sysSetEnvStatus
  split
  · exact .fail (.refl k)
  · exact .tryEnv fun env _ => setEnvStatus_delivers env _

theorem ipcDeliver_kept (cur e : EnvPtr) (value perm : Word) : Kept k (ipcDeliver cur e value perm k) := by
  have set : Kept k (k.updateEnv e fun env => { env with
      envIpcValue := value, envIpcFrom := (k.envs cur).envId, envIpcPerm := pteV ||| perm, envIpcRecving := 0,
      envStatus := .runnable }) := .updateEnv fun _ => rfl
  exact ⟨set.curenv, set.tf, set.saved⟩

theorem sysIpcTrySend_delivers (envid value srcva perm : Word) : Delivers k (sysIpcTrySend cur envid value srcva perm k) := by
  rcases sysIpcTrySend_cases cur envid value srcva perm k with ⟨code, -, same, -⟩ | ⟨e, -, same⟩
  · rw [same]
    exact .fail (.refl k)
  · have kept := ipcDeliver_kept (k := k) cur e value perm
    have mapped (vm : Vm) : Kept k ((ipcDeliver cur e value perm k).putVm vm) := ⟨kept.curenv, kept.tf, kept.saved⟩
    rw [same]
    rcases ipcMap_cases cur e srcva perm (ipcDeliver cur e value perm k) with ⟨vm, map⟩ | ⟨code, vm, map⟩ | ⟨cause, map⟩
    · rw [map]
      exact .back (mapped vm)
    · rw [map]
      exact .fail (mapped vm)
    · rw [map]
      exact .stop

theorem sysIpcRecv_delivers (dstva : Word) : Delivers k (sysIpcRecv cur dstva k) := by
  unfold sysIpcRecv
  split
  · exact .fail (.refl k)
  · have asleep : Kept k (k.updateEnv cur fun env =>
        { env with envIpcRecving := 1, envIpcDstva := dstva, envStatus := .notRunnable }) := .updateEnv fun _ => rfl
    show Delivers k (switch (((k.updateEnv cur fun env => { env with
      envIpcRecving := 1, envIpcDstva := dstva, envStatus := .notRunnable }).tailqRemove cur).bind
        fun _ k => schedule true { k with tf := k.tf.setReg 2 0 }))
    cases removed : Kernel.tailqRemove _ cur with
    | ok u mid =>
      obtain ⟨q, -, rfl⟩ := tailqRemove_ok removed
      exact .switch_away 0 ⟨asleep.curenv, rfl, asleep.saved⟩
    | err code mid => exact absurd removed (tailqRemove_noErr _ _ _ _)
    | stop cause => exact .stop

theorem syscallTable_delivers (inv : EnvInv k) (current : k.curenv = some cur) (call : Call) :
    Delivers k (syscallTable cur call k) := by
  cases call with
  | yield => exact .switch_self (.refl k)
  | envDestroy envid status => exact sysEnvDestroy_delivers current envid status
  | memAlloc envid va perm => exact sysMemAlloc_delivers envid va perm
  | memMap srcid srcva dstid dstva perm => exact sysMemMap_delivers srcid srcva dstid dstva perm
  | memUnmap envid va => exact sysMemUnmap_delivers envid va
  | exofork => exact sysExofork_delivers inv
  | setEnvStatus envid status => exact sysSetEnvStatus_delivers envid status
  | ipcTrySend envid value srcva perm => exact sysIpcTrySend_delivers envid value srcva perm
  | ipcRecv dstva => exact sysIpcRecv_delivers dstva

end Calls

section UserCalls

variable {cur : EnvPtr} {load : Load} {k k' : Kernel}

/-- The env that runs, the free list, the states of the envs and the frames are as before. -/
structure Calm (k k' : Kernel) : Prop where
  curenv : k'.curenv = k.curenv
  freeList : k'.envFreeList = k.envFreeList
  tf : k'.tf = k.tf
  status : ∀ e, (k'.envs e).envStatus = (k.envs e).envStatus
  saved : ∀ e, (k'.envs e).envTf = (k.envs e).envTf

theorem Calm.refl (k : Kernel) : Calm k k := ⟨rfl, rfl, rfl, fun _ => rfl, fun _ => rfl⟩

theorem Calm.putVm (k : Kernel) (vm : Vm) : Calm k (k.putVm vm) := ⟨rfl, rfl, rfl, fun _ => rfl, fun _ => rfl⟩

theorem Calm.updateEnv {e : EnvPtr} {f : Env → Env}
    (same : ∀ env, (f env).envStatus = env.envStatus ∧ (f env).envTf = env.envTf) : Calm k (k.updateEnv e f) := by
  refine ⟨rfl, rfl, rfl, fun b => ?_, fun b => ?_⟩
  all_goals
    by_cases eq : b = e
    · subst eq
      simp [Kernel.updateEnv, same]
    · simp [Kernel.updateEnv, eq]

theorem Calm.kept (calm : Calm k k') : Kept k k' := .of_envs calm.curenv calm.tf calm.saved

theorem Calm.envInv (calm : Calm k k') (inv : EnvInv k) : EnvInv k' := inv.same calm.curenv calm.freeList calm.status

theorem sysSetTrapframe_cases (cur : EnvPtr) (load : Load) (envid tf : Word) (k : Kernel) :
    (∃ code, sysSetTrapframe cur load envid tf k = .err code k) ∨
      (isIllegalVaRange tf (BitVec.ofNat 32 trapframeSize) = false ∧ envid2env k cur envid true = .ok cur ∧
        sysSetTrapframe cur load envid tf k = .ok ((loadFrame load tf).regs 2, []) { k with tf := loadFrame load tf }) ∨
      ∃ e, e ≠ cur ∧ isIllegalVaRange tf (BitVec.ofNat 32 trapframeSize) = false ∧ envid2env k cur envid true = .ok e ∧
        sysSetTrapframe cur load envid tf k = .ok (0, []) (k.updateEnv e fun env => { env with envTf := loadFrame load tf }) := by
  unfold sysSetTrapframe
  split
  · exact .inl ⟨_, rfl⟩
  · rename_i legal
    cases found : envid2env k cur envid true with
    | error code => exact .inl ⟨code, rfl⟩
    | ok e =>
      by_cases self : e = cur
      · subst self
        exact .inr (.inl ⟨by simpa using legal, rfl, by simp [tryTarget]⟩)
      · exact .inr (.inr ⟨e, self, by simpa using legal, rfl, by simp [tryTarget, self]⟩)

def UserCall.ChangesVars : UserCall → Prop
  | .setVar .. => True
  | .unsetVar .. => True
  | _ => False

/-- What a call of the user table does to the kernel: a frame for one env, a field of an env that the caller controls, or
    new contents of the caller's variables. -/
inductive Served (cur : EnvPtr) (load : Load) (k : Kernel) : UserCall → Kernel → Prop where
  | same (call : UserCall) : Served cur load k call k
  | own (envid tf : Word) : Served cur load k (.setTrapframe envid tf) { k with tf := loadFrame load tf }
  | given {e : EnvPtr} {envid : Word} (tf : Word) (found : envid2env k cur envid true = .ok e) :
      Served cur load k (.setTrapframe envid tf) (k.updateEnv e fun env => { env with envTf := loadFrame load tf })
  | entry {e : EnvPtr} {envid : Word} (func : Word) (found : envid2env k cur envid true = .ok e) :
      Served cur load k (.setTlbModEntry envid func) (k.updateEnv e fun env => { env with envUserTlbModEntry := func })
  | cwd (userPath : Word) (path : List (BitVec 8)) :
      Served cur load k (.chdir userPath) (k.updateEnv cur fun env => { env with envCwd := path })
  | vars {call : UserCall} (changes : call.ChangesVars) {v : Nat} (words : Nat → Word)
      (has : (k.envs cur).envVars = some v) : Served cur load k call (putVars k v words)

section Cases

variable {call : UserCall}

theorem tryCopy_served {copied : Except Word (List (BitVec 8))} {f : List (BitVec 8) → CallRes}
    (h : (tryCopy copied k f).state = some k') (each : ∀ bytes, (f bytes).state = some k' → Served cur load k call k') :
    Served cur load k call k' := by
  cases copied with
  | ok bytes => exact each bytes h
  | error code => cases h; exact .same call

theorem withVars_served {f : Nat → CallRes} (h : (withVars cur k f).state = some k')
    (each : ∀ v, (k.envs cur).envVars = some v → (f v).state = some k' → Served cur load k call k') :
    Served cur load k call k' := by
  unfold withVars at h
  split at h
  · rename_i v has
    exact each v has h
  · cases h

theorem sysSetVar_served {userName userValue flags : Word}
    (h : (sysSetVar cur load userName userValue flags k).state = some k') : Served cur load k (.setVar userName userValue flags) k' := by
  have changes : (UserCall.setVar userName userValue flags).ChangesVars := trivial
  refine tryCopy_served h fun name h => tryCopy_served h fun value h => withVars_served h fun v has h => ?_
  dsimp only at h
  split at h
  · split at h
    · cases h; exact .same _
    · cases h; exact .vars changes _ has
  · split at h
    · cases h; exact .same _
    · cases h; exact .vars changes _ has

theorem sysGetVar_served {userName userBuf : Word} (h : (sysGetVar cur load userName userBuf k).state = some k') :
    Served cur load k call k' := by
  refine tryCopy_served h fun name h => ?_
  split at h
  · cases h; exact .same call
  · refine withVars_served h fun v _ h => ?_
    split at h
    · cases h; exact .same call
    · cases h; exact .same call

theorem sysUnsetVar_served {userName : Word} (h : (sysUnsetVar cur load userName k).state = some k') :
    Served cur load k (.unsetVar userName) k' := by
  have changes : (UserCall.unsetVar userName).ChangesVars := trivial
  refine tryCopy_served h fun name h => withVars_served h fun v has h => ?_
  dsimp only at h
  split at h
  · cases h; exact .same _
  · split at h
    · cases h; exact .same _
    · cases h; exact .vars changes _ has

theorem sysGetVarByIndex_served {index userBuf : Word} (h : (sysGetVarByIndex cur index userBuf k).state = some k') :
    Served cur load k call k' := by
  unfold sysGetVarByIndex at h
  split at h
  · cases h; exact .same call
  · split at h
    · cases h; exact .same call
    · refine withVars_served h fun v _ h => ?_
      split at h
      · cases h; exact .same call
      · cases h; exact .same call

theorem sysGetcwd_served {buf len : Word} (h : (sysGetcwd cur buf len k).state = some k') : Served cur load k call k' := by
  unfold sysGetcwd at h
  split at h
  · cases h; exact .same call
  · split at h
    · cases h; exact .same call
    · cases h; exact .same call

theorem sysChdir_served {userPath : Word} (h : (sysChdir cur load userPath k).state = some k') :
    Served cur load k (.chdir userPath) k' := by
  refine tryCopy_served h fun path h => ?_
  split at h
  · cases h; exact .same _
  · cases h; exact .cwd userPath path

theorem devAccess_served {va pa len : Word} {r : Word × List Store} (h : (devAccess va pa len k (.ok r k)).state = some k') :
    Served cur load k call k' := by
  unfold devAccess at h
  split at h
  · cases h; exact .same call
  · split at h
    · cases h
    · split at h
      · cases h; exact .same call
      · split at h
        · cases h; exact .same call
        · cases h; exact .same call

theorem sysPrintCons_served {s num : Word} (h : (sysPrintCons s num k).state = some k') : Served cur load k call k' := by
  unfold sysPrintCons at h
  split at h
  · cases h; exact .same call
  · cases h; exact .same call

theorem sysSetTlbModEntry_served {envid func : Word} (h : (sysSetTlbModEntry cur envid func k).state = some k') :
    Served cur load k (.setTlbModEntry envid func) k' := by
  unfold sysSetTlbModEntry tryTarget at h
  split at h
  · rename_i e found
    cases h
    exact .entry func found
  · cases h; exact .same _

theorem sysSetTrapframe_served {envid tf : Word} (h : (sysSetTrapframe cur load envid tf k).state = some k') :
    Served cur load k (.setTrapframe envid tf) k' := by
  rcases sysSetTrapframe_cases cur load envid tf k with ⟨code, same⟩ | ⟨_, _, same⟩ | ⟨e, _, _, found, same⟩
  all_goals
    rw [same] at h
    cases h
  · exact .same _
  · exact .own envid tf
  · exact .given tf found

theorem userTable_served (h : (userTable cur load call k).state = some k') : Served cur load k call k' := by
  cases call with
  | putchar c v0 => cases h; exact .same _
  | printCons s num => exact sysPrintCons_served h
  | getenvid => cases h; exact .same _
  | setTlbModEntry envid func => exact sysSetTlbModEntry_served h
  | setTrapframe envid tf => exact sysSetTrapframe_served h
  | panic msg => cases h
  | cgetc ch => cases h; exact .same _
  | writeDev va pa len => exact devAccess_served h
  | readDev va pa len data => exact devAccess_served h
  | getcwd buf len => exact sysGetcwd_served h
  | chdir userPath => exact sysChdir_served h
  | setVar userName userValue flags => exact sysSetVar_served h
  | getVar userName userBuf => exact sysGetVar_served h
  | unsetVar userName => exact sysUnsetVar_served h
  | getVarByIndex index userBuf => exact sysGetVarByIndex_served h

end Cases

theorem userTable_calm {call : UserCall} (other : ∀ envid tf, call ≠ .setTrapframe envid tf)
    (h : (userTable cur load call k).state = some k') : Calm k k' := by
  cases userTable_served h with
  | same => exact .refl k
  | own envid tf => exact absurd rfl (other envid tf)
  | given tf found => exact absurd rfl (other _ tf)
  | entry func found => exact .updateEnv fun _ => ⟨rfl, rfl⟩
  | cwd userPath path => exact .updateEnv fun _ => ⟨rfl, rfl⟩
  | vars changes words has => exact .putVm k _

theorem userTable_status {call : UserCall} (h : (userTable cur load call k).state = some k') (e : EnvPtr) :
    (k'.envs e).envStatus = (k.envs e).envStatus := by
  have updated {b : EnvPtr} {f : Env → Env} (same : ∀ env, (f env).envStatus = env.envStatus) :
      ((k.updateEnv b f).envs e).envStatus = (k.envs e).envStatus := by
    by_cases eq : e = b
    · subst eq
      simp [Kernel.updateEnv, same]
    · simp [Kernel.updateEnv, eq]
  cases userTable_served h with
  | same => rfl
  | own envid tf => rfl
  | given tf found => exact updated fun _ => rfl
  | entry func found => exact updated fun _ => rfl
  | cwd userPath path => exact updated fun _ => rfl
  | vars changes words has => rfl

theorem userTable_envInv {call : UserCall} (inv : EnvInv k) (h : (userTable cur load call k).state = some k') :
    EnvInv k' := by
  have same : k'.curenv = k.curenv ∧ k'.envFreeList = k.envFreeList := by
    cases userTable_served h <;> exact ⟨rfl, rfl⟩
  exact inv.same same.1 same.2 (userTable_status h)

theorem storeBytes_calm {stores : List Store} (h : storeBytes cur stores k = some k') : Calm k k' := by
  induction stores generalizing k with
  | nil => cases h; exact .refl _
  | cons store rest ih =>
    obtain ⟨va, b⟩ := store
    obtain ⟨pte, -, h⟩ := Option.bind_eq_some_iff.mp h
    split at h
    · cases h
    · have later := ih h
      exact ⟨later.curenv, later.freeList, later.tf, later.status, later.saved⟩

end UserCalls

/-- The frame behind a system call: past the `syscall` instruction and with its result in `$v0`. -/
def Trapframe.resumed (tf : Trapframe) (v0 : Word) : Trapframe := { tf with cp0Epc := tf.cp0Epc + 4 }.setReg 2 v0

/-- `sys_set_trapframe` of the env that runs gives `e` a frame. -/
def Reframes (k : Kernel) (e : EnvPtr) : MachineOp → Prop
  | .syscall tf _ => tf.regs 4 = 11 ∧ isIllegalVaRange (tf.regs 6) (BitVec.ofNat 32 trapframeSize) = false ∧
      ∃ cur, k.curenv = some cur ∧ envid2env k cur (tf.regs 5) true = .ok e
  | _ => False

/-- The frame with which the caller goes on behind a system call. -/
structure GoesOn (k : Kernel) (cur : EnvPtr) (tf : Trapframe) (out : Outside) (after : Trapframe) : Prop where
  given : Reframes k cur (.syscall tf out) → after = loadFrame out.load (tf.regs 6)
  same : ¬ Reframes k cur (.syscall tf out) → ∃ v0, after = tf.resumed v0

section Steps

variable {k k' : Kernel} {cur e : EnvPtr} {tf : Trapframe} {out : Outside}

theorem returned_frameOf {mid : Kernel} (trapped : Kept (k.trap tf) mid) (current : k.curenv = some cur) (r : Word) :
    ({ mid with tf := mid.tf.setReg 2 r } : Kernel).frameOf cur = tf.resumed r ∧
      ∀ b, b ≠ cur → (k.envs b).envStatus ≠ .free →
        ({ mid with tf := mid.tf.setReg 2 r } : Kernel).frameOf b = k.frameOf b := by
  have running : ({ mid with tf := mid.tf.setReg 2 r } : Kernel).curenv = some cur := trapped.curenv.trans current
  refine ⟨?_, fun b ne used => ?_⟩
  · rw [frameOf_current running]
    show mid.tf.setReg 2 r = _
    rw [trapped.tf]
    rfl
  · have other : some cur ≠ some b := fun eq => ne (Option.some.inj eq).symm
    rw [frameOf_waiting (running ▸ other), frameOf_waiting (current ▸ other)]
    exact trapped.saved b used

theorem doSyscall_frameOf {call : Call} (inv : EnvInv k) (current : k.curenv = some cur)
    (h : doSyscall cur tf call k = some k') : (∃ v0, k'.frameOf cur = tf.resumed v0) ∧
      ∀ b, b ≠ cur → (k.envs b).envStatus ≠ .free → k'.frameOf b = k.frameOf b := by
  have trapped : EnvInv (k.trap tf) := inv.setFrame _
  have delivers := syscallTable_delivers trapped current call
  unfold doSyscall at h
  generalize same : syscallTable cur call (k.trap tf) = r at h
  rw [same] at delivers
  cases delivers with
  | @back r mid kept =>
    cases h
    have frames := returned_frameOf kept current r
    exact ⟨⟨r, frames.1⟩, frames.2⟩
  | @fail r mid kept =>
    cases h
    have frames := returned_frameOf kept current r
    exact ⟨⟨r, frames.1⟩, frames.2⟩
  | stop => cases h
  | @away mid _ v0 kept ran =>
    cases h
    have running : mid.curenv = some cur := kept.curenv.trans current
    refine ⟨⟨v0, ?_⟩, fun b ne used => ?_⟩
    · rw [schedule_frameOf ran, frameOf_current running, kept.tf]
      rfl
    · have other : some cur ≠ some b := fun eq => ne (Option.some.inj eq).symm
      rw [schedule_frameOf ran, frameOf_waiting (running ▸ other), frameOf_waiting (current ▸ other)]
      exact kept.saved b used

theorem sysno_valid {w : Word} : ¬ (w.toInt < 0 ∨ (maxSysno : Int) ≤ w.toInt) ↔ w < 24 := by
  rw [BitVec.toInt_eq_toNat_cond, BitVec.lt_def]
  have small := w.isLt
  have bound : (24 : Word).toNat = 24 := rfl
  simp only [maxSysno, bound]
  split <;> omega

theorem syscallAt_setTrapframe {a : Args} {n : Nat} {envid frame : Word}
    (h : syscallAt a out n = some (.inr (.setTrapframe envid frame))) : n = 11 := by
  unfold syscallAt at h
  split at h <;> first | rfl | cases h

theorem setTrapframe_frameOf (current : k.curenv = some cur) (number : tf.regs 4 = 11)
    (h : doAnySyscall cur tf out k = some k') :
    GoesOn k cur tf out (k'.frameOf cur) ∧
      ∀ b, b ≠ cur → (k.envs b).envStatus ≠ .free → ¬ Reframes k b (.syscall tf out) → k'.frameOf b = k.frameOf b := by
  have only {b : EnvPtr} (reframes : Reframes k b (.syscall tf out)) :
      isIllegalVaRange (tf.regs 6) (BitVec.ofNat 32 trapframeSize) = false ∧
        envid2env (k.trap tf) cur (tf.regs 5) true = .ok b := by
    obtain ⟨-, legal, actor, running, found⟩ := reframes
    obtain rfl := Option.some.inj (running.symm.trans current)
    exact ⟨legal, found⟩
  have valid : ¬ ((tf.regs 4).toInt < 0 ∨ (maxSysno : Int) ≤ (tf.regs 4).toInt) := by
    rw [sysno_valid, number]
    decide
  have entry : syscallAt (Args.of tf out.load) out (tf.regs 4).toNat = some (.inr (.setTrapframe (tf.regs 5) (tf.regs 6))) := by
    rw [number]
    rfl
  unfold doAnySyscall at h
  rw [if_neg valid, entry] at h
  dsimp only [userTable] at h
  rcases sysSetTrapframe_cases cur out.load (tf.regs 5) (tf.regs 6) (k.trap tf) with
    ⟨code, same⟩ | ⟨legal, found, same⟩ | ⟨e, ne, legal, found, same⟩
  · have none' {b : EnvPtr} (reframes : Reframes k b (.syscall tf out)) : False := by
      obtain ⟨legal, found⟩ := only reframes
      rw [sysSetTrapframe, legal, found] at same
      by_cases self : b = cur <;> simp [tryTarget, self] at same
    rw [same] at h
    cases h
    have frames := returned_frameOf (.refl (k.trap tf)) current code
    exact ⟨⟨fun own => (none' own).elim, fun _ => ⟨code, frames.1⟩⟩, fun b ne used _ => frames.2 b ne used⟩
  · have own : Reframes k cur (.syscall tf out) := ⟨number, legal, cur, current, found⟩
    rw [same] at h
    have eq := Option.some.inj h
    have running : k'.curenv = some cur := by rw [← eq]; exact current
    refine ⟨⟨fun _ => ?_, fun not => absurd own not⟩, fun b ne used _ => ?_⟩
    · rw [frameOf_current running, ← eq]
      exact setReg_self _ 2
    · have other : some cur ≠ some b := fun eq => ne (Option.some.inj eq).symm
      rw [frameOf_waiting (running ▸ other), frameOf_waiting (current ▸ other), ← eq]
      rfl
  · have notOwn : ¬ Reframes k cur (.syscall tf out) := by
      intro own
      have same' := (only own).2.symm.trans found
      cases same'
      exact ne rfl
    rw [same] at h
    have eq := Option.some.inj h
    have running : k'.curenv = some cur := by rw [← eq]; exact current
    refine ⟨⟨fun own => absurd own notOwn, fun _ => ⟨0, ?_⟩⟩, fun b ne' used quiet => ?_⟩
    · rw [frameOf_current running, ← eq]
      rfl
    · have other : some cur ≠ some b := fun eq => ne' (Option.some.inj eq).symm
      have notTarget : b ≠ e := by
        rintro rfl
        exact quiet ⟨number, legal, cur, current, found⟩
      rw [frameOf_waiting (running ▸ other), frameOf_waiting (current ▸ other), ← eq]
      simp [Kernel.updateEnv, notTarget, Kernel.trap]

theorem doAnySyscall_frameOf (inv : EnvInv k) (current : k.curenv = some cur) (number : tf.regs 4 < 24)
    (h : doAnySyscall cur tf out k = some k') :
    GoesOn k cur tf out (k'.frameOf cur) ∧
      ∀ b, b ≠ cur → (k.envs b).envStatus ≠ .free → ¬ Reframes k b (.syscall tf out) → k'.frameOf b = k.frameOf b := by
  by_cases eleven : tf.regs 4 = 11
  · exact setTrapframe_frameOf current eleven h
  · have quiet {b : EnvPtr} : ¬ Reframes k b (.syscall tf out) := fun reframes => eleven reframes.1
    unfold doAnySyscall at h
    rw [if_neg (sysno_valid.mpr number)] at h
    split at h
    · cases h
    · have frames := doSyscall_frameOf inv current h
      exact ⟨⟨fun own => absurd own quiet, fun _ => frames.1⟩, fun b ne used _ => frames.2 b ne used⟩
    · rename_i call entry
      have other (envid frame : Word) : call ≠ .setTrapframe envid frame := by
        rintro rfl
        exact eleven (BitVec.eq_of_toNat_eq (syscallAt_setTrapframe entry))
      split at h
      · rename_i r stores mid ran
        have calm := userTable_calm other (congrArg Result.state ran)
        obtain ⟨last, stored, rfl⟩ := Option.map_eq_some_iff.mp h
        have later := storeBytes_calm stored
        have kept : Kept (k.trap tf) last := .of_envs (later.curenv.trans calm.curenv) (later.tf.trans calm.tf)
          fun b => (later.saved b).trans (calm.saved b)
        have frames := returned_frameOf kept current r
        exact ⟨⟨fun own => absurd own quiet, fun _ => ⟨r, frames.1⟩⟩, fun b ne used _ => frames.2 b ne used⟩
      · rename_i r mid ran
        have calm := userTable_calm other (congrArg Result.state ran)
        cases h
        have frames := returned_frameOf calm.kept current r
        exact ⟨⟨fun own => absurd own quiet, fun _ => ⟨r, frames.1⟩⟩, fun b ne used _ => frames.2 b ne used⟩
      · cases h

theorem doTlbMod_calm (h : doTlbMod cur tf k = some k') : ∃ frame mid, Calm k mid ∧ k' = { mid with tf := frame } := by
  dsimp only [doTlbMod] at h
  split at h
  · cases h
  · obtain ⟨mid, stored, rfl⟩ := Option.map_eq_some_iff.mp h
    exact ⟨_, mid, storeBytes_calm stored, rfl⟩

theorem Calm.trans {mid : Kernel} (first : Calm k mid) (second : Calm mid k') : Calm k k' :=
  ⟨second.curenv.trans first.curenv, second.freeList.trans first.freeList, second.tf.trans first.tf,
    fun e => (second.status e).trans (first.status e), fun e => (second.saved e).trans (first.saved e)⟩

theorem storesUntilMod_calm {stores : List Store} (h : storesUntilMod cur stores k = some k') : Calm k k' := by
  induction stores generalizing k with
  | nil => cases h
  | cons s rest ih =>
    obtain ⟨pte, -, h⟩ := Option.bind_eq_some_iff.mp h
    split at h
    · cases h
      exact .refl _
    · obtain ⟨mid, stored, h⟩ := Option.bind_eq_some_iff.mp h
      exact (storeBytes_calm stored).trans (ih h)

theorem pendingStores_calm {out : Option Outside} {stores : List Store} {mid : Kernel}
    (h : pendingStores cur tf k out = some (stores, mid)) (nonempty : stores ≠ []) :
    ∃ start, Calm { k with tf := start } mid := by
  cases out with
  | none =>
    simp only [pendingStores] at h
    split at h
    · cases h
    · cases h
      exact ⟨k.tf, .refl k⟩
  | some out =>
    simp only [pendingStores] at h
    split at h
    · cases h
    · split at h
      · rename_i call entry
        split at h
        · rename_i r stores' mid' ran
          cases h
          refine ⟨(k.trap tf).tf, userTable_calm (fun envid frame eq => ?_) (congrArg Result.state ran)⟩
          subst eq
          rcases sysSetTrapframe_cases cur out.load envid frame (k.trap tf) with ⟨code, same⟩ | ⟨_, _, same⟩ | ⟨e, _, _, _, same⟩
          all_goals cases (show sysSetTrapframe cur out.load envid frame (k.trap tf) = _ from ran).symm.trans same
          all_goals exact nonempty rfl
        · cases h
      · cases h

theorem kernelMod_calm {out : Option Outside} {inner : Trapframe} (h : kernelMod cur tf out inner k = some k') :
    ∃ start frame mid, Calm { k with tf := start } mid ∧ k' = { mid with tf := frame } := by
  unfold kernelMod at h
  split at h
  · cases h
  · obtain ⟨⟨stores, mid⟩, pending, h⟩ := Option.bind_eq_some_iff.mp h
    obtain ⟨fault, stored, h⟩ := Option.bind_eq_some_iff.mp h
    have nonempty : stores ≠ [] := by
      rintro rfl
      cases stored
    obtain ⟨start, calm⟩ := pendingStores_calm pending nonempty
    obtain ⟨frame, last, done, rfl⟩ := doTlbMod_calm h
    exact ⟨start, frame, last, calm.trans ((storesUntilMod_calm stored).trans done), rfl⟩

theorem machineStep_envInv {op : MachineOp} (inv : EnvInv k) (h : machineStep k op = some k') : EnvInv k' := by
  cases op with
  | timer tf => exact step_envInv inv (show step k (.timer tf) = some k' from h)
  | tlbRefill va victim => exact step_envInv inv (show step k (.tlbRefill va victim) = some k' from h)
  | envCreate binary priority => exact step_envInv inv (show step k (.envCreate binary priority) = some k' from h)
  | store va b =>
    obtain ⟨cur, -, h⟩ := Option.bind_eq_some_iff.mp h
    exact (storeBytes_calm h).envInv inv
  | tlbMod tf =>
    obtain ⟨cur, -, h⟩ := Option.bind_eq_some_iff.mp h
    obtain ⟨frame, mid, calm, rfl⟩ := doTlbMod_calm h
    exact (calm.envInv inv).setFrame frame
  | kernelMod tf out inner =>
    obtain ⟨cur, -, h⟩ := Option.bind_eq_some_iff.mp h
    obtain ⟨start, frame, mid, calm, rfl⟩ := kernelMod_calm h
    exact (calm.envInv (inv.setFrame start)).setFrame frame
  | syscall tf out =>
    obtain ⟨cur, current, h⟩ := Option.bind_eq_some_iff.mp h
    have trapped : EnvInv (k.trap tf) := inv.setFrame _
    unfold doAnySyscall at h
    split at h
    · cases h
      exact inv.setFrame _
    · split at h
      · cases h
      · rename_i call _
        have same : step k (.syscall tf call) = some k' := by
          rw [step, current]
          exact h
        exact step_envInv inv same
      · rename_i call _
        have served {mid : Kernel} (ran : (userTable cur out.load call (k.trap tf)).state = some mid) : EnvInv mid :=
          userTable_envInv trapped ran
        split at h
        · rename_i r stores mid ran
          obtain ⟨last, stored, rfl⟩ := Option.map_eq_some_iff.mp h
          exact ((storeBytes_calm stored).envInv (served (congrArg Result.state ran))).setFrame _
        · rename_i r mid ran
          cases h
          exact (served (congrArg Result.state ran)).setFrame _
        · cases h

/-- No step of the machine touches the frame of an env that suspended, but for `sys_set_trapframe`. -/
theorem machineStep_frameOf {op : MachineOp} (inv : EnvInv k) (waiting : k.curenv ≠ some e)
    (used : (k.envs e).envStatus ≠ .free) (quiet : ¬ Reframes k e op) (h : machineStep k op = some k') :
    k'.frameOf e = k.frameOf e := by
  have same {k' : Kernel} (curenv : k'.curenv = k.curenv) (saved : (k'.envs e).envTf = (k.envs e).envTf) :
      k'.frameOf e = k.frameOf e := by
    rw [frameOf_waiting waiting, frameOf_waiting (curenv ▸ waiting), saved]
  cases op with
  | timer tf => exact (schedule_frameOf (schedule_state h) e).trans (same rfl rfl)
  | tlbRefill va victim =>
    obtain ⟨cur, -, h⟩ := Option.bind_eq_some_iff.mp h
    obtain ⟨vm, rfl⟩ := withVm_state h
    exact same rfl rfl
  | store va b =>
    obtain ⟨cur, -, h⟩ := Option.bind_eq_some_iff.mp h
    have calm := storeBytes_calm h
    exact same calm.curenv (calm.saved e)
  | tlbMod tf =>
    obtain ⟨cur, -, h⟩ := Option.bind_eq_some_iff.mp h
    obtain ⟨frame, mid, calm, rfl⟩ := doTlbMod_calm h
    exact same calm.curenv (calm.saved e)
  | kernelMod tf out inner =>
    obtain ⟨cur, -, h⟩ := Option.bind_eq_some_iff.mp h
    obtain ⟨start, frame, mid, calm, rfl⟩ := kernelMod_calm h
    exact same calm.curenv (calm.saved e)
  | envCreate binary priority =>
    obtain ⟨b, mid, alloc, created, -⟩ := envCreate_state h
    obtain ⟨setup, list⟩ := envAlloc_ok alloc
    have ne : e ≠ b := by
      rintro rfl
      exact used (inv.free e (by rw [list]; exact List.mem_cons_self))
    exact same (created.curenv.trans setup.curenv) (by rw [created.others e ne, setup.others e ne])
  | syscall tf out =>
    obtain ⟨cur, current, h⟩ := Option.bind_eq_some_iff.mp h
    have ne : e ≠ cur := fun eq => waiting (eq ▸ current)
    by_cases number : tf.regs 4 < 24
    · exact (doAnySyscall_frameOf inv current number h).2 e ne used quiet
    · unfold doAnySyscall at h
      rw [if_pos (not_not.mp (mt sysno_valid.mp number))] at h
      cases h
      exact same rfl rfl

/-- A step in which `e` suspended and is given no frame. -/
structure Suspended (e : EnvPtr) (k : Kernel) (op : MachineOp) : Prop where
  waiting : k.curenv ≠ some e
  used : (k.envs e).envStatus ≠ .free
  quiet : ¬ Reframes k e op

theorem suspended_frameOf {ops : List MachineOp} (inv : EnvInv k) (run : Run machineStep (Suspended e) k ops k') :
    k'.frameOf e = k.frameOf e := by
  have kept : EnvInv k' ∧ k'.frameOf e = k.frameOf e := by
    refine run.invariant (fun t => EnvInv t ∧ t.frameOf e = k.frameOf e) ⟨inv, rfl⟩ ?_
    intro t op u before suspended next
    exact ⟨machineStep_envInv before.1 next,
      (machineStep_frameOf before.1 suspended.waiting suspended.used suspended.quiet next).trans before.2⟩
  exact kept.2

theorem sysExofork_child (inv : EnvInv k) (current : k.curenv = some cur) (number : tf.regs 4 = 9)
    (h : doAnySyscall cur tf out k = some k') (free : (k.envs e).envStatus = .free)
    (used : (k'.envs e).envStatus ≠ .free) : k'.frameOf e = tf.resumed 0 := by
  have valid : ¬ ((tf.regs 4).toInt < 0 ∨ (maxSysno : Int) ≤ (tf.regs 4).toInt) := by
    rw [sysno_valid, number]
    decide
  have entry : syscallAt (Args.of tf out.load) out (tf.regs 4).toNat = some (.inl .exofork) := by
    rw [number]
    rfl
  have ne : cur ≠ e := by
    rintro rfl
    exact inv.current_used current free
  unfold doAnySyscall at h
  rw [if_neg valid, entry] at h
  obtain ⟨after, mid, called, rfl⟩ := doSyscall_state h
  rcases sysExofork_state called with ⟨code, alloc⟩ | ⟨b, last, alloc, rfl⟩
  · obtain ⟨b, -, setup, -⟩ := envAlloc_err alloc
    exact absurd ((setup.status e).trans free) used
  · obtain ⟨setup, -⟩ := envAlloc_ok alloc
    have running : k.curenv ≠ some e := by
      rw [current]
      exact fun eq => ne (Option.some.inj eq)
    have same : e = b := by
      by_contra other
      apply used
      show ((forked cur b last).envs e).envStatus = .free
      rw [forked_others other, setup.others e other]
      exact free
    subst same
    rw [frameOf_waiting (k := { forked cur e last with tf := after }) (setup.curenv ▸ running)]
    simp [forked, Kernel.updateEnv, setup.tf, Kernel.trap, Trapframe.resumed]

end Steps

/-- The caller of a system call goes on behind the `syscall` instruction with only `$v0` changed, and a child of
    `sys_exofork` starts there with 0. -/
structure ResumesBehind (k : Kernel) (cur : EnvPtr) (tf : Trapframe) (out : Outside) : Prop where
  caller : ∀ mid ops k', machineStep k (.syscall tf out) = some mid → Run machineStep (Suspended cur) mid ops k' →
    k'.curenv = some cur → GoesOn k cur tf out k'.tf
  child : tf.regs 4 = 9 → ∀ mid e ops k', machineStep k (.syscall tf out) = some mid → (k.envs e).envStatus = .free →
    (mid.envs e).envStatus ≠ .free → Run machineStep (Suspended e) mid ops k' → k'.curenv = some e → k'.tf = tf.resumed 0

/-- Behind a system call the caller goes on as promised if and only if the call has a number of the table. -/
theorem syscall_resumes {npage : Nat} {mem : Nat → Nat → Word} {k0 k : Kernel} {ops : List MachineOp} {cur : EnvPtr}
    (booted : boot npage mem = some k0) (run : Run machineStep (fun _ _ => True) k0 ops k) (current : k.curenv = some cur)
    (tf : Trapframe) (out : Outside) : ResumesBehind k cur tf out ↔ tf.regs 4 < 24 := by
  have inv : EnvInv k := run.invariant EnvInv (boot_envInv booted) fun _ _ _ inv _ next => machineStep_envInv inv next
  have step (mid : Kernel) : machineStep k (.syscall tf out) = some mid ↔ doAnySyscall cur tf out k = some mid := by
    simp [machineStep, current]
  constructor
  · intro resumes
    by_contra bad
    have refused : doAnySyscall cur tf out k = some { k with tf := tf.setReg 2 (-eNoSys) } := by
      unfold doAnySyscall
      rw [if_pos (not_not.mp (mt sysno_valid.mp bad))]
    have notFrame : ¬ Reframes k cur (.syscall tf out) := by
      rintro ⟨number, -⟩
      rw [number] at bad
      exact bad (by decide)
    obtain ⟨v0, same⟩ := (resumes.caller _ [] _ ((step _).mpr refused) .nil current).same notFrame
    have epc : tf.cp0Epc = tf.cp0Epc + 4 := congrArg Trapframe.cp0Epc same
    bv_omega
  · intro number
    refine ⟨fun mid ops k' called suspended current' => ?_, fun exofork mid e ops k' called free used suspended current' => ?_⟩
    · have frames := (doAnySyscall_frameOf inv current number ((step _).mp called)).1
      rw [← suspended_frameOf (machineStep_envInv inv called) suspended, frameOf_current current'] at frames
      exact frames
    · rw [← frameOf_current current', suspended_frameOf (machineStep_envInv inv called) suspended]
      exact sysExofork_child inv current exofork ((step _).mp called) free used

/-- The first env runs. -/
def startRun : List MachineOp := [.envCreate emptyBinary 1, .timer zeroFrame]

def silence : Outside := ⟨fun _ => 0, 0, 0, 0⟩

theorem startRun_current : ∃ k0 k, clearBoot = some k0 ∧ Run machineStep (fun _ _ => True) k0 startRun k ∧
    k.curenv = some 0 := by
  have check : (clearBoot.bind fun k0 => (Run.exec machineStep k0 startRun).map fun k => k.curenv) = some (some 0) := by
    rw [clearBoot_eq]
    decide +kernel
  obtain ⟨k0, booted, check⟩ := Option.bind_eq_some_iff.mp check
  obtain ⟨k, exec, check⟩ := Option.map_eq_some_iff.mp check
  exact ⟨k0, k, booted, Run.of_exec (fun _ _ _ => trivial) exec, check⟩

theorem syscall_resumes_getenvid : ∃ k, k.curenv = some 0 ∧
    ResumesBehind k 0 (zeroFrame.setReg 4 2) silence := by
  obtain ⟨k0, k, booted, run, current⟩ := startRun_current
  exact ⟨k, current, (syscall_resumes booted run current (zeroFrame.setReg 4 2) silence).mpr (by decide)⟩

/-- The number 24 is refused, and the env runs into the same `syscall` instruction again. -/
theorem bad_sysno_repeats : ∃ k0 k, clearBoot = some k0 ∧ Run machineStep (fun _ _ => True) k0 startRun k ∧
    ∃ k', machineStep k (.syscall (zeroFrame.setReg 4 24) silence) = some k' ∧ k'.curenv = some 0 ∧
      k'.tf.cp0Epc = 0 ∧ ¬ ResumesBehind k 0 (zeroFrame.setReg 4 24) silence := by
  obtain ⟨k0, k, booted, run, current⟩ := startRun_current
  have refused : machineStep k (.syscall (zeroFrame.setReg 4 24) silence) =
      some { k with tf := (zeroFrame.setReg 4 24).setReg 2 (-eNoSys) } := by
    refine Option.bind_eq_some_iff.mpr ⟨0, current, ?_⟩
    unfold doAnySyscall
    rw [if_pos (.inr (by decide))]
  refine ⟨k0, k, booted, run, _, refused, current, rfl, fun resumes => ?_⟩
  have notFrame : ¬ Reframes k 0 (.syscall (zeroFrame.setReg 4 24) silence) := fun reframes =>
    absurd reframes.1 (by decide)
  obtain ⟨v0, same⟩ := (resumes.caller _ [] _ refused .nil current).same notFrame
  exact absurd (congrArg Trapframe.cp0Epc same) (by show ¬ ((0 : Word) = 0 + 4); decide)

end Mos
