import Mos.Lib.Outcome
import Mos.Kern.VarRun
import Mos.Kern.Resume
import Mos.Kern.Writable
import Mos.Kern.Device

namespace Mos

/-- The addresses that a loop of `copyIn` reads. -/
def copyInReads (load : Load) (va : Word) : Nat → List Word
  | 0 => []
  | n + 1 =>
    if isIllegalVa va then []
    else if load va = 0 then [va]
    else va :: copyInReads load (va + 1) n

/-- The loop of `sys_chdir`, and the test behind it when the loop has run to its end. -/
def sysChdirReads (load : Load) (userPath : Word) : List Word :=
  copyInReads load userPath (maxPathLen - 1) ++
    match copyIn load userPath (maxPathLen - 1) with
    | .ok path => if path.length = maxPathLen - 1 then [userPath + BitVec.ofNat 32 (maxPathLen - 1)] else []
    | .error _ => []

def sysSetVarReads (load : Load) (userName userValue : Word) : List Word :=
  copyInReads load userName maxVarNameLen ++
    match copyIn load userName maxVarNameLen with
    | .ok _ => copyInReads load userValue maxVarValueLen
    | .error _ => []

def sysGetVarReads (load : Load) (userName : Word) : List Word := copyInReads load userName maxVarNameLen

def sysUnsetVarReads (load : Load) (userName : Word) : List Word := copyInReads load userName maxVarNameLen

theorem legalVa_iff {va : Word} : isIllegalVa va = false ↔ utemp.toNat ≤ va.toNat ∧ va.toNat < utop.toNat := by
  simp only [isIllegalVa, Bool.or_eq_false_iff, decide_eq_false_iff_not, BitVec.le_def, BitVec.lt_def, Nat.not_lt,
    Nat.not_le]

section CopyIn

variable {load load' : Load} {va : Word} {n : Nat} {s : List (BitVec 8)}

theorem copyInReads_legal {a : Word} (read : a ∈ copyInReads load va n) : isIllegalVa a = false := by
  induction n generalizing va with
  | zero => cases read
  | succ n ih =>
    rw [copyInReads] at read
    split at read
    · cases read
    · rename_i legal
      rw [Bool.not_eq_true] at legal
      split at read
      · rw [List.mem_singleton.mp read]
        exact legal
      · rcases List.mem_cons.mp read with rfl | later
        · exact legal
        · exact ih later

theorem copyIn_congr (same : ∀ a ∈ copyInReads load va n, load' a = load a) : copyIn load' va n = copyIn load va n := by
  induction n generalizing va with
  | zero => rfl
  | succ n ih =>
    rw [copyInReads] at same
    rw [copyIn, copyIn]
    split
    · rfl
    · rename_i legal
      rw [if_neg legal] at same
      by_cases ends : load va = 0
      · rw [if_pos ends] at same
        rw [same va (by simp)]
        simp [ends]
      · rw [if_neg ends] at same
        rw [same va (by simp), if_neg ends, if_neg ends, ih fun a read => same a (List.mem_cons_of_mem _ read)]

theorem copyIn_error {code : Word} (h : copyIn load va n = .error code) : code = -eInval := by
  induction n generalizing va with
  | zero => cases h
  | succ n ih =>
    rw [copyIn] at h
    split at h
    · cases h
      rfl
    · split at h
      · cases h
      · cases later : copyIn load (va + 1) n with
        | ok rest =>
          rw [later] at h
          cases h
        | error code' =>
          rw [later] at h
          cases h
          exact ih later

theorem copyIn_ok (h : copyIn load va n = .ok s) :
    (s.length < n ∧ Readable load va s) ∨
      (s.length = n ∧ (∀ j < n, isIllegalVa (va + BitVec.ofNat 32 j) = false ∧ load (va + BitVec.ofNat 32 j) ≠ 0) ∧
        (isIllegalVa (va + BitVec.ofNat 32 n) = false → load (va + BitVec.ofNat 32 n) = 0 → Readable load va s)) := by
  induction n generalizing va s with
  | zero =>
    cases h
    refine .inr ⟨rfl, fun j below => absurd below (Nat.not_lt_zero j), fun legal ends => ?_⟩
    rw [BitVec.add_zero] at legal ends
    exact .nil legal ends
  | succ n ih =>
    rw [copyIn] at h
    split at h
    · cases h
    · rename_i legal
      rw [Bool.not_eq_true] at legal
      split at h
      · rename_i ends
        cases h
        exact .inl ⟨Nat.zero_lt_succ n, .nil legal ends⟩
      · rename_i more
        have shift : ∀ j, va + 1 + BitVec.ofNat 32 j = va + BitVec.ofNat 32 (j + 1) := by
          intro j
          rw [BitVec.add_assoc, Nat.add_comm j 1, BitVec.ofNat_add]
          rfl
        cases later : copyIn load (va + 1) n with
        | error code =>
          rw [later] at h
          cases h
        | ok rest =>
          rw [later] at h
          cases h
          rcases ih later with ⟨short, readable⟩ | ⟨whole, bytes, ends⟩
          · exact .inl ⟨Nat.succ_lt_succ short, .cons legal more readable⟩
          · refine .inr ⟨congrArg Nat.succ whole, fun j below => ?_, fun legal' ends' => ?_⟩
            · cases j with
              | zero => simpa using ⟨legal, more⟩
              | succ j =>
                rw [← shift]
                exact bytes j (Nat.lt_of_succ_lt_succ below)
            · rw [← shift] at legal' ends'
              exact .cons legal more (ends legal' ends')

theorem copyIn_full (bytes : ∀ j < n, isIllegalVa (va + BitVec.ofNat 32 j) = false ∧ load (va + BitVec.ofNat 32 j) ≠ 0) :
    ∃ s, copyIn load va n = .ok s ∧ s.length = n := by
  induction n generalizing va with
  | zero => exact ⟨[], rfl, rfl⟩
  | succ n ih =>
    obtain ⟨legal, more⟩ := bytes 0 (Nat.zero_lt_succ n)
    rw [BitVec.add_zero] at legal more
    have rest (j : Nat) (below : j < n) :
        isIllegalVa (va + 1 + BitVec.ofNat 32 j) = false ∧ load (va + 1 + BitVec.ofNat 32 j) ≠ 0 := by
      have next := bytes (j + 1) (Nat.succ_lt_succ below)
      rwa [Nat.add_comm j 1, BitVec.ofNat_add, ← BitVec.add_assoc] at next
    obtain ⟨s, copied, length⟩ := ih rest
    refine ⟨load va :: s, ?_, congrArg Nat.succ length⟩
    rw [copyIn, legal, if_neg Bool.false_ne_true, if_neg more, copied]
    rfl

theorem Readable.ends (readable : Readable load va s) : load (va + BitVec.ofNat 32 s.length) = 0 := by
  induction readable with
  | nil legal ends => simpa using ends
  | @cons va s legal more later ih =>
    rw [List.length_cons, Nat.add_comm s.length 1, BitVec.ofNat_add, ← BitVec.add_assoc]
    exact ih

end CopyIn

section Calls

variable {cur : EnvPtr} {load load' : Load} {userPath userName userValue userBuf flags : Word} {k k' : Kernel}

theorem sysChdir_congr (same : ∀ a ∈ sysChdirReads load userPath, load' a = load a) :
    sysChdir cur load' userPath k = sysChdir cur load userPath k := by
  have copied := copyIn_congr fun a read => same a (List.mem_append_left _ read)
  rw [sysChdir, sysChdir, copied]
  cases path : copyIn load userPath (maxPathLen - 1) with
  | error code => rfl
  | ok path' =>
    simp only [tryCopy]
    by_cases full : path'.length = maxPathLen - 1
    · rw [same _ (List.mem_append_right _ (by simp only [path, if_pos full, List.mem_singleton]))]
    · rw [if_neg (fun both => full both.1), if_neg (fun both => full both.1)]

theorem sysSetVar_congr (same : ∀ a ∈ sysSetVarReads load userName userValue, load' a = load a) :
    sysSetVar cur load' userName userValue flags k = sysSetVar cur load userName userValue flags k := by
  have name := copyIn_congr fun a read => same a (List.mem_append_left _ read)
  rw [sysSetVar, sysSetVar, name]
  cases copied : copyIn load userName maxVarNameLen with
  | error code => rfl
  | ok name' =>
    have value : copyIn load' userValue maxVarValueLen = copyIn load userValue maxVarValueLen :=
      copyIn_congr fun a read => same a (List.mem_append_right _ (by rw [copied]; exact read))
    rw [value]

theorem sysGetVar_congr (same : ∀ a ∈ sysGetVarReads load userName, load' a = load a) :
    sysGetVar cur load' userName userBuf k = sysGetVar cur load userName userBuf k := by
  rw [sysGetVar, sysGetVar, copyIn_congr same]

theorem sysUnsetVar_congr (same : ∀ a ∈ sysUnsetVarReads load userName, load' a = load a) :
    sysUnsetVar cur load' userName k = sysUnsetVar cur load userName k := by
  rw [sysUnsetVar, sysUnsetVar, copyIn_congr same]

theorem sysSetVarReads_legal {a : Word} (read : a ∈ sysSetVarReads load userName userValue) : isIllegalVa a = false := by
  rcases List.mem_append.mp read with name | value
  · exact copyInReads_legal name
  · split at value
    · exact copyInReads_legal value
    · cases value

theorem copyOut_legal {va len : Word} {bytes : List (BitVec 8)} {s : Store} (legal : isIllegalVaRange va len = false)
    (short : bytes.length ≤ len.toNat) (inside : s ∈ copyOut va bytes) : isIllegalVa s.1 = false :=
  legalVa_iff.mpr (copyOut_user legal short inside)

theorem sysGetVar_stores {r : Word} {stores : List Store} {s : Store}
    (h : sysGetVar cur load userName userBuf k = .ok (r, stores) k') (inside : s ∈ stores) : isIllegalVa s.1 = false := by
  unfold sysGetVar at h
  cases copied : copyIn load userName maxVarNameLen with
  | error code =>
    rw [copied] at h
    cases h
  | ok name =>
    simp only [copied, tryCopy] at h
    split at h
    · cases h
    · rename_i legal
      obtain ⟨vars, h⟩ := withVars_ok h
      split at h
      · cases h
      · cases h
        exact copyOut_legal (by simpa using legal) (structVar_length _ _) inside

/-- The string goes on up to the end of the user's addresses, which are as many as the buffer has room for. -/
structure ReadsPast (load : Load) (userPath : Word) : Prop where
  top : userPath + BitVec.ofNat 32 (maxPathLen - 1) = utop
  bytes : ∀ j < maxPathLen - 1, load (userPath + BitVec.ofNat 32 j) ≠ 0

/-- `sys_chdir` reads user addresses only, takes the paths that fit and refuses all others. -/
structure ChdirChecked (cur : EnvPtr) (load : Load) (userPath : Word) (k : Kernel) : Prop where
  user : ∀ a ∈ sysChdirReads load userPath, isIllegalVa a = false
  sets : ∀ path, Readable load userPath path → path.length ≤ maxPathLen - 1 →
    sysChdir cur load userPath k = .ok (0, []) (k.updateEnv cur fun env => { env with envCwd := path })
  refuses : (¬ ∃ path, Readable load userPath path ∧ path.length ≤ maxPathLen - 1) →
    sysChdir cur load userPath k = .err (-eInval) k

theorem isIllegalVa_next {va : Word} (legal : isIllegalVa va = false) (illegal : isIllegalVa (va + 1) = true) :
    va + 1 = utop := by
  obtain ⟨low, high⟩ := legalVa_iff.mp legal
  have top : utop.toNat < 2^32 - 1 := by decide
  have next : (va + 1).toNat = va.toNat + 1 := by
    rw [BitVec.toNat_add]
    exact Nat.mod_eq_of_lt (show va.toNat + 1 < 2^32 by omega)
  have past : ¬ (utemp.toNat ≤ (va + 1).toNat ∧ (va + 1).toNat < utop.toNat) := by
    rw [← legalVa_iff, illegal]
    exact Bool.true_eq_false.mp
  apply BitVec.eq_of_toNat_eq
  omega

theorem readsPast_iff : ReadsPast load userPath ↔ ∃ path, copyIn load userPath (maxPathLen - 1) = .ok path ∧
    path.length = maxPathLen - 1 ∧ isIllegalVa (userPath + BitVec.ofNat 32 (maxPathLen - 1)) = true := by
  constructor
  · rintro ⟨top, bytes⟩
    have start : userPath = utop - BitVec.ofNat 32 (maxPathLen - 1) := by
      rw [← top, BitVec.add_sub_cancel]
    have legal : ∀ j < maxPathLen - 1, isIllegalVa (userPath + BitVec.ofNat 32 j) = false := by
      intro j below
      have first : userPath.toNat = utop.toNat - (maxPathLen - 1) := by
        rw [start]
        rfl
      have places : utemp.toNat < utop.toNat - maxPathLen ∧ utop.toNat < 2^32 := by decide
      refine legalVa_iff.mpr ?_
      rw [BitVec.toNat_add, BitVec.toNat_ofNat, first]
      simp only [maxPathLen] at below places ⊢
      omega
    obtain ⟨path, copied, length⟩ := copyIn_full fun j below => ⟨legal j below, bytes j below⟩
    refine ⟨path, copied, length, ?_⟩
    rw [top]
    decide
  · rintro ⟨path, copied, length, illegal⟩
    rcases copyIn_ok copied with ⟨short, -⟩ | ⟨-, bytes, -⟩
    · exact absurd length (Nat.ne_of_lt short)
    · have last := bytes (maxPathLen - 2) (by decide)
      have next : userPath + BitVec.ofNat 32 (maxPathLen - 1) = userPath + BitVec.ofNat 32 (maxPathLen - 2) + 1 := by
        rw [BitVec.add_assoc]
        rfl
      rw [next] at illegal
      exact ⟨next.trans (isIllegalVa_next last.1 illegal), fun j below => (bytes j below).2⟩

theorem chdirChecked_iff : ChdirChecked cur load userPath k ↔ ¬ ReadsPast load userPath := by
  constructor
  · intro checked past
    obtain ⟨path, copied, length, illegal⟩ := readsPast_iff.mp past
    have legal := checked.user (userPath + BitVec.ofNat 32 (maxPathLen - 1))
      (List.mem_append_right _ (by simp only [copied, if_pos length, List.mem_singleton]))
    cases illegal.symm.trans legal
  · intro inside
    have behind : ∀ path, copyIn load userPath (maxPathLen - 1) = .ok path → path.length = maxPathLen - 1 →
        isIllegalVa (userPath + BitVec.ofNat 32 (maxPathLen - 1)) = false := by
      intro path copied length
      rw [← Bool.not_eq_true]
      exact fun illegal => inside (readsPast_iff.mpr ⟨path, copied, length, illegal⟩)
    refine ⟨fun a read => ?_, fun path readable short => ?_, fun none => ?_⟩
    · rcases List.mem_append.mp read with loop | last
      · exact copyInReads_legal loop
      · split at last
        · rename_i path copied
          split at last
          · rename_i length
            rw [List.mem_singleton.mp last]
            exact behind path copied length
          · cases last
        · cases last
    · have ends : ¬ (path.length = maxPathLen - 1 ∧ load (userPath + BitVec.ofNat 32 (maxPathLen - 1)) ≠ 0) := by
        rintro ⟨length, more⟩
        rw [← length] at more
        exact more readable.ends
      rw [sysChdir, copyIn_string readable, List.take_of_length_le short, tryCopy, if_neg ends]
    · rw [sysChdir]
      cases copied : copyIn load userPath (maxPathLen - 1) with
      | error code => rw [tryCopy, copyIn_error copied]
      | ok path =>
        rcases copyIn_ok copied with ⟨short, readable⟩ | ⟨length, -, ends⟩
        · exact absurd ⟨path, readable, Nat.le_of_lt short⟩ none
        · have more : load (userPath + BitVec.ofNat 32 (maxPathLen - 1)) ≠ 0 := fun zero =>
            none ⟨path, ends (behind path copied length) zero, Nat.le_of_eq length⟩
          rw [tryCopy, if_pos ⟨length, more⟩]

end Calls

/-- Every `env_cwd` of `k'` is one of `k` or the root. -/
def Cwds (k k' : Kernel) : Prop := ∀ e, (k'.envs e).envCwd = rootCwd ∨ ∃ b, (k'.envs e).envCwd = (k.envs b).envCwd

/-- The text of an `env_cwd`, which ends within it. -/
structure Terminated (cwd : List (BitVec 8)) : Prop where
  fits : cwd.length < maxPathLen
  nonzero : ∀ b ∈ cwd, b ≠ 0

def CwdInv (k : Kernel) : Prop := ∀ e, Terminated (k.envs e).envCwd

section Cwd

variable {k mid k' : Kernel} {e cur : EnvPtr}

theorem Cwds.of_same (same : ∀ e, (k'.envs e).envCwd = (k.envs e).envCwd) : Cwds k k' := fun e => .inr ⟨e, same e⟩

theorem Cwds.refl (k : Kernel) : Cwds k k := .of_same fun _ => rfl

theorem Cwds.trans (first : Cwds k mid) (second : Cwds mid k') : Cwds k k' := by
  intro e
  rcases second e with root | ⟨b, same⟩
  · exact .inl root
  · rw [same]
    exact first b

theorem Cwds.updateEnv {f : Env → Env} (same : ∀ env, (f env).envCwd = env.envCwd) : Cwds k (k.updateEnv e f) := by
  refine .of_same fun b => ?_
  by_cases here : b = e
  · subst here
    simp [Kernel.updateEnv, same]
  · simp [Kernel.updateEnv, here]

theorem Cwds.change (others : ∀ b, b ≠ e → k'.envs b = k.envs b) (same : (k'.envs e).envCwd = (k.envs e).envCwd) :
    Cwds k k' := by
  refine .of_same fun b => ?_
  by_cases here : b = e
  · rw [here, same]
  · rw [others b here]

theorem CwdInv.cwds (inv : CwdInv k) (cwds : Cwds k k') : CwdInv k' := by
  intro e
  rcases cwds e with root | ⟨b, same⟩
  · rw [root]
    exact ⟨by decide, by decide⟩
  · rw [same]
    exact inv b

theorem envInherit_cwds {parentId : Word} {vars : Nat} {u : Unit} (h : envInherit e parentId vars k = .ok u k') :
    Cwds k k' := by
  obtain ⟨cwd, page, known, rfl⟩ := envInherit_runs h
  intro b
  by_cases here : b = e
  · subst here
    simpa [Kernel.updateEnv, Kernel.putVm] using known
  · exact .inr ⟨b, by simp [Kernel.updateEnv, Kernel.putVm, here]⟩

theorem envAlloc_cwds {parentId : Word} (h : (envAlloc parentId k).state = some k') : Cwds k k' := by
  have setup : ∀ {e k1}, envSetupVm e k = .ok () k1 → Cwds k k1 := by
    intro e k1 done
    obtain ⟨p, vm, _, rfl⟩ := envSetupVm_runs done
    have set : Cwds k (k.updateEnv e fun env => { env with envPgdir := p }) := .updateEnv fun _ => rfl
    exact set
  have vars : ∀ {e k1 v vm}, Cwds k k1 → Cwds k (k1.giveVars e v vm) := fun before => before.trans (.updateEnv fun _ => rfl)
  cases ran : envAlloc parentId k with
  | ok e mid =>
    rw [ran] at h
    cases h
    obtain ⟨k1, k2, v, vm, asid, ran⟩ := envAlloc_runs ran
    have named : ∀ m : Kernel, Cwds m (m.giveId e asid parentId) := by
      refine fun m => .of_same fun b => ?_
      by_cases here : b = e
      · simp [Kernel.giveId, Kernel.updateEnv, here]
      · simp [Kernel.giveId, Kernel.updateEnv, here]
    have last : Cwds k2 (k2.updateEnv e fun env =>
        { env with envTf := { env.envTf.setReg 29 (ustacktop - 8) with cp0Status := statusInit } }) :=
      .updateEnv fun _ => rfl
    rw [ran.last]
    exact (vars (setup ran.setup)).trans ((named _).trans (.trans (envInherit_cwds ran.inherited) last))
  | err code mid =>
    rw [ran] at h
    cases h
    cases envAlloc_refuses ran with
    | envs => exact .refl k
    | pgdir => exact .refl k
    | vars _ done =>
      have before := setup done
      exact before
    | asid _ done => exact vars (setup done)
  | stop cause =>
    rw [ran] at h
    cases h

theorem schedule_cwds {yield : Bool} (h : schedule yield k = .ok () k') : Cwds k k' := by
  obtain ⟨_, _, resumed⟩ := schedule_ok h
  refine .of_same fun e => ?_
  rw [resumed.envs e]

theorem syscall_cwds {call : Call} (current : k.curenv = some cur) (h : (syscallTable cur call k).state = some k') :
    Cwds k k' := by
  cases call with
  | yield => exact schedule_cwds (schedule_state (switch_state h))
  | memAlloc envid va perm =>
    obtain ⟨vm, rfl⟩ := sysMemAlloc_state h
    exact .of_same fun _ => rfl
  | memMap srcid srcva dstid dstva perm =>
    obtain ⟨vm, rfl⟩ := sysMemMap_state h
    exact .of_same fun _ => rfl
  | memUnmap envid va =>
    obtain ⟨vm, rfl⟩ := sysMemUnmap_state h
    exact .of_same fun _ => rfl
  | exofork =>
    rcases sysExofork_state h with ⟨code, alloc⟩ | ⟨e, mid, alloc, rfl⟩
    · exact envAlloc_cwds (congrArg Result.state alloc)
    · refine (envAlloc_cwds (congrArg Result.state alloc)).trans (.change (fun b ne => forked_others ne) ?_)
      rw [forked_self]
  | ipcRecv dstva =>
    rcases sysIpcRecv_state h with ⟨_, rfl⟩ | ⟨_, mid, left, blocked, h⟩
    · exact .refl _
    · exact .trans (.change left.others (by rw [blocked])) (schedule_cwds h)
  | envDestroy envid status =>
    rcases sysEnvDestroy_state current h with ⟨rfl, _⟩ | ⟨mid, left, zombie, h, _⟩ | ⟨e, reaps, free⟩
    · exact .refl _
    · exact .trans (.change left.others (by rw [zombie])) (schedule_cwds h)
    · have freed := envFree_ok free
      exact .change freed.others (by rw [freed.env])
  | setEnvStatus envid status =>
    rcases sysSetEnvStatus_state h with ⟨rfl, _⟩ | ⟨e, q, sets, _, h⟩
    · exact .refl _
    · have set : Cwds k (setStatus k e (statusOf status) q) := .change (fun b ne => setStatus_others ne) (by rw [setStatus_self])
      split at h
      · exact set.trans (schedule_cwds h)
      · rw [h]
        exact set
  | ipcTrySend envid value srcva perm =>
    rcases sysIpcTrySend_state h with ⟨rfl, _⟩ | ⟨e, vm, accepts, rfl⟩
    · exact .refl _
    · have delivered : Cwds k (ipcDeliver cur e value perm k) := .change (fun b ne => ipcDeliver_others ne) (by rw [ipcDeliver_self])
      exact delivered

theorem step_cwds {op : Op} (h : step k op = some k') : Cwds k k' := by
  cases op with
  | syscall tf call =>
    obtain ⟨cur, current, h⟩ := Option.bind_eq_some_iff.mp h
    obtain ⟨after, mid, called, rfl⟩ := doSyscall_state h
    have before : (k.trap tf).curenv = some cur := current
    have after : Cwds (k.trap tf) mid := syscall_cwds before called
    exact after
  | timer tf =>
    have after : Cwds { k with tf := tf } k' := schedule_cwds (schedule_state h)
    exact after
  | tlbRefill va victim =>
    obtain ⟨cur, _, h⟩ := Option.bind_eq_some_iff.mp h
    obtain ⟨vm, rfl⟩ := withVm_state h
    exact .of_same fun _ => rfl
  | envCreate binary priority =>
    obtain ⟨e, mid, alloc, created, _⟩ := envCreate_state h
    exact (envAlloc_cwds (congrArg Result.state alloc)).trans (.change created.others (by rw [created.env]))

theorem storeBytes_envs {stores : List Store} (h : storeBytes cur stores k = some k') : k'.envs = k.envs := by
  induction stores generalizing k with
  | nil => cases h; rfl
  | cons store rest ih =>
    obtain ⟨va, b⟩ := store
    obtain ⟨pte, -, h⟩ := Option.bind_eq_some_iff.mp h
    split at h
    · cases h
    · have later := ih h
      exact later

section Leaves

variable {E : Kernel → Prop} {S : Stop → Prop}

theorem tryCopy_leaves {copied : Except Word (List (BitVec 8))} {f : List (BitVec 8) → CallRes} (same : E k)
    (each : ∀ bytes, copied = .ok bytes → (f bytes).Leaves E S) : (tryCopy copied k f).Leaves E S := by
  cases copied with
  | ok bytes => exact each bytes rfl
  | error code => exact same

theorem withVars_leaves {f : Nat → CallRes} (never : S .fault) (each : ∀ vars, (f vars).Leaves E S) :
    (withVars cur k f).Leaves E S := by
  unfold withVars
  split
  · exact each _
  · exact never

theorem devAccess_leaves {va pa len : Word} {f : CallRes} (same : E k) (never : S .panic) (each : f.Leaves E S) :
    (devAccess va pa len k f).Leaves E S := by
  unfold devAccess
  split
  · exact same
  · split
    · exact never
    · split
      · exact same
      · split
        · exact each
        · exact same

end Leaves

theorem copyIn_terminated {load : Load} {va : Word} {n : Nat} {s : List (BitVec 8)} (h : copyIn load va n = .ok s) :
    s.length ≤ n ∧ ∀ b ∈ s, b ≠ 0 := by
  induction n generalizing va s with
  | zero =>
    cases h
    exact ⟨Nat.le_refl 0, fun b mem => by cases mem⟩
  | succ n ih =>
    rw [copyIn] at h
    split at h
    · cases h
    · split at h
      · cases h
        exact ⟨Nat.zero_le _, fun b mem => by cases mem⟩
      · rename_i more
        cases later : copyIn load (va + 1) n with
        | error code =>
          rw [later] at h
          cases h
        | ok rest =>
          rw [later] at h
          cases h
          obtain ⟨short, nonzero⟩ := ih later
          refine ⟨Nat.succ_le_succ short, fun b mem => ?_⟩
          rcases List.mem_cons.mp mem with rfl | inside
          · exact more
          · exact nonzero b inside

theorem userTable_cwdInv {load : Load} {call : UserCall} (inv : CwdInv k) :
    (userTable cur load call k).Leaves CwdInv fun _ => True := by
  have set (e : EnvPtr) {f : Env → Env} (same : ∀ env, (f env).envCwd = env.envCwd) : CwdInv (k.updateEnv e f) :=
    inv.cwds (.updateEnv same)
  cases call with
  | putchar c v0 => exact inv
  | printCons s num =>
    dsimp only [userTable, sysPrintCons]
    split <;> exact inv
  | getenvid => exact inv
  | setTlbModEntry envid func =>
    dsimp only [userTable, sysSetTlbModEntry, tryTarget]
    split
    · exact set _ fun _ => rfl
    · exact inv
  | setTrapframe envid tf =>
    dsimp only [userTable, sysSetTrapframe, tryTarget]
    split
    · exact inv
    · split
      · split
        · exact inv
        · exact set _ fun _ => rfl
      · exact inv
  | panic msg => trivial
  | cgetc ch => exact inv
  | writeDev va pa len => exact devAccess_leaves inv trivial inv
  | readDev va pa len data => exact devAccess_leaves inv trivial inv
  | getcwd buf len =>
    dsimp only [userTable, sysGetcwd]
    split
    · exact inv
    · split <;> exact inv
  | chdir userPath =>
    refine tryCopy_leaves inv fun path copied => ?_
    split
    · exact inv
    · intro b
      by_cases here : b = cur
      · obtain ⟨short, nonzero⟩ := copyIn_terminated copied
        rw [here]
        simpa [Kernel.updateEnv] using (⟨Nat.lt_succ_of_le short, nonzero⟩ : Terminated path)
      · simpa [Kernel.updateEnv, here] using inv b
  | setVar userName userValue flags =>
    refine tryCopy_leaves inv fun name _ => tryCopy_leaves inv fun value _ => withVars_leaves trivial fun vars => ?_
    dsimp only
    split
    · split <;> exact inv
    · split <;> exact inv
  | getVar userName userBuf =>
    refine tryCopy_leaves inv fun name _ => ?_
    split
    · exact inv
    · refine withVars_leaves trivial fun vars => ?_
      split <;> exact inv
  | unsetVar userName =>
    refine tryCopy_leaves inv fun name _ => withVars_leaves trivial fun vars => ?_
    dsimp only
    split
    · exact inv
    · split <;> exact inv
  | getVarByIndex index userBuf =>
    dsimp only [userTable, sysGetVarByIndex]
    split
    · exact inv
    · split
      · exact inv
      · refine withVars_leaves trivial fun vars => ?_
        split <;> exact inv

theorem doTlbMod_envs (h : doTlbMod cur tf k = some k') : k'.envs = k.envs := by
  unfold doTlbMod at h
  split at h
  · cases h
  · obtain ⟨mid, stored, rfl⟩ := Option.map_eq_some_iff.mp h
    have kept : mid.envs = k.envs := storeBytes_envs stored
    exact kept

theorem storesUntilMod_envs {stores : List Store} (h : storesUntilMod cur stores k = some k') : k'.envs = k.envs := by
  induction stores generalizing k with
  | nil => cases h
  | cons s rest ih =>
    obtain ⟨pte, -, h⟩ := Option.bind_eq_some_iff.mp h
    split at h
    · cases h
      rfl
    · obtain ⟨mid, stored, h⟩ := Option.bind_eq_some_iff.mp h
      exact (ih h).trans (storeBytes_envs stored)

theorem pendingStores_cwdInv {out : Option Outside} {pending : List Store × Kernel} (inv : CwdInv k)
    (h : pendingStores cur tf k out = some pending) : CwdInv pending.2 := by
  cases out with
  | none =>
    simp only [pendingStores] at h
    split at h
    · cases h
    · cases h
      exact inv
  | some out =>
    simp only [pendingStores] at h
    split at h
    · cases h
    · split at h
      · split at h
        · rename_i r stores mid ran
          cases h
          have trapped : CwdInv (k.trap tf) := inv
          exact (userTable_cwdInv trapped).state (congrArg Result.state ran)
        · cases h
      · cases h

theorem machineStep_cwdInv {op : MachineOp} (inv : CwdInv k) (h : machineStep k op = some k') : CwdInv k' := by
  have same {k k' : Kernel} (inv : CwdInv k) (envs : k'.envs = k.envs) : CwdInv k' := fun e => by
    rw [envs]
    exact inv e
  cases op with
  | timer tf => exact inv.cwds (step_cwds (show step k (.timer tf) = some k' from h))
  | tlbRefill va victim => exact inv.cwds (step_cwds (show step k (.tlbRefill va victim) = some k' from h))
  | envCreate binary priority => exact inv.cwds (step_cwds (show step k (.envCreate binary priority) = some k' from h))
  | store va b =>
    obtain ⟨cur, -, h⟩ := Option.bind_eq_some_iff.mp h
    exact same inv (storeBytes_envs h)
  | tlbMod tf =>
    obtain ⟨cur, -, h⟩ := Option.bind_eq_some_iff.mp h
    exact same inv (doTlbMod_envs h)
  | kernelMod tf out inner =>
    obtain ⟨cur, -, h⟩ := Option.bind_eq_some_iff.mp h
    unfold kernelMod at h
    split at h
    · cases h
    · obtain ⟨pending, waits, h⟩ := Option.bind_eq_some_iff.mp h
      obtain ⟨fault, stored, h⟩ := Option.bind_eq_some_iff.mp h
      exact same (same (pendingStores_cwdInv inv waits) (storesUntilMod_envs stored)) (doTlbMod_envs h)
  | syscall tf out =>
    obtain ⟨cur, current, h⟩ := Option.bind_eq_some_iff.mp h
    unfold doAnySyscall at h
    split at h
    · cases h
      exact inv
    · split at h
      · cases h
      · rename_i call _
        have called : step k (.syscall tf call) = some k' := by
          rw [step, current]
          exact h
        exact inv.cwds (step_cwds called)
      · rename_i call _
        have trapped : CwdInv (k.trap tf) := inv
        split at h
        · rename_i r stores mid ran
          obtain ⟨last, stored, rfl⟩ := Option.map_eq_some_iff.mp h
          have after : CwdInv last := same ((userTable_cwdInv trapped).state (congrArg Result.state ran)) (storeBytes_envs stored)
          exact after
        · rename_i r mid ran
          cases h
          have after : CwdInv mid := (userTable_cwdInv trapped).state (congrArg Result.state ran)
          exact after
        · cases h

end Cwd

theorem boot_cwdInv {npage : Nat} {mem : Nat → Nat → Word} {k : Kernel} (booted : boot npage mem = some k) : CwdInv k := by
  obtain ⟨p, vm, _, _, rfl⟩ := boot_init booted
  have empty : Terminated [] := ⟨by decide, by decide⟩
  exact fun e => empty

/-- What the string arguments of an env that calls into `k` are read from. -/
structure StringsChecked (k : Kernel) (cur : EnvPtr) (load : Load) : Prop where
  chdir : ∀ userPath, ChdirChecked cur load userPath k ↔ ¬ ReadsPast load userPath
  setVar : ∀ userName userValue, ∀ a ∈ sysSetVarReads load userName userValue, isIllegalVa a = false
  getVar : ∀ userName, ∀ a ∈ sysGetVarReads load userName, isIllegalVa a = false
  fillsVar : ∀ userName userBuf r stores k', sysGetVar cur load userName userBuf k = .ok (r, stores) k' →
    ∀ s ∈ stores, isIllegalVa s.1 = false
  unsetVar : ∀ userName, ∀ a ∈ sysUnsetVarReads load userName, isIllegalVa a = false
  cwd : Terminated (k.envs cur).envCwd

/-- In every state that the machine reaches, the strings are read from user addresses and `sys_chdir` takes exactly the
    paths that fit, but for a path that goes on up to the end of the user's addresses. -/
theorem strings_checked {npage : Nat} {mem : Nat → Nat → Word} {k0 k : Kernel} {ops : List MachineOp}
    (booted : boot npage mem = some k0) (run : Run machineStep (fun _ _ => True) k0 ops k) (cur : EnvPtr) (load : Load) :
    StringsChecked k cur load where
  chdir _ := chdirChecked_iff
  setVar _ _ _ read := sysSetVarReads_legal read
  getVar _ _ read := copyInReads_legal read
  fillsVar _ _ _ _ _ ok _ inside := sysGetVar_stores ok inside
  unsetVar _ _ read := copyInReads_legal read
  cwd := run.invariant CwdInv (boot_cwdInv booted) (fun _ _ _ inv _ next => machineStep_cwdInv inv next) cur

theorem strings_checked_startRun : ∃ k0 k, clearBoot = some k0 ∧ Run machineStep (fun _ _ => True) k0 startRun k ∧
    StringsChecked k 0 fun _ => 0x61 := by
  obtain ⟨k0, k, booted, run, -⟩ := startRun_current
  exact ⟨k0, k, booted, run, strings_checked booted run 0 fun _ => 0x61⟩

/-- The path starts 1023 bytes below `UTOP` and its NUL is at `UTOP`. -/
def topPath : Load := fun va => if va = utop then 0 else 0x61

theorem chdir_reads_past : ∃ k0 k, clearBoot = some k0 ∧ Run machineStep (fun _ _ => True) k0 startRun k ∧
    let userPath := utop - BitVec.ofNat 32 (maxPathLen - 1)
    utop ∈ sysChdirReads topPath userPath ∧ (∃ k', sysChdir 0 topPath userPath k = .ok (0, []) k') ∧
      ¬ ChdirChecked 0 topPath userPath k := by
  obtain ⟨k0, k, booted, run, -⟩ := startRun_current
  refine ⟨k0, k, booted, run, ?_⟩
  intro userPath
  have top : userPath + BitVec.ofNat 32 (maxPathLen - 1) = utop := BitVec.sub_add_cancel _ _
  have bytes : ∀ j < maxPathLen - 1, topPath (userPath + BitVec.ofNat 32 j) ≠ 0 := by
    intro j below
    have apart : userPath + BitVec.ofNat 32 j ≠ utop := by
      intro eq
      have same := congrArg BitVec.toNat eq
      have start : userPath.toNat = utop.toNat - (maxPathLen - 1) := rfl
      have places : maxPathLen < utop.toNat ∧ utop.toNat < 2^32 := by decide
      rw [BitVec.toNat_add, BitVec.toNat_ofNat, start] at same
      omega
    rw [topPath, if_neg apart]
    decide
  have past : ReadsPast topPath userPath := ⟨top, bytes⟩
  obtain ⟨path, copied, length, -⟩ := readsPast_iff.mp past
  have ends : ¬ (path.length = maxPathLen - 1 ∧ topPath (userPath + BitVec.ofNat 32 (maxPathLen - 1)) ≠ 0) := by
    rw [top]
    exact fun both => both.2 (if_pos rfl)
  refine ⟨List.mem_append_right _ ?_, ?_, fun checked => chdirChecked_iff.mp checked past⟩
  · simp only [copied, if_pos length, top, List.mem_singleton]
  · refine ⟨k.updateEnv 0 fun env => { env with envCwd := path }, ?_⟩
    rw [sysChdir, copied, tryCopy, if_neg ends]

end Mos
