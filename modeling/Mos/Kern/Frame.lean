import Mos.Kern.Syscall

namespace Mos

/-- `b` is `a` but for the saved context and the run count. -/
def Env.Resumed (a b : Env) : Prop := b = { a with envTf := b.envTf, envRuns := b.envRuns }

theorem Env.Resumed.refl (a : Env) : a.Resumed a := rfl

theorem Env.Resumed.trans {a b c : Env} (first : a.Resumed b) (second : b.Resumed c) : a.Resumed c := by
  unfold Env.Resumed at *
  rw [second, first]

/-- `b` is `a` but for the fields that `env_alloc` sets. -/
def Env.Allocated (a b : Env) : Prop :=
  b = { a with envTf := b.envTf, envId := b.envId, envAsid := b.envAsid, envParentId := b.envParentId,
               envPgdir := b.envPgdir, envUserTlbModEntry := b.envUserTlbModEntry, envRuns := b.envRuns,
               envCwd := b.envCwd, envVars := b.envVars }

theorem Env.Allocated.refl (a : Env) : a.Allocated a := rfl

theorem Env.Allocated.trans {a b c : Env} (first : a.Allocated b) (second : b.Allocated c) : a.Allocated c := by
  unfold Env.Allocated at *
  rw [second, first]

/-- Outside memory, the ASIDs, the id counter and the free list, `k'` differs from `k` in what
    `env_alloc` sets in `e`. -/
structure Setup (e : EnvPtr) (k k' : Kernel) : Prop where
  sched : k'.envSchedList = k.envSchedList
  curenv : k'.curenv = k.curenv
  curPgdir : k'.curPgdir = k.curPgdir
  basePgdir : k'.basePgdir = k.basePgdir
  tf : k'.tf = k.tf
  others : ∀ b, b ≠ e → k'.envs b = k.envs b
  env : (k.envs e).Allocated (k'.envs e)

theorem Setup.refl (e : EnvPtr) (k : Kernel) : Setup e k k :=
  ⟨rfl, rfl, rfl, rfl, rfl, fun _ _ => rfl, .refl _⟩

theorem Setup.trans {e : EnvPtr} {k k' k'' : Kernel} (first : Setup e k k') (second : Setup e k' k'') :
    Setup e k k'' :=
  ⟨second.sched.trans first.sched, second.curenv.trans first.curenv, second.curPgdir.trans first.curPgdir,
    second.basePgdir.trans first.basePgdir, second.tf.trans first.tf,
    fun b ne => (second.others b ne).trans (first.others b ne), first.env.trans second.env⟩

theorem Setup.putVm (e : EnvPtr) (k : Kernel) (vm : Vm) : Setup e k (k.putVm vm) :=
  ⟨rfl, rfl, rfl, rfl, rfl, fun _ _ => rfl, .refl _⟩

theorem Setup.updateEnv {e : EnvPtr} {k : Kernel} {f : Env → Env} (set : (k.envs e).Allocated (f (k.envs e))) :
    Setup e k (k.updateEnv e f) :=
  ⟨rfl, rfl, rfl, rfl, rfl, fun _ ne => by simp [Kernel.updateEnv, ne], by simpa [Kernel.updateEnv] using set⟩

theorem withVm_ok {α : Type} {k k' : Kernel} {r : Res Vm α} {a : α} (h : k.withVm r = .ok a k') :
    ∃ vm, r = .ok a vm ∧ k' = k.putVm vm := Result.lift_ok h

theorem withVm_err {α : Type} {k k' : Kernel} {r : Res Vm α} {code : Word} (h : k.withVm r = .err code k') :
    ∃ vm, r = .err code vm ∧ k' = k.putVm vm := Result.lift_err h

theorem pageAlloc_err {vm vm' : Vm} {code : Word} (h : pageAlloc vm = .err code vm') :
    vm' = vm ∧ code = -eNoMem ∧ vm.pageFreeList = [] := by
  unfold pageAlloc at h
  split at h
  · cases h; exact ⟨rfl, rfl, ‹_›⟩
  · split at h <;> cases h

theorem envSetupVm_runs {e : EnvPtr} {k k' : Kernel} {u : Unit} (h : envSetupVm e k = .ok u k') :
    ∃ p vm, pageAlloc k.vm = .ok p vm ∧ k' = (k.updateEnv e fun env => { env with envPgdir := p }).putVm
      { vm.incRef p with mem := Function.update vm.mem p (setupPgdir vm.mem k.basePgdir p) } := by
  obtain ⟨p, mid, alloc, h⟩ := Result.bind_ok h
  obtain ⟨vm, taken, rfl⟩ := withVm_ok alloc
  cases h
  exact ⟨p, vm, taken, rfl⟩

theorem envSetupVm_ok {e : EnvPtr} {k k' : Kernel} {u : Unit} (h : envSetupVm e k = .ok u k') :
    Setup e k k' ∧ k'.envFreeList = k.envFreeList := by
  obtain ⟨p, vm, _, rfl⟩ := envSetupVm_runs h
  exact ⟨.trans (.updateEnv (by exact rfl)) (.putVm e _ _), rfl⟩

theorem envSetupVm_table {e : EnvPtr} {k k' : Kernel} {u : Unit} (h : envSetupVm e k = .ok u k') :
    k'.asidBitmap = k.asidBitmap ∧ k'.mkenvidI = k.mkenvidI := by
  obtain ⟨p, vm, _, rfl⟩ := envSetupVm_runs h
  exact ⟨rfl, rfl⟩

theorem envSetupVm_err {e : EnvPtr} {k k' : Kernel} {code : Word} (h : envSetupVm e k = .err code k') : k' = k := by
  rcases Result.bind_err h with h | ⟨_, _, _, h⟩
  · obtain ⟨vm, alloc, rfl⟩ := withVm_err h
    rw [(pageAlloc_err alloc).1]
    rfl
  · cases h

theorem envInherit_runs {e : EnvPtr} {parentId : Word} {vars : Nat} {k k' : Kernel} {u : Unit}
    (h : envInherit e parentId vars k = .ok u k') :
    ∃ cwd page, (cwd = rootCwd ∨ ∃ parent, cwd = (k.envs parent).envCwd) ∧
      k' = (k.updateEnv e fun env => { env with envCwd := cwd }).putVm
        { k.vm with mem := Function.update k.vm.mem vars page } := by
  have kept (cwd : List (BitVec 8)) : (k.updateEnv e fun env => { env with envCwd := cwd }) =
      (k.updateEnv e fun env => { env with envCwd := cwd }).putVm
        { k.vm with mem := Function.update k.vm.mem vars (k.vm.mem vars) } := by
    rw [Function.update_eq_self]
    rfl
  unfold envInherit at h
  split at h
  · cases h
    exact ⟨rootCwd, k.vm.mem vars, Or.inl rfl, kept rootCwd⟩
  · split at h
    · rename_i parent _
      split at h
      · cases h
      · cases h
        exact ⟨_, _, Or.inr ⟨parent, rfl⟩, rfl⟩
    · cases h
      exact ⟨rootCwd, k.vm.mem vars, Or.inl rfl, kept rootCwd⟩

theorem envInherit_ok {e : EnvPtr} {parentId : Word} {vars : Nat} {k k' : Kernel} {u : Unit}
    (h : envInherit e parentId vars k = .ok u k') : Setup e k k' ∧ k'.envFreeList = k.envFreeList := by
  obtain ⟨cwd, page, _, rfl⟩ := envInherit_runs h
  exact ⟨.trans (.updateEnv (by exact rfl)) (.putVm e _ _), rfl⟩

theorem envInherit_err {e : EnvPtr} {parentId : Word} {vars : Nat} {k k' : Kernel} {code : Word} :
    envInherit e parentId vars k ≠ .err code k' := by
  intro h
  unfold envInherit at h
  split at h
  · cases h
  · split at h
    · split at h <;> cases h
    · cases h

theorem asidAlloc_runs {k k' : Kernel} {asid : Fin 256} (h : asidAlloc k = .ok asid k') :
    k.asidBitmap asid = false ∧ k' = { k with asidBitmap := Function.update k.asidBitmap asid true } := by
  unfold asidAlloc at h
  split at h
  · rename_i free
    cases h
    exact ⟨by simpa using List.find?_some free, rfl⟩
  · cases h

theorem asidAlloc_exhausted {k k' : Kernel} {code : Word} (h : asidAlloc k = .err code k') :
    code = -eNoFreeEnv ∧ (∀ i, k.asidBitmap i = true) ∧ k' = k := by
  unfold asidAlloc at h
  split at h
  · cases h
  · rename_i none
    cases h
    exact ⟨rfl, fun i => by simpa using List.find?_eq_none.mp none i (List.mem_finRange i), rfl⟩

/-- `k` in `env_alloc` of `e` up to `asid_alloc`, with the variables on the page `vars`. -/
def Kernel.giveVars (k : Kernel) (e : EnvPtr) (vars : Nat) (vm : Vm) : Kernel :=
  (k.putVm (vm.incRef vars)).updateEnv e fun env =>
    { env with envVars := some vars, envUserTlbModEntry := 0, envRuns := 0 }

/-- `k` in `env_alloc` of `e` up to what is inherited. -/
def Kernel.giveId (k : Kernel) (e : EnvPtr) (asid : Fin 256) (parentId : Word) : Kernel :=
  let k := { k with asidBitmap := Function.update k.asidBitmap asid true, mkenvidI := k.mkenvidI + 1 }
  k.updateEnv e fun env =>
    { env with envAsid := asid, envId := (k.mkenvidI <<< 11) ||| BitVec.ofNat 32 e.val, envParentId := parentId }

theorem Setup.giveVars (e : EnvPtr) (k : Kernel) (vars : Nat) (vm : Vm) : Setup e k (k.giveVars e vars vm) :=
  .trans (.putVm e k _) (.updateEnv (by exact rfl))

theorem Setup.giveId (e : EnvPtr) (k : Kernel) (asid : Fin 256) (parentId : Word) :
    Setup e k (k.giveId e asid parentId) :=
  ⟨rfl, rfl, rfl, rfl, rfl, fun _ ne => by simp [Kernel.giveId, Kernel.updateEnv, ne],
    by simp [Kernel.giveId, Kernel.updateEnv, Env.Allocated]⟩

/-- The kernel in an `env_alloc` of `e` that succeeds: `k1` after `env_setup_vm` and `k2` with what is inherited. -/
structure AllocRun (parentId : Word) (e : EnvPtr) (k k' k1 k2 : Kernel) (vars : Nat) (vm : Vm) (asid : Fin 256) :
    Prop where
  free : k.envFreeList = e :: k'.envFreeList
  setup : envSetupVm e k = .ok () k1
  alloc : pageAlloc k1.vm = .ok vars vm
  unused : k.asidBitmap asid = false
  inherited : envInherit e parentId vars ((k1.giveVars e vars vm).giveId e asid parentId) = .ok () k2
  last : k' = { k2.updateEnv e fun env =>
    { env with envTf := { env.envTf.setReg 29 (ustacktop - 8) with cp0Status := statusInit } } with
      envFreeList := k'.envFreeList }

theorem envAlloc_runs {parentId : Word} {e : EnvPtr} {k k' : Kernel} (h : envAlloc parentId k = .ok e k') :
    ∃ k1 k2 vars vm asid, AllocRun parentId e k k' k1 k2 vars vm asid := by
  unfold envAlloc at h
  split at h
  · cases h
  · rename_i first rest free
    obtain ⟨_, k1, setup, h⟩ := Result.bind_ok h
    split at h
    · obtain ⟨_, _, _, h⟩ := Result.bind_ok h
      cases h
    · cases h
    · rename_i vars vm alloc
      obtain ⟨asid, _, taken, h⟩ := Result.bind_ok h
      obtain ⟨unused, rfl⟩ := asidAlloc_runs taken
      obtain ⟨_, k2, inherited, h⟩ := Result.bind_ok h
      cases h
      refine ⟨k1, k2, vars, vm, asid, free, setup, alloc, ?_, ?_, rfl⟩
      · rw [← (envSetupVm_table setup).1]
        exact unused
      · simpa [Kernel.giveVars, Kernel.giveId, Kernel.updateEnv, mkenvid] using inherited

namespace AllocRun

variable {parentId : Word} {e : EnvPtr} {k k' k1 k2 : Kernel} {vars : Nat} {vm : Vm} {asid : Fin 256}

theorem vm_eq (ran : AllocRun parentId e k k' k1 k2 vars vm asid) :
    ∃ page, k'.vm = { vm.incRef vars with mem := Function.update vm.mem vars page } := by
  obtain ⟨cwd, page, _, same⟩ := envInherit_runs ran.inherited
  rw [ran.last, same]
  exact ⟨page, rfl⟩

theorem root (ran : AllocRun parentId e k k' k1 k2 vars vm asid) :
    (k'.envs e).envPgdir = (k1.envs e).envPgdir ∧ (k'.envs e).envVars = some vars := by
  obtain ⟨cwd, page, _, same⟩ := envInherit_runs ran.inherited
  rw [ran.last, same]
  simp [Kernel.updateEnv, Kernel.putVm, Kernel.giveId, Kernel.giveVars]

theorem number (ran : AllocRun parentId e k k' k1 k2 vars vm asid) :
    k'.mkenvidI = k.mkenvidI + 1 ∧ (k'.envs e).envId = (k.mkenvidI + 1) <<< 11 ||| BitVec.ofNat 32 e.val := by
  obtain ⟨cwd, page, _, same⟩ := envInherit_runs ran.inherited
  rw [ran.last, same, ← (envSetupVm_table ran.setup).2]
  simp [Kernel.updateEnv, Kernel.putVm, Kernel.giveId, Kernel.giveVars]

theorem asids (ran : AllocRun parentId e k k' k1 k2 vars vm asid) :
    k'.asidBitmap = Function.update k.asidBitmap asid true ∧ (k'.envs e).envAsid = asid ∧
      (k'.envs e).envParentId = parentId := by
  obtain ⟨cwd, page, _, same⟩ := envInherit_runs ran.inherited
  rw [ran.last, same, ← (envSetupVm_table ran.setup).1]
  simp [Kernel.updateEnv, Kernel.putVm, Kernel.giveId, Kernel.giveVars]

end AllocRun

/-- Where an `env_alloc` fails, and the kernel it leaves. -/
inductive AllocRefused (k : Kernel) (code : Word) : Kernel → Prop
  | envs : k.envFreeList = [] → code = -eNoFreeEnv → AllocRefused k code k
  | pgdir {e rest} : k.envFreeList = e :: rest → envSetupVm e k = .err code k → AllocRefused k code k
  | vars {e rest k1 vm} : k.envFreeList = e :: rest → envSetupVm e k = .ok () k1 → pageAlloc k1.vm = .err code k1.vm →
      pageFree k1.vm (k1.envs e).envPgdir = .ok () vm → AllocRefused k code (k1.putVm vm)
  | asid {e rest k1 vars vm} : k.envFreeList = e :: rest → envSetupVm e k = .ok () k1 →
      pageAlloc k1.vm = .ok vars vm → (∀ i, k.asidBitmap i = true) → code = -eNoFreeEnv →
      AllocRefused k code (k1.giveVars e vars vm)

theorem envAlloc_refuses {parentId code : Word} {k k' : Kernel} (h : envAlloc parentId k = .err code k') :
    AllocRefused k code k' := by
  unfold envAlloc at h
  split at h
  · cases h
    exact .envs ‹_› rfl
  · rename_i e rest free
    rcases Result.bind_err h with h | ⟨_, k1, setup, h⟩
    · cases envSetupVm_err h
      exact .pgdir free h
    · split at h
      · rename_i alloc
        cases (pageAlloc_err alloc).1
        rcases Result.bind_err h with h | ⟨_, _, release, h⟩
        · obtain ⟨vm, refused, rfl⟩ := withVm_err h
          unfold pageFree at refused
          split at refused <;> cases refused
        · obtain ⟨vm, done, rfl⟩ := withVm_ok release
          cases h
          exact .vars free setup alloc done
      · cases h
      · rename_i alloc
        rcases Result.bind_err h with h | ⟨_, _, _, h⟩
        · obtain ⟨rfl, full, rfl⟩ := asidAlloc_exhausted h
          exact .asid free setup alloc (fun i => (congrFun (envSetupVm_table setup).1 i).symm.trans (full i)) rfl
        · rcases Result.bind_err h with h | ⟨_, _, _, h⟩
          · exact absurd h envInherit_err
          · cases h

theorem envAlloc_ok {parentId : Word} {e : EnvPtr} {k k' : Kernel} (h : envAlloc parentId k = .ok e k') :
    Setup e k k' ∧ k.envFreeList = e :: k'.envFreeList := by
  obtain ⟨k1, k2, vars, vm, asid, ran⟩ := envAlloc_runs h
  refine ⟨?_, ran.free⟩
  have inherited := (envSetupVm_ok ran.setup).1.trans ((Setup.giveVars e k1 vars vm).trans
    ((Setup.giveId e _ asid parentId).trans (envInherit_ok ran.inherited).1))
  have saved := inherited.trans (.updateEnv (f := fun env =>
    { env with envTf := { env.envTf.setReg 29 (ustacktop - 8) with cp0Status := statusInit } }) rfl)
  rw [ran.last]
  exact ⟨saved.sched, saved.curenv, saved.curPgdir, saved.basePgdir, saved.tf, saved.others, saved.env⟩

theorem envAlloc_err {parentId : Word} {code : Word} {k k' : Kernel} (h : envAlloc parentId k = .err code k') :
    ∃ e, (k.envFreeList = [] ∨ e ∈ k.envFreeList) ∧ Setup e k k' ∧ k'.envFreeList = k.envFreeList := by
  cases envAlloc_refuses h with
  | envs empty => exact ⟨0, Or.inl empty, .refl 0 k, rfl⟩
  | @pgdir e _ free => exact ⟨e, Or.inr (by simp [free]), .refl e k, rfl⟩
  | @vars e _ _ _ free setup =>
    obtain ⟨given, list⟩ := envSetupVm_ok setup
    exact ⟨e, Or.inr (by simp [free]), given.trans (.putVm e _ _), list⟩
  | @asid e _ _ _ _ free setup =>
    obtain ⟨given, list⟩ := envSetupVm_ok setup
    exact ⟨e, Or.inr (by simp [free]), given.trans (.giveVars e _ _ _), list⟩

/-- A call that only returns 0 or never returns. -/
def NoErr {σ α : Type} (r : Res σ α) : Prop := ∀ code s, r ≠ .err code s

theorem NoErr.bind {σ α β : Type} {r : Res σ α} {f : α → σ → Res σ β} (first : NoErr r)
    (second : ∀ a s, NoErr (f a s)) : NoErr (r.bind f) := by
  intro code s h
  rcases Result.bind_err h with h | ⟨a, mid, _, h⟩
  · exact first code s h
  · exact second a mid code s h

theorem NoErr.lift {σ τ α : Type} {r : Res σ α} {put : σ → τ} (noErr : NoErr r) :
    NoErr (r.lift put : Res τ α) := by
  intro code t h
  obtain ⟨s, h, _⟩ := Result.lift_err h
  exact noErr code s h

theorem NoErr.forRange {σ : Type} {n : Nat} {body : Nat → σ → Res σ Unit} (each : ∀ i s, NoErr (body i s)) (s : σ) :
    NoErr (Result.forRange n body s) := by
  induction n with
  | zero => intro code t h; cases h
  | succ n ih => exact ih.bind fun _ mid => each n mid

theorem pageDecref_noErr (vm : Vm) (pp : Nat) : NoErr (pageDecref vm pp) := by
  intro code s h
  unfold pageDecref pageFree at h
  split at h
  · cases h
  · dsimp only at h
    split at h
    · split at h <;> cases h
    · cases h

theorem pageLookup_noErr (vm : Vm) (pgdir : Nat) (va : Word) : NoErr (pageLookup vm pgdir va) := by
  refine NoErr.bind ?_ ?_
  · intro code s h
    simp only [pgdirWalk, pteIn, Bool.false_eq_true, if_false] at h
    split at h
    · cases h
    · split at h <;> cases h
  · intro pte s code t h
    split at h
    · cases h
    · split at h
      · cases h
      · split at h <;> cases h

theorem pageRemove_noErr (vm : Vm) (pgdir : Nat) (asid va : Word) : NoErr (pageRemove vm pgdir asid va) := by
  refine (pageLookup_noErr vm pgdir va).bind fun found s => ?_
  cases found with
  | none => intro code t h; cases h
  | some found => exact (pageDecref_noErr s found.1).bind fun _ _ code t h => by cases h

theorem envFreePde_noErr (pgdir : Nat) (asid : Word) (pdeno : Nat) (vm : Vm) :
    NoErr (envFreePde pgdir asid pdeno vm) := by
  intro code s h
  unfold envFreePde at h
  dsimp only at h
  split at h
  · cases h
  · split at h
    · cases h
    · refine NoErr.bind ?_ ?_ code s h
      · refine NoErr.forRange (fun i s => ?_) vm
        split
        · exact pageRemove_noErr _ _ _ _
        · intro code t h; cases h
      · exact fun _ s => (pageDecref_noErr _ _).bind fun _ _ code t h => by cases h

/-- The unlinking and the fields that `env_free` changes outside memory. -/
structure Freed (e : EnvPtr) (k k' : Kernel) : Prop where
  unlinked : k.envSchedList.remove e = some k'.envSchedList
  freeList : k'.envFreeList = e :: k.envFreeList
  curenv : k'.curenv = k.curenv
  curPgdir : k'.curPgdir = k.curPgdir
  basePgdir : k'.basePgdir = k.basePgdir
  tf : k'.tf = k.tf
  others : ∀ b, b ≠ e → k'.envs b = k.envs b
  env : k'.envs e = { k.envs e with envVars := none, envStatus := .free }
  asidBitmap : k'.asidBitmap = Function.update k.asidBitmap (k.envs e).envAsid false

theorem tailqRemove_ok {k k' : Kernel} {e : EnvPtr} {u : Unit} (h : k.tailqRemove e = .ok u k') :
    ∃ q, k.envSchedList.remove e = some q ∧ k' = { k with envSchedList := q } := by
  unfold Kernel.tailqRemove at h
  split at h <;> cases h
  exact ⟨_, ‹_›, rfl⟩

theorem tailqRemove_noErr (k : Kernel) (e : EnvPtr) : NoErr (k.tailqRemove e) := by
  intro code s h
  unfold Kernel.tailqRemove at h
  split at h <;> cases h

theorem envFree_noErr (e : EnvPtr) (k : Kernel) : NoErr (envFree e k) := by
  refine NoErr.bind ?_ fun _ k => NoErr.bind ?_ fun _ k => NoErr.bind ?_ fun _ k => tailqRemove_noErr _ _
  · split
    · exact (pageDecref_noErr _ _).lift.bind fun _ _ code t h => by cases h
    · intro code t h; cases h
  · exact (NoErr.forRange (envFreePde_noErr _ _) _).lift
  · exact (pageDecref_noErr _ _).lift

/-- The memory in `env_free` of `e`: `vm1` after the release of the variable page, `vm2` after the loop over the
    tables and `vm3` after the release of the directory. -/
structure FreeRun (e : EnvPtr) (k k' : Kernel) (vm1 vm2 vm3 : Vm) : Prop where
  vars : ((k.envs e).envVars = none ∧ vm1 = k.vm) ∨ ∃ v, (k.envs e).envVars = some v ∧ pageDecref k.vm v = .ok () vm1
  loop : Result.forRange (pdx utop) (envFreePde (k.envs e).envPgdir (asidWord (k.envs e).envAsid)) vm1 = .ok () vm2
  release : pageDecref vm2 (k.envs e).envPgdir = .ok () vm3
  last : k'.vm = tlbInvalidate vm3 (asidWord (k.envs e).envAsid) (uvpt + BitVec.ofNat 32 (pdx uvpt) <<< pgshift)
  counter : k'.mkenvidI = k.mkenvidI
  freed : Freed e k k'

theorem envFree_runs {e : EnvPtr} {k k' : Kernel} {u : Unit} (h : envFree e k = .ok u k') :
    ∃ vm1 vm2 vm3, FreeRun e k k' vm1 vm2 vm3 := by
  obtain ⟨_, k1, vars, h⟩ := Result.bind_ok h
  obtain ⟨_, k2, tables, h⟩ := Result.bind_ok h
  obtain ⟨vm2, loop, rfl⟩ := withVm_ok tables
  obtain ⟨_, k3, dir, h⟩ := Result.bind_ok h
  obtain ⟨vm3, release, rfl⟩ := withVm_ok dir
  obtain ⟨q, removed, rfl⟩ := tailqRemove_ok h
  have start : ∃ vm, k1 = { k with vm := vm, envs := Function.update k.envs e { k.envs e with envVars := none } } ∧
      (((k.envs e).envVars = none ∧ vm = k.vm) ∨ ∃ v, (k.envs e).envVars = some v ∧ pageDecref k.vm v = .ok () vm) := by
    split at vars
    · rename_i v present
      obtain ⟨_, _, decref, vars⟩ := Result.bind_ok vars
      obtain ⟨vm, dropped, rfl⟩ := withVm_ok decref
      cases vars
      exact ⟨vm, rfl, Or.inr ⟨v, present, dropped⟩⟩
    · rename_i noVars
      cases vars
      have same : ∀ a : Env, a.envVars = none → { a with envVars := none } = a := by
        intro a null
        cases a
        cases null
        rfl
      exact ⟨k.vm, by rw [same _ noVars, Function.update_eq_self], Or.inl ⟨noVars, rfl⟩⟩
  obtain ⟨vm1, rfl, first⟩ := start
  refine ⟨vm1, vm2, vm3, first, loop, release, rfl, rfl, removed, rfl, rfl, rfl, rfl, rfl, fun b ne => ?_, ?_, ?_⟩
  · simp [Kernel.updateEnv, Kernel.putVm, asidFree, ne]
  · simp [Kernel.updateEnv, Kernel.putVm, asidFree]
  · simp [Kernel.updateEnv, Kernel.putVm, asidFree]

theorem envFree_ok {e : EnvPtr} {k k' : Kernel} {u : Unit} (h : envFree e k = .ok u k') : Freed e k k' := by
  obtain ⟨_, _, _, ran⟩ := envFree_runs h
  exact ran.freed

/-- `env_run` of `e`: the context of `curenv` is saved and that of `e` is restored. -/
structure Resumption (e : EnvPtr) (k k' : Kernel) : Prop where
  runnable : (k.envs e).envStatus = .runnable
  vm : k'.vm = k.vm
  freeList : k'.envFreeList = k.envFreeList
  asidBitmap : k'.asidBitmap = k.asidBitmap
  mkenvidI : k'.mkenvidI = k.mkenvidI
  basePgdir : k'.basePgdir = k.basePgdir
  curenv : k'.curenv = some e
  curPgdir : k'.curPgdir = (k.envs e).envPgdir
  tf : k'.tf = if k.curenv = some e then k.tf else (k.envs e).envTf
  envs : ∀ b, (k.envs b).Resumed (k'.envs b)
  saved : ∀ b, (k'.envs b).envTf = if k.curenv = some b then k.tf else (k.envs b).envTf

theorem envRun_ok {e : EnvPtr} {k k' : Kernel} {u : Unit} (h : envRun e k = .ok u k') :
    Resumption e k k' ∧ k'.envSchedList = k.envSchedList := by
  unfold envRun at h
  split at h
  · cases h
  · rename_i runnable
    cases h
    cases cur : k.curenv with
    | none =>
      refine ⟨⟨by simpa using runnable, rfl, rfl, rfl, rfl, rfl, rfl, ?_, ?_, fun b => ?_, fun b => ?_⟩, rfl⟩
      · simp [Kernel.updateEnv]
      · simp [Kernel.updateEnv, cur]
      · by_cases same : b = e <;> simp [Env.Resumed, Kernel.updateEnv, same]
      · by_cases same : b = e <;> simp [Kernel.updateEnv, same, cur]
    | some c =>
      refine ⟨⟨by simpa using runnable, rfl, rfl, rfl, rfl, rfl, rfl, ?_, ?_, fun b => ?_, fun b => ?_⟩, rfl⟩
      · by_cases other : e = c <;> simp [Kernel.updateEnv, other]
      · by_cases other : e = c <;> simp [Kernel.updateEnv, other, cur, eq_comm]
      · by_cases same : b = e <;> by_cases other : b = c <;> by_cases both : e = c <;>
          simp_all [Env.Resumed, Kernel.updateEnv]
      · by_cases same : b = e <;> by_cases other : b = c <;> by_cases both : e = c <;>
          simp_all [Kernel.updateEnv, eq_comm]

/-- How `schedule` picks `e` and leaves the queue. -/
inductive Choice (k : Kernel) (e : EnvPtr) : TailQueue.Links EnvPtr → Prop where
  | again (current : k.curRunnable = some e) : Choice k e k.envSchedList
  | rotated {cur : EnvPtr} {q : TailQueue.Links EnvPtr} (current : k.curRunnable = some cur)
      (removed : k.envSchedList.remove cur = some q) (head : (q.insertTail cur).first = some e) :
      Choice k e (q.insertTail cur)
  | head (current : k.curRunnable = none) (head : k.envSchedList.first = some e) : Choice k e k.envSchedList

theorem Resumption.recount {e : EnvPtr} {k mid k' : Kernel} (resumed : Resumption e mid k')
    (same : mid = { k with count := mid.count, envSchedList := mid.envSchedList }) : Resumption e k k' := by
  rw [same] at resumed
  exact ⟨resumed.runnable, resumed.vm, resumed.freeList, resumed.asidBitmap, resumed.mkenvidI, resumed.basePgdir,
    resumed.curenv, resumed.curPgdir, resumed.tf, resumed.envs, resumed.saved⟩

theorem schedule_ok {yield : Bool} {k k' : Kernel} {u : Unit} (h : schedule yield k = .ok u k') :
    ∃ e, Choice k e k'.envSchedList ∧ Resumption e k k' := by
  unfold schedule at h
  split at h
  · rename_i e _ current
    obtain ⟨resumed, same⟩ := envRun_ok h
    exact ⟨e, same ▸ .again current, resumed.recount rfl⟩
  · obtain ⟨_, mid, requeue, h⟩ := Result.bind_ok h
    split at h
    · cases h
    · rename_i e head
      obtain ⟨resumed, same⟩ := envRun_ok h
      cases current : k.curRunnable with
      | none =>
        simp only [current, Result.ok.injEq] at requeue
        obtain ⟨_, rfl⟩ := requeue
        exact ⟨e, same ▸ .head current head, resumed.recount rfl⟩
      | some cur =>
        simp only [current] at requeue
        obtain ⟨_, _, unlink, requeue⟩ := Result.bind_ok requeue
        obtain ⟨q, removed, rfl⟩ := tailqRemove_ok unlink
        cases requeue
        exact ⟨e, same ▸ .rotated current removed head, resumed.recount rfl⟩

theorem envRun_noErr (e : EnvPtr) (k : Kernel) : NoErr (envRun e k) := by
  intro code s h
  unfold envRun at h
  split at h <;> cases h

theorem schedule_noErr (yield : Bool) (k : Kernel) : NoErr (schedule yield k) := by
  intro code s h
  unfold schedule at h
  split at h
  · exact envRun_noErr _ _ _ _ h
  · refine NoErr.bind ?_ (fun _ mid => ?_) code s h
    · split
      · exact (tailqRemove_noErr _ _).bind fun _ _ code t h => by cases h
      · intro code t h; cases h
    · split
      · intro code t h; cases h
      · exact envRun_noErr _ _

theorem withVm_state {α : Type} {k k' : Kernel} {r : Res Vm α} (h : (k.withVm r).state = some k') :
    ∃ vm, k' = k.putVm vm := by
  cases r with
  | ok a vm => cases h; exact ⟨vm, rfl⟩
  | err code vm => cases h; exact ⟨vm, rfl⟩
  | stop cause => cases h

theorem ret_state {α : Type} {r : Word} {res : Res Kernel α} {k' : Kernel} (h : (ret r res).state = some k') :
    res.state = some k' := by
  cases res <;> exact h

theorem retVm_state {α : Type} {k k' : Kernel} {w : Word} {r : Res Vm α}
    (h : (ret w (k.withVm r)).state = some k') : ∃ vm, k' = k.putVm vm := withVm_state (ret_state h)

theorem tryEnv_state {found : Except Word EnvPtr} {k k' : Kernel} {f : EnvPtr → SysRes}
    (h : (tryEnv found k f).state = some k') :
    (k' = k ∧ ∃ code, found = .error code) ∨ ∃ e, found = .ok e ∧ (f e).state = some k' := by
  cases found with
  | ok e => exact Or.inr ⟨e, rfl, h⟩
  | error code => cases h; exact Or.inl ⟨rfl, code, rfl⟩

theorem withVm_bind_state {α β : Type} {k k' : Kernel} {r : Res Vm α} {f : α → Kernel → Res Kernel β}
    (h : ((k.withVm r).bind f).state = some k') :
    (∃ vm, k' = k.putVm vm) ∨ ∃ a vm, r = .ok a vm ∧ (f a (k.putVm vm)).state = some k' := by
  rcases Result.bind_state h with ⟨code, h⟩ | ⟨a, mid, h, rest⟩
  · obtain ⟨vm, _, rfl⟩ := withVm_err h
    exact Or.inl ⟨vm, rfl⟩
  · obtain ⟨vm, ok, rfl⟩ := withVm_ok h
    exact Or.inr ⟨a, vm, ok, rest⟩

theorem sysMemAlloc_state {cur : EnvPtr} {envid va perm : Word} {k k' : Kernel}
    (h : (sysMemAlloc cur envid va perm k).state = some k') : ∃ vm, k' = k.putVm vm := by
  unfold sysMemAlloc at h
  split at h
  · cases h; exact ⟨k.vm, rfl⟩
  · rcases tryEnv_state h with ⟨rfl, _⟩ | ⟨e, _, h⟩
    · exact ⟨k'.vm, rfl⟩
    · rcases withVm_bind_state h with done | ⟨pp, vm, _, h⟩
      · exact done
      · exact retVm_state h

theorem sysMemMap_state {cur : EnvPtr} {srcid srcva dstid dstva perm : Word} {k k' : Kernel}
    (h : (sysMemMap cur srcid srcva dstid dstva perm k).state = some k') : ∃ vm, k' = k.putVm vm := by
  unfold sysMemMap at h
  split at h
  · cases h; exact ⟨k.vm, rfl⟩
  · rcases tryEnv_state h with ⟨rfl, _⟩ | ⟨src, _, h⟩
    · exact ⟨k'.vm, rfl⟩
    · rcases tryEnv_state h with ⟨rfl, _⟩ | ⟨dst, _, h⟩
      · exact ⟨k'.vm, rfl⟩
      · rcases withVm_bind_state h with done | ⟨found, vm, _, h⟩
        · exact done
        · cases found with
          | none => cases h; exact ⟨vm, rfl⟩
          | some found => exact retVm_state h

theorem sysMemUnmap_state {cur : EnvPtr} {envid va : Word} {k k' : Kernel}
    (h : (sysMemUnmap cur envid va k).state = some k') : ∃ vm, k' = k.putVm vm := by
  unfold sysMemUnmap at h
  split at h
  · cases h; exact ⟨k.vm, rfl⟩
  · rcases tryEnv_state h with ⟨rfl, _⟩ | ⟨e, _, h⟩
    · exact ⟨k'.vm, rfl⟩
    · exact retVm_state h

theorem ipcMap_cases (cur e : EnvPtr) (srcva perm : Word) (k : Kernel) :
    (∃ vm, ipcMap cur e srcva perm k = .ok (some 0) (k.putVm vm)) ∨
      (∃ code vm, ipcMap cur e srcva perm k = .err code (k.putVm vm)) ∨
      ∃ cause, ipcMap cur e srcva perm k = .stop cause := by
  unfold ipcMap
  split
  · cases pageLookup k.vm (k.envs cur).envPgdir srcva with
    | ok found vm =>
      cases found with
      | none => exact Or.inr (Or.inl ⟨_, vm, rfl⟩)
      | some found =>
        simp only [Kernel.withVm, Result.ok_lift, Result.ok_bind]
        cases pageInsert (k.putVm vm).vm ((k.putVm vm).envs e).envPgdir (asidWord ((k.putVm vm).envs e).envAsid)
            found.1 ((k.putVm vm).envs e).envIpcDstva perm with
        | ok _ vm' => exact Or.inl ⟨vm', rfl⟩
        | err code vm' => exact Or.inr (Or.inl ⟨code, vm', rfl⟩)
        | stop cause => exact Or.inr (Or.inr ⟨cause, rfl⟩)
    | err code vm => exact Or.inr (Or.inl ⟨code, vm, rfl⟩)
    | stop cause => exact Or.inr (Or.inr ⟨cause, rfl⟩)
  · exact Or.inl ⟨k.vm, rfl⟩

/-- The checks of `sys_ipc_try_send` before it writes to `e`. -/
structure Accepts (k : Kernel) (cur : EnvPtr) (envid srcva : Word) (e : EnvPtr) : Prop where
  va : ¬ (srcva ≠ 0 ∧ isIllegalVa srcva = true)
  env : envid2env k cur envid false = .ok e
  recving : (k.envs e).envIpcRecving = 1

theorem sysIpcTrySend_cases (cur : EnvPtr) (envid value srcva perm : Word) (k : Kernel) :
    (∃ code, code ≠ 0 ∧ sysIpcTrySend cur envid value srcva perm k = .err code k ∧
        ∀ e, ¬ Accepts k cur envid srcva e) ∨
      ∃ e, Accepts k cur envid srcva e ∧
        sysIpcTrySend cur envid value srcva perm k = ipcMap cur e srcva perm (ipcDeliver cur e value perm k) := by
  unfold sysIpcTrySend
  split
  · rename_i bad
    exact Or.inl ⟨_, by decide, rfl, fun e accepts => accepts.va bad⟩
  · rename_i va
    cases env : envid2env k cur envid false with
    | error code =>
      refine Or.inl ⟨code, ?_, rfl, fun e accepts => ?_⟩
      · unfold envid2env at env
        split at env
        · cases env
        · dsimp only at env
          split at env
          · cases env; decide
          · split at env <;> cases env
            decide
      · cases env.symm.trans accepts.env
    | ok e =>
      simp only [tryEnv]
      split
      · rename_i idle
        refine Or.inl ⟨_, by decide, rfl, fun b accepts => idle ?_⟩
        cases env.symm.trans accepts.env
        exact accepts.recving
      · rename_i recving
        exact Or.inr ⟨e, ⟨va, env, not_not.mp recving⟩, rfl⟩

theorem sysIpcTrySend_state {cur : EnvPtr} {envid value srcva perm : Word} {k k' : Kernel}
    (h : (sysIpcTrySend cur envid value srcva perm k).state = some k') :
    (k' = k ∧ ∀ e, ¬ Accepts k cur envid srcva e) ∨
      ∃ e vm, Accepts k cur envid srcva e ∧ k' = (ipcDeliver cur e value perm k).putVm vm := by
  rcases sysIpcTrySend_cases cur envid value srcva perm k with ⟨_, _, eq, refused⟩ | ⟨e, accepts, eq⟩
  · rw [eq] at h
    cases h
    exact Or.inl ⟨rfl, refused⟩
  · rw [eq] at h
    rcases ipcMap_cases cur e srcva perm (ipcDeliver cur e value perm k) with
      ⟨vm, map⟩ | ⟨_, vm, map⟩ | ⟨_, map⟩ <;> rw [map] at h <;> cases h
    · exact Or.inr ⟨e, vm, accepts, rfl⟩
    · exact Or.inr ⟨e, vm, accepts, rfl⟩

/-- What `sys_exofork` sets in the env that `env_alloc` gave it, in state `k`. -/
def forked (cur e : EnvPtr) (k : Kernel) : Kernel :=
  k.updateEnv e fun env =>
    { env with envTf := k.tf.setReg 2 0, envStatus := .notRunnable, envPri := (k.envs cur).envPri }

theorem sysExofork_state {cur : EnvPtr} {k k' : Kernel} (h : (sysExofork cur k).state = some k') :
    (∃ code, envAlloc (k.envs cur).envId k = .err code k') ∨
      ∃ e mid, envAlloc (k.envs cur).envId k = .ok e mid ∧ k' = forked cur e mid := by
  rcases Result.bind_state h with ⟨code, h⟩ | ⟨e, mid, alloc, h⟩
  · exact Or.inl ⟨code, h⟩
  · cases h
    exact Or.inr ⟨e, mid, alloc, rfl⟩

/-- What `env_create` sets outside memory in the env that `env_alloc` gave it. -/
structure Created (e : EnvPtr) (priority : Word) (k k' : Kernel) : Prop where
  sched : k'.envSchedList = k.envSchedList.insertHead e
  freeList : k'.envFreeList = k.envFreeList
  curenv : k'.curenv = k.curenv
  curPgdir : k'.curPgdir = k.curPgdir
  others : ∀ b, b ≠ e → k'.envs b = k.envs b
  env : k'.envs e = { k.envs e with envPri := priority, envStatus := .runnable, envTf := (k'.envs e).envTf }
  basePgdir : k'.basePgdir = k.basePgdir
  asidBitmap : k'.asidBitmap = k.asidBitmap

theorem panicOn_ok {σ α : Type} {r : Res σ α} {a : α} {s : σ} (h : panicOn r = .ok a s) : r = .ok a s := by
  cases r <;> cases h
  rfl

theorem panicOn_noErr {σ α : Type} (r : Res σ α) : NoErr (panicOn r) := by
  intro code s h
  cases r <;> cases h

theorem envCreate_state {binary : Binary} {priority : Word} {k k' : Kernel}
    (h : (envCreate binary priority k).state = some k') :
    ∃ e mid, envAlloc 0 k = .ok e mid ∧ Created e priority mid k' ∧
      loadPages (mid.envs e).envPgdir (asidWord (mid.envs e).envAsid) binary.pages mid.vm = .ok () k'.vm := by
  rcases Result.bind_state h with ⟨code, h⟩ | ⟨e, mid, alloc, h⟩
  · exact absurd h (panicOn_noErr _ _ _)
  · refine ⟨e, mid, panicOn_ok alloc, ?_⟩
    rcases Result.bind_state h with ⟨code, h⟩ | ⟨_, last, load, h⟩
    · rcases Result.bind_err h with h | ⟨_, _, _, h⟩
      · exact absurd h (panicOn_noErr _ _ _)
      · cases h
    · obtain ⟨_, loaded, pages, load⟩ := Result.bind_ok load
      obtain ⟨vm, loop, rfl⟩ := withVm_ok (panicOn_ok pages)
      cases load
      cases h
      refine ⟨⟨rfl, rfl, rfl, rfl, fun b ne => ?_, ?_, rfl, rfl⟩, ?_⟩
      · simp [Kernel.updateEnv, Kernel.putVm, Kernel.tailqInsertHead, ne]
      · simp [Kernel.updateEnv, Kernel.putVm, Kernel.tailqInsertHead]
      · simp only [Kernel.updateEnv, Function.update_self] at loop
        exact loop

theorem doSyscall_state {cur : EnvPtr} {tf : Trapframe} {call : Call} {k k' : Kernel}
    (h : doSyscall cur tf call k = some k') :
    ∃ after mid, (syscallTable cur call (k.trap tf)).state = some mid ∧ k' = { mid with tf := after } := by
  unfold doSyscall at h
  generalize result : syscallTable cur call (k.trap tf) = res at h
  cases res with
  | ok r mid =>
    cases r with
    | none => cases h; exact ⟨k'.tf, k', rfl, rfl⟩
    | some r => cases h; exact ⟨_, mid, rfl, rfl⟩
  | err r mid => cases h; exact ⟨_, mid, rfl, rfl⟩
  | stop cause => cases h

end Mos
