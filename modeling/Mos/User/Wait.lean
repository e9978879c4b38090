import Mos.Kern.Zombie

namespace Mos

/-- Where an env is in `wait`. Each load of the volatile `*e` is a place of its own. -/
inductive WaitPc where
  | loopId
  | loopRunnable
  | loopNotRunnable
  | yield
  | zombieId
  | zombieStatus
  | readStatus
  | destroy (exitStatus : Word)
deriving DecidableEq

/-- A call of `wait(envid)`. `direct` records that `envid` was a direct child of the caller. -/
structure Waiting where
  envid : Word
  direct : Bool
  pc : WaitPc
deriving DecidableEq

/-- A return of `wait(envid)`, with the status that the env of `envid` had exited with by then. -/
structure WaitReturn where
  caller : EnvPtr
  envid : Word
  direct : Bool
  value : Word
  exited : Option Word
deriving DecidableEq

/-- The machine with the envs that are in `wait`, what `wait` returned so far, and the argument of the last
    `sys_env_destroy(0, status)` of each env in use. -/
structure Waits where
  k : Kernel
  waiting : EnvPtr → Option Waiting
  exited : EnvPtr → Option Word
  returned : List WaitReturn

inductive WaitOp where
  | kernel (op : Op)
  | call (envid : Word)
  | next (tf : Trapframe)

def recordExit (exited : EnvPtr → Option Word) : Event → EnvPtr → Option Word
  | .exit e status => Function.update exited e (some status)
  | .create e _ => Function.update exited e none
  | _ => exited

structure DirectChild (t : Table) (p : EnvPtr) (envid : Word) : Prop where
  other : envx envid ≠ p
  used : (t.slots (envx envid)).status ≠ .free
  id : (t.slots (envx envid)).id = envid
  parent : (t.slots (envx envid)).parent = (t.slots p).id

instance (t : Table) (p : EnvPtr) (envid : Word) : Decidable (DirectChild t p envid) :=
  decidable_of_iff (envx envid ≠ p ∧ (t.slots (envx envid)).status ≠ .free ∧ (t.slots (envx envid)).id = envid ∧
    (t.slots (envx envid)).parent = (t.slots p).id) ⟨fun h => ⟨h.1, h.2.1, h.2.2.1, h.2.2.2⟩,
      fun h => ⟨h.other, h.used, h.id, h.parent⟩⟩

namespace Waits

def start (k : Kernel) : Waits := { k := k, waiting := fun _ => none, exited := fun _ => none, returned := [] }

def kernel (s : Waits) (op : Op) : Option Waits :=
  (Mos.step s.k op).map fun k => { s with k := k, exited := recordExit s.exited (event s.k op) }

def goto (s : Waits) (p : EnvPtr) (w : Waiting) (pc : WaitPc) : Waits :=
  { s with waiting := Function.update s.waiting p (some { w with pc := pc }) }

def ret (s : Waits) (p : EnvPtr) (w : Waiting) (value : Word) : Waits :=
  { s with waiting := Function.update s.waiting p none,
           returned := { caller := p, envid := w.envid, direct := w.direct, value := value,
                         exited := s.exited (envx w.envid) } :: s.returned }

/-- The next step of `wait` in env `p`, which runs. -/
def advance (s : Waits) (p : EnvPtr) (w : Waiting) (tf : Trapframe) : Option Waits :=
  let e := s.k.envs (envx w.envid)
  match w.pc with
  | .loopId => some (s.goto p w (if e.envId = w.envid then .loopRunnable else .zombieId))
  | .loopRunnable => some (s.goto p w (if e.envStatus = .runnable then .yield else .loopNotRunnable))
  | .loopNotRunnable => some (s.goto p w (if e.envStatus = .notRunnable then .yield else .zombieId))
  | .yield => (s.goto p w .loopId).kernel (.syscall tf .yield)
  | .zombieId => some (if e.envId = w.envid then s.goto p w .zombieStatus else s.ret p w (-1))
  | .zombieStatus => some (if e.envStatus = .zombie then s.goto p w .readStatus else s.ret p w (-1))
  | .readStatus => some (s.goto p w (.destroy e.envExitStatus))
  | .destroy exitStatus => (s.ret p w exitStatus).kernel (.syscall tf (.envDestroy w.envid 0))

/-- The env that runs is in `wait`. -/
def Busy (s : Waits) : Bool :=
  match s.k.curenv with
  | some p => (s.waiting p).isSome
  | none => false

/-- Any step of the machine, where an env in `wait` makes no system calls of its own, or a call or a step of `wait`. -/
def step (s : Waits) : WaitOp → Option Waits
  | .kernel (.syscall tf call) => if s.Busy then none else s.kernel (.syscall tf call)
  | .kernel op => s.kernel op
  | .call envid =>
    match s.k.curenv with
    | some p => if s.Busy then none else
        some (s.goto p { envid := envid, direct := decide (DirectChild s.k.table p envid), pc := .loopId } .loopId)
    | none => none
  | .next tf =>
    match s.k.curenv with
    | some p => (s.waiting p).bind fun w => s.advance p w tf
    | none => none

end Waits

/-- No zombie is made runnable again, a child has an id that `sys_env_destroy` takes for the child, and when `wait`
    loads `env_status` the second time it does not find its child runnable. -/
def WaitGuard (s : Waits) : WaitOp → Prop
  | .kernel op => (∀ caller e status, event s.k op = .setStatus caller e status → (s.k.envs e).envStatus ≠ .zombie) ∧
      ∀ e, event s.k op = .deliver e → (s.k.envs e).envStatus ≠ .zombie
  | .call envid => envid ≠ 0
  | .next _ => ∀ p w, s.k.curenv = some p → s.waiting p = some w → w.direct = true → w.pc = .loopNotRunnable →
      (s.k.envs (envx w.envid)).envStatus ≠ .runnable

def WaitPc.Past : WaitPc → Prop
  | .zombieId | .zombieStatus | .readStatus | .destroy _ => True
  | _ => False

/-- Env `p` is in `wait` for its direct child: both stay in place, and `wait` leaves its loop only for a zombie. -/
structure Attends (t : Table) (p : EnvPtr) (w : Waiting) : Prop where
  child : DirectChild t p w.envid
  nonzero : w.envid ≠ 0
  alive : t.Alive p
  dead : w.pc.Past → (t.slots (envx w.envid)).status = .zombie
  read : ∀ v, w.pc = .destroy v → (t.slots (envx w.envid)).exitStatus = v

/-- The last exit of each env in use is what its slot says. -/
structure Recorded (t : Table) (exited : EnvPtr → Option Word) : Prop where
  silent : ∀ e v, exited e = some v → (t.slots e).status ≠ .free → (t.slots e).status = .zombie ∧ (t.slots e).exitStatus = v
  known : ∀ e, (t.slots e).status = .zombie → exited e = some (t.slots e).exitStatus

def Table.Calm (t : Table) (ev : Event) : Prop :=
  (∀ caller e status, ev = .setStatus caller e status → (t.slots e).status ≠ .zombie) ∧
    ∀ e, ev = .deliver e → (t.slots e).status ≠ .zombie

variable {t t' : Table} {ev : Event} {p e : EnvPtr} {w : Waiting} {slot : Slot} {exited : EnvPtr → Option Word}

theorem Attends.frame (att : Attends t p w) (child : t'.slots (envx w.envid) = t.slots (envx w.envid))
    (caller : t'.slots p = t.slots p) : Attends t' p w := by
  obtain ⟨⟨other, used, id, parent⟩, nonzero, alive, dead, read⟩ := att
  unfold Table.Alive at alive
  rw [← child] at used id parent dead read
  rw [← caller] at parent alive
  exact ⟨⟨other, used, id, parent⟩, nonzero, alive, dead, read⟩

theorem Attends.set (att : Attends t p w) (slots : t'.slots = (t.set e slot).slots) (id : slot.id = (t.slots e).id)
    (parent : slot.parent = (t.slots e).parent) (used : slot.status ≠ .free)
    (alive : e = p → slot.status = .runnable ∨ slot.status = .notRunnable)
    (dead : e = envx w.envid → (t.slots e).status = .zombie → slot.status = .zombie ∧
      slot.exitStatus = (t.slots e).exitStatus) : Attends t' p w := by
  by_cases child : e = envx w.envid
  · subst child
    have here : t'.slots (envx w.envid) = slot := by rw [slots, Table.set_self]
    have there : t'.slots p = t.slots p := by rw [slots, Table.set_other t _ att.child.other.symm]
    refine ⟨⟨att.child.other, ?_, ?_, ?_⟩, att.nonzero, ?_, fun past => ?_, fun v last => ?_⟩
    · rwa [here]
    · rw [here, id, att.child.id]
    · rw [here, there, parent, att.child.parent]
    · rw [Table.Alive, there]
      exact att.alive
    · rw [here]
      exact (dead rfl (att.dead past)).1
    · have past : w.pc.Past := by rw [last]; trivial
      rw [here, (dead rfl (att.dead past)).2]
      exact att.read v last
  · have there : t'.slots (envx w.envid) = t.slots (envx w.envid) := by
      rw [slots, Table.set_other t _ (Ne.symm child)]
    by_cases caller : e = p
    · subst caller
      have here : t'.slots e = slot := by rw [slots, Table.set_self]
      refine ⟨⟨att.child.other, ?_, ?_, ?_⟩, att.nonzero, ?_, fun past => ?_, fun v last => ?_⟩
      · rw [there]
        exact att.child.used
      · rw [there]
        exact att.child.id
      · rw [there, here, id]
        exact att.child.parent
      · rw [Table.Alive, here]
        exact alive rfl
      · rw [there]
        exact att.dead past
      · rw [there]
        exact att.read v last
    · exact att.frame there (by rw [slots, Table.set_other t _ (Ne.symm caller)])

theorem Attends.step (att : Attends t p w) (wf : t.WellFormed) (running : ∀ e, t.current = some e → t.Runnable e)
    (next : Table.Step t ev t') (calm : t.Calm ev) (stays : ∀ status, ev ≠ .exit p status)
    (keeps : ev ≠ .reap p (envx w.envid)) : Attends t' p w := by
  have awake : ∀ e, t.current = some e → (t.slots e).status ≠ .zombie := by
    intro e current zombie
    cases zombie.symm.trans (running e current)
  cases next with
  | quiet resumes => exact att.frame rfl rfl
  | @create e parent rest id asid status list index unused used alive caller =>
    have fresh : (t.slots e).status = .free := (wf.listed e).mp (by simp [list])
    refine att.frame (Table.set_other t _ ?_) (Table.set_other t _ ?_)
    · rintro rfl
      exact att.child.used fresh
    · rintro rfl
      exact att.alive.used fresh
  | @exit e _ status current runs =>
    refine att.set rfl rfl rfl (fun free => by cases free) (fun here => ?_) fun _ zombie => absurd zombie (awake e current)
    exact absurd (here ▸ rfl) (stays status)
  | @reap q e current other child zombie =>
    refine att.frame (Table.set_other t _ ?_) (Table.set_other t _ ?_)
    · rintro rfl
      -- only the caller has the id that the child has as its parent
      have same : q = p := by
        have usedQ : (t.slots q).status ≠ .free := by
          rw [running q current]
          exact fun free => by cases free
        have index := wf.index q usedQ
        rw [← child, att.child.parent, wf.index p att.alive.used] at index
        exact index.symm
      exact keeps (by rw [same])
    · rintro rfl
      rcases att.alive with on | off
      · cases zombie.symm.trans on
      · cases zombie.symm.trans off
  | @setStatus caller e status _ current controls used target resumes =>
    refine att.set rfl rfl rfl ?_ (fun _ => target) fun _ zombie => absurd zombie (calm.1 caller e status rfl)
    rcases target with rfl | rfl <;> exact fun free => by cases free
  | @deliver e used recving =>
    exact att.set rfl rfl rfl (fun free => by cases free) (fun _ => Or.inl rfl) fun _ zombie => absurd zombie (calm.2 e rfl)
  | @receive e _ current runs =>
    exact att.set rfl rfl rfl (fun free => by cases free) (fun _ => Or.inr rfl) fun _ zombie => absurd zombie (awake e current)

theorem Recorded.set (rec : Recorded t exited) (slots : t'.slots = (t.set e slot).slots) (fresh : exited e = none)
    (alive : slot.status ≠ .zombie) : Recorded t' exited := by
  refine ⟨fun b v last used => ?_, fun b zombie => ?_⟩
  · have other : b ≠ e := by
      rintro rfl
      cases fresh.symm.trans last
    rw [slots, Table.set_other t _ other] at used ⊢
    exact rec.silent b v last used
  · have other : b ≠ e := by
      rintro rfl
      rw [slots, Table.set_self] at zombie
      exact alive zombie
    rw [slots, Table.set_other t _ other] at zombie ⊢
    exact rec.known b zombie

theorem Recorded.fresh (rec : Recorded t exited) (used : (t.slots e).status ≠ .free)
    (alive : (t.slots e).status ≠ .zombie) : exited e = none := by
  cases last : exited e with
  | none => rfl
  | some v => exact absurd (rec.silent e v last used).1 alive

theorem Recorded.step (rec : Recorded t exited) (running : ∀ e, t.current = some e → t.Runnable e)
    (next : Table.Step t ev t') (calm : t.Calm ev) : Recorded t' (recordExit exited ev) := by
  have busy : ∀ e, t.current = some e → exited e = none := by
    intro e current
    refine rec.fresh ?_ ?_ <;> rw [running e current] <;> exact fun no => by cases no
  cases next with
  | quiet resumes => exact ⟨rec.silent, rec.known⟩
  | @create e parent rest id asid status list index unused used alive caller =>
    refine ⟨fun b v last usedB => ?_, fun b zombie => ?_⟩
    · have other : b ≠ e := by
        rintro rfl
        simp [recordExit] at last
      simp only [recordExit, Function.update_of_ne other, Table.set_other t _ other] at last usedB ⊢
      exact rec.silent b v last usedB
    · have other : b ≠ e := by
        rintro rfl
        simp only [Table.set_self] at zombie
        exact alive zombie
      simp only [recordExit, Function.update_of_ne other, Table.set_other t _ other] at zombie ⊢
      exact rec.known b zombie
  | @exit e _ status current runs =>
    refine ⟨fun b v last usedB => ?_, fun b zombie => ?_⟩
    · by_cases same : b = e
      · subst same
        simp only [recordExit, Function.update_self, Option.some.injEq] at last
        subst last
        simp
      · simp only [recordExit, Function.update_of_ne same, Table.set_other t _ same] at last usedB ⊢
        exact rec.silent b v last usedB
    · by_cases same : b = e
      · subst same
        simp [recordExit]
      · simp only [recordExit, Function.update_of_ne same, Table.set_other t _ same] at zombie ⊢
        exact rec.known b zombie
  | @reap q e current other child zombie =>
    refine ⟨fun b v last usedB => ?_, fun b zombieB => ?_⟩
    · have other : b ≠ e := by
        rintro rfl
        simp at usedB
      simp only [Table.set_other t _ other] at usedB ⊢
      exact rec.silent b v last usedB
    · have other : b ≠ e := by
        rintro rfl
        simp at zombieB
      simp only [Table.set_other t _ other] at zombieB ⊢
      exact rec.known b zombieB
  | @setStatus caller e status _ current controls used target resumes =>
    refine rec.set rfl (rec.fresh used (calm.1 caller e status rfl)) ?_
    rcases target with rfl | rfl <;> exact fun zombie => by cases zombie
  | @deliver e used recving =>
    exact rec.set rfl (rec.fresh used (calm.2 e rfl)) fun zombie => by cases zombie
  | @receive e _ current runs => exact rec.set rfl (busy e current) fun zombie => by cases zombie

theorem Table.Step.actor (next : Table.Step t ev t') : (∀ e status, ev = .exit e status → t.current = some e) ∧
    ∀ p e, ev = .reap p e → t.current = some p := by
  constructor
  · rintro e status rfl
    cases next with
    | exit current runs => exact current
  · rintro p e rfl
    cases next with
    | reap current other child zombie => exact current

structure Waits.Inv (s : Waits) : Prop where
  env : EnvInv s.k
  wf : s.k.table.WellFormed
  recorded : Recorded s.k.table s.exited
  attends : ∀ p w, s.waiting p = some w → w.direct = true → Attends s.k.table p w
  returns : ∀ r ∈ s.returned, r.direct = true → r.exited = some r.value

namespace Waits

variable {s s' : Waits} {op : Op} {tf : Trapframe} {pc : WaitPc} {value : Word}

theorem Inv.goto (inv : s.Inv) (att : w.direct = true → Attends s.k.table p { w with pc := pc }) :
    (s.goto p w pc).Inv := by
  refine ⟨inv.env, inv.wf, inv.recorded, fun q w' waits direct => ?_, inv.returns⟩
  by_cases same : q = p
  · subst same
    simp only [Waits.goto, Function.update_self, Option.some.injEq] at waits
    subst waits
    exact att direct
  · simp only [Waits.goto, Function.update_of_ne same] at waits
    exact inv.attends q w' waits direct

theorem Inv.ret (inv : s.Inv) (right : w.direct = true → s.exited (envx w.envid) = some value) :
    (s.ret p w value).Inv := by
  refine ⟨inv.env, inv.wf, inv.recorded, fun q w' waits direct => ?_, fun r mem direct => ?_⟩
  · by_cases same : q = p
    · subst same
      simp [Waits.ret] at waits
    · simp only [Waits.ret, Function.update_of_ne same] at waits
      exact inv.attends q w' waits direct
  · simp only [Waits.ret, List.mem_cons] at mem
    rcases mem with rfl | mem
    · exact right direct
    · exact inv.returns r mem direct

theorem Inv.kernel (inv : s.Inv) (calm : s.k.table.Calm (event s.k op))
    (idle : ∀ q w, s.waiting q = some w → w.direct = true → (∀ status, event s.k op ≠ .exit q status) ∧
      event s.k op ≠ .reap q (envx w.envid)) (h : s.kernel op = some s') : s'.Inv := by
  obtain ⟨k, next, rfl⟩ := Option.map_eq_some_iff.mp h
  have moved := step_table inv.env next
  refine ⟨step_envInv inv.env next, inv.wf.step inv.env.current moved, inv.recorded.step inv.env.current moved calm,
    fun q w waits direct => ?_, inv.returns⟩
  obtain ⟨stays, keeps⟩ := idle q w waits direct
  exact (inv.attends q w waits direct).step inv.wf inv.env.current moved calm stays keeps

theorem Inv.kernel_idle (inv : s.Inv) (calm : s.k.table.Calm (event s.k op))
    (idle : ∀ q, s.k.curenv = some q → s.waiting q = none) (h : s.kernel op = some s') : s'.Inv := by
  obtain ⟨k, next, _⟩ := Option.map_eq_some_iff.mp h
  obtain ⟨exits, reaps⟩ := (step_table inv.env next).actor
  refine inv.kernel calm (fun q w waits _ => ⟨fun status exit => ?_, fun reap => ?_⟩) h
  · cases waits.symm.trans (idle q (exits q status exit))
  · cases waits.symm.trans (idle q (reaps q _ reap))

theorem calm_of_guard (meets : WaitGuard s (.kernel op)) : s.k.table.Calm (event s.k op) := meets

theorem step_kernel (h : s.step (.kernel op) = some s') :
    s.kernel op = some s' ∧ ((∃ tf call, op = .syscall tf call ∧ s.Busy = false) ∨ ∀ tf call, op ≠ .syscall tf call) := by
  cases op with
  | syscall tf call =>
    simp only [step] at h
    split at h
    · cases h
    · rename_i idle
      exact ⟨h, Or.inl ⟨tf, call, rfl, by simpa using idle⟩⟩
  | timer tf => exact ⟨h, Or.inr nofun⟩
  | tlbRefill va victim => exact ⟨h, Or.inr nofun⟩
  | envCreate binary priority => exact ⟨h, Or.inr nofun⟩

theorem idle_of_not_busy (idle : s.Busy = false) : ∀ q, s.k.curenv = some q → s.waiting q = none := by
  intro q current
  simpa [Busy, current] using idle

theorem event_quiet (other : ∀ tf call, op ≠ .syscall tf call) (k : Kernel) :
    (∀ q status, event k op ≠ .exit q status) ∧ ∀ q e, event k op ≠ .reap q e := by
  cases op with
  | syscall tf call => exact absurd rfl (other tf call)
  | envCreate binary priority =>
    refine ⟨fun q status exit => ?_, fun q e reap => ?_⟩
    · simp only [event] at exit
      split at exit <;> cases exit
    · simp only [event] at reap
      split at reap <;> cases reap
  | timer tf => exact ⟨fun _ _ eq => (by cases eq), fun _ _ eq => by cases eq⟩
  | tlbRefill va victim => exact ⟨fun _ _ eq => (by cases eq), fun _ _ eq => by cases eq⟩

theorem Inv.step_kernel (inv : s.Inv) (meets : WaitGuard s (.kernel op)) (h : s.step (.kernel op) = some s') :
    s'.Inv := by
  obtain ⟨run, ⟨tf, call, rfl, idle⟩ | other⟩ := Waits.step_kernel h
  · exact inv.kernel_idle (calm_of_guard meets) (idle_of_not_busy idle) run
  · obtain ⟨exits, reaps⟩ := event_quiet other s.k
    exact inv.kernel (calm_of_guard meets) (fun q w _ _ => ⟨exits q, reaps q _⟩) run

theorem event_destroy (current : s.k.curenv = some p) (att : Attends s.k.table p w) (last : w.pc = .destroy value) :
    event s.k (.syscall tf (.envDestroy w.envid 0)) = .reap p (envx w.envid) := by
  have zombie : (s.k.envs (envx w.envid)).envStatus = .zombie := att.dead (by rw [last]; trivial)
  have id : (s.k.envs (envx w.envid)).envId = w.envid := att.child.id
  have parent : (s.k.envs (envx w.envid)).envParentId = (s.k.envs p).envId := att.child.parent
  have found : envid2env (s.k.trap tf) p w.envid true = .ok (envx w.envid) := by
    have nonzero : w.envid ≠ 0#32 := att.nonzero
    simp [envid2env, nonzero, Kernel.trap, zombie, id, parent]
  simp only [event, current]
  unfold callEvent
  dsimp only
  rw [found]
  dsimp only
  rw [if_neg att.child.other]
  exact if_pos ⟨parent, zombie⟩

theorem event_yield : event s.k (.syscall tf .yield) = .quiet := by
  simp only [event]
  split <;> rfl

theorem quiet_calm (t : Table) : t.Calm .quiet := ⟨nofun, nofun⟩

theorem destroy_calm (k : Kernel) (envid status : Word) : k.table.Calm (event k (.syscall tf (.envDestroy envid status))) := by
  simp only [event]
  split
  · unfold callEvent
    dsimp only
    split
    · rename_i cur _ _ b _
      by_cases self : b = cur
      · rw [if_pos self]
        exact ⟨fun _ _ _ eq => (by cases eq), fun _ eq => by cases eq⟩
      · rw [if_neg self]
        split
        · exact ⟨fun _ _ _ eq => (by cases eq), fun _ eq => by cases eq⟩
        · exact quiet_calm _
    · exact quiet_calm _
  · exact quiet_calm _

theorem Inv.advance (inv : s.Inv) (current : s.k.curenv = some p) (waits : s.waiting p = some w)
    (meets : WaitGuard s (.next tf)) (h : s.advance p w tf = some s') : s'.Inv := by
  have att := inv.attends p w waits
  have onward : ∀ pc : WaitPc, (pc.Past → w.direct = true → (s.k.envs (envx w.envid)).envStatus = .zombie) →
      (∀ v, pc = .destroy v → (s.k.envs (envx w.envid)).envExitStatus = v) → (s.goto p w pc).Inv :=
    fun pc dead read => inv.goto fun direct => ⟨(att direct).child, (att direct).nonzero, (att direct).alive,
      fun past => dead past direct, read⟩
  have loop : ∀ pc : WaitPc, ¬ pc.Past → (s.goto p w pc).Inv := fun pc inside =>
    onward pc (fun past => absurd past inside) fun v last => absurd (by rw [last]; trivial) inside
  unfold Waits.advance at h
  cases place : w.pc <;> simp only [place] at h
  case loopId =>
    cases h
    split
    · exact loop _ fun past => past
    · rename_i other
      exact onward _ (fun _ direct => absurd (att direct).child.id other) fun v last => by cases last
  case loopRunnable =>
    cases h
    split <;> exact loop _ fun past => past
  case loopNotRunnable =>
    cases h
    split
    · exact loop _ fun past => past
    · rename_i other
      refine onward _ (fun _ direct => ?_) fun v last => by cases last
      have used : (s.k.envs (envx w.envid)).envStatus ≠ .free := (att direct).child.used
      have idle := meets p w current waits direct place
      cases status : (s.k.envs (envx w.envid)).envStatus with
      | free => exact absurd status used
      | runnable => exact absurd status idle
      | notRunnable => exact absurd status other
      | zombie => rfl
  case yield =>
    have looped := loop .loopId fun past => past
    refine looped.kernel ?_ (fun q w' _ _ => ⟨fun status exit => ?_, fun reap => ?_⟩) h
    · rw [event_yield]
      exact quiet_calm _
    · cases event_yield.symm.trans exit
    · cases event_yield.symm.trans reap
  case zombieId =>
    cases h
    split
    · exact onward _ (fun _ direct => (att direct).dead (by rw [place]; trivial)) fun v last => by cases last
    · rename_i other
      exact inv.ret fun direct => absurd (att direct).child.id other
  case zombieStatus =>
    cases h
    split
    · exact onward _ (fun _ direct => (att direct).dead (by rw [place]; trivial)) fun v last => by cases last
    · rename_i alive
      exact inv.ret fun direct => absurd ((att direct).dead (by rw [place]; trivial)) alive
  case readStatus =>
    cases h
    refine onward _ (fun _ direct => (att direct).dead (by rw [place]; trivial)) fun v last => ?_
    cases last
    rfl
  case destroy v =>
    have done : (s.ret p w v).Inv := by
      refine inv.ret fun direct => ?_
      rw [inv.recorded.known _ ((att direct).dead (by rw [place]; trivial)), (att direct).read v place]
    refine done.kernel_idle (destroy_calm s.k w.envid 0) (fun q running => ?_) h
    cases current.symm.trans running
    simp [Waits.ret]

theorem Inv.step {op : WaitOp} (inv : s.Inv) (meets : WaitGuard s op) (h : s.step op = some s') : s'.Inv := by
  cases op with
  | kernel op => exact inv.step_kernel meets h
  | call envid =>
    simp only [Waits.step] at h
    split at h
    · rename_i p current
      split at h
      · cases h
      · cases h
        refine inv.goto fun direct => ⟨of_decide_eq_true direct, meets, Or.inl (inv.env.current p current), ?_, ?_⟩
        · exact fun past => past.elim
        · exact fun v last => by cases last
    · cases h
  | next tf =>
    simp only [Waits.step] at h
    split at h
    · rename_i p current
      obtain ⟨w, waits, run⟩ := Option.bind_eq_some_iff.mp h
      exact inv.advance current waits meets run
    · cases h

theorem kernel_some (h : s.kernel op = some s') : s'.waiting = s.waiting ∧ s'.returned = s.returned ∧
    Mos.step s.k op = some s'.k := by
  obtain ⟨k, next, rfl⟩ := Option.map_eq_some_iff.mp h
  exact ⟨rfl, rfl, next⟩

theorem advance_others (h : s.advance p w tf = some s') {q : EnvPtr} (other : q ≠ p) : s'.waiting q = s.waiting q := by
  have moved : ∀ pc, (s.goto p w pc).waiting q = s.waiting q := fun pc => Function.update_of_ne other _ _
  have left : ∀ value, (s.ret p w value).waiting q = s.waiting q := fun value => Function.update_of_ne other _ _
  unfold Waits.advance at h
  split at h
  · cases h; exact moved _
  · cases h; exact moved _
  · cases h; exact moved _
  · rw [(kernel_some h).1]; exact moved _
  · cases h
    split
    · exact moved _
    · exact left _
  · cases h
    split
    · exact moved _
    · exact left _
  · cases h; exact moved _
  · rw [(kernel_some h).1]; exact left _

end Waits

/-- How many steps `wait` still takes once its child has exited. -/
def WaitPc.left : WaitPc → Nat
  | .yield => 8
  | .loopId => 7
  | .loopRunnable => 6
  | .loopNotRunnable => 5
  | .zombieId => 4
  | .zombieStatus => 3
  | .readStatus => 2
  | .destroy _ => 1

/-- What a step does to the call of `wait` in `p` for its direct child: the child's slot is freed when `wait` returns
    and at no other time, by the `sys_env_destroy` of `p` with the exit status read before; and once the child has
    exited, each step of `p` in `wait` brings it closer to that. -/
structure WaitEnds (s : Waits) (op : WaitOp) (s' : Waits) (p : EnvPtr) (w : Waiting) : Prop where
  freed : (s'.k.envs (envx w.envid)).envStatus = .free ↔ s'.waiting p = none
  reaps : s'.waiting p = none → ∃ tf v, op = .next tf ∧ s.k.curenv = some p ∧ w.pc = .destroy v ∧
    s.exited (envx w.envid) = some v ∧ s'.returned =
      { caller := p, envid := w.envid, direct := true, value := v, exited := some v } :: s.returned
  closer : ∀ tf, op = .next tf → s.k.curenv = some p → s.exited (envx w.envid) ≠ none →
    ∀ w', s'.waiting p = some w' → w'.pc.left < w.pc.left
  others : (∀ tf, op = .next tf → s.k.curenv ≠ some p) → s'.waiting p = some w

/-- What holds in every state: `wait` on a direct child returned the status of its exit, the children that are waited
    for are in place, and an env that has exited is a zombie with its status and does not run. -/
structure WaitCorrect (s : Waits) : Prop where
  returns : ∀ r ∈ s.returned, r.direct = true → r.exited = some r.value
  held : ∀ p w, s.waiting p = some w → w.direct = true → DirectChild s.k.table p w.envid
  silent : ∀ e v, s.exited e = some v → (s.k.envs e).envStatus ≠ .free →
    (s.k.envs e).envStatus = .zombie ∧ (s.k.envs e).envExitStatus = v ∧ s.k.curenv ≠ some e
  ends : ∀ op s' p w, WaitGuard s op → s.step op = some s' → s.waiting p = some w → w.direct = true → WaitEnds s op s' p w

namespace Waits

variable {s s' : Waits} {tf : Trapframe}

theorem Inv.ends_other {op : WaitOp} (after : s'.Inv) (direct : w.direct = true) (same : s'.waiting p = some w)
    (idle : ∀ tf, op = .next tf → s.k.curenv ≠ some p) : WaitEnds s op s' p w := by
  have used : (s'.k.envs (envx w.envid)).envStatus ≠ .free := (after.attends p w same direct).child.used
  refine ⟨iff_of_false used ?_, fun none => ?_, fun tf own current => absurd current (idle tf own), fun _ => same⟩
  · rw [same]
    exact nofun
  · cases same.symm.trans none

theorem Inv.ends_goto {pc : WaitPc} (after : (s.goto p w pc).Inv) (current : s.k.curenv = some p)
    (direct : w.direct = true) (closer : s.exited (envx w.envid) ≠ none → pc.left < w.pc.left) :
    WaitEnds s (.next tf) (s.goto p w pc) p w := by
  have now : (s.goto p w pc).waiting p = some { w with pc := pc } := Function.update_self _ _ _
  have used : (s.k.envs (envx w.envid)).envStatus ≠ .free := (after.attends p _ now direct).child.used
  refine ⟨iff_of_false used ?_, fun none => ?_, fun _ _ _ exits w' same => ?_, fun idle => absurd current (idle tf rfl)⟩
  · rw [now]
    exact nofun
  · cases now.symm.trans none
  · cases now.symm.trans same
    exact closer exits

theorem Inv.ends_advance (inv : s.Inv) (current : s.k.curenv = some p) (waits : s.waiting p = some w)
    (direct : w.direct = true) (meets : WaitGuard s (.next tf)) (h : s.advance p w tf = some s') :
    WaitEnds s (.next tf) s' p w := by
  have att := inv.attends p w waits direct
  have after := inv.advance current waits meets h
  have id : (s.k.envs (envx w.envid)).envId = w.envid := att.child.id
  have exits : s.exited (envx w.envid) ≠ none → (s.k.envs (envx w.envid)).envStatus = .zombie := by
    intro exited
    obtain ⟨v, last⟩ := Option.ne_none_iff_exists'.mp exited
    exact (inv.recorded.silent _ v last att.child.used).1
  unfold Waits.advance at h
  cases place : w.pc <;> simp only [place] at h
  case loopId =>
    rw [if_pos id] at h
    cases h
    exact after.ends_goto current direct fun _ => by rw [place]; decide
  case loopRunnable =>
    cases h
    refine after.ends_goto current direct fun exited => ?_
    rw [if_neg (by rw [exits exited]; exact nofun), place]
    decide
  case loopNotRunnable =>
    cases h
    refine after.ends_goto current direct fun exited => ?_
    rw [if_neg (by rw [exits exited]; exact nofun), place]
    decide
  case yield =>
    obtain ⟨waiting, _, _⟩ := kernel_some h
    have now : s'.waiting p = some { w with pc := .loopId } := by
      rw [waiting]
      exact Function.update_self _ _ _
    have used : (s'.k.envs (envx w.envid)).envStatus ≠ .free := (after.attends p _ now direct).child.used
    refine ⟨iff_of_false used ?_, fun none => ?_, fun _ _ _ _ w' same => ?_, fun idle => absurd current (idle tf rfl)⟩
    · rw [now]
      exact nofun
    · cases now.symm.trans none
    · cases now.symm.trans same
      rw [place]
      exact Nat.lt_succ_self 7
  case zombieId =>
    rw [if_pos id] at h
    cases h
    exact after.ends_goto current direct fun _ => by rw [place]; decide
  case zombieStatus =>
    have zombie : (s.k.envs (envx w.envid)).envStatus = .zombie := att.dead (by rw [place]; trivial)
    rw [if_pos zombie] at h
    cases h
    exact after.ends_goto current direct fun _ => by rw [place]; decide
  case readStatus =>
    cases h
    refine after.ends_goto current direct fun _ => ?_
    rw [place]
    exact Nat.lt_succ_self 1
  case destroy v =>
    obtain ⟨waiting, returned, next⟩ := kernel_some h
    have moved := step_table inv.env next
    rw [event_destroy current att place] at moved
    have gone : s'.waiting p = none := by
      rw [waiting]
      exact Function.update_self _ _ _
    have read : s.exited (envx w.envid) = some v := by
      rw [inv.recorded.known _ (att.dead (by rw [place]; trivial)), att.read v place]
    have free : (s'.k.table.slots (envx w.envid)).status = .free := by
      generalize s'.k.table = t' at moved
      cases moved with
      | reap => simp
    refine ⟨iff_of_true free gone, fun _ => ⟨tf, v, rfl, current, place, read, ?_⟩, fun _ _ _ _ w' same => ?_,
      fun idle => absurd current (idle tf rfl)⟩
    · rw [returned, ← read, ← direct]
      rfl
    · cases gone.symm.trans same

theorem Inv.correct (inv : s.Inv) : WaitCorrect s := by
  refine ⟨inv.returns, fun p w waits direct => (inv.attends p w waits direct).child, fun e v last used => ?_,
    fun op s' p w meets h waits direct => ?_⟩
  · obtain ⟨zombie, status⟩ := inv.recorded.silent e v last used
    refine ⟨zombie, status, fun current => ?_⟩
    cases zombie.symm.trans (inv.env.current e current)
  · have after := inv.step meets h
    cases op with
    | kernel op =>
      obtain ⟨run, _⟩ := Waits.step_kernel h
      exact after.ends_other direct ((congrFun (kernel_some run).1 p).trans waits) nofun
    | call envid =>
      refine after.ends_other direct ?_ nofun
      simp only [Waits.step] at h
      split at h
      · rename_i q current
        split at h
        · cases h
        · rename_i idle
          cases h
          have other : p ≠ q := by
            rintro rfl
            simp [Busy, current, waits] at idle
          exact (Function.update_of_ne other _ _).trans waits
      · cases h
    | next tf =>
      simp only [Waits.step] at h
      split at h
      · rename_i q current
        obtain ⟨v, running, run⟩ := Option.bind_eq_some_iff.mp h
        by_cases same : p = q
        · subst same
          cases waits.symm.trans running
          exact inv.ends_advance current waits direct meets run
        · refine after.ends_other direct ((advance_others run same).trans waits) fun _ _ own => ?_
          exact same (Option.some.inj (own.symm.trans current))
      · cases h

end Waits

theorem boot_waits {npage : Nat} {mem : Nat → Nat → Word} {k : Kernel} (booted : boot npage mem = some k) :
    (Waits.start k).Inv := by
  have free : ∀ e, (k.envs e).envStatus = .free := by
    obtain ⟨p, vm, _, _, rfl⟩ := boot_init booted
    exact fun e => rfl
  refine ⟨boot_envInv booted, boot_wellFormed booted, ⟨nofun, fun e zombie => ?_⟩, nofun, nofun⟩
  cases zombie.symm.trans (free e)

/-- In every run whose steps meet `WaitGuard`, `wait` on a direct child returns the status of its exit and reaps it once. -/
theorem wait_correct {npage : Nat} {mem : Nat → Nat → Word} {k0 : Kernel} {s : Waits} {ops : List WaitOp}
    (booted : boot npage mem = some k0) (run : Run Waits.step WaitGuard (.start k0) ops s) : WaitCorrect s :=
  (run.invariant Waits.Inv (boot_waits booted) fun _ _ _ inv meets next => inv.step meets next).correct

def Event.target : Event → Option EnvPtr
  | .setStatus _ e _ => some e
  | .deliver e => some e
  | _ => none

/-- The executable form of `WaitGuard`. -/
def waitCheck (s : Waits) : WaitOp → Bool
  | .kernel op => (event s.k op).target.all fun e => (s.k.envs e).envStatus ≠ .zombie
  | .call envid => envid ≠ 0
  | .next _ => s.k.curenv.all fun p => (s.waiting p).all fun w =>
      w.pc ≠ .loopNotRunnable || (s.k.envs (envx w.envid)).envStatus ≠ .runnable

theorem waitCheck_guard {s : Waits} {op : WaitOp} (check : waitCheck s op = true) : WaitGuard s op := by
  cases op with
  | kernel op =>
    simp only [waitCheck, Option.all_eq_true, decide_eq_true_eq] at check
    exact ⟨fun caller e status same => check e (by rw [same]; rfl), fun e same => check e (by rw [same]; rfl)⟩
  | call envid => simpa [waitCheck, WaitGuard] using check
  | next tf =>
    simp only [waitCheck, Option.all_eq_true, Bool.or_eq_true, decide_eq_true_eq] at check
    exact fun p w current waits _ place => (check p current w waits).resolve_left fun other => other place

/-- The child 4097 exits with status 7 while its parent waits for it. -/
def childRun : List WaitOp :=
  [.kernel (.envCreate emptyBinary 1), .kernel (.timer zeroFrame), .kernel (.call .exofork),
    .kernel (.call (.setEnvStatus 4097 1)), .call 4097, .next zeroFrame, .next zeroFrame, .next zeroFrame,
    .kernel (.call (.envDestroy 0 7))] ++ List.replicate 7 (.next zeroFrame)

set_option maxRecDepth 100000 in
theorem wait_correct_childRun : ∃ k0 s, clearBoot = some k0 ∧ Run Waits.step WaitGuard (.start k0) childRun s ∧
    WaitCorrect s := by
  have check : (clearBoot.bind fun k0 => Run.exec (Run.checked Waits.step fun s op => waitCheck s op = true) (.start k0)
      childRun).isSome = true := by
    rw [clearBoot_eq]
    decide +kernel
  obtain ⟨s, check⟩ := Option.isSome_iff_exists.mp check
  obtain ⟨k0, booted, exec⟩ := Option.bind_eq_some_iff.mp check
  have run := (Run.of_checked exec).weaken fun _ _ => waitCheck_guard
  exact ⟨k0, s, booted, run, wait_correct booted run⟩

/-- The child 4097 blocks in `sys_ipc_recv` when its parent loads its status the first time, and env 6146 wakes it before
    the second load. Later it exits with status 7. -/
def wokenRun : List WaitOp :=
  [.kernel (.envCreate emptyBinary 1), .kernel (.timer zeroFrame), .kernel (.call .exofork),
    .kernel (.call (.setEnvStatus 4097 1)), .kernel (.call .exofork), .kernel (.call (.setEnvStatus 6146 1)),
    .kernel (.call .yield), .kernel (.call (.ipcRecv 0)), .kernel (.call .yield), .call 4097, .next zeroFrame, .next zeroFrame,
    .kernel (.timer zeroFrame), .kernel (.call (.ipcTrySend 4097 5 0 0)), .kernel (.call .yield),
    .next zeroFrame, .next zeroFrame, .next zeroFrame, .kernel (.timer zeroFrame), .kernel (.call (.envDestroy 0 7))]

set_option maxRecDepth 100000 in
theorem wait_misses_exit : ∃ k0 s, clearBoot = some k0 ∧ Run Waits.step (fun _ _ => True) (.start k0) wokenRun s ∧
    s.exited 1 = some 7 ∧ ¬ WaitCorrect s := by
  have check : (clearBoot.bind fun k0 => (Run.exec Waits.step (.start k0) wokenRun).map fun s => (s.exited 1, s.returned)) =
      some (some 7, [⟨0, 4097, true, -1, none⟩]) := by
    rw [clearBoot_eq]
    decide +kernel
  obtain ⟨k0, booted, check⟩ := Option.bind_eq_some_iff.mp check
  obtain ⟨s, exec, check⟩ := Option.map_eq_some_iff.mp check
  obtain ⟨exited, returned⟩ := Prod.mk.inj check
  refine ⟨k0, s, booted, Run.of_exec (fun _ _ _ => trivial) exec, exited, fun correct => ?_⟩
  cases correct.returns ⟨0, 4097, true, -1, none⟩ (by simp [returned]) rfl

end Mos
