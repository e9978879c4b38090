import Mos.Kern.Boot
import Mos.Kern.Sched
import Mos.Lib.RoundRobin

namespace Mos

open TailQueue RoundRobin

def Kernel.slices (k : Kernel) (e : EnvPtr) : Nat := (k.envs e).envPri.toNat

/-- The kernel is at `s`: the queue, its running head and the slices that are left in `count`. -/
structure Turn (k : Kernel) (s : State EnvPtr) : Prop where
  queue : Repr k.envSchedList s.order
  runnable : ∀ e ∈ s.order, k.Runnable e
  current : k.curenv = s.current
  left : k.count.toNat = s.left

/-- `schedule` has just taken `e` from the head of the queue. -/
structure JustPicked (k : Kernel) (e : EnvPtr) (rest : List EnvPtr) : Prop where
  queue : Repr k.envSchedList (e :: rest)
  runnable : ∀ b, b ∈ e :: rest ↔ k.Runnable b
  current : k.curenv = some e
  count : k.count = (k.envs e).envPri - 1

theorem runnable_runs {e : EnvPtr} {k : Kernel} (runnable : k.Runnable e) : ∃ k', envRun e k = .ok () k' := by
  have goes : ¬ (k.envs e).envStatus ≠ .runnable := not_not.mpr runnable
  unfold envRun
  rw [if_neg goes]
  exact ⟨_, rfl⟩

theorem envRun_count {e : EnvPtr} {k k' : Kernel} (h : envRun e k = .ok () k') : k'.count = k.count := by
  unfold envRun at h
  split at h
  · cases h
  · cases h
    cases cur : k.curenv <;> rfl

theorem Env.Resumed.pri {a b : Env} (resumed : a.Resumed b) : b.envPri = a.envPri := by
  rw [resumed]

theorem pri_pred {w : Word} (pos : 0 < w.toNat) : (w - 1).toNat = w.toNat - 1 := by
  bv_omega

/-- `schedule` when it does not go on with the env that runs: the head of the queue is run, with the env that ran
    moved to its end. -/
theorem schedule_next (yield : Bool) {k : Kernel} {l : List EnvPtr} {e : EnvPtr} (queue : Repr k.envSchedList l)
    (all : ∀ b ∈ l, k.Runnable b) (expired : yield = true ∨ k.count = 0 ∨ k.curRunnable = none)
    (mem : ∀ cur, k.curRunnable = some cur → cur ∈ l)
    (head : (k.curRunnable.elim l fun cur => l.erase cur ++ [cur]).head? = some e) :
    ∃ k', schedule yield k = .ok () k' ∧ Repr k'.envSchedList (k.curRunnable.elim l fun cur => l.erase cur ++ [cur]) ∧
      k'.curenv = some e ∧ k'.count = (k.envs e).envPri - 1 ∧ ∀ b, (k.envs b).Resumed (k'.envs b) := by
  have go (mid : Kernel) {l' : List EnvPtr} (queue : Repr mid.envSchedList l') (envs : mid.envs = k.envs)
      (first : l'.head? = some e) (runnable : mid.Runnable e) :
      mid.envSchedList.first = some e ∧ ∃ k', envRun e { mid with count := (mid.envs e).envPri - 1 } = .ok () k' ∧
        Repr k'.envSchedList l' ∧ k'.curenv = some e ∧ k'.count = (k.envs e).envPri - 1 ∧
        ∀ b, (k.envs b).Resumed (k'.envs b) := by
    refine ⟨queue.first_eq.trans first, ?_⟩
    obtain ⟨k', ran⟩ := runnable_runs (k := { mid with count := (mid.envs e).envPri - 1 }) runnable
    obtain ⟨resumed, same⟩ := envRun_ok ran
    refine ⟨k', ran, same ▸ queue, resumed.curenv, ?_, fun b => ?_⟩
    · rw [envRun_count ran, envs]
    · rw [← envs]
      exact resumed.envs b
  unfold schedule
  cases current : k.curRunnable with
  | none =>
    rw [current] at head
    have runnable := all e (List.mem_of_mem_head? head)
    obtain ⟨first, run⟩ := go k queue rfl head runnable
    cases ending : (yield || k.count == 0) <;> simpa only [Result.ok_bind, first, Option.elim] using run
  | some cur =>
    have ending : (yield || k.count == 0) = true := by
      rcases expired with yes | zero | none'
      · simp [yes]
      · simp [zero]
      · cases current.symm.trans none'
    rw [current] at head
    have inside := mem cur current
    obtain ⟨q, removed, left⟩ := queue.remove inside
    have fresh : cur ∉ l.erase cur := fun again => (queue.nodup.mem_erase_iff.mp again).1 rfl
    have runnable : k.Runnable e := by
      have found := List.mem_of_mem_head? head
      rw [Option.elim, List.mem_append, List.mem_singleton] at found
      rcases found with found | rfl
      · exact all e (List.mem_of_mem_erase found)
      · exact all _ inside
    obtain ⟨first, run⟩ := go { k with envSchedList := q.insertTail cur } (left.insertTail fresh) rfl head runnable
    have first' : (q.insertTail cur).first = some e := first
    simp only [ending, Kernel.tailqRemove, Kernel.tailqInsertTail, removed, Result.ok_bind, first']
    exact run

theorem timer_turn {k : Kernel} {s : State EnvPtr} (turn : Turn k s) (some' : s.order ≠ [])
    (each : ∀ e ∈ s.order, 0 < k.slices e) (tf : Trapframe) :
    ∃ k', step k (.timer tf) = some k' ∧ Turn k' (s.tick k.slices) ∧ k'.slices = k.slices := by
  obtain ⟨left, order⟩ := s
  cases order with
  | nil => exact absurd rfl some'
  | cons e rest =>
    have current : k.curenv = some e := turn.current
    have runnable := turn.runnable e List.mem_cons_self
    have chosen : ({ k with tf := tf } : Kernel).curRunnable = some e := by
      simp [Kernel.curRunnable, current, Option.filter, runnable.symm]
    cases left with
    | succ left =>
      have nonzero : k.count ≠ 0 := by
        intro zero
        have none' := turn.left
        rw [zero] at none'
        cases none'
      obtain ⟨k', ran⟩ := runnable_runs (k := { k with tf := tf, count := k.count - 1 }) runnable
      obtain ⟨resumed, same⟩ := envRun_ok ran
      have scheduled : schedule false { k with tf := tf } = .ok () k' := by
        have goes : (false || k.count == 0) = false := by simpa using nonzero
        unfold schedule
        simp only [goes, chosen]
        exact ran
      refine ⟨k', by rw [step, scheduled]; rfl, ⟨same ▸ turn.queue, fun b inside => ?_, resumed.curenv, ?_⟩, ?_⟩
      · exact (resumed.envs b).status.trans (turn.runnable b inside)
      · have one : k.count.toNat = left + 1 := turn.left
        rw [envRun_count ran, pri_pred (by omega), one]
        rfl
      · funext b
        rw [Kernel.slices, (resumed.envs b).pri]
        rfl
    | zero =>
      have zero : k.count = 0 := BitVec.eq_of_toNat_eq turn.left
      have rotated : (({ k with tf := tf } : Kernel).curRunnable.elim (e :: rest) fun cur => (e :: rest).erase cur ++ [cur]) =
          rest ++ [e] := by
        rw [chosen]
        simp
      obtain ⟨next, first⟩ : ∃ next, (rest ++ [e]).head? = some next := by cases rest <;> exact ⟨_, rfl⟩
      obtain ⟨k', scheduled, queue, running, count, envs⟩ :=
        schedule_next false (k := { k with tf := tf }) turn.queue turn.runnable (.inr (.inl zero))
          (fun cur is => by rw [chosen] at is; cases is; exact List.mem_cons_self) (rotated ▸ first)
      rw [rotated] at queue
      have mem : next ∈ e :: rest := by
        have found := List.mem_of_mem_head? first
        rw [List.mem_append, List.mem_singleton] at found
        rcases found with found | rfl
        · exact List.mem_cons_of_mem e found
        · exact List.mem_cons_self
      refine ⟨k', by rw [step, scheduled]; rfl, ⟨queue, fun b inside => ?_, running.trans first.symm, ?_⟩, ?_⟩
      · refine (envs b).status.trans (turn.runnable b ?_)
        rwa [mem_tick] at inside
      · rw [count, pri_pred (each next mem)]
        simp [State.tick, first, Kernel.slices]
      · funext b
        rw [Kernel.slices, (envs b).pri]
        rfl

/-- The envs that run behind the timer interrupts, one by one. -/
def envsRun (k : Kernel) : List Trapframe → Option (List EnvPtr)
  | [] => some []
  | tf :: tfs => (step k (.timer tf)).bind fun k => k.curenv.bind fun e => (envsRun k tfs).map (e :: ·)

theorem Turn.envsRun {k : Kernel} {s : State EnvPtr} (turn : Turn k s) (some' : s.order ≠ [])
    (each : ∀ e ∈ s.order, 0 < k.slices e) (tfs : List Trapframe) :
    ∃ picks, Mos.envsRun k tfs = some picks ∧
      ∀ i < tfs.length, picks[i]? = ((State.tick k.slices)^[i + 1] s).current := by
  induction tfs generalizing k s with
  | nil => exact ⟨[], rfl, fun i less => absurd less (Nat.not_lt_zero i)⟩
  | cons tf tfs ih =>
    obtain ⟨k', stepped, turn', slices⟩ := timer_turn turn some' each tf
    have mem {b : EnvPtr} : b ∈ (s.tick k.slices).order ↔ b ∈ s.order := mem_tick
    have left : (s.tick k.slices).order ≠ [] := by
      intro empty
      obtain ⟨b, inside⟩ := List.exists_mem_of_ne_nil _ some'
      rw [← mem, empty] at inside
      cases inside
    obtain ⟨picks, ran, which⟩ := ih turn' left fun b inside => slices ▸ each b (mem.mp inside)
    obtain ⟨e, running⟩ : ∃ e, (s.tick k.slices).current = some e := by
      rw [State.current]
      exact ⟨_, List.head?_eq_some_head left⟩
    refine ⟨e :: picks, ?_, fun i less => ?_⟩
    · simp [Mos.envsRun, stepped, turn'.current, running, ran]
    · cases i with
      | zero => exact running.symm
      | succ i =>
        rw [List.getElem?_cons_succ, which i (Nat.lt_of_succ_lt_succ less), slices, ← Function.iterate_succ_apply]

theorem JustPicked.turn {k : Kernel} {e : EnvPtr} {rest : List EnvPtr} (picked : JustPicked k e rest)
    (some' : 0 < k.slices e) : Turn k ⟨k.slices e - 1, e :: rest⟩ where
  queue := picked.queue
  runnable b inside := (picked.runnable b).mp inside
  current := picked.current
  left := by rw [picked.count, pri_pred some']; rfl

theorem schedule_justPicked {yield : Bool} {k k' : Kernel} (queued : WellQueued k)
    (expired : yield = true ∨ k.count = 0 ∨ k.curRunnable = none) (h : schedule yield k = .ok () k') :
    ∃ e rest, JustPicked k' e rest := by
  obtain ⟨l', queue', mem'⟩ := schedule_queue queued h
  obtain ⟨l, queue, mem⟩ := queued
  have inside (cur : EnvPtr) (current : k.curRunnable = some cur) : cur ∈ l := (mem cur).mpr (curRunnable_some current).2
  have head : ∃ e, (k.curRunnable.elim l fun cur => l.erase cur ++ [cur]).head? = some e := by
    cases current : k.curRunnable with
    | some cur => cases left : l.erase cur <;> exact ⟨_, by simp [left]; rfl⟩
    | none =>
      cases l with
      | cons e l => exact ⟨e, rfl⟩
      | nil =>
        unfold schedule at h
        rw [current] at h
        cases yield || k.count == 0 <;> simp [queue.first_eq] at h
  obtain ⟨e, head⟩ := head
  obtain ⟨_, again, picked, running, count, envs⟩ :=
    schedule_next _ queue (fun b inside => (mem b).mp inside) expired inside head
  cases again.symm.trans h
  obtain rfl := queue'.unique picked
  cases order : k.curRunnable.elim l fun cur => l.erase cur ++ [cur] with
  | nil =>
    rw [order] at head
    cases head
  | cons first rest =>
    rw [order] at head picked mem'
    cases head
    exact ⟨e, rest, picked, mem', running, count.trans (by rw [(envs e).pri])⟩

/-- Under timer interrupts the envs run in the cyclic order of the queue, each as often in a row as its priority
    says, and an env that gives up its time slice does not get the next one while another env can run. -/
theorem round_robin :
    (∀ (k : Kernel) (e : EnvPtr) (rest : List EnvPtr), JustPicked k e rest → (∀ b ∈ e :: rest, 1 ≤ k.slices b) →
      ∀ tfs : List Trapframe, ∃ picks, envsRun k tfs = some picks ∧ ∀ i ≤ tfs.length,
        (e :: picks)[i]? = (block k.slices (e :: rest))[i % (block k.slices (e :: rest)).length]?) ∧
    ∀ (k : Kernel) (e : EnvPtr), WellQueued k → k.curenv = some e → (∃ b, b ≠ e ∧ k.Runnable b) →
      ∃ b k', schedule true k = .ok () k' ∧ k'.curenv = some b ∧ b ≠ e := by
  constructor
  · intro k e rest picked each tfs
    have turn := picked.turn (each e List.mem_cons_self)
    obtain ⟨picks, ran, which⟩ := turn.envsRun (List.cons_ne_nil e rest) each tfs
    refine ⟨picks, ran, fun i le => ?_⟩
    rw [← current_ticks each i]
    cases i with
    | zero => rfl
    | succ i =>
      rw [List.getElem?_cons_succ]
      exact which i le
  · rintro k e ⟨l, queue, mem⟩ current ⟨b, other, runnable⟩
    have inside (cur : EnvPtr) (is : k.curRunnable = some cur) : cur ∈ l := (mem cur).mpr (curRunnable_some is).2
    have head : ∃ n, (k.curRunnable.elim l fun cur => l.erase cur ++ [cur]).head? = some n ∧ n ≠ e := by
      cases is : k.curRunnable with
      | none =>
        cases l with
        | nil => cases (mem b).mpr runnable
        | cons n l =>
          refine ⟨n, rfl, ?_⟩
          rintro rfl
          have awake := (mem n).mp List.mem_cons_self
          simp [Kernel.curRunnable, current, Option.filter, awake.symm] at is
      | some cur =>
        obtain rfl : cur = e := Option.some.inj ((curRunnable_some is).1.symm.trans current)
        have left : b ∈ l.erase cur := (queue.nodup.mem_erase_iff).mpr ⟨other, (mem b).mpr runnable⟩
        cases erased : l.erase cur with
        | nil =>
          rw [erased] at left
          cases left
        | cons n l' =>
          refine ⟨n, by simp [erased], ?_⟩
          have found : n ∈ l.erase cur := by
            rw [erased]
            exact List.mem_cons_self
          exact (queue.nodup.mem_erase_iff.mp found).1
    obtain ⟨n, head, ne⟩ := head
    obtain ⟨k', scheduled, -, running, -⟩ :=
      schedule_next true queue (fun b inside => (mem b).mp inside) (.inl rfl) inside head
    exact ⟨n, k', scheduled, running, ne⟩

def twoEnvs : Kernel :=
  { initKernel 0 (pageInit 0 fun _ _ => 0) with
    envs := fun e => if e < 2 then { zeroEnv with envStatus := .runnable, envPri := 1 + BitVec.ofNat 32 e.val } else zeroEnv
    envSchedList := ((Links.init (fun _ => none) fun _ => none).insertHead 1).insertHead 0
    curenv := some 0 }

theorem round_robin_two : ∃ picks, envsRun twoEnvs (List.replicate 5 zeroFrame) = some picks ∧ ∀ i ≤ 5,
    (0 :: picks)[i]? = ([0, 1, 1] : List EnvPtr)[i % 3]? := by
  have queue : Repr twoEnvs.envSchedList [0, 1] :=
    ((init_repr _ _).insertHead (a := (1 : EnvPtr)) List.not_mem_nil).insertHead (by decide)
  have runnable (b : EnvPtr) : b ∈ ([0, 1] : List EnvPtr) ↔ twoEnvs.Runnable b := by
    show _ ↔ (if b < 2 then _ else zeroEnv : Env).envStatus = .runnable
    by_cases less : b < 2
    · have two : b = 0 ∨ b = 1 := by
        rw [Fin.lt_def] at less
        simp only [Fin.ext_iff]
        have small : b.val < 2 := less
        show b.val = 0 ∨ b.val = 1
        omega
      simp [less, two]
    · have two : ¬ (b = 0 ∨ b = 1) := by
        rintro (rfl | rfl)
        · exact less (by decide)
        · exact less (by decide)
      simp [less, two, zeroEnv]
  have each : ∀ b ∈ ([0, 1] : List EnvPtr), 1 ≤ twoEnvs.slices b := by
    intro b mem
    rw [List.mem_cons, List.mem_singleton] at mem
    rcases mem with rfl | rfl
    · exact Nat.le_refl 1
    · exact Nat.le_succ 1
  exact round_robin.1 twoEnvs 0 [1] ⟨queue, runnable, rfl, rfl⟩ each (List.replicate 5 zeroFrame)

end Mos
