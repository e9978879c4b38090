import Mathlib.Data.List.Rotate

namespace RoundRobin

/-- A queue whose head runs, and the slices that the head has left behind the present one. -/
structure State (α : Type) where
  left : Nat
  order : List α

namespace State

variable {α : Type} (slices : α → Nat)

def current (s : State α) : Option α := s.order.head?

/-- The head runs on, or it goes to the end of the queue and the next one gets its slices. -/
def tick (s : State α) : State α :=
  match s.left, s.order with
  | left + 1, order => ⟨left, order⟩
  | 0, [] => s
  | 0, e :: rest => ⟨((rest ++ [e]).head?.elim 0 slices) - 1, rest ++ [e]⟩

def Within (s : State α) : Prop := ∀ e, s.current = some e → s.left < slices e

end State

variable {α : Type} (slices : α → Nat)

def block (order : List α) : List α := order.flatMap fun e => List.replicate (slices e) e

/-- The block from now on until the head would have as many slices left again. -/
def State.upcoming (s : State α) : List α :=
  match s.order with
  | [] => []
  | e :: rest => List.replicate (s.left + 1) e ++ block slices rest ++ List.replicate (slices e - (s.left + 1)) e

variable {slices}

theorem block_append (order rest : List α) : block slices (order ++ rest) = block slices order ++ block slices rest :=
  List.flatMap_append

theorem upcoming_fresh {e : α} (rest : List α) (some' : 0 < slices e) :
    State.upcoming slices ⟨slices e - 1, e :: rest⟩ = block slices (e :: rest) := by
  have all : slices e - 1 + 1 = slices e := Nat.sub_add_cancel some'
  simp [State.upcoming, block, all]

theorem upcoming_tick {s : State α} (each : ∀ e ∈ s.order, 0 < slices e) (within : s.Within slices) :
    (s.tick slices).upcoming slices = (s.upcoming slices).rotate 1 := by
  obtain ⟨left, order⟩ := s
  cases order with
  | nil => cases left <;> rfl
  | cons e rest =>
    have less : left < slices e := within e rfl
    cases left with
    | succ left =>
      have more : slices e - (left + 1) = slices e - (left + 1 + 1) + 1 := by omega
      simp only [State.tick, State.upcoming, more]
      rw [List.replicate_succ (n := left + 1), List.replicate_succ' (n := slices e - (left + 1 + 1))]
      simp
    | zero =>
      have whole : List.replicate (slices e - 1) e ++ [e] = List.replicate (slices e) e := by
        rw [← List.replicate_succ', Nat.sub_add_cancel less]
      have again : State.upcoming slices (State.tick slices ⟨0, e :: rest⟩) = block slices (rest ++ [e]) := by
        cases rest with
        | nil => exact upcoming_fresh [] less
        | cons next rest => exact upcoming_fresh _ (each next (by simp))
      rw [again, block_append]
      simp [State.upcoming, block, whole]

theorem within_tick {s : State α} (each : ∀ e ∈ s.order, 0 < slices e) (within : s.Within slices) :
    (s.tick slices).Within slices := by
  obtain ⟨left, order⟩ := s
  intro next current
  cases left with
  | succ left => exact Nat.lt_of_succ_lt (within next current)
  | zero =>
    cases order with
    | nil => cases current
    | cons e rest =>
      have first : (rest ++ [e]).head? = some next := current
      have mem : next ∈ e :: rest := by
        have inside := List.mem_of_mem_head? first
        rw [List.mem_append, List.mem_singleton] at inside
        rcases inside with inside | same
        · exact List.mem_cons_of_mem e inside
        · rw [same]
          exact List.mem_cons_self
      simp only [State.tick, first, Option.elim]
      exact Nat.sub_lt (each next mem) Nat.one_pos

theorem mem_tick {s : State α} {e : α} : e ∈ (s.tick slices).order ↔ e ∈ s.order := by
  obtain ⟨left, order⟩ := s
  cases left with
  | succ left => rfl
  | zero => cases order with
    | nil => rfl
    | cons first rest => simp [State.tick, or_comm]

theorem current_upcoming (slices : α → Nat) (s : State α) : (s.upcoming slices).head? = s.current := by
  obtain ⟨left, order⟩ := s
  cases order <;> simp [State.upcoming, State.current, List.replicate_succ]

theorem current_ticks {e : α} {rest : List α} (each : ∀ b ∈ e :: rest, 0 < slices b) (n : Nat) :
    ((State.tick slices)^[n] ⟨slices e - 1, e :: rest⟩).current =
      (block slices (e :: rest))[n % (block slices (e :: rest)).length]? := by
  have fresh := upcoming_fresh rest (each e List.mem_cons_self)
  have run : ((State.tick slices)^[n] ⟨slices e - 1, e :: rest⟩).upcoming slices = (block slices (e :: rest)).rotate n ∧
      ((State.tick slices)^[n] ⟨slices e - 1, e :: rest⟩).Within slices ∧
      ∀ b, b ∈ ((State.tick slices)^[n] ⟨slices e - 1, e :: rest⟩).order ↔ b ∈ e :: rest := by
    induction n with
    | zero =>
      refine ⟨by rw [Function.iterate_zero_apply, fresh, List.rotate_zero], ?_, fun _ => Iff.rfl⟩
      intro b current
      cases current
      exact Nat.sub_lt (each e List.mem_cons_self) Nat.one_pos
    | succ n ih =>
      obtain ⟨upcoming, within, mem⟩ := ih
      have all := fun b inside => each b ((mem b).mp inside)
      rw [Function.iterate_succ_apply']
      refine ⟨?_, within_tick all within, fun b => mem_tick.trans (mem b)⟩
      rw [upcoming_tick all within, upcoming, List.rotate_rotate]
  have some' : block slices (e :: rest) ≠ [] := by
    have first := each e List.mem_cons_self
    simp only [block, List.flatMap_cons, ne_eq, List.append_eq_nil_iff, List.replicate_eq_nil_iff]
    omega
  rw [← current_upcoming slices, run.1, ← List.rotate_mod,
    List.head?_rotate (Nat.mod_lt _ (List.length_pos_iff.mpr some'))]

end RoundRobin
