import Mathlib.Tactic.Common

namespace Mos

variable {α β : Type} {r : Option α} {f : α → Option β} {fits fits' : Prop} {P P' : α → Prop} {Q : β → Prop}

/-- The computation has a result just when `fits` holds, and its result meets `P`. -/
def Exactly (r : Option α) (fits : Prop) (P : α → Prop) : Prop :=
  match r with
  | some a => fits ∧ P a
  | none => ¬ fits

theorem Exactly.isSome (h : Exactly r fits P) : r.isSome ↔ fits := by
  cases r with
  | some a => exact iff_of_true rfl h.1
  | none => exact iff_of_false nofun h

theorem Exactly.some {a : α} (h : Exactly r fits P) (same : r = some a) : fits ∧ P a := by
  subst same
  exact h

theorem Exactly.mono (h : Exactly r fits P) (same : fits ↔ fits') (value : fits → ∀ a, P a → P' a) : Exactly r fits' P' := by
  cases r with
  | some a => exact ⟨same.mp h.1, value h.1 a h.2⟩
  | none => exact fun other => h (same.mpr other)

theorem Exactly.bind (first : Exactly r fits P) (rest : fits → ∀ a, P a → Exactly (f a) fits' Q) :
    Exactly (r.bind f) (fits ∧ fits') Q := by
  cases r with
  | none => exact fun both => first both.1
  | some a =>
    have next := rest first.1 a first.2
    show Exactly (f a) (fits ∧ fits') Q
    exact next.mono (and_iff_right first.1).symm fun _ _ meets => meets

theorem Exactly.map {g : α → β} (first : Exactly r fits P) (value : fits → ∀ a, P a → Q (g a)) :
    Exactly (r.map g) fits Q := by
  cases r with
  | none => exact first
  | some a => exact ⟨first.1, value first.1 a first.2⟩

end Mos
