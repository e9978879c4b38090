import Mathlib.Data.List.Basic
import Mathlib.Data.List.Induction

namespace Mailbox

/-- What happens to the mailboxes of receivers `ρ` with messages `μ`: a receiver starts afresh, waits for
    a message, or is sent one. -/
inductive Event (ρ μ : Type) where
  | opened (r : ρ)
  | blocked (r : ρ)
  | sent (r : ρ) (m : μ)

variable {ρ μ : Type} [DecidableEq ρ]

def deliver (r : ρ) (got : Option (List μ)) : Event ρ μ → Option (List μ)
  | .opened r' => if r' = r then none else got
  | .blocked r' => if r' = r then some [] else got
  | .sent r' m => if r' = r then got.map (· ++ [m]) else got

/-- The messages sent to `r` since it last began to wait, or `none` when it has not waited. -/
def received (r : ρ) (trace : List (Event ρ μ)) : Option (List μ) := trace.foldl (deliver r) none

@[simp] theorem received_nil (r : ρ) : received r ([] : List (Event ρ μ)) = none := rfl

@[simp] theorem received_snoc (r : ρ) (trace : List (Event ρ μ)) (e : Event ρ μ) :
    received r (trace ++ [e]) = deliver r (received r trace) e := by
  simp [received]

/-- Every message goes to a receiver that waits and has been sent nothing since. -/
def Disciplined (trace : List (Event ρ μ)) : Prop :=
  ∀ before r m, before ++ [.sent r m] <+: trace → received r before = some []

theorem disciplined_nil : Disciplined ([] : List (Event ρ μ)) := by
  intro before r m part
  simp at part

theorem Disciplined.snoc {trace : List (Event ρ μ)} {e : Event ρ μ} (kept : Disciplined trace)
    (last : ∀ r m, e = .sent r m → received r trace = some []) : Disciplined (trace ++ [e]) := by
  intro before r m part
  rcases List.prefix_concat_iff.mp part with whole | part
  · obtain ⟨rfl, same⟩ := List.append_inj' whole rfl
    exact last r m (List.singleton_inj.mp same).symm
  · exact kept before r m part

theorem Disciplined.atMostOne {trace : List (Event ρ μ)} (kept : Disciplined trace) {r : ρ} {messages : List μ}
    (got : received r trace = some messages) : messages.length ≤ 1 := by
  induction trace using List.reverseRecOn generalizing messages with
  | nil => cases got
  | append_singleton trace e ih =>
    have before : Disciplined trace := fun b r m part => kept b r m (part.trans (List.prefix_append _ _))
    rw [received_snoc] at got
    cases e with
    | opened r' =>
      simp only [deliver] at got
      split at got
      · cases got
      · exact ih before got
    | blocked r' =>
      simp only [deliver] at got
      split at got
      · cases got
        exact Nat.zero_le 1
      · exact ih before got
    | sent r' m =>
      simp only [deliver] at got
      split at got
      · rename_i same
        subst same
        rw [kept trace r' m (List.prefix_refl _)] at got
        cases got
        exact Nat.le_refl 1
      · exact ih before got

end Mailbox
