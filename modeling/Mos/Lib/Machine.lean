import Mathlib.Data.List.Basic

/-- How a C function of the kernel ends: it returns 0 with its outputs, it returns a negative code,
    or it never returns. The state is threaded through the first two, so a failing call keeps what
    it wrote. -/
inductive Result (σ ε χ α : Type) where
  | ok (value : α) (state : σ)
  | err (code : ε) (state : σ)
  | stop (cause : χ)

namespace Result

variable {σ ε χ α β : Type}

def bind (r : Result σ ε χ α) (f : α → σ → Result σ ε χ β) : Result σ ε χ β :=
  match r with
  | .ok value state => f value state
  | .err code state => .err code state
  | .stop cause => .stop cause

@[simp] theorem ok_bind (a : α) (s : σ) (f : α → σ → Result σ ε χ β) : (ok a s).bind f = f a s := rfl
@[simp] theorem err_bind (e : ε) (s : σ) (f : α → σ → Result σ ε χ β) : (err e s : Result σ ε χ α).bind f = err e s := rfl
@[simp] theorem stop_bind (c : χ) (f : α → σ → Result σ ε χ β) : (stop c : Result σ ε χ α).bind f = stop c := rfl

theorem bind_ok {r : Result σ ε χ α} {f : α → σ → Result σ ε χ β} {b : β} {t : σ} (h : r.bind f = ok b t) :
    ∃ a s, r = ok a s ∧ f a s = ok b t := by
  cases r with
  | ok a s => exact ⟨a, s, rfl, h⟩
  | err e s => cases h
  | stop c => cases h

theorem bind_err {r : Result σ ε χ α} {f : α → σ → Result σ ε χ β} {e : ε} {t : σ} (h : r.bind f = err e t) :
    r = err e t ∨ ∃ a s, r = ok a s ∧ f a s = err e t := by
  cases r with
  | ok a s => exact Or.inr ⟨a, s, rfl, h⟩
  | err e' s => cases h; exact Or.inl rfl
  | stop c => cases h

def failed (r : Result σ ε χ α) : Option (ε × σ) :=
  match r with
  | .err code state => some (code, state)
  | _ => none

theorem failed_some {r : Result σ ε χ α} {e : ε} {t : σ} (h : r.failed = some (e, t)) : r = err e t := by
  cases r with
  | ok a s => cases h
  | err e' s => cases h; rfl
  | stop c => cases h

def lift {τ : Type} (r : Result σ ε χ α) (put : σ → τ) : Result τ ε χ α :=
  match r with
  | .ok value state => .ok value (put state)
  | .err code state => .err code (put state)
  | .stop cause => .stop cause

variable {τ : Type} (put : σ → τ)

@[simp] theorem ok_lift (a : α) (s : σ) : (ok a s : Result σ ε χ α).lift put = ok a (put s) := rfl
@[simp] theorem err_lift (e : ε) (s : σ) : (err e s : Result σ ε χ α).lift put = err e (put s) := rfl
@[simp] theorem stop_lift (c : χ) : (stop c : Result σ ε χ α).lift put = stop c := rfl

theorem lift_ok {put : σ → τ} {r : Result σ ε χ α} {a : α} {t : τ} (h : r.lift put = ok a t) :
    ∃ s, r = ok a s ∧ t = put s := by
  cases r with
  | ok b s => cases h; exact ⟨s, rfl, rfl⟩
  | err e s => cases h
  | stop c => cases h

theorem lift_err {put : σ → τ} {r : Result σ ε χ α} {e : ε} {t : τ} (h : r.lift put = err e t) :
    ∃ s, r = err e s ∧ t = put s := by
  cases r with
  | ok b s => cases h
  | err e' s => cases h; exact ⟨s, rfl, rfl⟩
  | stop c => cases h

def state (r : Result σ ε χ α) : Option σ :=
  match r with
  | .ok _ state => some state
  | .err _ state => some state
  | .stop _ => none

theorem bind_state {r : Result σ ε χ α} {f : α → σ → Result σ ε χ β} {t : σ} (h : (r.bind f).state = some t) :
    (∃ e, r = err e t) ∨ ∃ a s, r = ok a s ∧ (f a s).state = some t := by
  cases r with
  | ok a s => exact Or.inr ⟨a, s, rfl, h⟩
  | err e s => cases h; exact Or.inl ⟨e, rfl⟩
  | stop c => cases h

/-- The loop `for (i = 0; i < n; i++) body(i)`. -/
def forRange (n : Nat) (body : Nat → σ → Result σ ε χ Unit) (s : σ) : Result σ ε χ Unit :=
  match n with
  | 0 => .ok () s
  | n + 1 => (forRange n body s).bind fun _ s => body n s

theorem forRange_ok (inv : Nat → σ → Prop) {n : Nat} {body : Nat → σ → Result σ ε χ Unit} {s t : σ}
    (initial : inv 0 s) (keep : ∀ i s t, i < n → inv i s → body i s = ok () t → inv (i + 1) t)
    (h : forRange n body s = ok () t) : inv n t := by
  induction n generalizing t with
  | zero => cases h; exact initial
  | succ n ih =>
    obtain ⟨_, mid, before, last⟩ := bind_ok h
    exact keep n mid t (Nat.lt_succ_self n) (ih (fun i s t hi => keep i s t (Nat.lt_succ_of_lt hi)) before) last

theorem forRange_idle {n : Nat} {body : Nat → σ → Result σ ε χ Unit} {s : σ} (idle : ∀ i < n, body i s = ok () s) :
    forRange n body s = ok () s := by
  induction n with
  | zero => rfl
  | succ n ih =>
    rw [forRange, ih fun i less => idle i (Nat.lt_succ_of_lt less), ok_bind]
    exact idle n (Nat.lt_succ_self n)

end Result

/-- `Run step guard s inputs t`: the inputs take `s` to `t`, each meeting `guard` in the state before it. -/
inductive Run {σ ι : Type} (step : σ → ι → Option σ) (guard : σ → ι → Prop) (s : σ) : List ι → σ → Prop where
  | nil : Run step guard s [] s
  | snoc {t u : σ} {inputs : List ι} {i : ι} (run : Run step guard s inputs t) (meets : guard t i)
      (next : step t i = some u) : Run step guard s (inputs ++ [i]) u

namespace Run

variable {σ ι : Type} {step : σ → ι → Option σ} {guard : σ → ι → Prop} {s t u : σ} {inputs : List ι}

theorem invariant (inv : σ → Prop) (initial : inv s)
    (keep : ∀ t i u, inv t → guard t i → step t i = some u → inv u) (run : Run step guard s inputs t) : inv t := by
  induction run with
  | nil => exact initial
  | snoc run meets next ih => exact keep _ _ _ ih meets next

theorem weaken {guard' : σ → ι → Prop} (weaker : ∀ t i, guard t i → guard' t i)
    (run : Run step guard s inputs t) : Run step guard' s inputs t := by
  induction run with
  | nil => exact .nil
  | snoc run meets next ih => exact .snoc ih (weaker _ _ meets) next

theorem view {τ : Type} {step' : τ → ι → Option τ} {guard' : τ → ι → Prop} (view : σ → τ)
    (guards : ∀ s i, guard s i → guard' (view s) i) (steps : ∀ s i t, step s i = some t → step' (view s) i = some (view t))
    (run : Run step guard s inputs t) : Run step' guard' (view s) inputs (view t) := by
  induction run with
  | nil => exact .nil
  | snoc run meets next ih => exact ih.snoc (guards _ _ meets) (steps _ _ _ next)

def exec (step : σ → ι → Option σ) (s : σ) : List ι → Option σ
  | [] => some s
  | i :: inputs => (step s i).bind fun t => exec step t inputs

theorem append {more : List ι} (run : Run step guard s inputs t) (rest : Run step guard t more u) :
    Run step guard s (inputs ++ more) u := by
  induction rest with
  | nil => simpa using run
  | snoc rest meets next ih =>
    rw [← List.append_assoc]
    exact .snoc ih meets next

theorem exec_eq (run : Run step guard s inputs t) : exec step s inputs = some t := by
  have whole : ∀ {pre u}, Run step guard s pre u → ∀ rest, exec step s (pre ++ rest) = exec step u rest := by
    intro pre u run
    induction run with
    | nil => exact fun _ => rfl
    | snoc run meets next ih =>
      intro rest
      rw [List.append_assoc, ih]
      simp [exec, next]
  simpa [exec] using whole run []

theorem split {first rest : List ι} (run : Run step guard s (first ++ rest) t) : ∃ u, Run step guard s first u := by
  generalize whole : first ++ rest = inputs at run
  induction run generalizing rest with
  | nil =>
    obtain ⟨rfl, _⟩ := List.append_eq_nil_iff.mp whole
    exact ⟨s, .nil⟩
  | @snoc t u inputs i run meets next ih =>
    rcases List.eq_nil_or_concat rest with rfl | ⟨rest, j, rfl⟩
    · obtain rfl : first = inputs ++ [i] := by simpa using whole
      exact ⟨u, run.snoc meets next⟩
    · rw [List.concat_eq_append, ← List.append_assoc] at whole
      exact ih (List.append_inj' whole rfl).1

theorem last {i : ι} (run : Run step guard s (inputs ++ [i]) t) : ∃ u, Run step guard s inputs u ∧ step u i = some t := by
  generalize whole : inputs ++ [i] = all at run
  cases run with
  | nil => simp at whole
  | @snoc u t inputs' j before meets next =>
    obtain ⟨rfl, same⟩ := List.append_inj' whole rfl
    cases same
    exact ⟨u, before, next⟩

/-- When the guard is what one step needs to stay `good`, the guarded runs are exactly the runs that are
    `good` in every state they reach. -/
theorem guarded_iff {good : σ → Prop} (inv : σ → Prop) (initial : inv s) (fine : ∀ t, inv t → good t)
    (keep : ∀ t i u, inv t → guard t i → step t i = some u → inv u)
    (needs : ∀ t i u, inv t → step t i = some u → good u → guard t i)
    (run : Run step (fun _ _ => True) s inputs t) :
    Run step guard s inputs t ↔ ∀ pre u, pre <+: inputs → Run step (fun _ _ => True) s pre u → good u := by
  constructor
  · rintro guarded pre u ⟨rest, rfl⟩ reached
    obtain ⟨u', guarded'⟩ := guarded.split
    obtain rfl : u' = u := Option.some.inj (guarded'.exec_eq.symm.trans reached.exec_eq)
    exact fine u' (guarded'.invariant inv initial keep)
  · intro always
    induction run with
    | nil => exact .nil
    | @snoc t u inputs i run _ next ih =>
      have before := ih fun pre v part reached => always pre v (part.trans (List.prefix_append _ _)) reached
      have after : good u := always _ u (List.prefix_refl _) (.snoc run trivial next)
      exact before.snoc (needs t i u (before.invariant inv initial keep) next after) next

theorem of_exec (meets : ∀ i ∈ inputs, ∀ t, guard t i) (h : exec step s inputs = some t) :
    Run step guard s inputs t := by
  induction inputs generalizing s with
  | nil => cases h; exact .nil
  | cons i inputs ih =>
    obtain ⟨mid, next, rest⟩ := Option.bind_eq_some_iff.mp h
    have first : Run step guard s [i] mid := .snoc .nil (meets i (by simp) s) next
    exact first.append (ih (fun j mem => meets j (by simp [mem])) rest)

def checked (step : σ → ι → Option σ) (guard : σ → ι → Prop) [∀ s i, Decidable (guard s i)] (s : σ) (i : ι) :
    Option σ := if guard s i then step s i else none

theorem of_checked [∀ s i, Decidable (guard s i)] (h : exec (checked step guard) s inputs = some t) :
    Run step guard s inputs t := by
  induction inputs generalizing s with
  | nil => cases h; exact .nil
  | cons i inputs ih =>
    obtain ⟨mid, next, rest⟩ := Option.bind_eq_some_iff.mp h
    unfold checked at next
    split at next
    · rename_i meets
      have first : Run step guard s [i] mid := .snoc .nil meets next
      exact first.append (ih rest)
    · cases next

end Run
