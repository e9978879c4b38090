import Mos.Lib.Machine

namespace Result

variable {σ ε χ α β : Type} {P P' : α → σ → Prop} {Q : β → σ → Prop} {E E' : σ → Prop} {S S' : χ → Prop}

def tested (r : Result σ ε χ α) : Result σ ε χ (Except ε α) :=
  match r with
  | .ok value state => .ok (.ok value) state
  | .err code state => .ok (.error code) state
  | .stop cause => .stop cause

/-- A call that returns a value meets `P`, one that fails leaves a state that meets `E`, and one that never
    returns has a cause that meets `S`. -/
def Meets (r : Result σ ε χ α) (P : α → σ → Prop) (E : σ → Prop) (S : χ → Prop) : Prop :=
  match r with
  | .ok value state => P value state
  | .err _ state => E state
  | .stop cause => S cause

/-- Every state that the call leaves, by success or by error, meets `E`. -/
abbrev Leaves (r : Result σ ε χ α) (E : σ → Prop) (S : χ → Prop) : Prop := r.Meets (fun _ => E) E S

theorem Meets.bind {r : Result σ ε χ α} {f : α → σ → Result σ ε χ β} (first : r.Meets P E S)
    (rest : ∀ a s, P a s → (f a s).Meets Q E S) : (r.bind f).Meets Q E S := by
  cases r with
  | ok a s => exact rest a s first
  | err e s => exact first
  | stop c => exact first

theorem Meets.any {r : Result σ ε χ α} : r.Meets (fun _ _ => True) (fun _ => True) fun _ => True := by
  cases r <;> trivial

theorem Meets.mono {r : Result σ ε χ α} (h : r.Meets P E S) (value : ∀ a s, P a s → P' a s)
    (error : ∀ s, E s → E' s) (stop : ∀ c, S c → S' c) : r.Meets P' E' S' := by
  cases r with
  | ok a s => exact value a s h
  | err e s => exact error s h
  | stop c => exact stop c h

theorem Meets.and {r : Result σ ε χ α} (h : r.Meets P E S) (h' : r.Meets P' E' S') :
    r.Meets (fun a s => P a s ∧ P' a s) (fun s => E s ∧ E' s) S := by
  cases r with
  | ok a s => exact ⟨h, h'⟩
  | err e s => exact ⟨h, h'⟩
  | stop c => exact h

theorem Meets.also {r : Result σ ε χ α} (h : r.Meets P E S) (kept : r.Leaves E' S') :
    r.Meets (fun a s => P a s ∧ E' s) E' S := by
  cases r with
  | ok a s => exact ⟨h, kept⟩
  | err e s => exact kept
  | stop c => exact h

theorem Meets.ok {r : Result σ ε χ α} {a : α} {s : σ} (h : r.Meets P E S) (same : r = ok a s) : P a s := by
  subst same
  exact h

theorem Leaves.state {r : Result σ ε χ α} {s : σ} (h : r.Leaves E S) (left : r.state = some s) : E s := by
  cases r with
  | ok a t => cases left; exact h
  | err e t => cases left; exact h
  | stop c => cases left

/-- Why the call never returns. -/
def cause (r : Result σ ε χ α) : Option χ :=
  match r with
  | .stop cause => some cause
  | _ => none

theorem Meets.cause {r : Result σ ε χ α} {c : χ} (h : r.Meets P E S) (stopped : r.cause = some c) : S c := by
  cases r with
  | ok a s => cases stopped
  | err e s => cases stopped
  | stop c' => cases stopped; exact h

theorem Leaves.mono {r : Result σ ε χ α} (h : r.Leaves E S) (weaker : ∀ s, E s → E' s) : r.Leaves E' S :=
  Meets.mono h (fun _ => weaker) weaker fun _ stop => stop

theorem tested_ok {r : Result σ ε χ α} {a : α} {s : σ} (h : r.tested = .ok (.ok a) s) : r = .ok a s := by
  cases r with
  | ok b t => cases h; rfl
  | err e t => cases h
  | stop c => cases h

theorem tested_error {r : Result σ ε χ α} {e : ε} {s : σ} (h : r.tested = .ok (.error e) s) : r = err e s := by
  cases r with
  | ok b t => cases h
  | err e' t => cases h; rfl
  | stop c => cases h

theorem Meets.tested {r : Result σ ε χ α} (h : r.Meets P E S) :
    r.tested.Meets (fun x s => match x with | .ok a => P a s | .error _ => E s) E' S := by
  cases r with
  | ok a s => exact h
  | err e s => exact h
  | stop c => exact h

theorem Leaves.tested {r : Result σ ε χ α} (h : r.Leaves E S) : r.tested.Leaves E S := by
  cases r with
  | ok a s => exact h
  | err e s => exact h
  | stop c => exact h

theorem Leaves.forRange {n : Nat} {body : Nat → σ → Result σ ε χ Unit} {s : σ} (start : E s)
    (keep : ∀ i s, E s → (body i s).Leaves E S) : (forRange n body s).Leaves E S := by
  induction n with
  | zero => exact start
  | succ n ih => exact Meets.bind ih fun _ s before => keep n s before

/-- The loop rule: `inv i` before round `i`. -/
theorem Meets.forRange {n : Nat} {body : Nat → σ → Result σ ε χ Unit} {s : σ} (inv : Nat → σ → Prop) (start : inv 0 s)
    (keep : ∀ i s, i < n → inv i s → (body i s).Meets (fun _ t => inv (i + 1) t) E S) :
    (forRange n body s).Meets (fun _ t => inv n t) E S := by
  induction n with
  | zero => exact start
  | succ n ih =>
    exact (ih fun i s below => keep i s (Nat.lt_succ_of_lt below)).bind fun _ s before => keep n s n.lt_succ_self before

/-- Every code that the call returns meets `C`. -/
def Codes (r : Result σ ε χ α) (C : ε → Prop) : Prop :=
  match r with
  | .err code _ => C code
  | _ => True

theorem Codes.err {r : Result σ ε χ α} {C : ε → Prop} {e : ε} {s : σ} (codes : r.Codes C) (failed : r = err e s) : C e := by
  subst failed
  exact codes

theorem Codes.bind {r : Result σ ε χ α} {f : α → σ → Result σ ε χ β} {C : ε → Prop} (first : r.Codes C)
    (rest : ∀ a s, (f a s).Codes C) : (r.bind f).Codes C := by
  cases r with
  | ok a s => exact rest a s
  | err e s => exact first
  | stop c => trivial

theorem Codes.tested {r : Result σ ε χ α} {C : ε → Prop} : r.tested.Codes C := by
  cases r <;> trivial

theorem Codes.lift {τ : Type} {put : σ → τ} {r : Result σ ε χ α} {C : ε → Prop} (codes : r.Codes C) : (r.lift put).Codes C := by
  cases r <;> exact codes

theorem Codes.forRange {n : Nat} {body : Nat → σ → Result σ ε χ Unit} {s : σ} {C : ε → Prop}
    (codes : ∀ i s, (body i s).Codes C) : (forRange n body s).Codes C := by
  induction n with
  | zero => trivial
  | succ n ih => exact Codes.bind ih fun _ s => codes n s

end Result
