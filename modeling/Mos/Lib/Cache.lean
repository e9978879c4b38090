import Mathlib.Logic.Basic

/-! A cache of a table: `copies s v` says that the cache has a copy `v` for the slot `s`, and `view` what a copy
    shows of an entry. -/

namespace Cache

variable {κ ω ν : Type} {view : ω → ν} {before mid after : κ → Option ω} {copies copies' copies'' : κ → ν → Prop}
variable {may may' : κ → Prop}

/-- Every copy shows the present entry of its slot. -/
def Coherent (view : ω → ν) (table : κ → Option ω) (copies : κ → ν → Prop) : Prop :=
  ∀ s v, copies s v → ∃ w, table s = some w ∧ view w = v

/-- A change of the table to which the cache has been kept: only slots of `may` change, and a slot that changes
    was empty before or has no copy left. -/
def Follows (may : κ → Prop) (before after : κ → Option ω) (copies : κ → ν → Prop) : Prop :=
  ∀ s, after s = before s ∨ may s ∧ (before s = none ∨ ∀ v, ¬ copies s v)

theorem Follows.refl (may : κ → Prop) (table : κ → Option ω) (copies : κ → ν → Prop) :
    Follows may table table copies := fun _ => Or.inl rfl

theorem Follows.trans (fewer : ∀ s v, copies'' s v → copies' s v) (first : Follows may before mid copies')
    (second : Follows may mid after copies'') : Follows may before after copies'' := by
  intro s
  rcases first s with same | ⟨inside, empty | gone⟩
  · rw [← same]
    exact second s
  · exact Or.inr ⟨inside, Or.inl empty⟩
  · exact Or.inr ⟨inside, Or.inr fun v copy => gone v (fewer s v copy)⟩

theorem Follows.mono (wider : ∀ s, may s → may' s) (follows : Follows may before after copies) :
    Follows may' before after copies :=
  fun s => (follows s).imp_right fun changed => ⟨wider s changed.1, changed.2⟩

theorem Follows.outside {s : κ} (follows : Follows may before after copies) (out : ¬ may s) : after s = before s :=
  (follows s).resolve_right fun changed => out changed.1

theorem Coherent.fewer (coherent : Coherent view before copies) (fewer : ∀ s v, copies' s v → copies s v) :
    Coherent view before copies' := fun s v copy => coherent s v (fewer s v copy)

theorem Coherent.follow (coherent : Coherent view before copies) (fewer : ∀ s v, copies' s v → copies s v)
    (follows : Follows may before after copies') : Coherent view after copies' := by
  intro s v copy
  obtain ⟨w, there, shown⟩ := coherent s v (fewer s v copy)
  rcases follows s with same | ⟨_, empty | gone⟩
  · exact ⟨w, same.trans there, shown⟩
  · cases there.symm.trans empty
  · exact absurd copy (gone v)

theorem Coherent.no_copy {s : κ} {v : ν} (coherent : Coherent view before copies) (empty : before s = none) :
    ¬ copies s v := by
  intro copy
  obtain ⟨w, there, _⟩ := coherent s v copy
  cases there.symm.trans empty

end Cache
