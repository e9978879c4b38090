import Mos.Fs.Serve

namespace Mos.Fs

def InUse (s : Store) (b : Nat) : Prop := 0 < b ∧ b < s.nblocks ∧ blockIsFree s b = false

instance (s : Store) (b : Nat) : Decidable (InUse s b) := inferInstanceAs (Decidable (_ ∧ _ ∧ _))

variable {s s' : Store}

/-- What `fs_sync` has done before block `n`. -/
structure Synced (n : Nat) (s s' : Store) : Prop where
  cache : s'.cache = s.cache
  dirty : s'.dirty = s.dirty
  disk : ∀ b, s'.disk b = if b < n ∧ blockIsDirty s b then s.content b else s.disk b

theorem Synced.step {n : Nat} {t : Store} (before : Synced n s s')
    (h : (if blockIsDirty s' n then writeBlock n s' else .ok () s') = .ok () t) : Synced (n + 1) s t := by
  have same : blockIsDirty s' n = blockIsDirty s n := by simp [blockIsDirty, before.cache, before.dirty]
  rw [same] at h
  by_cases dirty : blockIsDirty s n = true
  · rw [if_pos dirty] at h
    unfold writeBlock at h
    split at h
    · cases h
    · rename_i p cached
      cases h
      refine ⟨before.cache, before.dirty, fun b => ?_⟩
      by_cases here : b = n
      · subst here
        have page : s.content b = p := by simp [Store.content, ← before.cache, cached]
        simp [dirty, page]
      · have index : b < n + 1 ↔ b < n := by omega
        simp only [Function.update_of_ne here, index]
        exact before.disk b
  · rw [if_neg dirty] at h
    cases h
    refine ⟨before.cache, before.dirty, fun b => ?_⟩
    by_cases here : b = n
    · subst here
      rw [before.disk b, if_neg (fun both => Nat.lt_irrefl b both.1), if_neg (fun both => dirty both.2)]
    · have index : b < n + 1 ↔ b < n := by omega
      simp only [index]
      exact before.disk b

theorem fsSync_synced (s : Store) : ∃ s', fsSync s = .ok () s' ∧ Synced s.nblocks s s' := by
  unfold fsSync
  generalize s.nblocks = n
  induction n with
  | zero => exact ⟨s, rfl, rfl, rfl, fun b => by simp⟩
  | succ n ih =>
    obtain ⟨mid, loop, before⟩ := ih
    have last : ∃ t, (if blockIsDirty mid n then writeBlock n mid else .ok () mid) = .ok () t := by
      split
      · rename_i dirty
        simp only [blockIsDirty, Bool.and_eq_true, Option.isSome_iff_exists] at dirty
        obtain ⟨⟨p, cached⟩, _⟩ := dirty
        simp [writeBlock, cached]
      · exact ⟨mid, rfl⟩
    obtain ⟨t, last⟩ := last
    refine ⟨t, ?_, before.step last⟩
    rw [Result.forRange, loop, Result.ok_bind]
    exact last

theorem Synced.content (synced : Synced s.nblocks s s') (b : Nat) : s'.content b = s.content b ∨
    s.cache b = none ∧ s'.disk b = s'.content b := by
  unfold Store.content
  rw [synced.cache]
  cases cached : s.cache b with
  | none => exact .inr ⟨rfl, rfl⟩
  | some p => exact .inl rfl

end Mos.Fs
