import Mathlib.Data.Fintype.Card

namespace RefCount

variable {S O : Type} [Fintype S] [DecidableEq S] [DecidableEq O]

omit [DecidableEq S] in
/-- The number of slots of the table `T` that refer to `o`. -/
def refs (T : S → Option O) (o : O) : Nat := (Finset.univ.filter fun s => T s = some o).card

omit [DecidableEq S] in
theorem refs_eq_zero {T : S → Option O} {o : O} : refs T o = 0 ↔ ∀ s, T s ≠ some o := by
  simp [refs, Finset.filter_eq_empty_iff]

omit [DecidableEq S] in
theorem refs_pos {T : S → Option O} {o : O} {s : S} (full : T s = some o) : 0 < refs T o :=
  Finset.card_pos.mpr ⟨s, by simp [full]⟩

theorem refs_add {T : S → Option O} {s : S} {o : O} (empty : T s = none) (p : O) :
    refs (Function.update T s (some o)) p = refs T p + if p = o then 1 else 0 := by
  unfold refs
  by_cases same : p = o
  · subst same
    have grown : (Finset.univ.filter fun r => Function.update T s (some p) r = some p) =
        insert s (Finset.univ.filter fun r => T r = some p) := by
      ext r
      by_cases here : r = s
      · simp [here]
      · simp [here]
    rw [grown, Finset.card_insert_of_notMem (by simp [empty]), if_pos rfl]
  · rw [if_neg same, Nat.add_zero]
    congr 1
    ext r
    by_cases here : r = s
    · simp [here, empty, Ne.symm same]
    · simp [here]

theorem refs_drop {T : S → Option O} {s : S} {o : O} (full : T s = some o) (p : O) :
    refs (Function.update T s none) p + (if p = o then 1 else 0) = refs T p := by
  have back : Function.update (Function.update T s none) s (some o) = T := by
    rw [Function.update_idem, ← full, Function.update_eq_self]
  have added := refs_add (T := Function.update T s none) (s := s) (o := o) (by simp) p
  rw [back] at added
  exact added.symm

/-- The counters of the managed objects are right, and the free list holds unreferenced objects, each once. -/
structure Accounts (managed : O → Prop) (T : S → Option O) (count : O → Nat) (free : List O) : Prop where
  counted : ∀ o, managed o → count o = refs T o
  nodup : free.Nodup
  idle : ∀ o ∈ free, refs T o = 0

variable {managed : O → Prop} {T : S → Option O} {count count' : O → Nat} {free : List O} {s : S} {o : O}

omit [DecidableEq S] in
theorem Accounts.busy (acc : Accounts managed T count free) (full : T s = some o) : o ∉ free := by
  intro mem
  have pos := refs_pos full
  rw [acc.idle o mem] at pos
  exact absurd pos (Nat.lt_irrefl 0)

omit [DecidableEq S] in
theorem Accounts.take (acc : Accounts managed T count (o :: free)) :
    Accounts managed T count free ∧ o ∉ free ∧ refs T o = 0 := by
  obtain ⟨fresh, nodup⟩ := List.nodup_cons.mp acc.nodup
  exact ⟨⟨acc.counted, nodup, fun p mem => acc.idle p (List.mem_cons_of_mem o mem)⟩, fresh, acc.idle o List.mem_cons_self⟩

theorem Accounts.add (acc : Accounts managed T count free) (empty : T s = none) (used : o ∉ free)
    (one : count' o = count o + 1) (others : ∀ p, p ≠ o → count' p = count p) :
    Accounts managed (Function.update T s (some o)) count' free := by
  refine ⟨fun p mine => ?_, acc.nodup, fun p mem => ?_⟩
  · rw [refs_add empty, ← acc.counted p mine]
    by_cases same : p = o
    · rw [if_pos same, same, one]
    · rw [if_neg same, others p same, Nat.add_zero]
  · have other : p ≠ o := fun same => used (same ▸ mem)
    rw [refs_add empty, acc.idle p mem, if_neg other]

theorem Accounts.drop (acc : Accounts managed T count free) (full : T s = some o)
    (one : count' o + 1 = count o) (others : ∀ p, p ≠ o → count' p = count p) :
    Accounts managed (Function.update T s none) count' free := by
  refine ⟨fun p mine => ?_, acc.nodup, fun p mem => ?_⟩
  · have dropped := refs_drop full p
    rw [← acc.counted p mine] at dropped
    by_cases same : p = o
    · subst same
      rw [if_pos rfl] at dropped
      omega
    · rw [if_neg same] at dropped
      rw [others p same]
      omega
  · have dropped := refs_drop full p
    rw [acc.idle p mem] at dropped
    omega

theorem Accounts.release (acc : Accounts managed T count free) (mine : managed o) (full : T s = some o)
    (last : count o = 1) (zero : count' o = 0) (others : ∀ p, p ≠ o → count' p = count p) :
    Accounts managed (Function.update T s none) count' (o :: free) := by
  have dropped := acc.drop full (by rw [zero, last]) others
  refine ⟨dropped.counted, List.nodup_cons.mpr ⟨acc.busy full, acc.nodup⟩, fun p mem => ?_⟩
  rcases List.mem_cons.mp mem with rfl | mem
  · rw [← dropped.counted p mine, zero]
  · exact dropped.idle p mem

omit [DecidableEq S] in
theorem Accounts.forget {managed' : O → Prop} {T' : S → Option O} (acc : Accounts managed T count free)
    (fewer : ∀ s o, T' s = some o → T s = some o)
    (kept : ∀ o, managed' o → managed o ∧ ∀ s, T s = some o → T' s = some o) : Accounts managed' T' count free := by
  refine ⟨fun o mine => ?_, acc.nodup, fun o mem => ?_⟩
  · obtain ⟨before, stays⟩ := kept o mine
    have same : (Finset.univ.filter fun s => T' s = some o) = Finset.univ.filter fun s => T s = some o := by
      ext s
      simp only [Finset.mem_filter, Finset.mem_univ, true_and]
      exact ⟨fewer s o, stays s⟩
    rw [acc.counted o before, refs, refs, same]
  · exact refs_eq_zero.mpr fun s full => refs_eq_zero.mp (acc.idle o mem) s (fewer s o full)

end RefCount
