import Mathlib.Data.Set.Card
import Mathlib.Logic.Function.Basic

namespace SlotTable

variable {κ ν : Type} [DecidableEq κ]

/-- A table of slots, of which the first `n` are looked at; a slot in use has a key and a value. -/
abbrev Slots (κ ν : Type) := Nat → Option (κ × ν)

def find (n : Nat) (s : Slots κ ν) (key : κ) : Option Nat := (List.range n).find? fun i => (s i).map Prod.fst = some key

def toMap (n : Nat) (s : Slots κ ν) (key : κ) : Option ν := (find n s key).bind fun i => (s i).map Prod.snd

def Distinct (n : Nat) (s : Slots κ ν) : Prop :=
  ∀ i j key, i < n → j < n → (s i).map Prod.fst = some key → (s j).map Prod.fst = some key → i = j

def domain (m : κ → Option ν) : Set κ := fun key => m key ≠ none

variable {n i : Nat} {s : Slots κ ν} {key : κ} {value : ν}

theorem find_some (found : find n s key = some i) : i < n ∧ (s i).map Prod.fst = some key := by
  have inside := List.mem_range.mp (List.mem_of_find?_eq_some found)
  have here := List.find?_some found
  exact ⟨inside, of_decide_eq_true here⟩

theorem find_none : find n s key = none ↔ ∀ i < n, (s i).map Prod.fst ≠ some key := by
  simp [find, List.find?_eq_none]

theorem toMap_eq_some (distinct : Distinct n s) : toMap n s key = some value ↔ ∃ i < n, s i = some (key, value) := by
  constructor
  · intro there
    obtain ⟨i, found, has⟩ := Option.bind_eq_some_iff.mp there
    obtain ⟨inside, here⟩ := find_some found
    obtain ⟨⟨key', value'⟩, eq, rfl⟩ := Option.map_eq_some_iff.mp has
    rw [eq] at here
    cases here
    exact ⟨i, inside, eq⟩
  · rintro ⟨i, inside, eq⟩
    have here : (s i).map Prod.fst = some key := by rw [eq]; rfl
    cases found : find n s key with
    | none => exact absurd here (find_none.mp found i inside)
    | some j =>
      obtain ⟨inside', here'⟩ := find_some found
      obtain rfl := distinct j i key inside' inside here' here
      rw [toMap, found, Option.bind_some, eq]
      rfl

theorem toMap_eq_none : toMap n s key = none ↔ find n s key = none := by
  constructor
  · intro none
    cases found : find n s key with
    | none => rfl
    | some i =>
      obtain ⟨-, here⟩ := find_some found
      obtain ⟨entry, eq, -⟩ := Option.map_eq_some_iff.mp here
      rw [toMap, found, Option.bind_some, eq] at none
      cases none
  · intro none
    rw [toMap, none]
    rfl

theorem toMap_find (found : find n s key = some i) : toMap n s key = (s i).map Prod.snd := by
  rw [toMap, found, Option.bind_some]

omit [DecidableEq κ] in
theorem distinct_update {slot : Option (κ × ν)} (distinct : Distinct n s)
    (only : ∀ key, slot.map Prod.fst = some key → ∀ j < n, (s j).map Prod.fst = some key → j = i) :
    Distinct n (Function.update s i slot) := by
  intro a b key inA inB hasA hasB
  by_cases first : a = i
  · by_cases second : b = i
    · rw [first, second]
    · subst first
      rw [Function.update_self] at hasA
      rw [Function.update_of_ne second] at hasB
      exact absurd (only key hasA b inB hasB) second
  · by_cases second : b = i
    · subst second
      rw [Function.update_self] at hasB
      rw [Function.update_of_ne first] at hasA
      exact absurd (only key hasB a inA hasA) first
    · rw [Function.update_of_ne first] at hasA
      rw [Function.update_of_ne second] at hasB
      exact distinct a b key inA inB hasA hasB

omit [DecidableEq κ] in
/-- A value stored in a slot in which the key is already, or in any slot where it is in none. -/
theorem distinct_store (distinct : Distinct n s) (only : ∀ j < n, (s j).map Prod.fst = some key → j = i) :
    Distinct n (Function.update s i (some (key, value))) := by
  refine distinct_update distinct fun key' eq => ?_
  cases eq
  exact only

theorem toMap_store (distinct : Distinct n s) (inside : i < n) (only : ∀ j < n, (s j).map Prod.fst = some key → j = i)
    (place : ∀ entry, s i = some entry → entry.1 = key) :
    toMap n (Function.update s i (some (key, value))) = Function.update (toMap n s) key (some value) := by
  have stored : Distinct n (Function.update s i (some (key, value))) := distinct_store distinct only
  funext key'
  apply Option.ext
  intro value'
  rw [toMap_eq_some stored]
  by_cases same : key' = key
  · subst same
    rw [Function.update_self]
    constructor
    · rintro ⟨j, inJ, eq⟩
      by_cases here : j = i
      · subst here
        rw [Function.update_self] at eq
        cases eq
        rfl
      · rw [Function.update_of_ne here] at eq
        exact absurd (only j inJ (by rw [eq]; rfl)) here
    · intro eq
      cases eq
      exact ⟨i, inside, Function.update_self i _ s⟩
  · rw [Function.update_of_ne same, toMap_eq_some distinct]
    constructor
    · rintro ⟨j, inJ, eq⟩
      by_cases here : j = i
      · subst here
        rw [Function.update_self] at eq
        cases eq
        exact absurd rfl same
      · rw [Function.update_of_ne here] at eq
        exact ⟨j, inJ, eq⟩
    · rintro ⟨j, inJ, eq⟩
      refine ⟨j, inJ, ?_⟩
      rw [Function.update_of_ne _ _ s, eq]
      rintro rfl
      exact same (place _ eq)

omit [DecidableEq κ] in
theorem distinct_erase (distinct : Distinct n s) : Distinct n (Function.update s i none) := by
  refine distinct_update distinct fun key' none => ?_
  cases none

theorem toMap_erase (distinct : Distinct n s) (found : find n s key = some i) :
    toMap n (Function.update s i none) = Function.update (toMap n s) key none := by
  obtain ⟨inside, here⟩ := find_some found
  funext key'
  apply Option.ext
  intro value'
  rw [toMap_eq_some (distinct_erase distinct)]
  by_cases same : key' = key
  · subst same
    rw [Function.update_self]
    refine iff_of_false ?_ (by simp)
    rintro ⟨j, inJ, eq⟩
    by_cases at' : j = i
    · subst at'
      rw [Function.update_self] at eq
      cases eq
    · rw [Function.update_of_ne at'] at eq
      exact at' (distinct j i key' inJ inside (by rw [eq]; rfl) here)
  · rw [Function.update_of_ne same, toMap_eq_some distinct]
    constructor
    · rintro ⟨j, inJ, eq⟩
      by_cases at' : j = i
      · subst at'
        rw [Function.update_self] at eq
        cases eq
      · rw [Function.update_of_ne at'] at eq
        exact ⟨j, inJ, eq⟩
    · rintro ⟨j, inJ, eq⟩
      refine ⟨j, inJ, ?_⟩
      rw [Function.update_of_ne _ _ s, eq]
      rintro rfl
      rw [eq] at here
      cases here
      exact same rfl

omit [DecidableEq κ] in
theorem distinct_filter (distinct : Distinct n s) (keep : κ × ν → Bool) : Distinct n fun i => (s i).filter keep := by
  intro a b key' inA inB hasA hasB
  have whole (c : Nat) (has : ((s c).filter keep).map Prod.fst = some key') : (s c).map Prod.fst = some key' := by
    obtain ⟨entry, eq, rfl⟩ := Option.map_eq_some_iff.mp has
    rw [(Option.filter_eq_some_iff.mp eq).1]
    rfl
  exact distinct a b key' inA inB (whole a hasA) (whole b hasB)

theorem toMap_filter (distinct : Distinct n s) (keep : ν → Bool) :
    toMap n (fun i => (s i).filter fun entry => keep entry.2) = fun key => (toMap n s key).filter keep := by
  funext key
  apply Option.ext
  intro value
  rw [toMap_eq_some (distinct_filter distinct _), Option.filter_eq_some_iff, toMap_eq_some distinct]
  constructor
  · rintro ⟨j, inJ, eq⟩
    obtain ⟨eq, kept⟩ := Option.filter_eq_some_iff.mp eq
    exact ⟨⟨j, inJ, eq⟩, kept⟩
  · rintro ⟨⟨j, inJ, eq⟩, kept⟩
    exact ⟨j, inJ, Option.filter_eq_some_iff.mpr ⟨eq, kept⟩⟩

theorem find?_congr {p q : Nat → Bool} {l : List Nat} (same : ∀ i ∈ l, p i = q i) : l.find? p = l.find? q := by
  induction l with
  | nil => rfl
  | cons i l ih =>
    rw [List.find?_cons, List.find?_cons, same i List.mem_cons_self, ih fun j mem => same j (List.mem_cons_of_mem i mem)]

theorem toMap_congr {s' : Slots κ ν} (same : ∀ i < n, s i = s' i) : toMap n s = toMap n s' := by
  have inside (key : κ) : find n s key = find n s' key := by
    apply find?_congr
    intro i mem
    rw [same i (List.mem_range.mp mem)]
  funext key
  rw [toMap, toMap, inside]
  cases found : find n s' key with
  | none => rfl
  | some i =>
    rw [Option.bind_some, Option.bind_some, same i (find_some found).1]

omit [DecidableEq κ] in
theorem distinct_congr {s' : Slots κ ν} (same : ∀ i < n, s i = s' i) (distinct : Distinct n s) : Distinct n s' := by
  intro a b key inA inB hasA hasB
  rw [← same a inA] at hasA
  rw [← same b inB] at hasB
  exact distinct a b key inA inB hasA hasB

def used (n : Nat) (s : Slots κ ν) : Finset Nat := (Finset.range n).filter fun i => (s i).isSome

theorem domain_image (distinct : Distinct n s) :
    some '' domain (toMap n s) = (fun i => (s i).map Prod.fst) '' (used n s : Set Nat) := by
  ext key
  constructor
  · rintro ⟨key, there, rfl⟩
    obtain ⟨value, has⟩ := Option.ne_none_iff_exists'.mp there
    obtain ⟨i, inside, eq⟩ := (toMap_eq_some distinct).mp has
    exact ⟨i, by simp [used, inside, eq], by simp [eq]⟩
  · rintro ⟨i, mem, rfl⟩
    obtain ⟨inside, isSome⟩ : i < n ∧ (s i).isSome := by simpa [used] using mem
    obtain ⟨⟨key, value⟩, eq⟩ := Option.isSome_iff_exists.mp isSome
    refine ⟨key, ?_, by simp [eq]⟩
    have has : toMap n s key = some value := (toMap_eq_some distinct).mpr ⟨i, inside, eq⟩
    show toMap n s key ≠ none
    rw [has]
    exact Option.some_ne_none value

theorem finite_domain (distinct : Distinct n s) : (domain (toMap n s)).Finite := by
  apply Set.Finite.of_finite_image _ (Option.some_injective κ).injOn
  rw [domain_image distinct]
  exact (Finset.finite_toSet _).image _

theorem ncard_domain (distinct : Distinct n s) : (domain (toMap n s)).ncard = (used n s).card := by
  have apart : Set.InjOn (fun i => (s i).map Prod.fst) (used n s : Set Nat) := by
    intro i memI j memJ eq
    obtain ⟨inI, isSome⟩ : i < n ∧ (s i).isSome := by simpa [used] using memI
    obtain ⟨inJ, -⟩ : j < n ∧ (s j).isSome := by simpa [used] using memJ
    obtain ⟨entry, here⟩ := Option.isSome_iff_exists.mp isSome
    have first : (s i).map Prod.fst = some entry.1 := by rw [here]; rfl
    exact distinct i j entry.1 inI inJ first (eq.symm.trans first)
  rw [← Set.ncard_image_of_injective _ (Option.some_injective κ), domain_image distinct, apart.ncard_image, Set.ncard_coe_finset]

theorem full_iff (distinct : Distinct n s) : n ≤ (domain (toMap n s)).ncard ↔ ∀ i < n, s i ≠ none := by
  have most : (used n s).card ≤ n := by
    have le := Finset.card_filter_le (Finset.range n) fun i => (s i).isSome
    rwa [Finset.card_range] at le
  have all : (used n s).card = (Finset.range n).card ↔ ∀ i ∈ Finset.range n, (s i).isSome := Finset.card_filter_eq_iff
  rw [Finset.card_range] at all
  rw [ncard_domain distinct]
  constructor
  · intro full i inside
    exact Option.isSome_iff_ne_none.mp (all.mp (Nat.le_antisymm most full) i (Finset.mem_range.mpr inside))
  · intro none
    exact (all.mpr fun i mem => Option.isSome_iff_ne_none.mpr (none i (Finset.mem_range.mp mem))).ge

theorem ncard_le (distinct : Distinct n s) : (domain (toMap n s)).ncard ≤ n := by
  rw [ncard_domain distinct]
  have le := Finset.card_filter_le (Finset.range n) fun i => (s i).isSome
  rwa [Finset.card_range] at le

end SlotTable
