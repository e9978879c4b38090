import Mos.Kern.Vars
import Mos.Lib.SlotTable

namespace Mos

structure VarEntry where
  value : List (BitVec 8)
  attrs : Word
deriving DecidableEq

def varAttrs : Word := varExport ||| varReadonly

def varSlots (words : Nat → Word) : SlotTable.Slots (List (BitVec 8)) VarEntry := fun i =>
  if varUnused words i then none
  else some (cString words (varSize * i) (maxVarNameLen + 1),
    ⟨cString words (varSize * i + varValue) (maxVarValueLen + 1), varFlags words i &&& varAttrs⟩)

/-- The map that the table stands for. -/
abbrev VarMap := List (BitVec 8) → Option VarEntry

def varMap (words : Nat → Word) : VarMap := SlotTable.toMap maxVars (varSlots words)

/-- The names are distinct, and the flags of a slot in use are `VAR_USED` and attributes. -/
structure VarTable (words : Nat → Word) : Prop where
  distinct : SlotTable.Distinct maxVars (varSlots words)
  flags : ∀ i < maxVars, varUnused words i = false → varFlags words i = varUsed ||| (varFlags words i &&& varAttrs)

section Slots

variable {words words' : Nat → Word} {i : Nat}

theorem findVar_eq (words : Nat → Word) (name : List (BitVec 8)) :
    findVar words name = SlotTable.find maxVars (varSlots words) name := by
  unfold findVar SlotTable.find
  congr 1
  funext i
  cases unused : varUnused words i <;> simp [varSlots, unused]

theorem varSlots_none : varSlots words i = none ↔ varUnused words i = true := by
  cases unused : varUnused words i <;> simp [varSlots, unused]

theorem varSlots_congr (same : ∀ w, varWords * i ≤ w → w < varWords * i + varWords → words w = words' w) :
    varSlots words i = varSlots words' i := by
  have flags : varFlags words i = varFlags words' i := same _ (Nat.le_add_right _ _) (by simp [varWords])
  have bytes (off : Nat) (inside : off < varSize) : byteAt words (varSize * i + off) = byteAt words' (varSize * i + off) := by
    rw [byteAt, byteAt, same]
    · simp only [varWords, varSize] at inside ⊢
      omega
    · simp only [varWords, varSize] at inside ⊢
      omega
  have name : cString words (varSize * i) (maxVarNameLen + 1) = cString words' (varSize * i) (maxVarNameLen + 1) :=
    cString_congr fun j inside => bytes j (by simp only [varSize, maxVarNameLen] at inside ⊢; omega)
  have value : cString words (varSize * i + varValue) (maxVarValueLen + 1) =
      cString words' (varSize * i + varValue) (maxVarValueLen + 1) := by
    apply cString_congr
    intro j inside
    rw [Nat.add_assoc]
    exact bytes _ (by simp only [varSize, varValue, maxVarValueLen] at inside ⊢; omega)
  unfold varSlots varUnused
  rw [flags, name, value]

theorem varSlots_update {entry : Option (List (BitVec 8) × VarEntry)} (here : varSlots words' i = entry)
    (others : ∀ w, (w < varWords * i ∨ varWords * i + varWords ≤ w) → words' w = words w) :
    varSlots words' = Function.update (varSlots words) i entry := by
  funext j
  by_cases same : j = i
  · subst same
    rw [Function.update_self, here]
  · rw [Function.update_of_ne same]
    apply varSlots_congr
    intro w low high
    apply others
    simp only [varWords] at low high ⊢
    omega

variable {name value : List (BitVec 8)}

/-- What `copyIn` gives for a field of `n` bytes. -/
structure FitsField (text : List (BitVec 8)) (n : Nat) : Prop where
  nonzero : ∀ b ∈ text, b ≠ 0
  short : text.length ≤ n

theorem cString_setBytes {text : List (BitVec 8)} {n : Nat} (fits : FitsField text n) (words : Nat → Word) (off : Nat) :
    cString (setBytes words off (text ++ [0])) off (n + 1) = text := by
  apply cString_eq fits.nonzero (Nat.lt_succ_of_le fits.short)
  intro j inside
  rw [byteAt_setBytes, if_pos, Nat.add_sub_cancel_left]
  rw [List.length_append, List.length_singleton]
  omega

theorem slot_value (fits : FitsField value maxVarValueLen) (words : Nat → Word) (flags : Word) (isUsed : flags &&& varUsed ≠ 0) :
    varSlots (Function.update (setBytes words (varSize * i + varValue) (value ++ [0])) (varWords * i + 9) flags) i =
      some (cString words (varSize * i) (maxVarNameLen + 1), ⟨value, flags &&& varAttrs⟩) := by
  have stored : varFlags (Function.update (setBytes words (varSize * i + varValue) (value ++ [0])) (varWords * i + 9) flags) i =
      flags := Function.update_self _ _ _
  have isUsed' : varUnused (Function.update (setBytes words (varSize * i + varValue) (value ++ [0])) (varWords * i + 9) flags) i =
      false := by
    rw [varUnused, stored]
    exact decide_eq_false isUsed
  have name : cString (Function.update (setBytes words (varSize * i + varValue) (value ++ [0])) (varWords * i + 9) flags)
      (varSize * i) (maxVarNameLen + 1) = cString words (varSize * i) (maxVarNameLen + 1) := by
    apply cString_congr
    intro j inside
    rw [byteAt_update, byteAt_setBytes, if_neg]
    · simp only [varValue, maxVarNameLen] at inside ⊢
      omega
    · simp only [varSize, varWords, maxVarNameLen] at inside ⊢
      omega
  have value' : cString (Function.update (setBytes words (varSize * i + varValue) (value ++ [0])) (varWords * i + 9) flags)
      (varSize * i + varValue) (maxVarValueLen + 1) = value := by
    rw [← cString_setBytes fits words (varSize * i + varValue)]
    apply cString_congr
    intro j inside
    rw [byteAt_update, cString_setBytes fits]
    simp only [varSize, varWords, varValue, maxVarValueLen] at inside ⊢
    omega
  rw [varSlots, isUsed', if_neg Bool.false_ne_true, name, value', stored]

theorem other_value (fits : FitsField value maxVarValueLen) (words : Nat → Word) (flags : Word) (w : Nat)
    (other : w < varWords * i ∨ varWords * i + varWords ≤ w) :
    Function.update (setBytes words (varSize * i + varValue) (value ++ [0])) (varWords * i + 9) flags w = words w := by
  have short := fits.short
  rw [Function.update_of_ne, setBytes_word]
  · intro j inside
    simp only [List.length_append, List.length_singleton, varSize, varWords, varValue, maxVarValueLen] at *
    omega
  · simp only [varWords] at other ⊢
    omega

theorem flags_setBytes (fits : FitsField value maxVarValueLen) (words : Nat → Word) :
    varFlags (setBytes words (varSize * i + varValue) (value ++ [0])) i = varFlags words i := by
  have short := fits.short
  rw [varFlags, setBytes_word]
  · rfl
  · intro j inside
    simp only [List.length_append, List.length_singleton, varSize, varWords, varValue, maxVarValueLen] at *
    omega

theorem name_setBytes (fits : FitsField name maxVarNameLen) (words : Nat → Word) (w : Nat)
    (other : w < varWords * i ∨ varWords * i + varWords ≤ w) : setBytes words (varSize * i) (name ++ [0]) w = words w := by
  have short := fits.short
  rw [setBytes_word]
  intro j inside
  simp only [List.length_append, List.length_singleton, varSize, varWords, maxVarNameLen] at *
  omega

theorem varSlots_set (fits : FitsField value maxVarValueLen) (words : Nat → Word) {flags : Word} (isUsed : flags &&& varUsed ≠ 0) :
    varSlots (Function.update (setBytes words (varSize * i + varValue) (value ++ [0])) (varWords * i + 9) flags) =
      Function.update (varSlots words) i
        (some (cString words (varSize * i) (maxVarNameLen + 1), ⟨value, flags &&& varAttrs⟩)) :=
  varSlots_update (slot_value fits words flags isUsed) (other_value fits words flags)

theorem varSlots_new (fitsName : FitsField name maxVarNameLen) (fits : FitsField value maxVarValueLen) (words : Nat → Word) {flags : Word}
    (isUsed : flags &&& varUsed ≠ 0) :
    varSlots (Function.update (setBytes (setBytes words (varSize * i) (name ++ [0])) (varSize * i + varValue) (value ++ [0]))
        (varWords * i + 9) flags) =
      Function.update (varSlots words) i (some (name, ⟨value, flags &&& varAttrs⟩)) := by
  apply varSlots_update
  · rw [slot_value fits _ flags isUsed, cString_setBytes fitsName]
  · intro w other
    rw [other_value fits _ flags w other, name_setBytes fitsName words w other]

theorem varSlots_unset (words : Nat → Word) :
    varSlots (Function.update words (varWords * i + 9) 0) = Function.update (varSlots words) i none := by
  apply varSlots_update
  · rw [varSlots_none, varUnused]
    have zero : varFlags (Function.update words (varWords * i + 9) 0) i = 0 := Function.update_self _ _ _
    rw [zero]
    decide
  · intro w other
    rw [Function.update_of_ne]
    simp only [varWords] at other ⊢
    omega

theorem varSlots_used (isUsed : varUnused words i = false) :
    varSlots words i = some (cString words (varSize * i) (maxVarNameLen + 1),
      ⟨cString words (varSize * i + varValue) (maxVarValueLen + 1), varFlags words i &&& varAttrs⟩) := by
  rw [varSlots, isUsed, if_neg Bool.false_ne_true]

theorem findVar_some (found : findVar words name = some i) :
    i < maxVars ∧ varUnused words i = false ∧ cString words (varSize * i) (maxVarNameLen + 1) = name := by
  have inside := List.mem_range.mp (List.mem_of_find?_eq_some found)
  have here := List.find?_some found
  simp only [Bool.and_eq_true, Bool.not_eq_true', decide_eq_true_eq] at here
  exact ⟨inside, here⟩

theorem inheritVars_slot (parent : Nat → Word) (inside : i < maxVars) :
    varSlots (inheritVars parent fun _ => 0) i = (varSlots parent i).filter fun entry => entry.2.attrs &&& varExport ≠ 0 := by
  have word (w : Nat) (low : varWords * i ≤ w) (high : w < varWords * i + varWords) :
      inheritVars parent (fun _ => 0) w =
        if varFlags parent i &&& varUsed ≠ 0 ∧ varFlags parent i &&& varExport ≠ 0 then parent w else 0 := by
    have index : w / varWords = i := by
      simp only [varWords] at low high ⊢
      omega
    have within : w < maxVars * varWords := by
      simp only [varWords, maxVars] at inside low high ⊢
      omega
    by_cases exported : varFlags parent i &&& varUsed ≠ 0 ∧ varFlags parent i &&& varExport ≠ 0
    · rw [if_pos exported, inheritVars, index]
      exact if_pos ⟨within, exported⟩
    · rw [if_neg exported, inheritVars, index]
      exact if_neg fun all => exported all.2
  have masked : varFlags parent i &&& varAttrs &&& varExport = varFlags parent i &&& varExport := by
    rw [BitVec.and_assoc, show varAttrs &&& varExport = varExport by decide]
  by_cases exported : varFlags parent i &&& varUsed ≠ 0 ∧ varFlags parent i &&& varExport ≠ 0
  · have copied : varSlots (inheritVars parent fun _ => 0) i = varSlots parent i := by
      apply varSlots_congr
      intro w low high
      rw [word w low high, if_pos exported]
    have isUsed : varUnused parent i = false := decide_eq_false exported.1
    rw [copied, varSlots_used isUsed, Option.filter_some, if_pos]
    simp only [masked]
    exact decide_eq_true exported.2
  · have flags : varFlags (inheritVars parent fun _ => 0) i = 0 := by
      rw [varFlags, word _ (Nat.le_add_right _ _) (by simp [varWords]), if_neg exported]
    have none : varSlots (inheritVars parent fun _ => 0) i = none := by
      rw [varSlots_none, varUnused, flags]
      decide
    rw [none]
    by_cases isUsed : varFlags parent i &&& varUsed = 0
    · have unused : varSlots parent i = Option.none := varSlots_none.mpr (decide_eq_true isUsed)
      rw [unused]
      rfl
    · have noExport : varFlags parent i &&& varExport = 0 := by
        by_contra export'
        exact exported ⟨isUsed, export'⟩
      rw [varSlots_used (decide_eq_false isUsed), Option.filter_some, if_neg]
      simp [masked, noExport]

def VarMap.exported (m : VarMap) : VarMap := fun key => (m key).filter fun entry => entry.attrs &&& varExport ≠ 0

theorem inheritVars_table {parent : Nat → Word} (table : VarTable parent) :
    VarTable (inheritVars parent fun _ => 0) ∧ varMap (inheritVars parent fun _ => 0) = (varMap parent).exported := by
  have slots : ∀ i < maxVars, (varSlots parent i).filter (fun entry => entry.2.attrs &&& varExport ≠ 0) =
      varSlots (inheritVars parent fun _ => 0) i := fun i inside => (inheritVars_slot parent inside).symm
  refine ⟨⟨SlotTable.distinct_congr slots (SlotTable.distinct_filter table.distinct _), ?_⟩, ?_⟩
  · intro i inside isUsed
    have index : (varWords * i + 9) / varWords = i := by
      simp only [varWords]
      omega
    have within : varWords * i + 9 < maxVars * varWords := by
      simp only [varWords, maxVars] at inside ⊢
      omega
    by_cases exported : varFlags parent i &&& varUsed ≠ 0 ∧ varFlags parent i &&& varExport ≠ 0
    · have flags : varFlags (inheritVars parent fun _ => 0) i = varFlags parent i := by
        have exported' := exported
        unfold varFlags at exported' ⊢
        simp only [inheritVars, index, within, true_and, if_pos exported']
      rw [flags]
      exact table.flags i inside (decide_eq_false exported.1)
    · have flags : varFlags (inheritVars parent fun _ => 0) i = 0 := by
        have exported' := exported
        unfold varFlags at exported' ⊢
        simp only [inheritVars, index, within, true_and, if_neg exported']
      rw [varUnused, flags] at isUsed
      exact absurd isUsed (by decide)
  · rw [varMap, ← SlotTable.toMap_congr slots]
    exact SlotTable.toMap_filter table.distinct fun entry => decide (entry.attrs &&& varExport ≠ 0)

end Slots

end Mos
