import Mos.Kern.VarTable
import Mos.Kern.Boot

namespace Mos

inductive Readable (load : Load) : Word → List (BitVec 8) → Prop where
  | nil {va : Word} : isIllegalVa va = false → load va = 0 → Readable load va []
  | cons {va : Word} {s : List (BitVec 8)} : isIllegalVa va = false → load va ≠ 0 → Readable load (va + 1) s →
      Readable load va (load va :: s)

structure UserString (load : Load) where
  va : Word
  text : List (BitVec 8)
  readable : Readable load va text

inductive VarCall where
  | set (load : Load) (name value : UserString load) (flags : Word) (legal : flags &&& ~~~varAttrs = 0)
  | get (load : Load) (name : UserString load) (buf : Word)
  | unset (load : Load) (name : UserString load)
  | getByIndex (index buf : Word)

def VarCall.run (cur : EnvPtr) (k : Kernel) : VarCall → CallRes
  | .set load name value flags _ => sysSetVar cur load name.va value.va flags k
  | .get load name buf => sysGetVar cur load name.va buf k
  | .unset load name => sysUnsetVar cur load name.va k
  | .getByIndex index buf => sysGetVarByIndex cur index buf k

def UserString.key {load : Load} (s : UserString load) : List (BitVec 8) := s.text.take maxVarNameLen

def UserString.value {load : Load} (s : UserString load) : List (BitVec 8) := s.text.take maxVarValueLen

def VarEntry.readonly (e : VarEntry) : Prop := e.attrs &&& varReadonly ≠ 0

def fieldText (field : List (BitVec 8)) : List (BitVec 8) := field.takeWhile (· ≠ 0)

/-- A `struct Var` with the name and the entry. -/
structure Shows (bytes : List (BitVec 8)) (name : List (BitVec 8)) (entry : VarEntry) : Prop where
  size : bytes.length = varSize
  name : fieldText (bytes.take (maxVarNameLen + 1)) = name
  value : fieldText ((bytes.drop varValue).take (maxVarValueLen + 1)) = entry.value
  flags : bytes.drop 36 = (List.range 4).map fun i => ((varUsed ||| entry.attrs) >>> (8 * i)).setWidth 8

/-- What a call answers and what it makes of the map, where `slots` enumerates the entries. -/
inductive Answers (slots : SlotTable.Slots (List (BitVec 8)) VarEntry) (m : VarMap) :
    VarCall → Word × List Store → VarMap → Prop where
  | setReadonly {load name value flags legal e} : m name.key = some e → e.readonly →
      Answers slots m (.set load name value flags legal) (-ePerm, []) m
  | setValue {load name value flags legal e} : m name.key = some e → ¬ e.readonly →
      Answers slots m (.set load name value flags legal) (0, [])
        (Function.update m name.key (some ⟨value.value, e.attrs ||| flags⟩))
  | setFull {load name value flags legal} : m name.key = none → maxVars ≤ (SlotTable.domain m).ncard →
      Answers slots m (.set load name value flags legal) (-eNoMem, []) m
  | setNew {load name value flags legal} : m name.key = none → (SlotTable.domain m).ncard < maxVars →
      Answers slots m (.set load name value flags legal) (0, []) (Function.update m name.key (some ⟨value.value, flags⟩))
  | getIllegal {load name buf} : isIllegalVaRange buf (BitVec.ofNat 32 varSize) = true →
      Answers slots m (.get load name buf) (-eInval, []) m
  | getNone {load name buf} : isIllegalVaRange buf (BitVec.ofNat 32 varSize) = false → m name.key = none →
      Answers slots m (.get load name buf) (-eVarNotFound, []) m
  | get {load name buf e bytes} : isIllegalVaRange buf (BitVec.ofNat 32 varSize) = false → m name.key = some e →
      Shows bytes name.key e → Answers slots m (.get load name buf) (0, copyOut buf bytes) m
  | unsetNone {load name} : m name.key = none → Answers slots m (.unset load name) (0, []) m
  | unsetReadonly {load name e} : m name.key = some e → e.readonly → Answers slots m (.unset load name) (-ePerm, []) m
  | unset {load name e} : m name.key = some e → ¬ e.readonly →
      Answers slots m (.unset load name) (0, []) (Function.update m name.key none)
  | indexIllegal {index buf} : (maxVars ≤ index.toNat ∨ isIllegalVaRange buf (BitVec.ofNat 32 varSize) = true) →
      Answers slots m (.getByIndex index buf) (-eInval, []) m
  | indexNone {index buf} : index.toNat < maxVars → isIllegalVaRange buf (BitVec.ofNat 32 varSize) = false →
      slots index.toNat = none → Answers slots m (.getByIndex index buf) (-eVarNotFound, []) m
  | index {index buf name e bytes} : index.toNat < maxVars → isIllegalVaRange buf (BitVec.ofNat 32 varSize) = false →
      slots index.toNat = some (name, e) → Shows bytes name e → Answers slots m (.getByIndex index buf) (0, copyOut buf bytes) m

section Call

variable {words : Nat → Word} {i : Nat}

theorem copyIn_string {load : Load} {va : Word} {s : List (BitVec 8)} (readable : Readable load va s) (n : Nat) :
    copyIn load va n = .ok (s.take n) := by
  induction n generalizing va s with
  | zero =>
    rw [copyIn, List.take_zero]
  | succ n ih =>
    cases readable with
    | nil legal ends => rw [copyIn, legal, if_neg Bool.false_ne_true, if_pos ends, List.take_nil]
    | cons legal more later =>
      rw [copyIn, legal, if_neg Bool.false_ne_true, if_neg more, ih later]
      rfl

theorem Readable.nonzero {load : Load} {va : Word} {s : List (BitVec 8)} (readable : Readable load va s) : ∀ b ∈ s, b ≠ 0 := by
  induction readable with
  | nil => simp
  | cons _ more _ ih =>
    intro b mem
    rcases List.mem_cons.mp mem with rfl | mem
    · exact more
    · exact ih b mem

theorem UserString.fits {load : Load} (s : UserString load) (n : Nat) : FitsField (s.text.take n) n :=
  ⟨fun b mem => s.readable.nonzero b (List.mem_of_mem_take mem), List.length_take_le n _⟩

theorem cString_takeWhile (words : Nat → Word) (off n : Nat) :
    cString words off n = fieldText ((List.range n).map fun j => byteAt words (off + j)) := by
  induction n generalizing off with
  | zero => rfl
  | succ n ih =>
    rw [cString, List.range_succ_eq_map, List.map_cons, List.map_map, fieldText, List.takeWhile_cons]
    have first : byteAt words (off + 0) = byteAt words off := rfl
    rw [first]
    by_cases ends : byteAt words off = 0
    · rw [if_pos ends, if_neg (by simp [ends])]
    · rw [if_neg ends, if_pos (decide_eq_true ends), ih, fieldText]
      simp only [Function.comp_def, Nat.add_assoc, Nat.add_comm 1, Nat.succ_eq_add_one]

theorem shows_slot (table : VarTable words) (inside : i < maxVars) (isUsed : varUnused words i = false) :
    Shows (structVar words i) (cString words (varSize * i) (maxVarNameLen + 1))
      ⟨cString words (varSize * i + varValue) (maxVarValueLen + 1), varFlags words i &&& varAttrs⟩ where
  size := by rw [structVar, List.length_map, List.length_range]
  name := by
    rw [cString_takeWhile, structVar, ← List.map_take, List.take_range]
    rfl
  value := by
    have cut : ((List.range varSize).drop varValue).take (maxVarValueLen + 1) =
        (List.range (maxVarValueLen + 1)).map (varValue + ·) := by decide
    rw [cString_takeWhile, structVar, ← List.map_drop, ← List.map_take, cut, List.map_map]
    simp only [Function.comp_def, Nat.add_assoc]
  flags := by
    have cut : (List.range varSize).drop 36 = (List.range 4).map (36 + ·) := by decide
    rw [structVar, ← List.map_drop, cut, List.map_map]
    apply List.map_congr_left
    intro b low
    have last : (varSize * i + (36 + b)) / 4 = varWords * i + 9 := by
      simp only [List.mem_range, varSize, varWords] at low ⊢
      omega
    have place : (varSize * i + (36 + b)) % 4 = b := by
      simp only [List.mem_range, varSize] at low ⊢
      omega
    simp only [Function.comp_apply, byteAt, last, place, ← table.flags i inside isUsed]
    rfl

/-- What a call that returns has answered, and the state behind it. -/
def answered : CallRes → Option ((Word × List Store) × Kernel)
  | .ok r k => some (r, k)
  | .err code k => some ((code, []), k)
  | .stop _ => none

theorem putVars_same (k : Kernel) (vars : Nat) : putVars k vars (k.vm.mem vars) = k := by
  rw [putVars, Function.update_eq_self]
  rfl

theorem attrs_legal {flags : Word} (legal : flags &&& ~~~varAttrs = 0) : flags &&& varAttrs = flags := by
  have split : flags &&& varAttrs ||| flags &&& ~~~varAttrs = flags := by
    rw [← BitVec.and_or_distrib_left, BitVec.or_not_self, BitVec.and_allOnes]
  rw [legal] at split
  exact BitVec.or_zero.symm.trans split

theorem used_or (attrs : Word) : (varUsed ||| attrs) &&& varUsed ≠ 0 := by
  intro zero
  have bit := congrArg (BitVec.getLsbD · 0) zero
  simp [varUsed] at bit

theorem used_or_attrs {attrs : Word} (legal : attrs &&& varAttrs = attrs) : (varUsed ||| attrs) &&& varAttrs = attrs := by
  rw [BitVec.and_comm, BitVec.and_or_distrib_left, BitVec.and_comm varAttrs attrs, legal,
    show varAttrs &&& varUsed = 0#32 by decide, BitVec.zero_or]

theorem table_store (table : VarTable words) {words' : Nat → Word} {name : List (BitVec 8)} {value : List (BitVec 8)} {attrs : Word}
    (inside : i < maxVars) (legal : attrs &&& varAttrs = attrs)
    (slots : varSlots words' = Function.update (varSlots words) i (some (name, ⟨value, attrs⟩)))
    (flags : varFlags words' i = varUsed ||| attrs)
    (others : ∀ j, j ≠ i → varFlags words' j = varFlags words j)
    (only : ∀ j < maxVars, (varSlots words j).map Prod.fst = some name → j = i)
    (place : ∀ entry, varSlots words i = some entry → entry.1 = name) :
    VarTable words' ∧ varMap words' = Function.update (varMap words) name (some ⟨value, attrs⟩) := by
  refine ⟨⟨?_, ?_⟩, ?_⟩
  · rw [slots]
    exact SlotTable.distinct_store table.distinct only
  · intro j inJ isUsed
    by_cases same : j = i
    · subst same
      rw [flags]
      rw [used_or_attrs legal]
    · rw [varUnused, others j same] at isUsed
      rw [others j same]
      exact table.flags j inJ isUsed
  · rw [varMap, slots]
    exact SlotTable.toMap_store table.distinct inside only place

theorem call_answers {cur : EnvPtr} {c : VarCall} {k k' : Kernel} {vars : Nat} {r : Word × List Store}
    (has : (k.envs cur).envVars = some vars) (table : VarTable (k.vm.mem vars)) (ran : answered (c.run cur k) = some (r, k')) :
    ∃ words, k' = putVars k vars words ∧ VarTable words ∧
      Answers (varSlots (k.vm.mem vars)) (varMap (k.vm.mem vars)) c r (varMap words) := by
  have unchanged {r' : Word × List Store} (same : r = r' ∧ k' = k)
      (answer : Answers (varSlots (k.vm.mem vars)) (varMap (k.vm.mem vars)) c r' (varMap (k.vm.mem vars))) :
      ∃ words, k' = putVars k vars words ∧ VarTable words ∧
        Answers (varSlots (k.vm.mem vars)) (varMap (k.vm.mem vars)) c r (varMap words) := by
    obtain ⟨rfl, rfl⟩ := same
    exact ⟨_, (putVars_same _ _).symm, table, answer⟩
  have absent {name : List (BitVec 8)} (missing : findVar (k.vm.mem vars) name = none) : varMap (k.vm.mem vars) name = none := by
    rw [findVar_eq] at missing
    exact SlotTable.toMap_eq_none.mpr missing
  have present {name : List (BitVec 8)} {i : Nat} (found : findVar (k.vm.mem vars) name = some i) :
      varMap (k.vm.mem vars) name = some ⟨cString (k.vm.mem vars) (varSize * i + varValue) (maxVarValueLen + 1),
        varFlags (k.vm.mem vars) i &&& varAttrs⟩ := by
    have isUsed := (findVar_some found).2.1
    rw [findVar_eq] at found
    rw [varMap, SlotTable.toMap_find found, varSlots_used isUsed]
    rfl
  have readonly_iff (i : Nat) : varFlags (k.vm.mem vars) i &&& varAttrs &&& varReadonly = varFlags (k.vm.mem vars) i &&& varReadonly := by
    rw [BitVec.and_assoc, show varAttrs &&& varReadonly = varReadonly by decide]
  cases c with
  | set load name value flags legal =>
    simp only [VarCall.run, sysSetVar, copyIn_string name.readable, copyIn_string value.readable, tryCopy, withVars, has] at ran
    cases found : findVar (k.vm.mem vars) (name.text.take maxVarNameLen) with
    | some i =>
      rw [found] at ran
      dsimp only at ran
      obtain ⟨inside, isUsed, named⟩ := findVar_some found
      by_cases readonly : varFlags (k.vm.mem vars) i &&& varReadonly ≠ 0
      · rw [if_pos readonly] at ran
        cases ran
        refine unchanged ⟨rfl, rfl⟩ (.setReadonly (present found) ?_)
        rwa [VarEntry.readonly, readonly_iff]
      · rw [if_neg readonly] at ran
        cases ran
        have kept : varFlags (setBytes (k.vm.mem vars) (varSize * i + varValue) (value.text.take maxVarValueLen ++ [0])) i =
            varFlags (k.vm.mem vars) i := flags_setBytes (value.fits maxVarValueLen) _
        have attrs : varFlags (k.vm.mem vars) i ||| flags &&& (varExport ||| varReadonly) =
            varUsed ||| (varFlags (k.vm.mem vars) i &&& varAttrs ||| flags) := by
          have legal' : flags &&& (varExport ||| varReadonly) = flags := attrs_legal legal
          rw [legal', ← BitVec.or_assoc, ← table.flags i inside isUsed]
        have masked : (varFlags (k.vm.mem vars) i &&& varAttrs ||| flags) &&& varAttrs =
            varFlags (k.vm.mem vars) i &&& varAttrs ||| flags := by
          rw [BitVec.and_comm, BitVec.and_or_distrib_left, BitVec.and_comm varAttrs flags, attrs_legal legal,
            BitVec.and_comm (varFlags (k.vm.mem vars) i), ← BitVec.and_assoc, BitVec.and_self]
        rw [kept, attrs]
        have slots := varSlots_set (i := i) (value.fits maxVarValueLen) (k.vm.mem vars)
          (used_or (varFlags (k.vm.mem vars) i &&& varAttrs ||| flags))
        rw [named, used_or_attrs masked] at slots
        obtain ⟨table', map'⟩ := table_store table inside masked slots (Function.update_self _ _ _)
          (fun j other => other_value (value.fits maxVarValueLen) _ _ _ (by simp only [varWords]; omega))
          (fun j inJ has => by
            rw [findVar_eq] at found
            exact table.distinct j i _ inJ inside has (SlotTable.find_some found).2)
          (fun entry here => by
            rw [varSlots_used isUsed, named] at here
            cases here
            rfl)
        refine ⟨_, rfl, table', ?_⟩
        rw [map']
        refine .setValue (present found) ?_
        rwa [VarEntry.readonly, readonly_iff]
    | none =>
      rw [found] at ran
      dsimp only at ran
      have missing := found
      rw [findVar_eq, SlotTable.find_none] at missing
      cases free : (List.range maxVars).find? (varUnused (k.vm.mem vars)) with
      | none =>
        rw [free] at ran
        cases ran
        refine unchanged ⟨rfl, rfl⟩ (.setFull (absent found) ((SlotTable.full_iff table.distinct).mpr ?_))
        intro i inside unused
        exact List.find?_eq_none.mp free i (List.mem_range.mpr inside) (varSlots_none.mp unused)
      | some i =>
        rw [free] at ran
        cases ran
        have inside : i < maxVars := List.mem_range.mp (List.mem_of_find?_eq_some free)
        have unused : varSlots (k.vm.mem vars) i = none := varSlots_none.mpr (List.find?_some free)
        have slots := varSlots_new (i := i) (name.fits maxVarNameLen) (value.fits maxVarValueLen) (k.vm.mem vars) (used_or flags)
        rw [used_or_attrs (attrs_legal legal)] at slots
        obtain ⟨table', map'⟩ := table_store table inside (attrs_legal legal) slots (Function.update_self _ _ _)
          (fun j other => by
            have apart : varWords * j + 9 < varWords * i ∨ varWords * i + varWords ≤ varWords * j + 9 := by
              simp only [varWords]
              omega
            rw [varFlags, other_value (value.fits maxVarValueLen) _ _ _ apart, name_setBytes (name.fits maxVarNameLen) _ _ apart]
            rfl)
          (fun j inJ has => absurd has (missing j inJ))
          (fun entry here => by
            rw [unused] at here
            cases here)
        refine ⟨_, rfl, table', ?_⟩
        rw [map']
        refine .setNew (absent found) (Nat.lt_of_not_le fun full => ?_)
        exact (SlotTable.full_iff table.distinct).mp full i inside unused
  | get load name buf =>
    simp only [VarCall.run, sysGetVar, copyIn_string name.readable, tryCopy, withVars, has] at ran
    cases illegal : isIllegalVaRange buf (BitVec.ofNat 32 varSize) with
    | true =>
      rw [illegal, if_pos rfl] at ran
      cases ran
      exact unchanged ⟨rfl, rfl⟩ (.getIllegal illegal)
    | false =>
      rw [illegal, if_neg Bool.false_ne_true] at ran
      cases found : findVar (k.vm.mem vars) (name.text.take maxVarNameLen) with
      | none =>
        rw [found] at ran
        cases ran
        exact unchanged ⟨rfl, rfl⟩ (.getNone illegal (absent found))
      | some i =>
        rw [found] at ran
        cases ran
        obtain ⟨inside, isUsed, named⟩ := findVar_some found
        refine unchanged ⟨rfl, rfl⟩ (.get illegal (present found) ?_)
        have shows := shows_slot table inside isUsed
        rwa [named] at shows
  | unset load name =>
    simp only [VarCall.run, sysUnsetVar, copyIn_string name.readable, tryCopy, withVars, has] at ran
    cases found : findVar (k.vm.mem vars) (name.text.take maxVarNameLen) with
    | none =>
      rw [found] at ran
      cases ran
      exact unchanged ⟨rfl, rfl⟩ (.unsetNone (absent found))
    | some i =>
      rw [found] at ran
      dsimp only at ran
      by_cases readonly : varFlags (k.vm.mem vars) i &&& varReadonly ≠ 0
      · rw [if_pos readonly] at ran
        cases ran
        refine unchanged ⟨rfl, rfl⟩ (.unsetReadonly (present found) ?_)
        rwa [VarEntry.readonly, readonly_iff]
      · rw [if_neg readonly] at ran
        cases ran
        rw [findVar_eq] at found
        have slots := varSlots_unset (i := i) (k.vm.mem vars)
        refine ⟨_, rfl, ⟨?_, ?_⟩, ?_⟩
        · rw [slots]
          exact SlotTable.distinct_erase table.distinct
        · intro j inside isUsed
          have other : varWords * j + 9 ≠ varWords * i + 9 := by
            intro same
            rw [varUnused, varFlags, same, Function.update_self] at isUsed
            exact absurd isUsed (by decide)
          rw [varUnused, varFlags, Function.update_of_ne other] at isUsed
          rw [varFlags, Function.update_of_ne other]
          exact table.flags j inside isUsed
        · have erased : varMap (Function.update (k.vm.mem vars) (varWords * i + 9) 0) =
              Function.update (varMap (k.vm.mem vars)) name.key none := by
            rw [varMap, slots]
            exact SlotTable.toMap_erase table.distinct found
          rw [← findVar_eq] at found
          rw [erased]
          refine .unset (present found) ?_
          rwa [VarEntry.readonly, readonly_iff]
  | getByIndex index buf =>
    simp only [VarCall.run, sysGetVarByIndex, withVars, has] at ran
    by_cases high : BitVec.ofNat 32 maxVars ≤ index
    · rw [if_pos high] at ran
      cases ran
      exact unchanged ⟨rfl, rfl⟩ (.indexIllegal (Or.inl high))
    · rw [if_neg high] at ran
      have inside : index.toNat < maxVars := Nat.lt_of_not_le high
      cases illegal : isIllegalVaRange buf (BitVec.ofNat 32 varSize) with
      | true =>
        rw [illegal, if_pos rfl] at ran
        cases ran
        exact unchanged ⟨rfl, rfl⟩ (.indexIllegal (Or.inr illegal))
      | false =>
        rw [illegal, if_neg Bool.false_ne_true] at ran
        cases isUsed : varUnused (k.vm.mem vars) index.toNat with
        | true =>
          rw [isUsed, if_pos rfl] at ran
          cases ran
          exact unchanged ⟨rfl, rfl⟩ (.indexNone inside illegal (varSlots_none.mpr isUsed))
        | false =>
          rw [isUsed, if_neg Bool.false_ne_true] at ran
          cases ran
          exact unchanged ⟨rfl, rfl⟩ (.index inside illegal (varSlots_used isUsed) (shows_slot table inside isUsed))

end Call

abbrev VarMaps := EnvPtr → Option VarMap

def Kernel.varMaps (k : Kernel) : VarMaps := fun e =>
  if (k.envs e).envStatus = .free then none else (k.envs e).envVars.map fun vars => varMap (k.vm.mem vars)

/-- The first `maxVars` slots hold the entries of the map, each once. -/
structure Enumerates (slots : SlotTable.Slots (List (BitVec 8)) VarEntry) (m : VarMap) : Prop where
  entries : ∀ name e, m name = some e ↔ ∃ i < maxVars, slots i = some (name, e)
  once : SlotTable.Distinct maxVars slots

/-- What happens to the maps: a call of `cur` with its answer, a fork, a new env without a parent, the end of an env. -/
inductive VarEvent where
  | call (cur : EnvPtr) (c : VarCall) (r : Word × List Store)
  | fork (cur child : EnvPtr)
  | create (e : EnvPtr)
  | reap (e : EnvPtr)
  | quiet

inductive MapStep (maps : VarMaps) : VarEvent → VarMaps → Prop where
  | call {cur : EnvPtr} {c : VarCall} {m m' : VarMap} {r : Word × List Store}
      {slots : SlotTable.Slots (List (BitVec 8)) VarEntry} : maps cur = some m → Enumerates slots m → Answers slots m c r m' →
      MapStep maps (.call cur c r) (Function.update maps cur (some m'))
  | fork {cur child : EnvPtr} {m : VarMap} : maps cur = some m → maps child = none →
      MapStep maps (.fork cur child) (Function.update maps child (some m.exported))
  | create {e : EnvPtr} : maps e = none → MapStep maps (.create e) (Function.update maps e (some fun _ => none))
  | reap {e : EnvPtr} : MapStep maps (.reap e) (Function.update maps e none)
  | quiet : MapStep maps .quiet maps

inductive MapRun (maps : VarMaps) : List VarEvent → VarMaps → Prop where
  | nil : MapRun maps [] maps
  | snoc {maps' maps'' : VarMaps} {events : List VarEvent} {ev : VarEvent} : MapRun maps events maps' →
      MapStep maps' ev maps'' → MapRun maps (events ++ [ev]) maps''

theorem VarTable.enumerates {words : Nat → Word} (table : VarTable words) : Enumerates (varSlots words) (varMap words) :=
  ⟨fun _ _ => SlotTable.toMap_eq_some table.distinct, table.distinct⟩

section Maps

variable {slots : SlotTable.Slots (List (BitVec 8)) VarEntry} {m m' : VarMap} {c : VarCall} {r : Word × List Store}

theorem Answers.failed (answers : Answers slots m c r m') (failed : r.1 ≠ 0) : m' = m := by
  cases answers
  all_goals first
    | rfl
    | exact absurd rfl failed

/-- `sys_set_var` finds no memory for a new key in a full map, and in no other case. -/
theorem Answers.noMem_iff {load : Load} {name value : UserString load} {flags : Word} {legal : flags &&& ~~~varAttrs = 0}
    (answers : Answers slots m (.set load name value flags legal) r m') :
    r.1 = -eNoMem ↔ m name.key = none ∧ maxVars ≤ (SlotTable.domain m).ncard := by
  cases answers with
  | setReadonly has _ => exact iff_of_false (by decide) fun new => by rw [has] at new; cases new.1
  | setValue has _ => exact iff_of_false (by decide) fun new => by rw [has] at new; cases new.1
  | setFull new full => exact iff_of_true rfl ⟨new, full⟩
  | setNew _ room => exact iff_of_false (by decide) fun full => Nat.not_le_of_lt room full.2

theorem Answers.readonly (answers : Answers slots m c r m') {name : List (BitVec 8)} {e : VarEntry} (has : m name = some e)
    (readonly : e.readonly) : m' name = some e := by
  have kept {key : List (BitVec 8)} {entry : Option VarEntry} (other : ∀ e, m key = some e → ¬ e.readonly) :
      Function.update m key entry name = some e := by
    rw [Function.update_of_ne, has]
    rintro rfl
    exact other e has readonly
  cases answers with
  | setValue here free => exact kept fun e' has' => by cases here.symm.trans has'; exact free
  | setNew new _ => exact kept fun e' has' => by rw [new] at has'; cases has'
  | unset here free => exact kept fun e' has' => by cases here.symm.trans has'; exact free
  | _ => exact has

theorem MapStep.readonly {maps maps' : VarMaps} {ev : VarEvent} (step : MapStep maps ev maps') {env : EnvPtr}
    (stays : ev ≠ .reap env) {m : VarMap} {name : List (BitVec 8)} {e : VarEntry} (here : maps env = some m)
    (has : m name = some e) (readonly : e.readonly) : ∃ m', maps' env = some m' ∧ m' name = some e := by
  cases step with
  | @call b c m1 m2 r slots there _ answers =>
    by_cases same : env = b
    · subst same
      cases here.symm.trans there
      exact ⟨m2, Function.update_self _ _ _, answers.readonly has readonly⟩
    · exact ⟨m, (Function.update_of_ne same _ _).trans here, has⟩
  | @fork b child m1 _ free =>
    have other : env ≠ child := by
      rintro rfl
      cases free.symm.trans here
    exact ⟨m, (Function.update_of_ne other _ _).trans here, has⟩
  | @create b free =>
    have other : env ≠ b := by
      rintro rfl
      cases free.symm.trans here
    exact ⟨m, (Function.update_of_ne other _ _).trans here, has⟩
  | @reap b =>
    have other : env ≠ b := fun eq => stays (eq ▸ rfl)
    exact ⟨m, (Function.update_of_ne other _ _).trans here, has⟩
  | quiet => exact ⟨m, here, has⟩

/-- A read-only entry stays as long as its env. -/
theorem MapRun.readonly {maps maps' : VarMaps} {events : List VarEvent} (run : MapRun maps events maps') {env : EnvPtr}
    (stays : VarEvent.reap env ∉ events) {m : VarMap} {name : List (BitVec 8)} {e : VarEntry} (here : maps env = some m)
    (has : m name = some e) (readonly : e.readonly) : ∃ m', maps' env = some m' ∧ m' name = some e := by
  induction run with
  | nil => exact ⟨m, here, has⟩
  | snoc run step ih =>
    obtain ⟨m', here', has'⟩ := ih fun there => stays (List.mem_append_left _ there)
    refine step.readonly (fun eq => stays ?_) here' has' readonly
    rw [eq]
    exact List.mem_append_right _ List.mem_cons_self

end Maps

theorem varUnused_zero (i : Nat) : varUnused (fun _ => 0) i = true := by simp [varUnused, varFlags]

theorem emptyTable : VarTable fun _ => 0 := by
  refine ⟨?_, ?_⟩
  · intro i j key _ _ has
    rw [varSlots_none.mpr (varUnused_zero i)] at has
    cases has
  · intro i _ isUsed
    rw [varUnused_zero i] at isUsed
    cases isUsed

theorem emptyMap : varMap (fun _ => 0) = fun _ => none := by
  funext name
  refine SlotTable.toMap_eq_none.mpr (SlotTable.find_none.mpr fun i _ has => ?_)
  rw [varSlots_none.mpr (varUnused_zero i)] at has
  cases has

end Mos
