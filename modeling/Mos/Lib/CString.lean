import Mathlib.Logic.Function.Basic
import Mathlib.Data.List.GetD
import Mathlib.Tactic.Common

/-! Strings in an array that a character `z` ends, and the loops that copy them. -/

namespace CStr

variable {α : Type}

section Copy

/-- The characters `l` are stored from `d` on. -/
def storeAll (m : Nat → α) (d : Nat) : List α → Nat → α
  | [] => m
  | c :: l => storeAll (Function.update m d c) (d + 1) l

theorem storeAll_apply (m : Nat → α) (d : Nat) (l : List α) (i : Nat) :
    storeAll m d l i = if d ≤ i then l.getD (i - d) (m i) else m i := by
  induction l generalizing m d with
  | nil => simp [storeAll]
  | cons c l ih =>
    rw [storeAll, ih]
    rcases Nat.lt_trichotomy i d with less | rfl | more
    · have apart : i ≠ d := Nat.ne_of_lt less
      rw [if_neg (by omega), if_neg (by omega), Function.update_of_ne apart]
    · rw [if_neg (by omega), if_pos (Nat.le_refl i), Nat.sub_self, Function.update_self, List.getD_cons_zero]
    · have apart : i ≠ d := Nat.ne_of_gt more
      have place : i - d = i - (d + 1) + 1 := by omega
      rw [if_pos (by omega), if_pos (by omega), Function.update_of_ne apart, place, List.getD_cons_succ]

def copyForward (m : Nat → α) (d s : Nat) : Nat → Nat → α
  | 0 => m
  | n + 1 => copyForward (Function.update m d (m s)) (d + 1) (s + 1) n

def copyBackward (m : Nat → α) (d s : Nat) : Nat → Nat → α
  | 0 => m
  | n + 1 => copyBackward (Function.update m (d + n) (m (s + n))) d s n

/-- `memmove` inside an array. -/
def memmove (m : Nat → α) (d s n : Nat) : Nat → α :=
  if s < d ∧ d < s + n then copyBackward m d s n else copyForward m d s n

theorem copyForward_apply {m : Nat → α} {d s n : Nat} (safe : d ≤ s ∨ s + n ≤ d) (i : Nat) :
    copyForward m d s n i = if d ≤ i ∧ i < d + n then m (s + (i - d)) else m i := by
  induction n generalizing m d s with
  | zero => rw [if_neg (by omega), copyForward]
  | succ n ih =>
    rw [copyForward, ih (by omega)]
    rcases Nat.lt_trichotomy i d with less | rfl | more
    · rw [if_neg (by omega), if_neg (by omega), Function.update_of_ne (Nat.ne_of_lt less)]
    · rw [if_neg (by omega), if_pos (by omega), Function.update_self, Nat.sub_self, Nat.add_zero]
    · have place : s + 1 + (i - (d + 1)) = s + (i - d) := by omega
      rw [Function.update_of_ne (Nat.ne_of_gt more), place]
      by_cases inside : i < d + (n + 1)
      · have apart : s + (i - d) ≠ d := by omega
        rw [if_pos (by omega), if_pos ⟨Nat.le_of_lt more, inside⟩, Function.update_of_ne apart]
      · rw [if_neg (by omega), if_neg fun both => inside both.2]

theorem copyBackward_apply {m : Nat → α} {d s n : Nat} (safe : s ≤ d ∨ d + n ≤ s) (i : Nat) :
    copyBackward m d s n i = if d ≤ i ∧ i < d + n then m (s + (i - d)) else m i := by
  induction n generalizing m with
  | zero => rw [if_neg (by omega), copyBackward]
  | succ n ih =>
    rw [copyBackward, ih (by omega)]
    by_cases inside : d ≤ i ∧ i < d + n
    · have apart : s + (i - d) ≠ d + n := by omega
      rw [if_pos inside, if_pos (by omega), Function.update_of_ne apart]
    · rw [if_neg inside]
      by_cases last : i = d + n
      · have place : s + (i - d) = s + n := by omega
        rw [if_pos (by omega), last, Function.update_self, ← last, place]
      · rw [if_neg (by omega), Function.update_of_ne last]

theorem memmove_apply (m : Nat → α) (d s n i : Nat) :
    memmove m d s n i = if d ≤ i ∧ i < d + n then m (s + (i - d)) else m i := by
  unfold memmove
  split
  · exact copyBackward_apply (by omega) i
  · exact copyForward_apply (by omega) i

end Copy

/-- The string `t` lies at `p`. -/
structure At (z : α) (m : Nat → α) (p : Nat) (t : List α) : Prop where
  char : ∀ i ≤ t.length, m (p + i) = t.getD i z
  free : z ∉ t

section At

variable {z : α} {m m' : Nat → α} {p : Nat} {t : List α}

theorem At.ends (lies : At z m p t) : m (p + t.length) = z := by
  rw [lies.char _ (Nat.le_refl _), List.getD_eq_default _ _ (Nat.le_refl _)]

theorem At.get (lies : At z m p t) {i : Nat} (less : i < t.length) : t[i]? = some (m (p + i)) := by
  rw [lies.char i (Nat.le_of_lt less), List.getD_eq_getElem?_getD, List.getElem?_eq_getElem less, Option.getD_some]

theorem At.nonzero (lies : At z m p t) {i : Nat} (less : i < t.length) : m (p + i) ≠ z := by
  intro zero
  have found := lies.get less
  rw [zero] at found
  exact lies.free (List.mem_of_getElem? found)

theorem At.empty (lies : At z m p []) : m p = z := lies.ends

theorem at_nil (zero : m p = z) : At z m p [] := by
  refine ⟨fun i le => ?_, List.not_mem_nil⟩
  obtain rfl := Nat.le_zero.mp le
  exact zero

theorem At.head {c : α} (lies : At z m p (c :: t)) : m p = c := lies.char 0 (Nat.zero_le _)

theorem At.head_ne {c : α} (lies : At z m p (c :: t)) : c ≠ z := fun eq => lies.free (by rw [eq]; exact List.mem_cons_self)

/-- A string depends on no other places. -/
theorem At.congr (lies : At z m p t) (same : ∀ i ≤ t.length, m' (p + i) = m (p + i)) : At z m' p t :=
  ⟨fun i le => (same i le).trans (lies.char i le), lies.free⟩

theorem At.tail {c : α} (lies : At z m p (c :: t)) : At z m (p + 1) t := by
  refine ⟨fun i le => ?_, fun mem => lies.free (List.mem_cons_of_mem c mem)⟩
  have next := lies.char (i + 1) (by rw [List.length_cons]; omega)
  rwa [List.getD_cons_succ, Nat.add_comm i 1, ← Nat.add_assoc] at next

theorem At.drop (lies : At z m p t) {n : Nat} (le : n ≤ t.length) : At z m (p + n) (t.drop n) := by
  refine ⟨fun i small => ?_, fun mem => lies.free (List.mem_of_mem_drop mem)⟩
  rw [List.length_drop] at small
  rw [Nat.add_assoc, lies.char (n + i) (by omega), List.getD_eq_getElem?_getD, List.getD_eq_getElem?_getD,
    List.getElem?_drop]

theorem At.cut (lies : At z m p t) {n : Nat} (le : n ≤ t.length) [DecidableEq α] :
    At z (Function.update m (p + n) z) p (t.take n) := by
  have length : (t.take n).length = n := List.length_take_of_le le
  refine ⟨fun i small => ?_, fun mem => lies.free (List.mem_of_mem_take mem)⟩
  rw [length] at small
  by_cases last : i = n
  · rw [last, Function.update_self, List.getD_eq_default _ _ (by omega)]
  · rw [Function.update_of_ne (by omega), lies.char i (by omega), List.getD_eq_getElem?_getD,
      List.getD_eq_getElem?_getD, List.getElem?_take_of_lt (by omega)]

theorem At.delete (lies : At z m p t) {a b : Nat} (le : a ≤ b) (inside : b ≤ t.length) :
    At z (memmove m (p + a) (p + b) (t.length - b + 1)) p (t.take a ++ t.drop b) := by
  have length : (t.take a).length = a := List.length_take_of_le (Nat.le_trans le inside)
  refine ⟨fun i small => ?_, fun mem => ?_⟩
  · rw [List.length_append, length, List.length_drop] at small
    rw [memmove_apply, List.getD_eq_getElem?_getD]
    by_cases before : i < a
    · rw [if_neg (by omega), lies.char i (by omega), List.getElem?_append_left (by omega),
        List.getElem?_take_of_lt before, List.getD_eq_getElem?_getD]
    · have place : p + b + (p + i - (p + a)) = p + (b + (i - a)) := by omega
      rw [if_pos (by omega), place, lies.char _ (by omega), List.getElem?_append_right (by omega), length,
        List.getElem?_drop, List.getD_eq_getElem?_getD]
  · rcases List.mem_append.mp mem with left | right
    · exact lies.free (List.mem_of_mem_take left)
    · exact lies.free (List.mem_of_mem_drop right)

theorem At.insert (lies : At z m p t) {a : Nat} {c : α} (inside : a ≤ t.length) (nonzero : c ≠ z) :
    At z (Function.update (memmove m (p + a + 1) (p + a) (t.length - a + 1)) (p + a) c) p (t.take a ++ c :: t.drop a) := by
  have length : (t.take a).length = a := List.length_take_of_le inside
  refine ⟨fun i small => ?_, fun mem => ?_⟩
  · rw [List.length_append, length, List.length_cons, List.length_drop] at small
    rw [List.getD_eq_getElem?_getD]
    rcases Nat.lt_trichotomy i a with before | rfl | behind
    · rw [Function.update_of_ne (by omega), memmove_apply, if_neg (by omega), lies.char i (by omega),
        List.getElem?_append_left (by omega), List.getElem?_take_of_lt before, List.getD_eq_getElem?_getD]
    · rw [Function.update_self, List.getElem?_append_right (by omega), length, Nat.sub_self, List.getElem?_cons_zero,
        Option.getD_some]
    · have place : p + a + (p + i - (p + a + 1)) = p + (i - 1) := by omega
      have rest : i - a = i - 1 - a + 1 := by omega
      have all : a + (i - 1 - a) = i - 1 := by omega
      rw [Function.update_of_ne (by omega), memmove_apply, if_pos (by omega), place, lies.char _ (by omega),
        List.getElem?_append_right (by omega), length, rest, List.getElem?_cons_succ, List.getElem?_drop, all,
        List.getD_eq_getElem?_getD]
  · rcases List.mem_append.mp mem with left | right
    · exact lies.free (List.mem_of_mem_take left)
    · rcases List.mem_cons.mp right with same | right
      · exact nonzero same.symm
      · exact lies.free (List.mem_of_mem_drop right)

theorem At.unique {t' : List α} (lies : At z m p t) (lies' : At z m p t') : t = t' := by
  induction t generalizing p t' with
  | nil =>
    cases t' with
    | nil => rfl
    | cons c t' => exact absurd lies.ends (lies'.nonzero (Nat.zero_lt_succ _))
  | cons c t ih =>
    cases t' with
    | nil => exact absurd lies'.ends (lies.nonzero (Nat.zero_lt_succ _))
    | cons c' t' =>
      have first := lies.get (Nat.zero_lt_succ _)
      have first' := lies'.get (Nat.zero_lt_succ _)
      rw [List.getElem?_cons_zero] at first first'
      rw [ih lies.tail lies'.tail, Option.some.inj (first.trans first'.symm)]

end At

section Strings

variable (z : α)

/-- `strcpy` of the string `t` to `d`. -/
def strcpy (m : Nat → α) (d : Nat) (t : List α) : Nat → α := storeAll m d (t ++ [z])

theorem strcpy_at {m : Nat → α} {d : Nat} {t : List α} (free : z ∉ t) : At z (strcpy z m d t) d t := by
  refine ⟨fun i le => ?_, free⟩
  rw [strcpy, storeAll_apply, if_pos (Nat.le_add_right d i), Nat.add_sub_cancel_left]
  rcases Nat.lt_or_eq_of_le le with less | rfl
  · rw [List.getD_append _ _ _ _ less, List.getD_eq_getElem _ _ less, List.getD_eq_getElem _ _ less]
  · rw [List.getD_append_right _ _ _ _ (Nat.le_refl _), Nat.sub_self, List.getD_cons_zero,
      List.getD_eq_default _ _ (Nat.le_refl _)]

theorem strcpy_behind {m : Nat → α} {p : Nat} {t u : List α} (chars : ∀ i < t.length, m (p + i) = t.getD i z)
    (free : z ∉ t) (free' : z ∉ u) : At z (strcpy z m (p + t.length) u) p (t ++ u) := by
  refine ⟨fun i le => ?_, fun mem => (List.mem_append.mp mem).elim free free'⟩
  rw [List.length_append] at le
  by_cases before : i < t.length
  · rw [strcpy, storeAll_apply, if_neg (by omega), chars i before, List.getD_append _ _ _ _ before]
  · have place : p + i = p + t.length + (i - t.length) := by omega
    rw [List.getD_append_right _ _ _ _ (by omega), place]
    exact (strcpy_at z free').char (i - t.length) (by omega)

variable [DecidableEq α]

/-- The string at `p`, which ends within `n` characters. -/
def strAt (m : Nat → α) (p : Nat) : Nat → List α
  | 0 => []
  | n + 1 => if m p = z then [] else m p :: strAt m (p + 1) n

theorem strAt_eq {m : Nat → α} {p n : Nat} {t : List α} (lies : At z m p t) (short : t.length ≤ n) :
    strAt z m p n = t := by
  induction n generalizing p t with
  | zero => rw [List.length_eq_zero_iff.mp (Nat.le_zero.mp short), strAt]
  | succ n ih =>
    cases t with
    | nil =>
      rw [strAt, if_pos lies.empty]
    | cons c t =>
      rw [strAt, lies.head, if_neg lies.head_ne, ih lies.tail (Nat.le_of_succ_le_succ short)]

/-- `strncpy` from the place `i` on, with `n` characters to store. -/
def strncpy (dst src : Nat → α) (i : Nat) : Nat → Nat → α
  | 0 => dst
  | n + 1 =>
    if src i = z then storeAll dst i (List.replicate (n + 1) z) else strncpy (Function.update dst i (src i)) src (i + 1) n

theorem strncpy_apply {dst src : Nat → α} {i n : Nat} {t : List α} (lies : At z src i t) (j : Nat) :
    strncpy z dst src i n j = if i ≤ j ∧ j < i + n then t.getD (j - i) z else dst j := by
  induction n generalizing dst i t with
  | zero => rw [if_neg (by omega), strncpy]
  | succ n ih =>
    rw [strncpy]
    cases t with
    | nil =>
      rw [if_pos lies.empty, storeAll_apply, List.getD_nil]
      by_cases inside : i ≤ j ∧ j < i + (n + 1)
      · rw [if_pos inside, if_pos inside.1, List.getD_replicate _ (by omega)]
      · rw [if_neg inside]
        split
        · rw [List.getD_eq_default]
          rw [List.length_replicate]
          omega
        · rfl
    | cons c t =>
      rw [lies.head, if_neg lies.head_ne, ih lies.tail]
      rcases Nat.lt_trichotomy j i with less | rfl | more
      · rw [if_neg (by omega), if_neg (by omega), Function.update_of_ne (Nat.ne_of_lt less)]
      · rw [if_neg (by omega), if_pos (by omega), Function.update_self, Nat.sub_self, List.getD_cons_zero]
      · have place : j - i = j - (i + 1) + 1 := by omega
        rw [Function.update_of_ne (Nat.ne_of_gt more), place, List.getD_cons_succ]
        simp only [show (i + 1 ≤ j ∧ j < i + 1 + n) ↔ (i ≤ j ∧ j < i + (n + 1)) by omega]

theorem strncpy_at {dst src : Nat → α} {n : Nat} {t : List α} (lies : At z src 0 t) :
    At z (Function.update (strncpy z dst src 0 n) n z) 0 (t.take n) := by
  refine ⟨fun i le => ?_, fun mem => lies.free (List.mem_of_mem_take mem)⟩
  rw [List.length_take] at le
  rw [Nat.zero_add]
  by_cases last : i = n
  · rw [last, Function.update_self, List.getD_eq_default]
    exact List.length_take_le _ _
  · have before : i < n := by omega
    rw [Function.update_of_ne last, strncpy_apply z lies, if_pos (by omega), Nat.sub_zero, List.getD_eq_getElem?_getD,
      List.getD_eq_getElem?_getD, List.getElem?_take_of_lt before]

end Strings

end CStr
