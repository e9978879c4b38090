import Mathlib.Logic.Function.Basic
import Mathlib.Data.Nat.Digits.Defs
import Mathlib.Tactic.Common

namespace Mos.Print

abbrev Word := BitVec 32

/-- A `char` array and its declared size. -/
structure CharArray where
  size : Nat
  char : Nat → Char

namespace CharArray

/-- `buf[i] = c`, or `none` outside of the array. -/
def store (buf : CharArray) (i : Nat) (c : Char) : Option CharArray :=
  if i < buf.size then some { buf with char := Function.update buf.char i c } else none

/-- `for (…; i++) buf[i] = c;` with `n` rounds. -/
def fill (buf : CharArray) (c : Char) (i : Nat) : Nat → Option CharArray
  | 0 => some buf
  | n + 1 => (buf.store i c).bind fun buf => buf.fill c (i + 1) n

def swap (buf : CharArray) (i j : Nat) : CharArray :=
  { buf with char := Function.update (Function.update buf.char i (buf.char j)) j (buf.char i) }

/-- `while (end > begin)` -/
def turn (buf : CharArray) (first last : Nat) : CharArray :=
  if first < last then (buf.swap first last).turn (first + 1) (last - 1) else buf
termination_by last - first

end CharArray

def digit (tmp : Nat) (upcase : Bool) : Char :=
  if tmp ≤ 9 then Char.ofNat ('0'.toNat + tmp)
  else if upcase then Char.ofNat ('A'.toNat + tmp - 10)
  else Char.ofNat ('a'.toNat + tmp - 10)

/-- The `do` loop of `print_num`: the buffer and `p` after it. A base below 2 divides by zero or has no end. -/
def putDigits (base : Nat) (upcase : Bool) (u : Nat) (buf : CharArray) (p : Nat) : Option (CharArray × Nat) :=
  if base < 2 then none
  else
    (buf.store p (digit (u % base) upcase)).bind fun buf =>
      if u / base ≠ 0 then putDigits base upcase (u / base) buf (p + 1) else some (buf, p + 1)
termination_by u
decreasing_by
  rename_i more
  exact Nat.div_lt_self (Nat.pos_of_ne_zero fun zero => more (by rw [zero, Nat.zero_div])) (by omega)

/-- The `-` of `print_num`, and `actualLength`. -/
def addSign (negFlag : Bool) (buf : CharArray) (p : Nat) : Option (CharArray × Nat) :=
  if negFlag then (buf.store p '-').map fun buf => (buf, p + 1) else some (buf, p)

def addPadding (negFlag ladjust : Bool) (padc : Char) (buf : CharArray) (actualLength length : Nat) : Option CharArray :=
  let padc := if ladjust then ' ' else padc
  if negFlag ∧ ¬ladjust ∧ padc = '0' then
    (buf.fill padc (actualLength - 1) (length - 1 - (actualLength - 1))).bind fun buf => buf.store (length - 1) '-'
  else buf.fill padc actualLength (length - actualLength)

/-- `print_num`: the characters that it hands to `out`. `junk` is on the stack before, and `none` stands for a `length + 70`
that is no `int` and for a store outside of `buf`. -/
def printNum (junk : Nat → Char) (u : Word) (base : Nat) (negFlag : Bool) (length : Nat) (ladjust : Bool) (padc : Char)
    (upcase : Bool) : Option (List Char) :=
  if 2 ^ 31 ≤ length + 70 then none
  else
    (putDigits base upcase u.toNat ⟨length + 70, junk⟩ 0).bind fun (buf, p) =>
    (addSign negFlag buf p).bind fun (buf, actualLength) =>
    let length := if length < actualLength then actualLength else length
    (addPadding negFlag ladjust padc buf actualLength length).map fun buf =>
    (List.range length).map (buf.turn 0 (if ladjust then actualLength - 1 else length - 1)).char

def printChar (c : Char) (length : Nat) (ladjust : Bool) : List Char :=
  let length := if length < 1 then 1 else length
  if ladjust then c :: List.replicate (length - 1) ' ' else List.replicate (length - 1) ' ' ++ [c]

def printStr (s : List Char) (length : Nat) (ladjust : Bool) : List Char :=
  let length := if length < s.length then s.length else length
  if ladjust then s ++ List.replicate (length - s.length) ' ' else List.replicate (length - s.length) ' ' ++ s

/-- The text before the next `%`, and what follows it. -/
def scan : List Char → List Char × List Char
  | [] => ([], [])
  | c :: fmt => if c = '%' then ([], fmt) else (c :: (scan fmt).1, (scan fmt).2)

/-- `ladjust`, `padc` and the rest of the format. -/
def formatFlag : List Char → Bool × Char × List Char
  | '-' :: fmt => (true, ' ', fmt)
  | '0' :: fmt => (false, '0', fmt)
  | fmt => (false, ' ', fmt)

/-- The `width` that the format gives, or `none` when it is no `int`. -/
def getWidth (width : Nat) : List Char → Option (Nat × List Char)
  | [] => some (width, [])
  | c :: fmt =>
    if '0' ≤ c ∧ c ≤ '9' then
      if 2 ^ 31 ≤ width * 10 + c.toNat then none else getWidth (width * 10 + c.toNat - '0'.toNat) fmt
    else some (width, c :: fmt)

/-- `long_flag` and the rest of the format. -/
def checkLong : List Char → Bool × List Char
  | 'l' :: fmt => (true, (checkLong fmt).2)
  | fmt => (false, fmt)

theorem scan_length (fmt : List Char) : (scan fmt).2.length ≤ fmt.length := by
  induction fmt with
  | nil => exact Nat.le_refl _
  | cons c fmt ih =>
    rw [scan]
    split
    · exact Nat.le_succ _
    · exact Nat.le_succ_of_le ih

theorem scan_lt (c : Char) (fmt : List Char) : (scan (c :: fmt)).2.length < (c :: fmt).length := by
  rw [scan]
  split
  · exact Nat.lt_succ_self _
  · exact Nat.lt_succ_of_le (scan_length fmt)

theorem formatFlag_length (fmt : List Char) : (formatFlag fmt).2.2.length ≤ fmt.length := by
  unfold formatFlag
  split <;> simp

theorem getWidth_length {width w : Nat} {fmt rest : List Char} (h : getWidth width fmt = some (w, rest)) :
    rest.length ≤ fmt.length := by
  induction fmt generalizing width with
  | nil =>
    obtain ⟨rfl, rfl⟩ := Prod.mk.inj (Option.some.inj h)
    exact Nat.le_refl _
  | cons c fmt ih =>
    rw [getWidth] at h
    split at h
    · split at h
      · exact absurd h (by simp)
      · exact Nat.le_succ_of_le (ih h)
    · obtain ⟨rfl, rfl⟩ := Prod.mk.inj (Option.some.inj h)
      exact Nat.le_refl _

theorem checkLong_length (fmt : List Char) : (checkLong fmt).2.length ≤ fmt.length := by
  induction fmt with
  | nil => simp [checkLong]
  | cons c fmt ih =>
    by_cases long : c = 'l'
    · rw [long, checkLong]
      exact Nat.le_succ_of_le ih
    · rw [checkLong]
      simpa using long

section Format

variable (str : Word → List Char) (junk : Nat → Char)

/-- The `switch` of `vprintfmt`: what a conversion prints and the arguments that are left. `int` and `long` have one size. -/
def convert (c : Char) (ladjust : Bool) (padc : Char) (width : Nat) (args : List Word) : Option (List Char × List Word) :=
  let number (base : Nat) (upcase : Bool) :=
    args.head?.bind fun num => (printNum junk num base false width ladjust padc upcase).map fun text => (text, args.tail)
  match c with
  | 'b' => number 2 false
  | 'd' | 'D' =>
    args.head?.bind fun num =>
      let negFlag := decide (num.toInt < 0)
      let num := if negFlag then -num else num
      (printNum junk num 10 negFlag width ladjust padc false).map fun text => (text, args.tail)
  | 'o' | 'O' => number 8 false
  | 'u' | 'U' => number 10 false
  | 'x' => number 16 false
  | 'X' => number 16 true
  | 'c' => args.head?.map fun c => (printChar (Char.ofNat (c.toNat % 256)) width ladjust, args.tail)
  | 's' => args.head?.map fun s => (printStr (str s) width ladjust, args.tail)
  | _ => some ([c], args)

/-- `ladjust`, `padc`, `width` and the format from the conversion on. -/
def directive (fmt : List Char) : Option (Bool × Char × Nat × List Char) :=
  (getWidth 0 (formatFlag fmt).2.2).map fun (width, rest) =>
    ((formatFlag fmt).1, (formatFlag fmt).2.1, width, (checkLong rest).2)

theorem directive_length {fmt rest : List Char} {ladjust : Bool} {padc : Char} {width : Nat}
    (h : directive fmt = some (ladjust, padc, width, rest)) : rest.length ≤ fmt.length := by
  obtain ⟨⟨w, digits⟩, found, eq⟩ := Option.map_eq_some_iff.mp h
  simp only [Prod.mk.injEq] at eq
  obtain ⟨-, -, -, rfl⟩ := eq
  calc
    (checkLong digits).2.length ≤ digits.length := checkLong_length digits
    _ ≤ (formatFlag fmt).2.2.length := getWidth_length found
    _ ≤ fmt.length := formatFlag_length fmt

/-- `vprintfmt`: the characters that it hands to `out`. `str` reads the string at an address. -/
def vprintfmt (fmt : List Char) (args : List Word) : Option (List Char) :=
  match fmt with
  | [] => some []
  | c :: fmt =>
    match _found : directive (scan (c :: fmt)).2 with
    | none => none
    | some (_, _, _, []) => some (scan (c :: fmt)).1
    | some (ladjust, padc, width, conv :: rest) =>
      (convert str junk conv ladjust padc width args).bind fun (text, args) =>
        (vprintfmt rest args).map fun after => (scan (c :: fmt)).1 ++ text ++ after
termination_by fmt.length
decreasing_by exact Nat.lt_of_lt_of_le (directive_length _found) (Nat.le_of_lt (scan_lt c _))

end Format

/-- `buf` holds `text` from its start on. -/
structure Holds (buf : CharArray) (text : List Char) : Prop where
  fits : text.length ≤ buf.size
  char : ∀ i (h : i < text.length), buf.char i = text[i]

section Holds

variable {buf : CharArray} {text : List Char}

theorem Holds.left {more : List Char} (h : Holds buf (text ++ more)) : Holds buf text := by
  have fits := h.fits
  rw [List.length_append] at fits
  refine ⟨by omega, fun i less => ?_⟩
  rw [h.char i (by rw [List.length_append]; omega), List.getElem_append_left less]

theorem Holds.map_range (h : Holds buf text) : (List.range text.length).map buf.char = text := by
  apply List.ext_getElem (by rw [List.length_map, List.length_range])
  intro i _ less
  rw [List.getElem_map, List.getElem_range, h.char i less]

theorem Holds.store (h : Holds buf text) (c : Char) (room : text.length < buf.size) :
    ∃ buf', buf.store text.length c = some buf' ∧ buf'.size = buf.size ∧ Holds buf' (text ++ [c]) := by
  refine ⟨_, if_pos room, rfl, ⟨by rw [List.length_append]; exact room, fun i less => ?_⟩⟩
  rw [List.length_append, List.length_singleton] at less
  by_cases last : i = text.length
  · subst last
    simp
  · have before : i < text.length := by omega
    rw [List.getElem_append_left before]
    exact (Function.update_of_ne last _ _).trans (h.char i before)

theorem Holds.fill (h : Holds buf text) (c : Char) (n : Nat) (room : text.length + n ≤ buf.size) :
    ∃ buf', buf.fill c text.length n = some buf' ∧ buf'.size = buf.size ∧ Holds buf' (text ++ List.replicate n c) := by
  induction n generalizing buf text with
  | zero => exact ⟨buf, rfl, rfl, by rwa [List.replicate_zero, List.append_nil]⟩
  | succ n ih =>
    obtain ⟨next, stored, size, holds⟩ := h.store c (by omega)
    have long : (text ++ [c]).length = text.length + 1 := List.length_append
    obtain ⟨last, filled, sizes, all⟩ := ih holds (by omega)
    rw [long] at filled
    refine ⟨last, ?_, sizes.trans size, ?_⟩
    · rw [CharArray.fill, stored]
      exact filled
    · rwa [List.append_assoc, List.singleton_append, ← List.replicate_succ] at all

end Holds

section Digits

theorem digit_eq {tmp : Nat} (small : tmp < 16) (upcase : Bool) :
    digit tmp upcase = if upcase then tmp.digitChar.toUpper else tmp.digitChar := by
  revert tmp upcase
  decide

/-- The digits of `u` in the requested case, most significant first. -/
def digits (base u : Nat) (upcase : Bool) : List Char :=
  (Nat.toDigits base u).map fun c => if upcase then c.toUpper else c

theorem digits_last {base u : Nat} {upcase : Bool} (two : 2 ≤ base) (small : base ≤ 16) (less : u < base) :
    digits base u upcase = [digit (u % base) upcase] := by
  rw [digits, Nat.toDigits_of_lt_base less, Nat.mod_eq_of_lt less, digit_eq (by omega)]
  rfl

theorem digits_snoc {base u : Nat} {upcase : Bool} (two : 2 ≤ base) (small : base ≤ 16) (le : base ≤ u) :
    digits base u upcase = digits base (u / base) upcase ++ [digit (u % base) upcase] := by
  have mod : u % base < base := Nat.mod_lt _ (by omega)
  rw [digits, Nat.toDigits_of_base_le two le, List.map_append, ← digits, digit_eq (by omega)]
  rfl

theorem putDigits_eq {base : Nat} (u : Nat) (upcase : Bool) (two : 2 ≤ base) (small : base ≤ 16) {buf : CharArray}
    {text : List Char} (h : Holds buf text) (room : text.length + (digits base u upcase).length ≤ buf.size) :
    ∃ buf', putDigits base upcase u buf text.length = some (buf', text.length + (digits base u upcase).length) ∧
      buf'.size = buf.size ∧ Holds buf' (text ++ (digits base u upcase).reverse) := by
  induction u using Nat.strong_induction_on generalizing buf text with
  | _ u ih =>
    rw [putDigits, if_neg (by omega)]
    by_cases less : u < base
    · rw [digits_last two small less] at room ⊢
      obtain ⟨next, stored, size, holds⟩ := h.store (digit (u % base) upcase) room
      refine ⟨next, ?_, size, holds⟩
      rw [stored, Option.bind_some, if_neg (not_not.mpr (Nat.div_eq_of_lt less))]
      rfl
    · have le : base ≤ u := Nat.le_of_not_lt less
      rw [digits_snoc two small le] at room ⊢
      rw [List.length_append, List.length_singleton] at room ⊢
      obtain ⟨next, stored, size, holds⟩ := h.store (digit (u % base) upcase) (by omega)
      have more : u / base ≠ 0 := fun zero => less ((Nat.div_eq_zero_iff_lt (by omega)).mp zero)
      have long : (text ++ [digit (u % base) upcase]).length = text.length + 1 := List.length_append
      obtain ⟨last, put, sizes, all⟩ := ih (u / base) (Nat.div_lt_self (by omega) two) holds (by omega)
      rw [long, Nat.add_assoc, Nat.add_comm 1] at put
      refine ⟨last, ?_, sizes.trans size, ?_⟩
      · rw [stored, Option.bind_some, if_pos more, put]
      · rwa [List.reverse_append, List.reverse_singleton, ← List.append_assoc]

end Digits

section Turn

theorem swap_char (buf : CharArray) {first last i : Nat} (apart : first < last) :
    (buf.swap first last).char i =
      if i = first ∨ i = last then buf.char (first + last - i) else buf.char i := by
  unfold CharArray.swap
  by_cases right : i = last
  · rw [right, if_pos (Or.inr rfl), Nat.add_sub_cancel]
    exact Function.update_self last _ _
  · by_cases left : i = first
    · rw [left, if_pos (Or.inl rfl), Nat.add_sub_cancel_left]
      exact (Function.update_of_ne (Nat.ne_of_lt apart) _ _).trans (Function.update_self first _ _)
    · rw [if_neg (not_or.mpr ⟨left, right⟩)]
      exact (Function.update_of_ne right _ _).trans (Function.update_of_ne left _ _)

theorem turn_size (buf : CharArray) (first last : Nat) : (buf.turn first last).size = buf.size := by
  fun_induction CharArray.turn buf first last with
  | case1 buf first last less ih => exact ih
  | case2 => rfl

theorem turn_char (buf : CharArray) (first last i : Nat) :
    (buf.turn first last).char i = if first ≤ i ∧ i ≤ last then buf.char (first + last - i) else buf.char i := by
  fun_induction CharArray.turn buf first last with
  | case1 buf first last less ih =>
    rw [ih]
    by_cases inside : first + 1 ≤ i ∧ i ≤ last - 1
    · have place : first + 1 + (last - 1) - i = first + last - i := by omega
      rw [if_pos inside, if_pos (by omega), place, swap_char buf less, if_neg (by omega)]
    · rw [if_neg inside, swap_char buf less]
      by_cases ends : i = first ∨ i = last
      · rw [if_pos ends, if_pos (by omega)]
      · rw [if_neg ends, if_neg (by omega)]
  | case2 buf first last same =>
    by_cases inside : first ≤ i ∧ i ≤ last
    · have place : first + last - i = i := by omega
      rw [if_pos inside, place]
    · rw [if_neg inside]

theorem Holds.turn {buf : CharArray} {front back : List Char} (h : Holds buf (front ++ back)) (nonempty : front ≠ []) :
    Holds (buf.turn 0 (front.length - 1)) (front.reverse ++ back) := by
  have pos : 0 < front.length := List.length_pos_iff.mpr nonempty
  have fits := h.fits
  rw [List.length_append] at fits
  refine ⟨by rwa [turn_size, List.length_append, List.length_reverse], fun i less => ?_⟩
  rw [List.length_append, List.length_reverse] at less
  rw [turn_char, Nat.zero_add]
  by_cases inside : i < front.length
  · have mirror : front.length - 1 - i < front.length := by omega
    rw [if_pos (by omega), h.char _ (by rw [List.length_append]; omega), List.getElem_append_left mirror,
      List.getElem_append_left (by rwa [List.length_reverse]), List.getElem_reverse]
  · rw [if_neg (by omega), h.char i (by rwa [List.length_append]), List.getElem_append_right (by omega),
      List.getElem_append_right (by rw [List.length_reverse]; omega)]
    simp only [List.length_reverse]

end Turn

/-- A sign, digits and the padding to `width`. -/
def formatted (sign digits : List Char) (width : Nat) (ladjust : Bool) (padc : Char) : List Char :=
  let pad := width - (digits.length + sign.length)
  if ladjust then sign ++ digits ++ List.replicate pad ' '
  else if padc = '0' then sign ++ List.replicate pad '0' ++ digits
  else List.replicate pad ' ' ++ sign ++ digits

theorem formatted_length (sign digits : List Char) (width : Nat) (ladjust : Bool) (padc : Char) :
    (formatted sign digits width ladjust padc).length = max width (digits.length + sign.length) := by
  unfold formatted
  split_ifs <;> simp only [List.length_append, List.length_replicate] <;> omega

def sign (negFlag : Bool) : List Char := if negFlag then ['-'] else []

section Number

variable {buf : CharArray} {text : List Char} {padc : Char}

theorem Holds.addSign (h : Holds buf text) (negFlag : Bool) (room : text.length < buf.size) :
    ∃ buf', addSign negFlag buf text.length = some (buf', (text ++ sign negFlag).length) ∧
      buf'.size = buf.size ∧ Holds buf' (text ++ sign negFlag) := by
  cases negFlag with
  | false => exact ⟨buf, by simp [Print.addSign, sign], rfl, by simpa [sign] using h⟩
  | true =>
    obtain ⟨next, stored, size, holds⟩ := h.store '-' room
    exact ⟨next, by simp [Print.addSign, stored, sign], size, holds⟩

/-- The number and its padding before they are turned round. A sign goes to the right of zeros. -/
def unturned (text sign : List Char) (n : Nat) (ladjust : Bool) (padc : Char) : List Char :=
  if ¬ladjust ∧ padc = '0' then text ++ List.replicate n '0' ++ sign else text ++ sign ++ List.replicate n ' '

theorem Holds.addPadding {negFlag : Bool} (h : Holds buf (text ++ sign negFlag)) (ladjust : Bool) (n : Nat)
    (room : (text ++ sign negFlag).length + n ≤ buf.size) (pads : padc = ' ' ∨ padc = '0') :
    ∃ buf', addPadding negFlag ladjust padc buf (text ++ sign negFlag).length ((text ++ sign negFlag).length + n) = some buf' ∧
      Holds buf' (unturned text (sign negFlag) n ladjust padc) := by
  unfold Print.addPadding unturned
  by_cases zeros : ¬ladjust ∧ padc = '0'
  · obtain ⟨right, rfl⟩ := zeros
    rw [Bool.not_eq_true] at right
    subst right
    cases negFlag with
    | false =>
      have plain := h.fill '0' n room
      simp only [sign, Bool.false_eq_true, ↓reduceIte, List.append_nil, false_and, Nat.add_sub_cancel_left] at plain ⊢
      obtain ⟨next, filled, -, holds⟩ := plain
      exact ⟨next, filled, by simpa using holds⟩
    | true =>
      have long : (text ++ sign true).length = text.length + 1 := List.length_append
      rw [long] at room ⊢
      obtain ⟨next, filled, size, holds⟩ := h.left.fill '0' n (by omega)
      have behind : (text ++ List.replicate n '0').length = text.length + n := by
        rw [List.length_append, List.length_replicate]
      obtain ⟨last, stored, -, all⟩ := holds.store '-' (by omega)
      rw [behind] at stored
      refine ⟨last, ?_, by simpa [sign] using all⟩
      have place : text.length + 1 + n - 1 = text.length + n := by omega
      simp only [Bool.false_eq_true, not_false_eq_true, and_self, ↓reduceIte, place, Nat.add_sub_cancel,
        Nat.add_sub_cancel_left, filled, Option.bind_some]
      exact stored
  · have space : (if ladjust then ' ' else padc) = ' ' := by
      split
      · rfl
      · exact pads.resolve_right fun zero => zeros ⟨by assumption, zero⟩
    obtain ⟨next, filled, -, holds⟩ := h.fill ' ' n room
    refine ⟨next, ?_, by rwa [if_neg zeros]⟩
    simp only [space]
    rw [if_neg (by simp), Nat.add_sub_cancel_left]
    exact filled

theorem unturned_length (text sign : List Char) (n : Nat) (ladjust : Bool) (padc : Char) :
    (unturned text sign n ladjust padc).length = (text ++ sign).length + n := by
  unfold unturned
  split_ifs
  · simp only [List.length_append, List.length_replicate]
    omega
  · simp only [List.length_append, List.length_replicate]

theorem sign_reverse (negFlag : Bool) : (sign negFlag).reverse = sign negFlag := by cases negFlag <;> rfl

theorem Holds.turned {number : List Char} {negFlag ladjust : Bool} {n : Nat}
    (h : Holds buf (unturned number.reverse (sign negFlag) n ladjust padc)) (nonempty : number ≠ []) (width : Nat)
    (room : n = width - (number.length + (sign negFlag).length)) :
    Holds (buf.turn 0 (if ladjust then (number.reverse ++ sign negFlag).length - 1
      else (number.reverse ++ sign negFlag).length + n - 1)) (formatted (sign negFlag) number width ladjust padc) := by
  have front : number.reverse ++ sign negFlag ≠ [] := by simp [nonempty]
  rw [formatted, ← room]
  cases ladjust with
  | true =>
    rw [unturned, if_neg (by simp)] at h
    have turned := h.turn front
    rwa [List.reverse_append, List.reverse_reverse, sign_reverse] at turned
  | false =>
    have whole : unturned number.reverse (sign negFlag) n false padc ≠ [] := by
      rw [ne_eq, ← List.length_eq_zero_iff, unturned_length]
      have pos := List.length_pos_iff.mpr front
      omega
    rw [← List.append_nil (unturned _ _ _ _ _)] at h
    have turned := h.turn whole
    rw [unturned_length, List.append_nil] at turned
    by_cases zero : padc = '0'
    · rw [unturned, if_pos ⟨by simp, zero⟩] at turned
      simpa [zero, sign_reverse] using turned
    · rw [unturned, if_neg fun both => zero both.2] at turned
      simpa [zero, sign_reverse] using turned

theorem printNum_eq {junk : Nat → Char} {u : Word} {base width : Nat} {negFlag ladjust upcase : Bool} (two : 2 ≤ base)
    (small : base ≤ 16) (fits : width + 70 < 2 ^ 31) (pads : padc = ' ' ∨ padc = '0') :
    printNum junk u base negFlag width ladjust padc upcase =
      some (formatted (sign negFlag) (digits base u.toNat upcase) width ladjust padc) := by
  set number := digits base u.toNat upcase with named
  have many : number.length ≤ 32 := by
    rw [named, digits, List.length_map]
    exact Nat.toDigits_length base _ 32 (by decide) (Nat.lt_of_lt_of_le u.isLt (Nat.pow_le_pow_left two 32))
  have some_digit : number ≠ [] := by simp [named, digits]
  have one : (sign negFlag).length ≤ 1 := by cases negFlag <;> simp [sign]
  have empty : Holds ⟨width + 70, junk⟩ [] := ⟨Nat.zero_le _, fun i less => absurd less (Nat.not_lt_zero i)⟩
  have long : (number.reverse ++ sign negFlag).length = number.length + (sign negFlag).length := by
    rw [List.length_append, List.length_reverse]
  -- the three steps that store, each with what the buffer holds after it
  obtain ⟨unsigned, put, unsignedSize, reversed⟩ := putDigits_eq u.toNat upcase two small empty (by
    simp only [List.length_nil, ← named]
    omega)
  rw [List.nil_append, ← named] at reversed
  simp only [List.length_nil, Nat.zero_add, ← named] at put unsignedSize
  rw [← List.length_reverse] at put
  obtain ⟨signed, added, signedSize, withSign⟩ := reversed.addSign negFlag (by rw [List.length_reverse]; omega)
  obtain ⟨full, filled, padded⟩ := withSign.addPadding ladjust (width - (number.length + (sign negFlag).length)) (by omega) pads
  have turned := padded.turned some_digit width rfl
  have total : (if width < (number.reverse ++ sign negFlag).length then (number.reverse ++ sign negFlag).length else width) =
      (number.reverse ++ sign negFlag).length + (width - (number.length + (sign negFlag).length)) := by
    split <;> omega
  have printed := turned.map_range
  rw [formatted_length] at printed
  have same : max width (number.length + (sign negFlag).length) =
      (number.reverse ++ sign negFlag).length + (width - (number.length + (sign negFlag).length)) := by omega
  rw [same] at printed
  rw [printNum, if_neg (by omega), put]
  simp only [added, Option.bind_some, total, filled, Option.map_some, printed]

end Number

section Decimal

variable {str : Word → List Char} {junk : Nat → Char}

theorem scan_plain {plain : List Char} (rest : List Char) (free : '%' ∉ plain) : scan (plain ++ '%' :: rest) = (plain, rest) := by
  induction plain with
  | nil => rfl
  | cons c plain ih =>
    rw [List.mem_cons, not_or] at free
    rw [List.cons_append, scan, if_neg (Ne.symm free.1), ih free.2]

theorem checkLong_replicate (l : Nat) {c : Char} (rest : List Char) (other : c ≠ 'l') :
    (checkLong (List.replicate l 'l' ++ c :: rest)).2 = c :: rest := by
  induction l with
  | zero =>
    rw [List.replicate_zero, List.nil_append, checkLong]
    simpa using other
  | succ l ih => rw [List.replicate_succ, List.cons_append, checkLong, ih]

theorem directive_letter {c : Char} (letter : '9' < c) (fmt : List Char) :
    directive (c :: fmt) = some (false, ' ', 0, (checkLong (c :: fmt)).2) := by
  have noFlag : formatFlag (c :: fmt) = (false, ' ', c :: fmt) := by
    unfold formatFlag
    split
    · exact absurd letter (by simp_all)
    · exact absurd letter (by simp_all)
    · rfl
  rw [directive, noFlag, getWidth, if_neg fun digit => absurd digit.2 (Char.not_le.mpr letter)]
  rfl

theorem directive_long {l : Nat} {c : Char} {rest : List Char} (conv : c = 'd' ∨ c = 'D') :
    directive (List.replicate l 'l' ++ c :: rest) = some (false, ' ', 0, c :: rest) := by
  have other : c ≠ 'l' := by rcases conv with rfl | rfl <;> decide
  have letter : '9' < c := by rcases conv with rfl | rfl <;> decide
  have long := checkLong_replicate l rest other
  cases l with
  | zero => rw [List.replicate_zero, List.nil_append] at long ⊢; rw [directive_letter letter, long]
  | succ l =>
    rw [List.replicate_succ, List.cons_append] at long ⊢
    rw [directive_letter (by decide), long]

theorem neg_toNat {num : Word} (negative : num.toInt < 0) : (-num).toNat = num.toInt.natAbs := by
  have less := num.isLt
  rw [BitVec.toInt_eq_toNat_cond] at negative ⊢
  rw [BitVec.toNat_neg]
  split at negative <;> omega

theorem nonneg_toNat {num : Word} (nonneg : ¬num.toInt < 0) : num.toNat = num.toInt.natAbs := by
  have less := num.isLt
  rw [BitVec.toInt_eq_toNat_cond] at nonneg ⊢
  split at nonneg <;> omega

theorem toString_toList (x : Int) : (toString x).toList = sign (decide (x < 0)) ++ digits 10 x.natAbs false := by
  have lower (u : Nat) : digits 10 u false = (Nat.repr u).toList := by simp [digits]
  rw [lower]
  cases x with
  | ofNat n =>
    have nonneg : ¬Int.ofNat n < 0 := Int.not_lt.mpr (Int.natCast_nonneg n)
    simp only [sign, nonneg, decide_false, Bool.false_eq_true, ↓reduceIte, List.nil_append]
    rfl
  | negSucc n =>
    simp only [sign, Int.negSucc_lt_zero, decide_true, ↓reduceIte]
    exact String.toList_append

theorem vprintfmt_percent {plain fmt rest : List Char} {conv padc : Char} {ladjust : Bool} {width : Nat} {args : List Word}
    (free : '%' ∉ plain) (found : directive fmt = some (ladjust, padc, width, conv :: rest)) :
    vprintfmt str junk (plain ++ '%' :: fmt) args =
      (convert str junk conv ladjust padc width args).bind fun (text, args) =>
        (vprintfmt str junk rest args).map fun after => plain ++ text ++ after := by
  obtain ⟨c, all, whole⟩ : ∃ c all, plain ++ '%' :: fmt = c :: all := by
    cases plain with
    | nil => exact ⟨'%', fmt, rfl⟩
    | cons c plain => exact ⟨c, plain ++ '%' :: fmt, rfl⟩
  have scanned := scan_plain fmt free
  rw [whole] at scanned ⊢
  have first : (scan (c :: all)).1 = plain := congrArg Prod.fst scanned
  have second : (scan (c :: all)).2 = fmt := congrArg Prod.snd scanned
  rw [← second] at found
  rw [vprintfmt]
  split
  · rename_i none
    exact absurd (none.symm.trans found) (by simp)
  · rename_i ends
    exact absurd (ends.symm.trans found) (by simp)
  · rename_i other
    have same := other.symm.trans found
    simp only [Option.some.injEq, Prod.mk.injEq, List.cons.injEq] at same
    obtain ⟨rfl, rfl, rfl, rfl, rfl⟩ := same
    rw [first]

theorem convert_decimal {conv : Char} {num : Word} {args : List Word} (decimal : conv = 'd' ∨ conv = 'D') :
    convert str junk conv false ' ' 0 (num :: args) = some ((toString num.toInt).toList, args) := by
  have magnitude : (if num.toInt < 0 then -num else num).toNat = num.toInt.natAbs := by
    split
    · exact neg_toNat (by assumption)
    · exact nonneg_toNat (by assumption)
  have printed : printNum junk (if num.toInt < 0 then -num else num) 10 (decide (num.toInt < 0)) 0 false ' ' false =
      some (toString num.toInt).toList := by
    rw [printNum_eq (by decide) (by decide) (by decide) (Or.inl rfl), magnitude, toString_toList]
    simp [formatted]
  rcases decimal with rfl | rfl <;> simp [convert, printed]

end Decimal

theorem digits_zero (base : Nat) (upcase : Bool) : digits base 0 upcase = ['0'] := by
  cases upcase <;> simp [digits]

theorem digits_head {base u : Nat} {upcase : Bool} (two : 2 ≤ base) (small : base ≤ 16) (pos : 0 < u) :
    (digits base u upcase).head? ≠ some '0' := by
  induction u using Nat.strong_induction_on with
  | _ u ih =>
    by_cases less : u < base
    · rw [digits_last two small less, Nat.mod_eq_of_lt less]
      have nonzero : ∀ tmp < 16, 0 < tmp → ∀ up, digit tmp up ≠ '0' := by decide
      simpa using nonzero u (by omega) pos upcase
    · have more : 0 < u / base := Nat.div_pos (Nat.le_of_not_lt less) (by omega)
      rw [digits_snoc two small (Nat.le_of_not_lt less), List.head?_append]
      have before := ih (u / base) (Nat.div_lt_self pos two) more
      cases head : (digits base (u / base) upcase).head? with
      | none =>
        rw [List.head?_eq_none_iff] at head
        simp [digits] at head
      | some c => rwa [head] at before

/-- `print_num` for the widths whose buffer has a length, and `%d` of `vprintfmt`. -/
theorem print_formats (str : Word → List Char) (junk : Nat → Char) :
    (∀ (u : Word) (base width : Nat) (negFlag ladjust upcase : Bool) (padc : Char), base = 2 ∨ base = 8 ∨ base = 10 ∨ base = 16 →
      padc = ' ' ∨ padc = '0' → width + 70 < 2 ^ 31 →
      ∃ text, printNum junk u base negFlag width ladjust padc upcase = some text ∧
        text = formatted (sign negFlag) (digits base u.toNat upcase) width ladjust padc ∧
        text.length = max width ((digits base u.toNat upcase).length + (sign negFlag).length) ∧
        ((digits base u.toNat upcase).head? = some '0' → digits base u.toNat upcase = ['0'])) ∧
    ∀ (num : Word) (plain rest : List Char) (l : Nat) (conv : Char) (args : List Word), '%' ∉ plain → conv = 'd' ∨ conv = 'D' →
      vprintfmt str junk (plain ++ '%' :: (List.replicate l 'l' ++ conv :: rest)) (num :: args) =
        (vprintfmt str junk rest args).map fun after => plain ++ (toString num.toInt).toList ++ after := by
  refine ⟨fun u base width negFlag ladjust upcase padc bases pads fits => ?_, fun num plain rest l conv args free decimal => ?_⟩
  · have two : 2 ≤ base := by omega
    have small : base ≤ 16 := by omega
    refine ⟨_, printNum_eq two small fits pads, rfl, formatted_length _ _ _ _ _, fun head => ?_⟩
    rcases Nat.eq_zero_or_pos u.toNat with zero | pos
    · rw [zero, digits_zero]
    · exact absurd head (digits_head two small pos)
  · rw [vprintfmt_percent free (directive_long decimal), convert_decimal decimal, Option.bind_some]

theorem print_formats_int_min :
    printNum (fun _ => '?') 42 10 true 6 false '0' false = some ['-', '0', '0', '0', '4', '2'] ∧
      vprintfmt (fun _ => []) (fun _ => '?') ['a', '%', 'd'] [0x80000000#32] = some ('a' :: (toString (-2147483648 : Int)).toList) := by
  obtain ⟨numbers, decimals⟩ := print_formats (fun _ => []) (fun _ => '?')
  constructor
  · obtain ⟨text, printed, eq, -⟩ := numbers 42 10 6 true false false '0' (by decide) (Or.inr rfl) (by decide)
    rw [printed, eq]
    decide
  · have printed := decimals 0x80000000#32 ['a'] [] 0 'd' [] (by decide) (Or.inl rfl)
    rw [vprintfmt] at printed
    simpa using printed

/-- The size of the buffer is no `int` any more. -/
theorem printNum_wide :
    printNum (fun _ => '?') 0 10 false (2 ^ 31 - 1) false ' ' false ≠
      some (formatted (sign false) (digits 10 0 false) (2 ^ 31 - 1) false ' ') := by
  rw [printNum, if_pos (by decide)]
  exact Option.some_ne_none _ |>.symm

end Mos.Print
