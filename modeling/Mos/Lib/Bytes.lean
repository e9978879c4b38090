import Mathlib.Data.BitVec
import Mathlib.Tactic.Common
import Mathlib.Logic.Function.Basic
import Mathlib.Data.List.Basic

namespace Mos

def byteAt (words : Nat → BitVec 32) (off : Nat) : BitVec 8 := (words (off / 4) >>> (8 * (off % 4))).setWidth 8

def setByte (words : Nat → BitVec 32) (off : Nat) (b : BitVec 8) : Nat → BitVec 32 :=
  Function.update words (off / 4)
    (words (off / 4) &&& ~~~(0xff#32 <<< (8 * (off % 4))) ||| b.setWidth 32 <<< (8 * (off % 4)))

def setBytes (words : Nat → BitVec 32) (off : Nat) : List (BitVec 8) → Nat → BitVec 32
  | [] => words
  | b :: rest => setBytes (setByte words off b) (off + 1) rest

/-- The C string at `off`, which lies in a field of `n` bytes. -/
def cString (words : Nat → BitVec 32) (off : Nat) : Nat → List (BitVec 8)
  | 0 => []
  | n + 1 => if byteAt words off = 0 then [] else byteAt words off :: cString words (off + 1) n

variable {words words' : Nat → BitVec 32} {off off' n : Nat}

theorem byteAt_setByte (words : Nat → BitVec 32) (off off' : Nat) (b : BitVec 8) :
    byteAt (setByte words off b) off' = if off' = off then b else byteAt words off' := by
  unfold byteAt setByte
  by_cases word : off' / 4 = off / 4
  · rw [word, Function.update_self]
    obtain ⟨r, small, eq⟩ : ∃ r, r < 4 ∧ off % 4 = r := ⟨off % 4, Nat.mod_lt _ (by decide), rfl⟩
    obtain ⟨r', small', eq'⟩ : ∃ r, r < 4 ∧ off' % 4 = r := ⟨off' % 4, Nat.mod_lt _ (by decide), rfl⟩
    have same : off' = off ↔ r' = r := by omega
    simp only [same, eq, eq']
    generalize words (off / 4) = w
    apply BitVec.eq_of_getLsbD_eq
    intro i inside
    have mask (j : Nat) : (255#32).getLsbD j = decide (j < 8) := by
      rw [BitVec.getLsbD_ofNat, show 255 = 2 ^ 8 - 1 from rfl, Nat.testBit_two_pow_sub_one]
      by_cases low : j < 8
      · simp [low]
        omega
      · simp [low]
    have low : 8 * r' + i < 32 := by omega
    rcases Nat.lt_trichotomy r' r with less | rfl | less
    · have below : 8 * r' + i < 8 * r := by omega
      simp [Nat.ne_of_lt less, low, below]
    · have wide : i < 32 := by omega
      have here : ¬ 8 * r' + i < 8 * r' := by omega
      simp only [BitVec.getLsbD_setWidth, BitVec.getLsbD_ushiftRight, BitVec.getLsbD_or, BitVec.getLsbD_and,
        BitVec.getLsbD_not, BitVec.getLsbD_shiftLeft, mask, low, inside, wide, here, Nat.add_sub_cancel_left]
      simp
    · have above : ¬ 8 * r' + i < 8 * r := by omega
      have far : ¬ 8 * r' + i - 8 * r < 8 := by omega
      have none : b.getLsbD (8 * r' + i - 8 * r) = false := BitVec.getLsbD_of_ge b _ (Nat.le_of_not_lt far)
      rw [if_neg (Nat.ne_of_gt less)]
      simp only [BitVec.getLsbD_setWidth, BitVec.getLsbD_ushiftRight, BitVec.getLsbD_or, BitVec.getLsbD_and,
        BitVec.getLsbD_not, BitVec.getLsbD_shiftLeft, mask, low, above, far, none]
      simp
  · rw [Function.update_of_ne word, if_neg]
    rintro rfl
    exact word rfl

theorem byteAt_update (words : Nat → BitVec 32) {w : Nat} (value : BitVec 32) (apart : off / 4 ≠ w) :
    byteAt (Function.update words w value) off = byteAt words off := by
  rw [byteAt, byteAt, Function.update_of_ne apart]

theorem byteAt_setBytes (words : Nat → BitVec 32) (off off' : Nat) (bytes : List (BitVec 8)) :
    byteAt (setBytes words off bytes) off' =
      if off ≤ off' ∧ off' < off + bytes.length then bytes.getD (off' - off) 0 else byteAt words off' := by
  induction bytes generalizing words off with
  | nil =>
    rw [setBytes, if_neg]
    simp
  | cons b bytes ih =>
    rw [setBytes, ih, byteAt_setByte, List.length_cons]
    by_cases first : off' = off
    · subst first
      rw [if_neg (by omega), if_pos rfl, if_pos (by omega), Nat.sub_self, List.getD_cons_zero]
    · rw [if_neg first]
      by_cases inside : off + 1 ≤ off' ∧ off' < off + 1 + bytes.length
      · rw [if_pos inside, if_pos (by omega), show off' - off = off' - (off + 1) + 1 by omega, List.getD_cons_succ]
      · rw [if_neg inside, if_neg (by omega)]

theorem setBytes_word (words : Nat → BitVec 32) {off w : Nat} (bytes : List (BitVec 8))
    (apart : ∀ j < bytes.length, (off + j) / 4 ≠ w) : setBytes words off bytes w = words w := by
  induction bytes generalizing words off with
  | nil => rfl
  | cons b bytes ih =>
    rw [setBytes, ih]
    · rw [setByte, Function.update_of_ne]
      exact (apart 0 (Nat.zero_lt_succ _)).symm
    · intro j inside
      rw [Nat.add_right_comm]
      exact apart (j + 1) (Nat.succ_lt_succ inside)

theorem cString_congr (same : ∀ j < n, byteAt words (off + j) = byteAt words' (off' + j)) :
    cString words off n = cString words' off' n := by
  induction n generalizing off off' with
  | zero => rfl
  | succ n ih =>
    have first := same 0 (Nat.zero_lt_succ n)
    rw [Nat.add_zero, Nat.add_zero] at first
    rw [cString, cString, first]
    have later := @ih (off + 1) (off' + 1) fun j inside => by
      have next := same (j + 1) (Nat.succ_lt_succ inside)
      rwa [← Nat.add_assoc, ← Nat.add_assoc, Nat.add_right_comm off, Nat.add_right_comm off'] at next
    rw [later]

theorem cString_eq {s : List (BitVec 8)} (nonzero : ∀ b ∈ s, b ≠ 0) (fits : s.length < n)
    (holds : ∀ j ≤ s.length, byteAt words (off + j) = (s ++ [0]).getD j 0) : cString words off n = s := by
  induction s generalizing off n with
  | nil =>
    obtain ⟨n, rfl⟩ := Nat.exists_eq_succ_of_ne_zero (Nat.ne_of_gt fits)
    have ends : byteAt words off = 0 := holds 0 (Nat.zero_le _)
    rw [cString, if_pos ends]
  | cons b s ih =>
    obtain ⟨n, rfl⟩ := Nat.exists_eq_succ_of_ne_zero (Nat.ne_of_gt (Nat.lt_of_le_of_lt (Nat.zero_le _) fits))
    have first : byteAt words off = b := holds 0 (Nat.zero_le _)
    have later := @ih (off + 1) n (fun c mem => nonzero c (List.mem_cons_of_mem b mem))
      (Nat.lt_of_succ_lt_succ fits) fun j inside => by
        have next := holds (j + 1) (Nat.succ_le_succ inside)
        rw [List.cons_append, List.getD_cons_succ] at next
        rw [Nat.add_right_comm]
        exact next
    rw [cString, first, if_neg (nonzero b List.mem_cons_self), later]

end Mos
