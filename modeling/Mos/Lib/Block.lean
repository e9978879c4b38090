import Mathlib.Data.BitVec
import Mathlib.Tactic.Common
import Mathlib.Logic.Function.Basic

/-! Blocks of a memory whose addresses wrap around. -/

namespace Block

variable {w : Nat} {β : Type} {m : BitVec w → β} {dst src a : BitVec w} {k n : Nat}

/-- The `n` values `bytes` are stored from `dst` on. -/
def store (m : BitVec w → β) (dst : BitVec w) (bytes : Nat → β) (n : Nat) : BitVec w → β := fun a =>
  if (a - dst).toNat < n then bytes (a - dst).toNat else m a

/-- The `n` values from `src` on, all read before the first is stored. -/
def copy (m : BitVec w → β) (dst src : BitVec w) (n : Nat) : BitVec w → β :=
  store m dst (fun j => m (src + BitVec.ofNat w j)) n

theorem store_zero (bytes : Nat → β) : store m dst bytes 0 = m := rfl

theorem store_congr {bytes bytes' : Nat → β} (same : ∀ j < n, bytes j = bytes' j) : store m dst bytes n = store m dst bytes' n := by
  funext a
  unfold store
  split
  · exact same _ ‹_›
  · rfl

theorem offset_behind (fits : k + n ≤ 2^w) :
    (a - (dst + BitVec.ofNat w k)).toNat < n ↔ k ≤ (a - dst).toNat ∧ (a - dst).toNat < k + n := by
  have bound := (a - dst).isLt
  rw [← sub_sub, BitVec.toNat_sub, BitVec.toNat_ofNat]
  rcases Nat.eq_zero_or_pos n with rfl | positive
  · omega
  · rw [Nat.mod_eq_of_lt (show k < 2^w by omega)]
    by_cases behind : k ≤ (a - dst).toNat
    · rw [show 2^w - k + (a - dst).toNat = (a - dst).toNat - k + 2^w by omega, Nat.add_mod_right, Nat.mod_eq_of_lt (by omega)]
      omega
    · rw [Nat.mod_eq_of_lt (by omega)]
      omega

theorem offset_sub (behind : k ≤ (a - dst).toNat) : (a - (dst + BitVec.ofNat w k)).toNat = (a - dst).toNat - k := by
  have bound := (a - dst).isLt
  rw [← sub_sub, BitVec.toNat_sub, BitVec.toNat_ofNat, Nat.mod_eq_of_lt (show k < 2^w by omega),
    show 2^w - k + (a - dst).toNat = (a - dst).toNat - k + 2^w by omega, Nat.add_mod_right, Nat.mod_eq_of_lt (by omega)]

theorem store_append (bytes : Nat → β) (fits : k + n ≤ 2^w) :
    store (store m dst bytes k) (dst + BitVec.ofNat w k) (fun j => bytes (k + j)) n = store m dst bytes (k + n) := by
  funext a
  simp only [store, offset_behind fits]
  by_cases first : (a - dst).toNat < k
  · rw [if_neg (by omega), if_pos first, if_pos (by omega)]
  · by_cases second : (a - dst).toNat < k + n
    · rw [if_pos ⟨Nat.le_of_not_lt first, second⟩, if_pos second, offset_sub (Nat.le_of_not_lt first),
        Nat.add_sub_cancel' (Nat.le_of_not_lt first)]
    · rw [if_neg (fun both => second both.2), if_neg first, if_neg second]

theorem store_prepend (bytes : Nat → β) (fits : k + n ≤ 2^w) :
    store (store m (dst + BitVec.ofNat w k) (fun j => bytes (k + j)) n) dst bytes k = store m dst bytes (k + n) := by
  rw [← store_append bytes fits]
  funext a
  simp only [store, offset_behind fits]
  by_cases first : (a - dst).toNat < k
  · rw [if_pos first, if_neg (by omega), if_pos first]
  · rw [if_neg first, if_neg first]

theorem store_apart {bytes : Nat → β} (apart : ∀ j < n, a ≠ dst + BitVec.ofNat w j) : store m dst bytes n a = m a := by
  refine if_neg fun inside => apart _ inside ?_
  rw [BitVec.ofNat_toNat, BitVec.setWidth_eq, add_sub_cancel]

/-- An upward copy never reads where it has stored before. -/
def Ahead (dst src : BitVec w) (n : Nat) : Prop := ∀ i < n, ∀ j < i, src + BitVec.ofNat w i ≠ dst + BitVec.ofNat w j

/-- A downward copy never reads where it has stored before. -/
def Behind (dst src : BitVec w) (n : Nat) : Prop := ∀ j < n, ∀ i < j, src + BitVec.ofNat w i ≠ dst + BitVec.ofNat w j

theorem Ahead.rest (ahead : Ahead dst src (k + n)) : Ahead (dst + BitVec.ofNat w k) (src + BitVec.ofNat w k) n := by
  intro i inside j before
  rw [BitVec.add_assoc, BitVec.add_assoc, ← BitVec.ofNat_add, ← BitVec.ofNat_add]
  exact ahead (k + i) (Nat.add_lt_add_left inside k) (k + j) (Nat.add_lt_add_left before k)

theorem Ahead.mono (ahead : Ahead dst src n) (le : k ≤ n) : Ahead dst src k :=
  fun i inside => ahead i (Nat.lt_of_lt_of_le inside le)

theorem Behind.mono (behind : Behind dst src n) (le : k ≤ n) : Behind dst src k :=
  fun j inside => behind j (Nat.lt_of_lt_of_le inside le)

theorem copy_one (m : BitVec w → β) (dst src : BitVec w) : copy m dst src 1 = Function.update m dst (m src) := by
  funext a
  rw [copy, store, Function.update_apply]
  by_cases here : a = dst
  · rw [if_pos here, here, BitVec.sub_self, BitVec.toNat_zero, if_pos Nat.zero_lt_one, BitVec.add_zero]
  · rw [if_neg here, if_neg]
    intro inside
    have zero : a - dst = 0#w := BitVec.eq_of_toNat_eq (by rw [BitVec.toNat_zero]; exact Nat.lt_one_iff.mp inside)
    exact here (sub_eq_zero.mp zero)

theorem copy_append (fits : k + n ≤ 2^w) (ahead : Ahead dst src (k + n)) :
    copy (copy m dst src k) (dst + BitVec.ofNat w k) (src + BitVec.ofNat w k) n = copy m dst src (k + n) := by
  unfold copy
  rw [← store_append (fun j => m (src + BitVec.ofNat w j)) fits]
  refine store_congr fun j below => ?_
  rw [BitVec.add_assoc, ← BitVec.ofNat_add]
  exact store_apart fun i inside => ahead (k + j) (Nat.add_lt_add_left below k) i (by omega)

theorem copy_prepend (fits : k + n ≤ 2^w) (behind : Behind dst src (k + n)) :
    copy (copy m (dst + BitVec.ofNat w k) (src + BitVec.ofNat w k) n) dst src k = copy m dst src (k + n) := by
  have last : copy m (dst + BitVec.ofNat w k) (src + BitVec.ofNat w k) n =
      store m (dst + BitVec.ofNat w k) (fun j => m (src + BitVec.ofNat w (k + j))) n := by
    refine store_congr fun j below => ?_
    rw [BitVec.add_assoc, ← BitVec.ofNat_add]
  unfold copy at last ⊢
  rw [← store_prepend (fun j => m (src + BitVec.ofNat w j)) fits, last]
  refine store_congr fun i below => ?_
  refine store_apart fun j inside => ?_
  rw [BitVec.add_assoc, ← BitVec.ofNat_add]
  exact behind (k + j) (Nat.add_lt_add_left inside k) i (by omega)

end Block
