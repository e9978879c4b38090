import Mathlib.Data.BitVec
import Mathlib.Logic.Function.Basic
import Mathlib.Data.List.Basic

namespace Ring

variable {α : Type} {size : Nat} [NeZero size] {buf : Fin size → α} {log : List α} {lo hi : Nat}

/-- A ring of `size` slots holds the entries from `lo` up to `hi` of the log, entry `k` in slot `k % size`. -/
structure Holds (buf : Fin size → α) (log : List α) (lo hi : Nat) : Prop where
  order : lo ≤ hi
  room : hi ≤ lo + size
  slot : ∀ k, lo ≤ k → k < hi → log[k]? = some (buf (Fin.ofNat size k))

theorem ofNat_ne {j k : Nat} (less : j < k) (near : k < j + size) : Fin.ofNat size j ≠ Fin.ofNat size k := by
  intro same
  have mod : j % size = k % size := congrArg Fin.val same
  have gap := Nat.sub_mod_eq_zero_of_mod_eq mod.symm
  rw [Nat.mod_eq_of_lt (by omega)] at gap
  omega

theorem Holds.write (holds : Holds buf log lo hi) (free : hi < lo + size) (a : α) :
    Holds (Function.update buf (Fin.ofNat size hi) a) log lo hi := by
  refine ⟨holds.order, holds.room, fun k low high => ?_⟩
  rw [Function.update_of_ne (ofNat_ne high (by omega))]
  exact holds.slot k low high

theorem Holds.append (holds : Holds buf log lo hi) (more : List α) : Holds buf (log ++ more) lo hi := by
  refine ⟨holds.order, holds.room, fun k low high => ?_⟩
  have entry := holds.slot k low high
  rw [List.getElem?_append_left (List.getElem?_eq_some_iff.mp entry).1]
  exact entry

theorem Holds.push (holds : Holds buf log lo hi) (free : hi < lo + size)
    (entry : log[hi]? = some (buf (Fin.ofNat size hi))) : Holds buf log lo (hi + 1) := by
  refine ⟨Nat.le_succ_of_le holds.order, free, fun k low high => ?_⟩
  rcases Nat.lt_succ_iff_lt_or_eq.mp high with high | rfl
  · exact holds.slot k low high
  · exact entry

theorem Holds.read (holds : Holds buf log lo hi) (some : lo < hi) : log[lo]? = .some (buf (Fin.ofNat size lo)) :=
  holds.slot lo (Nat.le_refl lo) some

theorem Holds.pop (holds : Holds buf log lo hi) (some : lo < hi) : Holds buf log (lo + 1) hi :=
  ⟨some, Nat.le_trans holds.room (by omega), fun k low high => holds.slot k (Nat.le_of_succ_le low) high⟩

theorem append_prefix {read : List α} {a : α} (before : read <+: log) (next : log[read.length]? = some a) :
    read ++ [a] <+: log := by
  obtain ⟨rest, rfl⟩ := before
  rw [List.getElem?_append_right (Nat.le_refl _), Nat.sub_self] at next
  cases rest with
  | nil => cases next
  | cons b rest =>
    obtain rfl : b = a := by simpa using next
    exact ⟨rest, by simp⟩

section counters

variable {w : Nat}

theorem ofNat_counter (whole : size ∣ 2^w) (k : Nat) : Fin.ofNat size (BitVec.ofNat w k).toNat = Fin.ofNat size k := by
  apply Fin.ext
  simp only [Fin.ofNat, BitVec.toNat_ofNat]
  exact Nat.mod_mod_of_dvd k whole

theorem counter_sub (order : lo ≤ hi) : BitVec.ofNat w hi - BitVec.ofNat w lo = BitVec.ofNat w (hi - lo) := by
  have split : hi = hi - lo + lo := (Nat.sub_add_cancel order).symm
  conv => lhs; rw [split, BitVec.ofNat_add, BitVec.add_sub_cancel]

theorem counter_eq_iff (order : lo ≤ hi) (small : hi - lo < 2^w) : BitVec.ofNat w lo = BitVec.ofNat w hi ↔ lo = hi := by
  refine ⟨fun same => ?_, fun same => by rw [same]⟩
  have mod : hi % 2^w = lo % 2^w := by simpa using (congrArg BitVec.toNat same).symm
  have gap := Nat.sub_mod_eq_zero_of_mod_eq mod
  rw [Nat.mod_eq_of_lt small] at gap
  omega

end counters

end Ring
