import Mos.Lib.Block
import Mos.Kern.Device
import Mos.User.Window

namespace Mos.Str

open FileLib

abbrev Byte := BitVec 8
abbrev Mem := Word → Byte

/-- A loop that copies `k` bytes a round. -/
def copyRounds (k : Nat) (go : Word → Bool) : Nat → Word → Word → Mem → Option (Word × Word × Mem)
  | 0, _, _, _ => none
  | fuel + 1, dst, src, m =>
    if go dst then copyRounds k go fuel (dst + BitVec.ofNat 32 k) (src + BitVec.ofNat 32 k) (Block.copy m dst src k)
    else some (dst, src, m)

/-- A loop that stores `k` bytes a round. -/
def fillRounds (k : Nat) (bytes : Nat → Byte) (go : Word → Bool) : Nat → Word → Mem → Option (Word × Mem)
  | 0, _, _ => none
  | fuel + 1, dst, m =>
    if go dst then fillRounds k bytes go fuel (dst + BitVec.ofNat 32 k) (Block.store m dst bytes k) else some (dst, m)

/-- `memcpy`, or `none` when one of its loops does not end within `fuel` rounds. -/
def memcpy (fuel : Nat) (m : Mem) (dst src n : Word) : Option Mem :=
  let max := dst + n
  if src &&& 3 ≠ dst &&& 3 then (copyRounds 1 (fun d => d < max) fuel dst src m).map fun (_, _, m) => m
  else
    (copyRounds 1 (fun d => d &&& 3 ≠ 0 && d < max) fuel dst src m).bind fun (dst, src, m) =>
    (copyRounds 4 (fun d => d + 4 ≤ max) fuel dst src m).bind fun (dst, src, m) =>
    (copyRounds 1 (fun d => d < max) fuel dst src m).map fun (_, _, m) => m

/-- `byte | byte << 8 | byte << 16 | byte << 24` -/
def fillWord (byte : Byte) : Word :=
  byte.setWidth 32 ||| byte.setWidth 32 <<< 8 ||| byte.setWidth 32 <<< 16 ||| byte.setWidth 32 <<< 24

def memset (fuel : Nat) (m : Mem) (dst c n : Word) : Option Mem :=
  let max := dst + n
  let byte : Byte := (c &&& 0xff).setWidth 8
  let word := fillWord byte
  (fillRounds 1 (fun _ => byte) (fun d => d &&& 3 ≠ 0 && d < max) fuel dst m).bind fun (dst, m) =>
  (fillRounds 4 (fun j => (word >>> (8 * j)).setWidth 8) (fun d => d + 4 ≤ max) fuel dst m).bind fun (dst, m) =>
  (fillRounds 1 (fun _ => byte) (fun d => d < max) fuel dst m).map fun (_, m) => m

/-- `while (n-- > 0) *--d = *--s;` -/
def copyDown : Nat → Word → Word → Mem → Mem
  | 0, _, _, m => m
  | n + 1, d, s, m => copyDown n (d - 1) (s - 1) (Function.update m (d - 1) (m (s - 1)))

/-- `while (n-- > 0) *d++ = *s++;` -/
def copyUp : Nat → Word → Word → Mem → Mem
  | 0, _, _, m => m
  | n + 1, d, s, m => copyUp n (d + 1) (s + 1) (Function.update m d (m s))

def memmove (m : Mem) (dst src n : Word) : Mem :=
  if src < dst ∧ dst < src + n then copyDown n.toNat (dst + n) (src + n) m else copyUp n.toNat dst src m

/-- The bytes that `memcpy` copies within `fuel` rounds of each loop. -/
def transfers (fuel : Nat) (dst src n : Word) : Option (List (Word × Word)) :=
  let max := dst + n
  if src &&& 3 ≠ dst &&& 3 then (copyLoop 1 (fun d => d < max) fuel dst src).map Prod.fst
  else
    (copyLoop 1 (fun d => d &&& 3 ≠ 0 && d < max) fuel dst src).bind fun (first, dst, src) =>
    (copyLoop 4 (fun d => d + 4 ≤ max) fuel dst src).bind fun (words, dst, src) =>
    (copyLoop 1 (fun d => d < max) fuel dst src).map fun (last, _) => first ++ words ++ last

theorem memcpy_transfers (dst src n : Word) : FileLib.memcpy dst src n = transfers (n.toNat + 1) dst src n := rfl

section Rounds

variable {k fuel l : Nat} {go : Word → Bool} {dst src d s : Word} {m : Mem} {out : List (Word × Word)}

theorem copyRounds_none (h : copyLoop k go fuel dst src = none) : copyRounds k go fuel dst src m = none := by
  induction fuel generalizing dst src m with
  | zero => rfl
  | succ fuel ih =>
    rw [copyLoop] at h
    rw [copyRounds]
    split at h
    · rename_i more
      rw [if_pos more]
      exact ih (Option.map_eq_none_iff.mp h)
    · cases h

theorem fillRounds_none {bytes : Nat → Byte} (h : copyLoop k go fuel dst src = none) :
    fillRounds k bytes go fuel dst m = none := by
  induction fuel generalizing dst src m with
  | zero => rfl
  | succ fuel ih =>
    rw [copyLoop] at h
    rw [fillRounds]
    split at h
    · rename_i more
      rw [if_pos more]
      exact ih (Option.map_eq_none_iff.mp h)
    · cases h

theorem copyRounds_ends (m : Mem) (h : copyLoop k go fuel dst src = some (out, d, s)) :
    ∃ m', copyRounds k go fuel dst src m = some (d, s, m') := by
  induction fuel generalizing dst src m out with
  | zero => cases h
  | succ fuel ih =>
    rw [copyLoop] at h
    rw [copyRounds]
    split at h
    · rename_i more
      obtain ⟨⟨rest, d', s'⟩, ran, eq⟩ := Option.map_eq_some_iff.mp h
      cases eq
      rw [if_pos more]
      exact ih _ ran
    · rename_i done
      cases h
      exact ⟨m, if_neg done⟩

theorem fillRounds_ends {bytes : Nat → Byte} (h : copyLoop k go fuel dst src = some (out, d, s)) :
    ∃ m', fillRounds k bytes go fuel dst m = some (d, m') := by
  induction fuel generalizing dst src m out with
  | zero => cases h
  | succ fuel ih =>
    rw [copyLoop] at h
    rw [fillRounds]
    split at h
    · rename_i more
      obtain ⟨⟨rest, d', s'⟩, ran, eq⟩ := Option.map_eq_some_iff.mp h
      cases eq
      rw [if_pos more]
      exact ih ran
    · rename_i done
      cases h
      exact ⟨m, if_neg done⟩

theorem copyRounds_some (h : copyLoop k go fuel dst src = some (out, d, s)) (fits : out.length ≤ 2^32)
    (ahead : Block.Ahead dst src out.length) :
    copyRounds k go fuel dst src m = some (d, s, Block.copy m dst src out.length) := by
  induction fuel generalizing dst src m out with
  | zero => cases h
  | succ fuel ih =>
    rw [copyLoop] at h
    rw [copyRounds]
    split at h
    · rename_i more
      obtain ⟨⟨rest, d', s'⟩, ran, eq⟩ := Option.map_eq_some_iff.mp h
      cases eq
      rw [List.length_append, List.length_map, List.length_range] at fits ahead ⊢
      rw [if_pos more, ih ran (by omega) ahead.rest, Block.copy_append fits ahead]
    · rename_i done
      cases h
      rw [if_neg done]
      rfl

theorem fillRounds_some {bytes : Nat → Byte} {b : Byte} (h : copyLoop k go fuel dst src = some (out, d, s))
    (fits : out.length ≤ 2^32) (lanes : ∀ j < k, bytes j = b) :
    fillRounds k bytes go fuel dst m = some (d, Block.store m dst (fun _ => b) out.length) := by
  induction fuel generalizing dst src m out with
  | zero => cases h
  | succ fuel ih =>
    rw [copyLoop] at h
    rw [fillRounds]
    split at h
    · rename_i more
      obtain ⟨⟨rest, d', s'⟩, ran, eq⟩ := Option.map_eq_some_iff.mp h
      cases eq
      rw [List.length_append, List.length_map, List.length_range] at fits ⊢
      rw [if_pos more, ih ran (by omega), Block.store_congr lanes, Block.store_append (fun _ => b) fits]
    · rename_i done
      cases h
      rw [if_neg done]
      rfl

/-- A loop whose test holds at all the addresses that it can come to does not end. -/
theorem copyLoop_forever (P : Word → Prop) (stays : ∀ d, P d → go d = true ∧ P (d + BitVec.ofNat 32 k)) (start : P dst) :
    copyLoop k go fuel dst src = none := by
  induction fuel generalizing dst src with
  | zero => rfl
  | succ fuel ih =>
    obtain ⟨more, next⟩ := stays dst start
    rw [copyLoop, if_pos more, ih next]
    rfl

end Rounds

section Transfers

variable {fuel : Nat} {dst src n c : Word} {m : Mem} {out : List (Word × Word)}

theorem memcpy_none (h : transfers fuel dst src n = none) : memcpy fuel m dst src n = none := by
  unfold transfers at h
  unfold memcpy
  dsimp only at h ⊢
  split at h
  · rename_i mixed
    rw [if_pos mixed, copyRounds_none (Option.map_eq_none_iff.mp h)]
    rfl
  · rename_i same
    rw [if_neg same]
    cases ran₁ : copyLoop 1 (fun d => d &&& 3 ≠ 0 && d < dst + n) fuel dst src with
    | none => rw [copyRounds_none ran₁, Option.bind_none]
    | some first =>
      obtain ⟨m₁, ends₁⟩ := copyRounds_ends m ran₁
      rw [ran₁, Option.bind_some] at h
      rw [ends₁, Option.bind_some]
      cases ran₂ : copyLoop 4 (fun d => d + 4 ≤ dst + n) fuel first.2.1 first.2.2 with
      | none => rw [copyRounds_none ran₂, Option.bind_none]
      | some words =>
        obtain ⟨m₂, ends₂⟩ := copyRounds_ends m₁ ran₂
        rw [ran₂, Option.bind_some] at h
        rw [ends₂, Option.bind_some, copyRounds_none (Option.map_eq_none_iff.mp h), Option.map_none]

theorem memcpy_some (h : transfers fuel dst src n = some out) (fits : out.length ≤ 2^32)
    (ahead : Block.Ahead dst src out.length) : memcpy fuel m dst src n = some (Block.copy m dst src out.length) := by
  unfold transfers at h
  unfold memcpy
  dsimp only at h ⊢
  split at h
  · rename_i mixed
    obtain ⟨⟨bytes, d, s⟩, ran, rfl⟩ := Option.map_eq_some_iff.mp h
    rw [if_pos mixed, copyRounds_some ran fits ahead]
    rfl
  · rename_i same
    obtain ⟨⟨first, d₁, s₁⟩, ran₁, h⟩ := Option.bind_eq_some_iff.mp h
    obtain ⟨⟨words, d₂, s₂⟩, ran₂, h⟩ := Option.bind_eq_some_iff.mp h
    obtain ⟨⟨last, d₃, s₃⟩, ran₃, rfl⟩ := Option.map_eq_some_iff.mp h
    obtain ⟨l₁, eq₁, -⟩ := copyLoop_some ran₁
    obtain ⟨l₂, eq₂, -⟩ := copyLoop_some ran₂
    cases eq₁
    cases eq₂
    simp only [List.length_append, length_bytesTo, Nat.one_mul, Nat.add_assoc] at fits ahead ran₁ ran₂ ran₃ ⊢
    have rest := ahead.rest
    rw [if_neg same, copyRounds_some ran₁ (by rw [length_bytesTo]; omega) (by rw [length_bytesTo]; exact ahead.mono (by omega)),
      Option.bind_some]
    dsimp only
    rw [copyRounds_some ran₂ (by rw [length_bytesTo]; omega) (by rw [length_bytesTo]; exact rest.mono (by omega)),
      Option.bind_some]
    dsimp only
    rw [copyRounds_some ran₃ (by omega) rest.rest, Option.map_some, length_bytesTo, length_bytesTo,
      Block.copy_append (by omega) rest, Block.copy_append fits ahead]

theorem fillWord_byte (byte : Byte) {j : Nat} (below : j < 4) : (fillWord byte >>> (8 * j)).setWidth 8 = byte :=
  loadWord_byte (fun _ => byte) 0 below

theorem memset_none (h : transfers fuel dst dst n = none) : memset fuel m dst c n = none := by
  unfold transfers at h
  unfold memset
  dsimp only at h ⊢
  rw [if_neg (not_not.mpr rfl)] at h
  cases ran₁ : copyLoop 1 (fun d => d &&& 3 ≠ 0 && d < dst + n) fuel dst dst with
  | none => rw [fillRounds_none ran₁, Option.bind_none]
  | some first =>
    obtain ⟨m₁, ends₁⟩ : ∃ m₁, fillRounds 1 (fun _ => (c &&& 0xff).setWidth 8) _ fuel dst m = some (first.2.1, m₁) :=
      fillRounds_ends ran₁
    rw [ran₁, Option.bind_some] at h
    rw [ends₁, Option.bind_some]
    cases ran₂ : copyLoop 4 (fun d => d + 4 ≤ dst + n) fuel first.2.1 first.2.2 with
    | none => rw [fillRounds_none ran₂, Option.bind_none]
    | some words =>
      rw [ran₂, Option.bind_some] at h
      obtain ⟨m₂, ends₂⟩ : ∃ m₂, fillRounds 4 (fun j => (fillWord ((c &&& 0xff).setWidth 8) >>> (8 * j)).setWidth 8) _
          fuel first.2.1 m₁ = some (words.2.1, m₂) := fillRounds_ends ran₂
      rw [ends₂, Option.bind_some, fillRounds_none (Option.map_eq_none_iff.mp h), Option.map_none]

theorem memset_some (h : transfers fuel dst dst n = some out) (fits : out.length ≤ 2^32) :
    memset fuel m dst c n = some (Block.store m dst (fun _ => (c &&& 0xff).setWidth 8) out.length) := by
  unfold transfers at h
  unfold memset
  dsimp only at h ⊢
  rw [if_neg (not_not.mpr rfl)] at h
  obtain ⟨⟨first, d₁, s₁⟩, ran₁, h⟩ := Option.bind_eq_some_iff.mp h
  obtain ⟨⟨words, d₂, s₂⟩, ran₂, h⟩ := Option.bind_eq_some_iff.mp h
  obtain ⟨⟨last, d₃, s₃⟩, ran₃, rfl⟩ := Option.map_eq_some_iff.mp h
  obtain ⟨l₁, eq₁, -⟩ := copyLoop_some ran₁
  obtain ⟨l₂, eq₂, -⟩ := copyLoop_some ran₂
  cases eq₁
  cases eq₂
  simp only [List.length_append, length_bytesTo, Nat.one_mul, Nat.add_assoc] at fits ran₁ ran₂ ran₃ ⊢
  generalize (c &&& 0xff).setWidth 8 = byte
  rw [fillRounds_some ran₁ (by rw [length_bytesTo]; omega) fun _ _ => rfl, Option.bind_some]
  dsimp only
  rw [fillRounds_some ran₂ (by rw [length_bytesTo]; omega) fun j below => fillWord_byte byte below, Option.bind_some]
  dsimp only
  rw [fillRounds_some ran₃ (by omega) fun _ _ => rfl, Option.map_some, length_bytesTo, length_bytesTo,
    Block.store_append (fun _ => byte) (by omega), Block.store_append (fun _ => byte) fits]

end Transfers

/-- `memcpy` ends at the end of its range. The test of the word loop wraps around at the last word of the addresses,
    which is itself copied when it is all of the range. -/
def CopyEnds (dst src n : Word) : Prop :=
  if src &&& 3 ≠ dst &&& 3 then dst.toNat + n.toNat < 2^32
  else dst.toNat + n.toNat < 2^32 - 4 ∨ dst.toNat = 2^32 - 4 ∧ n.toNat = 4

instance (dst src n : Word) : Decidable (CopyEnds dst src n) :=
  inferInstanceAs (Decidable (if src &&& 3 ≠ dst &&& 3 then dst.toNat + n.toNat < 2^32
    else dst.toNat + n.toNat < 2^32 - 4 ∨ dst.toNat = 2^32 - 4 ∧ n.toNat = 4))

section Control

variable {k fuel : Nat} {go : Word → Bool} {dst src n : Word} {out : List (Word × Word)}

theorem and_three (d : Word) : d &&& 3 = 0 ↔ d.toNat % 4 = 0 := by
  have low : (d &&& 3).toNat = d.toNat % 4 := by
    rw [BitVec.toNat_and]
    exact Nat.and_two_pow_sub_one_eq_mod d.toNat 2
  rw [← low, ← BitVec.toNat_inj]
  rfl

theorem copyLoop_done {r : List (Word × Word) × Word × Word} (done : go dst = false)
    (h : copyLoop k go fuel dst src = some r) : r = ([], dst, src) := by
  cases fuel with
  | zero => cases h
  | succ fuel =>
    rw [copyLoop, done, if_neg Bool.false_ne_true] at h
    exact (Option.some.inj h).symm

theorem byteLoop_whole (src : Word) (inside : dst.toNat + n.toNat < 2^32) :
    ∃ ends, copyLoop 1 (fun d => d < dst + n) (n.toNat + 1) dst src = some (bytesTo dst src n.toNat, ends) := by
  have whole : dst + n = dst + BitVec.ofNat 32 n.toNat := by rw [BitVec.ofNat_toNat, BitVec.setWidth_eq]
  have sum : (dst + n).toNat = dst.toNat + n.toNat := by
    rw [BitVec.toNat_add]
    exact Nat.mod_eq_of_lt inside
  obtain ⟨l, small, copied, -, stops⟩ := copyLoop_returns 1 (fun d => d < dst + n) dst src n.toNat.lt_succ_self
    (by rw [Nat.one_mul, ← whole]; simp)
  rw [Nat.one_mul] at copied stops
  have far := BitVec.not_lt.mp (of_decide_eq_false stops)
  rw [BitVec.le_def, sum, BitVec.toNat_add, BitVec.toNat_ofNat] at far
  obtain rfl : l = n.toNat := by omega
  exact ⟨_, copied⟩

theorem transfers_whole (ends : CopyEnds dst src n) :
    ∃ fuel out, transfers fuel dst src n = some out ∧ out.length = n.toNat := by
  unfold CopyEnds at ends
  split at ends
  · rename_i mixed
    obtain ⟨stop, copied⟩ := byteLoop_whole src ends
    refine ⟨n.toNat + 1, bytesTo dst src n.toNat, ?_, length_bytesTo ..⟩
    unfold transfers
    dsimp only
    rw [if_pos mixed, copied]
    rfl
  · rename_i same
    rcases ends with low | ⟨top, four⟩
    · exact ⟨n.toNat + 1, _, memcpy_eq low, length_bytesTo ..⟩
    · obtain rfl : dst = 0xfffffffc := BitVec.eq_of_toNat_eq top
      obtain rfl : n = 4 := BitVec.eq_of_toNat_eq four
      refine ⟨2, bytesTo 0xfffffffc src 4, ?_, length_bytesTo ..⟩
      have head : copyLoop 1 (fun d => d &&& 3 ≠ 0 && d < (0xfffffffc + 4 : Word)) 2 0xfffffffc src =
          some ([], 0xfffffffc, src) := by
        rw [copyLoop, if_neg (by decide)]
      have word : copyLoop 4 (fun d => d + 4 ≤ (0xfffffffc + 4 : Word)) 2 0xfffffffc src =
          some (bytesTo 0xfffffffc src 4, 0, src + 4) := by
        rw [copyLoop, if_pos (by decide), copyLoop, if_neg (by decide), Option.map_some]
        dsimp only
        rw [List.append_nil]
        rfl
      have tail : copyLoop 1 (fun d => d < (0xfffffffc + 4 : Word)) 2 0 (src + 4) = some ([], 0, src + 4) := by
        rw [copyLoop, if_neg (by decide)]
      unfold transfers
      dsimp only
      rw [if_neg same, head, Option.bind_some]
      dsimp only
      rw [word, Option.bind_some]
      dsimp only
      rw [tail, Option.map_some, List.nil_append, List.append_nil]

/-- In the last words of the addresses the word loop does not end. -/
theorem wordLoop_forever {d : Word} (top : 2^32 - 4 + d.toNat % 4 ≤ (dst + n).toNat) :
    copyLoop 4 (fun d => d + 4 ≤ dst + n) fuel d src = none := by
  refine copyLoop_forever (fun p => p.toNat % 4 = d.toNat % 4) (fun p same => ?_) rfl
  have next : (p + 4).toNat = (p.toNat + 4) % 2^32 := BitVec.toNat_add p 4
  refine ⟨decide_eq_true ?_, ?_⟩
  · rw [BitVec.le_def, next]
    omega
  · rw [show p + BitVec.ofNat 32 4 = p + 4 from rfl, next]
    omega

theorem transfers_forever (same : ¬ src &&& 3 ≠ dst &&& 3) (high : 2^32 - 4 ≤ dst.toNat + n.toNat)
    (inside : dst.toNat + n.toNat < 2^32) : transfers fuel dst src n = none := by
  have sum : (dst + n).toNat = dst.toNat + n.toNat := by
    rw [BitVec.toNat_add]
    exact Nat.mod_eq_of_lt inside
  unfold transfers
  dsimp only
  rw [if_neg same]
  cases ran : copyLoop 1 (fun d => d &&& 3 ≠ 0 && d < dst + n) fuel dst src with
  | none => rfl
  | some first =>
    obtain ⟨l, rfl, before, stops⟩ := copyLoop_some ran
    rw [Option.bind_some]
    dsimp only
    rw [wordLoop_forever, Option.bind_none]
    simp only [Nat.one_mul] at before stops ⊢
    have short : l ≤ n.toNat := by
      by_contra longer
      have more := before n.toNat (Nat.lt_of_not_le longer)
      simp at more
    have place : (dst + BitVec.ofNat 32 l).toNat = dst.toNat + l := by
      rw [BitVec.toNat_add, BitVec.toNat_ofNat]
      omega
    rw [Bool.and_eq_false_iff, decide_eq_false_iff_not, decide_eq_false_iff_not, not_not, and_three] at stops
    rcases stops with aligned | past
    · rw [aligned, sum]
      exact high
    · have far := BitVec.not_lt.mp past
      rw [BitVec.le_def, sum, place] at far
      rw [sum, place]
      omega

/-- Where it does not end at the end of its range it copies nothing or does not end at all. -/
theorem transfers_short (inside : dst.toNat + n.toNat ≤ 2^32) (fails : ¬ CopyEnds dst src n)
    (h : transfers fuel dst src n = some out) : out = [] ∧ 0 < n.toNat := by
  have bound := dst.isLt
  have wrapped (top : dst.toNat + n.toNat = 2^32) : dst + n = 0 := by
    apply BitVec.eq_of_toNat_eq
    rw [BitVec.toNat_add, top]
    rfl
  unfold CopyEnds at fails
  split at fails
  · rename_i mixed
    have top : dst.toNat + n.toNat = 2^32 := by omega
    refine ⟨?_, by omega⟩
    unfold transfers at h
    dsimp only at h
    rw [if_pos mixed, wrapped top] at h
    obtain ⟨r, ran, rfl⟩ := Option.map_eq_some_iff.mp h
    rw [copyLoop_done (by simp) ran]
  · rename_i same
    obtain ⟨low, last⟩ := not_or.mp fails
    by_cases top : dst.toNat + n.toNat = 2^32
    · refine ⟨?_, by omega⟩
      have behind : ¬ dst + 4 ≤ 0 := by
        rw [BitVec.le_def, show (dst + 4).toNat = (dst.toNat + 4) % 2^32 from BitVec.toNat_add dst 4]
        show ¬ (dst.toNat + 4) % 2^32 ≤ 0
        omega
      unfold transfers at h
      dsimp only at h
      rw [if_neg same, wrapped top] at h
      obtain ⟨first, ran₁, h⟩ := Option.bind_eq_some_iff.mp h
      obtain rfl := copyLoop_done (by simp) ran₁
      obtain ⟨words, ran₂, h⟩ := Option.bind_eq_some_iff.mp h
      obtain rfl := copyLoop_done (decide_eq_false behind) ran₂
      obtain ⟨tail, ran₃, rfl⟩ := Option.map_eq_some_iff.mp h
      obtain rfl := copyLoop_done (by simp) ran₃
      rfl
    · rw [transfers_forever same (by omega) (by omega)] at h
      cases h

end Control

section Move

variable {n : Nat} {d s : Word} {m : Mem}

theorem copyUp_eq (fits : n ≤ 2^32) (ahead : Block.Ahead d s n) : copyUp n d s m = Block.copy m d s n := by
  induction n generalizing d s m with
  | zero => rfl
  | succ n ih =>
    rw [Nat.add_comm] at fits ahead
    rw [copyUp, ← Block.copy_one, show d + 1 = d + BitVec.ofNat 32 1 from rfl, show s + 1 = s + BitVec.ofNat 32 1 from rfl,
      ih (by omega) ahead.rest, Block.copy_append fits ahead, Nat.add_comm]

theorem copyDown_eq (fits : n ≤ 2^32) (behind : Block.Behind d s n) :
    copyDown n (d + BitVec.ofNat 32 n) (s + BitVec.ofNat 32 n) m = Block.copy m d s n := by
  induction n generalizing m with
  | zero => rfl
  | succ n ih =>
    have back (p : Word) : p + BitVec.ofNat 32 (n + 1) - 1 = p + BitVec.ofNat 32 n := by
      rw [BitVec.ofNat_add, ← BitVec.add_assoc]
      exact add_sub_cancel_right _ _
    rw [copyDown, back, back, ← Block.copy_one, ih (by omega) (behind.mono (Nat.le_succ n)), Block.copy_prepend fits behind]

theorem memmove_eq {dst src n : Word} (dstFits : dst.toNat + n.toNat ≤ 2^32) (srcFits : src.toNat + n.toNat ≤ 2^32) :
    memmove m dst src n = Block.copy m dst src n.toNat := by
  have place (p : Word) {i : Nat} (fits : p.toNat + n.toNat ≤ 2^32) (inside : i < n.toNat) :
      (p + BitVec.ofNat 32 i).toNat = p.toNat + i := by
    rw [BitVec.toNat_add, BitVec.toNat_ofNat]
    omega
  have whole (p : Word) : p + n = p + BitVec.ofNat 32 n.toNat := by rw [BitVec.ofNat_toNat, BitVec.setWidth_eq]
  have size : n.toNat ≤ 2^32 := Nat.le_of_lt n.isLt
  have sum : src < dst → (src + n).toNat = src.toNat + n.toNat := by
    intro below
    rw [BitVec.lt_def] at below
    rw [BitVec.toNat_add]
    omega
  unfold memmove
  split
  · rename_i overlap
    rw [whole, whole]
    refine copyDown_eq size fun j inside i before eq => ?_
    have same := congrArg BitVec.toNat eq
    rw [place src srcFits (before.trans inside), place dst dstFits inside] at same
    have below := BitVec.lt_def.mp overlap.1
    omega
  · rename_i clear
    refine copyUp_eq size fun i inside j before eq => ?_
    have same := congrArg BitVec.toNat eq
    rw [place src srcFits inside, place dst dstFits (before.trans inside)] at same
    apply clear
    have below : src < dst := by
      rw [BitVec.lt_def]
      omega
    refine ⟨below, ?_⟩
    rw [BitVec.lt_def, sum below]
    omega

end Move

/-- The ranges of a copy have no byte in common. -/
def Separate (dst src n : Word) : Prop := dst.toNat + n.toNat ≤ src.toNat ∨ src.toNat + n.toNat ≤ dst.toNat

section Ranges

variable {dst src n : Word}

theorem Separate.ahead (separate : Separate dst src n) (dstFits : dst.toNat + n.toNat ≤ 2^32)
    (srcFits : src.toNat + n.toNat ≤ 2^32) : Block.Ahead dst src n.toNat := by
  intro i inside j before eq
  have same := congrArg BitVec.toNat eq
  rw [BitVec.toNat_add, BitVec.toNat_add, BitVec.toNat_ofNat, BitVec.toNat_ofNat] at same
  unfold Separate at separate
  omega

theorem memcpy_iff (separate : Separate dst src n) (dstFits : dst.toNat + n.toNat ≤ 2^32)
    (srcFits : src.toNat + n.toNat ≤ 2^32) :
    (∀ m, ∃ fuel, memcpy fuel m dst src n = some (Block.copy m dst src n.toNat)) ↔ CopyEnds dst src n := by
  constructor
  · intro copies
    by_contra fails
    -- a memory in which the two ranges start with different bytes
    obtain ⟨fuel, copied⟩ := copies fun a => if a = src then 1 else 0
    cases ran : transfers fuel dst src n with
    | none =>
      rw [memcpy_none ran] at copied
      cases copied
    | some out =>
      obtain ⟨rfl, positive⟩ := transfers_short dstFits fails ran
      rw [memcpy_some ran (Nat.zero_le _) fun i inside => absurd inside (Nat.not_lt_zero i)] at copied
      have first := congrFun (Option.some.inj copied) dst
      have apart : dst ≠ src := by
        rintro rfl
        exact Nat.ne_of_gt positive (by unfold Separate at separate; omega)
      rw [List.length_nil, Block.copy, Block.store_zero, Block.copy, Block.store, sub_self, if_neg apart] at first
      simp [positive] at first
  · intro ends m
    obtain ⟨fuel, out, ran, length⟩ := transfers_whole ends
    have ahead := separate.ahead dstFits srcFits
    rw [← length] at ahead ⊢
    exact ⟨fuel, memcpy_some ran (by rw [length]; exact Nat.le_of_lt n.isLt) ahead⟩

theorem memset_iff (c : Word) (dstFits : dst.toNat + n.toNat ≤ 2^32) :
    (∀ m, ∃ fuel, memset fuel m dst c n = some (Block.store m dst (fun _ => c.setWidth 8) n.toNat)) ↔ CopyEnds dst dst n := by
  have byte : (c &&& 0xff).setWidth 8 = c.setWidth 8 := by
    apply BitVec.eq_of_getLsbD_eq
    intro i inside
    have mask : (0xff : Word).getLsbD i = true := by
      rw [show (0xff : Word) = 255#32 from rfl, BitVec.getLsbD_ofNat, show 255 = 2 ^ 8 - 1 from rfl, Nat.testBit_two_pow_sub_one]
      simp [inside]
      omega
    rw [BitVec.getLsbD_setWidth, BitVec.getLsbD_setWidth, BitVec.getLsbD_and, mask, Bool.and_true]
  constructor
  · intro fills
    by_contra fails
    obtain ⟨fuel, filled⟩ := fills fun _ => c.setWidth 8 + 1
    cases ran : transfers fuel dst dst n with
    | none =>
      rw [memset_none ran] at filled
      cases filled
    | some out =>
      obtain ⟨rfl, positive⟩ := transfers_short dstFits fails ran
      rw [memset_some ran (Nat.zero_le _)] at filled
      have first := congrFun (Option.some.inj filled) dst
      rw [List.length_nil, Block.store_zero, Block.store, sub_self] at first
      simp [positive] at first
  · intro ends m
    obtain ⟨fuel, out, ran, length⟩ := transfers_whole ends
    rw [← length, ← byte]
    exact ⟨fuel, memset_some ran (by rw [length]; exact Nat.le_of_lt n.isLt)⟩

end Ranges

/-- For ranges that lie within the addresses: `memcpy` and `memset` meet the byte-wise definition on every memory exactly
    when the test of the word loop does not wrap around, and `memmove` always does. -/
theorem block_copies (dst src n c : Word) (dstFits : dst.toNat + n.toNat ≤ 2^32) (srcFits : src.toNat + n.toNat ≤ 2^32) :
    (Separate dst src n →
      ((∀ m, ∃ fuel, memcpy fuel m dst src n = some (Block.copy m dst src n.toNat)) ↔ CopyEnds dst src n)) ∧
    (∀ m, memmove m dst src n = Block.copy m dst src n.toNat) ∧
    ((∀ m, ∃ fuel, memset fuel m dst c n = some (Block.store m dst (fun _ => c.setWidth 8) n.toNat)) ↔ CopyEnds dst dst n) :=
  ⟨fun separate => memcpy_iff separate dstFits srcFits, fun _ => memmove_eq dstFits srcFits, memset_iff c dstFits⟩

/-- `KSEG2`, from which on no page is mapped. -/
def kseg2 : Nat := 0xc0000000

theorem copyEnds_memory {dst n : Word} (src : Word) (dstHolds : dst.toNat + n.toNat ≤ kseg2) : CopyEnds dst src n := by
  unfold kseg2 at dstHolds
  unfold CopyEnds
  split
  · omega
  · exact .inl (by omega)

/-- On ranges that hold memory `memcpy`, `memmove` and `memset` are the byte-wise copy and fill. -/
theorem memory_copies (dst src n c : Word) (dstHolds : dst.toNat + n.toNat ≤ kseg2) (srcHolds : src.toNat + n.toNat ≤ kseg2) :
    (Separate dst src n → ∀ m, ∃ fuel, memcpy fuel m dst src n = some (Block.copy m dst src n.toNat)) ∧
      (∀ m, memmove m dst src n = Block.copy m dst src n.toNat) ∧
      ∀ m, ∃ fuel, memset fuel m dst c n = some (Block.store m dst (fun _ => c.setWidth 8) n.toNat) := by
  have below : kseg2 ≤ 2^32 := by decide
  obtain ⟨copies, moves, fills⟩ := block_copies dst src n c (dstHolds.trans below) (srcHolds.trans below)
  exact ⟨fun separate => (copies separate).mpr (copyEnds_memory src dstHolds), moves,
    fills.mpr (copyEnds_memory dst dstHolds)⟩

/-- Five bytes between addresses of different alignment, down by seven and up by three. -/
theorem memory_copies_five : (∀ m, ∃ fuel, memcpy fuel m 0x400001 0x400008 5 = some (Block.copy m 0x400001 0x400008 5)) ∧
    (∀ m, memmove m 0x40000b 0x400008 5 = Block.copy m 0x40000b 0x400008 5) ∧
    ∀ m, ∃ fuel, memset fuel m 0x400001 0x161 5 = some (Block.store m 0x400001 (fun _ => 0x61) 5) := by
  obtain ⟨copies, -, fills⟩ := memory_copies 0x400001 0x400008 5 0x161 (by decide) (by decide)
  obtain ⟨-, moves, -⟩ := memory_copies 0x40000b 0x400008 5 0 (by decide) (by decide)
  exact ⟨copies (.inl (by decide)), moves, fills⟩

end Mos.Str
