import Mos.User.Atomic

namespace Mos.FileLib

open Fs FdLib

/-- `n` bytes from `src` on to `dst` on, by target and source. -/
def bytesTo (dst src : Word) (n : Nat) : List (Word × Word) :=
  (List.range n).map fun k => (dst + BitVec.ofNat 32 k, src + BitVec.ofNat 32 k)

theorem bytesTo_add (dst src : Word) (m n : Nat) : bytesTo dst src (m + n) =
    bytesTo dst src m ++ bytesTo (dst + BitVec.ofNat 32 m) (src + BitVec.ofNat 32 m) n := by
  simp only [bytesTo, List.range_add, List.map_append, List.map_map, Function.comp_def, BitVec.ofNat_add, BitVec.add_assoc]

@[simp] theorem length_bytesTo (dst src : Word) (n : Nat) : (bytesTo dst src n).length = n := by simp [bytesTo]

section Memcpy

variable {k : Nat} {go : Word → Bool} {dst src n : Word}

theorem copyLoop_returns (k : Nat) (go : Word → Bool) (dst src : Word) {fuel m : Nat} (enough : m < fuel)
    (stops : go (dst + BitVec.ofNat 32 (k * m)) = false) :
    ∃ l ≤ m, copyLoop k go fuel dst src =
        some (bytesTo dst src (k * l), dst + BitVec.ofNat 32 (k * l), src + BitVec.ofNat 32 (k * l)) ∧
      (∀ j < l, go (dst + BitVec.ofNat 32 (k * j)) = true) ∧ go (dst + BitVec.ofNat 32 (k * l)) = false := by
  induction fuel generalizing m dst src with
  | zero => exact absurd enough (Nat.not_lt_zero m)
  | succ fuel ih =>
    rw [copyLoop]
    cases here : go dst with
    | false =>
      refine ⟨0, Nat.zero_le m, ?_, fun j below => absurd below (Nat.not_lt_zero j), ?_⟩
      · simp [bytesTo]
      · simpa using here
    | true =>
      obtain ⟨m, rfl⟩ : ∃ m', m = m' + 1 := by
        refine Nat.exists_eq_succ_of_ne_zero fun none => ?_
        rw [none, Nat.mul_zero, BitVec.add_zero, here] at stops
        cases stops
      have shift : ∀ (p : Word) j, p + BitVec.ofNat 32 k + BitVec.ofNat 32 (k * j) = p + BitVec.ofNat 32 (k * (j + 1)) := by
        intro p j
        rw [BitVec.add_assoc, ← BitVec.ofNat_add, Nat.mul_succ, Nat.add_comm k]
      obtain ⟨l, small, copied, before, after⟩ := ih (dst + BitVec.ofNat 32 k) (src + BitVec.ofNat 32 k)
        (Nat.lt_of_succ_lt_succ enough) (by rwa [shift])
      refine ⟨l + 1, Nat.succ_le_succ small, ?_, fun j below => ?_, ?_⟩
      · rw [if_pos rfl, copied]
        simp only [Option.map_some, shift]
        rw [Nat.mul_succ, Nat.add_comm (k * l), bytesTo_add]
        simp only [Nat.add_comm k, ← Nat.mul_succ]
        rfl
      · cases j with
        | zero => simpa using here
        | succ j =>
          rw [← shift]
          exact before j (Nat.lt_of_succ_lt_succ below)
      · rw [← shift]
        exact after

theorem copyLoop_some {fuel : Nat} {out : List (Word × Word) × Word × Word} (h : copyLoop k go fuel dst src = some out) :
    ∃ l, out = (bytesTo dst src (k * l), dst + BitVec.ofNat 32 (k * l), src + BitVec.ofNat 32 (k * l)) ∧
      (∀ j < l, go (dst + BitVec.ofNat 32 (k * j)) = true) ∧ go (dst + BitVec.ofNat 32 (k * l)) = false := by
  induction fuel generalizing dst src out with
  | zero => cases h
  | succ fuel ih =>
    rw [copyLoop] at h
    cases here : go dst with
    | false =>
      rw [here, if_neg Bool.false_ne_true] at h
      cases h
      exact ⟨0, by simp [bytesTo], fun j below => absurd below (Nat.not_lt_zero j), by simpa using here⟩
    | true =>
      rw [here, if_pos rfl] at h
      obtain ⟨⟨rest, ends⟩, ran, rfl⟩ := Option.map_eq_some_iff.mp h
      obtain ⟨l, same, before, stops⟩ := ih ran
      cases same
      have shift : ∀ (p : Word) j, p + BitVec.ofNat 32 k + BitVec.ofNat 32 (k * j) = p + BitVec.ofNat 32 (k * (j + 1)) := by
        intro p j
        rw [BitVec.add_assoc, ← BitVec.ofNat_add, Nat.mul_succ, Nat.add_comm k]
      refine ⟨l + 1, ?_, fun j below => ?_, by rwa [← shift]⟩
      · rw [shift, shift, Nat.mul_succ, Nat.add_comm (k * l), bytesTo_add]
        rfl
      · cases j with
        | zero => simpa using here
        | succ j =>
          rw [← shift]
          exact before j (Nat.lt_of_succ_lt_succ below)

theorem add_assoc' (p : Word) (i j : Nat) : p + BitVec.ofNat 32 i + BitVec.ofNat 32 j = p + BitVec.ofNat 32 (i + j) := by
  rw [BitVec.add_assoc, ← BitVec.ofNat_add]

theorem word_loop_stops {p : Word} {left : Nat} (top : (p + BitVec.ofNat 32 left).toNat < 2 ^ 32 - 4) :
    decide (p + BitVec.ofNat 32 (4 * (left / 4)) + 4 ≤ p + BitVec.ofNat 32 left) = false := by
  have last : p + BitVec.ofNat 32 left = p + BitVec.ofNat 32 (4 * (left / 4)) + BitVec.ofNat 32 (left % 4) := by
    rw [add_assoc', Nat.div_add_mod]
  rw [last] at top ⊢
  generalize p + BitVec.ofNat 32 (4 * (left / 4)) = q at top ⊢
  have small : left % 4 < 4 := Nat.mod_lt _ (by decide)
  rw [decide_eq_false_iff_not]
  bv_omega

theorem memcpy_returns (top : (dst + n).toNat < 2 ^ 32 - 4) :
    ∃ l ≤ n.toNat, memcpy dst src n = some (bytesTo dst src l) ∧ ¬ dst + BitVec.ofNat 32 l < dst + n := by
  have whole : dst + n = dst + BitVec.ofNat 32 n.toNat := by rw [BitVec.ofNat_toNat, BitVec.setWidth_eq]
  unfold memcpy
  split
  · obtain ⟨l, small, copied, -, stops⟩ := copyLoop_returns 1 (fun d => d < dst + n) dst src
      n.toNat.lt_succ_self (by rw [Nat.one_mul, ← whole]; simp)
    rw [Nat.one_mul] at copied stops
    refine ⟨l, small, ?_, of_decide_eq_false stops⟩
    dsimp only
    rw [show n.toNat + 1 = n.toNat.succ from rfl, copied]
    rfl
  · obtain ⟨l₁, small₁, copied₁, -, -⟩ := copyLoop_returns 1 (fun d => d &&& 3 ≠ 0 && d < dst + n) dst src
      n.toNat.lt_succ_self (by rw [Nat.one_mul, ← whole]; simp)
    rw [Nat.one_mul] at copied₁
    have rest₁ : dst + n = dst + BitVec.ofNat 32 l₁ + BitVec.ofNat 32 (n.toNat - l₁) := by
      rw [add_assoc', Nat.add_sub_cancel' small₁, whole]
    obtain ⟨l₂, small₂, copied₂, -, -⟩ := copyLoop_returns 4 (fun d => d + 4 ≤ dst + n)
      (dst + BitVec.ofNat 32 l₁) (src + BitVec.ofNat 32 l₁) (show (n.toNat - l₁) / 4 < n.toNat + 1 by omega)
      (by rw [rest₁] at top ⊢; exact word_loop_stops top)
    rw [add_assoc', add_assoc'] at copied₂
    have rest₂ : dst + n = dst + BitVec.ofNat 32 (l₁ + 4 * l₂) + BitVec.ofNat 32 (n.toNat - (l₁ + 4 * l₂)) := by
      rw [add_assoc', Nat.add_sub_cancel' (by omega), whole]
    obtain ⟨l₃, small₃, copied₃, -, stops⟩ := copyLoop_returns 1 (fun d => d < dst + n)
      (dst + BitVec.ofNat 32 (l₁ + 4 * l₂)) (src + BitVec.ofNat 32 (l₁ + 4 * l₂))
      (show n.toNat - (l₁ + 4 * l₂) < n.toNat + 1 by omega) (by rw [Nat.one_mul, ← rest₂]; simp)
    rw [Nat.one_mul] at copied₃ stops
    rw [add_assoc'] at copied₃ stops
    refine ⟨l₁ + 4 * l₂ + l₃, by omega, ?_, of_decide_eq_false stops⟩
    dsimp only
    rw [show n.toNat + 1 = n.toNat.succ from rfl, copied₁, Option.bind_some]
    dsimp only
    rw [copied₂, Option.bind_some]
    dsimp only
    rw [copied₃, Option.map_some, bytesTo_add, bytesTo_add]

theorem memcpy_eq (top : dst.toNat + n.toNat < 2 ^ 32 - 4) : memcpy dst src n = some (bytesTo dst src n.toNat) := by
  have sum : (dst + n).toNat = dst.toNat + n.toNat := by
    rw [BitVec.toNat_add]
    omega
  obtain ⟨l, small, copied, stops⟩ := memcpy_returns (show (dst + n).toNat < 2 ^ 32 - 4 by omega)
  have whole : l = n.toNat := by
    have far := BitVec.not_lt.mp stops
    rw [BitVec.le_def, sum, BitVec.toNat_add, BitVec.toNat_ofNat] at far
    omega
  rw [copied, whole]

theorem memcpy_wrap (low : dst.toNat < 2 ^ 32 - 4) (wraps : 2 ^ 32 ≤ dst.toNat + n.toNat) : memcpy dst src n = some [] := by
  have past : ¬ dst < dst + n := by bv_omega
  have past4 : ¬ dst + 4#32 ≤ dst + n := by bv_omega
  unfold memcpy
  simp [copyLoop, past, past4]

theorem memcpy_length {l : List (Word × Word)} (inside : dst.toNat + n.toNat < 2 ^ 32) (h : memcpy dst src n = some l) :
    n.toNat ≤ l.length := by
  have far : ∀ t, decide (dst + BitVec.ofNat 32 t < dst + n) = false → n.toNat ≤ t := by
    intro t stops
    have le := BitVec.not_lt.mp (of_decide_eq_false stops)
    rw [BitVec.le_def, BitVec.toNat_add, BitVec.toNat_add, BitVec.toNat_ofNat] at le
    omega
  unfold memcpy at h
  split at h
  · obtain ⟨out, ran, rfl⟩ := Option.map_eq_some_iff.mp h
    obtain ⟨t, rfl, -, stops⟩ := copyLoop_some ran
    rw [length_bytesTo, Nat.one_mul]
    rw [Nat.one_mul] at stops
    exact far t stops
  · obtain ⟨out₁, ran₁, h⟩ := Option.bind_eq_some_iff.mp h
    obtain ⟨t₁, rfl, -⟩ := copyLoop_some ran₁
    obtain ⟨out₂, ran₂, h⟩ := Option.bind_eq_some_iff.mp h
    obtain ⟨t₂, rfl, -⟩ := copyLoop_some ran₂
    obtain ⟨out₃, ran₃, rfl⟩ := Option.map_eq_some_iff.mp h
    obtain ⟨t₃, rfl, -, stops⟩ := copyLoop_some ran₃
    rw [add_assoc', add_assoc', ← Nat.add_assoc] at stops
    simp only [List.length_append, length_bytesTo]
    exact far _ stops

end Memcpy

/-- A write that does not fail with the code of a failing call, which copies nothing, has a negative result and copies
    nothing, or it copies into the window only and the file is as long as the write needs. -/
def WriteInside (room : Nat → Bool) (fdnum : Int) (e : Nat) (buf n offset : Word) (w : World) : Prop :=
  ∀ r copied w', fileWrite room fdnum e buf n offset w = .ok (r, copied) w' →
    isErr r ∧ copied = [] ∨
      (∀ c ∈ copied, c.1 - fd2data fdnum < maxFileSize) ∧
        (w'.fSize e).toNat = max (w.fSize e).toNat (offset.toNat + n.toNat)

theorem isErr_iff (r : Word) : isErr r = true ↔ 2 ^ 31 ≤ r.toNat := by
  unfold isErr
  rw [show (0 : Word) = 0#32 from rfl, BitVec.slt_zero_eq_msb, BitVec.msb_eq_decide, decide_eq_true_iff]

section Calls

variable {room : Nat → Bool} {fdnum : Int} {e : Nat} {w w' : World} {buf n offset size : Word}

theorem fdLookup_table (opened : w.fdLookup fdnum = some e) : fdnum < 32 := by
  unfold World.fdLookup at opened
  split at opened
  · assumption
  · cases opened

theorem unmapLoop_words {k m : Nat} (h : unmapLoop fdnum m k w = .ok () w') (i : Nat) : w'.filefd i = w.filefd i := by
  induction m generalizing k w with
  | zero => cases h; rfl
  | succ m ih =>
    rw [unmapLoop] at h
    split at h
    · exact (ih h).trans (filefd_unmap w _ i)
    · cases h

theorem roundPages_lt (size : Word) : roundPages size < 2 ^ 20 := by
  unfold roundPages
  omega

theorem ftruncate_ok (opened : w.fdLookup fdnum = some e) (h : ftruncate room fdnum size w = .ok () w') :
    w'.fSize e = size := by
  unfold ftruncate at h
  split at h
  · cases h
  rw [opened] at h
  obtain ⟨a, w₁, asked, h⟩ := Result.bind_ok h
  obtain ⟨out, w₂, mapped, h⟩ := Result.bind_ok h
  have words : w₁.filefd e = (w.setSize e size).filefd e := by
    obtain ⟨t, served, rfl⟩ := ask_ok asked
    have kept := serveSetSize_opentab (w.filefd e).fileid size (w.setSize e size).server
    rw [served] at kept
    exact congrArg (fun tab => (tab e).ff) kept
  cases out with
  | error r =>
    obtain ⟨b, w₃, -, h⟩ := Result.bind_ok h
    cases h
  | ok u =>
    have inside : roundPages (w.fSize e) + (roundPages size - roundPages (w.fSize e)) ≤ 2 ^ 20 := by
      have low := roundPages_lt (w.fSize e)
      have low' := roundPages_lt size
      omega
    obtain ⟨words', -, -⟩ := mapLoop_ok inside (Result.tested_ok mapped)
    have last := unmapLoop_words h e
    rw [World.fSize, last, words', words]
    exact setSize_fSize w e size

theorem fd2num_table (low : 0 ≤ fdnum) (high : fdnum < 32) : fd2num fdnum = fdnum := by
  unfold fd2num
  omega

theorem fd2data_table (low : 0 ≤ fdnum) (high : fdnum < 32) :
    (fd2data fdnum).toNat = 0x60000000 + 0x400000 * fdnum.toNat := by
  unfold fd2data
  rw [BitVec.toNat_ofInt]
  omega

theorem write_inside (low : 0 ≤ fdnum) (opened : w.fdLookup fdnum = some e)
    (flat : offset.toNat + n.toNat < 2 ^ 32) : WriteInside room fdnum e buf n offset w := by
  intro r copied w' h
  have high := fdLookup_table opened
  have start := fd2data_table low high
  have tot : (offset + n).toNat = offset.toNat + n.toNat := by
    rw [BitVec.toNat_add]
    omega
  by_cases big : maxFileSize < offset + n
  · rw [fileWrite, if_pos big] at h
    cases h
  rw [fileWrite, if_neg big] at h
  obtain ⟨⟨⟩, w₁, grown, h⟩ := Result.bind_ok h
  have fits : offset.toNat + n.toNat ≤ 0x400000 := by
    have le := BitVec.not_lt.mp big
    rw [BitVec.le_def, tot] at le
    exact le
  have place : (fd2data fdnum + offset).toNat = (fd2data fdnum).toNat + offset.toNat := by
    rw [BitVec.toNat_add]
    omega
  rw [memcpy_eq (by omega)] at h
  cases h
  refine .inr ⟨fun c mem => ?_, ?_⟩
  · obtain ⟨k, inside, rfl⟩ := List.mem_map.mp mem
    have below := List.mem_range.mp inside
    have away : fd2data fdnum + offset + BitVec.ofNat 32 k - fd2data fdnum = offset + BitVec.ofNat 32 k := by
      rw [BitVec.add_assoc, BitVec.add_comm, BitVec.add_sub_cancel]
    rw [away, BitVec.lt_def, BitVec.toNat_add, BitVec.toNat_ofNat]
    show _ < 0x400000
    omega
  · split at grown
    · rename_i more
      rw [fd2num_table low high] at grown
      rw [ftruncate_ok opened grown, tot]
      rw [BitVec.lt_def, tot] at more
      omega
    · rename_i enough
      cases grown
      have le := BitVec.not_lt.mp enough
      rw [BitVec.le_def, tot] at le
      omega

def WriteWraps (room : Nat → Bool) (fdnum : Int) (e : Nat) (n offset : Word) (w : World) : Prop :=
  2 ^ 32 ≤ offset.toNat + n.toNat ∧ n.toNat < 2 ^ 31 ∧ offset + n ≤ maxFileSize ∧
    (offset + n ≤ w.fSize e ∨ ∃ w', ftruncate room fdnum (offset + n) w = .ok () w')

theorem write_wraps (low : 0 ≤ fdnum) (opened : w.fdLookup fdnum = some e) (wraps : WriteWraps room fdnum e n offset w) :
    ¬ WriteInside room fdnum e buf n offset w := by
  obtain ⟨past, short, fits, granted⟩ := wraps
  have high := fdLookup_table opened
  have start := fd2data_table low high
  have top : (fd2data fdnum + offset + n).toNat < 2 ^ 32 - 4 := by
    have le : (offset + n).toNat ≤ 0x400000 := fits
    rw [BitVec.add_assoc, BitVec.toNat_add]
    omega
  obtain ⟨l, -, copied, -⟩ := memcpy_returns top
  have grown : ∃ w', (if w.fSize e < offset + n then ftruncate room (fd2num fdnum) (offset + n) w else .ok () w) = .ok () w' := by
    split
    · rename_i more
      rw [fd2num_table low high]
      exact granted.resolve_left (BitVec.not_le.mpr more)
    · exact ⟨w, rfl⟩
  obtain ⟨w', grown⟩ := grown
  intro inside
  have ran : fileWrite room fdnum e buf n offset w = .ok (n, bytesTo (fd2data fdnum + offset) buf l) w' := by
    rw [fileWrite, if_neg (BitVec.not_lt.mpr fits), grown, Result.ok_bind, copied]
  rcases inside _ _ _ ran with ⟨negative, -⟩ | ⟨-, long⟩
  · have large := (isErr_iff n).mp negative
    omega
  · have bound := (w'.fSize e).isLt
    omega

theorem write_inside_iff (low : 0 ≤ fdnum) (opened : w.fdLookup fdnum = some e) :
    WriteInside room fdnum e buf n offset w ↔ ¬ WriteWraps room fdnum e n offset w := by
  refine ⟨fun inside wraps => write_wraps low opened wraps inside, fun good => ?_⟩
  by_cases flat : offset.toNat + n.toNat < 2 ^ 32
  · exact write_inside low opened flat
  have high := fdLookup_table opened
  have start := fd2data_table low high
  intro r copied w' h
  by_cases big : maxFileSize < offset + n
  · rw [fileWrite, if_pos big] at h
    cases h
  rw [fileWrite, if_neg big] at h
  obtain ⟨⟨⟩, w₁, grown, h⟩ := Result.bind_ok h
  have fits := BitVec.not_lt.mp big
  have long : 2 ^ 31 ≤ n.toNat := by
    by_contra short
    refine good ⟨Nat.le_of_not_lt flat, Nat.lt_of_not_le short, fits, ?_⟩
    split at grown
    · rw [fd2num_table low high] at grown
      exact .inr ⟨w₁, grown⟩
    · rename_i enough
      exact .inl (BitVec.not_lt.mp enough)
  have place : (fd2data fdnum + offset).toNat = (fd2data fdnum).toNat + offset.toNat := by
    have le : (offset + n).toNat ≤ 0x400000 := fits
    rw [BitVec.toNat_add] at le ⊢
    omega
  have below : (fd2data fdnum).toNat + offset.toNat < 2 ^ 32 - 4 := by
    have le : (offset + n).toNat ≤ 0x400000 := fits
    rw [BitVec.toNat_add] at le
    omega
  rw [memcpy_wrap (by omega) (by omega)] at h
  cases h
  exact .inl ⟨(isErr_iff n).mpr long, rfl⟩

/-- The number of bytes between `offset` and the end of the read or of the file. -/
def readLength (size n offset : Word) : Nat := min (offset.toNat + n.toNat) size.toNat - offset.toNat

/-- The end of user space. -/
def utop : Nat := 0x7f400000

theorem read_inside_iff (fits : w.fSize e ≤ maxFileSize) (space : buf.toNat + readLength (w.fSize e) n offset ≤ utop) :
    (∃ r, fileRead fdnum e buf n offset w =
        some (r, bytesTo buf (fd2data fdnum + offset) (readLength (w.fSize e) n offset))) ↔
      offset.toNat + n.toNat < 2 ^ 32 ∨ w.fSize e < offset ∨ offset = w.fSize e ∧ 2 ^ 32 ≤ buf.toNat + n.toNat := by
  have size : (w.fSize e).toNat ≤ 0x400000 := fits
  unfold utop at space
  unfold readLength at space ⊢
  unfold fileRead
  dsimp only
  by_cases past : w.fSize e < offset
  · refine iff_of_true ⟨0, ?_⟩ (.inr (.inl past))
    rw [if_pos past]
    have none : min (offset.toNat + n.toNat) (w.fSize e).toNat - offset.toNat = 0 := by
      rw [BitVec.lt_def] at past
      omega
    rw [none]
    rfl
  have upto := BitVec.not_lt.mp past
  rw [BitVec.le_def] at upto
  rw [if_neg past]
  by_cases flat : offset.toNat + n.toNat < 2 ^ 32
  · refine iff_of_true ?_ (.inl flat)
    have sum : (offset + n).toNat = offset.toNat + n.toNat := by
      rw [BitVec.toNat_add]
      omega
    have left : (if w.fSize e < offset + n then w.fSize e - offset else n).toNat =
        min (offset.toNat + n.toNat) (w.fSize e).toNat - offset.toNat := by
      split
      · rename_i more
        rw [BitVec.lt_def, sum] at more
        rw [BitVec.toNat_sub_of_le (BitVec.le_def.mpr upto)]
        omega
      · rename_i less
        rw [BitVec.not_lt, BitVec.le_def, sum] at less
        omega
    rw [memcpy_eq (by omega), left]
    exact ⟨_, rfl⟩
  · have sum : (offset + n).toNat = offset.toNat + n.toNat - 2 ^ 32 := by
      rw [BitVec.toNat_add]
      omega
    have same : ¬ w.fSize e < offset + n := by
      rw [BitVec.lt_def, sum]
      omega
    rw [if_neg same]
    constructor
    · rintro ⟨r, copied⟩
      obtain ⟨l, ran, last⟩ := Option.map_eq_some_iff.mp copied
      obtain ⟨-, rfl⟩ := Prod.mk.inj last
      refine .inr (.inr ?_)
      have wraps : 2 ^ 32 ≤ buf.toNat + n.toNat := by
        by_contra inside
        have long := memcpy_length (Nat.lt_of_not_le inside) ran
        rw [length_bytesTo] at long
        omega
      refine ⟨?_, wraps⟩
      rw [memcpy_wrap (by omega) wraps] at ran
      have none := congrArg List.length (Option.some.inj ran)
      rw [length_bytesTo, List.length_nil] at none
      apply BitVec.eq_of_toNat_eq
      omega
    · rintro (no | no | ⟨last, wraps⟩)
      · exact absurd no flat
      · exact absurd no past
      · refine ⟨n, ?_⟩
        rw [memcpy_wrap (by omega) wraps, ← last]
        have none : min (offset.toNat + n.toNat) offset.toNat - offset.toNat = 0 := by omega
        rw [none]
        rfl

end Calls

/-- A read copies the bytes between its offset and the end, and a write stays in the window, unless their end wraps
    around. -/
theorem file_read_write_inside {room : Nat → Bool} {fdnum : Int} {e : Nat} {w : World} (table : 0 ≤ fdnum)
    (opened : w.fdLookup fdnum = some e) (fits : w.fSize e ≤ maxFileSize) (buf n offset : Word) :
    (buf.toNat + readLength (w.fSize e) n offset ≤ utop →
      ((∃ r, fileRead fdnum e buf n ((w.seek e offset).filefd e).offset (w.seek e offset) =
          some (r, bytesTo buf (fd2data fdnum + offset) (readLength (w.fSize e) n offset))) ↔
        offset.toNat + n.toNat < 2 ^ 32 ∨ w.fSize e < offset ∨ offset = w.fSize e ∧ 2 ^ 32 ≤ buf.toNat + n.toNat)) ∧
      (WriteInside room fdnum e buf n ((w.seek e offset).filefd e).offset (w.seek e offset) ↔
        ¬ WriteWraps room fdnum e n offset (w.seek e offset)) := by
  have sought : ((w.seek e offset).filefd e).offset = offset := by
    simp [World.seek, World.setFilefd, World.filefd, Server.setOpen]
  have size : (w.seek e offset).fSize e = w.fSize e := by
    simp [World.seek, World.setFilefd, World.fSize, World.filefd, Server.setOpen]
  have opened' : (w.seek e offset).fdLookup fdnum = some e := by
    have dev : ∀ i, ((w.seek e offset).filefd i).devId = (w.filefd i).devId := by
      intro i
      by_cases here : i = e
      · subst here
        simp [World.seek, World.setFilefd, World.filefd, Server.setOpen]
      · simp [World.seek, World.setFilefd, World.filefd, Server.setOpen, here]
    rw [← opened, World.fdLookup, World.fdLookup]
    simp only [dev]
    rfl
  rw [sought, ← size]
  exact ⟨read_inside_iff (by rwa [size]), write_inside_iff table opened'⟩

theorem file_read_write_inside_full :
    WriteInside (fun _ => true) 0 0 0x400000 4 0x3ffffc ((fullWorld 0x400000).seek 0 0x3ffffc) := by
  have low : (0 : Int) ≤ 0 := Int.le_refl 0
  refine (file_read_write_inside (e := 0) (w := fullWorld 0x400000) low rfl (by decide) 0x400000 4 0x3ffffc).2.mpr
    fun wraps => ?_
  exact absurd wraps.1 (by decide)

/-- A write of one byte at the last offset stores below the window, and a read of 2^32 - 1 bytes at offset 16 of a file
    of 4096 copies none. -/
theorem file_read_write_wrap :
    (fullWorld 0).fdLookup 0 = some 0 ∧ ¬ WriteInside (fun _ => true) 0 0 0x400000 1 0xffffffff ((fullWorld 0).seek 0 0xffffffff) ∧
      ¬ ∃ r, fileRead 0 0 0x400000 0xffffffff 16 ((fullWorld 4096).seek 0 16) =
        some (r, bytesTo 0x400000 (fd2data 0 + 16) (readLength 4096 0xffffffff 16)) := by
  refine ⟨rfl, write_wraps (by decide) rfl ⟨by decide, by decide, by decide, .inl (by decide)⟩, fun exact => ?_⟩
  have good := (read_inside_iff (w := (fullWorld 4096).seek 0 16) (e := 0) (by decide) (by decide)).mp exact
  exact absurd good (by decide)

end Mos.FileLib
