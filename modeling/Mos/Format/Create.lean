import Mos.Format.Links
import Mathlib.Order.Interval.Finset.Nat
import Mathlib.Data.List.Range

namespace Mos.Format

open Fs

variable {c c' : Image} {d d' : Disk} {b i k m n n' x y : Nat} {f g : FilePtr} {v w : Word}

theorem set_comm (ne : (b, i) ≠ (x, y)) : (c.set b i v).set x y w = (c.set x y w).set b i v := by
  funext p q
  by_cases first : (p, q) = (x, y)
  · obtain ⟨rfl, rfl⟩ := Prod.mk.inj first
    rw [Image.set_self, Image.set_ne (Ne.symm ne), Image.set_self]
  · rw [Image.set_ne first]
    by_cases second : (p, q) = (b, i)
    · obtain ⟨rfl, rfl⟩ := Prod.mk.inj second
      rw [Image.set_self, Image.set_self]
    · rw [Image.set_ne second, Image.set_ne second, Image.set_ne first]

theorem Linked.resize (linked : Linked c n f i c' n') (block : f.block ≠ 2) (next : f.block ≠ n + 1)
    (indirect : c.indirect f ≠ 0 → c.indirect f ≠ f.block) :
    Linked (c.set f.block (f.word + 32) v) n f i (c'.set f.block (f.word + 32) v) n' := by
  have same : (c.set f.block (f.word + 32) v).indirect f = c.indirect f := by
    refine congrArg BitVec.toNat (Image.set_ne fun cell => ?_)
    have := congrArg Prod.snd cell
    simp only at this
    omega
  have apart : ∀ {j}, j ≠ 32 → (f.block, f.word + j) ≠ (f.block, f.word + 32) := by
    intro j ne cell
    have := congrArg Prod.snd cell
    simp only at this
    omega
  cases linked with
  | direct low off =>
    refine .direct low fun b ne => ?_
    rw [set_congr off block ne]
    exact congrFun (set_comm (apart (by omega))) b
  | entry high small held off =>
    refine .entry high small (same.symm ▸ held) fun b ne => ?_
    rw [set_congr off block ne, same]
    exact congrFun (set_comm fun cell => indirect held (congrArg Prod.fst cell)) b
  | index high small hole off =>
    refine .index high small (same.trans hole) fun b ne => ?_
    rw [set_congr off block ne, ← set_comm (apart (by decide))]
    exact congrFun (set_comm fun cell => next (congrArg Prod.fst cell).symm) b

theorem HasBlocks.room (has : HasBlocks c f m) (made : Made c n) (reach : Reach c f) : m + 3 ≤ n := by
  have count := Finset.card_le_card_of_injOn (s := Finset.range m) (t := Finset.Ico 3 n) (fun i => c.target f (some i))
    (fun i inside => ?_) fun i inside j _ same => ?_
  · rw [Finset.card_range, Nat.card_Ico] at count
    have := made.low
    omega
  · have held := (has.held i).mpr (Finset.mem_range.mp inside)
    exact Finset.mem_Ico.mpr (made.target_lt reach held)
  · have held := (has.held i).mpr (Finset.mem_range.mp (Finset.mem_coe.mp inside))
    exact Option.some.inj (made.sound.once f f (some i) (some j) reach reach held same).2

/-- What block `i` of a file takes from the disk. -/
def blockCost (i : Nat) : Nat := if i = ndirect then 2 else 1

theorem HasBlocks.cost (has : HasBlocks c f i) : linkCost c f i = blockCost i := by
  have hole := has.indirect
  unfold linkCost blockCost
  unfold ndirect at hole ⊢
  by_cases here : i = 10
  · rw [if_pos here, if_neg]
    rintro (low | held)
    · omega
    · exact held (hole.mpr (by omega))
  · rw [if_neg here, if_pos]
    by_cases low : i < 10
    · exact .inl low
    · exact .inr fun zero => by have := hole.mp zero; omega

theorem findSome_slot (free : Nat → Nat → Bool) (place : Nat → Nat → FilePtr) (inside : k < 16 * m)
    (taken : ∀ i, i < k → free (i / 16) (i % 16) = false) (open_ : free (k / 16) (k % 16) = true) :
    (List.range m).findSome? (fun i => ((List.range file2blk).find? (free i)).map (place i)) =
      some (place (k / 16) (k % 16)) := by
  have split : List.range m = List.range (k / 16) ++ k / 16 :: List.range' (k / 16 + 1) (m - k / 16 - 1) := by
    have whole := List.range'_append_1 (s := 0) (m := k / 16) (n := m - k / 16)
    rw [Nat.zero_add, show k / 16 + (m - k / 16) = m by omega] at whole
    rw [← List.range'_succ, show m - k / 16 - 1 + 1 = m - k / 16 by omega, List.range_eq_range', List.range_eq_range', whole]
  rw [List.findSome?_eq_some_iff]
  refine ⟨_, _, _, split, ?_, fun i before => ?_⟩
  · rw [Option.map_eq_some_iff]
    refine ⟨k % 16, ?_, rfl⟩
    rw [List.find?_range_eq_some]
    refine ⟨open_, List.mem_range.mpr (Nat.mod_lt _ (by decide)), fun j less => ?_⟩
    have := taken (16 * (k / 16) + j) (by omega)
    rw [show (16 * (k / 16) + j) / 16 = k / 16 by omega, show (16 * (k / 16) + j) % 16 = j by omega] at this
    rw [this]
    rfl
  · rw [Option.map_eq_none_iff, List.find?_range_eq_none]
    intro j small
    have below := List.mem_range.mp before
    have small' : j < 16 := small
    have := taken (16 * i + j) (by omega)
    rw [show (16 * i + j) / 16 = i by omega, show (16 * i + j) % 16 = j by omega] at this
    rw [this]
    rfl

theorem byteAt_word (words : Page) (w k : Nat) :
    byteAt words (4 * w + k) = (words (w + k / 4)).extractLsb' (8 * (k % 4)) 8 := by
  unfold byteAt
  rw [show (4 * w + k) / 4 = w + k / 4 by omega, show (4 * w + k) % 4 = k % 4 by omega]
  apply BitVec.eq_of_getLsbD_eq
  intro i small
  simp [small]

section Create

variable (good : Good d)
include good

theorem Good.small : d.nextbno ≤ nblock := good.made.high

theorem Good.lies (reach : Reach d.image f) : Disk.Lies f := (good.made.block_lt reach).imp id fun both => both.1

theorem Good.indirect (reach : Reach d.image f) (held : d.image.indirect f ≠ 0) : 3 ≤ d.image.indirect f :=
  (good.made.target_lt reach (p := none) held).1

theorem Good.nameByte (low : 3 ≤ f.block) (k : Nat) : d.nameByte f k = d.image.nameByte f k := by
  unfold Disk.nameByte Image.nameByte Image.field
  rw [byteAt_word, Disk.image_disk good.small low]

theorem Good.blockOf (reach : Reach d.image f) (held : d.image.target f (some i) ≠ 0) :
    blockOf d f i = d.image.target f (some i) := by
  unfold Format.blockOf Image.target
  unfold Image.target at held
  dsimp only at held ⊢
  by_cases low : i < ndirect
  · have bound : 34 + i < 64 := by
      have : i < 10 := low
      omega
    rw [if_pos low, if_pos low, Disk.field_image good.small (good.lies reach) bound]
  · rw [if_neg low] at held
    rw [if_neg low, if_neg low]
    by_cases valid : i < nindirect ∧ d.image.indirect f ≠ 0
    · have least := good.indirect reach valid.2
      have place : (d.field f 44).toNat = d.image.indirect f :=
        congrArg BitVec.toNat (Disk.field_image good.small (good.lies reach) (by decide))
      rw [if_pos valid, place, Disk.image_disk good.small least]
    · rw [if_neg valid] at held
      exact absurd rfl held

theorem Good.after (bitmap : d'.disk 2 = d.disk 2) : ∀ b, b < nblock → (d'.image.Free b ↔ d'.nextbno ≤ b) :=
  fun _ => free_image (bitmap.trans good.bitmap)

variable (named : Named d.image f) (listing : Listing d.image f k m)
include named listing

theorem Good.free_slot (inside : i < 16 * m) :
    d.nameByte (fileOf (Format.blockOf d f (i / 16)) (i % 16)) 0 = 0 ↔ d.image.Dead (slot d.image f i) := by
  obtain ⟨visible, held⟩ := listing.visible inside
  rw [good.blockOf named.reach held, good.nameByte (good.made.target_lt named.reach held).1]
  exact Iff.rfl

theorem Good.scan (room : k < 16 * m) : createFile f d = some (slot d.image f k, d) := by
  have size : (d.field f 32).toNat / 4096 = m := by
    rw [Disk.field_image good.small (good.lies named.reach) (by decide), listing.size]
    omega
  have found := findSome_slot (fun i j => decide (d.nameByte (fileOf (Format.blockOf d f i) j) 0 = 0))
    (fun i => fileOf (Format.blockOf d f i)) room (fun i below => ?_) ?_
  · unfold createFile
    dsimp only
    rw [size, found, good.blockOf named.reach (listing.visible room).2]
    rfl
  · obtain ⟨inside, live⟩ := listing.live i below
    exact decide_eq_false fun isFree => live ((good.free_slot named listing inside).mp isFree)
  · exact decide_eq_true ((good.free_slot named listing room).mpr (listing.dead k (Nat.le_refl k) room))

theorem Good.no_slot (full : k = 16 * m) : createFile f d = (makeLinkBlock f m d).map fun (bno, d) => (fileOf bno 0, d) := by
  have size : (d.field f 32).toNat / 4096 = m := by
    rw [Disk.field_image good.small (good.lies named.reach) (by decide), listing.size]
    omega
  unfold createFile
  dsimp only
  rw [size]
  split
  · rename_i found
    obtain ⟨i, mem, inner⟩ := List.exists_of_findSome?_eq_some found
    obtain ⟨j, taken, -⟩ := Option.map_eq_some_iff.mp inner
    have below := List.mem_range.mp mem
    have small : j < 16 := List.mem_range.mp (List.mem_of_find?_eq_some taken)
    have isFree := List.find?_some taken
    obtain ⟨inside, live⟩ := listing.live (16 * i + j) (by omega)
    refine absurd ((good.free_slot named listing inside).mp ?_) live
    rw [show (16 * i + j) / 16 = i by omega, show (16 * i + j) % 16 = j by omega]
    exact of_decide_eq_true isFree
  · rfl

end Create

def slotCost (k : Nat) : Nat := if k % 16 = 0 then blockCost (k / 16) else 0

/-- What `create_file` gives and leaves for a directory with `k` entries. -/
structure Created (d : Disk) (f : FilePtr) (k : Nat) (g : FilePtr) (d' : Disk) : Prop where
  place : g = slot d'.image f k
  count : d'.nextbno = d.nextbno + slotCost k
  good : Good d'
  steps : Steps d.image d.nextbno f (Rest d.image f k) d'.image d'.nextbno
  listing : Listing d'.image f k (k / 16 + 1)

theorem makeLinkBlock_spec (good : Good d) (named : Named d.image f) (listing : Listing d.image f (16 * m) m) :
    Exactly (makeLinkBlock f m d) (d.nextbno + blockCost m ≤ nblock) fun (b, d') => Created d f (16 * m) (fileOf b 0) d' := by
  have reach := named.reach
  have lies := good.lies reach
  have room := listing.toHasBlocks.room good.made reach
  have least := good.made.low
  obtain ⟨block, below⟩ := good.made.block_ne reach
  have consistent := good.made.sound.consistent
  have indirect : d.image.indirect f ≠ 0 → d.image.indirect f ≠ f.block := fun held =>
    (consistent.placed reach).indirect_ne consistent (consistent.placed reach) held
  have cost := listing.toHasBlocks.cost
  have fits : m < nindirect ∧ d.nextbno + linkCost d.image f m ≤ nblock ↔ d.nextbno + blockCost m ≤ nblock := by
    rw [cost]
    refine and_iff_right_of_imp fun enough => ?_
    have high : d.nextbno + blockCost m ≤ 1024 := enough
    show m < 1024
    omega
  have spec := linkBlock_spec (c := d.image) (i := m) lies least (fun _ _ => rfl) (good.indirect reach)
  unfold makeLinkBlock
  refine (spec.mono fits fun _ _ after => after).map fun enough ⟨b, mid⟩ after => ?_
  obtain ⟨rfl, count, bitmap, linked⟩ := after
  rw [cost] at count
  have high : mid.nextbno ≤ nblock := count ▸ enough
  -- the size is read after the link is saved
  have size : mid.field f 32 + blockSize = d.image.field f 32 + blockSize := by
    rw [Disk.field_image high lies (by decide)]
    unfold Image.field
    rw [linked.old block below (fun _ => .inl (by omega)) fun held same => indirect held same.symm]
  have sum : (d.image.field f 32 + blockSize).toNat = 4096 * (m + 1) := by
    have top : d.nextbno ≤ 1024 := good.small
    rw [BitVec.toNat_add, listing.size, show blockSize.toNat = 4096 from rfl, Nat.mod_eq_of_lt]
    · omega
    · omega
  dsimp only
  rw [size]
  generalize d.image.field f 32 + blockSize = v at sum ⊢
  have image := Disk.setField_image (v := v) high lies (show 32 < 64 by decide)
  have resized := linked.resize (v := v) block (by omega) indirect
  have bits := good.after ((Disk.setField_two (k := 32) (v := v) lies).trans bitmap)
  rw [Disk.setField_nextbno, image] at bits
  obtain ⟨steps, after, place⟩ := listing.grow good.made named sum resized high bits
  have ready := steps.made
  refine ⟨?_, ?_, ⟨?_, (Disk.setField_two lies).trans (bitmap.trans good.bitmap)⟩, ?_, ?_⟩
  · rw [image]
    unfold slot
    have first : 16 * m / 16 = m := by omega
    rw [first, place, Nat.mul_mod_right]
  · rw [Disk.setField_nextbno, count]
    unfold slotCost
    rw [if_pos (Nat.mul_mod_right 16 m), show 16 * m / 16 = m by omega]
  · rw [Disk.setField_nextbno, image]
    exact ready
  · rw [Disk.setField_nextbno, image]
    exact steps
  · rw [image, show 16 * m / 16 = m by omega]
    exact after

theorem createFile_spec (good : Good d) (named : Named d.image f) (listing : Listing d.image f k (dirBlocks k)) :
    Exactly (createFile f d) (d.nextbno + slotCost k ≤ nblock) fun (g, d') => Created d f k g d' := by
  by_cases full : k % 16 = 0
  · have whole : k = 16 * (k / 16) := by omega
    have blocks : dirBlocks k = k / 16 := by
      unfold dirBlocks
      omega
    generalize k / 16 = m at whole blocks
    subst whole
    rw [blocks] at listing
    rw [good.no_slot named listing rfl]
    have same : d.nextbno + blockCost m ≤ nblock ↔ d.nextbno + slotCost (16 * m) ≤ nblock := by
      unfold slotCost
      rw [if_pos full, Nat.mul_div_cancel_left m (by decide)]
    exact ((makeLinkBlock_spec good named listing).mono same fun _ _ after => after).map fun _ (b, d') after => after
  · have blocks : dirBlocks k = k / 16 + 1 := by
      unfold dirBlocks
      omega
    have free : slotCost k = 0 := if_neg full
    rw [blocks] at listing
    rw [good.scan named listing (by omega), free]
    exact ⟨good.small, rfl, by rw [free]; rfl, good, .refl good.made _, listing⟩

end Mos.Format
