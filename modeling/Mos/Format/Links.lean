import Mos.Format.Grow
import Mos.Lib.Exactly

namespace Mos.Format

open Fs

variable {d d' : Disk} {b i k m n w x : Nat} {f g : FilePtr} {v : Word} {c c' : Image}

/-- The bitmap after `flush_bitmap` for `n` blocks. -/
def flush (c : Image) (n : Nat) : Image := (List.range n).foldl take c

theorem flush_succ (c : Image) (n : Nat) : flush c (n + 1) = take (flush c n) n := by
  unfold flush
  rw [List.range_succ, List.foldl_append]
  rfl

theorem flushBitmap_eq (d : Disk) : flushBitmap d = { d with disk := flush d.disk d.nextbno } := by
  unfold flushBitmap flush
  generalize List.range d.nextbno = blocks
  induction blocks generalizing d with
  | nil => rfl
  | cons i rest ih =>
    rw [List.foldl_cons, List.foldl_cons]
    have block : 2 + i / blockSizeBit = Store.bitmapBlock i := by
      unfold blockSizeBit Store.bitmapBlock
      omega
    have word : i % blockSizeBit / 32 = Store.bitmapWord i := by
      unfold blockSizeBit Store.bitmapWord
      omega
    dsimp only
    rw [block, word]
    exact ih { d with disk := take d.disk i }

theorem flush_off (c : Image) (small : n ≤ nblock) (ne : b ≠ 2) : flush c n b = c b := by
  induction n with
  | zero => rfl
  | succ n ih =>
    rw [flush_succ, take_off, ih (Nat.le_of_succ_le small)]
    rwa [bitmapBlock_small small]

theorem flush_free (c : Image) (n x : Nat) : (flush c n).Free x ↔ c.Free x ∧ n ≤ x := by
  induction n with
  | zero => exact (and_iff_left (Nat.zero_le x)).symm
  | succ n ih =>
    rw [flush_succ, take_free, ih, and_assoc]
    exact and_congr_right fun _ => by omega

theorem flush_two (small : n ≤ nblock) (same : c' 2 = c 2) : flush c' n 2 = flush c n 2 := by
  induction n with
  | zero => exact same
  | succ n ih =>
    rw [flush_succ, flush_succ]
    unfold take
    rw [bitmapBlock_small small, ih (Nat.le_of_succ_le small)]
    simp only [Image.set, Function.update_self, ih (Nat.le_of_succ_le small)]

namespace Disk

def image (d : Disk) : Image := finishFs (flushBitmap d)

theorem image_off (small : d.nextbno ≤ nblock) (ne : b ≠ 2) : d.image b = finishFs d b := by
  unfold image
  rw [flushBitmap_eq]
  funext w
  simp only [finishFs, flush_off _ small ne]

theorem image_two (d : Disk) : d.image 2 = flush d.disk d.nextbno 2 := by
  unfold image
  rw [flushBitmap_eq]
  unfold finishFs
  funext w
  rw [if_neg fun both => absurd both.1 (by decide)]

theorem image_disk (small : d.nextbno ≤ nblock) (low : 3 ≤ b) : d.image b = d.disk b := by
  rw [image_off small (by omega)]
  unfold finishFs
  funext w
  rw [if_neg fun both => by omega]

/-- A store to a block that is neither the super block nor a block of the bitmap. -/
theorem image_update (small : d.nextbno ≤ nblock) (low : 3 ≤ b) (page : Page) :
    image { d with disk := Function.update d.disk b page } = Function.update d.image b page := by
  have ne : (2 : Nat) ≠ b := by omega
  funext x
  by_cases two : x = 2
  · subst two
    rw [image_two, Function.update_of_ne ne, image_two]
    exact flush_two small (Function.update_of_ne ne _ _)
  · rw [image_off (d := { d with disk := Function.update d.disk b page }) small two]
    by_cases here : x = b
    · subst here
      rw [Function.update_self]
      funext w
      unfold finishFs
      rw [if_neg fun both => by omega]
      dsimp only
      rw [Function.update_self]
    · rw [Function.update_of_ne here, image_off small two]
      funext w
      unfold finishFs
      dsimp only
      rw [Function.update_of_ne here]

theorem set_image (small : d.nextbno ≤ nblock) (low : 3 ≤ b) :
    image { d with disk := d.disk.set b i v } = d.image.set b i v := by
  unfold Image.set
  rw [image_update small low, image_disk small low]

/-- A `File` on the disk. -/
def Lies (f : FilePtr) : Prop := f = root ∨ 3 ≤ f.block

theorem field_image (small : d.nextbno ≤ nblock) (lies : Lies f) (inside : k < 64) : d.field f k = d.image.field f k := by
  unfold field Image.field
  by_cases here : f = root
  · subst here
    rw [if_pos rfl, image_off small (by decide)]
    unfold finishFs
    rw [if_pos ⟨rfl, Nat.add_lt_add_left inside _⟩]
  · rw [if_neg here, image_disk small (lies.resolve_left here)]

theorem setField_nextbno (d : Disk) (f : FilePtr) (k : Nat) (v : Word) : (d.setField f k v).nextbno = d.nextbno := by
  unfold setField
  split <;> rfl

theorem setField_two (lies : Lies f) : (d.setField f k v).disk 2 = d.disk 2 := by
  unfold setField
  split
  · rfl
  · rename_i notRoot
    exact set_off (by have := lies.resolve_left notRoot; omega)

theorem setField_image (small : d.nextbno ≤ nblock) (lies : Lies f) (inside : k < 64) :
    (d.setField f k v).image = d.image.set f.block (f.word + k) v := by
  by_cases here : f = root
  · subst here
    have same : d.setField root k v = { d with super := Function.update d.super (root.word + k) v } := if_pos rfl
    rw [same]
    funext x
    by_cases two : x = 2
    · subst two
      rw [image_two, set_off (by decide), image_two]
    · rw [image_off (d := { d with super := Function.update d.super (root.word + k) v }) small two]
      by_cases one : x = 1
      · subst one
        funext w
        unfold finishFs Image.set
        rw [show root.block = 1 from rfl, Function.update_self]
        by_cases at_w : w = root.word + k
        · subst at_w
          rw [if_pos ⟨rfl, Nat.add_lt_add_left inside _⟩, Function.update_self]
          exact Function.update_self ..
        · rw [Function.update_of_ne at_w, image_off small (by decide)]
          unfold finishFs
          dsimp only
          rw [Function.update_of_ne at_w]
      · rw [set_off (show x ≠ root.block from one), image_off small two]
        funext w
        unfold finishFs
        rw [if_neg fun both => one both.1, if_neg fun both => one both.1]
  · have same : d.setField f k v = { d with disk := d.disk.set f.block (f.word + k) v } := if_neg here
    have low := lies.resolve_left here
    rw [same, set_image small low]

theorem field_setField (d : Disk) (f : FilePtr) (k : Nat) (v : Word) : (d.setField f k v).field f k = v := by
  unfold field setField
  split
  · exact Function.update_self ..
  · exact Image.set_self ..

theorem image_next (small : d.nextbno < nblock) (ne : b ≠ 2) : image { d with nextbno := d.nextbno + 1 } b = d.image b := by
  rw [image_off (d := { d with nextbno := d.nextbno + 1 }) small ne, image_off (Nat.le_of_lt small) ne]
  rfl

end Disk

/-- A disk in the course of `fsformat`. -/
structure Good (d : Disk) : Prop where
  made : Made d.image d.nextbno
  bitmap : d.disk 2 = initDisk.disk 2

theorem free_image (bitmap : d.disk 2 = initDisk.disk 2) (below : x < nblock) : d.image.Free x ↔ d.nextbno ≤ x := by
  have small : x < 1024 := below
  rw [free_congr (c := flush d.disk d.nextbno) below d.image_two, flush_free]
  refine and_iff_right ?_
  rw [free_congr below bitmap]
  unfold Image.Free Store.bitmapWord
  rw [bitmapBlock_small below]
  have full : initDisk.disk 2 (x / 32 % 1024) = BitVec.allOnes 32 := by
    have inside : ¬ 128 ≤ 4 * (x / 32 % 1024) := by omega
    unfold initDisk
    dsimp only
    rw [if_neg fun all => inside all.2.2]
    rfl
  rw [full, BitVec.allOnes_and]
  exact bitmapBit_ne_zero x

/-- The blocks that linking takes: the block, and the indirect block when it is missing. -/
def linkCost (c : Image) (f : FilePtr) (i : Nat) : Nat := if i < ndirect ∨ c.indirect f ≠ 0 then 1 else 2

theorem set_congr (view : ∀ b, b ≠ 2 → c' b = c b) (ne : b ≠ 2) (other : x ≠ 2) : c'.set b i v x = c.set b i v x := by
  unfold Image.set
  by_cases here : x = b
  · subst here
    rw [Function.update_self, Function.update_self, view x ne]
  · rw [Function.update_of_ne here, Function.update_of_ne here, view x other]

theorem saveBlockLink_spec (small : d.nextbno ≤ nblock) (lies : Disk.Lies f) (low : 3 ≤ n) (next : d.nextbno = n + 1)
    (view : ∀ b, b ≠ 2 → d.image b = c b) (indirect : c.indirect f ≠ 0 → 3 ≤ c.indirect f) :
    Exactly (saveBlockLink f i n d) (i < nindirect ∧ n + linkCost c f i ≤ nblock) fun d' =>
      d'.nextbno = n + linkCost c f i ∧ d'.disk 2 = d.disk 2 ∧ Linked c n f i d'.image d'.nextbno := by
  have block : f.block ≠ 2 := by
    rcases lies with rfl | above
    · decide
    · omega
  have field : d.field f 44 = c.field f 44 := by
    rw [Disk.field_image small lies (by decide)]
    unfold Image.field
    rw [view _ block]
  have hole : d.field f 44 = 0 ↔ c.indirect f = 0 := by
    rw [field]
    exact BitVec.toNat_eq.trans Iff.rfl
  unfold saveBlockLink linkCost
  split
  · rename_i valid
    split
    · rename_i direct
      have bound : 34 + i < 64 := by
        have : i < 10 := direct
        omega
      rw [if_pos (.inl direct)]
      refine ⟨⟨valid, by omega⟩, (Disk.setField_nextbno ..).trans next, Disk.setField_two lies, ?_⟩
      rw [Disk.setField_nextbno, Disk.setField_image small lies bound, next]
      exact .direct direct fun _ ne => set_congr view block ne
    · rename_i high
      have high' := Nat.le_of_not_lt high
      by_cases zero : d.field f 44 = 0
      · have none : ¬ (i < ndirect ∨ c.indirect f ≠ 0) := by
          rintro (direct | held)
          · exact high direct
          · exact held (hole.mp zero)
        rw [if_pos zero, if_neg none]
        unfold nextBlock
        by_cases room : d.nextbno < nblock
        · rw [if_pos room]
          dsimp only [Option.map_some]
          have below : n + 1 < nblock := next ▸ room
          have bumped := fun b (ne : b ≠ 2) => (Disk.image_next room ne).trans (view b ne)
          have image := Disk.setField_image (d := { d with nextbno := d.nextbno + 1 }) (v := BitVec.ofNat 32 d.nextbno) room lies
            (show 44 < 64 by decide)
          have count := Disk.setField_nextbno { d with nextbno := d.nextbno + 1 } f 44 (BitVec.ofNat 32 d.nextbno)
          have two := Disk.setField_two (d := { d with nextbno := d.nextbno + 1 }) (k := 44) (v := BitVec.ofNat 32 d.nextbno) lies
          have place := congrArg BitVec.toNat (Disk.field_setField { d with nextbno := d.nextbno + 1 } f 44 (BitVec.ofNat 32 d.nextbno))
          generalize Disk.setField { d with nextbno := d.nextbno + 1 } f 44 (BitVec.ofNat 32 d.nextbno) = mid at *
          rw [next] at image count place bumped
          rw [ofNat_toNat_small below] at place
          rw [place]
          refine ⟨⟨valid, below⟩, count, (set_off (by omega)).trans two, ?_⟩
          rw [Disk.set_image (count ▸ below) (Nat.le_succ_of_le low), image]
          show Linked c n f i _ mid.nextbno
          rw [count]
          refine .index high' valid (hole.mp zero) fun b ne => set_congr (fun x other => ?_) (by omega) ne
          exact set_congr bumped block other
        · rw [if_neg room]
          exact fun both => room (by omega)
      · have held : c.indirect f ≠ 0 := fun none => zero (hole.mpr none)
        have least := indirect held
        have place : (d.field f 44).toNat = c.indirect f := congrArg BitVec.toNat field
        rw [if_neg zero, if_pos (.inr held)]
        dsimp only [Option.map_some]
        rw [place]
        refine ⟨⟨valid, by omega⟩, next, set_off (by omega), ?_⟩
        rw [Disk.set_image small least]
        show Linked c n f i _ d.nextbno
        rw [next]
        exact .entry high' valid held fun _ ne => set_congr view (by omega) ne
  · rename_i invalid
    exact fun both => invalid both.1

theorem linkBlock_spec (lies : Disk.Lies f) (low : 3 ≤ d.nextbno) (view : ∀ b, b ≠ 2 → d.image b = c b)
    (indirect : c.indirect f ≠ 0 → 3 ≤ c.indirect f) :
    Exactly (linkBlock f i d) (i < nindirect ∧ d.nextbno + linkCost c f i ≤ nblock) fun (b, d') =>
      b = d.nextbno ∧ d'.nextbno = d.nextbno + linkCost c f i ∧ d'.disk 2 = d.disk 2 ∧
        Linked c d.nextbno f i d'.image d'.nextbno := by
  have cost : 1 ≤ linkCost c f i := by
    unfold linkCost
    split <;> omega
  unfold linkBlock nextBlock
  by_cases room : d.nextbno < nblock
  · rw [if_pos room]
    have spec := saveBlockLink_spec (d := { d with nextbno := d.nextbno + 1 }) (i := i) room lies low rfl
      (fun b ne => (Disk.image_next room ne).trans (view b ne)) indirect
    exact spec.map fun _ d' after => ⟨rfl, after⟩
  · rw [if_neg room]
    exact fun both => room (by omega)

end Mos.Format
