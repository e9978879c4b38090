import Mos.Fs.Named

namespace Mos.Fs

def Charted (s : Store) : Prop := ∀ b, s.content.IsBitmap b → s.cache b ≠ none

variable {strict : Prop} {s t : Store} {role role' : Nat → Option Owner} {f : FilePtr} {c c' : Image} {b x : Nat} {v : Word}

theorem or_keeps {w a z : Word} (some : w &&& z ≠ 0) : (w ||| a) &&& z ≠ 0 := by
  intro zero
  apply some
  rw [BitVec.and_or_distrib_right] at zero
  exact (BitVec.or_eq_zero_iff.mp zero).1

theorem or_self {w a : Word} (some : a ≠ 0) : (w ||| a) &&& a ≠ 0 := by
  intro zero
  rw [BitVec.and_or_distrib_right, BitVec.and_self] at zero
  exact some (BitVec.or_eq_zero_iff.mp zero).2

theorem clear_keeps {w a z : Word} (apart : a &&& z = 0) (some : w &&& z ≠ 0) : (w &&& ~~~a) &&& z ≠ 0 := by
  intro zero
  apply some
  apply BitVec.eq_of_getLsbD_eq
  intro i small
  have cleared := congrArg (fun v => v.getLsbD i) zero
  have disjoint := congrArg (fun v => v.getLsbD i) apart
  simp [small] at cleared disjoint ⊢
  grind

theorem bitmapBit_ne_zero (b : Nat) : Store.bitmapBit b ≠ 0 := by
  have table : ∀ i : Fin 32, (1 : Word) <<< i.val ≠ 0 := by decide
  exact table ⟨b % 32, Nat.mod_lt _ (by decide)⟩

theorem Charted.bitmap (charted : Charted s) (below : b < s.content.nblocks) : s.cache (Store.bitmapBlock b) ≠ none :=
  charted _ (Image.bitmapBlock_isBitmap below)

theorem Charted.of_cached (charted : Charted s) (size : t.content.nblocks = s.content.nblocks)
    (cached : ∀ x, s.cache x ≠ none → t.cache x ≠ none) : Charted t := by
  intro b isBitmap
  apply cached
  apply charted
  unfold Image.IsBitmap Image.bitmapEnd at isBitmap ⊢
  rw [← size]
  exact isBitmap

theorem setBitmap_free (cached : s.cache (Store.bitmapBlock b) ≠ none) (isFree : s.content.Free x)
    (keeps : Store.bitmapBlock x = Store.bitmapBlock b → Store.bitmapWord x = Store.bitmapWord b →
      s.bitmap b &&& Store.bitmapBit x ≠ 0 → v &&& Store.bitmapBit x ≠ 0) : (s.setBitmap b v).content.Free x := by
  have content : (s.setBitmap b v).content = s.content.set (Store.bitmapBlock b) (Store.bitmapWord b) v :=
    content_setWord cached
  unfold Image.Free at isFree ⊢
  rw [content]
  by_cases here : (Store.bitmapBlock x, Store.bitmapWord x) = (Store.bitmapBlock b, Store.bitmapWord b)
  · obtain ⟨block, word⟩ := Prod.mk.inj here
    rw [block, word] at isFree ⊢
    rw [Image.set_self]
    refine keeps block word ?_
    have same : s.bitmap b = s.content (Store.bitmapBlock b) (Store.bitmapWord b) := word_content cached
    rwa [same]
  · rw [Image.set_ne here]
    exact isFree

theorem freeBlock_keeps (cached : b < s.nblocks → s.cache (Store.bitmapBlock b) ≠ none) (isFree : s.content.Free x) :
    (freeBlock b s).content.Free x := by
  unfold freeBlock
  split
  · exact isFree
  · rename_i valid
    exact setBitmap_free (cached (by omega)) isFree fun _ _ => or_keeps

theorem freeBlock_frees (cached : s.cache (Store.bitmapBlock b) ≠ none) (nonzero : b ≠ 0) (below : b < s.nblocks) :
    (freeBlock b s).content.Free b := by
  have content : (s.setBitmap b (s.bitmap b ||| Store.bitmapBit b)).content =
      s.content.set (Store.bitmapBlock b) (Store.bitmapWord b) (s.bitmap b ||| Store.bitmapBit b) := content_setWord cached
  unfold freeBlock Image.Free
  rw [if_neg (by omega), content, Image.set_self]
  exact or_self (bitmapBit_ne_zero b)

end Mos.Fs
