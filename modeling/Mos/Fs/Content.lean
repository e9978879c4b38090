import Mos.Fs.Kept
import Mos.Fs.Tree

namespace Mos.Fs

variable {s t : Store} {b i x : Nat} {v : Word}

/-- What a call that only reads leaves: the same contents, a cache that still has all it had, and the same record. -/
structure Read (s t : Store) : Prop where
  content : t.content = s.content
  cached : ∀ b, s.cache b ≠ none → t.cache b ≠ none
  given : t.given = s.given

theorem Read.refl (s : Store) : Read s s := ⟨rfl, fun _ cached => cached, rfl⟩

theorem Read.trans {u : Store} (first : Read s t) (second : Read t u) : Read s u :=
  ⟨second.content.trans first.content, fun b cached => second.cached b (first.cached b cached), second.given.trans first.given⟩

theorem update_cached {p : Page} {cache : Nat → Option Page} (b : Nat) {x : Nat} (cached : cache x ≠ none) :
    Function.update cache b (some p) x ≠ none := by
  by_cases here : x = b
  · subst here
    simp
  · rw [Function.update_of_ne here]
    exact cached

theorem Read.loaded (read : Read s t) (b : Nat) (hole : t.cache b = none) :
    Read s { t with cache := Function.update t.cache b (some (t.disk b)), dirty := Function.update t.dirty b false,
                    asked := t.asked + 1 } := by
  refine ⟨Eq.trans (funext fun x => ?_) read.content, fun x cached => update_cached b (read.cached x cached), read.given⟩
  unfold Store.content
  by_cases here : x = b
  · subst here
    simp [hole]
  · simp only [Function.update_of_ne here]

theorem read_kept (s : Store) : KeptByRead (Read s) fun _ => True where
  panic := trivial
  wild := trivial
  asked _ read := ⟨read.content, read.cached, read.given⟩
  loaded t b read hole _ := read.loaded b hole
  marked _ _ read := ⟨read.content, read.cached, read.given⟩
  written t b p read cached := by
    refine ⟨Eq.trans (funext fun x => ?_) read.content, read.cached, read.given⟩
    unfold Store.content
    by_cases here : x = b
    · subst here
      simp [cached]
    · simp only [Function.update_of_ne here]

theorem loadBlock_read (b : Nat) (s : Store) : (loadBlock b s).Leaves (Read s) fun _ => True :=
  loadBlock_leaves b (Read.refl s) ⟨rfl, fun _ had => had, rfl⟩ ((Read.refl s).loaded b)

theorem word_content (cached : s.cache b ≠ none) : s.word b i = s.content b i := by
  obtain ⟨p, cached⟩ := Option.ne_none_iff_exists'.mp cached
  simp [Store.word, Store.page, Store.content, cached]

theorem nblocks_content (cached : s.cache 1 ≠ none) : s.nblocks = s.content.nblocks :=
  congrArg BitVec.toNat (word_content cached)

theorem field_content {f : FilePtr} (cached : s.cache f.block ≠ none) (k : Nat) : s.field f k = s.content.field f k :=
  word_content cached

theorem content_setWord (cached : s.cache b ≠ none) : (s.setWord b i v).content = s.content.set b i v := by
  obtain ⟨p, cached⟩ := Option.ne_none_iff_exists'.mp cached
  funext x
  unfold Store.content Store.setWord Image.set
  by_cases here : x = b
  · subst here
    simp [Store.page, cached]
  · simp only [Function.update_of_ne here]

theorem content_setWord_ne (ne : x ≠ b) : (s.setWord b i v).content x = s.content x := by
  unfold Store.content Store.setWord
  simp only [Function.update_of_ne ne]

theorem word_setWord_self (s : Store) (b i : Nat) (v : Word) : (s.setWord b i v).word b i = v := by
  simp [Store.word, Store.page, Store.setWord]

theorem setWord_cached (cached : s.cache x ≠ none) : (s.setWord b i v).cache x ≠ none := update_cached b cached

theorem bitmapBit_disjoint {b x : Nat} (both : Store.bitmapBit b &&& Store.bitmapBit x ≠ 0) : b % 32 = x % 32 := by
  have table : ∀ i j : Fin 32, ((1 : Word) <<< i.val) &&& (1 <<< j.val) ≠ 0 → i = j := by decide +kernel
  have hb : b % 32 < 32 := Nat.mod_lt _ (by decide)
  have hx : x % 32 < 32 := Nat.mod_lt _ (by decide)
  exact congrArg Fin.val (table ⟨b % 32, hb⟩ ⟨x % 32, hx⟩ both)

theorem or_bits {w a z : Word} (some : (w ||| a) &&& z ≠ 0) : w &&& z ≠ 0 ∨ a &&& z ≠ 0 := by
  rw [BitVec.and_or_distrib_right] at some
  by_cases first : w &&& z = 0
  · rw [first] at some
    exact .inr (by simpa using some)
  · exact .inl first

theorem cleared_bits {w a z : Word} (some : (w &&& ~~~a) &&& z ≠ 0) : w &&& z ≠ 0 := by
  intro zero
  rw [BitVec.and_assoc, BitVec.and_comm (~~~a), ← BitVec.and_assoc, zero] at some
  simp at some

theorem cleared_self (w a : Word) : (w &&& ~~~a) &&& a = 0 := by
  rw [BitVec.and_assoc, BitVec.and_comm (~~~a), BitVec.and_not_self]
  simp

theorem same_bit (block : Store.bitmapBlock x = Store.bitmapBlock b) (word : Store.bitmapWord x = Store.bitmapWord b)
    (bit : b % 32 = x % 32) : x = b := by
  unfold Store.bitmapBlock at block
  unfold Store.bitmapWord at word
  omega

theorem free_of_bitmap (isFree : s.bitmap b &&& Store.bitmapBit b ≠ 0) : s.content.Free b := by
  unfold Image.Free
  by_cases cached : s.cache (Store.bitmapBlock b) = none
  · have zero : s.bitmap b = 0 := by simp [Store.bitmap, Store.word, Store.page, cached, zeroPage]
    rw [zero] at isFree
    exact absurd (BitVec.zero_and ..) isFree
  · rw [← word_content cached]
    exact isFree

theorem free_setBitmap (isFree : (s.setBitmap b v).content.Free x) :
    (Store.bitmapBlock x = Store.bitmapBlock b ∧ Store.bitmapWord x = Store.bitmapWord b ∧ v &&& Store.bitmapBit x ≠ 0) ∨
    ¬ (Store.bitmapBlock x = Store.bitmapBlock b ∧ Store.bitmapWord x = Store.bitmapWord b) ∧ s.content.Free x := by
  unfold Image.Free at isFree
  by_cases block : Store.bitmapBlock x = Store.bitmapBlock b
  · have page : (s.setBitmap b v).content (Store.bitmapBlock b) =
        Function.update (s.page (Store.bitmapBlock b)) (Store.bitmapWord b) v := by
      simp [Store.content, Store.setBitmap, Store.setWord]
    rw [block, page] at isFree
    by_cases word : Store.bitmapWord x = Store.bitmapWord b
    · rw [word, Function.update_self] at isFree
      exact .inl ⟨block, word, isFree⟩
    · rw [Function.update_of_ne word, ← block] at isFree
      exact .inr ⟨fun both => word both.2, free_of_bitmap isFree⟩
  · rw [show (s.setBitmap b v).content (Store.bitmapBlock x) = s.content (Store.bitmapBlock x) from content_setWord_ne block]
      at isFree
    exact .inr ⟨fun both => block both.1, isFree⟩

theorem freeBlock_free (isFree : (freeBlock b s).content.Free x) : s.content.Free x ∨ x = b := by
  unfold freeBlock at isFree
  split at isFree
  · exact .inl isFree
  · rcases free_setBitmap isFree with ⟨block, word, bit⟩ | ⟨_, before⟩
    · rcases or_bits bit with before | bit
      · refine .inl (free_of_bitmap ?_)
        unfold Store.bitmap at before ⊢
        rw [block, word]
        exact before
      · exact .inr (same_bit block word (bitmapBit_disjoint bit))
    · exact .inl before

theorem freeBlock_off (ne : b < s.nblocks → x ≠ Store.bitmapBlock b) : (freeBlock b s).content x = s.content x := by
  unfold freeBlock
  split
  · rfl
  · rename_i valid
    exact content_setWord_ne (ne (by omega))

theorem freeBlock_cached (cached : s.cache x ≠ none) : (freeBlock b s).cache x ≠ none := by
  unfold freeBlock
  split
  · exact cached
  · exact setWord_cached cached

theorem freeBlock_given : (freeBlock b s).given = s.given := by
  unfold freeBlock
  split <;> rfl

/-- What `alloc_block` does when it returns block `b`. -/
structure Allocated (s t : Store) (b : Nat) : Prop where
  low : 3 ≤ b
  below : b < s.nblocks
  free : s.content.Free b
  used : ¬ t.content.Free b
  bits : ∀ x, t.content.Free x → s.content.Free x
  off : ∀ x, x ≠ Store.bitmapBlock b → x ≠ b → t.content x = s.content x
  page : t.content b = (s.cache b).getD zeroPage
  cached : ∀ x, s.cache x ≠ none → t.cache x ≠ none
  mapped : t.cache b ≠ none
  given : t.given = s.given

/-- What `alloc_block` may leave when it fails: nothing but a rewritten word of the bitmap. -/
structure Refused (s t : Store) : Prop where
  bits : ∀ x, t.content.Free x → s.content.Free x
  off : ∀ x, (∀ b, b < s.nblocks → x ≠ Store.bitmapBlock b) → t.content x = s.content x
  cached : ∀ x, s.cache x ≠ none → t.cache x ≠ none
  given : t.given = s.given

/-- What `alloc_block_num` does when it returns block `b`. -/
structure Taken (s t : Store) (b : Nat) : Prop where
  low : 3 ≤ b
  below : b < s.nblocks
  free : s.content.Free b
  used : ¬ t.content.Free b
  bits : ∀ x, t.content.Free x → s.content.Free x
  off : ∀ x, x ≠ Store.bitmapBlock b → t.cache x = s.cache x ∧ t.content x = s.content x
  cached : ∀ x, s.cache x ≠ none → t.cache x ≠ none
  given : t.given = s.given

theorem allocBlockNum_spec (s : Store) :
    (allocBlockNum s).Meets (fun b t => Taken s t b) (fun t => t = s) fun _ => True := by
  unfold allocBlockNum
  split
  · rfl
  · rename_i b first
    have isFree : s.bitmap b &&& Store.bitmapBit b ≠ 0 := by simpa using List.find?_some first
    have inside := List.mem_of_find?_eq_some first
    rw [List.mem_range'_1] at inside
    have taken : Taken s (s.setBitmap b (s.bitmap b &&& ~~~Store.bitmapBit b)) b := by
      refine ⟨inside.1, by omega, free_of_bitmap isFree, fun isFree' => ?_, fun x isFree' => ?_, fun x ne => ?_,
        fun x => setWord_cached, rfl⟩
      · rcases free_setBitmap isFree' with ⟨_, _, bit⟩ | ⟨other, _⟩
        · exact bit (cleared_self _ _)
        · exact other ⟨rfl, rfl⟩
      · rcases free_setBitmap isFree' with ⟨block, word, bit⟩ | ⟨_, before⟩
        · have before := cleared_bits bit
          refine free_of_bitmap ?_
          unfold Store.bitmap at before ⊢
          rw [block, word]
          exact before
        · exact before
      · exact ⟨Function.update_of_ne ne _ _, content_setWord_ne ne⟩
    unfold writeBlock
    split
    · trivial
    · rename_i p cached
      have read := (read_kept (s.setBitmap b (s.bitmap b &&& ~~~Store.bitmapBit b))).written _ _ p (Read.refl _) cached
      have content := read.content
      refine ⟨taken.low, taken.below, taken.free, ?_, fun x isFree' => ?_, fun x ne => ⟨(taken.off x ne).1, ?_⟩,
        fun x had => read.cached x (taken.cached x had), read.given.trans taken.given⟩
      · rw [content]
        exact taken.used
      · rw [content] at isFree'
        exact taken.bits x isFree'
      · rw [content]
        exact (taken.off x ne).2

theorem allocBlock_spec (s : Store) :
    (allocBlock s).Meets (fun b t => Allocated s t b) (fun t => Refused s t) fun _ => True := by
  have found := allocBlockNum_spec s
  unfold allocBlock
  cases run : allocBlockNum s with
  | err r t =>
    rw [run] at found
    obtain rfl : t = s := found
    exact ⟨fun _ isFree => isFree, fun _ _ => rfl, fun _ had => had, rfl⟩
  | stop cause => trivial
  | ok b mid =>
    rw [run] at found
    have taken : Taken s mid b := found
    have own := taken.off b (bitmapBlock_ne taken.low).symm
    simp only [Result.ok_bind, mapBlock, sysMemAlloc]
    cases old : mid.cache b with
    | some p =>
      refine ⟨taken.low, taken.below, taken.free, taken.used, taken.bits, fun x ne _ => (taken.off x ne).2, ?_,
        taken.cached, by rw [old]; nofun, taken.given⟩
      rw [← own.1, old]
      simp [Store.content, old]
    | none =>
      dsimp only
      split
      · have content : ∀ x, x ≠ b → Store.content { mid with
            cache := Function.update mid.cache b (some zeroPage), dirty := Function.update mid.dirty b false,
            asked := mid.asked + 1 } x = mid.content x := by
          intro x ne
          simp only [Store.content, Function.update_of_ne ne]
        have zero : Store.content { mid with
            cache := Function.update mid.cache b (some zeroPage), dirty := Function.update mid.dirty b false,
            asked := mid.asked + 1 } b = zeroPage := by simp [Store.content]
        refine ⟨taken.low, taken.below, taken.free, fun isFree => ?_, fun x isFree => ?_, fun x ne here => ?_, ?_,
          fun x had => update_cached b (taken.cached x had), by simp, taken.given⟩
        · unfold Image.Free at isFree
          rw [content _ (bitmapBlock_ne taken.low)] at isFree
          exact taken.used isFree
        · refine taken.bits x ?_
          unfold Image.Free at isFree ⊢
          by_cases here : Store.bitmapBlock x = b
          · rw [here, zero] at isFree
            simp [zeroPage] at isFree
          · rw [content _ here] at isFree
            exact isFree
        · exact (content x here).trans (taken.off x ne).2
        · rw [zero, ← own.1, old]
          rfl
      · have freed := fun x => freeBlock_free (s := { mid with asked := mid.asked + 1 }) (b := b) (x := x)
        refine ⟨fun x isFree => ?_, fun x ne => ?_, fun x had => ?_, ?_⟩
        · rcases freed x isFree with before | rfl
          · exact taken.bits x before
          · exact taken.free
        · exact (freeBlock_off fun _ => ne b taken.below).trans (taken.off x (ne b taken.below)).2
        · exact freeBlock_cached (taken.cached x had)
        · exact freeBlock_given.trans taken.given

end Mos.Fs
