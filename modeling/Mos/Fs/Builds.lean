import Mos.Fs.Walk
import Mos.Fs.Truncate

namespace Mos.Fs

/-- The loop of `dir_alloc_file` alone: the free slot, or none when the blocks are full. -/
def slotScan (dir : FilePtr) : Nat → Nat → Store → Res (Option FilePtr)
  | 0, _, s => .ok none s
  | n + 1, i, s => (fileGetBlock dir i s).bind fun b s =>
      match (List.range file2blk).find? fun j => s.nameByte (fileOf b j) 0 = 0 with
      | some j => .ok (some (fileOf b j)) s
      | none => slotScan dir n (i + 1) s

/-- What `dir_alloc_file` does when it finds no free slot. -/
def extendDir (dir : FilePtr) (n : Nat) (s : Store) : Res FilePtr :=
  (fileGetBlock dir n (s.setField dir 32 (s.fSize dir + blockSize))).bind fun b s => .ok (fileOf b 0) s

theorem dirAllocScan_eq (dir : FilePtr) (n i : Nat) (s : Store) : dirAllocScan dir n i s =
    (slotScan dir n i s).bind fun f s => match f with
      | some f => .ok f s
      | none => extendDir dir (i + n) s := by
  induction n generalizing i s with
  | zero => rfl
  | succ n ih =>
    rw [dirAllocScan, slotScan]
    cases fileGetBlock dir i s with
    | err e t => rfl
    | stop cause => rfl
    | ok b t =>
      simp only [Result.ok_bind]
      cases (List.range file2blk).find? fun j => decide (t.nameByte (fileOf b j) 0 = 0) with
      | some j => rfl
      | none =>
        dsimp only
        rw [ih, show i + 1 + n = i + (n + 1) by omega]

variable {s t u : Store} {f d dir : FilePtr} {b i j x y k m : Nat} {v : Word} {name : List Byte}

section Builds

/-- A word behind the bitmap that is not 0 stays, but for the `f_dir` of a slot, which is set again. -/
structure Builds (s t : Store) : Prop where
  cached : ∀ x, s.cache x ≠ none → t.cache x ≠ none
  nblocks : t.content.nblocks = s.content.nblocks
  same : ∀ y m, ¬ s.content.IsBitmap y → s.cache y ≠ none → s.content y m ≠ 0 → m % 64 ≠ 45 → t.content y m = s.content y m
  held : ∀ y m, ¬ s.content.IsBitmap y → s.cache y ≠ none → s.content y m ≠ 0 → t.content y m ≠ 0

theorem Image.IsBitmap.of_nblocks {c c' : Image} (same : c'.nblocks = c.nblocks) : c'.IsBitmap b ↔ c.IsBitmap b := by
  unfold Image.IsBitmap Image.bitmapEnd
  rw [same]

theorem Builds.of_words (cached : ∀ x, s.cache x ≠ none → t.cache x ≠ none) (nblocks : t.content.nblocks = s.content.nblocks)
    (words : ∀ y m, ¬ s.content.IsBitmap y → s.cache y ≠ none → s.content y m ≠ 0 → t.content y m = s.content y m) : Builds s t where
  cached := cached
  nblocks := nblocks
  same y m plain here some _ := words y m plain here some
  held y m plain here some := by
    rw [words y m plain here some]
    exact some

theorem Builds.trans (first : Builds s t) (second : Builds t u) : Builds s u where
  cached x had := second.cached x (first.cached x had)
  nblocks := second.nblocks.trans first.nblocks
  same y m plain here some other := by
    have between := first.same y m plain here some other
    rw [← between]
    exact second.same y m (fun no => plain ((Image.IsBitmap.of_nblocks first.nblocks).mp no)) (first.cached y here)
      (between ▸ some) other
  held y m plain here some := second.held y m (fun no => plain ((Image.IsBitmap.of_nblocks first.nblocks).mp no))
    (first.cached y here) (first.held y m plain here some)

theorem Read.builds (read : Read s t) : Builds s t :=
  .of_words read.cached (by rw [read.content]) fun y m _ _ _ => by rw [read.content]

theorem Builds.refl (s : Store) : Builds s s := (Read.refl s).builds

theorem one_plain (c : Image) : ¬ c.IsBitmap 1 := fun no => absurd no.1 (by decide)

/-- The blocks of the cache behind the bitmap are the same. -/
structure Behind (s t : Store) : Prop where
  cached : ∀ x, s.cache x ≠ none → t.cache x ≠ none
  words : ∀ y, ¬ s.content.IsBitmap y → s.cache y ≠ none → t.content y = s.content y

theorem Behind.builds (super : s.cache 1 ≠ none) (behind : Behind s t) : Builds s t :=
  .of_words behind.cached (congrArg BitVec.toNat (congrFun (behind.words 1 (one_plain _) super) 1))
    fun y m plain here _ => by rw [behind.words y plain here]

theorem allocBlock_behind (super : s.cache 1 ≠ none) :
    (allocBlock s).Meets (fun b t => Behind s t ∧ 0 < b ∧ b < s.content.nblocks) (Behind s) fun _ => True := by
  have size := nblocks_content super
  refine (allocBlock_spec s).mono (fun b t done => ?_) (fun t done => ?_) fun _ h => h
  · have below := done.below
    rw [size] at below
    refine ⟨⟨done.cached, fun y plain here => ?_⟩, Nat.lt_of_lt_of_le (by decide) done.low, below⟩
    by_cases own : y = b
    · obtain ⟨p, cached⟩ := Option.ne_none_iff_exists'.mp here
      rw [own, done.page, ← own]
      simp [Store.content, cached]
    · refine done.off y ?_ own
      rintro rfl
      exact plain (Image.bitmapBlock_isBitmap below)
  · refine ⟨done.cached, fun y plain _ => done.off y fun b below => ?_⟩
    rintro rfl
    rw [size] at below
    exact plain (Image.bitmapBlock_isBitmap below)

theorem builds_setWord (there : s.cache x ≠ none) (pos : 0 < s.content.nblocks)
    (free : s.content.IsBitmap x ∨ s.content x k = 0) : Builds s (s.setWord x k v) := by
  have content : (s.setWord x k v).content = s.content.set x k v := content_setWord there
  have words : ∀ y m, ¬ s.content.IsBitmap y → s.content y m ≠ 0 → (s.setWord x k v).content y m = s.content y m := by
    intro y m plain some
    rw [content]
    refine Image.set_ne fun same => ?_
    obtain ⟨rfl, rfl⟩ := Prod.mk.inj same
    rcases free with isBitmap | zero
    · exact plain isBitmap
    · exact some zero
  refine .of_words (fun _ => setWord_cached) ?_ fun y m plain _ some => words y m plain some
  refine congrArg BitVec.toNat (words 1 1 (one_plain _) fun zero => ?_)
  unfold Image.nblocks at pos
  rw [zero] at pos
  exact absurd pos (by decide)

theorem builds_mark (there : s.cache b ≠ none) (some : v ≠ 0) : Builds s (s.setField (fileOf b j) 45 v) := by
  have content : (s.setField (fileOf b j) 45 v).content = s.content.set b (64 * j + 45) v := content_setWord there
  have other : ∀ y m, m % 64 ≠ 45 → (s.setField (fileOf b j) 45 v).content y m = s.content y m := by
    intro y m ne
    rw [content]
    refine Image.set_ne fun same => ne ?_
    have word : m = 64 * j + 45 := congrArg Prod.snd same
    omega
  refine ⟨fun _ => setWord_cached, congrArg BitVec.toNat (other 1 1 (by decide)), fun y m _ _ _ ne => other y m ne, fun y m _ _ held => ?_⟩
  rw [content]
  by_cases here : (y, m) = (b, 64 * j + 45)
  · obtain ⟨rfl, rfl⟩ := Prod.mk.inj here
    rwa [Image.set_self]
  · rwa [Image.set_ne here]

theorem readBlock_builds (b : Nat) (s : Store) :
    (readBlock b s).Meets (fun _ t => Builds s t ∧ t.cache b ≠ none ∧ t.content = s.content ∧ b < s.nblocks) (Builds s) fun _ => True := by
  have spec := readBlock_spec b s
  unfold readBlock at spec ⊢
  split
  · trivial
  · rename_i below
    rw [if_neg below] at spec
    exact spec.mono (fun _ _ after => ⟨after.1.builds, after.2, after.1.content, Nat.lt_of_not_le below⟩)
      (fun _ after => after.1.builds) fun _ _ => trivial

theorem attached_builds {p : Option Nat} (super : s.cache 1 ≠ none) (there : s.cache x ≠ none) (zero : s.word x k = 0)
    (run : allocBlock s = .ok b t) :
    Builds s ((t.give s f p b).setWord x k (BitVec.ofNat 32 b)) ∧ b ≠ 0 ∧ b < s.content.nblocks ∧
      ((t.give s f p b).setWord x k (BitVec.ofNat 32 b)).content x k = BitVec.ofNat 32 b := by
  have got := allocBlock_behind super
  rw [run] at got
  obtain ⟨behind, positive, below⟩ := got
  have builds := behind.builds super
  have given : Builds s (t.give s f p b) := ⟨builds.cached, builds.nblocks, builds.same, builds.held⟩
  refine ⟨given.trans (builds_setWord (given.cached _ there) ?_ ?_), Nat.ne_of_gt positive, below, ?_⟩
  · rw [given.nblocks]
    omega
  · by_cases isBitmap : s.content.IsBitmap x
    · exact .inl ((Image.IsBitmap.of_nblocks given.nblocks).mpr isBitmap)
    · refine .inr ((congrFun (behind.words x isBitmap there) k).trans ?_)
      rw [← word_content there]
      exact zero
  · rw [content_setWord (given.cached _ there), Image.set_self]

theorem attach_builds {index : Option Nat} (super : s.cache 1 ≠ none) (there : s.cache x ≠ none) (zero : s.word x k = 0) :
    ((allocBlock s).bind fun b t =>
      (.ok () ((t.give s f index b).setWord x k (BitVec.ofNat 32 b)) : Res Unit)).Leaves (Builds s) fun _ => True := by
  have refused := allocBlock_behind super
  cases run : allocBlock s with
  | ok b t => exact (attached_builds super there zero run).1
  | err r t =>
    rw [run] at refused
    exact Behind.builds super refused
  | stop cause => trivial

theorem fileBlockWalk_builds (super : s.cache 1 ≠ none) (cached : s.cache f.block ≠ none) (i : Nat) :
    (fileBlockWalk f i true s).Meets (fun ptr t => Builds s t ∧ t.cache ptr.1 ≠ none) (Builds s) fun _ => True := by
  unfold fileBlockWalk
  split
  · exact ⟨.refl s, cached⟩
  · split
    · refine Result.Meets.bind (P := fun _ t => Builds s t) ?_ fun _ t builds => ?_
      · split
        · rename_i zero
          exact attach_builds super cached zero
        · exact .refl s
      · refine ((readBlock_builds _ t).mono (fun _ _ h => h) (fun _ read => builds.trans read) fun _ h => h).bind fun _ u after => ?_
        obtain ⟨read, there, content, -⟩ := after
        have same : u.fIndirect f = t.fIndirect f := by
          have here := builds.cached _ cached
          rw [show t.fIndirect f = _ from field_content here 44, show u.fIndirect f = _ from field_content (read.cached _ here) 44,
            content]
        exact ⟨builds.trans read, same ▸ there⟩
    · exact .refl s

theorem fileGetBlock_builds (super : s.cache 1 ≠ none) (cached : s.cache f.block ≠ none) (i : Nat) :
    (fileGetBlock f i s).Meets (fun b t => Builds s t ∧ t.cache b ≠ none ∧ b < t.content.nblocks) (Builds s) fun _ => True := by
  have mapped : (fileMapBlock f i true s).Leaves (Builds s) fun _ => True := by
    refine (fileBlockWalk_builds super cached i).bind fun ptr t walked => ?_
    obtain ⟨builds, there⟩ := walked
    refine Result.Meets.bind (P := fun _ => Builds s) ?_ fun _ _ h => h
    split
    · rename_i zero
      exact (attach_builds (builds.cached 1 super) there zero).mono fun _ more => builds.trans more
    · exact builds
  refine mapped.bind fun b t builds => ?_
  refine ((readBlock_builds b t).mono (fun _ _ h => h) (fun _ read => builds.trans read) fun _ h => h).bind fun _ u after => ?_
  obtain ⟨read, there, content, below⟩ := after
  refine ⟨builds.trans read, there, ?_⟩
  rw [content, ← nblocks_content (builds.cached 1 super)]
  exact below

/-- A `File` of the cache whose address is not 0: the root or a slot. -/
structure Standing (s : Store) (f : FilePtr) : Prop where
  cached : s.cache f.block ≠ none
  va : f.va ≠ 0
  slot : f = root ∨ f.word % 64 = 0

theorem Standing.builds (standing : Standing s f) (builds : Builds s t) : Standing t f :=
  ⟨builds.cached _ standing.cached, standing.va, standing.slot⟩

theorem fileOf_va (below : b < 0x40000) (small : j < file2blk) : (fileOf b j).va ≠ 0 := by
  have bound : j < 16 := small
  unfold FilePtr.va fileOf diskmap
  dsimp only
  intro zero
  have base : (0x10000000 : Word).toNat = 0x10000000 := rfl
  have none : (0 : Word).toNat = 0 := rfl
  have value := congrArg BitVec.toNat zero
  rw [BitVec.toNat_add, BitVec.toNat_ofNat, base, none] at value
  omega

theorem dirScan_builds (super : s.cache 1 ≠ none) (disk : s.content.nblocks ≤ 0x40000) (standing : Standing s dir) (n i : Nat) :
    (dirScan dir name n i s).Meets (fun g t => Builds s t ∧ Standing t g) (Builds s) fun _ => True := by
  induction n generalizing i s with
  | zero => exact .refl s
  | succ n ih =>
    refine (fileGetBlock_builds super standing.cached i).bind fun b t got => ?_
    obtain ⟨builds, there, below⟩ := got
    rw [builds.nblocks] at below
    split
    · rename_i j found
      have small := List.mem_range.mp (List.mem_of_find?_eq_some found)
      exact ⟨builds.trans (builds_mark there standing.va), setWord_cached there, fileOf_va (Nat.lt_of_lt_of_le below disk) small,
        .inr (Nat.mul_mod_right 64 j)⟩
    · exact (ih (builds.cached 1 super) (builds.nblocks ▸ disk) (standing.builds builds) (i + 1)).mono
        (fun _ _ after => ⟨builds.trans after.1, after.2⟩) (fun _ more => builds.trans more) fun _ h => h

theorem walkElements_builds (super : s.cache 1 ≠ none) (disk : s.content.nblocks ≤ 0x40000) (standing : Standing s f)
    (names : List (List Byte)) (at_dir : Option FilePtr) :
    (walkElements at_dir f names s).Meets
      (fun w t => Builds s t ∧ ∀ d, w.code = -eNotFound → w.dir = some d → Standing t d) (fun _ => False) fun _ => True := by
  induction names generalizing at_dir f s with
  | nil => exact ⟨.refl s, fun _ no => absurd no (by decide : (0 : Word) ≠ -eNotFound)⟩
  | cons name rest ih =>
    unfold walkElements
    split
    · exact ⟨.refl s, fun _ _ same => by cases same⟩
    · split
      · exact ⟨.refl s, fun _ _ same => by cases same⟩
      · refine (Result.Meets.tested (dirScan_builds super disk standing _ 0)).bind fun r t after => ?_
        cases r with
        | ok g =>
          obtain ⟨builds, found⟩ := after
          exact (ih (builds.cached 1 super) (builds.nblocks ▸ disk) found (some f)).mono
            (fun _ _ after => ⟨builds.trans after.1, after.2⟩) (fun _ no => no) fun _ h => h
        | error r =>
          have builds : Builds s t := after
          dsimp only
          split
          · exact ⟨builds, fun d _ same => Option.some.inj same ▸ standing.builds builds⟩
          · exact ⟨builds, fun _ _ same => by cases same⟩

theorem slotScan_builds (super : s.cache 1 ≠ none) (cached : s.cache dir.block ≠ none) (n i : Nat) :
    (slotScan dir n i s).Leaves (Builds s) fun _ => True := by
  induction n generalizing i s with
  | zero => exact .refl s
  | succ n ih =>
    refine (fileGetBlock_builds super cached i).bind fun b t got => ?_
    split
    · exact got.1
    · exact (ih (got.1.cached 1 super) (got.1.cached _ cached) (i + 1)).mono fun _ more => got.1.trans more

end Builds

section Refused

theorem bit_restored {w : Word} (some : w &&& Store.bitmapBit b ≠ 0) : (w &&& ~~~Store.bitmapBit b) ||| Store.bitmapBit b = w := by
  have bit : Store.bitmapBit b = BitVec.twoPow 32 (b % 32) := by
    unfold Store.bitmapBit
    rw [BitVec.twoPow_eq]
    rfl
  rw [bit] at some ⊢
  rw [BitVec.and_twoPow] at some
  have set : w.getLsbD (b % 32) = true := by
    by_contra no
    exact some (if_neg no)
  apply BitVec.eq_of_getLsbD_eq
  intro i small
  by_cases here : i = b % 32
  · subst here
    simp [set, small]
  · simp [small, here]

theorem Image.set_set (c : Image) (i : Nat) (v w : Word) : (c.set b i v).set b i w = c.set b i w := by
  unfold Image.set
  rw [Function.update_self, Function.update_idem, Function.update_idem]

theorem Image.set_same (c : Image) (b i : Nat) : c.set b i (c b i) = c := by
  unfold Image.set
  rw [Function.update_eq_self, Function.update_eq_self]

theorem freeBlock_restores (isFree : s.bitmap b &&& Store.bitmapBit b ≠ 0) (some : b ≠ 0)
    (below : b < s.nblocks) (read : Read (s.setBitmap b (s.bitmap b &&& ~~~Store.bitmapBit b)) t)
    (same : t.cache = (s.setBitmap b (s.bitmap b &&& ~~~Store.bitmapBit b)).cache) : Read s (freeBlock b t) := by
  have there : s.cache (Store.bitmapBlock b) ≠ none := fun none => by
    have zero : s.bitmap b = 0 := by simp [Store.bitmap, Store.word, Store.page, none, zeroPage]
    rw [zero] at isFree
    exact isFree (BitVec.zero_and ..)
  have content : t.content = s.content.set (Store.bitmapBlock b) (Store.bitmapWord b) (s.bitmap b &&& ~~~Store.bitmapBit b) :=
    read.content.trans (content_setWord there)
  have there' : t.cache (Store.bitmapBlock b) ≠ none := read.cached _ (setWord_cached there)
  have word : t.bitmap b = s.bitmap b &&& ~~~Store.bitmapBit b := by
    rw [show t.bitmap b = t.content _ _ from word_content there', content, Image.set_self]
  have size : t.nblocks = s.nblocks := by
    have other : (1 : Nat) ≠ Store.bitmapBlock b := by
      unfold Store.bitmapBlock
      omega
    unfold Store.nblocks Store.word Store.page
    rw [same]
    exact congrArg (fun p : Option Page => (p.getD zeroPage 1).toNat) (Function.update_of_ne other _ _)
  rw [freeBlock, if_neg (by omega), word, bit_restored isFree]
  refine ⟨?_, fun x had => setWord_cached (read.cached x (setWord_cached had)), read.given⟩
  have back : (t.setBitmap b (s.bitmap b)).content = t.content.set (Store.bitmapBlock b) (Store.bitmapWord b) (s.bitmap b) :=
    content_setWord there'
  rw [back, content, Image.set_set, show s.bitmap b = s.content _ _ from word_content there, Image.set_same]

theorem allocBlock_refused (s : Store) : (allocBlock s).Meets (fun _ _ => True) (Read s) fun _ => True := by
  unfold allocBlock allocBlockNum
  split
  · exact Read.refl s
  · rename_i b first
    have isFree : s.bitmap b &&& Store.bitmapBit b ≠ 0 := by simpa using List.find?_some first
    have inside := List.mem_of_find?_eq_some first
    rw [List.mem_range'_1] at inside
    generalize cleared : s.setBitmap b (s.bitmap b &&& ~~~Store.bitmapBit b) = s1
    unfold writeBlock
    split
    · trivial
    · rename_i p cached
      have read := (read_kept s1).written s1 _ p (Read.refl s1) cached
      have asked := (read_kept s1).asked _ read
      simp only [Result.ok_bind, mapBlock, sysMemAlloc]
      split
      · trivial
      · split
        · trivial
        · subst cleared
          exact freeBlock_restores isFree (by omega) (by omega) asked rfl
end Refused

section Pinned

variable {p : Option Nat} {bound : Nat}

/-- Pointer `p` of a directory of the tree is set; in an entry where a slot would have its size it is below `bound`. -/
structure Pinned (bound : Nat) (d : FilePtr) (p : Option Nat) (s : Store) : Prop where
  place : d = root ∨ d.block ≠ 1 ∧ d.word % 64 = 0
  file : s.cache d.block ≠ none
  plain : ¬ s.content.IsBitmap d.block
  has : s.content.HasCell d p
  there : s.cache (s.content.cell d p).1 ≠ none
  apart : ¬ s.content.IsBitmap (s.content.cell d p).1
  firm : s.content.cell d p ≠ (1, 34)
  small : (s.content.cell d p).2 % 64 = 32 → s.content.target d p < bound
  held : s.content.target d p ≠ 0

theorem Image.cell_congr {c c' : Image} (same : c.indirect d ≠ 0 → c'.indirect d = c.indirect d) (has : c.HasCell d p) :
    c'.cell d p = c.cell d p ∧ c'.HasCell d p := by
  cases p with
  | none => exact ⟨rfl, trivial⟩
  | some i =>
    unfold Image.cell
    by_cases low : i < ndirect
    · simp only [if_pos low]
      exact ⟨trivial, .inl low⟩
    · have entry := has.resolve_left low
      simp only [if_neg low]
      rw [same entry.2]
      exact ⟨rfl, .inr ⟨entry.1, by rw [same entry.2]; exact entry.2⟩⟩

theorem Image.target_word {c : Image} (has : c.HasCell d p) : c.target d p = 0 ↔ c (c.cell d p).1 (c.cell d p).2 = 0 := by
  rw [Image.target_cell has]
  exact ⟨fun zero => BitVec.eq_of_toNat_eq zero, fun zero => by rw [zero]; rfl⟩

theorem place_word (place : d = root ∨ d.block ≠ 1 ∧ d.word % 64 = 0) :
    (d.word + 44) % 64 ≠ 45 ∧ (d.word + 44) % 64 ≠ 32 ∧ (d.block, d.word + 44) ≠ (1, 34) := by
  rcases place with rfl | ⟨block, word⟩
  · decide
  · refine ⟨by omega, by omega, fun same => block (congrArg Prod.fst same)⟩

theorem Pinned.builds (pinned : Pinned bound d p s) (builds : Builds s t) : Pinned bound d p t := by
  obtain ⟨place, file, plain, has, there, apart, firm, small, held⟩ := pinned
  have indirect : s.content.indirect d ≠ 0 → t.content.indirect d = s.content.indirect d := by
    intro some
    refine congrArg BitVec.toNat (builds.same d.block (d.word + 44) plain file (fun zero => some ?_) (place_word place).1)
    exact congrArg BitVec.toNat zero
  obtain ⟨cell, has'⟩ := Image.cell_congr indirect has
  have bitmap : ∀ {x}, t.content.IsBitmap x ↔ s.content.IsBitmap x := Image.IsBitmap.of_nblocks builds.nblocks
  have word := fun zero => held ((Image.target_word has).mpr zero)
  refine ⟨place, builds.cached _ file, fun no => plain (bitmap.mp no), has', ?_, ?_, ?_, fun size => ?_, fun zero => ?_⟩
  · rw [cell]
    exact builds.cached _ there
  · rw [cell, bitmap]
    exact apart
  · rw [cell]
    exact firm
  · rw [Image.target_cell has', cell] at *
    rw [builds.same _ _ apart there word (by omega), ← Image.target_cell has]
    exact small size
  · rw [Image.target_word has', cell] at zero
    exact builds.held _ _ apart there word zero

theorem Pinned.grow (pinned : Pinned bound d p s) (wrap : bound + 4096 ≤ 2 ^ 32) (cached : s.cache f.block ≠ none)
    (slot : f = root ∨ f.word % 64 = 0) :
    Pinned (bound + 4096) d p (s.setField f 32 (s.fSize f + blockSize)) := by
  obtain ⟨place, file, plain, has, there, apart, firm, small, held⟩ := pinned
  have content : (s.setField f 32 (s.fSize f + blockSize)).content = s.content.set f.block (f.word + 32) (s.fSize f + blockSize) :=
    content_setWord cached
  have other : ∀ y m, m % 64 ≠ 32 → (y, m) ≠ (1, 34) →
      (s.setField f 32 (s.fSize f + blockSize)).content y m = s.content y m := by
    intro y m ne firm
    rw [content]
    refine Image.set_ne fun same => ?_
    rcases slot with rfl | slot
    · exact firm same
    · have word : m = f.word + 32 := congrArg Prod.snd same
      omega
  obtain ⟨-, ne, ne'⟩ := place_word place
  have indirect : (s.setField f 32 (s.fSize f + blockSize)).content.indirect d = s.content.indirect d :=
    congrArg BitVec.toNat (other _ _ ne ne')
  obtain ⟨cell, has'⟩ := Image.cell_congr (fun _ => indirect) has
  have nblocks : (s.setField f 32 (s.fSize f + blockSize)).content.nblocks = s.content.nblocks :=
    congrArg BitVec.toNat (other 1 1 (by decide) (by decide))
  have bitmap : ∀ {x}, (s.setField f 32 (s.fSize f + blockSize)).content.IsBitmap x ↔ s.content.IsBitmap x :=
    Image.IsBitmap.of_nblocks nblocks
  -- the pointer is not the size of `f`, or it becomes larger by `BLOCK_SIZE`
  have target : ((s.content.cell d p).2 % 64 ≠ 32 ∧
        (s.setField f 32 (s.fSize f + blockSize)).content.target d p = s.content.target d p) ∨
      (s.content.cell d p).2 % 64 = 32 ∧ s.content.target d p < bound ∧
        ((s.setField f 32 (s.fSize f + blockSize)).content.target d p = s.content.target d p ∨
          (s.setField f 32 (s.fSize f + blockSize)).content.target d p = s.content.target d p + 4096) := by
    rw [Image.target_cell has', Image.target_cell has, cell]
    by_cases size : (s.content.cell d p).2 % 64 = 32
    · refine .inr ⟨size, Image.target_cell has ▸ small size, ?_⟩
      by_cases here : ((s.content.cell d p).1, (s.content.cell d p).2) = (f.block, f.word + 32)
      · obtain ⟨block, word⟩ := Prod.mk.inj here
        have low := small size
        rw [Image.target_cell has, block, word] at low
        have old : s.fSize f = s.content f.block (f.word + 32) := field_content cached 32
        rw [content, block, word, Image.set_self, old, BitVec.toNat_add]
        have four : blockSize.toNat = 4096 := rfl
        omega
      · rw [content, Image.set_ne here]
        exact .inl rfl
    · exact .inl ⟨size, congrArg BitVec.toNat (other (s.content.cell d p).1 (s.content.cell d p).2 size firm)⟩
  refine ⟨place, setWord_cached file, fun no => plain (bitmap.mp no), has', ?_, ?_, ?_, fun size => ?_, fun zero => ?_⟩
  · rw [cell]
    exact setWord_cached there
  · rw [cell, bitmap]
    exact apart
  · rw [cell]
    exact firm
  · rw [cell] at size
    omega
  · omega

end Pinned

end Mos.Fs
