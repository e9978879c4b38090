import Mos.Fs.Zeroed
import Mos.Fs.Holes

namespace Mos.Fs

variable {X : Nat → Prop} {s t u : Store} {role : Nat → Option Owner} {f g d dir : FilePtr} {b i k : Nat} {v n : Word}
  {name : List Byte}

/-- Outside `X` the disk has the blocks as the server sees them. -/
def Agrees (X : Nat → Prop) (s : Store) : Prop := ∀ b, ¬ X b → s.disk b = s.content b

theorem Agrees.written {p : Page} (others : ∀ x, ¬ X x → x ≠ b → s.disk x = s.content x) (cached : s.cache b = some p) :
    Agrees X { s with disk := Function.update s.disk b p } := by
  intro x out
  rw [((read_kept s).written s b p (Read.refl s) cached).content]
  by_cases here : x = b
  · subst here
    simp [Store.content, cached]
  · exact (Function.update_of_ne here _ _).trans (others x out here)

theorem Agrees.loaded (agrees : Agrees X s) (hole : s.cache b = none) :
    Agrees X { s with cache := Function.update s.cache b (some (s.disk b)), dirty := Function.update s.dirty b false,
                      asked := s.asked + 1 } :=
  fun x out => (agrees x out).trans (congrFun ((Read.refl s).loaded b hole).content x).symm

theorem Agrees.set (agrees : Agrees X s) (cached : s.cache b ≠ none) (safe : X b ∨ s.content b i = v) :
    Agrees X (s.setWord b i v) := by
  intro x out
  by_cases here : x = b
  · subst here
    have same : s.content x i = v := safe.resolve_left out
    rw [content_setWord cached, ← same, Image.set_same]
    exact agrees x out
  · rw [content_setWord_ne here]
    exact agrees x out

/-- Outside `X` the disk is as the server sees it, and the blocks that a file can get are in `X`. -/
structure Saved (X : Nat → Prop) (s : Store) : Prop where
  size : 2 < s.content.nblocks
  agrees : Agrees X s
  fresh : ∀ b, b < s.content.nblocks → s.content.Free b → X b

theorem Saved.of_bits (saved : Saved X s) (agrees : Agrees X t) (size : t.content.nblocks = s.content.nblocks)
    (bits : ∀ x, x < s.content.nblocks → t.content.Free x → s.content.Free x) : Saved X t where
  size := size ▸ saved.size
  agrees := agrees
  fresh x below isFree := by
    rw [size] at below
    exact saved.fresh x below (bits x below isFree)

theorem Saved.of_content (saved : Saved X s) (agrees : Agrees X t) (same : t.content = s.content) : Saved X t :=
  saved.of_bits agrees (by rw [same]) fun _ _ isFree => same ▸ isFree

theorem Saved.loads (saved : Saved X s) (loads : Loads s t) : Saved X t := by
  refine saved.of_content (fun x out => ?_) loads.content
  rw [loads.disk, loads.content]
  exact saved.agrees x out

theorem Saved.setWord (saved : Saved X s) (cached : s.cache b ≠ none) (plain : ¬ s.content.IsBitmap b) (ne : (b, i) ≠ (1, 1))
    (safe : X b ∨ s.content b i = v) : Saved X (s.setWord b i v) := by
  have content : (s.setWord b i v).content = s.content.set b i v := content_setWord cached
  refine saved.of_bits (saved.agrees.set cached safe) ?_ fun x below isFree => ?_
  · rw [content]
    exact congrArg BitVec.toNat (Image.set_ne ne.symm)
  · refine (Image.Free.congr below fun y isBitmap => content_setWord_ne ?_).mp isFree
    rintro rfl
    exact plain isBitmap

theorem Saved.mapped (saved : Saved X s) (data : s.content.IsData b) (inside : X b) :
    Saved X { s with cache := Function.update s.cache b (some zeroPage), dirty := Function.update s.dirty b false,
                     asked := s.asked + 1 } := by
  refine saved.of_bits (fun x out => ?_) (mapped_nblocks data) fun x below isFree => (mapped_free data below).mp isFree
  have ne : x ≠ b := by
    rintro rfl
    exact out inside
  exact (saved.agrees x out).trans (content_mapped ne).symm

section Alloc

/-- Memory never runs out. -/
def Plenty (s : Store) : Prop := ∀ k, s.memory k = true

end Alloc

section Attach

/-- Where the file has no block `i`, memory does not run out, and the block is in `X` with the pointer that is set first. -/
def Fills (X : Nat → Prop) (f : FilePtr) (i : Nat) (s : Store) : Prop :=
  s.content.target f (some i) = 0 → i < nindirect →
    Plenty s ∧ X (if i < ndirect ∨ s.content.indirect f = 0 then f.block else s.content.indirect f)

theorem Fills.loads (fills : Fills X f i s) (loads : Loads s t) : Fills X f i t := by
  unfold Fills Plenty at *
  rw [loads.content, loads.memory]
  exact fills

variable (holds : Holds False s role f) (saved : Saved X s)
include holds saved

end Attach

section Walks

variable {c c' : Image} {file : FilePtr} {names : List (List Byte)}

/-- `dir_lookup` comes to no hole, and the `File` that it finds has `f_dir` set already or is in a block of `X`. -/
structure Finds (X : Nat → Prop) (dir : FilePtr) (name : List Byte) (s : Store) : Prop where
  solid : ∀ i, s.content.Scanned dir name i → s.content.target dir (some i) ≠ 0
  marks : ∀ g, s.content.Entry dir name g → X g.block ∨ s.content.field g 45 = dir.va

/-- So does each `dir_lookup` of `walk_path`. -/
def Walks (X : Nat → Prop) : FilePtr → List (List Byte) → Store → Prop
  | _, [], _ => True
  | file, name :: rest, s => name.length < maxNameLen → s.fType file = ftypeDir →
      Finds X file name s ∧ ∀ g t, dirLookup file name s = .ok g t → Walks X g rest t

/-- The tree has no block in two places, and `f` is a file of it in a cached block. -/
structure InTree (f : FilePtr) (s : Store) : Prop where
  super : s.cache 1 ≠ none
  cached : s.cache f.block ≠ none
  own : Exclusive s.content
  reach : Reach s.content f

theorem InTree.loads (inTree : InTree f s) (loads : Loads s t) : InTree f t where
  super := loads.cached 1 inTree.super
  cached := loads.cached _ inTree.cached
  own := loads.content ▸ inTree.own
  reach := loads.content ▸ inTree.reach

theorem InTree.holds (inTree : InTree f s) : Holds False s (ownerOf s.content) f where
  super := inTree.super
  cached := inTree.cached
  consistent := Sound.consistent ⟨inTree.own, False.elim⟩
  placed := (Sound.consistent ⟨inTree.own, False.elim⟩).placed inTree.reach

theorem InTree.shows (inTree : InTree f s) : Shows s.content s.memory s := ⟨inTree.super, fun _ _ _ => rfl, rfl⟩

end Walks

section Create

/-- Block `i` is the first one of the directory with a free slot. -/
structure Image.Vacant (c : Image) (d : FilePtr) (i : Nat) : Prop where
  visible : c.Visible d i
  slot : ∃ j, j < file2blk ∧ c.Dead (fileOf (c.target d (some i)) j)
  full : ∀ i' j, i' < i → j < file2blk → ¬ c.Dead (fileOf (c.target d (some i')) j)

/-- `dir_alloc_file` comes to no hole and takes a slot in a block of `X`; when it makes the directory larger, the block
    with its `File` is in `X`, too. -/
structure Places (X : Nat → Prop) (d : FilePtr) (s : Store) : Prop where
  solid : ∀ i, s.content.Visible d i → s.content.target d (some i) ≠ 0
  slot : ∀ i, s.content.Vacant d i → X (s.content.target d (some i))
  grows : (∀ i, ¬ s.content.Vacant d i) → X d.block ∧ Fills X d ((s.content.field d 32).toNat / 4096) s

variable {path : List Byte}

/-- So does the `dir_alloc_file` of `file_create`. -/
def Creates (X : Nat → Prop) (path : List Byte) (s : Store) : Prop :=
  ∀ w t d, walkPath path s = .ok w t → w.code = -eNotFound → w.dir = some d → Places X d t

theorem InTree.held (inTree : InTree f s) : Held False f (Live False f) s := .inr ⟨_, inTree.holds, live_false f _⟩

end Create

section Cut

/-- `file_truncate(f, n)` finds no block to give back. -/
structure Uncut (f : FilePtr) (n : Word) (s : Store) : Prop where
  blocks : ∀ i, newBlocks n ≤ i → i < roundBlocks (s.content.field f 32) → s.content.target f (some i) = 0
  indirect : newBlocks n ≤ ndirect → s.content.indirect f = 0

theorem Uncut.wiped (uncut : Uncut f n s) : CutsWiped f n s where
  blocks i low high held := absurd (uncut.blocks i low high) held
  entries few held := absurd (uncut.indirect few) held

end Cut

end Mos.Fs
