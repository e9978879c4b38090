import Mos.Format.Made
import Mos.Fs.Paths

namespace Mos.Format

open Fs

variable {c c' c'' : Image} {n n' i j k m : Nat} {f g x : FilePtr}

def Forest.count : Forest → Nat
  | .nil => 0
  | .file _ _ rest => rest.count + 1
  | .dir _ _ rest => rest.count + 1

def dirBlocks (count : Nat) : Nat := (count + 15) / 16

/-- The `i`-th `File` of a directory. -/
def slot (c : Image) (f : FilePtr) (i : Nat) : FilePtr := fileOf (c.target f (some (i / 16))) (i % 16)

/-- The file has its first `m` blocks and no others, but for the indirect block. -/
structure HasBlocks (c : Image) (f : FilePtr) (m : Nat) : Prop where
  held : ∀ i, c.target f (some i) ≠ 0 ↔ i < m
  indirect : c.indirect f = 0 ↔ m ≤ ndirect

/-- A directory of `m` blocks in which the first `k` slots are taken. -/
structure Listing (c : Image) (f : FilePtr) (k m : Nat) : Prop extends HasBlocks c f m where
  type : c.field f 33 = ftypeDir
  size : (c.field f 32).toNat = 4096 * m
  live : ∀ i, i < k → i < 16 * m ∧ ¬ c.Dead (slot c f i)
  dead : ∀ i, k ≤ i → i < 16 * m → c.Dead (slot c f i)

/-- The first `m` blocks of the file hold the content. -/
def Bytes (c : Image) (f : FilePtr) (content : List Byte) (m : Nat) : Prop :=
  ∀ k, k < content.length → k < 4096 * m → byteAt (c (c.target f (some (k / 4096)))) (k % 4096) = content.getD k 0

structure IsFile (c : Image) (f : FilePtr) (content : List Byte) : Prop extends HasBlocks c f (blocksFor content.length) where
  type : c.field f 33 = ftypeReg
  size : (c.field f 32).toNat = content.length
  bytes : Bytes c f content (blocksFor content.length)

/-- The entries of the directory, from the `i`-th on, are those of the forest. -/
def Stored (c : Image) : Forest → FilePtr → Nat → Prop
  | .nil, _, _ => True
  | .file name content rest, f, i =>
    c.NameAt (slot c f i) name ∧ IsFile c (slot c f i) content ∧ Stored c rest f (i + 1)
  | .dir name entries rest, f, i =>
    c.NameAt (slot c f i) name ∧ Listing c (slot c f i) entries.count (dirBlocks entries.count) ∧
      Stored c entries (slot c f i) 0 ∧ Stored c rest f (i + 1)

/-- A name that a path can have, with room in `f_name`. -/
def ValidName (name : List Byte) : Prop := Plain name ∧ name.length < maxNameLen

def Forest.Valid : Forest → Prop
  | .nil => True
  | .file name _ rest => ValidName name ∧ rest.Valid
  | .dir name entries rest => ValidName name ∧ entries.Valid ∧ rest.Valid

/-- The file is the same, and what is in its blocks when it is no directory. -/
structure Kept (c c' : Image) (f : FilePtr) : Prop extends Same c c' f where
  data : c.field f 33 ≠ ftypeDir → ∀ i, c.target f (some i) ≠ 0 → c' (c.target f (some i)) = c (c.target f (some i))

theorem HasBlocks.same (has : HasBlocks c f m) (same : Same c c' f) : HasBlocks c' f m where
  held i := by
    rw [same.target]
    exact has.held i
  indirect := by
    rw [show c'.indirect f = c.indirect f from same.target none]
    exact has.indirect

theorem IsFile.kept {content : List Byte} (isFile : IsFile c f content) (kept : Kept c c' f) : IsFile c' f content where
  toHasBlocks := isFile.toHasBlocks.same kept.toSame
  type := (kept.field 33 (by decide)).trans isFile.type
  size := by
    rw [kept.field 32 (by decide)]
    exact isFile.size
  bytes k inside below := by
    have held : c.target f (some (k / 4096)) ≠ 0 := by
      rw [isFile.held]
      omega
    have plain : c.field f 33 ≠ ftypeDir := by
      rw [isFile.type]
      decide
    rw [kept.target, kept.data plain _ held]
    exact isFile.bytes k inside below

theorem nameAt_same {name : List Byte} (short : name.length < maxNameLen) (same : Same c c' f) (named : c.NameAt f name) :
    c'.NameAt f name := by
  intro k inside
  have small : name.length < 128 := short
  unfold Image.nameByte
  rw [same.field _ (by omega)]
  exact named k inside

theorem slot_same (same : Same c c' f) (i : Nat) : slot c' f i = slot c f i := by
  unfold slot
  rw [same.target]

namespace Listing

variable (listing : Listing c f k m)
include listing

theorem visible (inside : i < 16 * m) : c.Visible f (i / 16) ∧ c.target f (some (i / 16)) ≠ 0 := by
  have below : i / 16 < m := by omega
  refine ⟨⟨listing.type, ?_⟩, (listing.held _).mpr below⟩
  rw [listing.size]
  omega

theorem reach (above : Reach c f) (inside : i < 16 * m) : Reach c (slot c f i) := by
  obtain ⟨visible, held⟩ := listing.visible inside
  exact .ofSlot above visible held (Nat.mod_lt _ (by decide))

theorem named (above : Named c f) (inside : i < k) : Named c (slot c f i) := by
  obtain ⟨below, live⟩ := listing.live i inside
  obtain ⟨visible, held⟩ := listing.visible below
  exact .ofSlot above visible held (Nat.mod_lt _ (by decide)) live

end Listing

/-- Files that stay as they are, with all in the directories among them. -/
structure Closed (c c' : Image) (K : FilePtr → Prop) : Prop where
  kept : ∀ f, K f → Kept c c' f
  slots : ∀ f i j, K f → c.Visible f i → c.target f (some i) ≠ 0 → j < file2blk → K (fileOf (c.target f (some i)) j)

section Keep

variable {K : FilePtr → Prop} (closed : Closed c c' K)
include closed

theorem Closed.slot_mem (listing : Listing c f k m) (inK : K f) (inside : i < 16 * m) : K (slot c f i) := by
  obtain ⟨visible, held⟩ := listing.visible inside
  exact closed.slots f _ _ inK visible held (Nat.mod_lt _ (by decide))

theorem Closed.listing (listing : Listing c f k m) (inK : K f) : Listing c' f k m := by
  have same := (closed.kept f inK).toSame
  refine ⟨listing.toHasBlocks.same same, (same.field 33 (by decide)).trans listing.type, ?_, fun i inside => ?_, fun i past inside => ?_⟩
  · rw [same.field 32 (by decide)]
    exact listing.size
  · obtain ⟨below, live⟩ := listing.live i inside
    rw [slot_same same, (closed.kept _ (closed.slot_mem listing inK below)).dead]
    exact ⟨below, live⟩
  · rw [slot_same same, (closed.kept _ (closed.slot_mem listing inK inside)).dead]
    exact listing.dead i past inside

theorem Closed.stored {forest : Forest} (valid : forest.Valid) (stored : Stored c forest f i)
    (slots : ∀ j, i ≤ j → j < i + forest.count → slot c' f j = slot c f j ∧ K (slot c f j)) :
    Stored c' forest f i := by
  induction forest generalizing f i with
  | nil => trivial
  | file name content rest ih =>
    obtain ⟨named, isFile, others⟩ := stored
    obtain ⟨same, inK⟩ := slots i (Nat.le_refl i) (by rw [Forest.count]; omega)
    have kept := closed.kept _ inK
    rw [Stored, same]
    refine ⟨nameAt_same valid.1.2 kept.toSame named, isFile.kept kept, ih valid.2 others fun j past inside => ?_⟩
    exact slots j (by omega) (by rw [Forest.count]; omega)
  | dir name entries rest first second =>
    obtain ⟨named, listing, inner, others⟩ := stored
    obtain ⟨same, inK⟩ := slots i (Nat.le_refl i) (by rw [Forest.count]; omega)
    have kept := closed.kept _ inK
    rw [Stored, same]
    refine ⟨nameAt_same valid.1.2 kept.toSame named, closed.listing listing inK, first valid.2.1 inner fun j _ inside => ?_,
      second valid.2.2 others fun j past inside => ?_⟩
    · have below := (listing.live j (by omega)).1
      exact ⟨slot_same kept.toSame j, closed.slot_mem listing inK below⟩
    · exact slots j (by omega) (by rw [Forest.count]; omega)

end Keep

/-- The words of the `File` and of its indirect block. -/
def Own (c : Image) (f : FilePtr) (b w : Nat) : Prop :=
  b = f.block ∧ f.word ≤ w ∧ w < f.word + 64 ∨ c.indirect f ≠ 0 ∧ b = c.indirect f

/-- The words of the last block of the directory from slot `k` on. -/
def Rest (c : Image) (f : FilePtr) (k b w : Nat) : Prop :=
  c.target f (some (k / 16)) ≠ 0 ∧ b = c.target f (some (k / 16)) ∧ 64 * (k % 16) ≤ w

/-- The disk after steps for `f`: of the old blocks only what `f` owns has changed, and words in `W`. -/
structure Steps (c : Image) (n : Nat) (f : FilePtr) (W : Nat → Nat → Prop) (c' : Image) (n' : Nat) : Prop where
  made : Made c' n'
  more : n ≤ n'
  named : ∀ g, Named c g → Named c' g
  frame : ∀ b w, b ≠ 2 → b < n → ¬ Own c f b w → ¬ W b w → c' b w = c b w
  pointers : ∀ p, c'.target f p = c.target f p ∨ c.target f p = 0 ∧ n ≤ c'.target f p
  field : ∀ w, w < 34 → w ≠ 32 → c'.field f w = c.field f w

variable {W W' : Nat → Nat → Prop}

theorem Steps.refl (made : Made c n) (W : Nat → Nat → Prop) : Steps c n f W c n :=
  ⟨made, Nat.le_refl n, fun _ named => named, fun _ _ _ _ _ _ => rfl, fun _ => .inl rfl, fun _ _ _ => rfl⟩

namespace Steps

variable (steps : Steps c n f W c' n')
include steps

theorem old {p : Option Nat} (below : c'.target f p < n) : c'.target f p = c.target f p := by
  rcases steps.pointers p with same | ⟨-, past⟩
  · exact same
  · omega

theorem own {b w : Nat} (below : b < n) (own : Own c' f b w) : Own c f b w := by
  rcases own with here | ⟨held, rfl⟩
  · exact .inl here
  · have same : c'.indirect f = c.indirect f := steps.old (p := none) below
    exact .inr ⟨same ▸ held, same⟩

theorem held {p : Option Nat} (held : c.target f p ≠ 0) : c'.target f p = c.target f p := by
  rcases steps.pointers p with same | ⟨zero, -⟩
  · exact same
  · exact absurd zero held

theorem trans (next : Steps c' n' f W' c'' j) (less : ∀ b w, b < n → W' b w → W b w) : Steps c n f W c'' j where
  made := next.made
  more := Nat.le_trans steps.more next.more
  named g named := next.named g (steps.named g named)
  frame b w notMap below notOwn notW := by
    have first := steps.frame b w notMap below notOwn notW
    have second := next.frame b w notMap (Nat.lt_of_lt_of_le below steps.more) (fun own => notOwn (steps.own below own))
      fun inW => notW (less b w below inW)
    exact second.trans first
  pointers p := by
    have more := steps.more
    rcases next.pointers p with same | ⟨zero, past⟩
    · rw [same]
      exact steps.pointers p
    · rcases steps.pointers p with same | ⟨zero', past'⟩
      · exact .inr ⟨same ▸ zero, by omega⟩
      · exact .inr ⟨zero', by omega⟩
  field w small ne := (next.field w small ne).trans (steps.field w small ne)

theorem weaken (less : ∀ b w, W b w → W' b w) : Steps c n f W' c' n' :=
  { steps with frame := fun b w notMap below notOwn notW => steps.frame b w notMap below notOwn fun inW => notW (less b w inW) }

end Steps

section Frame

variable (made : Made c n) (reach : Reach c f) (steps : Steps c n f (Rest c f k) c' n')
include made reach steps

theorem Steps.kept (other : Reach c x) (ne : x ≠ f)
    (before : x.block = c.target f (some (k / 16)) → x.word + 64 ≤ 64 * (k % 16)) : Kept c c' x := by
  have consistent := made.sound.consistent
  have placed := consistent.placed reach
  have placed' := consistent.placed other
  obtain ⟨notMap, below⟩ := made.block_ne other
  -- a block of `x` is no block of `f`
  have apart : ∀ {p q}, c.target x p ≠ 0 → c.target x p ≠ c.target f q := by
    intro p q held same
    exact ne (made.sound.once x f p q other reach held same).1
  refine ⟨Same.of_words (fun w small => ?_) fun w _ _ held => ?_, fun plain i held => funext fun w => ?_⟩
  · refine steps.frame _ _ notMap below (fun own => ?_) fun rest => ?_
    · rcases own with ⟨same, low, high⟩ | ⟨held, same⟩
      · rcases Placed.apart consistent placed placed' ne same small with less | more
        · omega
        · omega
      · exact placed'.indirect_ne consistent placed held same.symm
    · have := before rest.2.1
      have := rest.2.2
      omega
  · obtain ⟨low, high⟩ := made.target_lt other (p := none) held
    refine steps.frame _ _ ?_ high (fun own => ?_) fun rest => ?_
    · intro same
      have : 3 ≤ c.indirect x := low
      omega
    · rcases own with ⟨same, -⟩ | ⟨-, same⟩
      · exact placed.indirect_ne consistent placed' held same
      · exact apart (p := none) (q := none) held same
    · exact apart (p := none) held rest.2.1
  · obtain ⟨low, high⟩ := made.target_lt other held
    refine steps.frame _ _ (by omega) high (fun own => ?_) fun rest => ?_
    · rcases own with ⟨same, -⟩ | ⟨held', same⟩
      · cases reach with
        | ofRoot =>
          have : root.block = 1 := rfl
          omega
        | @ofSlot dir i' j above visible held' small =>
          obtain ⟨rfl, -⟩ := made.sound.once x dir (some i) (some i') other above held same
          exact plain visible.1
      · exact apart (q := none) held same
    · exact apart held rest.2.1

theorem Steps.closed : Closed c c' fun x => Reach c x ∧ f.block < x.block ∧
    (x.block = c.target f (some (k / 16)) → x.word + 64 ≤ 64 * (k % 16)) where
  kept x inK := by
    refine steps.kept made reach inK.1 ?_ inK.2.2
    rintro rfl
    exact Nat.lt_irrefl _ inK.2.1
  slots x i j inK visible held small := by
    refine ⟨.ofSlot inK.1 visible held small, Nat.lt_trans inK.2.1 (made.above inK.1 held), fun same => ?_⟩
    obtain ⟨rfl, -⟩ := made.sound.once x f (some i) (some (k / 16)) inK.1 reach held same
    exact absurd inK.2.1 (Nat.lt_irrefl _)

end Frame

theorem slot_inj (exclusive : Exclusive c) (reach : Reach c f) (held : c.target f (some (i / 16)) ≠ 0)
    (same : slot c f i = slot c f j) : i = j := by
  obtain ⟨-, index⟩ := exclusive.once f f (some (i / 16)) (some (j / 16)) reach reach held (congrArg FilePtr.block same)
  have quotient : i / 16 = j / 16 := Option.some.inj index
  have word : 64 * (i % 16) = 64 * (j % 16) := congrArg FilePtr.word same
  omega

theorem Steps.slot_eq (steps : Steps c n f W c' n') (listing : Listing c f k m) (inside : i < 16 * m) :
    slot c' f i = slot c f i := by
  unfold slot
  rw [steps.held (listing.visible inside).2]

section Slots

variable (made : Made c n) (named : Named c f) (listing : Listing c f k m)
include made named listing

theorem Listing.block_lt (inside : i < 16 * m) : f.block < (slot c f i).block :=
  made.above named.reach (listing.visible inside).2

theorem Listing.before (inside : i < k) :
    (slot c f i).block = c.target f (some (k / 16)) → (slot c f i).word + 64 ≤ 64 * (k % 16) := by
  intro same
  obtain ⟨below, -⟩ := listing.live i inside
  obtain ⟨-, index⟩ := made.sound.once f f (some (i / 16)) (some (k / 16)) named.reach named.reach (listing.visible below).2 same
  have quotient : i / 16 = k / 16 := Option.some.inj index
  show 64 * (i % 16) + 64 ≤ 64 * (k % 16)
  omega

theorem Steps.stored (steps : Steps c n f (Rest c f k) c' n') {forest : Forest} (valid : forest.Valid)
    (stored : Stored c forest f i) (inside : i + forest.count ≤ k) : Stored c' forest f i := by
  refine (steps.closed made named.reach).stored valid stored fun j past below => ?_
  obtain ⟨small, -⟩ := listing.live j (by omega)
  refine ⟨steps.slot_eq listing small, listing.reach named.reach small, listing.block_lt made named small, ?_⟩
  exact listing.before made named (by omega)

end Slots

end Mos.Format
