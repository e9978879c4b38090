import Mos.Fs.File

namespace Mos.Fs

namespace Image

def set (c : Image) (b i : Nat) (v : Word) : Image := Function.update c b (Function.update (c b) i v)

def nblocks (c : Image) : Nat := (c 1 1).toNat

def field (c : Image) (f : FilePtr) (k : Nat) : Word := c f.block (f.word + k)

def indirect (c : Image) (f : FilePtr) : Nat := (c.field f 44).toNat

/-- The bitmap has the block as free. -/
def Free (c : Image) (b : Nat) : Prop := c (Store.bitmapBlock b) (Store.bitmapWord b) &&& Store.bitmapBit b ≠ 0

def bitmapEnd (c : Image) : Nat := 2 + c.nblocks / blockSizeBit

theorem two_le_bitmapEnd (c : Image) : 2 ≤ c.bitmapEnd := Nat.le_add_right _ _

def IsBitmap (c : Image) (b : Nat) : Prop := 2 ≤ b ∧ b ≤ c.bitmapEnd

/-- A block of the disk behind the boot block, the super block and the bitmap. -/
def IsData (c : Image) (b : Nat) : Prop := c.bitmapEnd < b ∧ b < c.nblocks

/-- The block that a pointer of a file points to, 0 for none: its indirect block for `none`, else its block `i`. -/
def target (c : Image) (f : FilePtr) : Option Nat → Nat
  | none => c.indirect f
  | some i =>
    if i < ndirect then (c.field f (34 + i)).toNat
    else if i < nindirect ∧ c.indirect f ≠ 0 then (c (c.indirect f) i).toNat
    else 0

def cell (c : Image) (f : FilePtr) : Option Nat → Nat × Nat
  | none => (f.block, f.word + 44)
  | some i => if i < ndirect then (f.block, f.word + (34 + i)) else (c.indirect f, i)

def HasCell (c : Image) (f : FilePtr) : Option Nat → Prop
  | none => True
  | some i => i < ndirect ∨ i < nindirect ∧ c.indirect f ≠ 0

/-- Block `i` of the file is searched for `File`s. -/
def Visible (c : Image) (f : FilePtr) (i : Nat) : Prop := c.field f 33 = ftypeDir ∧ i < (c.field f 32).toNat / 4096

/-- The slot has an empty name, so that it counts as free. -/
def Dead (c : Image) (f : FilePtr) : Prop := (c.field f 0).extractLsb' 0 8 = 0

structure Blank (c : Image) (f : FilePtr) : Prop where
  size : c.field f 32 = 0
  type : c.field f 33 = 0
  target : ∀ p, c.target f p = 0

end Image

/-- Who owns a block: the file and the pointer, and whether the block is searched for `File`s. -/
structure Owner where
  file : FilePtr
  index : Option Nat
  directory : Bool

/-- The root, and the slots of the directory blocks. -/
inductive Placed (role : Nat → Option Owner) : FilePtr → Prop where
  | ofRoot : Placed role root
  | ofSlot {b i j : Nat} {dir : FilePtr} (owner : role b = some ⟨dir, some i, true⟩) (small : j < file2blk) :
      Placed role (fileOf b j)

/-- Each pointer of the file owns its block. With `strict`, a free slot has nothing left of an earlier file. -/
structure FileOk (strict : Prop) (c : Image) (role : Nat → Option Owner) (f : FilePtr) : Prop where
  owned : ∀ p, c.target f p ≠ 0 →
    ∃ d, role (c.target f p) = some ⟨f, p, d⟩ ∧ ∀ i, p = some i → c.Visible f i → d = true
  blank : strict → f ≠ root → c.Dead f → c.Blank f

structure Consistent (strict : Prop) (c : Image) (role : Nat → Option Owner) : Prop where
  data : ∀ b o, role b = some o → c.IsData b
  free : ∀ b, b < c.nblocks → c.Free b → c.IsData b ∧ role b = none
  apart : ∀ b o, role b = some o → o.file.block ≠ b
  files : ∀ f, Placed role f → FileOk strict c role f

/-- A word that is not of the bitmap, of a block without an owner, of the `File` of `f` or of its indirect block. -/
structure Elsewhere (c : Image) (role : Nat → Option Owner) (f : FilePtr) (b i : Nat) : Prop where
  bitmap : ¬ c.IsBitmap b
  owned : b = 1 ∨ ∃ o, role b = some o ∧ ¬ (o.file = f ∧ o.index = none)
  file : b = f.block → i < f.word ∨ f.word + 64 ≤ i

/-- A change on behalf of `f`. -/
def Touches (c : Image) (role : Nat → Option Owner) (f : FilePtr) (c' : Image) : Prop :=
  ∀ b i, Elsewhere c role f b i → c' b i = c b i

/-- The `File` and the pointers of `f` are the same. -/
structure Same (c c' : Image) (f : FilePtr) : Prop where
  field : ∀ k, k < 64 → c'.field f k = c.field f k
  target : ∀ p, c'.target f p = c.target f p

variable {strict : Prop} {c c' : Image} {role role' : Nat → Option Owner} {f g : FilePtr}

theorem Image.set_self (c : Image) (b i : Nat) (v : Word) : c.set b i v b i = v := by simp [Image.set]

theorem Image.set_ne {b i x y : Nat} {v : Word} (ne : (x, y) ≠ (b, i)) : c.set b i v x y = c x y := by
  unfold Image.set
  by_cases here : x = b
  · subst here
    have other : y ≠ i := fun same => ne (by rw [same])
    rw [Function.update_self, Function.update_of_ne other]
  · rw [Function.update_of_ne here]

theorem Image.target_congr (words : ∀ k, 34 ≤ k → k < 45 → c'.field f k = c.field f k)
    (entries : ∀ i, ndirect ≤ i → i < nindirect → c.indirect f ≠ 0 → c' (c.indirect f) i = c (c.indirect f) i)
    (p : Option Nat) : c'.target f p = c.target f p := by
  have indirect : c'.indirect f = c.indirect f := congrArg BitVec.toNat (words 44 (by decide) (by decide))
  cases p with
  | none => exact indirect
  | some i =>
    unfold Image.target
    rw [indirect]
    by_cases direct : i < ndirect
    · have small : 34 + i < 45 := by unfold ndirect at direct; omega
      simp only [if_pos direct]
      exact congrArg BitVec.toNat (words _ (Nat.le_add_right _ _) small)
    · simp only [if_neg direct]
      by_cases valid : i < nindirect ∧ c.indirect f ≠ 0
      · rw [if_pos valid, if_pos valid, entries i (by omega) valid.1 valid.2]
      · rw [if_neg valid, if_neg valid]

theorem Same.of_words (file : ∀ k, k < 64 → c' f.block (f.word + k) = c f.block (f.word + k))
    (entries : ∀ i, ndirect ≤ i → i < nindirect → c.indirect f ≠ 0 → c' (c.indirect f) i = c (c.indirect f) i) :
    Same c c' f :=
  ⟨file, Image.target_congr (fun k _ small => file k (by omega)) entries⟩

theorem Same.visible (same : Same c c' f) (i : Nat) : c'.Visible f i ↔ c.Visible f i := by
  unfold Image.Visible
  rw [same.field 33 (by decide), same.field 32 (by decide)]

theorem Same.dead (same : Same c c' f) : c'.Dead f ↔ c.Dead f := by
  unfold Image.Dead
  rw [same.field 0 (by decide)]

theorem Same.blank (same : Same c c' f) (blank : c.Blank f) : c'.Blank f where
  size := (same.field 32 (by decide)).trans blank.size
  type := (same.field 33 (by decide)).trans blank.type
  target p := (same.target p).trans (blank.target p)

theorem FileOk.same (ok : FileOk strict c role f) (same : Same c c' f)
    (roles : ∀ b o, o.file = f → role b = some o → role' b = some o) : FileOk strict c' role' f := by
  refine ⟨fun p held => ?_, fun strict notRoot dead => same.blank (ok.blank strict notRoot (same.dead.mp dead))⟩
  rw [same.target p] at held ⊢
  obtain ⟨d, owner, visible⟩ := ok.owned p held
  exact ⟨d, roles _ _ rfl owner, fun i at_i seen => visible i at_i ((same.visible i).mp seen)⟩

theorem Consistent.one_unowned (consistent : Consistent strict c role) : role 1 = none := by
  cases owner : role 1 with
  | none => rfl
  | some o =>
    have data := (consistent.data 1 o owner).1
    have := c.two_le_bitmapEnd
    omega

theorem Placed.block (placed : Placed role f) :
    f.block = 1 ∧ f = root ∨ ∃ dir i, role f.block = some ⟨dir, some i, true⟩ := by
  cases placed with
  | ofRoot => exact .inl ⟨rfl, rfl⟩
  | ofSlot owner small => exact .inr ⟨_, _, owner⟩

theorem Placed.apart (consistent : Consistent strict c role) (hf : Placed role f) (hg : Placed role g) (ne : g ≠ f)
    (same : g.block = f.block) {k : Nat} (small : k < 64) : g.word + k < f.word ∨ f.word + 64 ≤ g.word + k := by
  have one := consistent.one_unowned
  cases hf with
  | ofRoot =>
    rcases hg.block with ⟨_, rfl⟩ | ⟨dir, i, owner⟩
    · exact absurd rfl ne
    · rw [same] at owner
      exact absurd (owner.symm.trans one) nofun
  | @ofSlot b i j dir owner hj =>
    cases hg with
    | ofRoot =>
      obtain rfl : 1 = b := same
      exact absurd (owner.symm.trans one) nofun
    | @ofSlot b' i' j' dir' owner' hj' =>
      obtain rfl : b' = b := same
      have differ : j' ≠ j := fun eq => ne (congrArg _ eq)
      show 64 * j' + k < 64 * j ∨ 64 * j + 64 ≤ 64 * j' + k
      omega

theorem IsData.not_bitmap {b : Nat} (data : c.IsData b) : ¬ c.IsBitmap b := by
  unfold Image.IsData at data
  unfold Image.IsBitmap
  omega

theorem Consistent.indirect_owner (consistent : Consistent strict c role) (placed : Placed role f)
    (held : c.indirect f ≠ 0) : ∃ d, role (c.indirect f) = some ⟨f, none, d⟩ := by
  obtain ⟨d, owner, _⟩ := (consistent.files f placed).owned none held
  exact ⟨d, owner⟩

theorem Touches.same (touches : Touches c role f c') (consistent : Consistent strict c role) (hf : Placed role f)
    (hg : Placed role g) (ne : g ≠ f) : Same c c' g := by
  refine Same.of_words (fun k small => touches _ _ ⟨?_, ?_, fun same => ?_⟩)
    fun i low high held => touches _ _ ?_
  · rcases hg.block with ⟨super, _⟩ | ⟨dir, i, owner⟩
    · unfold Image.IsBitmap
      omega
    · exact IsData.not_bitmap (consistent.data _ _ owner)
  · rcases hg.block with ⟨super, _⟩ | ⟨dir, i, owner⟩
    · exact .inl super
    · exact .inr ⟨_, owner, fun both => nomatch both.2⟩
  · exact Placed.apart consistent hf hg ne same small
  · obtain ⟨d, owner⟩ := consistent.indirect_owner hg held
    refine ⟨IsData.not_bitmap (consistent.data _ _ owner), .inr ⟨_, owner, fun both => ne both.1⟩, fun same => ?_⟩
    rcases hf.block with ⟨super, _⟩ | ⟨dir, j, other⟩
    · rw [same, super, consistent.one_unowned] at owner
      cases owner
    · rw [same, other] at owner
      cases owner

theorem Touches.nblocks (touches : Touches c role f c') (consistent : Consistent strict c role) (hf : Placed role f) :
    c'.nblocks = c.nblocks := by
  refine congrArg BitVec.toNat (touches 1 1 ⟨by unfold Image.IsBitmap; omega, .inl rfl, fun same => ?_⟩)
  rcases hf.block with ⟨_, rfl⟩ | ⟨dir, i, owner⟩
  · decide
  · rw [← same, consistent.one_unowned] at owner
    cases owner

theorem Image.IsData.of_nblocks {b : Nat} (same : c'.nblocks = c.nblocks) : c'.IsData b ↔ c.IsData b := by
  unfold Image.IsData Image.bitmapEnd
  rw [same]

theorem Image.target_of_no_indirect (none : c.target f none = 0) {i : Nat} (high : ndirect ≤ i) : c.target f (some i) = 0 := by
  show (if i < ndirect then (c.field f (34 + i)).toNat
    else if i < nindirect ∧ c.indirect f ≠ 0 then (c (c.indirect f) i).toNat else 0) = 0
  rw [if_neg (Nat.not_lt.mpr high), if_neg fun both => both.2 none]

theorem Image.Blank.of_zero (zero : ∀ k, k < 64 → c.field f k = 0) : c.Blank f := by
  have direct : ∀ k, k < 64 → (c.field f k).toNat = 0 := fun k small => by rw [zero k small]; rfl
  refine ⟨zero 32 (by decide), zero 33 (by decide), fun p => ?_⟩
  cases p with
  | none => exact direct 44 (by decide)
  | some i =>
    by_cases low : i < ndirect
    · unfold Image.target
      simp only [if_pos low]
      exact direct _ (by unfold ndirect at low; omega)
    · exact Image.target_of_no_indirect (direct 44 (by decide)) (Nat.le_of_not_lt low)

theorem Consistent.change (consistent : Consistent strict c role) (hf : Placed role f) (touches : Touches c role f c')
    (data : ∀ b o, role' b = some o → c.IsData b)
    (free : ∀ b, b < c.nblocks → c'.Free b → c.IsData b ∧ role' b = none)
    (apart : ∀ b o, role' b = some o → o.file.block ≠ b)
    (others : ∀ b o, o.file ≠ f → role b = some o → role' b = some o)
    (slots : ∀ g, Placed role' g → Placed role g ∨ ∀ k, k < 64 → c'.field g k = 0)
    (own : FileOk strict c' role' f) : Consistent strict c' role' := by
  have size := touches.nblocks consistent hf
  refine ⟨fun b o owner => (Image.IsData.of_nblocks size).mpr (data b o owner), fun b below isFree => ?_, apart, fun g hg => ?_⟩
  · rw [size] at below
    obtain ⟨isData, unowned⟩ := free b below isFree
    exact ⟨(Image.IsData.of_nblocks size).mpr isData, unowned⟩
  · by_cases ne : g = f
    · exact ne ▸ own
    · rcases slots g hg with hg | zero
      · exact (consistent.files g hg).same (touches.same consistent hf hg ne) fun b o file owner =>
          others b o (fun same => ne (file.symm.trans same)) owner
      · have blank := Image.Blank.of_zero zero
        exact ⟨fun p held => absurd (blank.target p) held, fun _ _ _ => blank⟩

theorem Image.target_cell {p : Option Nat} (has : c.HasCell f p) :
    c.target f p = (c (c.cell f p).1 (c.cell f p).2).toNat := by
  cases p with
  | none => rfl
  | some i =>
    unfold Image.target Image.cell
    by_cases low : i < ndirect
    · simp only [if_pos low]
      rfl
    · have valid : i < nindirect ∧ c.indirect f ≠ 0 := has.resolve_left low
      simp only [if_neg low, if_pos valid]

theorem Image.bitmapBlock_isBitmap {b : Nat} (below : b < c.nblocks) : c.IsBitmap (Store.bitmapBlock b) := by
  unfold Image.IsBitmap Image.bitmapEnd Store.bitmapBlock blockSizeBit
  omega

theorem Image.Free.congr {b : Nat} (below : b < c.nblocks) (same : ∀ x, c.IsBitmap x → c' x = c x) :
    c'.Free b ↔ c.Free b := by
  unfold Image.Free
  rw [same _ (Image.bitmapBlock_isBitmap below)]

/-- The block of a placed file has an owner or is the super block, so it is no block without an owner. -/
theorem Placed.block_ne {b : Nat} (placed : Placed role f) (unowned : role b = none) (data : c.IsData b) : f.block ≠ b := by
  rintro rfl
  rcases placed.block with ⟨super, _⟩ | ⟨dir, i, owner⟩
  · have two := c.two_le_bitmapEnd
    have low := data.1
    omega
  · rw [unowned] at owner
    cases owner

theorem Placed.not_bitmap (placed : Placed role f) (consistent : Consistent strict c role) : ¬ c.IsBitmap f.block := by
  rcases placed.block with ⟨super, _⟩ | ⟨dir, i, owner⟩
  · unfold Image.IsBitmap
    omega
  · exact IsData.not_bitmap (consistent.data _ _ owner)

theorem Placed.indirect_ne (placed : Placed role f) (consistent : Consistent strict c role) (hg : Placed role g)
    (held : c.indirect g ≠ 0) : c.indirect g ≠ f.block := by
  intro same
  obtain ⟨d, owner⟩ := consistent.indirect_owner hg held
  rcases placed.block with ⟨super, _⟩ | ⟨dir, i, other⟩
  · rw [same, super, consistent.one_unowned] at owner
    cases owner
  · rw [same, other] at owner
    cases owner

theorem Consistent.of_same (consistent : Consistent strict c role) (size : c'.nblocks = c.nblocks)
    (bits : ∀ b, b < c.nblocks → c'.Free b → c.Free b) (same : ∀ g, Placed role g → Same c c' g) :
    Consistent strict c' role where
  data b o owner := (Image.IsData.of_nblocks size).mpr (consistent.data b o owner)
  free b below isFree := by
    rw [size] at below
    obtain ⟨data, unowned⟩ := consistent.free b below (bits b below isFree)
    exact ⟨(Image.IsData.of_nblocks size).mpr data, unowned⟩
  apart := consistent.apart
  files g placed := (consistent.files g placed).same (same g placed) fun _ _ _ owner => owner

theorem Consistent.rebitmap (consistent : Consistent strict c role) (off : ∀ b, ¬ c.IsBitmap b → c' b = c b)
    (bits : ∀ b, b < c.nblocks → c'.Free b → c.Free b) : Consistent strict c' role := by
  have one : ¬ c.IsBitmap 1 := by unfold Image.IsBitmap; omega
  refine consistent.of_same (by unfold Image.nblocks; rw [off 1 one]) bits fun g placed => ?_
  refine Same.of_words (fun k _ => by rw [off _ (placed.not_bitmap consistent)]) fun i _ _ held => ?_
  obtain ⟨d, owner⟩ := consistent.indirect_owner placed held
  rw [off _ (IsData.not_bitmap (consistent.data _ _ owner))]

/-- A client's store to a block that is neither an indirect block nor a block of a directory. -/
theorem Consistent.store {b : Nat} (consistent : Consistent strict c role) (plain : c.bitmapEnd < b)
    (data : ∀ o, role b = some o → o.index ≠ none ∧ o.directory = false) (off : ∀ x, x ≠ b → c' x = c x) :
    Consistent strict c' role := by
  have two := c.two_le_bitmapEnd
  have bitmap : ∀ x, c.IsBitmap x → c' x = c x := by
    intro x isBitmap
    apply off
    have := isBitmap.2
    omega
  refine consistent.of_same (by unfold Image.nblocks; rw [off 1 (by omega)])
    (fun x below isFree => (Image.Free.congr below bitmap).mp isFree) fun g placed => ?_
  refine Same.of_words (fun k _ => ?_) fun i _ _ held => ?_
  · rw [off]
    rcases placed.block with ⟨super, _⟩ | ⟨dir, i, owner⟩
    · omega
    · rintro rfl
      cases (data _ owner).2
  · rw [off]
    rintro rfl
    obtain ⟨d, owner⟩ := consistent.indirect_owner placed held
    exact (data _ owner).1 rfl

theorem Image.setField_target {k : Nat} {v : Word} (apart : c.indirect f ≠ 0 → c.indirect f ≠ f.block)
    (pointer : k < 34 ∨ 45 ≤ k) (p : Option Nat) : (c.set f.block (f.word + k) v).target f p = c.target f p := by
  refine Image.target_congr (fun j low high => Image.set_ne fun same => ?_) (fun i _ _ held => ?_) p
  · have := congrArg Prod.snd same
    simp only at this
    omega
  · exact congrFun (Function.update_of_ne (apart held) _ _) _

theorem Touches.setField {k : Nat} {v : Word} (small : k < 64) : Touches c role f (c.set f.block (f.word + k) v) := by
  refine fun x i other => Image.set_ne fun same => ?_
  cases same
  have outside := other.file rfl
  omega

theorem Consistent.setField {k : Nat} {v : Word} (consistent : Consistent strict c role) (hf : Placed role f)
    (small : k < 64) (pointer : k < 34 ∨ 45 ≤ k)
    (visible : ∀ i, (c.set f.block (f.word + k) v).Visible f i → c.target f (some i) ≠ 0 → c.Visible f i)
    (blank : strict → f ≠ root → (c.set f.block (f.word + k) v).Dead f → (c.set f.block (f.word + k) v).Blank f) :
    Consistent strict (c.set f.block (f.word + k) v) role := by
  have off : ∀ x, x ≠ f.block → c.set f.block (f.word + k) v x = c x := fun x ne => Function.update_of_ne ne _ _
  refine consistent.change hf (.setField small) consistent.data (fun b below isFree => ?_)
    consistent.apart (fun _ _ _ owner => owner) (fun _ placed => .inl placed) ⟨fun p held => ?_, blank⟩
  · refine consistent.free b below ((Image.Free.congr below fun x isBitmap => off x ?_).mp isFree)
    rintro rfl
    exact hf.not_bitmap consistent isBitmap
  · rw [Image.setField_target (hf.indirect_ne consistent hf) pointer] at held ⊢
    obtain ⟨d, owner, seen⟩ := (consistent.files f hf).owned p held
    exact ⟨d, owner, fun i at_i vis => seen i at_i (visible i vis (at_i ▸ held))⟩

/-- A pointer of `f` gets the value `v`, and nothing changes but the bitmap and blocks without an owner. -/
structure Wrote (c : Image) (role : Nat → Option Owner) (f : FilePtr) (p : Option Nat) (v : Word) (c' : Image) : Prop where
  same : ∀ x i, ¬ c.IsBitmap x → (x = 1 ∨ role x ≠ none) → (x, i) ≠ c.cell f p → c' x i = c x i
  cell : c' (c.cell f p).1 (c.cell f p).2 = v

/-- The `File` and its indirect block lie in two blocks, and neither is a block of the bitmap. -/
structure Apart (c : Image) (role : Nat → Option Owner) (f : FilePtr) : Prop where
  file : ¬ c.IsBitmap f.block
  owned : f.block = 1 ∨ role f.block ≠ none
  indirect : c.indirect f ≠ 0 → c.indirect f ≠ f.block ∧ ¬ c.IsBitmap (c.indirect f) ∧ role (c.indirect f) ≠ none

theorem Placed.parts (placed : Placed role f) (consistent : Consistent strict c role) : Apart c role f where
  file := placed.not_bitmap consistent
  owned := by
    rcases placed.block with ⟨super, _⟩ | ⟨dir, j, owner⟩
    · exact .inl super
    · exact .inr (by rw [owner]; nofun)
  indirect held := by
    obtain ⟨d, owner⟩ := consistent.indirect_owner placed held
    exact ⟨placed.indirect_ne consistent placed held, IsData.not_bitmap (consistent.data _ _ owner), by rw [owner]; nofun⟩

theorem Apart.cell_file {p : Option Nat} {k : Nat} (apart : Apart c role f) (has : c.HasCell f p)
    (here : (f.block, f.word + k) = c.cell f p) :
    p = none ∧ k = 44 ∨ ∃ i, i < ndirect ∧ p = some i ∧ k = 34 + i := by
  cases p with
  | none =>
    simp only [Image.cell, Prod.mk.injEq] at here
    exact .inl ⟨rfl, by omega⟩
  | some i =>
    unfold Image.cell at here
    by_cases low : i < ndirect
    · simp only [if_pos low, Prod.mk.injEq] at here
      exact .inr ⟨i, low, rfl, by omega⟩
    · simp only [if_neg low, Prod.mk.injEq] at here
      exact absurd here.1.symm (apart.indirect (has.resolve_left low).2).1

theorem Wrote.touches_of {p : Option Nat} {v : Word} (wrote : Wrote c role f p v c') (has : c.HasCell f p)
    (super : role 1 = none) (indirect : c.indirect f ≠ 0 → ∃ d, role (c.indirect f) = some ⟨f, none, d⟩) :
    Touches c role f c' := by
  intro x i other
  refine wrote.same x i other.bitmap (other.owned.imp id ?_) fun here => ?_
  · rintro ⟨o, owner, _⟩ none
    rw [owner] at none
    cases none
  · have outside : ∀ k, k < 64 → (x, i) ≠ (f.block, f.word + k) := by
      intro k small same
      cases same
      rcases other.file rfl with before | after
      · omega
      · omega
    cases p with
    | none => exact outside 44 (by decide) here
    | some j =>
      unfold Image.cell at here
      by_cases low : j < ndirect
      · have small : j < 10 := low
        simp only [if_pos low] at here
        exact outside (34 + j) (by omega) here
      · simp only [if_neg low] at here
        cases here
        obtain ⟨d, owner⟩ := indirect (has.resolve_left low).2
        rcases other.owned with one | ⟨o, owner', notMine⟩
        · rw [one, super] at owner
          cases owner
        · cases owner.symm.trans owner'
          exact notMine ⟨rfl, rfl⟩

theorem Wrote.touches {p : Option Nat} {v : Word} (wrote : Wrote c role f p v c') (consistent : Consistent strict c role)
    (hf : Placed role f) (has : c.HasCell f p) : Touches c role f c' :=
  wrote.touches_of has consistent.one_unowned (consistent.indirect_owner hf)

section Pointers

variable {p q : Option Nat} {v : Word} (wrote : Wrote c role f p v c') (apart : Apart c role f)
include wrote apart

theorem Wrote.word {k : Nat} (ne : (f.block, f.word + k) ≠ c.cell f p) : c'.field f k = c.field f k :=
  wrote.same _ _ apart.file apart.owned ne

variable (has : c.HasCell f p)
include has

theorem Wrote.field {k : Nat} (pointer : k < 34 ∨ 45 ≤ k) : c'.field f k = c.field f k := by
  refine wrote.word apart fun here => ?_
  rcases apart.cell_file has here with ⟨_, rfl⟩ | ⟨i, low, _, rfl⟩
  · omega
  · unfold ndirect at low
    omega

theorem Wrote.indirect (ne : p ≠ none) : c'.indirect f = c.indirect f := by
  refine congrArg BitVec.toNat (wrote.word apart fun here => ?_)
  rcases apart.cell_file has here with ⟨none, _⟩ | ⟨i, low, _, same⟩
  · exact ne none
  · unfold ndirect at low
    omega

theorem Wrote.target_self : c'.target f p = v.toNat := by
  cases p with
  | none => exact congrArg BitVec.toNat wrote.cell
  | some j =>
    have indirect := wrote.indirect apart has nofun
    have has' : c'.HasCell f (some j) := by
      unfold Image.HasCell
      rw [indirect]
      exact has
    have same : c'.cell f (some j) = c.cell f (some j) := by
      unfold Image.cell
      rw [indirect]
    rw [Image.target_cell has', same, wrote.cell]

theorem Wrote.target_ne (ne : q ≠ p) (entry : p = none → ∀ i, q = some i → i < ndirect) :
    c'.target f q = c.target f q := by
  cases q with
  | none => exact wrote.indirect apart has (Ne.symm ne)
  | some i =>
    unfold Image.target
    by_cases low : i < ndirect
    · have word : c'.field f (34 + i) = c.field f (34 + i) := by
        refine wrote.word apart fun here => ?_
        rcases apart.cell_file has here with ⟨_, same⟩ | ⟨j, _, rfl, same⟩
        · unfold ndirect at low
          omega
        · exact ne (congrArg some (by omega))
      simp only [if_pos low, word]
    · obtain ⟨j, rfl⟩ : ∃ j, p = some j := by
        cases p with
        | none => exact absurd (entry rfl i rfl) low
        | some j => exact ⟨j, rfl⟩
      simp only [if_neg low, wrote.indirect apart has nofun]
      by_cases valid : i < nindirect ∧ c.indirect f ≠ 0
      · obtain ⟨other, data, owned⟩ := apart.indirect valid.2
        have entry : c' (c.indirect f) i = c (c.indirect f) i := by
          refine wrote.same _ _ data (.inr owned) fun here => ?_
          unfold Image.cell at here
          by_cases low' : j < ndirect
          · simp only [if_pos low', Prod.mk.injEq] at here
            exact other here.1
          · simp only [if_neg low', Prod.mk.injEq] at here
            exact ne (congrArg some here.2)
        rw [if_pos valid, if_pos valid, entry]
      · rw [if_neg valid, if_neg valid]

end Pointers

/-- Block `b`, which is free, is taken and becomes what pointer `p` of `f` points to. -/
structure Attached (c : Image) (role : Nat → Option Owner) (f : FilePtr) (p : Option Nat) (b : Nat) (c' : Image) :
    Prop where
  has : c.HasCell f p
  empty : c.target f p = 0
  below : b < c.nblocks
  free : c.Free b
  used : ¬ c'.Free b
  bits : ∀ x, x < c.nblocks → c'.Free x → c.Free x
  wrote : Wrote c role f p (BitVec.ofNat 32 b) c'

section Attach

variable {p : Option Nat} {b : Nat} (consistent : Consistent strict c role) (hf : Placed role f)
  (attached : Attached c role f p b c')
include consistent hf attached

theorem Attached.target_self : c'.target f p = b := by
  rw [attached.wrote.target_self (hf.parts consistent) attached.has, BitVec.toNat_ofNat]
  exact Nat.mod_eq_of_lt (Nat.lt_trans attached.below (c 1 1).isLt)

theorem Attached.target_ne (fresh : p = none → ∀ k, k < 1024 → c' b k = 0) {q : Option Nat} (ne : q ≠ p) :
    c'.target f q = c.target f q := by
  by_cases entry : p = none → ∀ i, q = some i → i < ndirect
  · exact attached.wrote.target_ne (hf.parts consistent) attached.has ne entry
  · simp only [not_forall] at entry
    obtain ⟨rfl, i, rfl, high⟩ := entry
    have before : c.indirect f = 0 := attached.empty
    have after : c'.indirect f = b := attached.target_self consistent hf
    unfold Image.target
    simp only [if_neg high, before, after]
    have none : ¬ (i < nindirect ∧ (0 : Nat) ≠ 0) := fun both => both.2 rfl
    rw [if_neg none]
    split
    · rename_i valid
      rw [fresh rfl i valid.1]
      rfl
    · rfl

/-- A free block that comes as zeros where its words are read as pointers or files keeps the ownership. -/
theorem Consistent.attach (fresh : p = none ∨ (∃ i, p = some i ∧ c.Visible f i) → ∀ k, k < 1024 → c' b k = 0)
    (live : strict → f ≠ root → ¬ c.Dead f) :
    ∃ d, Consistent strict c' (Function.update role b (some ⟨f, p, d⟩)) := by
  classical
  obtain ⟨data, unowned⟩ := consistent.free b attached.below attached.free
  have other : ∀ x o, role x = some o → x ≠ b := by
    rintro x o owner rfl
    rw [unowned] at owner
    cases owner
  have field : ∀ k, k < 34 → c'.field f k = c.field f k := fun k small =>
    attached.wrote.field (hf.parts consistent) attached.has (.inl small)
  have seen : ∀ i, c'.Visible f i ↔ c.Visible f i := by
    intro i
    unfold Image.Visible
    rw [field 33 (by decide), field 32 (by decide)]
  refine ⟨decide (∃ i, p = some i ∧ c.Visible f i), consistent.change hf
    (attached.wrote.touches consistent hf attached.has) (fun x o owner => ?_) (fun x below isFree => ?_)
    (fun x o owner => ?_) (fun x o _ owner => ?_) (fun g placed => ?_) ⟨fun q held => ?_, fun strict notRoot dead => ?_⟩⟩
  · by_cases here : x = b
    · exact here ▸ data
    · rw [Function.update_of_ne here] at owner
      exact consistent.data x o owner
  · have here : x ≠ b := by
      rintro rfl
      exact attached.used isFree
    rw [Function.update_of_ne here]
    exact consistent.free x below (attached.bits x below isFree)
  · by_cases here : x = b
    · subst here
      rw [Function.update_self] at owner
      cases owner
      exact hf.block_ne unowned data
    · rw [Function.update_of_ne here] at owner
      exact consistent.apart x o owner
  · rw [Function.update_of_ne (other x o owner)]
    exact owner
  · cases placed with
    | ofRoot => exact .inl .ofRoot
    | @ofSlot x i j dir owner small =>
      by_cases here : x = b
      · subst here
        rw [Function.update_self] at owner
        have flag : decide (∃ i, p = some i ∧ c.Visible f i) = true := congrArg Owner.directory (Option.some.inj owner)
        refine .inr fun k bound => fresh (.inr (of_decide_eq_true flag)) _ ?_
        have : j < 16 := small
        show 64 * j + k < 1024
        omega
      · rw [Function.update_of_ne here] at owner
        exact .inl (.ofSlot owner small)
  · by_cases here : q = p
    · subst here
      rw [attached.target_self consistent hf, Function.update_self]
      exact ⟨_, rfl, fun i at_i vis => decide_eq_true ⟨i, at_i, (seen i).mp vis⟩⟩
    · have same := attached.target_ne consistent hf (fun indirect => fresh (.inl indirect)) here
      rw [same] at held ⊢
      obtain ⟨d, owner, flag⟩ := (consistent.files f hf).owned q held
      rw [Function.update_of_ne (other _ _ owner)]
      exact ⟨d, owner, fun i at_i vis => flag i at_i ((seen i).mp vis)⟩
  · refine absurd ?_ (live strict notRoot)
    unfold Image.Dead at dead ⊢
    rw [← field 0 (by decide)]
    exact dead

end Attach

/-- The block that pointer `p` of `f` points to is freed and the pointer cleared. -/
structure Detached (c : Image) (role : Nat → Option Owner) (f : FilePtr) (p : Option Nat) (c' : Image) : Prop where
  has : c.HasCell f p
  held : c.target f p ≠ 0
  bits : ∀ x, x < c.nblocks → c'.Free x → c.Free x ∨ x = c.target f p
  wrote : Wrote c role f p 0 c'

section Apart

variable {p : Option Nat} (detached : Detached c role f p c') (apart : Apart c role f)
include detached apart

theorem Detached.target_self : c'.target f p = 0 := detached.wrote.target_self apart detached.has

theorem Detached.entry (indirect : p = none) {i : Nat} (high : ndirect ≤ i) : c'.target f (some i) = 0 := by
  subst indirect
  exact Image.target_of_no_indirect (detached.target_self apart) high

theorem Detached.target_le {q : Option Nat} (ne : q ≠ p) : c'.target f q = c.target f q ∨ c'.target f q = 0 := by
  by_cases entry : p = none → ∀ i, q = some i → i < ndirect
  · exact .inl (detached.wrote.target_ne apart detached.has ne entry)
  · simp only [not_forall] at entry
    obtain ⟨indirect, i, rfl, high⟩ := entry
    exact .inr (detached.entry apart indirect (Nat.not_lt.mp high))

end Apart

section Detach

variable {p : Option Nat} (consistent : Consistent strict c role) (hf : Placed role f) (detached : Detached c role f p c')
include consistent hf detached

theorem Consistent.detach : Consistent strict c' (Function.update role (c.target f p) none) ∧
    Placed (Function.update role (c.target f p) none) f := by
  obtain ⟨d, owner, _⟩ := (consistent.files f hf).owned p detached.held
  have kept : ∀ {x o}, Function.update role (c.target f p) none x = some o → role x = some o := by
    intro x o owner
    by_cases here : x = c.target f p
    · rw [here, Function.update_self] at owner
      cases owner
    · rw [Function.update_of_ne here] at owner
      exact owner
  have field : ∀ k, k < 34 → c'.field f k = c.field f k := fun k small =>
    detached.wrote.field (hf.parts consistent) detached.has (.inl small)
  refine ⟨consistent.change hf (detached.wrote.touches consistent hf detached.has)
    (fun x o owner => consistent.data x o (kept owner)) (fun x below isFree => ?_)
    (fun x o owner => consistent.apart x o (kept owner)) (fun x o notMine owner' => ?_) (fun g placed => ?_)
    ⟨fun q held => ?_, fun isStrict notRoot dead => ?_⟩, ?_⟩
  · rcases detached.bits x below isFree with before | rfl
    · obtain ⟨data, unowned⟩ := consistent.free x below before
      refine ⟨data, ?_⟩
      by_cases here : x = c.target f p
      · rw [here, Function.update_self]
      · rw [Function.update_of_ne here, unowned]
    · exact ⟨consistent.data _ _ owner, Function.update_self ..⟩
  · rw [Function.update_of_ne]
    · exact owner'
    · rintro rfl
      cases owner.symm.trans owner'
      exact notMine rfl
  · cases placed with
    | ofRoot => exact .inl .ofRoot
    | ofSlot owner small => exact .inl (.ofSlot (kept owner) small)
  · have ne : q ≠ p := by
      rintro rfl
      exact held (detached.target_self (hf.parts consistent))
    have same := (detached.target_le (hf.parts consistent) ne).resolve_right held
    rw [same] at held ⊢
    obtain ⟨d', owner', flag⟩ := (consistent.files f hf).owned q held
    refine ⟨d', ?_, fun i at_i vis => flag i at_i ?_⟩
    · rw [Function.update_of_ne]
      · exact owner'
      · intro meet
        rw [meet] at owner'
        cases owner.symm.trans owner'
        exact ne rfl
    · unfold Image.Visible at vis ⊢
      rw [field 33 (by decide), field 32 (by decide)] at vis
      exact vis
  · have dead' : c.Dead f := by
      unfold Image.Dead at dead ⊢
      rw [← field 0 (by decide)]
      exact dead
    exact absurd (((consistent.files f hf).blank isStrict notRoot dead').target p) detached.held
  · cases hf with
    | ofRoot => exact .ofRoot
    | @ofSlot b i j dir owner' small =>
      have kept : Function.update role (c.target (fileOf b j) p) none b = some ⟨dir, some i, true⟩ := by
        rw [Function.update_of_ne]
        · exact owner'
        · exact fun same => consistent.apart _ _ owner same
      exact .ofSlot kept small

end Detach

end Mos.Fs
