import Mos.Fs.Image

namespace Mos.Fs

/-- The root, and the slots of the blocks of the directories found so, with or without a name. -/
inductive Reach (c : Image) : FilePtr → Prop where
  | ofRoot : Reach c root
  | ofSlot {dir : FilePtr} {i j : Nat} (reach : Reach c dir) (visible : c.Visible dir i)
      (held : c.target dir (some i) ≠ 0) (small : j < file2blk) : Reach c (fileOf (c.target dir (some i)) j)

/-- No block is referenced by two pointers of the tree, and each referenced block is a data block in use. -/
structure Exclusive (c : Image) : Prop where
  once : ∀ f g p q, Reach c f → Reach c g → c.target f p ≠ 0 → c.target f p = c.target g q → f = g ∧ p = q
  inUse : ∀ f p, Reach c f → c.target f p ≠ 0 → c.IsData (c.target f p) ∧ ¬ c.Free (c.target f p)
  system : ∀ b, b < c.nblocks → b ≤ c.bitmapEnd → ¬ c.Free b

/-- With `strict`, the free slots of the directories have nothing left of an earlier file. -/
structure Sound (strict : Prop) (c : Image) : Prop extends Exclusive c where
  blank : strict → ∀ f, Reach c f → f ≠ root → c.Dead f → c.Blank f

variable {strict : Prop} {c : Image} {role : Nat → Option Owner} {f : FilePtr}

section Bare

variable (bare : ∀ p, c.target root p = 0)
include bare

theorem reach_bare (reach : Reach c f) : f = root := by
  induction reach with
  | ofRoot => rfl
  | @ofSlot dir i j _ _ held _ ih =>
    subst ih
    exact absurd (bare _) held

theorem exclusive_bare (system : ∀ b, b < c.nblocks → b ≤ c.bitmapEnd → ¬ c.Free b) : Exclusive c where
  once _ _ p _ hf _ held _ := absurd (reach_bare bare hf ▸ bare p) held
  inUse _ p hf held := absurd (reach_bare bare hf ▸ bare p) held
  system := system

end Bare

theorem Consistent.placed (consistent : Consistent strict c role) (reach : Reach c f) : Placed role f := by
  induction reach with
  | ofRoot => exact .ofRoot
  | @ofSlot dir i j reach visible held small ih =>
    obtain ⟨d, owner, flag⟩ := (consistent.files dir ih).owned (some i) held
    cases flag i rfl visible
    exact .ofSlot owner small

theorem Consistent.sound (consistent : Consistent strict c role) : Sound strict c where
  once f g p q hf hg held same := by
    obtain ⟨d, owner, _⟩ := (consistent.files f (consistent.placed hf)).owned p held
    obtain ⟨d', owner', _⟩ := (consistent.files g (consistent.placed hg)).owned q (same ▸ held)
    rw [same] at owner
    cases owner.symm.trans owner'
    exact ⟨rfl, rfl⟩
  inUse f p hf held := by
    obtain ⟨d, owner, _⟩ := (consistent.files f (consistent.placed hf)).owned p held
    have data := consistent.data _ _ owner
    refine ⟨data, fun isFree => ?_⟩
    rw [(consistent.free _ data.2 isFree).2] at owner
    cases owner
  system b below low isFree := absurd (consistent.free b below isFree).1.1 (Nat.not_lt.mpr low)
  blank isStrict f hf := (consistent.files f (consistent.placed hf)).blank isStrict

theorem Exclusive.apart (exclusive : Exclusive c) (reach : Reach c f) (p : Option Nat) (held : c.target f p ≠ 0) :
    f.block ≠ c.target f p := by
  induction reach generalizing p with
  | ofRoot =>
    intro same
    have data := (exclusive.inUse root p .ofRoot held).1.1
    have two := c.two_le_bitmapEnd
    rw [← same] at data
    exact absurd data (by show ¬ c.bitmapEnd < 1; omega)
  | @ofSlot dir i j reach visible held' small ih =>
    intro same
    have meet : c.target dir (some i) = c.target (fileOf (c.target dir (some i)) j) p := same
    obtain ⟨self, -⟩ := exclusive.once _ _ _ _ reach (.ofSlot reach visible held' small) held' meet
    exact ih (some i) held' (congrArg FilePtr.block self)

open Classical in
noncomputable def ownerOf (c : Image) (b : Nat) : Option Owner :=
  if h : ∃ fp : FilePtr × Option Nat, Reach c fp.1 ∧ c.target fp.1 fp.2 = b ∧ b ≠ 0 then
    some ⟨h.choose.1, h.choose.2, decide (∃ i, h.choose.2 = some i ∧ c.Visible h.choose.1 i)⟩
  else none

theorem Exclusive.ownerOf_target (exclusive : Exclusive c) (reach : Reach c f) {p : Option Nat} (held : c.target f p ≠ 0) :
    ∃ d, ownerOf c (c.target f p) = some ⟨f, p, d⟩ ∧ (d = true ↔ ∃ i, p = some i ∧ c.Visible f i) := by
  classical
  have owned : ∃ fp : FilePtr × Option Nat, Reach c fp.1 ∧ c.target fp.1 fp.2 = c.target f p ∧ c.target f p ≠ 0 :=
    ⟨(f, p), reach, rfl, held⟩
  obtain ⟨reach', same, _⟩ := owned.choose_spec
  obtain ⟨file, index⟩ := exclusive.once _ _ _ _ reach reach' held same.symm
  refine ⟨_, dif_pos owned |>.trans ?_, decide_eq_true_iff⟩
  rw [← file, ← index]

theorem ownerOf_some {b : Nat} {o : Owner} (owner : ownerOf c b = some o) :
    Reach c o.file ∧ c.target o.file o.index = b ∧ b ≠ 0 := by
  classical
  unfold ownerOf at owner
  split at owner
  · rename_i h
    cases owner
    exact h.choose_spec
  · cases owner

theorem Exclusive.reach_of_placed (exclusive : Exclusive c) (placed : Placed (ownerOf c) f) : Reach c f := by
  cases placed with
  | ofRoot => exact .ofRoot
  | @ofSlot b i j dir owner small =>
    obtain ⟨reach, same, held⟩ := ownerOf_some owner
    subst same
    obtain ⟨d, owner', flag⟩ := exclusive.ownerOf_target reach held
    cases owner.symm.trans owner'
    obtain ⟨i', same, visible⟩ := flag.mp rfl
    cases same
    exact .ofSlot reach visible held small

theorem Sound.consistent (sound : Sound strict c) : Consistent strict c (ownerOf c) where
  data b o owner := by
    obtain ⟨reach, same, held⟩ := ownerOf_some owner
    subst same
    exact (sound.inUse _ _ reach held).1
  free b below isFree := by
    have data : c.IsData b := ⟨Nat.lt_of_not_le fun low => sound.system b below low isFree, below⟩
    refine ⟨data, ?_⟩
    cases owner : ownerOf c b with
    | none => rfl
    | some o =>
      obtain ⟨reach, same, held⟩ := ownerOf_some owner
      subst same
      exact absurd isFree (sound.inUse _ _ reach held).2
  apart b o owner := by
    obtain ⟨reach, same, held⟩ := ownerOf_some owner
    subst same
    exact sound.toExclusive.apart reach _ held
  files f placed := by
    have reach := sound.reach_of_placed placed
    refine ⟨fun p held => ?_, fun isStrict => sound.blank isStrict f reach⟩
    obtain ⟨d, owner, flag⟩ := sound.ownerOf_target reach held
    exact ⟨d, owner, fun i at_i visible => flag.mpr ⟨i, at_i, visible⟩⟩

end Mos.Fs
