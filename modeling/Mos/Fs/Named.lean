import Mos.Fs.Owned

namespace Mos.Fs

/-- The root, and the files with a name in the blocks of the directories found so. -/
inductive Named (c : Image) : FilePtr → Prop where
  | ofRoot : Named c root
  | ofSlot {dir : FilePtr} {i j : Nat} (named : Named c dir) (visible : c.Visible dir i)
      (held : c.target dir (some i) ≠ 0) (small : j < file2blk) (live : ¬ c.Dead (fileOf (c.target dir (some i)) j)) :
      Named c (fileOf (c.target dir (some i)) j)

/-- Each data block in use is a block of a file with a name. -/
def NoLeak (c : Image) : Prop := ∀ b, c.IsData b → ¬ c.Free b → ∃ f p, Named c f ∧ c.target f p = b

variable {strict : Prop} {c c' c'' : Image} {role role' : Nat → Option Owner} {f g : FilePtr}

theorem Image.IsData.ne_zero {b : Nat} (data : c.IsData b) : b ≠ 0 := by
  have low := data.1
  omega

theorem fileOf_ne_root (b j : Nat) : fileOf b j ≠ root := by
  intro same
  have word : 64 * j = 2 := congrArg FilePtr.word same
  omega

theorem Named.reach (named : Named c f) : Reach c f := by
  induction named with
  | ofRoot => exact .ofRoot
  | ofSlot _ visible held small _ ih => exact .ofSlot ih visible held small

theorem Named.live (named : Named c f) (notRoot : f ≠ root) : ¬ c.Dead f := by
  cases named with
  | ofRoot => exact absurd rfl notRoot
  | ofSlot _ _ _ _ live => exact live

section Holder

variable (noLeak : NoLeak c) (exclusive : Exclusive c) (reach : Reach c f)
include noLeak exclusive reach

theorem NoLeak.holder {p : Option Nat} (held : c.target f p ≠ 0) : Named c f := by
  obtain ⟨data, used⟩ := exclusive.inUse f p reach held
  obtain ⟨g, q, named, same⟩ := noLeak _ data used
  obtain ⟨rfl, -⟩ := exclusive.once f g p q reach named.reach held same.symm
  exact named

theorem NoLeak.dead (dead : c.Dead f) (notRoot : f ≠ root) (p : Option Nat) : c.target f p = 0 := by
  by_contra held
  exact (noLeak.holder exclusive reach held).live notRoot dead

theorem NoLeak.named (live : f ≠ root → ¬ c.Dead f) : Named c f := by
  cases reach with
  | ofRoot => exact .ofRoot
  | ofSlot reach visible held small =>
    exact .ofSlot (noLeak.holder exclusive reach held) visible held small (live (fileOf_ne_root _ _))

end Holder

theorem Named.slot {dir : FilePtr} {i j : Nat} (named : Named c' dir) (visible : c'.Visible dir i)
    (same : c'.target dir (some i) = c.target dir (some i)) (held : c.target dir (some i) ≠ 0) (small : j < file2blk)
    (live : ¬ c'.Dead (fileOf (c.target dir (some i)) j)) : Named c' (fileOf (c.target dir (some i)) j) := by
  rw [← same] at held live ⊢
  exact .ofSlot named visible held small live

/-- A change of the file `f` in which no block gets lost: what `f` loses is free, a block that comes into use is one of
    `f`, which has a name, and the files with blocks that lie in `f` stay there. -/
structure Changed (f : FilePtr) (c c' : Image) : Prop where
  others : ∀ g, Named c g → g ≠ f → Same c c' g
  bits : ∀ b, c'.IsData b → ¬ c'.Free b → c.IsData b ∧ ¬ c.Free b ∨ Named c f ∧ ∃ p, c'.target f p = b
  pointers : ∀ p, c.target f p ≠ 0 → c'.target f p = c.target f p ∨ c'.Free (c.target f p)
  live : f ≠ root → ¬ c.Dead f → c'.Dead f → ∀ p, c'.target f p = 0
  seen : ∀ i j p, c.Visible f i → j < file2blk → c.target f (some i) ≠ 0 →
    c.target (fileOf (c.target f (some i)) j) p ≠ 0 → c'.Visible f i ∧ c'.target f (some i) = c.target f (some i)

section Change

variable (changed : Changed f c c') (exclusive : Exclusive c)
include changed exclusive

theorem Changed.named (named : Named c g) (own : g = f → ∃ p, c'.target f p ≠ 0)
    (other : g ≠ f → ∃ p, c.target g p ≠ 0) : Named c' g := by
  induction named with
  | ofRoot => exact .ofRoot
  | @ofSlot dir i j named visible held small live ih =>
    have parent : Named c' dir ∧ c'.Visible dir i ∧ c'.target dir (some i) = c.target dir (some i) := by
      by_cases here : dir = f
      · subst here
        -- a directory is not in a block of its own
        have apart : fileOf (c.target dir (some i)) j ≠ dir := fun same =>
          exclusive.apart named.reach (some i) held (congrArg FilePtr.block same).symm
        obtain ⟨p, has⟩ := other apart
        obtain ⟨visible', same⟩ := changed.seen i j p visible small held has
        exact ⟨ih (fun _ => ⟨some i, same ▸ held⟩) fun no => absurd rfl no, visible', same⟩
      · have same := changed.others dir named here
        exact ⟨ih (fun no => absurd no here) fun _ => ⟨some i, held⟩, (same.visible i).mpr visible, same.target _⟩
    obtain ⟨named', visible', same⟩ := parent
    have live' : ¬ c'.Dead (fileOf (c.target dir (some i)) j) := by
      intro dead
      by_cases here : fileOf (c.target dir (some i)) j = f
      · obtain ⟨p, has⟩ := own here
        subst here
        exact has (changed.live (fileOf_ne_root _ _) live dead p)
      · exact live ((changed.others _ (.ofSlot named visible held small live) here).dead.mp dead)
    exact .slot named' visible' same held small live'

theorem NoLeak.change (noLeak : NoLeak c) : NoLeak c' := by
  intro b data used
  have nonzero := data.ne_zero
  rcases changed.bits b data used with ⟨data, used'⟩ | ⟨named, p, same⟩
  · obtain ⟨g, p, named, same⟩ := noLeak b data used'
    subst same
    by_cases here : g = f
    · subst here
      have kept := (changed.pointers p nonzero).resolve_right used
      exact ⟨g, p, changed.named exclusive named (fun _ => ⟨p, kept ▸ nonzero⟩) fun no => absurd rfl no, kept⟩
    · exact ⟨g, p, changed.named exclusive named (fun no => absurd no here) fun _ => ⟨p, nonzero⟩,
        (changed.others g named here).target p⟩
  · exact ⟨f, p, changed.named exclusive named (fun _ => ⟨p, same ▸ nonzero⟩) fun no => absurd rfl no, same⟩

end Change

/-- `f` keeps the blocks that it has, and what comes into use is a block of `f`. -/
structure Gained (f : FilePtr) (c c' : Image) : Prop where
  nblocks : c'.nblocks = c.nblocks
  pointers : ∀ p, c.target f p ≠ 0 → c'.target f p = c.target f p
  bits : ∀ b, c.IsData b → c.Free b → c'.Free b ∨ ∃ p, c'.target f p = b

theorem Gained.refl (f : FilePtr) (c : Image) : Gained f c c := ⟨rfl, fun _ _ => rfl, fun _ _ isFree => .inl isFree⟩

theorem Gained.trans (first : Gained f c c') (second : Gained f c' c'') : Gained f c c'' where
  nblocks := second.nblocks.trans first.nblocks
  pointers p held := by
    have same := first.pointers p held
    exact (second.pointers p (same ▸ held)).trans same
  bits b data isFree := by
    rcases first.bits b data isFree with isFree' | ⟨p, same⟩
    · exact second.bits b ((Image.IsData.of_nblocks first.nblocks).mpr data) isFree'
    · exact .inr ⟨p, (second.pointers p (same ▸ data.ne_zero)).trans same⟩

theorem Attached.gained {p : Option Nat} {b : Nat} (attached : Attached c role f p b c') (consistent : Consistent strict c role)
    (placed : Placed role f) (fresh : p = none → ∀ k, k < 1024 → c' b k = 0)
    (takes : ∀ x, x < c.nblocks → c.Free x → c'.Free x ∨ x = b) : Gained f c c' where
  nblocks := (attached.wrote.touches consistent placed attached.has).nblocks consistent placed
  pointers q held := by
    refine attached.target_ne consistent placed fresh ?_
    rintro rfl
    exact held attached.empty
  bits x data isFree := by
    refine (takes x data.2 isFree).imp id ?_
    rintro rfl
    exact ⟨p, attached.target_self consistent placed⟩

theorem Grown.changed {I : Nat → Prop} (grown : Grown f I c role c' role') (gained : Gained f c c')
    (consistent : Consistent strict c role) (placed : Placed role f) (named : Named c f) : Changed f c c' where
  others g other ne := grown.touches.same consistent placed (consistent.placed other.reach) ne
  bits b data used := by
    have data := (Image.IsData.of_nblocks gained.nblocks).mp data
    by_cases isFree : c.Free b
    · exact .inr ⟨named, (gained.bits b data isFree).resolve_left used⟩
    · exact .inl ⟨data, isFree⟩
  pointers p held := .inl (gained.pointers p held)
  live notRoot live dead := by
    have same : c'.Dead f ↔ c.Dead f := by
      unfold Image.Dead
      rw [grown.field 0 (.inl (by decide))]
    exact absurd (same.mp dead) live
  seen i _ _ visible _ held _ := ⟨(grown.visible i).mpr visible, gained.pointers _ held⟩

/-- The file is as it was, but for blocks that it got. -/
structure Keeps (c c' : Image) (g : FilePtr) : Prop where
  visible : ∀ i, c.Visible g i → c'.Visible g i
  target : ∀ p, c.target g p ≠ 0 → c'.target g p = c.target g p
  dead : c'.Dead g → c.Dead g

theorem Same.keeps (same : Same c c' g) : Keeps c c' g where
  visible i := (same.visible i).mpr
  target p _ := same.target p
  dead := same.dead.mp

theorem Named.keep (keeps : ∀ g, Named c g → Keeps c c' g) (named : Named c g) : Named c' g := by
  induction named with
  | ofRoot => exact .ofRoot
  | @ofSlot dir i j named visible held small live ih =>
    refine .slot ih ((keeps dir named).visible i visible) ((keeps dir named).target _ held) held small fun dead => ?_
    exact live ((keeps _ (.ofSlot named visible held small live)).dead dead)

theorem Grown.named {I : Nat → Prop} (grown : Grown f I c role c' role') (gained : Gained f c c')
    (consistent : Consistent strict c role) (placed : Placed role f) (named : Named c f) : Named c' f := by
  refine named.keep fun g other => ?_
  by_cases here : g = f
  · subst here
    refine ⟨fun i => (grown.visible i).mpr, gained.pointers, fun dead => ?_⟩
    unfold Image.Dead at dead ⊢
    rwa [grown.field 0 (.inl (by decide))] at dead
  · exact (grown.touches.same consistent placed (consistent.placed other.reach) here).keeps

theorem NoLeak.of_same (noLeak : NoLeak c) (same : ∀ g, Named c g → Same c c' g) (size : c'.nblocks = c.nblocks)
    (bits : ∀ b, c.IsData b → c.Free b → c'.Free b) : NoLeak c' := by
  intro b data used
  have data := (Image.IsData.of_nblocks size).mp data
  obtain ⟨g, p, named, held⟩ := noLeak b data fun isFree => used (bits b data isFree)
  exact ⟨g, p, named.keep fun h other => (same h other).keeps, ((same g named).target p).trans held⟩

end Mos.Fs
