import Mos.Fs.Marks
import Mos.Fs.Resize

namespace Mos.Fs

variable {strict : Prop} {s t u : Store} {role : Nat → Option Owner} {f g : FilePtr} {c c' c'' : Image}
  {p : Option Nat} {new last k k' : Nat} {n : Word}

/-- Block `b` becomes free and the free blocks stay so. -/
structure Frees (c c' : Image) (b : Nat) : Prop where
  bits : ∀ x, x < c.nblocks → c.Free x → c'.Free x
  freed : b ≠ 0 → c'.Free b

/-- What `f` loses is free, and nothing comes into use. -/
structure Released (f : FilePtr) (c c' : Image) : Prop where
  nblocks : c'.nblocks = c.nblocks
  pointers : ∀ p, c.target f p ≠ 0 → c'.target f p = c.target f p ∨ c'.Free (c.target f p)
  bits : ∀ b, b < c.nblocks → c.Free b → c'.Free b

theorem Released.refl (f : FilePtr) (c : Image) : Released f c c := ⟨rfl, fun _ _ => .inl rfl, fun _ _ isFree => isFree⟩

theorem Released.trans (first : Released f c c') (second : Released f c' c'')
    (below : ∀ p, c.target f p ≠ 0 → c.target f p < c.nblocks) : Released f c c'' where
  nblocks := second.nblocks.trans first.nblocks
  pointers p held := by
    rcases first.pointers p held with same | isFree
    · have next := second.pointers p (same ▸ held)
      rwa [same] at next
    · exact .inr (second.bits _ (first.nblocks ▸ below p held) isFree)
  bits b inside isFree := second.bits b (first.nblocks ▸ inside) (first.bits b inside isFree)

theorem Touches.trans (first : Touches c role f c') (second : Touches c' role f c'') (size : c'.nblocks = c.nblocks) :
    Touches c role f c'' := by
  intro b i other
  refine (second b i ⟨?_, other.owned, other.file⟩).trans (first b i other)
  have plain := other.bitmap
  unfold Image.IsBitmap Image.bitmapEnd at plain ⊢
  rwa [size]

/-- An entry behind the first ones goes with the indirect block, unless there is none. -/
theorem Detached.target_kept (detached : Detached c role f p c') (apart : Apart c role f)
    (entries : p = none → ∀ i, ndirect ≤ i → c.target f (some i) = 0) {q : Option Nat} (ne : q ≠ p)
    (held : c.target f q ≠ 0) : c'.target f q = c.target f q := by
  refine detached.wrote.target_ne apart detached.has ne fun indirect i same => ?_
  by_contra high
  exact held (same ▸ entries indirect i (Nat.not_lt.mp high))

theorem Dropped.released (dropped : Dropped role f p c c') (apart : Apart c role f)
    (entries : p = none → ∀ i, ndirect ≤ i → c.target f (some i) = 0) (frees : Frees c c' (c.target f p)) :
    Released f c c' where
  nblocks := dropped.nblocks
  pointers q held := by
    by_cases here : q = p
    · exact .inr (here ▸ frees.freed (here ▸ held))
    · rcases dropped with ⟨same, -⟩ | detached
      · exact .inl (by rw [same])
      · exact .inl (detached.target_kept apart entries here held)
  bits := frees.bits

theorem frees_of_free (apart : Apart t.content role f) (super : t.cache 1 ≠ none) (charted : Charted t)
    (has : t.content.HasCell f p) (here : t.cache (t.content.cell f p).1 ≠ none)
    (below : t.content.target f p < t.content.nblocks) :
    Frees t.content ((freeBlock (t.content.target f p) t).setWord (t.content.cell f p).1 (t.content.cell f p).2 0).content
      (t.content.target f p) := by
  have content := content_setWord (s := freeBlock (t.content.target f p) t) (i := (t.content.cell f p).2) (v := 0)
    (freeBlock_cached (b := t.content.target f p) here)
  have off := apart.cell_off has
  have same : ∀ x, x < t.content.nblocks →
      (((freeBlock (t.content.target f p) t).content.set (t.content.cell f p).1 (t.content.cell f p).2 0).Free x ↔
        (freeBlock (t.content.target f p) t).content.Free x) := by
    intro x inside
    unfold Image.Free
    have word : (freeBlock (t.content.target f p) t).content.set (t.content.cell f p).1 (t.content.cell f p).2 0
        (Store.bitmapBlock x) = (freeBlock (t.content.target f p) t).content (Store.bitmapBlock x) := by
      refine Function.update_of_ne (fun meet => off ?_) _ _
      exact meet ▸ Image.bitmapBlock_isBitmap inside
    rw [word]
  rw [content]
  refine ⟨fun x inside isFree => (same x inside).mpr (freeBlock_keeps (fun _ => charted.bitmap below) isFree),
    fun nonzero => (same _ below).mpr ?_⟩
  exact freeBlock_frees (charted.bitmap below) nonzero (nblocks_content super ▸ below)

theorem fileClearBlock_frees (i : Nat) (cached : t.cache f.block ≠ none) (apart : Apart t.content role f)
    (super : t.cache 1 ≠ none) (charted : Charted t)
    (below : t.content.target f (some i) ≠ 0 → t.content.target f (some i) < t.content.nblocks) :
    (fileClearBlock f i t).Meets (fun _ u => Frees t.content u.content (t.content.target f (some i))) (fun _ => True)
      fun _ => True := by
  refine ((fileBlockWalk_findable i cached).mono (fun _ _ h => h) (fun _ _ => trivial) fun _ _ => trivial).bind
    fun ptr u walked => ?_
  obtain ⟨read, has, rfl, here, -⟩ := walked
  rw [← read.content] at apart has here below ⊢
  have target : (u.word (u.content.cell f (some i)).1 (u.content.cell f (some i)).2).toNat = u.content.target f (some i) := by
    rw [word_content here, Image.target_cell has]
  have charted' : Charted u := charted.of_cached (by rw [read.content]) read.cached
  split
  · rename_i held
    have nonzero : u.content.target f (some i) ≠ 0 := target ▸ fun zero => held (BitVec.eq_of_toNat_eq zero)
    rw [target]
    exact frees_of_free apart (read.cached 1 super) charted' has here (below nonzero)
  · rename_i none
    refine ⟨fun _ _ isFree => isFree, fun held => absurd ?_ held⟩
    rw [← target, not_not.mp none]
    rfl

theorem dropIndirect_frees (cached : t.cache f.block ≠ none) (apart : Apart t.content role f)
    (super : t.cache 1 ≠ none) (charted : Charted t)
    (below : t.content.target f none ≠ 0 → t.content.target f none < t.content.nblocks) :
    Frees t.content (dropIndirect f t).content (t.content.target f none) := by
  have target : (t.fIndirect f).toNat = t.content.target f none := congrArg BitVec.toNat (field_content cached 44)
  unfold dropIndirect
  split
  · rename_i held
    have nonzero : t.content.target f none ≠ 0 := target ▸ fun zero => held (BitVec.eq_of_toNat_eq zero)
    rw [target]
    exact frees_of_free (p := none) apart super charted trivial cached (below nonzero)
  · rename_i none
    refine ⟨fun _ _ isFree => isFree, fun held => absurd ?_ held⟩
    rw [← target, not_not.mp none]
    rfl

/-- From `s` the store `t` is reached by cutting off blocks of `f` with indexes from `new` to `last`, those before `k`
    for sure. -/
structure Trimmed (f : FilePtr) (new last k : Nat) (s : Store) (role : Nat → Option Owner) (t : Store) : Prop where
  cached : ∀ x, s.cache x ≠ none → t.cache x ≠ none
  apart : Apart t.content role f
  touches : Touches s.content role f t.content
  released : Released f s.content t.content
  cut : Cut f new k s.content t.content
  kept : ∀ i, i < new ∨ last ≤ i → s.content.target f (some i) ≠ 0 →
    t.content.target f (some i) = s.content.target f (some i)

theorem Holds.below (holds : Holds strict s role f) (held : s.content.target f p ≠ 0) :
    s.content.target f p < s.content.nblocks := by
  obtain ⟨d, owner, -⟩ := (holds.consistent.files f holds.placed).owned p held
  exact (holds.consistent.data _ _ owner).2

section Trim

variable (holds : Holds strict s role f) (trimmed : Trimmed f new last k s role t)
include holds trimmed

theorem Trimmed.below (held : t.content.target f p ≠ 0) : t.content.target f p < t.content.nblocks := by
  have same := (trimmed.cut.target p).resolve_left held
  rw [same] at held ⊢
  rw [trimmed.released.nblocks]
  exact holds.below held

theorem Trimmed.step (dropped : Dropped role f p t.content u.content) (cached : ∀ x, t.cache x ≠ none → u.cache x ≠ none)
    (frees : Frees t.content u.content (t.content.target f p))
    (entries : p = none → ∀ i, ndirect ≤ i → t.content.target f (some i) = 0)
    (outside : ∀ i, p = some i → new ≤ i ∧ i < last) (cut : Cut f new k' s.content u.content) :
    Trimmed f new last k' s role u where
  cached x had := cached x (trimmed.cached x had)
  apart := dropped.parts trimmed.apart
  touches := by
    refine trimmed.touches.trans ?_ trimmed.released.nblocks
    rcases dropped with ⟨same, -⟩ | detached
    · exact same ▸ Touches.refl _ role f
    · refine detached.wrote.touches_of detached.has holds.consistent.one_unowned fun held => ?_
      have same : t.content.indirect f = s.content.indirect f := (trimmed.cut.target none).resolve_left held
      rw [same] at held ⊢
      exact holds.consistent.indirect_owner holds.placed held
  released := trimmed.released.trans (dropped.released trimmed.apart entries frees) fun _ => holds.below
  cut := cut
  kept i before held := by
    have same := trimmed.kept i before held
    rcases dropped with ⟨eq, -⟩ | detached
    · rw [eq]
      exact same
    · refine (detached.target_kept trimmed.apart entries ?_ (same ▸ held)).trans same
      intro here
      have between := outside i here.symm
      omega

theorem Trimmed.clear (charted : Charted s) (low : new ≤ k) (high : k < last) :
    (fileClearBlock f k t).Meets (fun _ u => Trimmed f new last (k + 1) s role u) (fun _ => True) fun _ => True := by
  have cached := trimmed.cached _ holds.cached
  have charted' := charted.of_cached trimmed.released.nblocks trimmed.cached
  have frees := fileClearBlock_frees k cached trimmed.apart (trimmed.cached 1 holds.super) charted' (trimmed.below holds)
  have clear := (fileClearBlock_spec k cached trimmed.apart).mono (fun _ _ h => h) (fun _ _ => trivial) fun _ _ => trivial
  refine (clear.and frees).mono (fun _ u both => ?_) (fun _ _ => trivial) fun _ h => h
  obtain ⟨⟨cleared, -⟩, frees⟩ := both
  refine trimmed.step holds cleared.content cleared.cached frees nofun (fun i same => ?_)
    (cleared.content.round trimmed.apart trimmed.cut)
  cases same
  exact ⟨low, high⟩

theorem Trimmed.dropIndirect (charted : Charted s) (entries : ∀ i, ndirect ≤ i → t.content.target f (some i) = 0) :
    Trimmed f new last k s role (dropIndirect f t) := by
  have cached := trimmed.cached _ holds.cached
  have charted' := charted.of_cached trimmed.released.nblocks trimmed.cached
  have dropped := dropIndirect_dropped cached trimmed.apart
  exact trimmed.step holds dropped (fun _ => dropIndirect_cached)
    (dropIndirect_frees cached trimmed.apart (trimmed.cached 1 holds.super) charted' (trimmed.below holds))
    (fun _ => entries) nofun (dropped.cut trimmed.apart trimmed.cut)

end Trim

/-- From `s` the store `t` is reached by cutting off the blocks of `f` with indexes from `new` to `last`, and then by
    changes of other words of the `File`. -/
structure Shed (f : FilePtr) (new last : Nat) (s : Store) (role : Nat → Option Owner) (t : Store) : Prop where
  cached : ∀ x, s.cache x ≠ none → t.cache x ≠ none
  touches : Touches s.content role f t.content
  released : Released f s.content t.content
  target : ∀ p, t.content.target f p = 0 ∨ t.content.target f p = s.content.target f p
  gone : ∀ i, new ≤ i → i < last → t.content.target f (some i) = 0
  kept : ∀ i, i < new ∨ last ≤ i → s.content.target f (some i) ≠ 0 →
    t.content.target f (some i) = s.content.target f (some i)

theorem Shed.refl (f : FilePtr) (s : Store) (role : Nat → Option Owner) : Shed f 0 0 s role s where
  cached _ had := had
  touches := .refl _ role f
  released := .refl f _
  target _ := .inr rfl
  gone _ _ no := absurd no (Nat.not_lt_zero _)
  kept _ _ _ := rfl

theorem Trimmed.shed (trimmed : Trimmed f new last last s role t) : Shed f new last s role t where
  cached := trimmed.cached
  touches := trimmed.touches
  released := trimmed.released
  target := trimmed.cut.target
  gone := trimmed.cut.gone
  kept := trimmed.kept

theorem Shed.read (shed : Shed f new last s role t) (read : Read t u) : Shed f new last s role u where
  cached x had := read.cached x (shed.cached x had)
  touches := read.content ▸ shed.touches
  released := read.content ▸ shed.released
  target := read.content ▸ shed.target
  gone := read.content ▸ shed.gone
  kept := read.content ▸ shed.kept

theorem Shed.setField {i : Nat} {v : Word} (shed : Shed f new last s role t) (holds : Holds strict s role f)
    (pointer : i < 34 ∨ 45 ≤ i) (small : i < 64) :
    Shed f new last s role (t.setField f i v) ∧ (t.setField f i v).content.field f i = v ∧
    (∀ j, j ≠ i → (t.setField f i v).content.field f j = t.content.field f j) ∧
    ∀ p, (t.setField f i v).content.target f p = t.content.target f p := by
  have cached := shed.cached _ holds.cached
  have content : (t.setField f i v).content = t.content.set f.block (f.word + i) v := content_setWord cached
  have target : ∀ p, (t.setField f i v).content.target f p = t.content.target f p := by
    rw [content]
    refine Image.setField_target (fun held => ?_) pointer
    have same : t.content.indirect f = s.content.indirect f := (shed.target none).resolve_left held
    rw [same] at held ⊢
    exact holds.placed.indirect_ne holds.consistent holds.placed held
  have touches : Touches s.content role f (t.setField f i v).content := by
    rw [content]
    exact shed.touches.trans (.setField small) shed.released.nblocks
  have bitmap : ∀ x, t.content.IsBitmap x → (t.setField f i v).content x = t.content x := by
    intro x isBitmap
    rw [content]
    refine Function.update_of_ne (fun same => ?_) _ _
    have plain := holds.placed.not_bitmap holds.consistent
    rw [← same] at plain
    apply plain
    unfold Image.IsBitmap Image.bitmapEnd at isBitmap ⊢
    rwa [← shed.released.nblocks]
  have bits : ∀ b, b < s.content.nblocks → t.content.Free b → (t.setField f i v).content.Free b := fun b below =>
    (Image.Free.congr (shed.released.nblocks ▸ below) bitmap).mpr
  refine ⟨⟨fun x had => setWord_cached (shed.cached x had), touches, ⟨touches.nblocks holds.consistent holds.placed,
    fun p held => ?_, fun b below isFree => bits b below (shed.released.bits b below isFree)⟩, fun p => ?_,
    fun i low high => (target _).trans (shed.gone i low high),
    fun i before held => (target _).trans (shed.kept i before held)⟩, ?_, fun j ne => setField_field cached ne, target⟩
  · rw [target]
    exact (shed.released.pointers p held).imp id (bits _ (holds.below held))
  · rw [target]
    exact shed.target p
  · rw [content]
    exact Image.set_self ..

/-- `file_truncate(f, n)` frees what it cuts off: with the indirect block no block behind the old end goes, and the files
    in the blocks of a directory that are cut off have no blocks. -/
structure Sheds (f : FilePtr) (n : Word) (c : Image) : Prop where
  entries : newBlocks n ≤ ndirect → ∀ i, ndirect ≤ i → roundBlocks (c.field f 32) ≤ i → c.target f (some i) = 0
  childless : ∀ i j p, c.Visible f i → n.toNat / 4096 ≤ i → c.target f (some i) ≠ 0 → j < file2blk →
    c.target (fileOf (c.target f (some i)) j) p = 0

theorem fileTruncate_shed (holds : Holds strict s role f) (charted : Charted s) (sheds : Sheds f n s.content) :
    (fileTruncate f n s).Meets
      (fun _ t => Shed f (newBlocks n) (roundBlocks (s.content.field f 32)) s role t ∧
        t.content.field f 32 = n ∧ (∀ j, j < 34 → j ≠ 32 → t.content.field f j = s.content.field f j) ∧
        (newBlocks n ≤ ndirect → t.content.target f none = 0)) (fun _ => False) fun _ => True := by
  have size : s.fSize f = s.content.field f 32 := field_content holds.cached 32
  have entries := sheds.entries
  unfold fileTruncate
  rw [size]
  generalize newBlocks n = new at entries ⊢
  generalize roundBlocks (s.content.field f 32) = last at entries ⊢
  have loop : (Result.forRange (last - new) (fun k s => panicOnClear (fileClearBlock f (new + k) s)) s).Meets
      (fun _ t => Trimmed f new last (new + (last - new)) s role t) (fun _ => False) fun _ => True := by
    refine Result.Meets.forRange (fun k t => Trimmed f new last (new + k) s role t)
      ⟨fun _ had => had, holds.placed.parts holds.consistent, .refl _ role f, .refl f _,
        ⟨fun _ _ => rfl, fun _ => .inr rfl, fun i low high => by omega⟩, fun _ _ _ => rfl⟩ fun k t below before => ?_
    have clear := before.clear holds charted (Nat.le_add_right _ _) (by omega)
    cases run : fileClearBlock f (new + k) t with
    | ok v w =>
      rw [run] at clear
      exact clear
    | err r w => trivial
    | stop cause => trivial
  refine loop.bind fun _ t trimmed => ?_
  have trimmed : Trimmed f new last last s role t :=
    { trimmed with cut := { trimmed.cut with gone := fun i low high => trimmed.cut.gone i low (by omega) } }
  have dropped : Trimmed f new last last s role (if new ≤ ndirect then dropIndirect f t else t) ∧
      (new ≤ ndirect → (if new ≤ ndirect then dropIndirect f t else t).content.target f none = 0) := by
    split
    · rename_i few
      refine ⟨trimmed.dropIndirect holds charted fun i deep => ?_, fun _ => ?_⟩
      · by_cases inside : i < last
        · exact trimmed.cut.gone i (by omega) inside
        · have zero := entries few i deep (Nat.not_lt.mp inside)
          exact (trimmed.cut.target (some i)).elim id fun same => same.trans zero
      · exact (dropIndirect_dropped (trimmed.cached _ holds.cached) trimmed.apart).target_self trimmed.apart
    · rename_i many
      exact ⟨trimmed, fun few => absurd few many⟩
  obtain ⟨trimmed, gone⟩ := dropped
  obtain ⟨shed, stored, field, target⟩ := trimmed.shed.setField (v := n) holds (i := 32) (by decide) (by decide)
  exact ⟨shed, stored, fun j small ne => (field j ne).trans (trimmed.cut.field j small), fun few => (target _).trans (gone few)⟩

theorem roundBlocks_eq (m : Word) : roundBlocks m = (m.toNat + 4095) % 4294967296 / 4096 := by
  have masked : ∀ w : Word, (w &&& ~~~(blockSize - 1)).toNat / 4096 = w.toNat / 4096 := by
    intro w
    have shifted : (w &&& ~~~(blockSize - 1)) >>> 12 = w >>> 12 := by
      have ones : ∀ i : Fin 20, (~~~(blockSize - 1)).getLsbD (12 + i.val) = true := by decide
      apply BitVec.eq_of_getLsbD_eq
      intro i small
      rw [BitVec.getLsbD_ushiftRight, BitVec.getLsbD_ushiftRight, BitVec.getLsbD_and]
      by_cases inside : i < 20
      · rw [ones ⟨i, inside⟩, Bool.and_true]
      · rw [BitVec.getLsbD_of_ge w _ (by omega), Bool.false_and]
    have same := congrArg BitVec.toNat shifted
    rwa [BitVec.toNat_ushiftRight, BitVec.toNat_ushiftRight, Nat.shiftRight_eq_div_pow, Nat.shiftRight_eq_div_pow] at same
  unfold roundBlocks
  rw [masked, BitVec.toNat_add]
  rfl

theorem Shed.changed (shed : Shed f new last s role t) (holds : Holds strict s role f)
    (live : f ≠ root → ¬ s.content.Dead f → t.content.Dead f → ∀ p, t.content.target f p = 0)
    (seen : ∀ i j p, s.content.Visible f i → j < file2blk → s.content.target f (some i) ≠ 0 →
      s.content.target (fileOf (s.content.target f (some i)) j) p ≠ 0 →
      t.content.Visible f i ∧ (i < new ∨ last ≤ i)) : Changed f s.content t.content where
  others g named ne := shed.touches.same holds.consistent holds.placed (holds.consistent.placed named.reach) ne
  bits b data used := by
    have data := (Image.IsData.of_nblocks shed.released.nblocks).mp data
    exact .inl ⟨data, fun isFree => used (shed.released.bits b data.2 isFree)⟩
  pointers := shed.released.pointers
  live := live
  seen i j p visible small held has := by
    obtain ⟨visible', before⟩ := seen i j p visible small held has
    exact ⟨visible', shed.kept i before held⟩

end Mos.Fs
