import Mos.Fs.Create

namespace Mos.Fs

variable {strict : Prop} {s t : Store} {role : Nat → Option Owner} {f : FilePtr} {c c' : Image}

/-- `file_block_walk` can find the pointer of block `i` without a new block. -/
structure Findable (s : Store) (f : FilePtr) (i : Nat) : Prop where
  has : s.content.HasCell f (some i)
  memory : ndirect ≤ i → s.cache (s.content.indirect f) ≠ none ∨ s.memory s.asked = true

theorem fileBlockWalk_findable (i : Nat) (cached : s.cache f.block ≠ none) :
    (fileBlockWalk f i false s).Meets
      (fun ptr t => Read s t ∧ s.content.HasCell f (some i) ∧ ptr = s.content.cell f (some i) ∧ t.cache ptr.1 ≠ none ∧
        (i < ndirect → t = s))
      (fun t => Read s t ∧ ¬ Findable s f i) fun cause => cause = .panic ∧ ndirect ≤ i ∧ Unreadable s (s.content.indirect f) := by
  unfold fileBlockWalk
  have word : s.fIndirect f = s.content.field f 44 := field_content cached 44
  by_cases low : i < ndirect
  · rw [if_pos low]
    refine ⟨Read.refl s, .inl low, ?_, cached, fun _ => rfl⟩
    unfold Image.cell
    simp only [if_pos low]
  · rw [if_neg low]
    by_cases small : i < nindirect
    · rw [if_pos small]
      by_cases hole : s.fIndirect f = 0
      · rw [if_pos hole]
        refine ⟨Read.refl s, fun findable => (findable.has.resolve_left low).2 ?_⟩
        rw [word] at hole
        exact congrArg BitVec.toNat hole
      · rw [if_neg hole, Result.ok_bind]
        have ind : (s.fIndirect f).toNat = s.content.indirect f := by rw [word]; rfl
        have held : s.content.indirect f ≠ 0 := by
          rw [← ind]
          exact fun zero => hole (BitVec.eq_of_toNat_eq zero)
        refine ((readBlock_spec (s.fIndirect f).toNat s).mono (fun _ _ h => h) (fun t after => ?_)
          fun cause both => ⟨both.1, Nat.not_lt.mp low, ind ▸ both.2⟩).bind fun _ t after => ?_
        · refine ⟨after.1, fun findable => ?_⟩
          rw [ind] at after
          rcases findable.memory (Nat.not_lt.mp low) with had | enough
          · exact had after.2.1
          · rw [after.2.2] at enough
            cases enough
        · obtain ⟨read, here⟩ := after
          have ind' : (t.fIndirect f).toNat = s.content.indirect f := by
            have same : t.fIndirect f = t.content.field f 44 := field_content (read.cached _ cached) 44
            rw [same, read.content]
            rfl
          rw [ind] at here
          refine ⟨read, .inr ⟨small, held⟩, ?_, ?_, fun no => absurd no low⟩
          · unfold Image.cell
            simp only [if_neg low, ind']
          · show t.cache (t.fIndirect f).toNat ≠ none
            rw [ind']
            exact here
    · rw [if_neg small]
      exact ⟨Read.refl s, fun findable => findable.has.elim low fun both => small both.1⟩

/-- Pointer `p` of `f` is cleared, if it was not 0 already. -/
def Dropped (role : Nat → Option Owner) (f : FilePtr) (p : Option Nat) (c c' : Image) : Prop :=
  c' = c ∧ c.target f p = 0 ∨ Detached c role f p c'

/-- What `file_clear_block` leaves: block `i` of the file is gone and free. -/
structure Cleared (role : Nat → Option Owner) (f : FilePtr) (i : Nat) (s t : Store) : Prop where
  cached : ∀ x, s.cache x ≠ none → t.cache x ≠ none
  given : t.given = s.given
  memory : t.memory = s.memory ∧ t.asked = s.asked ∨ t.cache (s.content.indirect f) ≠ none
  content : Dropped role f (some i) s.content t.content

theorem Apart.cell_off {p : Option Nat} (apart : Apart c role f) (has : c.HasCell f p) : ¬ c.IsBitmap (c.cell f p).1 := by
  cases p with
  | none => exact apart.file
  | some i =>
    unfold Image.cell
    by_cases low : i < ndirect
    · simp only [if_pos low]
      exact apart.file
    · simp only [if_neg low]
      exact (apart.indirect (has.resolve_left low).2).2.1

theorem detached_of_free {p : Option Nat} (apart : Apart s.content role f) (has : s.content.HasCell f p)
    (here : s.cache (s.content.cell f p).1 ≠ none) (held : s.content.target f p ≠ 0) :
    Detached s.content role f p
      ((freeBlock (s.content.target f p) s).setWord (s.content.cell f p).1 (s.content.cell f p).2 0).content := by
  have content := content_setWord (s := freeBlock (s.content.target f p) s) (i := (s.content.cell f p).2) (v := 0)
    (freeBlock_cached (b := s.content.target f p) here)
  have bitmap : ∀ b, b < s.nblocks → s.content.IsBitmap (Store.bitmapBlock b) := by
    intro b below
    by_cases super : s.cache 1 = none
    · simp [Store.nblocks, Store.word, Store.page, super, zeroPage] at below
    · rw [nblocks_content super] at below
      exact Image.bitmapBlock_isBitmap below
  have off := apart.cell_off has
  rw [content]
  refine ⟨has, held, fun x below isFree => freeBlock_free ?_, fun x i other owned ne => ?_, Image.set_self ..⟩
  · unfold Image.Free at isFree ⊢
    have same : (freeBlock (s.content.target f p) s).content.set (s.content.cell f p).1 (s.content.cell f p).2 0
        (Store.bitmapBlock x) = (freeBlock (s.content.target f p) s).content (Store.bitmapBlock x) := by
      refine Function.update_of_ne ?_ _ _
      intro meet
      exact off (meet ▸ Image.bitmapBlock_isBitmap below)
    rw [same] at isFree
    exact isFree
  · have entry : (freeBlock (s.content.target f p) s).content.set (s.content.cell f p).1 (s.content.cell f p).2 0 x i =
        (freeBlock (s.content.target f p) s).content x i := Image.set_ne ne
    rw [entry, freeBlock_off fun below => ?_]
    rintro rfl
    exact other (bitmap _ below)

theorem fileClearBlock_spec (i : Nat) (cached : s.cache f.block ≠ none) (apart : Apart s.content role f) :
    (fileClearBlock f i s).Meets (fun _ t => Cleared role f i s t ∧ s.content.HasCell f (some i))
      (fun t => Read s t ∧ ¬ Findable s f i) fun cause => cause = .panic ∧ ndirect ≤ i ∧ Unreadable s (s.content.indirect f) := by
  refine (fileBlockWalk_findable i cached).bind fun ptr t walked => ?_
  obtain ⟨read, has, rfl, here, direct⟩ := walked
  have memory : ∀ u : Store, u.memory = t.memory → u.asked = t.asked → (∀ x, t.cache x ≠ none → u.cache x ≠ none) →
      u.memory = s.memory ∧ u.asked = s.asked ∨ u.cache (s.content.indirect f) ≠ none := by
    intro u memory asked kept
    by_cases low : i < ndirect
    · rw [memory, asked, direct low]
      exact .inl ⟨rfl, rfl⟩
    · refine .inr (kept _ ?_)
      unfold Image.cell at here
      simp only [if_neg low] at here
      exact here
  have word : t.word (s.content.cell f (some i)).1 (s.content.cell f (some i)).2 =
      s.content (s.content.cell f (some i)).1 (s.content.cell f (some i)).2 :=
    (word_content here).trans (by rw [read.content])
  have target : (t.word (s.content.cell f (some i)).1 (s.content.cell f (some i)).2).toNat = s.content.target f (some i) := by
    rw [word, Image.target_cell has]
  split
  · rename_i held
    have held' : t.content.target f (some i) ≠ 0 := by
      rw [read.content, ← target]
      exact fun zero => held (BitVec.eq_of_toNat_eq zero)
    rw [← read.content] at apart has here target
    have detached := detached_of_free apart has here held'
    rw [← target, read.content] at detached
    refine ⟨⟨fun x had => setWord_cached (freeBlock_cached (read.cached x had)), freeBlock_given.trans read.given,
      memory _ ?_ ?_ fun x had => setWord_cached (freeBlock_cached had), .inr detached⟩, read.content ▸ has⟩
    · unfold freeBlock
      split <;> rfl
    · unfold freeBlock
      split <;> rfl
  · rename_i none
    refine ⟨⟨read.cached, read.given, memory t rfl rfl fun _ had => had, .inl ⟨read.content, ?_⟩⟩, has⟩
    rw [← target, not_not.mp none]
    rfl

/-- Pointers of `f` are cleared, those from `new` to `old` for sure. -/
structure Cut (f : FilePtr) (new old : Nat) (c c' : Image) : Prop where
  field : ∀ k, k < 34 → c'.field f k = c.field f k
  target : ∀ p, c'.target f p = 0 ∨ c'.target f p = c.target f p
  gone : ∀ i, new ≤ i → i < old → c'.target f (some i) = 0

theorem Cut.live {new old : Nat} (cut : Cut f new old c c') (live : Live strict f c) : Live strict f c' := by
  intro isStrict notRoot dead
  refine live isStrict notRoot ?_
  unfold Image.Dead at dead ⊢
  rw [← cut.field 0 (by decide)]
  exact dead

section Drop

variable {p : Option Nat} (dropped : Dropped role f p c c') (apart : Apart c role f)
include dropped apart

theorem Dropped.target_self : c'.target f p = 0 := by
  rcases dropped with ⟨same, none⟩ | detached
  · exact same ▸ none
  · exact detached.target_self apart

theorem Dropped.target (q : Option Nat) : c'.target f q = 0 ∨ c'.target f q = c.target f q := by
  rcases dropped with ⟨same, none⟩ | detached
  · exact .inr (by rw [same])
  · by_cases here : q = p
    · exact .inl (here ▸ detached.target_self apart)
    · exact (detached.target_le apart here).symm

theorem Dropped.field {k : Nat} (small : k < 34) : c'.field f k = c.field f k := by
  rcases dropped with ⟨same, none⟩ | detached
  · rw [same]
  · exact detached.wrote.field apart detached.has (.inl small)

theorem Dropped.cut {new old : Nat} {before : Image} (cut : Cut f new old before c) : Cut f new old before c' where
  field k small := (dropped.field apart small).trans (cut.field k small)
  target q := by
    rcases dropped.target apart q with zero | same
    · exact .inl zero
    · exact (cut.target q).imp (same.trans ·) (same.trans ·)
  gone i low high := (dropped.target apart (some i)).elim id fun same => same.trans (cut.gone i low high)

end Drop

theorem Dropped.round {new i : Nat} {before : Image} (dropped : Dropped role f (some i) c c') (apart : Apart c role f)
    (cut : Cut f new i before c) : Cut f new (i + 1) before c' := by
  have after := dropped.cut apart cut
  refine ⟨after.field, after.target, fun j low high => ?_⟩
  by_cases last : j = i
  · rw [last]
    exact dropped.target_self apart
  · exact after.gone j low (by omega)

theorem Dropped.holds {p : Option Nat} (dropped : Dropped role f p s.content t.content) (holds : Holds strict s role f)
    (cached : ∀ x, s.cache x ≠ none → t.cache x ≠ none) :
    ∃ role', Holds strict t role' f ∧ Spared s.content role f t.content role' := by
  rcases dropped with ⟨same, none⟩ | detached
  · refine ⟨role, ⟨cached 1 holds.super, cached _ holds.cached, same ▸ holds.consistent, holds.placed⟩, ?_⟩
    rw [same]
    exact Spared.refl _ role f
  · obtain ⟨consistent, placed⟩ := holds.consistent.detach holds.placed detached
    refine ⟨_, ⟨cached 1 holds.super, cached _ holds.cached, consistent, placed⟩,
      (detached.wrote.touches holds.consistent holds.placed detached.has).spared holds.consistent holds.placed
        fun b o other owner => ?_⟩
    obtain ⟨d, mine, _⟩ := (holds.consistent.files f holds.placed).owned p detached.held
    rw [Function.update_of_ne]
    · exact owner
    · rintro rfl
      cases mine.symm.trans owner
      exact other rfl

theorem dropIndirect_cached {x : Nat} (cached : s.cache x ≠ none) : (dropIndirect f s).cache x ≠ none := by
  unfold dropIndirect
  split
  · exact setWord_cached (freeBlock_cached cached)
  · exact cached

theorem dropIndirect_dropped (cached : s.cache f.block ≠ none) (apart : Apart s.content role f) :
    Dropped role f none s.content (dropIndirect f s).content := by
  have word : s.fIndirect f = s.content.field f 44 := field_content cached 44
  have target : (s.fIndirect f).toNat = s.content.target f none := by
    rw [word]
    rfl
  unfold dropIndirect
  split
  · rename_i held
    have held' : s.content.target f none ≠ 0 := by
      rw [← target]
      exact fun zero => held (BitVec.eq_of_toNat_eq zero)
    have detached := detached_of_free (p := none) apart trivial cached held'
    rw [← target] at detached
    exact .inr detached
  · rename_i none
    refine .inl ⟨rfl, ?_⟩
    rw [← target, not_not.mp none]
    rfl

/-- The file has size `newsize`, and pointers of it may have been cleared. -/
structure Resized (strict : Prop) (f : FilePtr) (newsize : Word) (c : Image) (role : Nat → Option Owner) (t : Store)
    (role' : Nat → Option Owner) : Prop where
  holds : Holds strict t role' f
  live : Live strict f t.content
  size : t.content.field f 32 = newsize
  type : t.content.field f 33 = c.field f 33
  target : ∀ p, t.content.target f p = 0 ∨ t.content.target f p = c.target f p
  spared : Spared c role f t.content role'

theorem Resized.read {u : Store} {newsize : Word} {role' : Nat → Option Owner}
    (resized : Resized strict f newsize c role t role') (read : Read t u) : Resized strict f newsize c role u role' where
  holds := resized.holds.read read
  live := read.content ▸ resized.live
  size := read.content ▸ resized.size
  type := read.content ▸ resized.type
  target := read.content ▸ resized.target
  spared := read.content ▸ resized.spared

theorem Holds.resize (newsize : Word) {role' : Nat → Option Owner} (holds : Holds strict t role' f)
    (live : Live strict f t.content) (spared : Spared c role f t.content role')
    (type : t.content.field f 33 = c.field f 33)
    (target : ∀ p, t.content.target f p = 0 ∨ t.content.target f p = c.target f p)
    (absent : ∀ i, t.content.field f 33 = ftypeDir → (t.content.field f 32).toNat / 4096 ≤ i → i < newsize.toNat / 4096 →
      t.content.target f (some i) = 0) :
    Resized strict f newsize c role (t.setField f 32 newsize) role' ∧
    ∀ p, (t.setField f 32 newsize).content.target f p = t.content.target f p := by
  obtain ⟨after, live', size, field, same⟩ := holds.setSize (v := newsize) live absent
  have content : (t.setField f 32 newsize).content = t.content.set f.block (f.word + 32) newsize :=
    content_setWord holds.cached
  have stored : Spared t.content role' f (t.setField f 32 newsize).content role' := by
    rw [content]
    exact (Touches.setField (by decide)).spared holds.consistent holds.placed fun _ _ _ owner => owner
  refine ⟨⟨after, live', size, (field 33 (by decide)).trans type, fun p => ?_, spared.trans stored⟩, same⟩
  rw [same]
  exact target p

theorem fileTruncate_spec {newsize : Word} (holds : Holds strict s role f) (live : Live strict f s.content)
    (shrinks : newsize.toNat ≤ (s.content.field f 32).toNat) :
    (fileTruncate f newsize s).Meets
      (fun _ t => ∃ role', Resized strict f newsize s.content role t role' ∧
        (∀ i, newBlocks newsize ≤ i → i < roundBlocks (s.content.field f 32) → t.content.target f (some i) = 0) ∧
        (newBlocks newsize ≤ ndirect → t.content.target f none = 0))
      (fun _ => False) fun _ => True := by
  have size : s.fSize f = s.content.field f 32 := field_content holds.cached 32
  unfold fileTruncate
  rw [size]
  generalize newBlocks newsize = new
  generalize hold : roundBlocks (s.content.field f 32) = old
  have loop : (Result.forRange (old - new) (fun k s => panicOnClear (fileClearBlock f (new + k) s)) s).Meets
      (fun _ t => ∃ role', Holds strict t role' f ∧ Spared s.content role f t.content role' ∧
        Cut f new (new + (old - new)) s.content t.content) (fun _ => False) fun _ => True := by
    refine Result.Meets.forRange (fun k t => ∃ role', Holds strict t role' f ∧ Spared s.content role f t.content role' ∧
        Cut f new (new + k) s.content t.content)
      ⟨role, holds, .refl _ role f, fun _ _ => rfl, fun _ => .inr rfl, fun i low high => by omega⟩ fun k t _ before => ?_
    obtain ⟨role', holds', spared, cut⟩ := before
    have apart := holds'.placed.parts holds'.consistent
    have clear := fileClearBlock_spec (new + k) holds'.cached apart
    cases run : fileClearBlock f (new + k) t with
    | ok u v =>
      rw [run] at clear
      obtain ⟨role'', holds'', spared'⟩ := clear.1.content.holds holds' clear.1.cached
      exact ⟨role'', holds'', spared.trans spared', clear.1.content.round apart cut⟩
    | err r v => trivial
    | stop cause => trivial
  refine loop.bind fun _ t cleared => ?_
  obtain ⟨role', holds', spared, cut⟩ := cleared
  have cut : Cut f new old s.content t.content := { cut with gone := fun i low high => cut.gone i low (by omega) }
  have dropped : ∃ role'', Holds strict (if new ≤ ndirect then dropIndirect f t else t) role'' f ∧
      Spared s.content role f (if new ≤ ndirect then dropIndirect f t else t).content role'' ∧
      Cut f new old s.content (if new ≤ ndirect then dropIndirect f t else t).content ∧
      (new ≤ ndirect → (if new ≤ ndirect then dropIndirect f t else t).content.target f none = 0) := by
    split
    · have apart := holds'.placed.parts holds'.consistent
      have dropped := dropIndirect_dropped holds'.cached apart
      obtain ⟨role'', holds'', spared'⟩ := dropped.holds holds' fun x => dropIndirect_cached
      exact ⟨role'', holds'', spared.trans spared', dropped.cut apart cut, fun _ => dropped.target_self apart⟩
    · rename_i no
      exact ⟨role', holds', spared, cut, fun yes => absurd yes no⟩
  obtain ⟨role'', holds'', spared', cut', gone⟩ := dropped
  obtain ⟨resized, same⟩ := holds''.resize newsize (cut'.live live) spared' (cut'.field 33 (by decide)) cut'.target
    fun i _ low high => by
      rw [cut'.field 32 (by decide)] at low
      omega
  exact ⟨role'', resized, fun i low high => (same _).trans (cut'.gone i low high), fun few => (same _).trans (gone few)⟩

/-- `file_set_size` does not bring blocks of a directory into its size that are attached already. -/
def SetGuard (f : FilePtr) (newsize : Word) (c : Image) : Prop :=
  c.field f 33 = ftypeDir → ∀ i, (c.field f 32).toNat / 4096 ≤ i → i < newsize.toNat / 4096 → c.target f (some i) = 0

theorem SetGuard.zero (f : FilePtr) (c : Image) : SetGuard f 0 c := fun _ i _ high => absurd high (by simp)

theorem fileSetSize_spec {newsize : Word} (holds : Holds strict s role f) (live : Live strict f s.content)
    (guard : SetGuard f newsize s.content) :
    (fileSetSize f newsize s).Meets (fun _ t => ∃ role', Resized strict f newsize s.content role t role')
      (fun t => ∃ role', Resized strict f newsize s.content role t role') fun _ => True := by
  have size : s.fSize f = s.content.field f 32 := field_content holds.cached 32
  unfold fileSetSize
  refine Result.Meets.bind (P := fun _ t => ∃ role', Resized strict f newsize s.content role (t.setField f 32 newsize) role')
    ?_ fun _ t resized => ?_
  · split
    · rename_i smaller
      rw [size] at smaller
      refine (fileTruncate_spec holds live (Nat.le_of_lt smaller)).mono (fun _ t after => ?_) (fun _ no => no.elim)
        fun _ h => h
      obtain ⟨role', resized, _⟩ := after
      refine ⟨role', (resized.holds.resize newsize resized.live resized.spared resized.type resized.target fun i _ low high => ?_).1⟩
      rw [resized.size] at low
      omega
    · exact ⟨role, (holds.resize newsize live (.refl _ role f) rfl (fun _ => .inr rfl) fun i type low high => guard type i low high).1⟩
  · obtain ⟨role', resized⟩ := resized
    have flushed : (flushDir f (t.setField f 32 newsize)).Leaves (Read (t.setField f 32 newsize)) fun _ => True :=
      flushDir_kept (read_kept _) (Read.refl _)
    exact Result.Meets.mono flushed (fun _ u read => ⟨role', resized.read read⟩) (fun u read => ⟨role', resized.read read⟩)
      fun _ h => h

end Mos.Fs
