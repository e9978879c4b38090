import Mos.Fs.Fresh

namespace Mos.Fs

/-- The blocks that became indirect blocks or blocks of directories were not in the cache, or cached with zeros. -/
def CleanMeta (s : Store) : Prop := ∀ g ∈ s.given, g.index = none ∨ g.directory = true → g.Clean

/-- The owners of the blocks are known, and `f` is a `File` of the tree in a cached block. -/
structure Holds (strict : Prop) (s : Store) (role : Nat → Option Owner) (f : FilePtr) : Prop where
  super : s.cache 1 ≠ none
  cached : s.cache f.block ≠ none
  consistent : Consistent strict s.content role
  placed : Placed role f

/-- With `strict`, the file is not a free slot. -/
def Live (strict : Prop) (f : FilePtr) (c : Image) : Prop := strict → f ≠ root → ¬ c.Dead f

/-- What attaching blocks to `f` for the indexes in `I` does. -/
structure Grown (f : FilePtr) (I : Nat → Prop) (c : Image) (role : Nat → Option Owner) (c' : Image)
    (role' : Nat → Option Owner) : Prop where
  touches : Touches c role f c'
  nblocks : c'.nblocks = c.nblocks
  owners : ∀ b o, role b = some o → role' b = some o
  field : ∀ k, k < 34 ∨ 45 ≤ k → c'.field f k = c.field f k
  target : ∀ j, ¬ I j → c'.target f (some j) = c.target f (some j)

variable {strict : Prop} {s t : Store} {role role' : Nat → Option Owner} {f g : FilePtr} {c c' c'' : Image} {I J : Nat → Prop}

theorem Holds.read (holds : Holds strict s role f) (read : Read s t) : Holds strict t role f where
  super := read.cached 1 holds.super
  cached := read.cached _ holds.cached
  consistent := by
    rw [read.content]
    exact holds.consistent
  placed := holds.placed

theorem Placed.mono (placed : Placed role f) (owners : ∀ b o, role b = some o → role' b = some o) : Placed role' f := by
  cases placed with
  | ofRoot => exact .ofRoot
  | ofSlot owner small => exact .ofSlot (owners _ _ owner) small

theorem Touches.refl (c : Image) (role : Nat → Option Owner) (f : FilePtr) : Touches c role f c := fun _ _ _ => rfl

theorem Grown.refl (f : FilePtr) (I : Nat → Prop) (c : Image) (role : Nat → Option Owner) : Grown f I c role c role :=
  ⟨Touches.refl c role f, rfl, fun _ _ owner => owner, fun _ _ => rfl, fun _ _ => rfl⟩

theorem Grown.elsewhere (grown : Grown f I c role c' role') {b i : Nat} (other : Elsewhere c role f b i) :
    Elsewhere c' role' f b i where
  bitmap isBitmap := by
    unfold Image.IsBitmap Image.bitmapEnd at isBitmap
    rw [grown.nblocks] at isBitmap
    exact other.bitmap isBitmap
  owned := other.owned.imp id fun ⟨o, owner, notMine⟩ => ⟨o, grown.owners b o owner, notMine⟩
  file := other.file

theorem Grown.trans {role'' : Nat → Option Owner} (first : Grown f I c role c' role') (second : Grown f J c' role' c'' role'') :
    Grown f (fun j => I j ∨ J j) c role c'' role'' where
  touches b i other := (second.touches b i (first.elsewhere other)).trans (first.touches b i other)
  nblocks := second.nblocks.trans first.nblocks
  owners b o owner := second.owners b o (first.owners b o owner)
  field k plain := (second.field k plain).trans (first.field k plain)
  target j other := (second.target j fun inside => other (.inr inside)).trans (first.target j fun inside => other (.inl inside))

theorem Grown.mono (grown : Grown f I c role c' role') (more : ∀ j, I j → J j) : Grown f J c role c' role' :=
  { grown with target := fun j other => grown.target j fun inside => other (more j inside) }

theorem Grown.live (grown : Grown f I c role c' role') (live : Live strict f c) : Live strict f c' := by
  intro isStrict notRoot dead
  refine live isStrict notRoot ?_
  unfold Image.Dead at dead ⊢
  rw [← grown.field 0 (.inl (by decide))]
  exact dead

theorem Grown.visible (grown : Grown f I c role c' role') (i : Nat) : c'.Visible f i ↔ c.Visible f i := by
  unfold Image.Visible
  rw [grown.field 33 (.inl (by decide)), grown.field 32 (.inl (by decide))]

theorem Attached.grown {p : Option Nat} {b : Nat} {d : Bool} (attached : Attached c role f p b c')
    (consistent : Consistent strict c role) (hf : Placed role f) (fresh : p = none → ∀ k, k < 1024 → c' b k = 0) :
    Grown f (fun j => p = some j) c role c' (Function.update role b (some ⟨f, p, d⟩)) where
  touches := attached.wrote.touches consistent hf attached.has
  nblocks := (attached.wrote.touches consistent hf attached.has).nblocks consistent hf
  owners x o owner := by
    rw [Function.update_of_ne]
    · exact owner
    · rintro rfl
      rw [(consistent.free _ attached.below attached.free).2] at owner
      cases owner
  field k plain := attached.wrote.field (hf.parts consistent) attached.has plain
  target j other := attached.target_ne consistent hf fresh fun same => other same.symm

/-- What a change on behalf of `f` leaves of the others: the blocks they own and what is in them. -/
structure Spared (c : Image) (role : Nat → Option Owner) (f : FilePtr) (c' : Image) (role' : Nat → Option Owner) : Prop where
  nblocks : c'.nblocks = c.nblocks
  owners : ∀ b o, o.file ≠ f → role b = some o → role' b = some o
  words : ∀ b i, ¬ c.IsBitmap b → (b = 1 ∨ ∃ o, role b = some o ∧ o.file ≠ f) →
    (b = f.block → i < f.word ∨ f.word + 64 ≤ i) → c' b i = c b i

theorem Spared.refl (c : Image) (role : Nat → Option Owner) (f : FilePtr) : Spared c role f c role :=
  ⟨rfl, fun _ _ _ owner => owner, fun _ _ _ _ _ => rfl⟩

theorem Spared.trans {role'' : Nat → Option Owner} (first : Spared c role f c' role') (second : Spared c' role' f c'' role'') :
    Spared c role f c'' role'' where
  nblocks := second.nblocks.trans first.nblocks
  owners b o other owner := second.owners b o other (first.owners b o other owner)
  words b i plain owned file := by
    have plain' : ¬ c'.IsBitmap b := by
      unfold Image.IsBitmap Image.bitmapEnd at plain ⊢
      rw [first.nblocks]
      exact plain
    refine (second.words b i plain' (owned.imp id ?_) file).trans (first.words b i plain owned file)
    exact fun ⟨o, owner, other⟩ => ⟨o, first.owners b o other owner, other⟩

theorem Touches.spared (touches : Touches c role f c') (consistent : Consistent strict c role) (hf : Placed role f)
    (owners : ∀ b o, o.file ≠ f → role b = some o → role' b = some o) : Spared c role f c' role' where
  nblocks := touches.nblocks consistent hf
  owners := owners
  words b i plain owned file :=
    touches b i ⟨plain, owned.imp id fun ⟨o, owner, other⟩ => ⟨o, owner, fun mine => other mine.1⟩, file⟩

/-- From `s` the store `t` is reached by attaching blocks to `f` for indexes in `I`. -/
structure Reached (strict : Prop) (f : FilePtr) (I : Nat → Prop) (s : Store) (role : Nat → Option Owner) (t : Store)
    (role' : Nat → Option Owner) : Prop where
  holds : Holds strict t role' f
  cached : ∀ x, s.cache x ≠ none → t.cache x ≠ none
  grown : Grown f I s.content role t.content role'

/-- Pointer `p` of `f` has got block `b`. -/
structure Got (strict : Prop) (f : FilePtr) (p : Option Nat) (s : Store) (role : Nat → Option Owner) (t : Store)
    (b : Nat) (role' : Nat → Option Owner) : Prop extends Reached strict f (fun j => p = some j) s role t role' where
  target : t.content.target f p = b
  fresh : p = none ∨ (∃ i, p = some i ∧ s.content.Visible f i) → ∀ k, k < 1024 → t.content b k = 0

theorem Holds.reached (holds : Holds strict s role f) : Reached strict f I s role s role :=
  ⟨holds, fun _ had => had, Grown.refl f I _ _⟩

theorem Reached.read {u : Store} (reached : Reached strict f I s role t role') (read : Read t u) :
    Reached strict f I s role u role' :=
  ⟨reached.holds.read read, fun x had => read.cached x (reached.cached x had), read.content ▸ reached.grown⟩

theorem Reached.trans {u : Store} {role'' : Nat → Option Owner} (first : Reached strict f I s role t role')
    (second : Reached strict f J t role' u role'') : Reached strict f (fun j => I j ∨ J j) s role u role'' :=
  ⟨second.holds, fun x had => second.cached x (first.cached x had), first.grown.trans second.grown⟩

theorem Reached.mono (reached : Reached strict f I s role t role') (more : ∀ j, I j → J j) :
    Reached strict f J s role t role' := { reached with grown := reached.grown.mono more }

theorem Refused.plain {b : Nat} (refused : Refused s t) (holds : Holds strict s role f) (other : ¬ s.content.IsBitmap b) :
    t.content b = s.content b := by
  refine refused.off b fun x below same => other ?_
  rw [nblocks_content holds.super] at below
  exact same ▸ Image.bitmapBlock_isBitmap below

theorem Refused.same (refused : Refused s t) (holds : Holds strict s role f) (placed : Placed role g) : Same s.content t.content g := by
  have off : ∀ {b}, ¬ s.content.IsBitmap b → t.content b = s.content b := refused.plain holds
  refine Same.of_words (fun k _ => by rw [off (placed.not_bitmap holds.consistent)]) fun i _ _ held => ?_
  obtain ⟨d, owner⟩ := holds.consistent.indirect_owner placed held
  rw [off (IsData.not_bitmap (holds.consistent.data _ _ owner))]

theorem Refused.holds (refused : Refused s t) (holds : Holds strict s role f) : Reached strict f I s role t role := by
  have off : ∀ b, ¬ s.content.IsBitmap b → t.content b = s.content b := fun b => refused.plain holds
  have one : ¬ s.content.IsBitmap 1 := by
    unfold Image.IsBitmap
    omega
  refine ⟨⟨refused.cached 1 holds.super, refused.cached _ holds.cached, ?_, holds.placed⟩, refused.cached, ?_⟩
  · exact holds.consistent.rebitmap off fun x _ isFree => refused.bits x isFree
  · refine ⟨fun b i other => by rw [off b other.bitmap], ?_, fun _ _ owner => owner, fun k _ => ?_, fun j _ => ?_⟩
    · unfold Image.nblocks
      rw [off 1 one]
    · unfold Image.field
      rw [off _ (holds.placed.not_bitmap holds.consistent)]
    · exact (refused.same holds holds.placed).target (some j)

theorem Placed.cell_ne {p : Option Nat} {b : Nat} (placed : Placed role f) (consistent : Consistent strict c role)
    (has : c.HasCell f p) : ¬ c.IsBitmap (c.cell f p).1 ∧ (role b = none → c.IsData b → (c.cell f p).1 ≠ b) := by
  have inFile : ¬ c.IsBitmap f.block ∧ (role b = none → c.IsData b → f.block ≠ b) :=
    ⟨placed.not_bitmap consistent, placed.block_ne⟩
  cases p with
  | none => exact inFile
  | some i =>
    unfold Image.cell
    by_cases low : i < ndirect
    · simp only [if_pos low]
      exact inFile
    · simp only [if_neg low]
      obtain ⟨d, owner⟩ := consistent.indirect_owner placed (has.resolve_left low).2
      refine ⟨IsData.not_bitmap (consistent.data _ _ owner), ?_⟩
      rintro unowned _ rfl
      rw [unowned] at owner
      cases owner

theorem Allocated.attached {p : Option Nat} {b : Nat} (alloc : Allocated s t b) (holds : Holds strict s role f)
    (has : s.content.HasCell f p) (empty : s.content.target f p = 0) :
    Attached s.content role f p b (t.content.set (s.content.cell f p).1 (s.content.cell f p).2 (BitVec.ofNat 32 b)) := by
  have below : b < s.content.nblocks := by
    rw [← nblocks_content holds.super]
    exact alloc.below
  obtain ⟨data, unowned⟩ := holds.consistent.free b below alloc.free
  obtain ⟨notBitmap, notNew⟩ := holds.placed.cell_ne (b := b) holds.consistent has
  have bitmap : ∀ x, s.content.IsBitmap x →
      t.content.set (s.content.cell f p).1 (s.content.cell f p).2 (BitVec.ofNat 32 b) x = t.content x := by
    intro x isBitmap
    refine Function.update_of_ne ?_ _ _
    rintro rfl
    exact notBitmap isBitmap
  refine ⟨has, empty, below, alloc.free, fun isFree => alloc.used ?_, fun x inside isFree => alloc.bits x ?_,
    fun x i other owned off => ?_, Image.set_self ..⟩
  · unfold Image.Free at isFree ⊢
    rw [bitmap _ (Image.bitmapBlock_isBitmap below)] at isFree
    exact isFree
  · unfold Image.Free at isFree ⊢
    rw [bitmap _ (Image.bitmapBlock_isBitmap inside)] at isFree
    exact isFree
  · have entry : t.content.set (s.content.cell f p).1 (s.content.cell f p).2 (BitVec.ofNat 32 b) x i = t.content x i :=
      Image.set_ne off
    rw [entry, alloc.off x]
    · rintro rfl
      exact other (Image.bitmapBlock_isBitmap below)
    · rintro rfl
      rcases owned with one | some
      · have two := s.content.two_le_bitmapEnd
        have low := data.1
        omega
      · exact some unowned

theorem attach_spec {p : Option Nat} {b : Nat} (holds : Holds strict s role f) (live : Live strict f s.content)
    (has : s.content.HasCell f p) (empty : s.content.target f p = 0)
    (cached : s.cache (s.content.cell f p).1 ≠ none) (alloc : Allocated s t b)
    (clean : CleanMeta ((t.give s f p b).setWord (s.content.cell f p).1 (s.content.cell f p).2 (BitVec.ofNat 32 b))) :
    ∃ role', Got strict f p s role
      ((t.give s f p b).setWord (s.content.cell f p).1 (s.content.cell f p).2 (BitVec.ofNat 32 b)) b role' := by
  have attached := alloc.attached holds has empty
  obtain ⟨data, unowned⟩ := holds.consistent.free b attached.below alloc.free
  obtain ⟨notBitmap, notNew⟩ := holds.placed.cell_ne (b := b) holds.consistent has
  have content : ((t.give s f p b).setWord (s.content.cell f p).1 (s.content.cell f p).2 (BitVec.ofNat 32 b)).content =
      t.content.set (s.content.cell f p).1 (s.content.cell f p).2 (BitVec.ofNat 32 b) :=
    content_setWord (s := t.give s f p b) (alloc.cached _ cached)
  have word : ∀ k, t.field f k = s.content.field f k := by
    intro k
    refine (field_content (alloc.cached _ holds.cached) k).trans (congrFun (alloc.off _ ?_ ?_) _)
    · intro same
      exact holds.placed.not_bitmap holds.consistent (same ▸ Image.bitmapBlock_isBitmap attached.below)
    · exact holds.placed.block_ne unowned data
  have fresh : p = none ∨ (∃ i, p = some i ∧ s.content.Visible f i) → ∀ k, k < 1024 →
      t.content.set (s.content.cell f p).1 (s.content.cell f p).2 (BitVec.ofNat 32 b) b k = 0 := by
    intro special k small
    have page : t.content.set (s.content.cell f p).1 (s.content.cell f p).2 (BitVec.ofNat 32 b) b =
        (s.cache b).getD zeroPage := (Function.update_of_ne (notNew unowned data).symm _ _).trans alloc.page
    rw [page]
    cases old : s.cache b with
    | none => rfl
    | some page =>
      refine clean _ (List.mem_cons_self ..) ?_ page old k small
      refine special.imp id ?_
      rintro ⟨i, rfl, visible⟩
      unfold Store.fType Store.fSize
      rw [word, word]
      simp [visible.1, visible.2]
  obtain ⟨d, consistent⟩ := holds.consistent.attach holds.placed attached fresh live
  have grown := attached.grown (d := d) holds.consistent holds.placed fun indirect => fresh (.inl indirect)
  have holds' : Holds strict
      ((t.give s f p b).setWord (s.content.cell f p).1 (s.content.cell f p).2 (BitVec.ofNat 32 b)) _ f :=
    ⟨setWord_cached (alloc.cached 1 holds.super), setWord_cached (alloc.cached _ holds.cached), content ▸ consistent,
      holds.placed.mono grown.owners⟩
  refine ⟨_, ⟨holds', fun x had => setWord_cached (alloc.cached x had), ?_⟩, ?_, ?_⟩
  · rw [content]
    exact grown
  · rw [content]
    exact attached.target_self holds.consistent holds.placed
  · rw [content]
    exact fresh

theorem CleanMeta.read (clean : CleanMeta t) (read : Read s t) : CleanMeta s := by
  intro g mem
  rw [← read.given] at mem
  exact clean g mem

/-- `read_block` panics at a block that is not on the disk or that the bitmap has as free. -/
def Unreadable (s : Store) (b : Nat) : Prop := s.nblocks ≤ b ∨ s.content.Free b

theorem readBlock_spec (b : Nat) (s : Store) :
    (readBlock b s).Meets (fun _ t => Read s t ∧ t.cache b ≠ none)
      (fun t => Read s t ∧ s.cache b = none ∧ s.memory s.asked = false) fun cause => cause = .panic ∧ Unreadable s b := by
  have read := readBlock_kept (read_kept s) b (Read.refl s)
  unfold readBlock loadBlock sysMemAlloc at read ⊢
  by_cases outside : s.nblocks ≤ b
  · rw [if_pos outside]
    exact ⟨rfl, .inl outside⟩
  · rw [if_neg outside] at read ⊢
    by_cases isFree : blockIsFree s b = true
    · rw [if_pos isFree]
      refine ⟨rfl, .inr (free_of_bitmap ?_)⟩
      simpa [blockIsFree, outside] using isFree
    · rw [if_neg isFree] at read ⊢
      cases cached : s.cache b with
      | some p =>
        refine ⟨Read.refl s, ?_⟩
        rw [cached]
        nofun
      | none =>
        rw [cached] at read
        dsimp only at read ⊢
        by_cases memory : s.memory s.asked = true
        · rw [if_pos memory] at read ⊢
          exact ⟨read, by simp⟩
        · rw [if_neg memory] at read ⊢
          exact ⟨read, rfl, Bool.eq_false_iff.mpr memory⟩

/-- Either a block that is read as pointers or files came with something in it, or `P` holds of some owners. -/
def Unless (t : Store) (P : (Nat → Option Owner) → Prop) : Prop := ¬ CleanMeta t ∨ ∃ role, P role

theorem Unless.mono {P Q : (Nat → Option Owner) → Prop} (h : Unless t P) (weaker : ∀ role, P role → Q role) :
    Unless t Q := h.imp id fun ⟨role, met⟩ => ⟨role, weaker role met⟩

theorem Unless.read {P Q : (Nat → Option Owner) → Prop} (h : Unless s P) (read : Read s t)
    (kept : ∀ role, P role → Q role) : Unless t Q :=
  h.imp (fun spoiled clean => spoiled (clean.read read)) fun ⟨role, met⟩ => ⟨role, kept role met⟩

theorem attachGive_spec {p : Option Nat} {alloc : Bool} {code : Word} {place : Nat × Nat} (holds : Holds strict s role f)
    (live : Live strict f s.content) (has : s.content.HasCell f p) (empty : s.content.target f p = 0)
    (at_cell : place = s.content.cell f p) (cached : s.cache place.1 ≠ none) :
    Result.Meets (if alloc then (allocBlock s).bind fun b t =>
        (.ok () ((t.give s f p b).setWord place.1 place.2 (BitVec.ofNat 32 b)) : Res Unit)
      else .err code s)
      (fun _ t => Unless t fun role' => ∃ b, b ≠ 0 ∧ Got strict f p s role t b role' ∧ (t.word place.1 place.2).toNat = b)
      (fun t => Unless t fun role' => Reached strict f (fun _ => False) s role t role') fun _ => True := by
  subst at_cell
  split
  · have spec := allocBlock_spec s
    cases run : allocBlock s with
    | stop cause => trivial
    | err r t =>
      rw [run] at spec
      exact .inr ⟨role, Refused.holds spec holds⟩
    | ok b t =>
      rw [run] at spec
      have allocated : Allocated s t b := spec
      by_cases clean : CleanMeta ((t.give s f p b).setWord (s.content.cell f p).1 (s.content.cell f p).2 (BitVec.ofNat 32 b))
      · obtain ⟨role', got⟩ := attach_spec holds live has empty cached allocated clean
        have low := allocated.low
        refine .inr ⟨role', b, by omega, got, ?_⟩
        rw [word_setWord_self, BitVec.toNat_ofNat]
        exact Nat.mod_eq_of_lt (Nat.lt_trans allocated.below (s.word 1 1).isLt)
      · exact .inl clean
  · exact .inr ⟨role, holds.reached⟩

theorem fileBlockWalk_spec (i : Nat) (alloc : Bool) (holds : Holds strict s role f) (live : Live strict f s.content) :
    (fileBlockWalk f i alloc s).Meets
      (fun ptr t => Unless t fun role' => Reached strict f (fun _ => False) s role t role' ∧
        t.content.HasCell f (some i) ∧ ptr = t.content.cell f (some i) ∧ t.cache ptr.1 ≠ none)
      (fun t => Unless t fun role' => Reached strict f (fun _ => False) s role t role') fun _ => True := by
  unfold fileBlockWalk
  have word : s.fIndirect f = s.content.field f 44 := field_content holds.cached 44
  by_cases low : i < ndirect
  · rw [if_pos low]
    refine .inr ⟨role, holds.reached, .inl low, ?_, holds.cached⟩
    unfold Image.cell
    simp only [if_pos low]
  · rw [if_neg low]
    split
    · rename_i small
      refine Result.Meets.bind (P := fun _ t => Unless t fun role' => Reached strict f (fun _ => False) s role t role' ∧
        t.content.indirect f ≠ 0) ?_ fun _ t before => ?_
      · by_cases hole : s.fIndirect f = 0
        · rw [if_pos hole]
          have empty : s.content.target f none = 0 := by
            rw [word] at hole
            exact congrArg BitVec.toNat hole
          have at_word : (f.block, f.word + 44) = s.content.cell f none := rfl
          have has : s.content.HasCell f none := trivial
          refine (attachGive_spec holds live has empty at_word holds.cached).mono (fun _ t after => after.mono ?_) (fun _ h => h) fun _ h => h
          rintro role' ⟨b, nonzero, got, -⟩
          refine ⟨got.toReached.mono nofun, ?_⟩
          have target : t.content.indirect f = b := got.target
          rw [target]
          exact nonzero
        · rw [if_neg hole]
          refine .inr ⟨role, holds.reached, fun zero => hole ?_⟩
          rw [word]
          exact BitVec.eq_of_toNat_eq zero
      · refine ((readBlock_spec (t.fIndirect f).toNat t).mono (fun _ _ h => h)
          (fun u after => before.read after.1 fun role' both => both.1.read after.1) fun _ _ => trivial).bind fun _ u after => ?_
        obtain ⟨read, cached⟩ := after
        refine before.read read fun role' both => ?_
        obtain ⟨reached, held⟩ := both
        have before' : t.fIndirect f = t.content.field f 44 := field_content reached.holds.cached 44
        have after : u.fIndirect f = t.content.field f 44 :=
          (field_content (reached.read read).holds.cached 44).trans (by rw [read.content])
        have ind : (u.fIndirect f).toNat = u.content.indirect f := by
          rw [after, read.content]
          rfl
        rw [before', ← after] at cached
        refine ⟨reached.read read, .inr ⟨small, read.content ▸ held⟩, ?_, cached⟩
        unfold Image.cell
        simp only [if_neg low, ind]
    · exact .inr ⟨role, holds.reached⟩

theorem spoiled_kept : KeptByWrite (fun s => ¬ CleanMeta s) fun _ => True where
  panic := trivial
  wild := trivial
  asked _ h := h
  loaded _ _ h _ _ := h
  marked _ _ h := h
  written _ _ _ h _ := h
  mapped _ _ h _ := h
  set _ _ _ _ h := h
  given _ _ _ _ _ _ h clean := h fun g mem => clean g (List.mem_cons_of_mem _ mem)

/-- Block `i` of `f` is block `b`; if the file did not have it and is searched there, it came with zeros. -/
structure Mapped (f : FilePtr) (i b : Nat) (c c' : Image) : Prop where
  target : c'.target f (some i) = b
  nonzero : b ≠ 0
  fresh : c.target f (some i) = 0 → c.Visible f i → ∀ k, k < 1024 → c' b k = 0

theorem fileMapBlock_spec (i : Nat) (alloc : Bool) (holds : Holds strict s role f) (live : Live strict f s.content) :
    (fileMapBlock f i alloc s).Meets
      (fun b t => Unless t fun role' => Reached strict f (fun j => j = i) s role t role' ∧ Mapped f i b s.content t.content)
      (fun t => Unless t fun role' => Reached strict f (fun _ => False) s role t role') fun _ => True := by
  unfold fileMapBlock
  have widen : ∀ {t : Store} {role'}, Reached strict f (fun _ => False) s role t role' →
      Reached strict f (fun j => j = i) s role t role' := fun reached => reached.mono nofun
  refine ((fileBlockWalk_spec i alloc holds live).mono (fun _ _ h => h) (fun _ h => h) fun _ h => h).bind fun ptr t walked => ?_
  rcases walked with spoiled | ⟨role', reached, has, rfl, cached⟩
  · refine Result.Meets.bind (P := fun _ u => ¬ CleanMeta u) ?_ fun _ _ spoiled => .inl spoiled
    split
    · exact Result.Meets.mono (allocGive_kept spoiled_kept (fun _ => ptr) spoiled) (fun _ _ h => h) (fun _ h => .inl h)
        fun _ h => h
    · exact spoiled
  · have same : t.content.target f (some i) = s.content.target f (some i) := reached.grown.target i id
    have target : t.content.target f (some i) = (t.word (t.content.cell f (some i)).1 (t.content.cell f (some i)).2).toNat := by
      rw [Image.target_cell has, word_content cached]
    refine Result.Meets.bind (P := fun _ u => Unless u fun role'' => Reached strict f (fun j => j = i) s role u role'' ∧
      Mapped f i (u.word (t.content.cell f (some i)).1 (t.content.cell f (some i)).2).toNat s.content u.content) ?_
      fun _ u done => done
    split
    · rename_i hole
      have empty : t.content.target f (some i) = 0 := by rw [target, hole]; rfl
      refine (attachGive_spec reached.holds (reached.grown.live live) has empty rfl cached).mono
        (fun _ u after => after.mono ?_) (fun u after => after.mono ?_) fun _ h => h
      · rintro role'' ⟨b, nonzero, got, word⟩
        rw [word]
        refine ⟨(reached.trans got.toReached).mono ?_, got.target, nonzero, fun _ visible => got.fresh (.inr ⟨i, rfl, ?_⟩)⟩
        · rintro j (no | same)
          · exact no.elim
          · exact (Option.some.inj same).symm
        · exact (reached.grown.visible i).mpr visible
      · exact fun role'' after => (reached.trans after).mono fun j no => no.elim id id
    · rename_i held
      refine .inr ⟨role', widen reached, target, fun zero => held (BitVec.eq_of_toNat_eq zero), fun none => ?_⟩
      rw [← same, target] at none
      exact absurd (BitVec.eq_of_toNat_eq none) held

theorem fileGetBlock_spec (i : Nat) (holds : Holds strict s role f) (live : Live strict f s.content) :
    (fileGetBlock f i s).Meets
      (fun b t => Unless t fun role' => Reached strict f (fun j => j = i) s role t role' ∧
        Mapped f i b s.content t.content ∧ t.cache b ≠ none)
      (fun t => Unless t fun role' => Reached strict f (fun j => j = i) s role t role' ∧
        (t.content.target f (some i) = s.content.target f (some i) ∨ ∃ b, Mapped f i b s.content t.content)) fun _ => True := by
  refine ((fileMapBlock_spec i true holds live).mono (fun _ _ h => h) (fun t failed => failed.mono fun role' reached =>
    ⟨reached.mono nofun, .inl (reached.grown.target i id)⟩) fun _ h => h).bind fun b t mapped => ?_
  refine ((readBlock_spec b t).mono (fun _ _ h => h)
    (fun u after => mapped.read after.1 fun role' both => ⟨both.1.read after.1, .inr ⟨b, after.1.content ▸ both.2⟩⟩)
    fun _ _ => trivial).bind fun _ u after => ?_
  obtain ⟨read, cached⟩ := after
  exact mapped.read read fun role' both => ⟨both.1.read read, read.content ▸ both.2, cached⟩

end Mos.Fs
