import Mos.Fs.Exclusive
import Mos.Fs.Holes

namespace Mos.Fs

/-- The path is missing in a directory without a free slot, and `file_get_block` refuses to extend the directory. -/
def GrowRefused (path : List Byte) (s : Store) : Prop :=
  ∃ w t d u e v, walkPathLoop path s = .ok w t ∧ w.code = -eNotFound ∧ w.dir = some d ∧
    slotScan d ((t.fSize d).toNat / 4096) 0 t = .ok none u ∧
    fileGetBlock d ((t.fSize d).toNat / 4096) (u.setField d 32 (u.fSize d + blockSize)) = .err e v

/-- The search for the path comes to a hole of a directory, and `file_get_block` attaches a block there. -/
def HoleFilled (path : List Byte) (s : Store) : Prop :=
  ∃ pre name rest d i w t u, pathElements path = pre ++ name :: rest ∧ FirstHole s.content none root pre name d i ∧
    Comes none root pre name d i s w t u ∧ Attaches d i u

/-- `walk_path` finds the file or does not come to its directory, or `dir_alloc_file` fails there. -/
def NotMade (path : List Byte) (s : Store) : Prop :=
  ∃ w t, walkPathLoop path s = .ok w t ∧
    ∀ d, w.code = -eNotFound → w.dir = some d → ∃ e u, dirAllocFile d t = .err e u

/-- The sizes and pointers of all files, the bitmap and the paths are those of `s`, and a name that is not in a directory
    is known to be missing, once there is memory. -/
structure Untouched (s t : Store) : Prop where
  size : ∀ f, Reach s.content f → t.content.field f 32 = s.content.field f 32
  target : ∀ f, Reach s.content f → ∀ p, t.content.target f p = s.content.target f p
  bitmap : ∀ b, b < s.content.nblocks → (t.content.Free b ↔ s.content.Free b)
  paths : ∀ names d g, Resolves t.content none root names d g ↔ Resolves s.content none root names d g
  lookups : ∀ d name, Reach s.content d → s.content.field d 33 = ftypeDir → t.cache d.block ≠ none → name.length < maxNameLen →
    (∀ i, s.content.Scanned d name i → s.content.target d (some i) ≠ 0) → (∀ g, ¬ s.content.Entry d name g) →
      ∃ u, dirLookup d name { t with memory := fun _ => true } = .err (-eNotFound) u

section Shows

variable {c : Image} {memory : Nat → Bool} {s t : Store} {f dir : FilePtr} {c' : Image}

theorem Remarked.entry (marked : Remarked c c') (exclusive : Exclusive c) (reach : Reach c dir) {name : List Byte}
    (short : name.length < maxNameLen) (g : FilePtr) : c'.Entry dir name g ↔ c.Entry dir name g := by
  unfold Image.Entry
  refine exists₂_congr fun i j => ?_
  rw [marked.visible exclusive reach, marked.target exclusive reach]
  constructor
  · rintro ⟨visible, held, small, rfl, named⟩
    exact ⟨visible, held, small, rfl, (marked.nameAt exclusive (.ofSlot reach visible held small) short).mp named⟩
  · rintro ⟨visible, held, small, rfl, named⟩
    exact ⟨visible, held, small, rfl, (marked.nameAt exclusive (.ofSlot reach visible held small) short).mpr named⟩

theorem Remarked.resolves (marked : Remarked c c') (exclusive : Exclusive c) {dir d : Option FilePtr} {g : FilePtr}
    {names : List (List Byte)} (reach : Reach c f) : Resolves c' dir f names d g ↔ Resolves c dir f names d g := by
  have type : ∀ {f}, Reach c f → c'.field f 33 = c.field f 33 := fun reach =>
    marked.field exclusive reach (by decide) (by decide)
  constructor
  · intro resolves
    induction resolves with
    | here => exact .here _ _
    | down short isDir entry further ih =>
      have entry' := (marked.entry exclusive reach short _).mp entry
      exact .down short ((type reach).symm.trans isDir) entry' (ih (entry'.reach reach))
  · intro resolves
    induction resolves with
    | here => exact .here _ _
    | down short isDir entry further ih =>
      exact .down short ((type reach).trans isDir) ((marked.entry exclusive reach short _).mpr entry) (ih (entry.reach reach))

theorem Shows.untouched (tree : NameTree s.content) (shows : Shows s.content memory t) : Untouched s t where
  size f reach := shows.marked.field tree.toExclusive reach (by decide) (by decide)
  target f reach := shows.marked.target tree.toExclusive reach
  bitmap b below := shows.marked.free tree.toExclusive below
  paths names d g := shows.marked.resolves tree.toExclusive .ofRoot
  lookups d name reach type cached short solid absent := by
    have enough : Shows s.content (fun _ => true) { t with memory := fun _ => true } := ⟨shows.super, shows.marked, rfl⟩
    have found := dirLookup_found tree.toExclusive reach type short solid enough cached
    cases ran : dirLookup d name { t with memory := fun _ => true } with
    | stop cause => rw [ran] at found; cases found
    | ok g u =>
      rw [ran] at found
      cases found with
      | entry entry => exact absurd entry (absent g)
    | err e u =>
      rw [ran] at found
      cases found with
      | absent => exact ⟨u, rfl⟩
      | noMem out =>
        obtain ⟨k, no⟩ := out
        cases no

theorem slotScan_shows (own : Exclusive c) (reach : Reach c dir) (type : c.field dir 33 = ftypeDir)
    (solid : ∀ i, c.Visible dir i → c.target dir (some i) ≠ 0) (n i : Nat) (sum : i + n = (c.field dir 32).toNat / 4096)
    (shows : Shows c memory s) (cached : s.cache dir.block ≠ none) :
    (slotScan dir n i s).Meets (fun _ t => Shows c memory t ∧ t.cache dir.block ≠ none) (fun t => Shows c memory t) fun _ => False := by
  induction n generalizing i s with
  | zero => exact ⟨shows, cached⟩
  | succ n ih =>
    rw [slotScan]
    rcases fileGetBlock_loads own shows reach cached (solid i ⟨type, by omega⟩) with ⟨t, got, loads, -⟩ | ⟨t, got, loads, -⟩
    · rw [got, Result.ok_bind]
      split
      · exact ⟨shows.loads loads, loads.cached _ cached⟩
      · exact ih (i + 1) (by omega) (shows.loads loads) (loads.cached _ cached)
    · rw [got]
      exact shows.loads loads

end Shows

section Refused

variable {s t : Store} {f : FilePtr} {v : Word} {i b : Nat}

/-- A block that is not that of `f`, nor the super block or one of the bitmap. -/
structure Off (c : Image) (f : FilePtr) (b : Nat) : Prop where
  file : b ≠ f.block
  super : b ≠ 1
  bitmap : ¬ c.IsBitmap b

/-- The size of `f` is `v`, and `f` lies in a block in use that is not of the bitmap and no indirect block. -/
structure SizeKept (f : FilePtr) (v : Word) (s : Store) : Prop where
  super : s.cache 1 ≠ none
  cached : s.cache f.block ≠ none
  bitmap : ¬ s.content.IsBitmap f.block
  used : 3 ≤ f.block → f.block < s.content.nblocks ∧ ¬ s.content.Free f.block
  own : Off s.content f (s.content.indirect f)
  system : ∀ b, b < s.content.nblocks → b ≤ s.content.bitmapEnd → ¬ s.content.Free b
  size : s.content.field f 32 = v
  place : f.block = 1 → 2 ≤ f.word

theorem SizeKept.read (kept : SizeKept f v s) (read : Read s t) : SizeKept f v t := by
  obtain ⟨super, cached, bitmap, used, own, system, size, place⟩ := kept
  rw [← read.content] at bitmap used own system size
  exact ⟨read.cached 1 super, read.cached _ cached, bitmap, used, own, system, size, place⟩

theorem SizeKept.of_block (kept : SizeKept f v s) (cached : ∀ x, s.cache x ≠ none → t.cache x ≠ none)
    (file : t.content f.block = s.content f.block) (super : t.content 1 = s.content 1)
    (bits : ∀ x, t.content.Free x → s.content.Free x) : SizeKept f v t := by
  have nblocks : t.content.nblocks = s.content.nblocks := congrArg BitVec.toNat (congrFun super 1)
  have field : ∀ k, t.content.field f k = s.content.field f k := fun k => congrFun file _
  have ends : t.content.bitmapEnd = s.content.bitmapEnd := by
    unfold Image.bitmapEnd
    rw [nblocks]
  have isBitmap : ∀ x, t.content.IsBitmap x ↔ s.content.IsBitmap x := fun x => by
    unfold Image.IsBitmap
    rw [ends]
  have indirect : t.content.indirect f = s.content.indirect f := congrArg BitVec.toNat (field 44)
  refine ⟨cached 1 kept.super, cached _ kept.cached, fun no => kept.bitmap ((isBitmap _).mp no), fun low => ?_,
    ?_, fun x low high isFree => ?_, (field 32).trans kept.size, kept.place⟩
  · obtain ⟨below, used⟩ := kept.used low
    exact ⟨nblocks ▸ below, fun isFree => used (bits _ isFree)⟩
  · rw [indirect]
    exact ⟨kept.own.file, kept.own.super, fun no => kept.own.bitmap ((isBitmap _).mp no)⟩
  · rw [nblocks] at low
    rw [ends] at high
    exact kept.system x low high (bits x isFree)

theorem SizeKept.alloc (kept : SizeKept f v s) :
    (allocBlock s).Meets (fun b t => SizeKept f v t ∧ Off t.content f b ∧ b < 2 ^ 32 ∧
        (∀ x, s.cache x ≠ none → t.cache x ≠ none) ∧ ∀ x, Off s.content f x → Off t.content f x) (SizeKept f v)
      fun _ => True := by
  have size := nblocks_content kept.super
  have notBitmap : ∀ x, x < s.nblocks → f.block ≠ Store.bitmapBlock x ∧ 1 ≠ Store.bitmapBlock x := by
    intro x below
    have isBitmap := Image.bitmapBlock_isBitmap (c := s.content) (size ▸ below)
    refine ⟨fun same => kept.bitmap (same ▸ isBitmap), fun same => ?_⟩
    have two := isBitmap.1
    omega
  refine (allocBlock_spec s).mono (fun b t done => ?_) (fun t done => ?_) fun _ h => h
  · have other : b ≠ f.block := fun same => (kept.used (same ▸ done.low)).2 (same ▸ done.free)
    have bound := (s.word 1 1).isLt
    have below : b < s.nblocks := done.below
    obtain ⟨file, super⟩ := notBitmap b below
    have low := done.low
    have super' : t.content 1 = s.content 1 := done.off 1 super (by omega)
    have ends : t.content.bitmapEnd = s.content.bitmapEnd :=
      congrArg (fun w : Word => 2 + w.toNat / blockSizeBit) (congrFun super' 1)
    refine ⟨kept.of_block done.cached (done.off _ file (Ne.symm other)) super' done.bits, ⟨other, by omega, fun isBitmap => ?_⟩, ?_,
      done.cached, fun x off => ⟨off.file, off.super, fun isBitmap => off.bitmap ?_⟩⟩
    · have high := isBitmap.2
      rw [ends] at high
      exact kept.system b (size ▸ below) high done.free
    · unfold Store.nblocks at below
      omega
    · unfold Image.IsBitmap at isBitmap ⊢
      rwa [ends] at isBitmap
  · exact kept.of_block done.cached (done.off _ fun x below => (notBitmap x below).1) (done.off 1 fun x below => (notBitmap x below).2)
      done.bits

/-- A store to a word of the block of `f` behind its name, or to another block that is not of the bitmap. -/
theorem SizeKept.store {x k : Nat} {w : Word} (kept : SizeKept f v s) (there : s.cache x ≠ none)
    (other : Off s.content f x ∨ x = f.block ∧ (k = f.word + 44 → Off s.content f w.toNat) ∧ f.word ≤ k) :
    SizeKept f ((s.setWord x k w).content.field f 32) (s.setWord x k w) := by
  have content : (s.setWord x k w).content = s.content.set x k w := content_setWord there
  have word : ∀ y m, (y, m) ≠ (x, k) → (s.setWord x k w).content y m = s.content y m := by
    intro y m ne
    rw [content]
    exact Image.set_ne ne
  have nblocks : (s.setWord x k w).content.nblocks = s.content.nblocks := by
    refine congrArg BitVec.toNat (word 1 1 fun same => ?_)
    obtain ⟨rfl, rfl⟩ := Prod.mk.inj same
    rcases other with off | ⟨same, -, low⟩
    · exact off.super rfl
    · have two := kept.place same.symm
      omega
  have ends : (s.setWord x k w).content.bitmapEnd = s.content.bitmapEnd := by
    unfold Image.bitmapEnd
    rw [nblocks]
  have isBitmap : ∀ y, (s.setWord x k w).content.IsBitmap y ↔ s.content.IsBitmap y := fun y => by
    unfold Image.IsBitmap
    rw [ends]
  have own : Off s.content f ((s.setWord x k w).content.indirect f) := by
    by_cases here : (f.block, f.word + 44) = (x, k)
    · obtain ⟨rfl, rfl⟩ := Prod.mk.inj here
      have value : (s.setWord f.block (f.word + 44) w).content.indirect f = w.toNat := by
        unfold Image.indirect Image.field
        rw [content, Image.set_self]
      rw [value]
      rcases other with off | ⟨-, fresh, -⟩
      · exact absurd rfl off.file
      · exact fresh rfl
    · have same : (s.setWord x k w).content.indirect f = s.content.indirect f := congrArg BitVec.toNat (word _ _ here)
      rw [same]
      exact kept.own
  have bits : ∀ y, y < s.content.nblocks → ((s.setWord x k w).content.Free y ↔ s.content.Free y) := by
    intro y below
    have inBitmap := Image.bitmapBlock_isBitmap below
    unfold Image.Free
    rw [word _ _ fun same => ?_]
    have block : Store.bitmapBlock y = x := congrArg Prod.fst same
    rw [block] at inBitmap
    rcases other with off | ⟨here, -⟩
    · exact off.bitmap inBitmap
    · rw [here] at inBitmap
      exact kept.bitmap inBitmap
  refine ⟨setWord_cached kept.super, setWord_cached kept.cached, fun no => kept.bitmap ((isBitmap _).mp no), fun low => ?_,
    ⟨own.file, own.super, fun no => own.bitmap ((isBitmap _).mp no)⟩, fun y low high isFree => ?_, rfl, kept.place⟩
  · obtain ⟨below, used⟩ := kept.used low
    exact ⟨nblocks ▸ below, fun isFree => used ((bits _ below).mp isFree)⟩
  · rw [nblocks] at low
    rw [ends] at high
    exact kept.system y low high ((bits y low).mp isFree)

theorem SizeKept.setWord {x k : Nat} {w : Word} (kept : SizeKept f v s) (there : s.cache x ≠ none)
    (other : Off s.content f x ∨ x = f.block ∧ k ≠ f.word + 32 ∧ (k = f.word + 44 → Off s.content f w.toNat) ∧ f.word ≤ k) :
    SizeKept f v (s.setWord x k w) := by
  have size : (s.setWord x k w).content.field f 32 = v := by
    rw [content_setWord there]
    refine (Image.set_ne fun same => ?_).trans kept.size
    obtain ⟨rfl, rfl⟩ := Prod.mk.inj same
    rcases other with off | ⟨-, ne, -⟩
    · exact off.file rfl
    · exact ne rfl
  rw [← size]
  exact kept.store there (other.imp id fun both => ⟨both.1, both.2.2⟩)

theorem SizeKept.resize {w : Word} (kept : SizeKept f v s) : SizeKept f w (s.setField f 32 w) := by
  have content : (s.setField f 32 w).content = s.content.set f.block (f.word + 32) w := content_setWord kept.cached
  have size : (s.setField f 32 w).content.field f 32 = w := by
    rw [content]
    exact Image.set_self _ _ _ _
  have stored := kept.store (k := f.word + 32) (w := w) kept.cached (.inr ⟨rfl, fun no => absurd no (by omega), by omega⟩)
  rw [show (s.setWord f.block (f.word + 32) w).content.field f 32 = w from size] at stored
  exact stored

theorem SizeKept.give {before : Store} {g : FilePtr} {index : Option Nat} (kept : SizeKept f v s) (b : Nat) :
    SizeKept f v (s.give before g index b) :=
  ⟨kept.super, kept.cached, kept.bitmap, kept.used, kept.own, kept.system, kept.size, kept.place⟩

theorem SizeKept.readBlock (kept : SizeKept f v s) (b : Nat) :
    (readBlock b s).Meets (fun _ t => SizeKept f v t ∧ t.cache b ≠ none ∧ t.content = s.content) (SizeKept f v) fun _ => True :=
  (readBlock_spec b s).mono (fun _ _ after => ⟨kept.read after.1, after.2, after.1.content⟩) (fun _ after => kept.read after.1)
    fun _ _ => trivial

theorem SizeKept.getBlock (kept : SizeKept f v s) (i : Nat) :
    (fileGetBlock f i s).Meets (fun _ t => SizeKept f v t) (SizeKept f v) fun _ => True := by
  have walk : (fileBlockWalk f i true s).Meets (fun ptr t => SizeKept f v t ∧ t.cache ptr.1 ≠ none ∧
      (Off t.content f ptr.1 ∨ ptr.1 = f.block ∧ ptr.2 ≠ f.word + 32 ∧ ptr.2 ≠ f.word + 44 ∧ f.word ≤ ptr.2)) (SizeKept f v)
      fun _ => True := by
    unfold fileBlockWalk
    split
    · rename_i direct
      have small : i < 10 := direct
      refine ⟨kept, kept.cached, .inr ⟨rfl, ?_, ?_, ?_⟩⟩
      · show f.word + (34 + i) ≠ _
        omega
      · show f.word + (34 + i) ≠ _
        omega
      · show f.word ≤ f.word + (34 + i)
        omega
    · split
      · refine Result.Meets.bind (P := fun _ t => SizeKept f v t) ?_ fun _ t kept => ?_
        · split
          · rw [if_pos rfl]
            refine kept.alloc.bind fun b t got => ?_
            obtain ⟨kept, off, small, -, -⟩ := got
            refine (kept.give b).setWord kept.cached (.inr ⟨rfl, by omega, fun _ => ?_, by omega⟩)
            rw [BitVec.toNat_ofNat, Nat.mod_eq_of_lt small]
            exact off
          · exact kept
        · refine (kept.readBlock _).bind fun _ u after => ?_
          obtain ⟨kept', there, content⟩ := after
          have before : (t.fIndirect f).toNat = t.content.indirect f := congrArg BitVec.toNat (field_content kept.cached 44)
          have now : (u.fIndirect f).toNat = u.content.indirect f := congrArg BitVec.toNat (field_content kept'.cached 44)
          rw [before, ← content, ← now] at there
          exact ⟨kept', there, .inl (now ▸ kept'.own)⟩
      · exact kept
  refine Result.Meets.bind (P := fun _ t => SizeKept f v t) ?_ fun b t kept => ?_
  · refine walk.bind fun ptr t after => ?_
    obtain ⟨kept, there, place⟩ := after
    refine Result.Meets.bind (P := fun _ t => SizeKept f v t) ?_ fun _ u kept => kept
    split
    · rw [if_pos rfl]
      refine kept.alloc.bind fun b u got => ?_
      obtain ⟨kept', -, -, cached, stays⟩ := got
      refine (kept'.give b).setWord (cached _ there) ?_
      rcases place with off | ⟨same, ne, ne', low⟩
      · exact .inl (stays _ off)
      · exact .inr ⟨same, ne, fun no => absurd no ne', low⟩
    · exact kept
  · exact (kept.readBlock b).bind fun _ u after => after.1

theorem Shows.sizeKept {c : Image} {memory : Nat → Bool} (tree : ShortTree c) (shows : Shows c memory s) (reach : Reach c f)
    (cached : s.cache f.block ≠ none) : SizeKept f (c.field f 32) s := by
  have exclusive := tree.toExclusive
  have nblocks := shows.marked.nblocks exclusive
  have ends : s.content.bitmapEnd = c.bitmapEnd := by
    unfold Image.bitmapEnd
    rw [nblocks]
  have isBitmap : ∀ x, s.content.IsBitmap x ↔ c.IsBitmap x := fun x => by
    unfold Image.IsBitmap
    rw [ends]
  have indirect : s.content.indirect f = c.indirect f := shows.marked.target exclusive reach none
  have two := c.two_le_bitmapEnd
  have block : f = root ∨ c.IsData f.block ∧ ¬ c.Free f.block := by
    cases reach with
    | ofRoot => exact .inl rfl
    | @ofSlot dir i j reach visible held small => exact .inr (exclusive.inUse dir (some i) reach held)
  refine ⟨shows.super, cached, fun no => ?_, fun low => ?_, ?_, fun b below low isFree => ?_,
    shows.marked.field exclusive reach (by decide) (by decide), fun one => ?_⟩
  · rcases block with rfl | ⟨data, -⟩
    · exact absurd no.1 (by decide)
    · exact IsData.not_bitmap data ((isBitmap _).mp no)
  · rcases block with rfl | ⟨data, used⟩
    · exact absurd low (by decide)
    · exact ⟨nblocks ▸ data.2, fun isFree => used ((shows.marked.free exclusive data.2).mp isFree)⟩
  · rw [indirect]
    by_cases none : c.indirect f = 0
    · rw [none]
      refine ⟨fun same => ?_, by decide, fun no => absurd no.1 (by decide)⟩
      rcases block with rfl | ⟨data, -⟩
      · cases same
      · have low := data.1
        omega
    · have data : c.IsData (c.indirect f) := (exclusive.inUse f Option.none reach none).1
      have low := data.1
      exact ⟨fun same => exclusive.apart reach Option.none none same.symm, by omega,
        fun no => IsData.not_bitmap data ((isBitmap _).mp no)⟩
  · rw [nblocks] at below
    rw [ends] at low
    exact exclusive.system b below low ((shows.marked.free exclusive below).mp isFree)
  · rcases block with rfl | ⟨data, -⟩
    · decide
    · have low := data.1
      omega

end Refused

section Create

variable {s : Store} {path : List Byte}

theorem Misses.reach {c : Image} {file d : FilePtr} {names : List (List Byte)} {last : List Byte} (reach : Reach c file)
    (misses : Misses c file names d last) : Reach c d := by
  induction misses with
  | here => exact reach
  | down short type entry further ih => exact ih (entry.reach reach)

theorem Misses.type {c : Image} {file d : FilePtr} {names : List (List Byte)} {last : List Byte}
    (misses : Misses c file names d last) : c.field d 33 = ftypeDir := by
  induction misses with
  | here short type => exact type
  | down short type entry further ih => exact ih

theorem Misses.solid {c : Image} {file d : FilePtr} {names : List (List Byte)} {last : List Byte} (reach : Reach c file)
    (misses : Misses c file names d last) (solid : Solid c file names) (i : Nat) (visible : c.Visible d i) :
    c.target d (some i) ≠ 0 := by
  induction misses with
  | @here file name short type absent =>
    obtain ⟨blocks, -⟩ := solid short type
    have all : ∀ i, c.Visible file i → c.target file (some i) ≠ 0 := by
      intro i
      induction i using Nat.strong_induction_on with
      | _ i ih =>
        intro visible
        refine blocks i ⟨visible, fun i' j below small named => ?_⟩
        have visible' : c.Visible file i' := ⟨visible.1, Nat.lt_trans below visible.2⟩
        exact absent _ ⟨i', j, visible', ih i' below visible', small, rfl, named⟩
    exact all i visible
  | down short type entry further ih => exact ih (entry.reach reach) ((solid short type).2 _ entry) visible

theorem fileCreate_err {e : Word} {t : Store} (tree : NameTree s.content) (super : s.cache 1 ≠ none)
    (solid : Solid s.content root (pathElements path)) (h : fileCreate path s = .err e t) :
    Shows s.content s.memory t ∨ GrowRefused path s := by
  obtain ⟨w, u, walked, answer, shows, cached, -⟩ := walkElements_answer tree.short .ofRoot
    (fun name mem => isName_of_mem mem) solid ⟨super, fun _ _ _ => rfl, rfl⟩ super
  have walk : walkPath path s = .ok w u := walked
  rw [fileCreate, walk, Result.ok_bind] at h
  split at h
  · cases h
    exact .inl shows
  rename_i code
  split at h
  · cases h
    exact .inl shows
  rename_i d dir
  split at h
  · cases h
    exact .inl shows
  rename_i notFound
  have missing : w.code = -eNotFound := not_not.mp notFound
  cases answer with
  | found => exact absurd rfl code
  | fails => cases dir
  | noMem => cases dir
  | @absent d' last misses =>
    cases dir
    have cached' := cached d rfl rfl
    have reach := misses.reach .ofRoot
    have size : u.fSize d = s.content.field d 32 :=
      (field_content cached' 32).trans (shows.marked.field tree.toExclusive reach (by decide) (by decide))
    have scan := slotScan_shows tree.toExclusive reach misses.type (misses.solid .ofRoot solid) ((u.fSize d).toNat / 4096) 0
      (by rw [size, Nat.zero_add]) shows cached'
    rcases Result.bind_err h with refused | ⟨f, v, -, h⟩
    · rw [dirAllocFile, dirAllocScan_eq] at refused
      rcases Result.bind_err refused with stopped | ⟨slot, v, scanned, rest⟩
      · rw [stopped] at scan
        exact .inl scan
      · cases slot with
        | some f => cases rest
        | none =>
          rw [Nat.zero_add] at rest
          rcases Result.bind_err rest with denied | ⟨b, x, -, rest⟩
          · exact .inr ⟨_, u, d, v, e, t, (walkPathLoop_eq path s).trans walk, rfl, rfl, scanned, denied⟩
          · cases rest
    · cases h

theorem fileCreate_grown (tree : NameTree s.content) (super : s.cache 1 ≠ none)
    (solid : Solid s.content root (pathElements path)) (refused : GrowRefused path s) :
    ∃ e t, fileCreate path s = .err e t ∧ ¬ Untouched s t := by
  obtain ⟨w, u, d, v, e, t, walked, code, dir, scanned, denied⟩ := refused
  obtain ⟨w', u', walked', answer, shows, cached, -⟩ := walkElements_answer tree.short .ofRoot
    (fun name mem => isName_of_mem mem) solid ⟨super, fun _ _ _ => rfl, rfl⟩ super
  have walk : walkPath path s = .ok w u := (walkPathLoop_eq path s).symm.trans walked
  cases (show walkPath path s = .ok w' u' from walked').symm.trans walk
  cases answer with
  | found => exact absurd code (by decide : (0 : Word) ≠ -eNotFound)
  | fails => cases dir
  | noMem => cases dir
  | @absent d' last misses =>
    cases dir
    have cached' := cached d rfl rfl
    have reach := misses.reach .ofRoot
    have size : u.fSize d = s.content.field d 32 :=
      (field_content cached' 32).trans (shows.marked.field tree.toExclusive reach (by decide) (by decide))
    have scan := slotScan_shows tree.toExclusive reach misses.type (misses.solid .ofRoot solid) ((u.fSize d).toNat / 4096) 0
      (by rw [size, Nat.zero_add]) shows cached'
    rw [scanned] at scan
    obtain ⟨shows', there⟩ := scan
    refine ⟨e, t, ?_, fun same => ?_⟩
    · rw [fileCreate, walk, Result.ok_bind, if_neg (by decide : -eNotFound ≠ (0 : Word))]
      dsimp only
      rw [if_neg (not_not.mpr rfl), dirAllocFile, dirAllocScan_eq, scanned, Result.ok_bind]
      dsimp only
      rw [extendDir, Nat.zero_add, denied]
      rfl
    · have kept := ((shows'.sizeKept tree.short reach there).resize (w := v.fSize d + blockSize)).getBlock ((u.fSize d).toNat / 4096)
      rw [denied] at kept
      have grown : t.content.field d 32 = v.fSize d + blockSize := SizeKept.size kept
      have old : v.fSize d = s.content.field d 32 :=
        (field_content there 32).trans (shows'.marked.field tree.toExclusive reach (by decide) (by decide))
      rw [same.size d reach, old] at grown
      generalize s.content.field d 32 = size at grown
      have block : blockSize.toNat = 4096 := rfl
      bv_omega

theorem walkElements_codes (at_dir : Option FilePtr) (file : FilePtr) (names : List (List Byte)) (s : Store) :
    (walkElements at_dir file names s).Codes fun _ => False := by
  induction names generalizing at_dir file s with
  | nil => trivial
  | cons name rest ih =>
    unfold walkElements
    split
    · trivial
    · split
      · trivial
      · refine Result.Codes.tested.bind fun r t => ?_
        cases r with
        | ok g => exact ih (some file) g t
        | error e => trivial

theorem fileCreate_fails {e : Word} {z : Store} (failed : fileCreate path s = .err e z) :
    ∃ w t, walkPath path s = .ok w t ∧
      (z = t ∧ (w.code = -eNotFound → w.dir = none) ∨ ∃ d, w.code = -eNotFound ∧ w.dir = some d ∧ dirAllocFile d t = .err e z) := by
  rcases Result.bind_err failed with stopped | ⟨w, t, walked, rest⟩
  · exact ((walkElements_codes none root (pathElements path) s).err stopped).elim
  · refine ⟨w, t, walked, ?_⟩
    split at rest
    · rename_i code
      cases rest
      exact .inl ⟨rfl, fun no => absurd (code.symm.trans no) (by decide)⟩
    · split at rest
      · rename_i dir
        cases rest
        exact .inl ⟨rfl, fun _ => dir⟩
      · rename_i d dir
        split at rest
        · rename_i code
          cases rest
          exact .inl ⟨rfl, fun same => absurd same code⟩
        · rename_i code
          rcases Result.bind_err rest with refused | ⟨f, u, -, done⟩
          · exact .inr ⟨d, not_not.mp code, dir, refused⟩
          · cases done

theorem notMade_iff : NotMade path s ↔ ∃ e t, fileCreate path s = .err e t := by
  constructor
  · rintro ⟨w, t, walked, fails⟩
    rw [walkPathLoop_eq] at walked
    rw [fileCreate, walked, Result.ok_bind]
    split
    · exact ⟨_, _, rfl⟩
    · split
      · exact ⟨_, _, rfl⟩
      · rename_i d dir
        split
        · exact ⟨_, _, rfl⟩
        · rename_i code
          obtain ⟨e, u, failed⟩ := fails d (not_not.mp code) dir
          rw [failed]
          exact ⟨_, _, rfl⟩
  · rintro ⟨e, z, failed⟩
    obtain ⟨w, t, walked, ends⟩ := fileCreate_fails failed
    refine ⟨w, t, (walkPathLoop_eq path s).trans walked, fun d code dir => ?_⟩
    rcases ends with ⟨-, none⟩ | ⟨d', -, dir', refused⟩
    · rw [none code] at dir
      cases dir
    · cases dir.symm.trans dir'
      exact ⟨e, z, refused⟩

theorem fileCreate_pinned {e : Word} {v z : Store} {d : FilePtr} {p : Option Nat} (super : v.cache 1 ≠ none)
    (pinned : Pinned 0x40000 d p v)
    (walk : (walkPath path s).Meets
      (fun w t => Builds v t ∧ ∀ d', w.code = -eNotFound → w.dir = some d' → Standing t d') (fun _ => False) fun _ => True)
    (failed : fileCreate path s = .err e z) :
    z.content.target d p ≠ 0 := by
  obtain ⟨w, t, walked, ends⟩ := fileCreate_fails failed
  rw [walked] at walk
  obtain ⟨builds, stands⟩ := walk
  rcases ends with ⟨rfl, -⟩ | ⟨d', code, dir, refused⟩
  · exact (pinned.builds builds).held
  · have standing := stands d' code dir
    have super' := builds.cached 1 super
    have scan := slotScan_builds super' standing.cached ((t.fSize d').toNat / 4096) 0
    rw [dirAllocFile, dirAllocScan_eq] at refused
    rcases Result.bind_err refused with stopped | ⟨slot, u, scanned, rest⟩
    · rw [stopped] at scan
      exact ((pinned.builds builds).builds scan).held
    · rw [scanned] at scan
      have more : Builds t u := scan
      cases slot with
      | some f => cases rest
      | none =>
        have here := more.cached _ standing.cached
        have grown := ((pinned.builds builds).builds more).grow (by decide) here standing.slot
        rcases Result.bind_err rest with denied | ⟨b, x, -, rest⟩
        · have got := fileGetBlock_builds (s := u.setField d' 32 (u.fSize d' + blockSize)) (setWord_cached (more.cached 1 super'))
            (setWord_cached here) (0 + (t.fSize d').toNat / 4096)
          rw [denied] at got
          exact (grown.builds got).held
        · cases rest

theorem holeFilled_touches {e : Word} {z : Store} (tree : NameTree s.content) (super : s.cache 1 ≠ none)
    (disk : s.content.nblocks ≤ 0x40000) (filled : HoleFilled path s) (failed : fileCreate path s = .err e z) : ¬ Untouched s z := by
  obtain ⟨pre, name, rest, d, i, w, t, u, elements, hole, comes, attaches⟩ := filled
  have isName : ∀ other ∈ pre, IsName other := fun other mem =>
    isName_of_mem (elements.symm ▸ List.mem_append_left _ mem : other ∈ pathElements path)
  have exclusive := tree.toExclusive
  obtain ⟨reach, type, shows, cached, k, lookup⟩ := comes.shows tree.short .ofRoot isName hole ⟨super, fun _ _ _ => rfl, rfl⟩ super
  have at_hole := shows.holeAt exclusive reach cached hole.empty
  have disk' : u.content.nblocks ≤ 0x40000 := (shows.marked.nblocks exclusive) ▸ disk
  obtain ⟨p, v, empty, pinned, builds, got⟩ := fileGetBlock_attaches at_hole disk' attaches
  have standing : Standing u d := by
    refine ⟨cached, ?_, at_hole.place.imp id fun both => both.2⟩
    cases reach with
    | ofRoot => decide
    | @ofSlot dir i' j reach' visible held small =>
      have below := (exclusive.inUse dir (some i') reach' held).1.2
      exact fileOf_va (Nat.lt_of_lt_of_le below disk) small
  have walk := walkElements_pinned disk' standing shows.super builds got comes.walked comes.found hole.short type lookup rest
  rw [← elements] at walk
  intro same
  have held := fileCreate_pinned (builds.cached 1 shows.super) pinned walk failed
  rw [same.target d reach p, ← shows.marked.target exclusive reach, empty] at held
  exact held rfl

theorem walkPath_refused (tree : NameTree s.content) (super : s.cache 1 ≠ none) (hole : ¬ Solid s.content root (pathElements path))
    (refused : ¬ HoleFilled path s) :
    (walkPath path s).Meets (fun w t => w.dir = none ∧ Shows s.content s.memory t) (fun _ => False) fun _ => True := by
  obtain ⟨pre, name, rest, d, i, elements, first⟩ := exists_firstHole tree.short .ofRoot (fun name mem => isName_of_mem mem) hole none
  have isName : ∀ other ∈ pre, IsName other := fun other mem =>
    isName_of_mem (elements.symm ▸ List.mem_append_left _ mem : other ∈ pathElements path)
  have start : Shows s.content s.memory s := ⟨super, fun _ _ _ => rfl, rfl⟩
  rw [walkPath, elements]
  rcases first.comes tree.short .ofRoot isName start super with ⟨w, t, u, comes⟩ | ⟨t, shows, out⟩
  · obtain ⟨reach, type, shows, cached, k, lookup⟩ := comes.shows tree.short .ofRoot isName first start super
    have failed := fileGetBlock_refused (shows.holeAt tree.toExclusive reach cached first.empty)
      fun attaches => refused ⟨pre, name, rest, d, i, w, t, u, elements, first, comes, attaches⟩
    have memory := fileGetBlock_kept (memory_kept s.memory) i (f := d) shows.memory
    have codes := fileGetBlock_codes d i u
    rw [dirScan] at lookup
    cases got : fileGetBlock d i u with
    | ok b v =>
      rw [got] at failed
      exact failed.elim
    | err e v =>
      rw [got] at failed codes lookup memory
      have read : Read u v := failed
      rw [walkElements_failed comes.walked comes.found first.short type lookup codes]
      exact ⟨rfl, read.cached 1 shows.super, read.content ▸ shows.marked, memory⟩
    | stop cause =>
      rw [got] at lookup
      rw [walkElements_lookup comes.walked comes.found first.short type, lookup]
      trivial
  · rw [out]
    exact ⟨rfl, shows⟩

theorem GrowRefused.notMade (refused : GrowRefused path s) : NotMade path s := by
  obtain ⟨w, t, d, u, e, v, walked, -, dir, scanned, denied⟩ := refused
  refine ⟨w, t, walked, fun d' _ dir' => ⟨e, v, ?_⟩⟩
  cases dir.symm.trans dir'
  rw [dirAllocFile, dirAllocScan_eq, scanned, Result.ok_bind]
  dsimp only
  rw [extendDir, Nat.zero_add, denied]
  rfl

end Create

/-- `file_create` changes nothing when it fails, just where the file system does not refuse to extend a full directory and no
    hole of a directory gets a block before. -/
theorem file_create_atomic {s : Store} {path : List Byte} (tree : NameTree s.content) (super : s.cache 1 ≠ none)
    (disk : s.content.nblocks ≤ 0x40000) :
    (∀ e t, fileCreate path s = .err e t → Untouched s t) ↔ ¬ (GrowRefused path s ∨ HoleFilled path s ∧ NotMade path s) := by
  constructor
  · rintro atomic (refused | ⟨filled, notMade⟩)
    · by_cases solid : Solid s.content root (pathElements path)
      · obtain ⟨e, t, failed, touched⟩ := fileCreate_grown tree super solid refused
        exact touched (atomic e t failed)
      · have filled : HoleFilled path s := by
          by_contra none
          have walk := walkPath_refused tree super solid none
          obtain ⟨w, t, d, u, e, v, walked, -, dir, -⟩ := refused
          rw [← walkPathLoop_eq, walked] at walk
          cases dir.symm.trans walk.1
        obtain ⟨e, t, failed⟩ := notMade_iff.mp refused.notMade
        exact holeFilled_touches tree super disk filled failed (atomic e t failed)
    · obtain ⟨e, t, failed⟩ := notMade_iff.mp notMade
      exact holeFilled_touches tree super disk filled failed (atomic e t failed)
  · intro good e t failed
    by_cases solid : Solid s.content root (pathElements path)
    · exact Shows.untouched tree ((fileCreate_err tree super solid failed).resolve_right fun refused => good (.inl refused))
    · have walk := walkPath_refused tree super solid fun filled => good (.inr ⟨filled, notMade_iff.mpr ⟨e, t, failed⟩⟩)
      obtain ⟨w, u, walked, ends⟩ := fileCreate_fails failed
      rw [walked] at walk
      rcases ends with ⟨rfl, -⟩ | ⟨d, -, dir, -⟩
      · exact Shows.untouched tree walk.2
      · cases dir.symm.trans walk.1

/-- The server after `fs_init` on the empty disk, when no memory is left for a block. -/
def emptyStore : Store :=
  { bootStore emptyImage (fun _ => false) with cache := fun b => if b = 1 ∨ b = 2 then some (emptyImage b) else none }

def holeStore : Store := emptyStore.setField root 32 blockSize

theorem holeStore_content : holeStore.content = Image.set emptyImage 1 34 4096 := by
  have content : emptyStore.content = emptyImage := by
    funext b
    unfold Store.content emptyStore
    dsimp only
    split <;> rfl
  have set : holeStore.content = emptyStore.content.set 1 34 4096 := content_setWord (by decide : emptyStore.cache 1 ≠ none)
  rw [set, content]

theorem holeStore_bare (p : Option Nat) : holeStore.content.target root p = 0 := by
  rw [holeStore_content]
  refine (Image.target_congr (c := emptyImage) (fun k low _ => Image.set_ne fun same => ?_)
    (fun i _ _ held => absurd (emptyImage_target none) held) p).trans (emptyImage_target p)
  have word : 2 + k = 34 := congrArg Prod.snd same
  omega

theorem holeStore_tree : NameTree holeStore.content where
  toExclusive := by
    refine exclusive_bare holeStore_bare fun b below low isFree => emptyImage_system b ?_ ?_ ?_
    · rw [holeStore_content] at below
      exact below
    · rw [holeStore_content] at low
      exact low
    · have other : (Store.bitmapBlock b, Store.bitmapWord b) ≠ (1, 34) := fun same => by
        have one : 2 + b / 32 / 1024 = 1 := congrArg Prod.fst same
        omega
      unfold Image.Free at isFree ⊢
      rwa [holeStore_content, Image.set_ne other] at isFree
  distinct dir name f g reach _ entry _ := by
    obtain ⟨i, j, -, held, -⟩ := entry
    rw [reach_bare holeStore_bare reach] at held
    exact absurd (holeStore_bare _) held

/-- Without memory the creation of "/a" in a root with a hole stops at the hole, before anything has changed. -/
theorem file_create_atomic_hole : ¬ Solid holeStore.content root (pathElements [0x2f, 0x61]) ∧
    ∃ e t, fileCreate [0x2f, 0x61] holeStore = .err e t ∧ Untouched holeStore t := by
  have elements : pathElements [0x2f, 0x61] = [[0x61]] := by decide
  have size : holeStore.content.field root 32 = 4096 := by
    rw [holeStore_content]
    rfl
  have type : holeStore.content.field root 33 = ftypeDir := by
    rw [holeStore_content]
    rfl
  refine ⟨fun solid => ?_, ?_⟩
  · rw [elements] at solid
    exact (solid (by decide) type).1 0 ⟨⟨type, by rw [size]; decide⟩, fun i' j below => absurd below (Nat.not_lt_zero i')⟩
      (holeStore_bare _)
  · obtain ⟨t, failed⟩ : ∃ t, fileCreate [0x2f, 0x61] holeStore = .err (-eNoMem) t := ⟨_, rfl⟩
    have disk : holeStore.content.nblocks ≤ 0x40000 := by
      rw [holeStore_content]
      decide
    refine ⟨-eNoMem, t, failed, (file_create_atomic holeStore_tree (by decide) disk).mpr ?_ _ _ failed⟩
    rintro (⟨w, t, d, u, e, v, walked, code, -⟩ | ⟨⟨pre, name, rest, d, i, w, t, u, split, hole, comes, attaches⟩, -⟩)
    · obtain ⟨w', t', walked', code'⟩ : ∃ w t, walkPathLoop [0x2f, 0x61] holeStore = .ok w t ∧ w.code = -eNoMem :=
        ⟨_, _, rfl, by decide⟩
      cases walked.symm.trans walked'
      exact absurd (code.symm.trans code') (by decide)
    · rw [elements] at split
      have first : pre = [] := by
        cases pre with
        | nil => rfl
        | cons x xs =>
          have length := congrArg List.length split
          simp at length
      subst first
      obtain ⟨walked, found, scan⟩ := comes
      cases walked
      cases found
      have inside : i < (holeStore.content.field root 32).toNat / 4096 := hole.scanned.1.2
      rw [size] at inside
      obtain rfl : i = 0 := by
        have one : (4096 : Word).toNat / 4096 = 1 := by decide
        omega
      cases scan
      obtain ⟨x, refused⟩ : ∃ x, allocBlock holeStore = .err (-eNoMem) x := ⟨_, rfl⟩
      have walk : fileBlockWalk root 0 true holeStore = .ok (1, 36) holeStore := rfl
      obtain ⟨-, ptr, t', b, u, walked, got⟩ := attaches
      cases walk.symm.trans walked
      cases refused.symm.trans got

/-- The creation of "/a" in the empty root fails and leaves a root of one block. -/
theorem file_create_grows : ∃ t, fileCreate [0x2f, 0x61] emptyStore = .err (-eNoMem) t ∧
    emptyStore.content.field root 32 = 0 ∧ t.content.field root 32 = 4096 ∧ ¬ Untouched emptyStore t := by
  have grown : ∃ t, fileCreate [0x2f, 0x61] emptyStore = .err (-eNoMem) t ∧ t.content.field root 32 = 4096 := ⟨_, rfl, by decide⟩
  obtain ⟨t, failed, size⟩ := grown
  refine ⟨t, failed, by decide, size, fun same => ?_⟩
  have old := same.size root .ofRoot
  rw [size] at old
  exact absurd old (by decide)

end Mos.Fs
