import Mos.Fs.Content
import Mos.Fs.Lookup
import Mathlib.Data.List.DropRight

namespace Mos.Fs

namespace Image

def nameByte (c : Image) (f : FilePtr) (k : Nat) : Byte := (c.field f (k / 4)).extractLsb' (8 * (k % 4)) 8

/-- `f_name` holds the name and the zero behind it. -/
def NameAt (c : Image) (f : FilePtr) (name : List Byte) : Prop :=
  ∀ k, k ≤ name.length → c.nameByte f k = (name ++ [0]).getD k 0

def Entry (c : Image) (dir : FilePtr) (name : List Byte) (f : FilePtr) : Prop :=
  ∃ i j, c.Visible dir i ∧ c.target dir (some i) ≠ 0 ∧ j < file2blk ∧ f = fileOf (c.target dir (some i)) j ∧ c.NameAt f name

/-- The search for the name comes to block `i` of the directory. -/
def Scanned (c : Image) (dir : FilePtr) (name : List Byte) (i : Nat) : Prop :=
  c.Visible dir i ∧ ∀ i' j, i' < i → j < file2blk → ¬ c.NameAt (fileOf (c.target dir (some i')) j) name

end Image

structure NameTree (c : Image) : Prop extends Exclusive c where
  distinct : ∀ dir name f g, Reach c dir → IsName name → c.Entry dir name f → c.Entry dir name g → f = g

/-- A directory tree: every block of a directory is there. -/
structure DirTree (c : Image) : Prop extends NameTree c where
  blocks : ∀ dir i, Reach c dir → c.Visible dir i → c.target dir (some i) ≠ 0

/-- The names that `walk_path` looks for are distinct in a directory. -/
structure ShortTree (c : Image) : Prop extends Exclusive c where
  distinct : ∀ dir name f g, Reach c dir → IsName name → name.length < maxNameLen → c.Entry dir name f → c.Entry dir name g → f = g

theorem NameTree.short {c : Image} (tree : NameTree c) : ShortTree c :=
  { tree with distinct := fun dir name f g reach isName _ => tree.distinct dir name f g reach isName }

/-- The searches for the names of a path come to no hole of a directory. -/
def Solid (c : Image) : FilePtr → List (List Byte) → Prop
  | _, [] => True
  | file, name :: rest => name.length < maxNameLen → c.field file 33 = ftypeDir →
      (∀ i, c.Scanned file name i → c.target file (some i) ≠ 0) ∧ ∀ g, c.Entry file name g → Solid c g rest

/-- From `file`, found in `dir`, the names lead to `g`, which is found in `d`. -/
inductive Resolves (c : Image) : Option FilePtr → FilePtr → List (List Byte) → Option FilePtr → FilePtr → Prop where
  | here (dir : Option FilePtr) (file : FilePtr) : Resolves c dir file [] dir file
  | down {dir d : Option FilePtr} {file f g : FilePtr} {name : List Byte} {rest : List (List Byte)}
      (short : name.length < maxNameLen) (type : c.field file 33 = ftypeDir) (entry : c.Entry file name f)
      (further : Resolves c (some file) f rest d g) : Resolves c dir file (name :: rest) d g

/-- From `file` all names but the last lead to the directory `d`, in which the last is missing. -/
inductive Misses (c : Image) : FilePtr → List (List Byte) → FilePtr → List Byte → Prop where
  | here {file : FilePtr} {name : List Byte} (short : name.length < maxNameLen) (type : c.field file 33 = ftypeDir)
      (absent : ∀ f, ¬ c.Entry file name f) : Misses c file [name] file name
  | down {file f d : FilePtr} {name last : List Byte} {rest : List (List Byte)} (short : name.length < maxNameLen)
      (type : c.field file 33 = ftypeDir) (entry : c.Entry file name f) (further : Misses c f rest d last) :
      Misses c file (name :: rest) d last

def skipSlash (path : List Byte) : List Byte := path.dropWhile (· = 0x2f)

theorem length_skipSlash (path : List Byte) : (skipSlash path).length ≤ path.length :=
  (List.dropWhile_suffix _).length_le

/-- The loop of `walk_path` as it stands, on what is left of the path; there are at most `fuel` bytes. -/
def walkLoop (dir : Option FilePtr) (file : FilePtr) (path : List Byte) : Nat → Store → Res Walked
  | 0, s => .ok { code := 0, dir := dir, file := some file, last := [] } s
  | fuel + 1, s =>
    if path = [] then .ok { code := 0, dir := dir, file := some file, last := [] } s
    else
      let name := path.takeWhile (· ≠ 0x2f)
      let path := path.dropWhile (· ≠ 0x2f)
      if maxNameLen ≤ name.length then .ok { code := -eBadPath, dir := none, file := none, last := [] } s
      else
        let path := skipSlash path
        if s.fType file ≠ ftypeDir then .ok { code := -eNotFound, dir := none, file := none, last := [] } s
        else (dirLookup file name s).tested.bind fun r s =>
          match r with
          | .ok f => walkLoop (some file) f path fuel s
          | .error r => .ok (if r = -eNotFound ∧ path = [] then { code := r, dir := some file, file := none, last := name }
              else { code := r, dir := none, file := none, last := [] }) s

/-- `walk_path` on a path that ends with its first zero. -/
def walkPathLoop (path : List Byte) (s : Store) : Res Walked :=
  let path := skipSlash (path.takeWhile (· ≠ 0))
  walkLoop none root path path.length s

theorem skipSlash_skipSlash (path : List Byte) : skipSlash (skipSlash path) = skipSlash path :=
  List.dropWhile_idempotent _ _

section Parse

variable {path : List Byte}

def elements (path : List Byte) : List (List Byte) := (path.splitOn 0x2f).filter (· ≠ [])

theorem elements_slash (path : List Byte) : elements (0x2f :: path) = elements path := by
  unfold elements
  have split : List.splitOn 0x2f ([] ++ 0x2f :: path) = [].splitOn 0x2f ++ path.splitOn 0x2f := List.splitOn_append_cons_self [] path
  rw [List.nil_append] at split
  rw [split]
  rfl

theorem elements_skipSlash (path : List Byte) : elements (skipSlash path) = elements path := by
  induction path with
  | nil => rfl
  | cons c rest ih =>
    unfold skipSlash at ih ⊢
    rw [List.dropWhile_cons]
    by_cases slash : c = 0x2f
    · subst slash
      rw [if_pos (by decide), ih, elements_slash]
    · rw [if_neg (by simpa using slash)]

theorem elements_next {c : Byte} {rest : List Byte} (first : c ≠ 0x2f) :
    elements (c :: rest) = (c :: rest).takeWhile (· ≠ 0x2f) :: elements (skipSlash ((c :: rest).dropWhile (· ≠ 0x2f))) := by
  rw [elements_skipSlash]
  have plain : (0x2f : Byte) ∉ (c :: rest).takeWhile (· ≠ 0x2f) := fun mem => by
    have no := List.mem_takeWhile_imp mem
    simp at no
  have nonempty : (c :: rest).takeWhile (· ≠ 0x2f) ≠ [] := by
    rw [List.takeWhile_cons_of_pos (by simpa using first)]
    exact List.cons_ne_nil _ _
  have whole := List.takeWhile_append_dropWhile (p := (· ≠ (0x2f : Byte))) (l := c :: rest)
  generalize (c :: rest).takeWhile (· ≠ 0x2f) = name at plain nonempty whole ⊢
  generalize tail : (c :: rest).dropWhile (· ≠ 0x2f) = after at whole ⊢
  rw [← whole]
  cases after with
  | nil =>
    unfold elements
    rw [List.append_nil, List.splitOn_eq_singleton plain]
    simp [nonempty]
  | cons d rest' =>
    obtain rfl : d = 0x2f := by
      have stop := List.head_dropWhile_not (p := (· ≠ (0x2f : Byte))) (l := c :: rest) (by rw [tail]; exact List.cons_ne_nil _ _)
      simp only [tail, List.head_cons] at stop
      simpa using stop
    rw [elements_slash]
    unfold elements
    rw [List.splitOn_append_cons_self, List.splitOn_eq_singleton plain, List.filter_append]
    simp [nonempty]

theorem walkLoop_eq {fuel : Nat} (enough : path.length ≤ fuel) (start : skipSlash path = path) (dir : Option FilePtr)
    (file : FilePtr) (s : Store) : walkLoop dir file path fuel s = walkElements dir file (elements path) s := by
  induction fuel generalizing path dir file s with
  | zero =>
    obtain rfl : path = [] := List.eq_nil_of_length_eq_zero (Nat.le_zero.mp enough)
    rfl
  | succ fuel ih =>
    cases path with
    | nil => rfl
    | cons c rest =>
      have first : c ≠ 0x2f := by
        rintro rfl
        have shorter := length_skipSlash rest
        unfold skipSlash at start shorter
        rw [List.dropWhile_cons, if_pos (by decide)] at start
        rw [start, List.length_cons] at shorter
        exact absurd shorter (Nat.not_succ_le_self _)
      rw [walkLoop, if_neg (List.cons_ne_nil c rest), elements_next first, walkElements]
      dsimp only
      split
      · rfl
      split
      · rfl
      congr 1
      funext r t
      have left : skipSlash ((c :: rest).dropWhile (· ≠ 0x2f)) = [] ↔
          elements (skipSlash ((c :: rest).dropWhile (· ≠ 0x2f))) = [] := by
        cases e : skipSlash ((c :: rest).dropWhile (· ≠ 0x2f)) with
        | nil => exact iff_of_true rfl rfl
        | cons d more =>
          have other : d ≠ 0x2f := by
            have stop := List.head_dropWhile_not (p := (· = (0x2f : Byte))) (l := (c :: rest).dropWhile (· ≠ 0x2f))
              (by unfold skipSlash at e; rw [e]; exact List.cons_ne_nil _ _)
            unfold skipSlash at e
            simp only [e, List.head_cons] at stop
            simpa using stop
          rw [elements_next other]
          exact iff_of_false (List.cons_ne_nil _ _) (List.cons_ne_nil _ _)
      cases r with
      | error r => simp only [left]
      | ok f =>
        apply ih
        · have short := length_skipSlash ((c :: rest).dropWhile (· ≠ 0x2f))
          have drop : ((c :: rest).dropWhile (· ≠ 0x2f)).length ≤ rest.length := by
            rw [List.dropWhile_cons_of_pos (by simpa using first)]
            exact (List.dropWhile_suffix _).length_le
          rw [List.length_cons] at enough
          omega
        · exact skipSlash_skipSlash _

theorem walkPathLoop_eq (path : List Byte) (s : Store) : walkPathLoop path s = walkPath path s := by
  unfold walkPathLoop walkPath pathElements
  dsimp only
  rw [walkLoop_eq (Nat.le_refl _) (skipSlash_skipSlash _), elements_skipSlash]
  rfl

end Parse

section Marks

variable {c c' : Image} {f dir : FilePtr} {b w : Nat}

/-- The words `f_dir` of the `File`s in the blocks of directories. -/
def IsMark (c : Image) (b w : Nat) : Prop :=
  ∃ dir i j, Reach c dir ∧ c.Visible dir i ∧ c.target dir (some i) ≠ 0 ∧ b = c.target dir (some i) ∧ j < file2blk ∧ w = 64 * j + 45

def Remarked (c c' : Image) : Prop := ∀ b w, ¬ IsMark c b w → c' b w = c b w

theorem IsMark.data (exclusive : Exclusive c) (mark : IsMark c b w) : c.IsData b := by
  obtain ⟨dir, i, j, reach, -, held, rfl, -⟩ := mark
  exact (exclusive.inUse dir (some i) reach held).1

theorem Reach.word (exclusive : Exclusive c) (reach : Reach c f) {k : Nat} (small : k < 64) (plain : k ≠ 45) :
    ¬ IsMark c f.block (f.word + k) := by
  intro mark
  cases reach with
  | ofRoot =>
    have data := (mark.data exclusive).1
    have two := c.two_le_bitmapEnd
    exact absurd data (by show ¬ c.bitmapEnd < 1; omega)
  | @ofSlot dir i j' =>
    obtain ⟨-, -, j, -, -, -, -, -, at_word⟩ := mark
    have place : 64 * j' + k = 64 * j + 45 := at_word
    omega

theorem Reach.entry (exclusive : Exclusive c) (reach : Reach c f) (held : c.indirect f ≠ 0) (i : Nat) :
    ¬ IsMark c (c.indirect f) i := by
  rintro ⟨dir, i', j, reach', -, held', same, -⟩
  have both := exclusive.once f dir none (some i') reach reach' held same
  cases both.2

theorem Remarked.field (marked : Remarked c c') (exclusive : Exclusive c) (reach : Reach c f) {k : Nat} (small : k < 64)
    (plain : k ≠ 45) : c'.field f k = c.field f k := marked _ _ (reach.word exclusive small plain)

theorem Remarked.target (marked : Remarked c c') (exclusive : Exclusive c) (reach : Reach c f) (p : Option Nat) :
    c'.target f p = c.target f p :=
  Image.target_congr (fun k low high => marked.field exclusive reach (by omega) (by omega))
    (fun i _ _ held => marked _ _ (reach.entry exclusive held i)) p

theorem Remarked.visible (marked : Remarked c c') (exclusive : Exclusive c) (reach : Reach c f) (i : Nat) :
    c'.Visible f i ↔ c.Visible f i := by
  unfold Image.Visible
  rw [marked.field exclusive reach (k := 33) (by decide) (by decide), marked.field exclusive reach (k := 32) (by decide) (by decide)]

theorem Remarked.nblocks (marked : Remarked c c') (exclusive : Exclusive c) : c'.nblocks = c.nblocks := by
  refine congrArg BitVec.toNat (marked 1 1 fun mark => ?_)
  have data := (mark.data exclusive).1
  have two := c.two_le_bitmapEnd
  omega

theorem Remarked.free (marked : Remarked c c') (exclusive : Exclusive c) (below : b < c.nblocks) : c'.Free b ↔ c.Free b := by
  unfold Image.Free
  rw [marked _ _ fun mark => ?_]
  exact IsData.not_bitmap (mark.data exclusive) (Image.bitmapBlock_isBitmap below)

theorem Remarked.nameAt (marked : Remarked c c') (exclusive : Exclusive c) (reach : Reach c f) {name : List Byte}
    (short : name.length < maxNameLen) : c'.NameAt f name ↔ c.NameAt f name := by
  have small : name.length < 128 := short
  unfold Image.NameAt Image.nameByte
  refine forall₂_congr fun k inside => ?_
  rw [marked.field exclusive reach (by omega) (by omega)]

theorem Remarked.reach (marked : Remarked c c') (exclusive : Exclusive c) : Reach c' f ↔ Reach c f := by
  constructor
  · intro reach
    induction reach with
    | ofRoot => exact .ofRoot
    | @ofSlot dir i j reach visible held small ih =>
      rw [marked.target exclusive ih] at held ⊢
      exact .ofSlot ih ((marked.visible exclusive ih i).mp visible) held small
  · intro reach
    induction reach with
    | ofRoot => exact .ofRoot
    | @ofSlot dir i j reach visible held small ih =>
      rw [← marked.target exclusive reach] at held ⊢
      exact .ofSlot ih ((marked.visible exclusive reach i).mpr visible) held small

theorem Remarked.exclusive (marked : Remarked c c') (exclusive : Exclusive c) : Exclusive c' where
  once f g p q reach reach' held same := by
    have reach := (marked.reach exclusive).mp reach
    have reach' := (marked.reach exclusive).mp reach'
    rw [marked.target exclusive reach] at held same
    rw [marked.target exclusive reach'] at same
    exact exclusive.once f g p q reach reach' held same
  inUse f p reach held := by
    have reach := (marked.reach exclusive).mp reach
    rw [marked.target exclusive reach] at held ⊢
    obtain ⟨data, used⟩ := exclusive.inUse f p reach held
    exact ⟨(Image.IsData.of_nblocks (marked.nblocks exclusive)).mpr data, fun isFree => used ((marked.free exclusive data.2).mp isFree)⟩
  system b below low isFree := by
    unfold Image.bitmapEnd at low
    rw [marked.nblocks exclusive] at below low
    exact exclusive.system b below low ((marked.free exclusive below).mp isFree)

theorem Remarked.set (marked : Remarked c c') {v : Word} (mark : IsMark c b w) : Remarked c (c'.set b w v) := by
  intro x y other
  rw [Image.set_ne fun same => ?_]
  · exact marked x y other
  · obtain ⟨rfl, rfl⟩ := Prod.mk.inj same
    exact other mark

end Marks

/-- The server's store shows the image `c`, and its memory answers `memory`. -/
structure Shows (c : Image) (memory : Nat → Bool) (s : Store) : Prop where
  super : s.cache 1 ≠ none
  marked : Remarked c s.content
  memory : s.memory = memory

/-- Memory runs out at some request. -/
def RunsOut (memory : Nat → Bool) : Prop := ∃ k, memory k = false

section Lookup

variable {c : Image} {memory : Nat → Bool} {s t : Store} {f dir : FilePtr} {b i : Nat}

/-- A load of a block: the store shows the same image, or memory has run out. -/
structure Loads (s t : Store) : Prop extends Read s t where
  memory : t.memory = s.memory
  disk : t.disk = s.disk

theorem Loads.refl (s : Store) : Loads s s := ⟨Read.refl s, rfl, rfl⟩

theorem Loads.trans {u : Store} (first : Loads s t) (second : Loads t u) : Loads s u :=
  ⟨first.toRead.trans second.toRead, second.memory.trans first.memory, second.disk.trans first.disk⟩

theorem Shows.loads (shows : Shows c memory s) (loads : Loads s t) : Shows c memory t :=
  ⟨loads.cached 1 shows.super, loads.content ▸ shows.marked, loads.memory.trans shows.memory⟩

theorem readBlock_loads (own : Exclusive c) (shows : Shows c memory s) (data : c.IsData b) (used : ¬ c.Free b) :
    (∃ t, readBlock b s = .ok () t ∧ Loads s t ∧ t.cache b ≠ none) ∨
      ∃ t, readBlock b s = .err (-eNoMem) t ∧ Loads s t ∧ RunsOut memory := by
  have size : s.nblocks = c.nblocks := (nblocks_content shows.super).trans (shows.marked.nblocks own)
  have taken : blockIsFree s b = false := by
    unfold blockIsFree
    split
    · rfl
    · rw [decide_eq_false_iff_not]
      exact fun isFree => used ((shows.marked.free own data.2).mp (free_of_bitmap isFree))
  have kept := loadBlock_read b s
  rw [readBlock, size, if_neg (Nat.not_le_of_lt data.2), taken, if_neg Bool.false_ne_true]
  unfold loadBlock sysMemAlloc at kept ⊢
  split
  · rename_i cached
    exact .inl ⟨s, rfl, Loads.refl s, by rw [cached]; nofun⟩
  · rename_i hole
    rw [hole] at kept
    split
    · rename_i got
      rw [if_pos got] at kept
      exact .inl ⟨_, rfl, ⟨kept, rfl, rfl⟩, by simp⟩
    · rename_i refused
      rw [if_neg refused] at kept
      exact .inr ⟨_, rfl, ⟨kept, rfl, rfl⟩, s.asked, by rw [← shows.memory]; simpa using refused⟩

theorem fileGetBlock_loads (own : Exclusive c) (shows : Shows c memory s) (reach : Reach c f) (cached : s.cache f.block ≠ none)
    (held : c.target f (some i) ≠ 0) :
    (∃ t, fileGetBlock f i s = .ok (c.target f (some i)) t ∧ Loads s t ∧ t.cache (c.target f (some i)) ≠ none) ∨
      ∃ t, fileGetBlock f i s = .err (-eNoMem) t ∧ Loads s t ∧ RunsOut memory := by
  obtain ⟨data, used⟩ := own.inUse f (some i) reach held
  have field : ∀ {t : Store}, Loads s t → ∀ k, k < 64 → k ≠ 45 → t.field f k = c.field f k := by
    intro t loads k small plain
    rw [field_content (loads.cached _ cached), loads.content]
    exact shows.marked.field own reach small plain
  -- once the pointer is found, the block is read
  have last : ∀ {t : Store} (ptr : Nat × Nat), Loads s t → t.word ptr.1 ptr.2 ≠ 0 → (t.word ptr.1 ptr.2).toNat = c.target f (some i) →
      fileBlockWalk f i true s = .ok ptr t →
      (∃ t, fileGetBlock f i s = .ok (c.target f (some i)) t ∧ Loads s t ∧ t.cache (c.target f (some i)) ≠ none) ∨
        ∃ t, fileGetBlock f i s = .err (-eNoMem) t ∧ Loads s t ∧ RunsOut memory := by
    intro t ptr loads nonzero target walked
    have mapped : fileMapBlock f i true s = .ok (c.target f (some i)) t := by
      rw [fileMapBlock, walked, Result.ok_bind, if_neg nonzero, Result.ok_bind, target]
    rw [fileGetBlock, mapped, Result.ok_bind]
    rcases readBlock_loads own (shows.loads loads) data used with ⟨u, read, more, there⟩ | ⟨u, read, more, out⟩
    · rw [read]
      exact .inl ⟨u, rfl, loads.trans more, there⟩
    · rw [read]
      exact .inr ⟨u, rfl, loads.trans more, out⟩
  by_cases direct : i < ndirect
  · have small : i < 10 := direct
    have target : c.target f (some i) = (c.field f (34 + i)).toNat := by
      unfold Image.target
      simp only [if_pos direct]
    have word : s.word f.block (f.word + (34 + i)) = c.field f (34 + i) := field (Loads.refl s) (34 + i) (by omega) (by omega)
    refine last (f.block, f.word + (34 + i)) (Loads.refl s) ?_ ?_ ?_
    · rw [word]
      intro zero
      rw [target, zero] at held
      exact held rfl
    · rw [word, target]
    · rw [fileBlockWalk, if_pos direct]
  · have both : i < nindirect ∧ c.indirect f ≠ 0 := by
      by_contra no
      apply held
      unfold Image.target
      simp only [if_neg direct, if_neg no]
    have target : c.target f (some i) = (c (c.indirect f) i).toNat := by
      unfold Image.target
      simp only [if_neg direct, if_pos both]
    have indirect : ∀ {t : Store}, Loads s t → (t.fIndirect f).toNat = c.indirect f :=
      fun loads => congrArg BitVec.toNat (field loads 44 (by decide) (by decide))
    have nonzero : s.fIndirect f ≠ 0 := fun zero => both.2 (by rw [← indirect (Loads.refl s), zero]; rfl)
    have walk : fileBlockWalk f i true s =
        (readBlock (c.indirect f) s).bind fun _ s => .ok ((s.fIndirect f).toNat, i) s := by
      rw [fileBlockWalk, if_neg direct, if_pos both.1, if_neg nonzero, Result.ok_bind, indirect (Loads.refl s)]
    obtain ⟨data', used'⟩ : c.IsData (c.indirect f) ∧ ¬ c.Free (c.indirect f) := own.inUse f none reach both.2
    rcases readBlock_loads own shows data' used' with ⟨t, read, loads, there⟩ | ⟨t, read, loads, out⟩
    · rw [read, Result.ok_bind, indirect loads] at walk
      have word : t.word (c.indirect f) i = c (c.indirect f) i := by
        rw [word_content there, loads.content]
        exact shows.marked _ _ (reach.entry own both.2 i)
      refine last (c.indirect f, i) loads ?_ ?_ walk
      · rw [word]
        intro zero
        rw [target, zero] at held
        exact held rfl
      · rw [word, target]
    · rw [read] at walk
      refine .inr ⟨t, ?_, loads, out⟩
      rw [fileGetBlock, fileMapBlock, walk]
      rfl

theorem nameIs_iff (own : Exclusive c) (shows : Shows c memory s) (reach : Reach c f) (cached : s.cache f.block ≠ none)
    {name : List Byte} (short : name.length < maxNameLen) : s.nameIs f name = true ↔ c.NameAt f name := by
  rw [← shows.marked.nameAt own reach short]
  unfold Store.nameIs Image.NameAt Image.nameByte Store.nameByte
  rw [List.all_eq_true]
  refine forall_congr' fun k => ?_
  rw [List.mem_range, Nat.lt_succ_iff, decide_eq_true_iff, field_content cached]

/-- How a lookup of `name` ends: `dir_lookup` only loads blocks, and sets `f_dir` of the `File` that it finds. -/
inductive LookedUp (c : Image) (memory : Nat → Bool) (dir : FilePtr) (name : List Byte) (s : Store) : Res FilePtr → Prop where
  | entry {g : FilePtr} {t : Store} (entry : c.Entry dir name g) (loads : Loads s t) (cached : t.cache g.block ≠ none) :
      LookedUp c memory dir name s (.ok g (t.setField g 45 dir.va))
  | absent {t : Store} (missing : ∀ g, ¬ c.Entry dir name g) (loads : Loads s t) : LookedUp c memory dir name s (.err (-eNotFound) t)
  | noMem {t : Store} (out : RunsOut memory) (loads : Loads s t) : LookedUp c memory dir name s (.err (-eNoMem) t)

theorem LookedUp.after {name : List Byte} {r : Res FilePtr} (loads : Loads s t) (found : LookedUp c memory dir name t r) :
    LookedUp c memory dir name s r := by
  cases found with
  | entry entry more cached => exact .entry entry (loads.trans more) cached
  | absent missing more => exact .absent missing (loads.trans more)
  | noMem out more => exact .noMem out (loads.trans more)

theorem Shows.marks (shows : Shows c memory t) (reach : Reach c dir) {name : List Byte} {g : FilePtr} (entry : c.Entry dir name g)
    (cached : t.cache g.block ≠ none) : Shows c memory (t.setField g 45 dir.va) := by
  obtain ⟨i, j, visible, held, small, rfl, -⟩ := entry
  have content : (t.setField (fileOf (c.target dir (some i)) j) 45 dir.va).content =
      t.content.set (c.target dir (some i)) (64 * j + 45) dir.va := content_setWord cached
  refine ⟨setWord_cached shows.super, ?_, shows.memory⟩
  rw [content]
  exact shows.marked.set ⟨dir, i, j, reach, visible, held, rfl, small, rfl⟩

theorem dirScan_lookedUp (own : Exclusive c) (reach : Reach c dir) (type : c.field dir 33 = ftypeDir) {name : List Byte}
    (short : name.length < maxNameLen) (solid : ∀ i, c.Scanned dir name i → c.target dir (some i) ≠ 0) (n i : Nat)
    (sum : i + n = (c.field dir 32).toNat / 4096)
    (before : ∀ i' j, i' < i → j < file2blk → ¬ c.NameAt (fileOf (c.target dir (some i')) j) name)
    (shows : Shows c memory s) (cached : s.cache dir.block ≠ none) : LookedUp c memory dir name s (dirScan dir name n i s) := by
  induction n generalizing i s with
  | zero =>
    refine .absent (fun g entry => ?_) (Loads.refl s)
    obtain ⟨i', j, visible, -, small, rfl, named⟩ := entry
    exact before i' j (by have := visible.2; omega) small named
  | succ n ih =>
    have visible : c.Visible dir i := ⟨type, by omega⟩
    have held := solid i ⟨visible, before⟩
    have slot : ∀ {j}, j < file2blk → Reach c (fileOf (c.target dir (some i)) j) := fun small => .ofSlot reach visible held small
    rw [dirScan]
    rcases fileGetBlock_loads own shows reach cached held with ⟨t, got, loads, there⟩ | ⟨t, got, loads, out⟩
    · have shows' := shows.loads loads
      rw [got, Result.ok_bind]
      split
      · rename_i j found
        have small := List.mem_range.mp (List.mem_of_find?_eq_some found)
        have named : t.nameIs (fileOf (c.target dir (some i)) j) name = true := by simpa using List.find?_some found
        have entry : c.Entry dir name (fileOf (c.target dir (some i)) j) :=
          ⟨i, j, visible, held, small, rfl, (nameIs_iff own shows' (slot small) there short).mp named⟩
        exact .entry entry loads there
      · rename_i none
        refine (ih (i + 1) (by omega) (fun i' j below small named => ?_) shows' (loads.cached _ cached)).after loads
        rcases Nat.lt_or_eq_of_le (Nat.lt_succ_iff.mp below) with less | rfl
        · exact before i' j less small named
        · have no := List.find?_eq_none.mp none j (List.mem_range.mpr small)
          exact no ((nameIs_iff own shows' (slot small) there short).mpr named)
    · rw [got]
      exact .noMem out loads

theorem dirLookup_found (own : Exclusive c) (reach : Reach c dir) (type : c.field dir 33 = ftypeDir) {name : List Byte}
    (short : name.length < maxNameLen) (solid : ∀ i, c.Scanned dir name i → c.target dir (some i) ≠ 0)
    (shows : Shows c memory s) (cached : s.cache dir.block ≠ none) : LookedUp c memory dir name s (dirLookup dir name s) := by
  have size : s.fSize dir = c.field dir 32 :=
    (field_content cached 32).trans (shows.marked.field own reach (by decide) (by decide))
  refine dirScan_lookedUp own reach type short solid _ 0 (by rw [size, Nat.zero_add]) (fun i' j below => ?_) shows cached
  exact absurd below (Nat.not_lt_zero i')

theorem Image.Entry.reach (reach : Reach c dir) {name : List Byte} {g : FilePtr} (entry : c.Entry dir name g) : Reach c g := by
  obtain ⟨i, j, visible, held, small, rfl, -⟩ := entry
  exact .ofSlot reach visible held small

theorem solid_of_blocks (blocks : ∀ dir i, Reach c dir → c.Visible dir i → c.target dir (some i) ≠ 0) (reach : Reach c f)
    (names : List (List Byte)) : Solid c f names := by
  induction names generalizing f with
  | nil => trivial
  | cons name rest ih => exact fun _ _ => ⟨fun i scanned => blocks f i reach scanned.1, fun g entry => ih (entry.reach reach)⟩

theorem DirTree.solid (tree : DirTree c) (reach : Reach c f) (names : List (List Byte)) : Solid c f names :=
  solid_of_blocks tree.blocks reach names

end Lookup

section Walk

variable {c : Image} {memory : Nat → Bool} {s : Store} {f g file : FilePtr} {dir d : Option FilePtr} {names : List (List Byte)}

theorem Resolves.unique (tree : ShortTree c) (reach : Reach c file) (isName : ∀ name ∈ names, IsName name)
    {d' : Option FilePtr} {g' : FilePtr} (first : Resolves c dir file names d g) (second : Resolves c dir file names d' g') :
    d = d' ∧ g = g' := by
  induction first with
  | here =>
    cases second
    exact ⟨rfl, rfl⟩
  | @down dir d file f g name rest short type entry further ih =>
    cases second with
    | down short' type' entry' further' =>
      cases tree.distinct file name _ _ reach (isName name (List.mem_cons_self ..)) short entry entry'
      exact ih (entry.reach reach) (fun other mem => isName other (List.mem_cons_of_mem _ mem)) further'

theorem Misses.unique (tree : ShortTree c) (reach : Reach c file) (isName : ∀ name ∈ names, IsName name)
    {m m' : FilePtr} {last last' : List Byte} (first : Misses c file names m last) (second : Misses c file names m' last') :
    m = m' ∧ last = last' := by
  induction first with
  | here short type absent =>
    cases second with
    | here => exact ⟨rfl, rfl⟩
    | down short' type' entry' further' => exact absurd entry' (absent _)
  | @down file f d name last rest short type entry further ih =>
    cases second with
    | here short' type' absent' => exact absurd entry (absent' _)
    | down short' type' entry' further' =>
      cases tree.distinct file name _ _ reach (isName name (List.mem_cons_self ..)) short entry entry'
      exact ih (entry.reach reach) (fun other mem => isName other (List.mem_cons_of_mem _ mem)) further'

theorem Resolves.not_misses (tree : ShortTree c) (reach : Reach c file) (isName : ∀ name ∈ names, IsName name)
    {m : FilePtr} {last : List Byte} (resolves : Resolves c dir file names d g) : ¬ Misses c file names m last := by
  induction resolves with
  | here => nofun
  | @down dir d file f g name rest short type entry further ih =>
    intro misses
    cases misses with
    | here short' type' absent => exact absent _ entry
    | down short' type' entry' further' =>
      cases tree.distinct file name _ _ reach (isName name (List.mem_cons_self ..)) short entry entry'
      exact ih (entry.reach reach) (fun other mem => isName other (List.mem_cons_of_mem _ mem)) further'

/-- What `walk_path` returns. -/
inductive Answer (c : Image) (memory : Nat → Bool) (dir : Option FilePtr) (file : FilePtr) (names : List (List Byte)) :
    Walked → Prop where
  | found {d : Option FilePtr} {g : FilePtr} (resolves : Resolves c dir file names d g) :
      Answer c memory dir file names { code := 0, dir := d, file := some g, last := [] }
  | absent {d : FilePtr} {last : List Byte} (misses : Misses c file names d last) :
      Answer c memory dir file names { code := -eNotFound, dir := some d, file := none, last := last }
  | fails {code : Word} (codes : code = -eNotFound ∨ code = -eBadPath) (unresolved : ∀ d g, ¬ Resolves c dir file names d g)
      (present : ∀ d last, ¬ Misses c file names d last) :
      Answer c memory dir file names { code := code, dir := none, file := none, last := [] }
  | noMem (out : RunsOut memory) : Answer c memory dir file names { code := -eNoMem, dir := none, file := none, last := [] }

theorem walkElements_answer (tree : ShortTree c) (reach : Reach c file) (isName : ∀ name ∈ names, IsName name)
    (whole : Solid c file names) (shows : Shows c memory s) (cached : s.cache file.block ≠ none) :
    ∃ w t, walkElements dir file names s = .ok w t ∧ Answer c memory dir file names w ∧ Shows c memory t ∧
      (∀ d, w.dir = some d → w.file = none → t.cache d.block ≠ none) ∧ ∀ g, w.file = some g → t.cache g.block ≠ none := by
  induction names generalizing dir file s with
  | nil => exact ⟨_, s, rfl, .found (.here dir file), shows, nofun, fun g same => Option.some.inj same ▸ cached⟩
  | cons name rest ih =>
    rw [walkElements]
    split
    · rename_i long
      refine ⟨_, s, rfl, .fails (.inr rfl) (fun d g resolves => ?_) (fun d last misses => ?_), shows, nofun, nofun⟩
      · cases resolves with
        | down short => exact absurd short (Nat.not_lt.mpr long)
      · cases misses with
        | here short => exact absurd short (Nat.not_lt.mpr long)
        | down short => exact absurd short (Nat.not_lt.mpr long)
    rename_i notLong
    have short := Nat.lt_of_not_le notLong
    have same : s.fType file = c.field file 33 :=
      (field_content cached 33).trans (shows.marked.field tree.toExclusive reach (by decide) (by decide))
    rw [same]
    split
    · rename_i other
      refine ⟨_, s, rfl, .fails (.inl rfl) (fun d g resolves => ?_) (fun d last misses => ?_), shows, nofun, nofun⟩
      · cases resolves with
        | down _ type => exact other type
      · cases misses with
        | here _ type => exact other type
        | down _ type => exact other type
    rename_i isDir
    have type := not_not.mp isDir
    obtain ⟨solid, further⟩ := whole short type
    have found := dirLookup_found tree.toExclusive reach type short solid shows cached
    have isName' : ∀ other ∈ rest, IsName other := fun other mem => isName other (List.mem_cons_of_mem _ mem)
    cases found' : dirLookup file name s with
    | stop cause =>
      rw [found'] at found
      cases found
    | ok f t =>
      rw [found'] at found
      cases found with
      | entry entry loads cached' =>
        obtain ⟨w, u, walked, answer, after⟩ := ih (entry.reach reach) isName' (further _ entry)
          ((shows.loads loads).marks reach entry cached') (setWord_cached cached')
        refine ⟨w, u, walked, ?_, after⟩
        cases answer with
        | found resolves => exact .found (.down short type entry resolves)
        | absent misses => exact .absent (.down short type entry misses)
        | noMem out => exact .noMem out
        | fails codes unresolved present =>
          refine .fails codes (fun d g resolves => ?_) fun d last misses => ?_
          · cases resolves with
            | down short' type' entry' further =>
              cases tree.distinct file name _ _ reach (isName name (List.mem_cons_self ..)) short entry entry'
              exact unresolved _ _ further
          · cases misses with
            | here _ _ absent => exact absent _ entry
            | down short' type' entry' further =>
              cases tree.distinct file name _ _ reach (isName name (List.mem_cons_self ..)) short entry entry'
              exact present _ _ further
    | err e t =>
      rw [found'] at found
      cases found with
      | noMem out loads =>
        refine ⟨_, t, rfl, ?_⟩
        rw [if_neg fun both => absurd both.1 (by decide)]
        exact ⟨.noMem out, shows.loads loads, nofun, nofun⟩
      | absent none loads =>
        have shows' := shows.loads loads
        have cached' := loads.cached _ cached
        refine ⟨_, t, rfl, ?_⟩
        cases rest with
        | nil =>
          rw [if_pos ⟨rfl, rfl⟩]
          exact ⟨.absent (.here short type none), shows', fun d same _ => Option.some.inj same ▸ cached', nofun⟩
        | cons next more =>
          rw [if_neg fun both => List.cons_ne_nil _ _ both.2]
          refine ⟨.fails (.inl rfl) (fun d g resolves => ?_) fun d last misses => ?_, shows', nofun, nofun⟩
          · cases resolves with
            | down _ _ entry => exact none _ entry
          · cases misses with
            | down _ _ entry => exact none _ entry

end Walk

/-- `walk_path` finds just the files of the tree that the elements of the path lead to, and where the last element is
    missing the directory in which it is, unless memory runs out for a block. -/
theorem walk_path_resolves {s : Store} (tree : DirTree s.content) (super : s.cache 1 ≠ none) (path : List Byte) :
    ∃ w t, walkPathLoop path s = .ok w t ∧
      (w.code = -eNoMem ∧ w.file = none ∧ w.dir = none ∧ (∃ k, s.memory k = false) ∨
        (∀ d g, (w.code = 0 ∧ w.dir = d ∧ w.file = some g) ↔ Resolves s.content none root (pathElements path) d g) ∧
          ∀ d last, (w.code = -eNotFound ∧ w.dir = some d ∧ w.last = last) ↔
            Misses s.content root (pathElements path) d last) := by
  have isName : ∀ name ∈ pathElements path, IsName name := fun name mem => isName_of_mem mem
  obtain ⟨w, t, walked, answer, -⟩ := walkElements_answer tree.short .ofRoot isName
    (tree.solid .ofRoot _) ⟨super, fun _ _ _ => rfl, rfl⟩ super
  refine ⟨w, t, (walkPathLoop_eq path s).trans walked, ?_⟩
  cases answer with
  | noMem out => exact .inl ⟨rfl, rfl, rfl, out⟩
  | found resolves =>
    refine .inr ⟨fun d g => ⟨?_, fun other => ?_⟩, fun d last =>
      iff_of_false (fun both => absurd both.1 (by decide : (0 : Word) ≠ -eNotFound)) ?_⟩
    · rintro ⟨-, rfl, same⟩
      cases same
      exact resolves
    · obtain ⟨rfl, rfl⟩ := resolves.unique tree.short .ofRoot isName other
      exact ⟨rfl, rfl, rfl⟩
    · exact resolves.not_misses tree.short .ofRoot isName
  | absent misses =>
    refine .inr ⟨fun d g => iff_of_false (fun both => absurd both.1 (by decide : -eNotFound ≠ 0)) fun resolves => ?_,
      fun d last => ⟨?_, fun other => ?_⟩⟩
    · exact resolves.not_misses tree.short .ofRoot isName misses
    · rintro ⟨-, same, rfl⟩
      cases same
      exact misses
    · obtain ⟨rfl, rfl⟩ := misses.unique tree.short .ofRoot isName other
      exact ⟨rfl, rfl, rfl⟩
  | fails codes unresolved present =>
    refine .inr ⟨fun d g => iff_of_false (fun both => ?_) (unresolved d g), fun d last => iff_of_false (fun both => ?_) (present d last)⟩
    · cases both.2.2
    · cases both.2.1

def smallImage : Image := fun b i =>
  match b, i with
  | 1, 0 => fsMagic
  | 1, 1 => 16
  | 1, 34 => 4096
  | 1, 35 => ftypeDir
  | 1, 36 => 3
  | 2, 0 => 0xfff0
  | _, _ => 0

/-- The server after `fs_init`, with the block of the root still on the disk. -/
def smallStore (memory : Nat → Bool) : Store :=
  { bootStore smallImage memory with cache := fun b => if b = 1 ∨ b = 2 then some (smallImage b) else none }

theorem smallStore_content (memory : Nat → Bool) : (smallStore memory).content = smallImage := by
  funext b
  unfold Store.content smallStore
  dsimp only
  split <;> rfl

theorem smallImage_zero {b : Nat} (ne : b ≠ 1) (ne' : b ≠ 2) (i : Nat) : smallImage b i = 0 := by
  unfold smallImage
  split <;> first | rfl | exact absurd rfl ne | exact absurd rfl ne'

theorem smallImage_slot {f : FilePtr} (inside : f.block = 3) (p : Option Nat) : smallImage.target f p = 0 := by
  have field : ∀ k, smallImage.field f k = 0 := fun k => by
    unfold Image.field
    rw [inside]
    exact smallImage_zero (by decide) (by decide) _
  have indirect : smallImage.indirect f = 0 := congrArg BitVec.toNat (field 44)
  cases p with
  | none => exact indirect
  | some i =>
    unfold Image.target
    dsimp only
    split
    · exact congrArg BitVec.toNat (field _)
    · rw [if_neg fun both => both.2 indirect]

theorem smallImage_root (p : Option Nat) : smallImage.target root p = if p = some 0 then 3 else 0 := by
  cases p with
  | none => rfl
  | some i =>
    by_cases direct : i < ndirect
    · have small : i < 10 := direct
      unfold Image.target
      dsimp only
      rw [if_pos direct]
      have cases_ : i = 0 ∨ i = 1 ∨ i = 2 ∨ i = 3 ∨ i = 4 ∨ i = 5 ∨ i = 6 ∨ i = 7 ∨ i = 8 ∨ i = 9 := by omega
      rcases cases_ with rfl | rfl | rfl | rfl | rfl | rfl | rfl | rfl | rfl | rfl <;> rfl
    · have positive : (some i : Option Nat) ≠ some 0 := fun same => direct (by rw [Option.some.inj same]; decide)
      rw [if_neg positive]
      exact Image.target_of_no_indirect rfl (Nat.le_of_not_lt direct)

theorem smallImage_reach {f : FilePtr} (reach : Reach smallImage f) : f = root ∨ f.block = 3 := by
  induction reach with
  | ofRoot => exact .inl rfl
  | @ofSlot dir i j reach visible held small ih =>
    rcases ih with rfl | inside
    · rw [smallImage_root] at held ⊢
      split at held
      · rename_i first
        rw [if_pos first]
        exact .inr rfl
      · exact absurd rfl held
    · exact absurd (smallImage_slot inside _) held

theorem smallImage_dir {f : FilePtr} {i : Nat} (inside : f.block = 3) : smallImage.Visible f i = False := by
  have type : smallImage.field f 33 = 0 := by
    unfold Image.field
    rw [inside]
    exact smallImage_zero (by decide) (by decide) _
  unfold Image.Visible
  rw [type]
  exact eq_false fun both => absurd both.1 (by decide)

theorem smallImage_absent {dir f : FilePtr} {name : List Byte} (reach : Reach smallImage dir) (isName : IsName name) :
    ¬ smallImage.Entry dir name f := by
  rintro ⟨i, j, visible, -, small, rfl, named⟩
  obtain ⟨c, rest, rfl, nonzero⟩ := isName
  rcases smallImage_reach reach with rfl | inside
  · have first : i = 0 := by
      have below : i < 1 := visible.2
      omega
    subst first
    rw [smallImage_root, if_pos rfl] at named
    have byte : smallImage.nameByte (fileOf 3 j) 0 = c := named 0 (Nat.zero_le _)
    unfold Image.nameByte Image.field at byte
    have zero : ∀ i, smallImage (fileOf 3 j).block i = 0 := smallImage_zero (b := 3) (by decide) (by decide)
    rw [zero] at byte
    exact nonzero byte.symm
  · rw [smallImage_dir inside] at visible
    exact visible

theorem smallImage_tree : DirTree smallImage where
  once f g p q hf hg held same := by
    have ends : ∀ {f p}, Reach smallImage f → smallImage.target f p ≠ 0 → f = root ∧ p = some 0 := by
      intro f p reach held
      rcases smallImage_reach reach with rfl | inside
      · rw [smallImage_root] at held
        exact ⟨rfl, by_contra fun no => held (if_neg no)⟩
      · exact absurd (smallImage_slot inside p) held
    obtain ⟨rfl, rfl⟩ := ends hf held
    obtain ⟨rfl, rfl⟩ := ends hg (same ▸ held)
    exact ⟨rfl, rfl⟩
  inUse f p reach held := by
    have target : smallImage.target f p = 3 := by
      rcases smallImage_reach reach with rfl | inside
      · rw [smallImage_root] at held ⊢
        exact if_pos (by_contra fun no => held (if_neg no))
      · exact absurd (smallImage_slot inside p) held
    rw [target]
    exact ⟨⟨by decide, by decide⟩, by unfold Image.Free; decide⟩
  system b below low := by
    have last : smallImage.bitmapEnd = 2 := by decide
    rw [last] at low
    unfold Image.Free
    have cases_ : b = 0 ∨ b = 1 ∨ b = 2 := by omega
    rcases cases_ with rfl | rfl | rfl <;> decide
  blocks dir i reach visible := by
    rcases smallImage_reach reach with rfl | inside
    · have first : i = 0 := by
        have below : i < 1 := visible.2
        omega
      rw [first]
      decide
    · rw [smallImage_dir inside] at visible
      exact visible.elim
  distinct dir name f g reach isName entry _ := absurd entry (smallImage_absent reach isName)

/-- Where memory never runs out, the path "a" is known to be missing in the root. -/
theorem walk_path_resolves_small : ∃ w t, walkPathLoop [0x61] (smallStore fun _ => true) = .ok w t ∧
    ∀ d last, (w.code = -eNotFound ∧ w.dir = some d ∧ w.last = last) ↔ Misses smallImage root [[0x61]] d last := by
  have content := smallStore_content fun _ => true
  obtain ⟨w, t, walked, ⟨-, -, -, k, no⟩ | ⟨-, absent⟩⟩ := walk_path_resolves (s := smallStore fun _ => true)
    (by rw [content]; exact smallImage_tree) (by simp [smallStore]) [0x61]
  · cases no
  · rw [content] at absent
    exact ⟨w, t, walked, absent⟩

/-- The same lookup when there is no memory for the block of the root. -/
theorem walk_path_no_memory : DirTree (smallStore fun _ => false).content ∧
    Misses (smallStore fun _ => false).content root (pathElements [0x61]) root [0x61] ∧
      ∃ w t, walkPathLoop [0x61] (smallStore fun _ => false) = .ok w t ∧ w.code = -eNoMem := by
  rw [smallStore_content]
  exact ⟨smallImage_tree, .here (by decide) rfl fun f => smallImage_absent .ofRoot ⟨0x61, [], rfl, by decide⟩, _, _, rfl, by decide⟩

end Mos.Fs
