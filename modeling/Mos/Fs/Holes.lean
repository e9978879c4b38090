import Mos.Fs.Builds

namespace Mos.Fs

variable {s t u : Store} {f d dir : FilePtr} {i k : Nat} {name : List Byte}

section Hole

/-- Where the file has no block `i`, `file_get_block` attaches one: its first call of `alloc_block` succeeds. -/
def Attaches (f : FilePtr) (i : Nat) (s : Store) : Prop :=
  i < nindirect ∧
    if ndirect ≤ i ∧ s.fIndirect f = 0 then ∃ b t, allocBlock s = .ok b t
    else ∃ ptr t b u, fileBlockWalk f i true s = .ok ptr t ∧ allocBlock t = .ok b u

structure HoleAt (d : FilePtr) (i : Nat) (s : Store) : Prop where
  super : s.cache 1 ≠ none
  file : s.cache d.block ≠ none
  place : d = root ∨ d.block ≠ 1 ∧ d.word % 64 = 0
  plain : ¬ s.content.IsBitmap d.block
  indirect : s.content.indirect d ≠ 0 → s.content.IsData (s.content.indirect d)
  empty : s.content.target d (some i) = 0

theorem fileBlockWalk_alloc (ready : ¬ (ndirect ≤ i ∧ s.fIndirect f = 0)) :
    fileBlockWalk f i true s = fileBlockWalk f i false s := by
  unfold fileBlockWalk
  by_cases low : i < ndirect
  · rw [if_pos low, if_pos low]
  · have some : s.fIndirect f ≠ 0 := fun zero => ready ⟨Nat.le_of_not_lt low, zero⟩
    rw [if_neg low, if_neg low, if_neg some, if_neg some]

theorem HoleAt.walk (hole : HoleAt d i s) (ready : ¬ (ndirect ≤ i ∧ s.fIndirect d = 0)) :
    (fileBlockWalk d i true s).Meets
      (fun ptr t => Read s t ∧ s.content.HasCell d (some i) ∧ ptr = s.content.cell d (some i) ∧ t.cache ptr.1 ≠ none ∧
        t.word ptr.1 ptr.2 = 0) (Read s) fun _ => True := by
  rw [fileBlockWalk_alloc ready]
  refine (fileBlockWalk_findable i hole.file).mono (fun ptr t found => ?_) (fun _ found => found.1) fun _ _ => trivial
  obtain ⟨read, has, rfl, there, -⟩ := found
  refine ⟨read, has, rfl, there, ?_⟩
  rw [word_content there, read.content]
  exact (Image.target_word has).mp hole.empty

theorem cell_of_place {p : Option Nat} (hole : HoleAt d i s) (has : s.content.HasCell d p) :
    ¬ s.content.IsBitmap (s.content.cell d p).1 ∧ s.content.cell d p ≠ (1, 34) ∧
      ((s.content.cell d p).2 % 64 = 32 → ∃ k, p = some k ∧ ndirect ≤ k) := by
  have file : ∀ k, 34 ≤ k → k < 45 → (d.block, d.word + k) ≠ (1, 34) ∧ (d.word + k) % 64 ≠ 32 := by
    intro k low high
    rcases hole.place with rfl | ⟨block, word⟩
    · refine ⟨fun same => ?_, ?_⟩
      · have at_word : 2 + k = 34 := congrArg Prod.snd same
        omega
      · show (2 + k) % 64 ≠ 32
        omega
    · exact ⟨fun same => block (congrArg Prod.fst same), by omega⟩
  cases p with
  | none => exact ⟨hole.plain, (file 44 (by decide) (by decide)).1, fun no => absurd no (file 44 (by decide) (by decide)).2⟩
  | some k =>
    unfold Image.cell
    by_cases low : k < ndirect
    · have small : k < 10 := low
      have words := file (34 + k) (by omega) (by omega)
      simp only [if_pos low]
      exact ⟨hole.plain, words.1, fun no => absurd no words.2⟩
    · have data := hole.indirect (has.resolve_left low).2
      have two := s.content.two_le_bitmapEnd
      have above := data.1
      simp only [if_neg low]
      refine ⟨IsData.not_bitmap data, fun same => ?_, fun _ => ⟨k, rfl, Nat.le_of_not_lt low⟩⟩
      have one : s.content.indirect d = 1 := congrArg Prod.fst same
      omega

theorem fileGetBlock_attaches (hole : HoleAt d i s) (disk : s.content.nblocks ≤ 0x40000) (attaches : Attaches d i s) :
    ∃ p t, s.content.target d p = 0 ∧ Pinned 0x40000 d p t ∧ Builds s t ∧ (fileGetBlock d i s).Leaves (Builds t) fun _ => True := by
  obtain ⟨inside, got⟩ := attaches
  have pins : ∀ {p : Option Nat} {t : Store} {b : Nat}, Builds s t → s.content.HasCell d p → t.cache (s.content.cell d p).1 ≠ none →
      t.content (s.content.cell d p).1 (s.content.cell d p).2 = BitVec.ofNat 32 b → b ≠ 0 → b < s.content.nblocks →
      Pinned 0x40000 d p t := by
    intro p t b builds has there word some below
    obtain ⟨apart, firm, -⟩ := cell_of_place hole has
    have bitmap : ∀ {x}, t.content.IsBitmap x ↔ s.content.IsBitmap x := Image.IsBitmap.of_nblocks builds.nblocks
    have indirect : s.content.indirect d ≠ 0 → t.content.indirect d = s.content.indirect d := fun some =>
      congrArg BitVec.toNat (builds.same d.block (d.word + 44) hole.plain hole.file (fun zero => some (congrArg BitVec.toNat zero))
        (place_word hole.place).1)
    obtain ⟨cell, has'⟩ := Image.cell_congr indirect has
    have target : t.content.target d p = b := by
      rw [Image.target_cell has', cell, word, BitVec.toNat_ofNat, Nat.mod_eq_of_lt (by omega)]
    refine ⟨hole.place, builds.cached _ hole.file, fun no => hole.plain (bitmap.mp no), has', ?_, ?_, ?_, fun _ => ?_, ?_⟩
    · rw [cell]
      exact there
    · rw [cell, bitmap]
      exact apart
    · rw [cell]
      exact firm
    · rw [target]
      omega
    · rw [target]
      exact some
  by_cases lacks : ndirect ≤ i ∧ s.fIndirect d = 0
  · rw [if_pos lacks] at got
    obtain ⟨b, t, run⟩ := got
    obtain ⟨high, zero⟩ := lacks
    obtain ⟨builds, nonzero, below, word⟩ := attached_builds (p := none) (f := d) hole.super hole.file zero run
    have empty : s.content.target d none = 0 := congrArg BitVec.toNat ((field_content hole.file 44).symm.trans zero)
    have pinned : Pinned 0x40000 d none ((t.give s d none b).setField d 44 (BitVec.ofNat 32 b)) :=
      pins builds trivial (builds.cached _ hole.file) word nonzero below
    refine ⟨none, _, empty, pinned, builds, ?_⟩
    -- the search goes on as if the indirect block had been there
    have there : ((t.give s d none b).setField d 44 (BitVec.ofNat 32 b)).fIndirect d ≠ 0 := by
      rw [show Store.fIndirect _ d = _ from field_content pinned.file 44]
      exact fun zero => pinned.held (congrArg BitVec.toNat zero)
    have same : fileGetBlock d i s = fileGetBlock d i ((t.give s d none b).setField d 44 (BitVec.ofNat 32 b)) := by
      unfold fileGetBlock fileMapBlock fileBlockWalk
      rw [if_neg (Nat.not_lt.mpr high), if_neg (Nat.not_lt.mpr high), if_pos inside, if_pos inside, if_pos zero, if_pos rfl,
        if_neg there, run]
      rfl
    rw [same]
    exact (fileGetBlock_builds (builds.cached 1 hole.super) (builds.cached _ hole.file) i).mono (fun _ _ got => got.1)
      (fun _ h => h) fun _ h => h
  · rw [if_neg lacks] at got
    obtain ⟨ptr, t, b, u, walked, run⟩ := got
    have walk := hole.walk lacks
    rw [walked] at walk
    obtain ⟨read, has, rfl, there, zero⟩ := walk
    obtain ⟨builds, nonzero, below, word⟩ := attached_builds (p := some i) (f := d) (read.cached 1 hole.super) there zero run
    rw [read.content] at below
    refine ⟨some i, _, hole.empty, pins (read.builds.trans builds) has (builds.cached _ there) word nonzero below,
      read.builds.trans builds, ?_⟩
    · have mapped : fileMapBlock d i true s = .ok
          (((u.give t d (some i) b).setWord (s.content.cell d (some i)).1 (s.content.cell d (some i)).2
            (BitVec.ofNat 32 b)).word (s.content.cell d (some i)).1 (s.content.cell d (some i)).2).toNat
          ((u.give t d (some i) b).setWord (s.content.cell d (some i)).1 (s.content.cell d (some i)).2
            (BitVec.ofNat 32 b)) := by
        rw [fileMapBlock, walked, Result.ok_bind, if_pos zero, if_pos rfl, run]
        rfl
      rw [fileGetBlock, mapped, Result.ok_bind]
      refine ((readBlock_builds _ _).mono (fun _ _ h => h) (fun _ h => h) fun _ h => h).bind fun _ _ after => after.1

theorem fileGetBlock_refused (hole : HoleAt d i s) (refused : ¬ Attaches d i s) :
    (fileGetBlock d i s).Meets (fun _ _ => False) (Read s) fun _ => True := by
  by_cases inside : i < nindirect
  · by_cases lacks : ndirect ≤ i ∧ s.fIndirect d = 0
    · have failed := allocBlock_refused s
      rw [fileGetBlock, fileMapBlock, fileBlockWalk, if_neg (Nat.not_lt.mpr lacks.1), if_pos inside, if_pos lacks.2, if_pos rfl]
      cases run : allocBlock s with
      | ok b t => exact (refused ⟨inside, by rw [if_pos lacks]; exact ⟨b, t, run⟩⟩).elim
      | err r t =>
        rw [run] at failed
        exact failed
      | stop cause => trivial
    · have walk := hole.walk lacks
      rw [fileGetBlock, fileMapBlock]
      cases walked : fileBlockWalk d i true s with
      | stop cause => trivial
      | err r t =>
        rw [walked] at walk
        exact walk
      | ok ptr t =>
        rw [walked] at walk
        obtain ⟨read, -, -, -, zero⟩ := walk
        have failed := allocBlock_refused t
        rw [Result.ok_bind, if_pos zero, if_pos rfl]
        cases run : allocBlock t with
        | ok b u => exact (refused ⟨inside, by rw [if_neg lacks]; exact ⟨ptr, t, b, u, walked, run⟩⟩).elim
        | err r u =>
          rw [run] at failed
          exact read.trans failed
        | stop cause => trivial
  · have high : ¬ i < ndirect := fun low => inside (Nat.lt_trans low (by decide))
    rw [fileGetBlock, fileMapBlock, fileBlockWalk, if_neg high, if_neg inside]
    exact Read.refl s

theorem fileGetBlock_codes (f : FilePtr) (i : Nat) (s : Store) : (fileGetBlock f i s).Codes (· ≠ -eNotFound) :=
  (fileMapBlock_codes (by decide) (by decide) nofun (fun _ => by decide) f s).bind fun b t =>
    (readBlock_codes (by decide) b t).bind fun _ _ => trivial

theorem dirScan_split (dir : FilePtr) (name : List Byte) (n k i : Nat) (s : Store) :
    dirScan dir name (k + n) i s =
      match dirScan dir name k i s with
      | .err e t => if e = -eNotFound then dirScan dir name n (i + k) t else .err e t
      | r => r := by
  induction k generalizing i s with
  | zero =>
    rw [Nat.zero_add, Nat.add_zero]
    exact (if_pos rfl).symm
  | succ k ih =>
    have codes := fileGetBlock_codes dir i s
    rw [show k + 1 + n = k + n + 1 by omega, dirScan, dirScan]
    cases got : fileGetBlock dir i s with
    | stop cause => rfl
    | err e t =>
      rw [got] at codes
      exact (if_neg codes).symm
    | ok b t =>
      simp only [Result.ok_bind]
      cases (List.range file2blk).find? fun j => t.nameIs (fileOf b j) name with
      | some j => rfl
      | none =>
        dsimp only
        rw [ih, show i + 1 + k = i + (k + 1) by omega]

variable {at_dir : Option FilePtr} {file g : FilePtr} {pre rest names : List (List Byte)} {w : Walked}

theorem walkElements_file (walked : walkElements at_dir file pre s = .ok w t) (found : w.file = some g) (rest : List (List Byte)) :
    walkElements at_dir file (pre ++ rest) s = walkElements w.dir g rest t := by
  induction pre generalizing at_dir file s with
  | nil =>
    cases walked
    cases found
    rfl
  | cons name pre ih =>
    rw [List.cons_append]
    rw [walkElements] at walked ⊢
    split at walked
    · cases walked
      cases found
    · rename_i short
      rw [if_neg short]
      split at walked
      · cases walked
        cases found
      · rename_i type
        rw [if_neg type]
        cases looked : dirLookup file name s with
        | stop cause =>
          rw [looked] at walked
          cases walked
        | ok f u =>
          rw [looked] at walked
          exact ih walked
        | err e u =>
          rw [looked] at walked
          cases walked
          split at found <;> cases found

/-- A walk that fails in its first elements otherwise than for a missing name fails so. -/
theorem walkElements_stopped (walked : walkElements at_dir file pre s = .ok w t) (none : w.file = none)
    (code : w.code ≠ -eNotFound) (rest : List (List Byte)) : walkElements at_dir file (pre ++ rest) s = .ok w t := by
  induction pre generalizing at_dir file s with
  | nil =>
    cases walked
    cases none
  | cons name pre ih =>
    rw [List.cons_append]
    rw [walkElements] at walked ⊢
    split at walked
    · rename_i long
      rw [if_pos long]
      exact walked
    · rename_i short
      rw [if_neg short]
      split at walked
      · rename_i type
        rw [if_pos type]
        exact walked
      · rename_i type
        rw [if_neg type]
        cases looked : dirLookup file name s with
        | stop cause =>
          rw [looked] at walked
          cases walked
        | ok f u =>
          rw [looked] at walked
          exact ih walked
        | err e u =>
          rw [looked] at walked
          have other : e ≠ -eNotFound := by
            rintro rfl
            cases walked
            split at code <;> exact code rfl
          have plain : ∀ {P : Prop}, ¬ (e = -eNotFound ∧ P) := fun both => other both.1
          refine Eq.trans ?_ walked
          show Result.ok _ u = Result.ok _ u
          rw [if_neg plain, if_neg plain]

end Hole

section FirstHole

variable {c : Image} {memory : Nat → Bool} {file g : FilePtr} {at_dir : Option FilePtr} {pre rest names : List (List Byte)}
  {w : Walked}

/-- The names `pre` lead to the directory `d`, and there the search for `name` comes to the first hole, block `i`. -/
structure FirstHole (c : Image) (at_dir : Option FilePtr) (file : FilePtr) (pre : List (List Byte)) (name : List Byte)
    (d : FilePtr) (i : Nat) : Prop where
  solid : Solid c file pre
  leads : ∃ at_dir', Resolves c at_dir file pre at_dir' d
  short : name.length < maxNameLen
  type : c.field d 33 = ftypeDir
  scanned : c.Scanned d name i
  earlier : ∀ i', i' < i → c.target d (some i') ≠ 0
  empty : c.target d (some i) = 0

theorem exists_firstHole (tree : ShortTree c) (reach : Reach c file) (isName : ∀ name ∈ names, IsName name)
    (hole : ¬ Solid c file names) (at_dir : Option FilePtr) :
    ∃ pre name rest d i, names = pre ++ name :: rest ∧ FirstHole c at_dir file pre name d i := by
  induction names generalizing file at_dir with
  | nil => exact absurd trivial hole
  | cons name rest ih =>
    obtain ⟨short, hole⟩ := Classical.not_imp.mp hole
    obtain ⟨type, hole⟩ := Classical.not_imp.mp hole
    by_cases here : ∀ i, c.Scanned file name i → c.target file (some i) ≠ 0
    · obtain ⟨g, further⟩ := not_forall.mp fun further => hole ⟨here, further⟩
      obtain ⟨entry, further⟩ := Classical.not_imp.mp further
      obtain ⟨pre, name', rest', d, i, rfl, first⟩ := ih (entry.reach reach)
        (fun other mem => isName other (List.mem_cons_of_mem _ mem)) further (some file)
      refine ⟨name :: pre, name', rest', d, i, rfl, fun _ _ => ⟨here, fun g' entry' => ?_⟩, ?_, first.short, first.type, first.scanned,
        first.earlier, first.empty⟩
      · cases tree.distinct file name _ _ reach (isName name (List.mem_cons_self ..)) short entry entry'
        exact first.solid
      · obtain ⟨at_dir', leads⟩ := first.leads
        exact ⟨at_dir', .down short type entry leads⟩
    · have some : ∃ i, c.Scanned file name i ∧ c.target file (Option.some i) = 0 := by
        by_contra no
        exact here fun i scanned zero => no ⟨i, scanned, zero⟩
      classical
      obtain ⟨scanned, empty⟩ := Nat.find_spec some
      refine ⟨[], name, rest, file, Nat.find some, rfl, trivial, ⟨at_dir, .here at_dir file⟩, short, type, scanned,
        fun i' below zero => Nat.find_min some below ⟨⟨⟨type, ?_⟩, fun i'' j less => ?_⟩, zero⟩, empty⟩
      · exact Nat.lt_trans below scanned.1.2
      · exact scanned.2 i'' j (Nat.lt_trans less below)

theorem dirScan_absent (own : Exclusive c) (reach : Reach c dir) (type : c.field dir 33 = ftypeDir)
    (short : name.length < maxNameLen) (n i : Nat) (inside : i + n ≤ (c.field dir 32).toNat / 4096)
    (solid : ∀ i', i' < i + n → c.target dir (some i') ≠ 0)
    (absent : ∀ i' j, i' < i + n → j < file2blk → ¬ c.NameAt (fileOf (c.target dir (some i')) j) name)
    (shows : Shows c memory s) (cached : s.cache dir.block ≠ none) :
    (∃ t, dirScan dir name n i s = .err (-eNotFound) t ∧ Shows c memory t ∧ t.cache dir.block ≠ none) ∨
      ∃ t, dirScan dir name n i s = .err (-eNoMem) t ∧ Shows c memory t := by
  induction n generalizing i s with
  | zero => exact .inl ⟨s, rfl, shows, cached⟩
  | succ n ih =>
    have held := solid i (by omega)
    rw [dirScan]
    rcases fileGetBlock_loads own shows reach cached held with ⟨t, got, loads, there⟩ | ⟨t, got, loads, -⟩
    · have shows' := shows.loads loads
      rw [got, Result.ok_bind]
      split
      · rename_i j found
        have small := List.mem_range.mp (List.mem_of_find?_eq_some found)
        have named : t.nameIs (fileOf (c.target dir (some i)) j) name = true := by simpa using List.find?_some found
        have slot : Reach c (fileOf (c.target dir (some i)) j) := .ofSlot reach ⟨type, by omega⟩ held small
        exact absurd ((nameIs_iff own shows' slot there short).mp named) (absent i j (by omega) small)
      · exact ih (i + 1) (by omega) (fun i' below => solid i' (by omega)) (fun i' j below => absent i' j (by omega)) shows'
          (loads.cached _ cached)
    · rw [got]
      exact .inr ⟨t, rfl, shows.loads loads⟩

theorem Resolves.reach {d' : Option FilePtr} (reach : Reach c file) (resolves : Resolves c at_dir file names d' g) : Reach c g := by
  induction resolves with
  | here => exact reach
  | down short type entry further ih => exact ih (entry.reach reach)

theorem Shows.field (own : Exclusive c) (shows : Shows c memory s) (reach : Reach c d) (cached : s.cache d.block ≠ none)
    (small : k < 64) (plain : k ≠ 45) : s.field d k = c.field d k :=
  (field_content cached k).trans (shows.marked.field own reach small plain)

theorem Shows.holeAt (exclusive : Exclusive c) (shows : Shows c memory s) (reach : Reach c d) (cached : s.cache d.block ≠ none)
    (empty : c.target d (some i) = 0) : HoleAt d i s := by
  have nblocks := shows.marked.nblocks exclusive
  have bitmap : ∀ {x}, s.content.IsBitmap x ↔ c.IsBitmap x := Image.IsBitmap.of_nblocks nblocks
  have two := c.two_le_bitmapEnd
  have placed : d = root ∨ c.IsData d.block ∧ d.word % 64 = 0 := by
    cases reach with
    | ofRoot => exact .inl rfl
    | @ofSlot dir i' j reach visible held small => exact .inr ⟨(exclusive.inUse dir (some i') reach held).1, Nat.mul_mod_right 64 j⟩
  refine ⟨shows.super, cached, placed.imp id fun both => ⟨?_, both.2⟩, fun no => ?_, fun held => ?_, ?_⟩
  · have low := both.1.1
    omega
  · rcases placed with rfl | both
    · exact one_plain _ no
    · exact IsData.not_bitmap both.1 (bitmap.mp no)
  · have same : s.content.indirect d = c.indirect d := shows.marked.target exclusive reach none
    rw [same] at held ⊢
    exact (Image.IsData.of_nblocks nblocks).mpr (exclusive.inUse d none reach held).1
  · rw [shows.marked.target exclusive reach]
    exact empty

/-- The walk comes to the hole in the store `u`, after it has found `d` in the store `t`. -/
structure Comes (at_dir : Option FilePtr) (file : FilePtr) (pre : List (List Byte)) (name : List Byte) (d : FilePtr) (i : Nat)
    (s : Store) (w : Walked) (t u : Store) : Prop where
  walked : walkElements at_dir file pre s = .ok w t
  found : w.file = some d
  scan : dirScan d name i 0 t = .err (-eNotFound) u

theorem walkElements_lookup (walked : walkElements at_dir file pre s = .ok w t) (found : w.file = some d)
    (short : name.length < maxNameLen) (type : t.fType d = ftypeDir) (rest : List (List Byte)) :
    walkElements at_dir file (pre ++ name :: rest) s = (dirLookup d name t).tested.bind fun r u =>
      match r with
      | .ok f => walkElements (some d) f rest u
      | .error r => .ok (if r = -eNotFound ∧ rest = [] then { code := r, dir := some d, file := none, last := name }
          else { code := r, dir := none, file := none, last := [] }) u :=
  (walkElements_file walked found _).trans ((if_neg (Nat.not_le.mpr short)).trans (if_neg (not_not.mpr type)))

/-- A lookup that fails otherwise than for a missing name ends the walk. -/
theorem walkElements_failed {e : Word} (walked : walkElements at_dir file pre s = .ok w t) (found : w.file = some d)
    (short : name.length < maxNameLen) (type : t.fType d = ftypeDir) (failed : dirLookup d name t = .err e u) (other : e ≠ -eNotFound)
    (rest : List (List Byte)) :
    walkElements at_dir file (pre ++ name :: rest) s = .ok { code := e, dir := none, file := none, last := [] } u := by
  rw [walkElements_lookup walked found short type, failed]
  show Result.ok _ u = _
  rw [if_neg fun both => other both.1]

theorem FirstHole.scan (hole : FirstHole c at_dir file pre name d i) (size : t.fSize d = c.field d 32) :
    ∃ k, dirLookup d name t = match dirScan d name i 0 t with
      | .err e u => if e = -eNotFound then dirScan d name (k + 1) i u else .err e u
      | r => r := by
  have inside := hole.scanned.1.2
  refine ⟨(c.field d 32).toNat / 4096 - i - 1, ?_⟩
  have whole : (c.field d 32).toNat / 4096 = i + ((c.field d 32).toNat / 4096 - i - 1 + 1) := by omega
  rw [dirLookup, size]
  conv_lhs => rw [whole]
  rw [dirScan_split, Nat.zero_add]

theorem FirstHole.comes (tree : ShortTree c) (reach : Reach c file) (isName : ∀ name ∈ pre, IsName name)
    (hole : FirstHole c at_dir file pre name d i) (shows : Shows c memory s) (cached : s.cache file.block ≠ none) :
    (∃ w t u, Comes at_dir file pre name d i s w t u) ∨
      ∃ t, Shows c memory t ∧ ∀ rest, walkElements at_dir file (pre ++ name :: rest) s =
        .ok { code := -eNoMem, dir := none, file := none, last := [] } t := by
  obtain ⟨at_dir', leads⟩ := hole.leads
  have reach' := leads.reach reach
  obtain ⟨w, t, walked, answer, shows', -, found⟩ := walkElements_answer tree reach isName hole.solid shows cached
  cases answer with
  | absent misses => exact absurd misses (leads.not_misses tree reach isName)
  | fails codes unresolved present => exact absurd leads (unresolved _ _)
  | noMem out =>
    exact .inr ⟨t, shows', fun rest => walkElements_stopped walked rfl (by decide : -eNoMem ≠ -eNotFound) _⟩
  | @found d' g resolves =>
    obtain ⟨rfl, rfl⟩ := leads.unique tree reach isName resolves
    have there := found d rfl
    have inside := hole.scanned.1.2
    rcases dirScan_absent tree.toExclusive reach' hole.type hole.short i 0 (by omega) (fun i' below => hole.earlier i' (by omega))
      (fun i' j below => hole.scanned.2 i' j (by omega)) shows' there with ⟨u, scan, -⟩ | ⟨u, scan, shown⟩
    · exact .inl ⟨_, t, u, walked, rfl, scan⟩
    · obtain ⟨k, lookup⟩ := hole.scan (shows'.field tree.toExclusive reach' there (by decide) (by decide) : t.fSize d = _)
      rw [scan] at lookup
      exact .inr ⟨u, shown, fun rest => walkElements_failed walked rfl hole.short
        (((shows'.field tree.toExclusive reach' there (by decide) (by decide) : t.fType d = _)).trans hole.type) lookup (by decide) rest⟩

theorem Comes.shows (tree : ShortTree c) (reach : Reach c file) (isName : ∀ name ∈ pre, IsName name)
    (hole : FirstHole c at_dir file pre name d i) (shows : Shows c memory s) (cached : s.cache file.block ≠ none)
    (comes : Comes at_dir file pre name d i s w t u) :
    Reach c d ∧ t.fType d = ftypeDir ∧ Shows c memory u ∧ u.cache d.block ≠ none ∧
      ∃ k, dirLookup d name t = dirScan d name (k + 1) i u := by
  obtain ⟨at_dir', leads⟩ := hole.leads
  have reach' := leads.reach reach
  obtain ⟨w', t', walked, -, shows', -, found⟩ := walkElements_answer tree reach isName hole.solid shows cached
  cases comes.walked.symm.trans walked
  have there := found d comes.found
  have inside := hole.scanned.1.2
  refine ⟨reach', (shows'.field tree.toExclusive reach' there (by decide) (by decide) : t.fType d = _).trans hole.type, ?_⟩
  rcases dirScan_absent tree.toExclusive reach' hole.type hole.short i 0 (by omega) (fun i' below => hole.earlier i' (by omega))
    (fun i' j below => hole.scanned.2 i' j (by omega)) shows' there with ⟨u', scan, shown, here⟩ | ⟨u', scan, -⟩
  · cases comes.scan.symm.trans scan
    obtain ⟨k, lookup⟩ := hole.scan (shows'.field tree.toExclusive reach' there (by decide) (by decide) : t.fSize d = _)
    rw [scan] at lookup
    exact ⟨shown, here, k, lookup.trans (if_pos rfl)⟩
  · have codes := comes.scan.symm.trans scan
    cases codes

theorem walkElements_pinned {v : Store} (disk : u.content.nblocks ≤ 0x40000) (standing : Standing u d) (super : u.cache 1 ≠ none)
    (builds : Builds u v) (filled : (fileGetBlock d i u).Leaves (Builds v) fun _ => True)
    (walked : walkElements at_dir file pre s = .ok w t) (found : w.file = some d) (short : name.length < maxNameLen)
    (type : t.fType d = ftypeDir) (lookup : dirLookup d name t = dirScan d name (k + 1) i u) (rest : List (List Byte)) :
    (walkElements at_dir file (pre ++ name :: rest) s).Meets
      (fun w z => Builds v z ∧ ∀ d', w.code = -eNotFound → w.dir = some d' → Standing z d') (fun _ => False) fun _ => True := by
  have disk' : v.content.nblocks ≤ 0x40000 := builds.nblocks ▸ disk
  have scan : (dirScan d name (k + 1) i u).Meets (fun g z => Builds v z ∧ Standing z g) (Builds v) fun _ => True := by
    rw [dirScan]
    refine ((fileGetBlock_builds super standing.cached i).also filled).bind fun b z got => ?_
    obtain ⟨⟨-, there, below⟩, filled⟩ := got
    rw [filled.nblocks] at below
    split
    · rename_i j hit
      have small := List.mem_range.mp (List.mem_of_find?_eq_some hit)
      exact ⟨filled.trans (builds_mark there standing.va), setWord_cached there, fileOf_va (Nat.lt_of_lt_of_le below disk') small,
        .inr (Nat.mul_mod_right 64 j)⟩
    · exact (dirScan_builds (filled.cached 1 (builds.cached 1 super)) (filled.nblocks ▸ disk')
        ((standing.builds builds).builds filled) k (i + 1)).mono (fun _ _ after => ⟨filled.trans after.1, after.2⟩)
        (fun _ more => filled.trans more) fun _ h => h
  rw [walkElements_lookup walked found short type, lookup]
  refine (Result.Meets.tested scan).bind fun r z after => ?_
  cases r with
  | ok g =>
    obtain ⟨filled, stands⟩ := after
    exact (walkElements_builds (filled.cached 1 (builds.cached 1 super)) (filled.nblocks ▸ disk') stands rest (some d)).mono
      (fun _ _ after => ⟨filled.trans after.1, after.2⟩) (fun _ no => no) fun _ h => h
  | error r =>
    have filled : Builds v z := after
    dsimp only
    split
    · exact ⟨filled, fun d' _ same => Option.some.inj same ▸ (standing.builds builds).builds filled⟩
    · exact ⟨filled, fun _ _ same => by cases same⟩

end FirstHole

end Mos.Fs
