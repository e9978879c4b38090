import Mos.Fs.Block

namespace Mos.Fs

abbrev Byte := BitVec 8

def ndirect : Nat := 10
def nindirect : Nat := 1024
def file2blk : Nat := 16
def maxNameLen : Nat := 128
def ftypeDir : Word := 1

def diskmap : Word := 0x10000000
def diskmax : Word := 0x40000000

/-- `super->s_root`. -/
def root : FilePtr := ⟨1, 2⟩

/-- The `j`-th `File` of block `b`. -/
def fileOf (b j : Nat) : FilePtr := ⟨b, 64 * j⟩

def FilePtr.va (f : FilePtr) : Word := diskmap + BitVec.ofNat 32 (4096 * f.block + 4 * f.word)

/-- The `File` that an address of the cache points to. -/
def fileAt (va : Word) : Option FilePtr :=
  let off := (va - diskmap).toNat
  if off < diskmax.toNat ∧ off % 4 = 0 ∧ off % 4096 / 4 + 64 ≤ 1024 then some ⟨off / 4096, off % 4096 / 4⟩ else none

namespace Store

def field (s : Store) (f : FilePtr) (k : Nat) : Word := s.word f.block (f.word + k)

def setField (s : Store) (f : FilePtr) (k : Nat) (v : Word) : Store := s.setWord f.block (f.word + k) v

def fSize (s : Store) (f : FilePtr) : Word := s.field f 32
def fType (s : Store) (f : FilePtr) : Word := s.field f 33
def fIndirect (s : Store) (f : FilePtr) : Word := s.field f 44
def fDir (s : Store) (f : FilePtr) : Word := s.field f 45

def nameByte (s : Store) (f : FilePtr) (k : Nat) : Byte := (s.field f (k / 4)).extractLsb' (8 * (k % 4)) 8

def setNameByte (s : Store) (f : FilePtr) (k : Nat) (c : Byte) : Store :=
  s.setField f (k / 4) ((s.field f (k / 4) &&& ~~~(0xff#32 <<< (8 * (k % 4)))) ||| c.setWidth 32 <<< (8 * (k % 4)))

/-- `strcmp(name, f->f_name) == 0`. -/
def nameIs (s : Store) (f : FilePtr) (name : List Byte) : Bool :=
  (List.range (name.length + 1)).all fun k => s.nameByte f k = (name ++ [0]).getD k 0

/-- `strcpy(f->f_name, name)`. -/
def setName (s : Store) (f : FilePtr) (name : List Byte) : Store :=
  (List.range (name.length + 1)).foldl (fun s k => s.setNameByte f k ((name ++ [0]).getD k 0)) s

/-- Block `b` becomes the file's indirect block, or its block `index`; `before` is the state before `alloc_block`. -/
def give (s before : Store) (f : FilePtr) (index : Option Nat) (b : Nat) : Store :=
  { s with given :=
      { file := f, index := index, block := b, old := before.cache b, page := s.page b,
        directory := s.fType f = ftypeDir && index.any fun i => i < (s.fSize f).toNat / 4096 } :: s.given }

end Store

def fileBlockWalk (f : FilePtr) (filebno : Nat) (alloc : Bool) (s : Store) : Res (Nat × Nat) :=
  if filebno < ndirect then .ok (f.block, f.word + (34 + filebno)) s
  else if filebno < nindirect then
    (if s.fIndirect f = 0 then
        if alloc then (allocBlock s).bind fun b s' => .ok () ((s'.give s f none b).setField f 44 (BitVec.ofNat 32 b))
        else .err (-eNotFound) s
      else .ok () s).bind fun _ s =>
    (readBlock (s.fIndirect f).toNat s).bind fun _ s => .ok ((s.fIndirect f).toNat, filebno) s
  else .err (-eInval) s

def fileMapBlock (f : FilePtr) (filebno : Nat) (alloc : Bool) (s : Store) : Res Nat :=
  (fileBlockWalk f filebno alloc s).bind fun ptr s =>
  (if s.word ptr.1 ptr.2 = 0 then
      if alloc then (allocBlock s).bind fun b s' => .ok () ((s'.give s f (some filebno) b).setWord ptr.1 ptr.2 (BitVec.ofNat 32 b))
      else .err (-eNotFound) s
    else .ok () s).bind fun _ s =>
  .ok (s.word ptr.1 ptr.2).toNat s

def fileClearBlock (f : FilePtr) (filebno : Nat) (s : Store) : Res Unit :=
  (fileBlockWalk f filebno false s).bind fun ptr s =>
  if s.word ptr.1 ptr.2 ≠ 0 then .ok () ((freeBlock (s.word ptr.1 ptr.2).toNat s).setWord ptr.1 ptr.2 0) else .ok () s

/-- The block whose address `file_get_block` stores. -/
def fileGetBlock (f : FilePtr) (filebno : Nat) (s : Store) : Res Nat :=
  (fileMapBlock f filebno true s).bind fun b s => (readBlock b s).bind fun _ s => .ok b s

def fileDirty (f : FilePtr) (offset : Word) (s : Store) : Res Unit :=
  (fileMapBlock f (offset.toNat / 4096) false s).bind fun b s => dirtyBlock b s

/-- The loop of `dir_lookup`, from block `i` on with `n` blocks to go. -/
def dirScan (dir : FilePtr) (name : List Byte) : Nat → Nat → Store → Res FilePtr
  | 0, _, s => .err (-eNotFound) s
  | n + 1, i, s => (fileGetBlock dir i s).bind fun b s =>
      match (List.range file2blk).find? fun j => s.nameIs (fileOf b j) name with
      | some j => .ok (fileOf b j) (s.setField (fileOf b j) 45 dir.va)
      | none => dirScan dir name n (i + 1) s

def dirLookup (dir : FilePtr) (name : List Byte) (s : Store) : Res FilePtr :=
  dirScan dir name ((s.fSize dir).toNat / 4096) 0 s

/-- The loop of `dir_alloc_file`, from block `i` on with `n` blocks to go, and what follows it. -/
def dirAllocScan (dir : FilePtr) : Nat → Nat → Store → Res FilePtr
  | 0, i, s => (fileGetBlock dir i (s.setField dir 32 (s.fSize dir + blockSize))).bind fun b s => .ok (fileOf b 0) s
  | n + 1, i, s => (fileGetBlock dir i s).bind fun b s =>
      match (List.range file2blk).find? fun j => s.nameByte (fileOf b j) 0 = 0 with
      | some j => .ok (fileOf b j) s
      | none => dirAllocScan dir n (i + 1) s

def dirAllocFile (dir : FilePtr) (s : Store) : Res FilePtr :=
  dirAllocScan dir ((s.fSize dir).toNat / 4096) 0 s

/-- What `walk_path` returns: its code, `*pdir`, `*pfile` and `lastelem`. -/
structure Walked where
  code : Word
  dir : Option FilePtr
  file : Option FilePtr
  last : List Byte

/-- The elements of a C string, as the loop of `walk_path` finds them between runs of slashes. -/
def pathElements (path : List Byte) : List (List Byte) := ((path.takeWhile (· ≠ 0)).splitOn 0x2f).filter (· ≠ [])

/-- The loop of `walk_path`, which stands in `file`, found in `dir`. -/
def walkElements (dir : Option FilePtr) (file : FilePtr) : List (List Byte) → Store → Res Walked
  | [], s => .ok { code := 0, dir := dir, file := some file, last := [] } s
  | name :: rest, s =>
    if maxNameLen ≤ name.length then .ok { code := -eBadPath, dir := none, file := none, last := [] } s
    else if s.fType file ≠ ftypeDir then .ok { code := -eNotFound, dir := none, file := none, last := [] } s
    else (dirLookup file name s).tested.bind fun r s =>
      match r with
      | .ok f => walkElements (some file) f rest s
      | .error r => .ok (if r = -eNotFound ∧ rest = [] then { code := r, dir := some file, file := none, last := name }
          else { code := r, dir := none, file := none, last := [] }) s

def walkPath (path : List Byte) (s : Store) : Res Walked := walkElements none root (pathElements path) s

def fileOpen (path : List Byte) (s : Store) : Res FilePtr :=
  (walkPath path s).bind fun w s =>
    match w.file with
    | some f => .ok f s
    | none => .err w.code s

def fileCreate (path : List Byte) (s : Store) : Res FilePtr :=
  (walkPath path s).bind fun w s =>
    if w.code = 0 then .err (-eFileExists) s
    else match w.dir with
      | none => .err w.code s
      | some dir =>
        if w.code ≠ -eNotFound then .err w.code s
        else (dirAllocFile dir s).bind fun f s => .ok f (s.setName f w.last)

/-- `ROUND(size, BLOCK_SIZE) / BLOCK_SIZE` in 32 bits. -/
def roundBlocks (size : Word) : Nat := ((size + (blockSize - 1)) &&& ~~~(blockSize - 1)).toNat / 4096

def panicOnClear (r : Res Unit) : Res Unit :=
  match r with
  | .err _ _ => .stop .truncate
  | r => r

/-- The last steps of `file_truncate`. -/
def dropIndirect (f : FilePtr) (s : Store) : Store :=
  if s.fIndirect f ≠ 0 then (freeBlock (s.fIndirect f).toNat s).setField f 44 0 else s

def newBlocks (newsize : Word) : Nat := if newsize = 0 then 0 else roundBlocks newsize

def fileTruncate (f : FilePtr) (newsize : Word) (s : Store) : Res Unit :=
  let old := roundBlocks (s.fSize f)
  let new := newBlocks newsize
  (Result.forRange (old - new) (fun k s => panicOnClear (fileClearBlock f (new + k) s)) s).bind fun _ s =>
    let s := if new ≤ ndirect then dropIndirect f s else s
    .ok () (s.setField f 32 newsize)

def fileFlush (f : FilePtr) (s : Store) : Res Unit :=
  Result.forRange (roundBlocks (s.fSize f)) (fun bno s =>
    (fileMapBlock f bno false s).tested.bind fun r s =>
      match r with
      | .ok b => if blockIsDirty s b then writeBlock b s else .ok () s
      | .error _ => .ok () s) s

/-- `if (f->f_dir) file_flush(f->f_dir)`. -/
def flushDir (f : FilePtr) (s : Store) : Res Unit :=
  if s.fDir f = 0 then .ok () s
  else match fileAt (s.fDir f) with
    | some dir => fileFlush dir s
    | none => .stop .wild

def fileSetSize (f : FilePtr) (newsize : Word) (s : Store) : Res Unit :=
  (if newsize < s.fSize f then fileTruncate f newsize s else .ok () s).bind fun _ s =>
    flushDir f (s.setField f 32 newsize)

def fsSync (s : Store) : Res Unit :=
  Result.forRange s.nblocks (fun i s => if blockIsDirty s i then writeBlock i s else .ok () s) s

/-- The loop of `file_close` over the blocks of the directory, from block `i` on with `n` blocks to go. -/
def closeScan (dir f : FilePtr) : Nat → Nat → Store → Res Unit
  | 0, _, s => .ok () s
  | n + 1, i, s => (fileMapBlock dir i false s).tested.bind fun r s =>
      match r with
      | .error _ => .ok () s
      | .ok b => (readBlock b s).tested.bind fun r s =>
          match r with
          | .error _ => .ok () s
          | .ok _ => if f.block = b then (dirtyBlock b s).tested.bind fun _ s => .ok () s else closeScan dir f n (i + 1) s

def fileClose (f : FilePtr) (s : Store) : Res Unit :=
  (fileFlush f s).bind fun _ s =>
    if s.fDir f = 0 then .ok () s
    else match fileAt (s.fDir f) with
      | some dir => (closeScan dir f ((s.fSize dir).toNat / 4096) 0 s).bind fun _ s =>
          -- `f->f_dir` is loaded again
          flushDir f s
      | none => .stop .wild

def fileRemove (path : List Byte) (s : Store) : Res Unit :=
  (walkPath path s).bind fun w s =>
    match w.file with
    | none => .err w.code s
    | some f => (fileTruncate f 0 s).bind fun _ s =>
        (fileFlush f (s.setNameByte f 0 0)).bind fun _ s => flushDir f s

end Mos.Fs
