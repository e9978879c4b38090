import Mos.Fs.Walk
import Mos.Lib.Bytes

namespace Mos.Format

open Fs

def nblock : Nat := 1024
def nbitblock : Nat := (nblock + blockSizeBit - 1) / blockSizeBit
def ftypeReg : Word := 0

/-- What `fsformat` finds under its arguments: each file with its name and what `read` returns of it, each directory
    with its name and what `readdir` returns, except for "." and "..". -/
inductive Forest where
  | nil
  | file (name content : List Byte) (rest : Forest)
  | dir (name : List Byte) (entries rest : Forest)

/-- The array `disk`, `super`, and `nextbno`. -/
structure Disk where
  disk : Image
  super : Page
  nextbno : Nat

namespace Disk

/-- A word of a `struct File`, which is `super.s_root` or lies in a block of `disk`. -/
def field (d : Disk) (f : FilePtr) (k : Nat) : Word :=
  if f = root then d.super (root.word + k) else d.disk f.block (f.word + k)

def setField (d : Disk) (f : FilePtr) (k : Nat) (v : Word) : Disk :=
  if f = root then { d with super := Function.update d.super (root.word + k) v }
  else { d with disk := d.disk.set f.block (f.word + k) v }

/-- Byte `k` of `f_name`. -/
def nameByte (d : Disk) (f : FilePtr) (k : Nat) : Byte := byteAt (d.disk f.block) (4 * f.word + k)

/-- The bytes are copied to `f_name`. -/
def putName (d : Disk) (f : FilePtr) (bytes : List Byte) : Disk :=
  { d with disk := Function.update d.disk f.block (setBytes (d.disk f.block) (4 * f.word) bytes) }

def read (d : Disk) (b : Nat) (bytes : List Byte) : Disk :=
  { d with disk := Function.update d.disk b (setBytes (d.disk b) 0 bytes) }

end Disk

def initDisk : Disk where
  disk b w :=
    -- the last bitmap block has no bits for blocks that are not there
    if b = 2 + (nbitblock - 1) ∧ nblock ≠ nbitblock * blockSizeBit ∧ nblock % blockSizeBit / 8 ≤ 4 * w then 0
    else if 2 ≤ b ∧ b < 2 + nbitblock then 0xffffffff
    else 0
  super w :=
    if w = 0 then fsMagic
    else if w = 1 then BitVec.ofNat 32 nblock
    else if w = root.word + 33 then ftypeDir
    else if w = root.word then 0x2f
    else 0
  nextbno := 2 + nbitblock

/-- `next_block` stores the block's type to `disk[nextbno]` and checks no bound; `none` where the store is outside
    `disk`. -/
def nextBlock (d : Disk) : Option (Nat × Disk) :=
  if d.nextbno < nblock then some (d.nextbno, { d with nextbno := d.nextbno + 1 }) else none

def saveBlockLink (f : FilePtr) (nblk bno : Nat) (d : Disk) : Option Disk :=
  if nblk < nindirect then
    if nblk < ndirect then some (d.setField f (34 + nblk) (BitVec.ofNat 32 bno))
    else
      (if d.field f 44 = 0 then (nextBlock d).map fun (b, d) => d.setField f 44 (BitVec.ofNat 32 b) else some d).map fun d =>
        { d with disk := d.disk.set (d.field f 44).toNat nblk (BitVec.ofNat 32 bno) }
  else none

/-- `save_block_link(f, nblk, next_block(type))`. -/
def linkBlock (f : FilePtr) (nblk : Nat) (d : Disk) : Option (Nat × Disk) :=
  (nextBlock d).bind fun (bno, d) => (saveBlockLink f nblk bno d).map fun d => (bno, d)

def makeLinkBlock (dirf : FilePtr) (nblk : Nat) (d : Disk) : Option (Nat × Disk) :=
  (linkBlock dirf nblk d).map fun (bno, d) => (bno, d.setField dirf 32 (d.field dirf 32 + blockSize))

/-- The block number that `create_file` finds for block `i` of the directory. -/
def blockOf (d : Disk) (dirf : FilePtr) (i : Nat) : Nat :=
  (if i < ndirect then d.field dirf (34 + i) else d.disk (d.field dirf 44).toNat i).toNat

def createFile (dirf : FilePtr) (d : Disk) : Option (FilePtr × Disk) :=
  let nblk := (d.field dirf 32).toNat / 4096
  match (List.range nblk).findSome? fun i =>
      ((List.range file2blk).find? fun j => d.nameByte (fileOf (blockOf d dirf i) j) 0 = 0).map (fileOf (blockOf d dirf i))
    with
  | some f => some (f, d)
  | none => (makeLinkBlock dirf nblk d).map fun (bno, d) => (fileOf bno 0, d)

/-- The loop of `write_file` from block `iblk` on, with `n` blocks of the file to read; then `read` returns 0. -/
def writeBlocks (target : FilePtr) (content : List Byte) : Nat → Nat → Disk → Option Disk
  | 0, _, d => some d
  | n + 1, iblk, d =>
    (linkBlock target iblk (d.read d.nextbno ((content.drop (4096 * iblk)).take 4096))).bind fun (_, d) =>
      writeBlocks target content n (iblk + 1) d

/-- `ROUND(size, BLOCK_SIZE) / BLOCK_SIZE`. -/
def blocksFor (size : Nat) : Nat := (size + 4095) / 4096

def writeFile (dirf : FilePtr) (name content : List Byte) (d : Disk) : Option Disk :=
  (createFile dirf d).bind fun (target, d) =>
    writeBlocks target content (blocksFor content.length) 0
      (((d.putName target (name ++ [0])).setField target 32 (BitVec.ofNat 32 content.length)).setField target 33 ftypeReg)

/-- `strncpy(f_name, name, MAXNAMELEN - 1)`. -/
def Disk.strncpyName (d : Disk) (f : FilePtr) (name : List Byte) : Disk :=
  d.putName f ((name ++ List.replicate (maxNameLen - 1) 0).take (maxNameLen - 1))

/-- `write_directory`, whose loop over the entries is `loop`. -/
def writeDirectory (dirf : FilePtr) (name : List Byte) (loop : FilePtr → Disk → Option Disk) (d : Disk) : Option Disk :=
  (createFile dirf d).bind fun (pdir, d) =>
    let d := d.strncpyName pdir name
    if d.nameByte pdir (maxNameLen - 1) ≠ 0 then none else loop pdir (d.setField pdir 33 ftypeDir)

/-- The loop of `write_directory` over the entries, and of `main` over its arguments. -/
def writeForest : Forest → FilePtr → Disk → Option Disk
  | .nil, _, d => some d
  | .file name content rest, dirf, d => (writeFile dirf name content d).bind (writeForest rest dirf)
  | .dir name entries rest, dirf, d => (writeDirectory dirf name (writeForest entries) d).bind (writeForest rest dirf)

def flushBitmap (d : Disk) : Disk :=
  (List.range d.nextbno).foldl (fun d i =>
    let b := 2 + i / blockSizeBit
    let w := i % blockSizeBit / 32
    { d with disk := d.disk.set b w (d.disk b w &&& ~~~((1 : Word) <<< (i % 32))) }) d

/-- The blocks that `finish_fs` writes, after it copied `super` to block 1. -/
def finishFs (d : Disk) : Image := fun b w => if b = 1 ∧ w < root.word + 64 then d.super w else d.disk b w

/-- The image that `fsformat` makes of its arguments. It makes none without arguments, and none when an assertion fails,
    the array `disk` ends or a directory's name is too long. -/
def fsformat (args : Forest) : Option Image :=
  match args with
  | .nil => none
  | args => (writeForest args root initDisk).map fun d => finishFs (flushBitmap d)

end Mos.Format
