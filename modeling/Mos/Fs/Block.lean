import Mos.Kern.Mmu
import Mos.Lib.Outcome
import Mathlib.Logic.Function.Basic

namespace Mos.Fs

def blockSize : Word := 4096
def blockSizeBit : Nat := 32768
def eNoDisk : Word := 8
def eMaxOpen : Word := 9
def eNotFound : Word := 10
def eBadPath : Word := 11
def eFileExists : Word := 12
def eNotADir : Word := 14

abbrev Page := Nat → Word

def zeroPage : Page := fun _ => 0

/-- The blocks of a disk. -/
abbrev Image := Nat → Page

/-- Why the file server does not go on: `truncate` is the `panic_on` of `file_clear_block`, `wild` a `f_dir` that
    points to no `File` of the cache. -/
inductive Stop where
  | truncate
  | panic
  | wild
deriving DecidableEq

structure FilePtr where
  block : Nat
  word : Nat
deriving DecidableEq

/-- A record of a block that `alloc_block` gave to a file: as its indirect block when `index` is `none`, else as
    its block `index`. `old` and `page` are the contents of the block in the cache before `alloc_block` and when the
    file gets it, and `directory` says that the block is one of a directory's. -/
structure Given where
  file : FilePtr
  index : Option Nat
  block : Nat
  old : Option Page
  page : Page
  directory : Bool

/-- The disk and its cache. `memory n` says whether the n-th `syscall_mem_alloc` finds a page. -/
structure Store where
  cache : Nat → Option Page
  dirty : Nat → Bool
  disk : Nat → Page
  memory : Nat → Bool
  asked : Nat
  given : List Given

abbrev Res := Result Store Word Stop

namespace Store

/-- A page that is not mapped reads as zeros, as the kernel maps a zeroed page when it is first touched. -/
def page (s : Store) (b : Nat) : Page := (s.cache b).getD zeroPage

/-- A block as the server sees it: in the cache, or on the disk when it is not cached. -/
def content (s : Store) : Image := fun b => (s.cache b).getD (s.disk b)

def word (s : Store) (b i : Nat) : Word := s.page b i

def setWord (s : Store) (b i : Nat) (v : Word) : Store :=
  { s with cache := Function.update s.cache b (some (Function.update (s.page b) i v)) }

/-- `super->s_nblocks`. -/
def nblocks (s : Store) : Nat := (s.word 1 1).toNat

def bitmapBlock (b : Nat) : Nat := 2 + b / 32 / 1024

def bitmapWord (b : Nat) : Nat := b / 32 % 1024

def bitmapBit (b : Nat) : Word := 1 <<< (b % 32)

/-- `bitmap[b / 32]`. -/
def bitmap (s : Store) (b : Nat) : Word := s.word (bitmapBlock b) (bitmapWord b)

def setBitmap (s : Store) (b : Nat) (v : Word) : Store := s.setWord (bitmapBlock b) (bitmapWord b) v

end Store

theorem bitmapBlock_ne {b : Nat} (data : 3 ≤ b) : Store.bitmapBlock b ≠ b := by
  unfold Store.bitmapBlock
  omega

def sysMemAlloc (b : Nat) (s : Store) : Res Unit :=
  if s.memory s.asked then
    .ok () { s with cache := Function.update s.cache b (some zeroPage), dirty := Function.update s.dirty b false,
                    asked := s.asked + 1 }
  else .err (-eNoMem) { s with asked := s.asked + 1 }

def blockIsDirty (s : Store) (b : Nat) : Bool := (s.cache b).isSome && s.dirty b

def dirtyBlock (b : Nat) (s : Store) : Res Unit :=
  match s.cache b with
  | none => .err (-eNotFound) s
  | some _ => .ok () { s with dirty := Function.update s.dirty b true }

def writeBlock (b : Nat) (s : Store) : Res Unit :=
  match s.cache b with
  | none => .stop .panic
  | some p => .ok () { s with disk := Function.update s.disk b p }

def blockIsFree (s : Store) (b : Nat) : Bool :=
  if s.nblocks ≤ b then false else s.bitmap b &&& Store.bitmapBit b ≠ 0

/-- Step 4 of `read_block`. -/
def loadBlock (b : Nat) (s : Store) : Res Unit :=
  match s.cache b with
  | some _ => .ok () s
  | none => (sysMemAlloc b s).bind fun _ s => .ok () { s with cache := Function.update s.cache b (some (s.disk b)) }

def readBlock (b : Nat) (s : Store) : Res Unit :=
  if s.nblocks ≤ b then .stop .panic
  else if blockIsFree s b then .stop .panic
  else loadBlock b s

def mapBlock (b : Nat) (s : Store) : Res Unit :=
  match s.cache b with
  | some _ => .ok () s
  | none => sysMemAlloc b s

def freeBlock (b : Nat) (s : Store) : Store :=
  if b = 0 ∨ s.nblocks ≤ b then s else s.setBitmap b (s.bitmap b ||| Store.bitmapBit b)

/-- The loop of `alloc_block_num` finds the first free block. -/
def firstFree (s : Store) : Option Nat :=
  (List.range' 3 (s.nblocks - 3)).find? fun b => s.bitmap b &&& Store.bitmapBit b ≠ 0

def allocBlockNum (s : Store) : Res Nat :=
  match firstFree s with
  | none => .err (-eNoDisk) s
  | some b => (writeBlock (b / blockSizeBit + 2) (s.setBitmap b (s.bitmap b &&& ~~~Store.bitmapBit b))).bind fun _ s => .ok b s

def allocBlock (s : Store) : Res Nat :=
  (allocBlockNum s).bind fun b s =>
    (mapBlock b s).tested.bind fun r s =>
      match r with
      | .ok _ => .ok b s
      | .error r => .err r (freeBlock b s)

def fsMagic : Word := 0x68286097

def panicOn (r : Res Unit) : Res Unit :=
  match r with
  | .err _ _ => .stop .panic
  | r => r

/-- `super` is not set yet, so `read_block` checks nothing. -/
def readSuper (s : Store) : Res Unit :=
  (panicOn (loadBlock 1 s)).bind fun _ s =>
    if s.word 1 0 ≠ fsMagic then .stop .panic
    else if 0x40000 < s.nblocks then .stop .panic
    else .ok () s

namespace Store

def setPage (s : Store) (b : Nat) (p : Page) : Store := { s with cache := Function.update s.cache b (some p) }

/-- `strcpy(p, "OOPS!\n")`. -/
def smash (p : Page) : Page :=
  Function.update (Function.update p 0 0x53504f4f) 1 ((p 1 &&& 0xff000000) ||| 0x000a21)

def unmap (s : Store) (b : Nat) : Store := { s with cache := Function.update s.cache b none }

end Store

def checkWriteBlock (s : Store) : Res Unit :=
  (panicOn (loadBlock 0 s)).bind fun _ s =>
  (writeBlock 1 ((s.setPage 0 (s.page 1)).setPage 1 (Store.smash (s.page 1)))).bind fun _ s =>
  (panicOn (loadBlock 1 (s.unmap 1))).bind fun _ s => writeBlock 1 (s.setPage 1 (s.page 0))

/-- `bitmap` is not set yet, so `read_block` does not look at the bitmap; its code is not looked at. -/
def readBitmap (s : Store) : Res Unit :=
  let nbitmap := s.nblocks / blockSizeBit + 1
  (Result.forRange nbitmap (fun i s =>
    if s.nblocks ≤ i + 2 then .stop .panic
    else (loadBlock (i + 2) s).tested.bind fun _ s => .ok () s) s).bind fun _ s =>
  if (List.range (nbitmap + 2)).any (blockIsFree s) then .stop .panic else .ok () s

def fsInit (s : Store) : Res Unit :=
  (readSuper s).bind fun _ s => (checkWriteBlock s).bind fun _ s => readBitmap s

/-- The server's cache before `fs_init`. -/
def bootStore (disk : Nat → Page) (memory : Nat → Bool) : Store :=
  { cache := fun _ => none, dirty := fun _ => false, disk := disk, memory := memory, asked := 0, given := [] }

end Mos.Fs
