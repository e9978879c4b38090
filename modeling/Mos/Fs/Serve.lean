import Mos.Fs.File

namespace Mos.Fs

@[irreducible] def maxOpen : Nat := 1024
def oCreat : Word := 0x0100
def oTrunc : Word := 0x0200
def oMkdir : Word := 0x0800
def oAppend : Word := 0x1000
def devfileId : Word := 0x66

/-- The page of a descriptor, with the words of its copy of the `File`. -/
structure Filefd where
  devId : Word
  offset : Word
  omode : Word
  file : Nat → Word
  fileid : Word

def clearFilefd : Filefd := { devId := 0, offset := 0, omode := 0, file := fun _ => 0, fileid := 0 }

/-- An entry of `opentab`. `refs` is `pageref(o_ff)`. -/
structure Open where
  file : Option FilePtr
  mode : Word
  ff : Filefd
  refs : Nat

/-- The server's state. `handed` marks the blocks that a client has been given to map. -/
structure Server where
  fs : Store
  opentab : Nat → Open
  handed : Nat → Bool

inductive Reply where
  | code (r : Word)
  | opened (fileid : Nat)
  | block (b : Nat)

abbrev SRes := Result Server Word Stop

namespace Server

def putFs (s : Server) (fs : Store) : Server := { s with fs := fs }

def withFs {α : Type} (s : Server) (r : Res α) : SRes α := r.lift s.putFs

def setOpen (s : Server) (i : Nat) (o : Open) : Server := { s with opentab := Function.update s.opentab i o }

end Server

def openAlloc (s : Server) : SRes Nat :=
  match (List.range maxOpen).find? fun i => (s.opentab i).refs ≤ 1 with
  | none => .err (-eMaxOpen) s
  | some i =>
    if (s.opentab i).refs = 0 then
      let fs := { s.fs with asked := s.fs.asked + 1 }
      if s.fs.memory s.fs.asked then
        .ok i ((s.putFs fs).setOpen i { s.opentab i with ff := clearFilefd, refs := 1 })
      else .err (-eNoMem) (s.putFs fs)
    else .ok i (s.setOpen i { s.opentab i with ff := clearFilefd })

def openLookup (fileid : Word) (s : Server) : SRes Nat :=
  if maxOpen ≤ fileid.toNat then .err (-eInval) s
  else if (s.opentab fileid.toNat).refs ≤ 1 then .err (-eInval) s
  else .ok fileid.toNat s

/-- The descriptor page that `serve_open` sends to the client. -/
def openFilefd (fs : Store) (i : Nat) (f : FilePtr) (omode : Word) : Filefd :=
  { devId := devfileId, offset := if omode &&& oAppend ≠ 0 then fs.fSize f else 0, omode := omode,
    file := fs.field f, fileid := BitVec.ofNat 32 i }

/-- The part of `serve_open` that finds or creates the file. -/
def openFind (path : List Byte) (omode : Word) (fs : Store) : Res FilePtr :=
  if omode &&& oCreat ≠ 0 then
    (fileCreate path fs).bind fun f fs => .ok f (if omode &&& oMkdir ≠ 0 then fs.setField f 33 ftypeDir else fs)
  else fileOpen path fs

def serveOpen (path : List Byte) (omode : Word) (s : Server) : SRes Reply :=
  (openAlloc s).bind fun i s =>
  (s.withFs (openFind path omode s.fs)).bind fun f s =>
  if omode &&& oMkdir ≠ 0 ∧ s.fs.fType f ≠ ftypeDir then .err (-eNotADir) s
  else
    let s := s.setOpen i { s.opentab i with file := some f }
    (s.withFs (if omode &&& oTrunc ≠ 0 then fileSetSize f 0 s.fs else .ok () s.fs)).bind fun _ s =>
    -- the client maps the descriptor page that it receives
    .ok (.opened i) (s.setOpen i
      { file := some f, mode := omode, ff := openFilefd s.fs i f omode, refs := (s.opentab i).refs + 1 })

/-- `open_lookup`, then `body` on the file of the open descriptor. -/
def onOpen (fileid : Word) (body : FilePtr → Store → Res Reply) (s : Server) : SRes Reply :=
  (openLookup fileid s).bind fun i s =>
    match (s.opentab i).file with
    | some f => s.withFs (body f s.fs)
    | none => .stop .wild

def serveMap (fileid offset : Word) (s : Server) : SRes Reply :=
  (onOpen fileid (fun f fs => (fileGetBlock f (offset.toNat / 4096) fs).bind fun b fs => .ok (.block b) fs) s).bind fun r s =>
    match r with
    | .block b => .ok r { s with handed := Function.update s.handed b true }
    | _ => .ok r s

def serveSetSize (fileid size : Word) : Server → SRes Reply :=
  onOpen fileid fun f fs => (fileSetSize f size fs).bind fun _ fs => .ok (.code 0) fs

def serveClose (fileid : Word) : Server → SRes Reply :=
  onOpen fileid fun f fs => (fileClose f fs).bind fun _ fs => .ok (.code 0) fs

def serveDirty (fileid offset : Word) : Server → SRes Reply :=
  onOpen fileid fun f fs => (fileDirty f offset fs).bind fun _ fs => .ok (.code 0) fs

def serveRemove (path : List Byte) (s : Server) : SRes Reply :=
  s.withFs ((fileRemove path s.fs).bind fun _ fs => .ok (.code 0) fs)

def serveSync (s : Server) : SRes Reply :=
  s.withFs ((fsSync s.fs).bind fun _ fs => .ok (.code 0) fs)

/-- A request to the server, or what its clients do: one more or one less mapping of a descriptor page, or a
    store to a block that they were given. -/
inductive ServeOp where
  | fsreqOpen (path : List Byte) (omode : Word)
  | fsreqMap (fileid offset : Word)
  | fsreqSetSize (fileid size : Word)
  | fsreqClose (fileid : Word)
  | fsreqDirty (fileid offset : Word)
  | fsreqRemove (path : List Byte)
  | fsreqSync
  | shareFd (fileid : Nat)
  | dropFd (fileid : Nat)
  | store (b i : Nat) (v : Word)

def serveStep (s : Server) : ServeOp → Option Server
  | .fsreqOpen path omode => (serveOpen path omode s).state
  | .fsreqMap fileid offset => (serveMap fileid offset s).state
  | .fsreqSetSize fileid size => (serveSetSize fileid size s).state
  | .fsreqClose fileid => (serveClose fileid s).state
  | .fsreqDirty fileid offset => (serveDirty fileid offset s).state
  | .fsreqRemove path => (serveRemove path s).state
  | .fsreqSync => (serveSync s).state
  | .shareFd i => if 2 ≤ (s.opentab i).refs then
      some (s.setOpen i { s.opentab i with refs := (s.opentab i).refs + 1 }) else none
  | .dropFd i => if 2 ≤ (s.opentab i).refs then
      some (s.setOpen i { s.opentab i with refs := (s.opentab i).refs - 1 }) else none
  | .store b i v => if s.handed b ∧ i < 1024 then some (s.putFs (s.fs.setWord b i v)) else none

/-- `serve_init` and `fs_init` on the image `disk`. -/
def serverInit (disk : Nat → Page) (memory : Nat → Bool) : Option Server :=
  (fsInit (bootStore disk memory)).state.map fun fs =>
    { fs := fs, opentab := fun _ => { file := none, mode := 0, ff := clearFilefd, refs := 0 }, handed := fun _ => false }

def emptyImage (b : Nat) : Page := fun i =>
  match b, i with
  | 1, 0 => fsMagic
  | 1, 1 => 16
  | 1, 35 => ftypeDir
  | 2, 0 => 0xfff8
  | _, _ => 0

def emptyServer : Option Server := serverInit emptyImage fun _ => true

end Mos.Fs
