import Mos.User.FdTable
import Mos.Fs.Serve

namespace Mos.FileLib

open Fs FdLib

def maxFileSize : Word := 0x400000
def maxPathLen : Nat := 1024

/-- A loop of `memcpy` that copies `k` bytes a round: the bytes copied, by target and source, and the two pointers. -/
def copyLoop (k : Nat) (go : Word → Bool) : Nat → Word → Word → Option (List (Word × Word) × Word × Word)
  | 0, _, _ => none
  | fuel + 1, dst, src =>
    if go dst then
      (copyLoop k go fuel (dst + BitVec.ofNat 32 k) (src + BitVec.ofNat 32 k)).map fun (rest, ends) =>
        ((List.range k).map (fun j => (dst + BitVec.ofNat 32 j, src + BitVec.ofNat 32 j)) ++ rest, ends)
    else some ([], dst, src)

/-- The bytes that `memcpy` copies, by target and source, or `none` when it does not end. -/
def memcpy (dst src n : Word) : Option (List (Word × Word)) :=
  let max := dst + n
  let fuel := n.toNat + 1
  if src &&& 3 ≠ dst &&& 3 then (copyLoop 1 (fun d => d < max) fuel dst src).map Prod.fst
  else
    (copyLoop 1 (fun d => d &&& 3 ≠ 0 && d < max) fuel dst src).bind fun (first, dst, src) =>
    (copyLoop 4 (fun d => d + 4 ≤ max) fuel dst src).bind fun (words, dst, src) =>
    (copyLoop 1 (fun d => d < max) fuel dst src).map fun (last, _) => first ++ words ++ last

/-- A page of the caller: the descriptor page of an entry of `opentab`, a block of the server's cache, or any other. -/
inductive Mapped where
  | fd (e : Nat)
  | block (b : Nat)
  | other (id : Nat)

/-- The caller's pages and the file server. The page of an open descriptor belongs to both. -/
structure World where
  server : Server
  maps : Nat → Option Mapped

abbrev WRes := Result World Word Fs.Stop

/-- `ROUND(size, PTMAP)` in 32 bits, as a number of pages. -/
def roundPages (size : Word) : Nat := (size + 4095).toNat / 4096

namespace World

def filefd (w : World) (e : Nat) : Filefd := (w.server.opentab e).ff

def setFilefd (w : World) (e : Nat) (ff : Filefd) : World :=
  { w with server := w.server.setOpen e { w.server.opentab e with ff := ff } }

def fSize (w : World) (e : Nat) : Word := (w.filefd e).file 32

def setSize (w : World) (e : Nat) (size : Word) : World :=
  w.setFilefd e { w.filefd e with file := Function.update (w.filefd e).file 32 size }

/-- `seek` on a file. -/
def seek (w : World) (e : Nat) (offset : Word) : World := w.setFilefd e { w.filefd e with offset := offset }

/-- Page `v` no longer maps what it mapped. -/
def unmap (w : World) (v : Nat) : World :=
  { server := match w.maps v with
      | some (.fd e) => w.server.setOpen e { w.server.opentab e with refs := (w.server.opentab e).refs - 1 }
      | _ => w.server
    maps := Function.update w.maps v none }

def map (w : World) (v : Nat) (m : Mapped) : World :=
  { w.unmap v with maps := Function.update w.maps v (some m) }

def ask (w : World) (request : Server → SRes Reply) : WRes Reply :=
  (request w.server).lift fun server => { w with server := server }

/-- The entry that descriptor `fdnum` is open on, if it is a file. -/
def fdLookup (w : World) (fdnum : Int) : Option Nat :=
  if fdnum < maxFd then
    match w.maps (FdLib.index2Fd fdnum) with
    | some (.fd e) => if (w.filefd e).devId = devFileId then some e else none
    | _ => none
  else none

def fdAlloc (w : World) : Option Nat := (List.range (maxFd - 1)).find? fun i => (w.maps (FdLib.index2Fd i)).isNone

end World

section Calls

-- `room v`: the kernel finds the memory to map a page at `v`. Where it does not, the server's `ipc_send` panics.
variable (room : Nat → Bool)

/-- `fsipc_map` of page `k` of the file, at page `v` of the caller. -/
def fsipcMap (fileid : Word) (k v : Nat) (w : World) : WRes Unit :=
  (w.ask (serveMap fileid (BitVec.ofNat 32 (4096 * k)))).bind fun r w =>
    match r with
    | .block b => if room v then .ok () (w.map v (.block b)) else .stop .panic
    | _ => .ok () w

/-- The loops of `open` and `ftruncate` that map the window, from page `k` on with `n` pages to go. -/
def mapLoop (fileid : Word) (fdnum : Int) : Nat → Nat → World → WRes Unit
  | 0, _, w => .ok () w
  | n + 1, k, w => (fsipcMap room fileid k (FdLib.window fdnum k) w).bind fun _ w => mapLoop fileid fdnum n (k + 1) w

/-- The loop of `ftruncate` that unmaps the window. -/
def unmapLoop (fdnum : Int) : Nat → Nat → World → WRes Unit
  | 0, _, w => .ok () w
  | n + 1, k, w =>
    if legalVpn (FdLib.window fdnum k) then unmapLoop fdnum n (k + 1) (w.unmap (FdLib.window fdnum k)) else .stop .panic

/-- `open`. `resolve` is what `resolve_path` makes of a path in the caller's directory. -/
def openFile (resolve : List Byte → Option (List Byte)) (path : List Byte) (mode : Word) (w : World) : WRes Int :=
  match resolve path with
  | none => .err (-eBadPath) w
  | some path =>
    match w.fdAlloc with
    | none => .err (-eMaxOpen) w
    | some i =>
      if maxPathLen ≤ path.length then .err (-eBadPath) w
      else
        (w.ask (serveOpen path (mode &&& ~~~oAppend))).bind fun r w =>
          match r with
          | .opened e =>
            if room (FdLib.index2Fd i) then
              let w := w.map (FdLib.index2Fd i) (.fd e)
              let size := w.fSize e
              (mapLoop room (w.filefd e).fileid i ((size.toNat + 4095) / 4096) 0 w).bind fun _ w =>
                .ok i (if mode &&& oAppend ≠ 0 then w.seek e size else w)
            else .stop .panic
          | _ => .ok 0 w

def ftruncate (fdnum : Int) (size : Word) (w : World) : WRes Unit :=
  if maxFileSize < size then .err (-eNoDisk) w
  else
    match w.fdLookup fdnum with
    | none => .err (-eInval) w
    | some e =>
      let fileid := (w.filefd e).fileid
      let oldsize := w.fSize e
      ((w.setSize e size).ask (serveSetSize fileid size)).bind fun _ w =>
      (mapLoop room fileid fdnum (roundPages size - roundPages oldsize) (roundPages oldsize) w).tested.bind fun r w =>
        match r with
        | .ok _ => unmapLoop fdnum (roundPages oldsize - roundPages size) (roundPages size) w
        | .error r => (w.ask (serveSetSize fileid oldsize)).bind fun _ w => .err r w

/-- `fd2num` of the page that `fd_lookup` finds for `fdnum`. -/
def fd2num (fdnum : Int) : Int := fdnum % 2 ^ 20

def fd2data (fdnum : Int) : Word := BitVec.ofInt 32 (0x60000000 + 0x400000 * fdnum)

/-- `file_read`: its result and what it copies. -/
def fileRead (fdnum : Int) (e : Nat) (buf n offset : Word) (w : World) : Option (Word × List (Word × Word)) :=
  let size := w.fSize e
  if size < offset then some (0, [])
  else
    let n := if size < offset + n then size - offset else n
    (memcpy buf (fd2data fdnum + offset) n).map fun copied => (n, copied)

/-- `file_write`: its result and what it copies; nothing when it fails. -/
def fileWrite (fdnum : Int) (e : Nat) (buf n offset : Word) (w : World) : WRes (Word × List (Word × Word)) :=
  let tot := offset + n
  if maxFileSize < tot then .err (-eNoDisk) w
  else
    (if w.fSize e < tot then ftruncate room (fd2num fdnum) tot w else .ok () w).bind fun _ w =>
    match memcpy (fd2data fdnum + offset) buf n with
    | some copied => .ok (n, copied) w
    | none => .stop .wild

end Calls

end Mos.FileLib
