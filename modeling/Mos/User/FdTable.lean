import Mos.User.Fd
import Mos.Fs.Block

namespace Mos.FdLib

def devFileId : Word := 0x66
def devConsId : Word := 0x63
def devPipeId : Word := 0x70

inductive Dev where
  | file
  | cons
  | pipe

/-- What `close` reads in the page of a descriptor: `fd_dev_id`, and `f_size` for a file. -/
structure FdPage where
  devId : Word
  size : Word

/-- The caller's pages, by the number of the virtual page, and the descriptor pages, which may be shared. -/
structure User where
  maps : Nat → Option Nat
  page : Nat → FdPage

/-- The answers to the requests that `file_close` sends, and whether `sys_mem_map` of window page `i` finds memory for
    a page table; `room 1024` is for the page of the descriptor. -/
structure Answers where
  dirty : Nat → Word
  close : Word
  room : Nat → Bool

/-- `INDEX2FD`, in pages and 32 bits. -/
def index2Fd (i : Int) : Nat := ((fdTable + i) % 2 ^ 20).toNat

/-- Page `j` behind `INDEX2DATA`. -/
def window (i : Int) (j : Nat) : Nat := ((fileBase + 1024 * i + j) % 2 ^ 20).toNat

def User.unmap (u : User) (v : Nat) : User := { u with maps := Function.update u.maps v none }

/-- `syscall_mem_unmap`, or `none` when it returns -E_INVAL. -/
def memUnmap (v : Nat) (u : User) : Option User := if legalVpn v then some (u.unmap v) else none

/-- A negative `fdnum` passes the test. -/
def fdLookup (u : User) (fdnum : Int) : Option Nat := if fdnum < maxFd then u.maps (index2Fd fdnum) else none

def devLookup (id : Word) : Option Dev :=
  if id = devFileId then some .file else if id = devConsId then some .cons else if id = devPipeId then some .pipe else none

def isErr (r : Word) : Bool := r.slt 0

/-- The loop of `file_close` that sends the dirty requests, from page `k` on: the error that ends it, if one does. -/
def dirtyLoop (size : Word) (dirty : Nat → Word) : Nat → Nat → Option (Option Word)
  | 0, _ => none
  | fuel + 1, k =>
    if 4096 * k % 2 ^ 32 < size.toNat then
      if isErr (dirty k) then some (some (dirty k)) else dirtyLoop size dirty fuel (k + 1)
    else some none

/-- The loop of `file_close` that unmaps the window. -/
def unmapLoop (fdnum : Int) (size : Word) : Nat → Nat → User → Option (Word × User)
  | 0, _, _ => none
  | fuel + 1, k, u =>
    if 4096 * k % 2 ^ 32 < size.toNat then
      match memUnmap (window fdnum (k % 2 ^ 20)) u with
      | some u => unmapLoop fdnum size fuel (k + 1) u
      | none => some (-eInval, u)
    else some (0, u)

def fileClose (a : Answers) (fuel : Nat) (fdnum : Int) (size : Word) (u : User) : Option (Word × User) :=
  (dirtyLoop size a.dirty fuel 0).bind fun failed =>
    match failed with
    | some r => some (r, u)
    | none => if isErr a.close then some (a.close, u) else unmapLoop fdnum size fuel 0 u

/-- The results of the unmappings are not looked at. -/
def pipeClose (fdnum : Int) (u : User) : Word × User :=
  let u := (memUnmap (index2Fd fdnum) u).getD u
  (0, (memUnmap (window fdnum 0) u).getD u)

def devClose (a : Answers) (fuel : Nat) (fdnum : Int) (dev : Dev) (size : Word) (u : User) : Option (Word × User) :=
  match dev with
  | .file => fileClose a fuel fdnum size u
  | .cons => some (0, u)
  | .pipe => some (pipeClose fdnum u)

/-- `close`. There is no result when a loop does not end or `fd_close` panics. -/
def close (a : Answers) (fuel : Nat) (fdnum : Int) (u : User) : Option (Word × User) :=
  match fdLookup u fdnum with
  | none => some (-eInval, u)
  | some p =>
    match devLookup (u.page p).devId with
    | none => some (-eInval, u)
    | some dev =>
      (devClose a fuel fdnum dev (u.page p).size u).bind fun (r, u) => (memUnmap (index2Fd fdnum) u).map fun u => (r, u)

/-- `sys_mem_map` within the caller. -/
def memMap (src dst : Nat) (room : Bool) (u : User) : Except Word User :=
  if !legalVpn src || !legalVpn dst then .error (-eInval)
  else
    match u.maps src with
    | none => .error (-eInval)
    | some p => if room then .ok { u with maps := Function.update u.maps dst (some p) } else .error (-eNoMem)

/-- The loop of `dup` over the window, from page `i` on with `n` pages to go. -/
def dupLoop (a : Answers) (old new : Int) : Nat → Nat → User → Except (Word × User) User
  | 0, _, u => .ok u
  | n + 1, i, u =>
    match u.maps (window old i) with
    | none => dupLoop a old new n (i + 1) u
    | some _ =>
      match memMap (window old i) (window new i) (a.room i) u with
      | .ok u => dupLoop a old new n (i + 1) u
      | .error r => .error (r, u)

/-- `dup` from its loop on, with the state in which it fails. -/
def dupMaps (a : Answers) (old new : Int) (u : User) : Except (Word × User) User :=
  match dupLoop a old new 1024 0 u with
  | .error e => .error e
  | .ok u =>
    match memMap (index2Fd old) (index2Fd new) (a.room 1024) u with
    | .ok u => .ok u
    | .error r => .error (r, u)

/-- The part of `dup` behind `err`; a failing call panics. -/
def dupUndo (new : Int) (u : User) : Option User :=
  (List.range 1024).foldl (fun u i => u.bind (memUnmap (window new i))) (memUnmap (index2Fd new) u)

def dup (a : Answers) (fuel : Nat) (old new : Int) (u : User) : Option (Except Word Int × User) :=
  match fdLookup u old with
  | none => some (.error (-eInval), u)
  | some _ =>
    (close a fuel new u).bind fun (_, u) =>
      match dupMaps a old new u with
      | .ok u => some (.ok new, u)
      | .error (r, u) => (dupUndo new u).map fun u => (.error r, u)

end Mos.FdLib
