import Mos.User.Atomic
import Mos.Fs.Replace

namespace Mos.FileLib

open Fs FdLib

def fsipcRemove (path : List Byte) (w : World) : WRes Unit :=
  if path = [] ∨ maxPathLen ≤ path.length then .err (-eBadPath) w
  else (w.ask (serveRemove path)).bind fun _ w => .ok () w

def remove (resolve : List Byte → Option (List Byte)) (path : List Byte) (w : World) : WRes Unit :=
  match resolve path with
  | none => .err (-eBadPath) w
  | some path => fsipcRemove path w

/-- What `dup` and `close` make the server do. -/
inductive Closing : ServeOp → Prop where
  | dirty (fileid offset : Word) : Closing (.fsreqDirty fileid offset)
  | close (fileid : Word) : Closing (.fsreqClose fileid)
  | share (i : Nat) : Closing (.shareFd i)
  | drop (i : Nat) : Closing (.dropFd i)

def DirAt (c : Image) (p : List (List Byte)) : Prop := ∃ f, At c p f ∧ (f = root ∨ c.field f 33 = ftypeDir)

/-- The paths lead to the same files, and these have the same sizes. -/
structure Unchanged (c c' : Image) : Prop where
  paths : ∀ names f, At c' names f ↔ At c names f
  size : ∀ f, Reach c f → c'.field f 32 = c.field f 32

/-- What is asked of a redirection to `p`: the other paths stay, and for a directory it fails and changes nothing. -/
structure Contained (p : List (List Byte)) (c c' : Image) (fails : Prop) : Prop where
  same : SameBut p c c'
  dir : DirAt c p → fails ∧ Unchanged c c'

section Redirect

variable {room : Nat → Bool} {inShell resolve : List Byte → Option (List Byte)} {t path full : List Byte} {w w' : World}
  {s u v : Server} {op : ServeOp} {ops : List ServeOp} {p : List (List Byte)}

end Redirect

end Mos.FileLib
