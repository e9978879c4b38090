import Mos.Kern.Env
import Mathlib.Data.List.AList
import Mathlib.Algebra.BigOperators.Group.Finset.Basic

namespace Mos

/-- The descriptor pages of an address space: the physical page at each virtual page of the descriptor table and
    the data windows. -/
abbrev Space := AList fun _ : Nat => Nat

def fdTable : Nat := 0x5fc00
def fileBase : Nat := 0x60000
def maxFd : Nat := 32

/-- Virtual pages are numbered modulo 2^20, as the 32-bit addresses wrap. -/
def index2Fd (i : Nat) : Nat := (fdTable + i) % 2^20

/-- Page `j` of the data window of descriptor `i`; `INDEX2DATA` is page 0. -/
def window (i j : Nat) : Nat := (fileBase + 1024 * i + j) % 2^20

def index2Data (i : Nat) : Nat := window i 0

/-- The page numbers of `UTEMP`, `UTOP` and `USTACKTOP`. -/
def legalVpn (v : Nat) : Bool := 0x3fe ≤ v && v < 0x7f400

def ustackVpn : Nat := 0x7f3fe

/-- What a page is for, once `pipe` has returned. -/
inductive Role where
  | reader
  | writer
  | pipe
deriving DecidableEq

def Role.other : Role → Role
  | .reader => .writer
  | .writer => .reader
  | .pipe => .pipe

/-- What an env does next. Each value stands for the rest of a library call from one system call on. -/
inductive Proc where
  | free
  | embryo (next : Nat)
  | run
  | pipeFd1 (s0 : Nat)
  | pipeData (s0 s1 : Nat)
  | pipeMap (s0 s1 : Nat)
  | pipeErr (vs : List Nat)
  | close (fd : Nat) (vs : List Nat)
  | dupClose (old new : Nat) (vs : List Nat)
  | dupCopy (old new i : Nat)
  | dupFd (old new : Nat)
  | dupErr (new : Nat) (vs : List Nat)
  | copy (child : EnvPtr) (limit : Nat)
deriving DecidableEq

/-- The envs that may share pipes. `tag` names the pages of each pipe that `pipe` has made, `made` counts these
    pipes, and `answer` is the result of the last call if that was `_pipe_is_closed`. -/
structure Holders where
  space : EnvPtr → Space
  proc : EnvPtr → Proc
  tag : Nat → Option (Nat × Role)
  made : Nat
  answer : Option (EnvPtr × Nat × Bool)

def Space.refs (sp : Space) (pg : Nat) : Nat := (sp.keys.toFinset.filter fun v => sp.lookup v = some pg).card

namespace Holders

/-- `pp_ref` of a page is the number of its mappings. -/
def refs (st : Holders) (pg : Nat) : Nat := ∑ e : EnvPtr, (st.space e).refs pg

def pageref (st : Holders) (e : EnvPtr) (v : Nat) : Nat :=
  match (st.space e).lookup v with
  | some pg => st.refs pg
  | none => 0

def setProc (st : Holders) (e : EnvPtr) (q : Proc) : Holders := { st with proc := Function.update st.proc e q }

def setSpace (st : Holders) (e : EnvPtr) (sp : Space) : Holders := { st with space := Function.update st.space e sp }

/-- `sys_mem_map` for descriptor pages; `page` is `none` when a page table is missing and memory is out. -/
def memMap (st : Holders) (src : EnvPtr) (srcva : Nat) (dst : EnvPtr) (dstva : Nat) (page : Option Nat) :
    Option Holders :=
  if page.isSome && legalVpn srcva && legalVpn dstva then
    ((st.space src).lookup srcva).map fun pg => st.setSpace dst ((st.space dst).insert dstva pg)
  else none

/-- `sys_mem_alloc` of the page `pg` for the caller. -/
def memAlloc (st : Holders) (e : EnvPtr) (v pg : Nat) : Holders :=
  { st.setSpace e ((st.space e).insert v pg) with tag := Function.update st.tag pg none }

def memUnmap (st : Holders) (e : EnvPtr) (v : Nat) : Holders := st.setSpace e ((st.space e).erase v)

end Holders

def fdAlloc (sp : Space) : Option Nat := (List.range (maxFd - 1)).find? fun i => (sp.lookup (index2Fd i)).isNone

def fdLookup (sp : Space) (fd : Nat) : Option Nat := if fd < maxFd then sp.lookup (index2Fd fd) else none

/-- The unmappings of `close` for a pipe: `pipe_close`, then `fd_close`. -/
def closeVs (fd : Nat) : List Nat := [index2Fd fd, index2Data fd, index2Fd fd]

/-- The cleanup of `dup`. -/
def dupErrVs (new : Nat) : List Nat := index2Fd new :: (List.range 1024).map (window new)

def nextMapped (sp : Space) (low limit : Nat) : Option Nat := (sp.keys.filter fun v => low ≤ v && v < limit).min?

/-- The last steps of `pipe`: the pages get their meaning. -/
def tagPipe (st : Holders) (f0 f1 p : Nat) : Holders :=
  { st with
    tag := Function.update (Function.update (Function.update st.tag f0 (some (st.made, .reader)))
      f1 (some (st.made, .writer))) p (some (st.made, .pipe))
    made := st.made + 1 }

/-- `pipe` up to its first system call. -/
def pipeCall (e : EnvPtr) (page : Option Nat) (st : Holders) : Option Holders :=
  match fdAlloc (st.space e), page with
  | some s0, some pg =>
    if st.refs pg = 0 then some ((st.memAlloc e (index2Fd s0) pg).setProc e (.pipeFd1 s0)) else none
  | _, _ => some st

/-- `close` up to its first system call. `dev_lookup` reads the device from the page; for a page that is no
    descriptor the result is not modelled. -/
def closeCall (e : EnvPtr) (fd : Nat) (st : Holders) : Option Holders :=
  match fdLookup (st.space e) fd with
  | none => some st
  | some pg =>
    match st.tag pg with
    | none => some st
    | some (_, .pipe) => none
    | some _ => some (st.setProc e (.close fd (closeVs fd)))

/-- `dup` up to its first system call; `close` of the new descriptor comes first. -/
def dupCall (e : EnvPtr) (old new : Nat) (st : Holders) : Option Holders :=
  match fdLookup (st.space e) old with
  | none => some st
  | some _ =>
    match fdLookup (st.space e) new with
    | none => some (st.setProc e (.dupClose old new []))
    | some pg =>
      match st.tag pg with
      | none => some (st.setProc e (.dupClose old new []))
      | some (_, .pipe) => none
      | some _ => some (st.setProc e (.dupClose old new (closeVs new)))

/-- `fork` or `spawn` up to its `syscall_exofork`; the child shares the library pages below `limit` later. -/
def forkCall (e c : EnvPtr) (limit : Nat) (st : Holders) : Option Holders :=
  if st.proc c = .free then
    some (((st.setSpace c ∅).setProc c (.embryo 0)).setProc e (.copy c limit))
  else none

/-- The page copy loop of `fork` and the sharing loop of `spawn`: the next mapped page goes to the child, or the
    child becomes runnable. On an error `spawn` gives up, and `fork` panics into `exit`, whose `close` calls are
    among those that `run` allows; the child keeps what it has. -/
def copyStep (e c : EnvPtr) (limit : Nat) (page : Option Nat) (st : Holders) : Option Holders :=
  match st.proc c with
  | .embryo next =>
    match nextMapped (st.space e) next limit with
    | some v =>
      match st.memMap e v c v page with
      | some st => some (st.setProc c (.embryo (v + 1)))
      | none => some (st.setProc e .run)
    | none => some ((st.setProc e .run).setProc c .run)
  | _ => none

/-- The next system call of `e`. -/
def resume (e : EnvPtr) (page : Option Nat) (st : Holders) : Option Holders :=
  match st.proc e with
  | .pipeFd1 s0 =>
    match fdAlloc (st.space e), page with
    | some s1, some pg =>
      if st.refs pg = 0 then some ((st.memAlloc e (index2Fd s1) pg).setProc e (.pipeData s0 s1)) else none
    | _, _ => some (st.setProc e (.pipeErr [index2Fd s0]))
  | .pipeData s0 s1 =>
    match page with
    | some pg => if st.refs pg = 0 then some ((st.memAlloc e (index2Data s0) pg).setProc e (.pipeMap s0 s1)) else none
    | none => some (st.setProc e (.pipeErr [index2Fd s1, index2Fd s0]))
  | .pipeMap s0 s1 =>
    match (st.space e).lookup (index2Fd s0), (st.space e).lookup (index2Fd s1), (st.space e).lookup (index2Data s0),
        st.memMap e (index2Data s0) e (index2Data s1) page with
    | some f0, some f1, some p, some st => some ((tagPipe st f0 f1 p).setProc e .run)
    | _, _, _, _ => some (st.setProc e (.pipeErr [index2Data s0, index2Fd s1, index2Fd s0]))
  | .pipeErr (v :: vs) => some ((st.memUnmap e v).setProc e (.pipeErr vs))
  | .pipeErr [] => some (st.setProc e .run)
  | .close fd (v :: vs) => some ((st.memUnmap e v).setProc e (.close fd vs))
  | .close _ [] => some (st.setProc e .run)
  | .dupClose old new (v :: vs) => some ((st.memUnmap e v).setProc e (.dupClose old new vs))
  | .dupClose old new [] => some (st.setProc e (.dupCopy old new 0))
  | .dupCopy old new i =>
    match nextMapped (st.space e) (window old 0 + i) (window old 0 + 1024) with
    | some v =>
      match st.memMap e v e (window new (v - window old 0)) page with
      | some st => some (st.setProc e (.dupCopy old new (v - window old 0 + 1)))
      | none => some (st.setProc e (.dupErr new (dupErrVs new)))
    | none => some (st.setProc e (.dupFd old new))
  | .dupFd old new =>
    match st.memMap e (index2Fd old) e (index2Fd new) page with
    | some st => some (st.setProc e .run)
    | none => some (st.setProc e (.dupErr new (dupErrVs new)))
  | .dupErr new (v :: vs) =>
    some (if legalVpn v then (st.memUnmap e v).setProc e (.dupErr new vs) else st.setProc e .run)
  | .dupErr _ [] => some (st.setProc e .run)
  | .copy c limit => copyStep e c limit page st
  | .free => none
  | .embryo _ => none
  | .run => none

/-- `_pipe_is_closed` on descriptor `fd`, with both counts read at once. -/
def pipeIsClosed (e : EnvPtr) (fd : Nat) (st : Holders) : Option Holders :=
  match fdLookup (st.space e) fd with
  | some _ =>
    some { st with answer := some (e, fd, st.pageref e (index2Fd fd) == st.pageref e (index2Data fd)) }
  | none => some st

/-- An env starts a library call, does its next system call, or has exited and been reaped. -/
inductive FdOp where
  | pipe (e : EnvPtr) (page : Option Nat)
  | close (e : EnvPtr) (fd : Nat)
  | dup (e : EnvPtr) (old new : Nat)
  | fork (e c : EnvPtr)
  | spawn (e c : EnvPtr)
  | resume (e : EnvPtr) (page : Option Nat)
  | pipeIsClosed (e : EnvPtr) (fd : Nat)
  | exit (e : EnvPtr)

def Holders.call (st : Holders) (e : EnvPtr) (f : Holders → Option Holders) : Option Holders :=
  if st.proc e = .run then f { st with answer := none } else none

def Holders.step (st : Holders) : FdOp → Option Holders
  | .pipe e page => st.call e (pipeCall e page)
  | .close e fd => st.call e (closeCall e fd)
  | .dup e old new => st.call e (dupCall e old new)
  | .fork e c => st.call e (forkCall e c ustackVpn)
  | .spawn e c => st.call e (forkCall e c (1024 * 509))
  | .resume e page => resume e page { st with answer := none }
  | .pipeIsClosed e fd => st.call e (pipeIsClosed e fd)
  | .exit e => st.call e fun st => some ((st.setSpace e ∅).setProc e .free)

def Holders.init : Holders :=
  { space := fun _ => ∅, proc := fun e => if e = 0 then .run else .free, tag := fun _ => none, made := 0, answer := none }

end Mos
