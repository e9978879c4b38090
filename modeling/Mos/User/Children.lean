import Mos.User.Close
import Mos.User.Stack
import Mos.Elf.Loader
import Mos.Kern.EnvId

namespace Mos.Child

open FdLib Elf

abbrev Byte := BitVec 8

def eNotExec : Word := 13
def maxPathLen : Nat := 1024

/-- The env table, the caller's pages with the permission bits of their entries, and the pages of the env that is made. -/
structure System where
  envs : EnvPtr → Env
  user : User
  perm : Nat → Word
  child : Memory

/-- What `env_alloc` comes to: its error, or the slot of the new env and the number of the call of `mkenvid`. -/
inductive Fork where
  | refused (r : Word)
  | child (e : EnvPtr) (generation : Nat)

/-- Whether the kernel finds memory: for the page at `UTEMP`, for the page table of the child's stack, for the pages of
    the segments and for the child's page table of page `v`. -/
structure Rooms where
  utemp : Bool
  stack : Bool
  load : Nat → Bool
  page : Nat → Bool

namespace System

variable (s : System) (cur e : EnvPtr)

def update (f : Env → Env) : System := { s with envs := Function.update s.envs e (f (s.envs e)) }

/-- `envid2env` with `checkperm`. -/
def envid2env (envid : Word) : Except Word EnvPtr :=
  if envid = 0 then .ok cur
  else
    let e := envx envid
    if (s.envs e).envStatus = .free ∨ (s.envs e).envId ≠ envid then .error (-eBadEnv)
    else if e ≠ cur ∧ (s.envs e).envParentId ≠ (s.envs cur).envId then .error (-eBadEnv)
    else .ok e

/-- `page_lookup`. An env that is not the caller is the one that is made. -/
def pageAt (va : Word) : Option Nat :=
  if e = cur then s.user.maps (pageNo va) else (s.child.env (pageNo va)).map Prod.fst

/-- `page_insert`. -/
def insert (p : Nat) (va perm : Word) : System :=
  if e = cur then
    { s with
      user := { s.user with maps := Function.update s.user.maps (pageNo va) (some p) }
      perm := Function.update s.perm (pageNo va) perm }
  else { s with child := s.child.pageInsert p va perm }

/-- `page_remove`. -/
def remove (va : Word) : System :=
  if e = cur then { s with user := s.user.unmap (pageNo va) }
  else { s with child := { s.child with env := Function.update s.child.env (pageNo va) none } }

end System

theorem envid2env_eq (k : Kernel) (s : System) (same : k.envs = s.envs) (cur : EnvPtr) (envid : Word) :
    Mos.envid2env k cur envid true = s.envid2env cur envid := by
  unfold Mos.envid2env System.envid2env
  simp only [same, true_and]

section Calls

variable (cur : EnvPtr)

def sysMemAlloc (envid va perm : Word) (room : Bool) (s : System) : Word × System :=
  if isIllegalVa va then (-eInval, s)
  else
    match s.envid2env cur envid with
    | .error r => (r, s)
    | .ok e =>
      if room then (0, { s with child := s.child.pageAlloc.2 }.insert cur e s.child.pageAlloc.1 va perm) else (-eNoMem, s)

def sysMemMap (srcid srcva dstid dstva perm : Word) (room : Bool) (s : System) : Word × System :=
  if isIllegalVa srcva || isIllegalVa dstva then (-eInval, s)
  else
    match s.envid2env cur srcid with
    | .error r => (r, s)
    | .ok src =>
      match s.envid2env cur dstid with
      | .error r => (r, s)
      | .ok dst =>
        match s.pageAt cur src srcva with
        | none => (-eInval, s)
        | some p => if room then (0, s.insert cur dst p dstva perm) else (-eNoMem, s)

def sysMemUnmap (envid va : Word) (s : System) : Word × System :=
  if isIllegalVa va then (-eInval, s)
  else
    match s.envid2env cur envid with
    | .error r => (r, s)
    | .ok e => (0, s.remove cur e va)

def sysExofork (fork : Fork) (s : System) : Word × System :=
  match fork with
  | .refused r => (r, s)
  | .child e generation =>
    (envIdAt generation e, { s with child := { s.child with env := fun _ => none } }.update e fun env =>
      { env with
        envId := envIdAt generation e, envParentId := (s.envs cur).envId, envUserTlbModEntry := 0,
        envStatus := .notRunnable, envPri := (s.envs cur).envPri })

/-- The caller reaps a zombie. A caller that destroys itself becomes one, and does not return. -/
def sysEnvDestroy (envid status : Word) (s : System) : Word × System :=
  match s.envid2env cur envid with
  | .error _ => (-eBadEnv, s)
  | .ok e =>
    if e = cur then (0, s.update e fun env => { env with envExitStatus := status, envStatus := .zombie })
    else if (s.envs e).envParentId ≠ (s.envs cur).envId ∨ (s.envs e).envStatus ≠ .zombie then (-eBadEnv, s)
    else (0, s.update e fun env => { env with envStatus := .free })

def sysSetTlbModEntry (envid func : Word) (s : System) : Word × System :=
  match s.envid2env cur envid with
  | .error r => (r, s)
  | .ok e => (0, s.update e fun env => { env with envUserTlbModEntry := func })

/-- The frame lies on the caller's stack. It is that of the child but for the entry point and the stack pointer. -/
def sysSetTrapframe (envid entry sp : Word) (s : System) : Word × System :=
  match s.envid2env cur envid with
  | .error r => (r, s)
  | .ok e =>
    let tf := (s.envs (envx envid)).envTf
    (0, s.update e fun env => { env with envTf := { tf.setReg 29 sp with cp0Epc := entry } })

/-- `sys_set_env_status` to `ENV_RUNNABLE`. -/
def sysSetRunnable (envid : Word) (s : System) : Word × System :=
  match s.envid2env cur envid with
  | .error r => (r, s)
  | .ok e => (0, s.update e fun env => { env with envStatus := .runnable })

end Calls

def tested (fails : Word → Bool) (res : Word × System) : Except (Word × System) System :=
  if fails res.1 then .error res else .ok res.2

def negative (r : Word) : Bool := r.slt 0
def nonzero (r : Word) : Bool := r != 0

def pageVa (v : Nat) : Word := BitVec.ofNat 32 (4096 * v)

section Fork

variable (cur : EnvPtr) (rooms : Rooms) (cowEntry : Word)

/-- `duppage`. There is no state after `user_panic`, which ends the caller. -/
def duppage (child : Word) (v : Nat) (s : System) : Option System :=
  let perm := s.perm v
  let cow := perm &&& ~~~pteD ||| pteCow
  if perm &&& pteD = 0 ∨ perm &&& pteLibrary ≠ 0 ∨ perm &&& pteCow ≠ 0 then
    (tested negative (sysMemMap cur 0 (pageVa v) child (pageVa v) perm (rooms.page v) s)).toOption
  else
    -- the caller has a page table for its own page
    ((tested negative (sysMemMap cur 0 (pageVa v) child (pageVa v) cow (rooms.page v) s)).bind fun s =>
      tested negative (sysMemMap cur 0 (pageVa v) 0 (pageVa v) cow true s)).toOption

/-- The loop of `fork` over the pages. -/
def dupPages (child : Word) : List Nat → System → Option System
  | [], s => some s
  | v :: rest, s =>
    if (s.user.maps v).isSome then (duppage cur rooms child v s).bind (dupPages child rest) else dupPages child rest s

def forkPages : List Nat := List.range (ustacktop.toNat / 4096)

/-- `fork`, as its caller sees it. The first call cannot fail, and the results of the last two are not looked at. -/
def fork (new : Fork) (s : System) : Option (Word × System) :=
  let s := if (s.envs cur).envUserTlbModEntry ≠ cowEntry then (sysSetTlbModEntry cur 0 cowEntry s).2 else s
  let (child, s) := sysExofork cur new s
  if child = 0 then some (0, s)
  else
    (dupPages cur rooms child forkPages s).map fun s =>
      (child, (sysSetRunnable cur child (sysSetTlbModEntry cur child cowEntry s).2).2)

end Fork

/-- A program header as `spawn` reads it: whether `seek` and `readn` succeed, whether it is to be loaded, and what
    `read_map` finds. -/
structure Header where
  seek : Bool
  read : Bool
  load : Bool
  phdr : Phdr
  bin : Except Word (Nat → Byte)

/-- What `spawn` reads in the file: the result of `readn`, whether `elf_from` takes the header, and the headers. -/
structure Executable where
  size : Word
  isElf : Bool
  entry : Word
  headers : List Header

/-- What ends `spawn` after step 2. -/
def Executable.refusal (exe : Executable) : Option Word :=
  if exe.size ≠ 52 then some exe.size else if !exe.isElf then some (-eNotExec) else none

/-- The library's `open` for reading, with its result, and `close`, with what they make of the caller's pages. -/
structure Files where
  openFile : List Byte → User → Word × User
  close : Word → User → User

section Spawn

variable (cur : EnvPtr) (rooms : Rooms) (files : Files)

def openProg (prog : List Byte) (u : User) : Word × User :=
  let (fd, u) := files.openFile prog u
  if negative fd then
    if maxPathLen < prog.length + 3 then (-eInval, u) else files.openFile (prog ++ [0x2e, 0x62]) u
  else (fd, u)

/-- The system calls of `init_stack`. What it stores in the page is `Spawn.initStack`. -/
def initStack (child : Word) (argv : List (List Byte)) (s : System) : Except (Word × System) System :=
  if Spawn.tooBig argv then .error (-eNoMem, s)
  else
    (tested negative (sysMemAlloc cur 0 utemp pteD rooms.utemp s)).bind fun s =>
      let unmapped (res : Word × System) := (res.1, (sysMemUnmap cur 0 utemp res.2).2)
      ((tested negative (sysMemMap cur 0 utemp child (ustacktop - 4096) pteD rooms.stack s)).bind fun s =>
        tested negative (sysMemUnmap cur 0 utemp s)).mapError unmapped

/-- `spawn_mapper`. The caller has a page table for `UTEMP` by then. -/
def spawnMapper : Mapper := fun va offset perm src len m =>
  if !isIllegalVa va && !rooms.load m.taken then .error (-eNoMem) else Elf.spawnMapper va offset perm src len m

/-- Step 5, or `none` when a loop of `elf_load_seg` does not end. -/
def loadSegments : List Header → Memory → Option (Except Word Memory)
  | [], m => some (.ok m)
  | h :: rest, m =>
    if !h.seek || !h.read then some (.error (-eInval))
    else if h.load then
      match h.bin with
      | .error r => some (.error r)
      | .ok bin =>
        match elfLoadSeg (spawnMapper rooms) h.phdr bin (2 ^ 20 + 1) m with
        | none => none
        | some (.error r) => some (.error r)
        | some (.ok m) => loadSegments rest m
    else loadSegments rest m

def sharePages (child : Word) : List Nat → System → Except (Word × System) System
  | [], s => .ok s
  | v :: rest, s =>
    if (s.user.maps v).isSome ∧ s.perm v &&& pteLibrary ≠ 0 then
      (tested negative (sysMemMap cur 0 (pageVa v) child (pageVa v) (s.perm v) (rooms.page v) s)).bind (sharePages child rest)
    else sharePages child rest s

def sharedPages : List Nat := List.range (1024 * (pdx ustacktop + 1))

def start (child entry sp : Word) (s : System) : Except (Word × System) System :=
  (tested nonzero (sysSetTrapframe cur child entry sp s)).bind fun s =>
    (sharePages cur rooms child sharedPages s).bind fun s => tested negative (sysSetRunnable cur child s)

/-- The label `err1`. -/
def giveUp (fd child : Word) (res : Word × System) : Word × System :=
  let s := (sysEnvDestroy cur child 0 res.2).2
  (res.1, { s with user := files.close fd s.user })

/-- Steps 3 to 8. `child` is unsigned, so that no value of it is below 0. -/
def makeChild (fd sp : Word) (exe : Executable) (argv : List (List Byte)) (new : Fork) (s : System) : Option (Word × System) :=
  let (child, s) := sysExofork cur new s
  match initStack cur rooms child argv s with
  | .error res => some (giveUp cur files fd child res)
  | .ok s =>
    match loadSegments rooms exe.headers s.child with
    | none => none
    | some (.error r) => some (giveUp cur files fd child (r, s))
    | some (.ok m) =>
      match start cur rooms child exe.entry sp { s with user := files.close fd s.user, child := m } with
      | .error (r, s) => some (r, (sysEnvDestroy cur child 0 s).2)
      | .ok s => some (child, s)

def spawn (sp : Word) (exe : Executable) (prog : List Byte) (argv : List (List Byte)) (new : Fork) (s : System) :
    Option (Word × System) :=
  let (fd, u) := openProg files prog s.user
  if negative fd then some (fd, { s with user := u })
  else
    match exe.refusal with
    | some r => some (r, { s with user := files.close fd u })
    | none => makeChild cur rooms files fd sp exe argv new { s with user := u }

end Spawn

/-- The env table is as the kernel keeps it, and so is what `env_alloc` comes to. -/
structure Ready (s : System) (cur : EnvPtr) (new : Fork) : Prop where
  running : (s.envs cur).envStatus ≠ .free
  ids : ∀ e, (s.envs e).envStatus ≠ .free → ∃ generation, (s.envs e).envId = envIdAt generation e
  slot : ∀ e generation, new = .child e generation → (s.envs e).envStatus = .free ∧ envIdAt generation e ≠ 0
  code : ∀ r, new = .refused r → r = -eNoMem ∨ r = -eNoFreeEnv

def Succeeds (s : System) (r : Word) (t : System) : Prop :=
  ∃ e, (s.envs e).envStatus = .free ∧ (t.envs e).envStatus = .runnable ∧ (t.envs e).envId = r

structure Restored (s t : System) : Prop where
  envs : ∀ e, (t.envs e).envStatus = .free ↔ (s.envs e).envStatus = .free
  pages : t.user.maps = s.user.maps

def Clean (s : System) (run : Option (Word × System)) : Prop :=
  ∀ r t, run = some (r, t) → Succeeds s r t ∨ negative r = true ∧ Restored s t

end Mos.Child
