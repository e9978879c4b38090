import Mos.Kern.Pmap
import Mos.Lib.TailQueue
import Mathlib.Data.Fin.Basic

namespace Mos

abbrev EnvPtr := Fin 1024

-- the instances of the literals of envs and ASIDs, here and in all modules above
instance nenv_neZero : NeZero 1024 := ⟨by decide⟩
instance nasid_neZero : NeZero 256 := ⟨by decide⟩

inductive EnvStatus where
  | free
  | runnable
  | notRunnable
  | zombie
deriving DecidableEq

structure Trapframe where
  regs : Nat → Word
  cp0Status : Word
  hi : Word
  lo : Word
  cp0Badvaddr : Word
  cp0Cause : Word
  cp0Epc : Word

def Trapframe.setReg (tf : Trapframe) (r : Nat) (w : Word) : Trapframe :=
  { tf with regs := Function.update tf.regs r w }

/-- `struct Env` without its links: `env_link` is `Kernel.envFreeList`, `env_sched_link` is
    `Kernel.envSchedList`. Pages are named by number, a null `env_vars` is `none`. -/
structure Env where
  envTf : Trapframe
  envId : Word
  envAsid : Fin 256
  envParentId : Word
  envStatus : EnvStatus
  envPgdir : Nat
  envPri : Word
  envIpcValue : Word
  envIpcFrom : Word
  envIpcRecving : Word
  envIpcDstva : Word
  envIpcPerm : Word
  envUserTlbModEntry : Word
  envRuns : Word
  envCwd : List (BitVec 8)
  envExitStatus : Word
  envVars : Option Nat

/-- The kernel's variables. `tf` is the trap frame below `KSTACKTOP`, `count` the static of
    `schedule` and `mkenvidI` the static of `mkenvid`. -/
structure Kernel where
  vm : Vm
  envs : EnvPtr → Env
  envFreeList : List EnvPtr
  envSchedList : TailQueue.Links EnvPtr
  asidBitmap : Fin 256 → Bool
  mkenvidI : Word
  curenv : Option EnvPtr
  curPgdir : Nat
  count : Word
  tf : Trapframe
  basePgdir : Nat

namespace Kernel

def putVm (k : Kernel) (vm : Vm) : Kernel := { k with vm := vm }

def updateEnv (k : Kernel) (e : EnvPtr) (f : Env → Env) : Kernel :=
  { k with envs := Function.update k.envs e (f (k.envs e)) }

def withVm {α : Type} (k : Kernel) (r : Res Vm α) : Res Kernel α := r.lift k.putVm

def tailqInsertHead (k : Kernel) (e : EnvPtr) : Kernel := { k with envSchedList := k.envSchedList.insertHead e }

def tailqInsertTail (k : Kernel) (e : EnvPtr) : Kernel := { k with envSchedList := k.envSchedList.insertTail e }

def tailqRemove (k : Kernel) (e : EnvPtr) : Res Kernel Unit :=
  match k.envSchedList.remove e with
  | some q => .ok () { k with envSchedList := q }
  | none => .stop .fault

end Kernel

def asidWord (asid : Fin 256) : Word := BitVec.ofNat 32 asid.val

def asidAlloc (k : Kernel) : Res Kernel (Fin 256) :=
  match (List.finRange 256).find? fun i => !k.asidBitmap i with
  | some i => .ok i { k with asidBitmap := Function.update k.asidBitmap i true }
  | none => .err (-eNoFreeEnv) k

def asidFree (k : Kernel) (i : Fin 256) : Kernel := { k with asidBitmap := Function.update k.asidBitmap i false }

def mkenvid (k : Kernel) (e : EnvPtr) : Word × Kernel :=
  let i := k.mkenvidI + 1
  ((i <<< 11) ||| BitVec.ofNat 32 e.val, { k with mkenvidI := i })

def envx (envid : Word) : EnvPtr := Fin.ofNat 1024 (envid &&& 1023).toNat

/-- `cur` is `curenv`, which is set whenever a system call runs. -/
def envid2env (k : Kernel) (cur : EnvPtr) (envid : Word) (checkperm : Bool) : Except Word EnvPtr :=
  if envid = 0 then .ok cur
  else
    let e := envx envid
    if (k.envs e).envStatus = .free ∨ (k.envs e).envId ≠ envid then .error (-eBadEnv)
    else if checkperm ∧ e ≠ cur ∧ (k.envs e).envParentId ≠ (k.envs cur).envId then .error (-eBadEnv)
    else .ok e

theorem toOption_ok {code : Type} {found : Except code EnvPtr} {e : EnvPtr} (h : found.toOption = some e) : found = .ok e := by
  cases found with
  | ok b => cases h; rfl
  | error c => cases h

/-- The page directory that `env_setup_vm` fills in page `p`: the template's entries for `UPAGES` and
    `UENVS`, and the self map at `UVPT`. -/
def setupPgdir (mem : Nat → Nat → Word) (basePgdir p : Nat) : Nat → Word := fun i =>
  if i = pdx uvpt then page2pa p ||| pteV
  else if pdx utop ≤ i ∧ i < pdx uvpt then mem basePgdir i
  else mem p i

def envSetupVm (e : EnvPtr) (k : Kernel) : Res Kernel Unit :=
  (k.withVm (pageAlloc k.vm)).bind fun p k =>
    let k := k.putVm (k.vm.incRef p)
    let k := k.updateEnv e fun env => { env with envPgdir := p }
    .ok () (k.putVm { k.vm with mem := Function.update k.vm.mem p (setupPgdir k.vm.mem k.basePgdir p) })

def maxVars : Nat := 64
def varUsed : Word := 1
def varExport : Word := 2
def varReadonly : Word := 4

/-- `struct Var` is ten words: two 17-byte strings and, in the last word, the flags. -/
def varWords : Nat := 10

def inheritVars (parent child : Nat → Word) : Nat → Word := fun w =>
  let flags := parent (varWords * (w / varWords) + 9)
  if w < maxVars * varWords ∧ flags &&& varUsed ≠ 0 ∧ flags &&& varExport ≠ 0 then parent w else child w

def rootCwd : List (BitVec 8) := [0x2f]

/-- The part of `env_alloc` that sets `env_cwd` and the variable table of the new env. -/
def envInherit (e : EnvPtr) (parentId : Word) (vars : Nat) (k : Kernel) : Res Kernel Unit :=
  if parentId = 0 then .ok () (k.updateEnv e fun env => { env with envCwd := rootCwd })
  else
    match envid2env k e parentId false with
    | .ok parent =>
      match (k.envs parent).envVars with
      | none => .stop .panic
      | some from_ =>
        let k := k.updateEnv e fun env => { env with envCwd := (k.envs parent).envCwd }
        let page := inheritVars (k.vm.mem from_) (k.vm.mem vars)
        .ok () (k.putVm { k.vm with mem := Function.update k.vm.mem vars page })
    | .error _ => .ok () (k.updateEnv e fun env => { env with envCwd := rootCwd })

def statusInit : Word := 0x00008000 ||| 0x1 ||| 0x2 ||| 0x10

def envAlloc (parentId : Word) (k : Kernel) : Res Kernel EnvPtr :=
  match k.envFreeList with
  | [] => .err (-eNoFreeEnv) k
  | e :: rest =>
    (envSetupVm e k).bind fun _ k =>
      match pageAlloc k.vm with
      | .err r vm => (k.withVm (pageFree vm (k.envs e).envPgdir)).bind fun _ k => .err r k
      | .stop cause => .stop cause
      | .ok vars vm =>
        let k := k.putVm (vm.incRef vars)
        let k := k.updateEnv e fun env =>
          { env with envVars := some vars, envUserTlbModEntry := 0, envRuns := 0 }
        (asidAlloc k).bind fun asid k =>
          let k := k.updateEnv e fun env => { env with envAsid := asid }
          let (id, k) := mkenvid k e
          let k := k.updateEnv e fun env => { env with envId := id, envParentId := parentId }
          (envInherit e parentId vars k).bind fun _ k =>
            let k := k.updateEnv e fun env =>
              { env with envTf := { env.envTf.setReg 29 (ustacktop - 8) with cp0Status := statusInit } }
            .ok e { k with envFreeList := rest }

/-- One call of `load_icode_mapper`: the page, its permission and its contents after the copy. -/
structure IcodePage where
  va : Word
  perm : Word
  words : Nat → Word

/-- What `elf_load_seg` makes of a binary: the pages in order and the entry point. -/
structure Binary where
  pages : List IcodePage
  entry : Word

def loadIcodeMapper (pgdir : Nat) (asid : Word) (page : IcodePage) (vm : Vm) : Res Vm Unit :=
  (pageAlloc vm).bind fun p vm =>
    pageInsert { vm with mem := Function.update vm.mem p page.words } pgdir asid p page.va page.perm

def loadPages (pgdir : Nat) (asid : Word) : List IcodePage → Vm → Res Vm Unit
  | [], vm => .ok () vm
  | page :: pages, vm => (loadIcodeMapper pgdir asid page vm).bind fun _ vm => loadPages pgdir asid pages vm

/-- `panic_on`: any error is a panic. -/
def panicOn {σ α : Type} : Res σ α → Res σ α
  | .ok a s => .ok a s
  | .err _ _ => .stop .panic
  | .stop cause => .stop cause

def loadIcode (e : EnvPtr) (binary : Binary) (k : Kernel) : Res Kernel Unit :=
  (panicOn (k.withVm (loadPages (k.envs e).envPgdir (asidWord (k.envs e).envAsid) binary.pages k.vm))).bind
    fun _ k => .ok () (k.updateEnv e fun env => { env with envTf := { env.envTf with cp0Epc := binary.entry } })

def envCreate (binary : Binary) (priority : Word) (k : Kernel) : Res Kernel EnvPtr :=
  (panicOn (envAlloc 0 k)).bind fun e k =>
    let k := k.updateEnv e fun env => { env with envPri := priority, envStatus := .runnable }
    (loadIcode e binary k).bind fun _ k => .ok e (k.tailqInsertHead e)

/-- The body of the outer loop of `env_free`, for one page directory entry. -/
def envFreePde (pgdir : Nat) (asid : Word) (pdeno : Nat) (vm : Vm) : Res Vm Unit :=
  let pde := vm.mem pgdir pdeno
  if pde &&& pteV = 0 then .ok () vm
  else if vm.npage ≤ ppn pde then .stop .panic
  else
    (Result.forRange 1024 (fun pteno vm =>
      if vm.mem (ppn pde) pteno &&& pteV ≠ 0 then
        pageRemove vm pgdir asid (BitVec.ofNat 32 pdeno <<< pdshift ||| BitVec.ofNat 32 pteno <<< pgshift)
      else .ok () vm) vm).bind fun _ vm =>
    (pageDecref (vm.write ⟨pgdir, pdeno⟩ 0) (ppn pde)).bind fun _ vm =>
      .ok () (tlbInvalidate vm asid (uvpt + BitVec.ofNat 32 pdeno <<< pgshift))

def envFree (e : EnvPtr) (k : Kernel) : Res Kernel Unit :=
  let pgdir := (k.envs e).envPgdir
  let asid := asidWord (k.envs e).envAsid
  (match (k.envs e).envVars with
    | some vars => (k.withVm (pageDecref k.vm vars)).bind fun _ k =>
        .ok () (k.updateEnv e fun env => { env with envVars := none })
    | none => .ok () k).bind fun _ k =>
  (k.withVm (Result.forRange (pdx utop) (envFreePde pgdir asid) k.vm)).bind fun _ k =>
  (k.withVm (pageDecref k.vm pgdir)).bind fun _ k =>
    let k := asidFree k (k.envs e).envAsid
    let k := k.putVm (tlbInvalidate k.vm asid (uvpt + BitVec.ofNat 32 (pdx uvpt) <<< pgshift))
    let k := k.updateEnv e fun env => { env with envStatus := .free }
    let k := { k with envFreeList := e :: k.envFreeList }
    k.tailqRemove e

/-- `env_run` saves the frame of `curenv`, and `env_pop_tf` restores the frame of `e`. -/
def envRun (e : EnvPtr) (k : Kernel) : Res Kernel Unit :=
  if (k.envs e).envStatus ≠ .runnable then .stop .panic
  else
    let k := match k.curenv with
      | some cur => k.updateEnv cur fun env => { env with envTf := k.tf }
      | none => k
    let k := { k with curenv := some e }
    let k := k.updateEnv e fun env => { env with envRuns := env.envRuns + 1 }
    .ok () { k with curPgdir := (k.envs e).envPgdir, tf := (k.envs e).envTf }

def Kernel.curRunnable (k : Kernel) : Option EnvPtr :=
  k.curenv.filter fun e => (k.envs e).envStatus = .runnable

def schedule (yield : Bool) (k : Kernel) : Res Kernel Unit :=
  match yield || k.count == 0, k.curRunnable with
  | false, some e => envRun e { k with count := k.count - 1 }
  | _, cur =>
    (match cur with
      | some e => (k.tailqRemove e).bind fun _ k => .ok () (k.tailqInsertTail e)
      | none => .ok () k).bind fun _ k =>
    match k.envSchedList.first with
    | none => .stop .panic
    | some e => envRun e { k with count := (k.envs e).envPri - 1 }

/-- `env_destroy`, with `schedule(1)` when the env destroys itself. -/
def envDestroy (e : EnvPtr) (k : Kernel) : Res Kernel Unit :=
  (envFree e k).bind fun _ k =>
    if k.curenv = some e then schedule true { k with curenv := none } else .ok () k

end Mos
