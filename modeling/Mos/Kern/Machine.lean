import Mos.Kern.Vars
import Mos.Kern.Ipc

namespace Mos

def eNoSys : Word := 5

/-- `sizeof(struct Trapframe)` -/
def trapframeSize : Nat := 152

def loadFrame (load : Load) (va : Word) : Trapframe where
  regs r := loadWord load (va + BitVec.ofNat 32 (4 * r))
  cp0Status := loadWord load (va + 128)
  hi := loadWord load (va + 132)
  lo := loadWord load (va + 136)
  cp0Badvaddr := loadWord load (va + 140)
  cp0Cause := loadWord load (va + 144)
  cp0Epc := loadWord load (va + 148)

def Trapframe.words (tf : Trapframe) : List Word :=
  (List.range 32).map tf.regs ++ [tf.cp0Status, tf.hi, tf.lo, tf.cp0Badvaddr, tf.cp0Cause, tf.cp0Epc]

def wordBytes (w : Word) : List (BitVec 8) :=
  [w.setWidth 8, (w >>> 8).setWidth 8, (w >>> 16).setWidth 8, (w >>> 24).setWidth 8]

def sysPrintCons (s num : Word) (k : Kernel) : CallRes :=
  if utop < s + num ∨ utop ≤ s ∨ s + num < s then .err (-eInval) k else .ok (0, []) k

def sysGetenvid (cur : EnvPtr) (k : Kernel) : CallRes := .ok ((k.envs cur).envId, []) k

def tryTarget (found : Except Word EnvPtr) (k : Kernel) (f : EnvPtr → CallRes) : CallRes :=
  match found with
  | .ok e => f e
  | .error code => .err code k

def sysSetTlbModEntry (cur : EnvPtr) (envid func : Word) (k : Kernel) : CallRes :=
  tryTarget (envid2env k cur envid true) k fun env =>
    .ok (0, []) (k.updateEnv env fun e => { e with envUserTlbModEntry := func })

def sysSetTrapframe (cur : EnvPtr) (load : Load) (envid tf : Word) (k : Kernel) : CallRes :=
  if isIllegalVaRange tf (BitVec.ofNat 32 trapframeSize) then .err (-eInval) k
  else tryTarget (envid2env k cur envid true) k fun env =>
    if env = cur then .ok ((loadFrame load tf).regs 2, []) { k with tf := loadFrame load tf }
    else .ok (0, []) (k.updateEnv env fun e => { e with envTf := loadFrame load tf })

/-- `valid_addr_start` and `valid_addr_end` -/
def validAddr : List (Word × Word) := [(0x180003f8, 0x180003f8 + 0x20), (0x180001f0, 0x180001f8)]

def isIllegalDevRange (pa len : Word) : Bool :=
  if (pa % 4 ≠ 0 ∧ len ≠ 1 ∧ len ≠ 2) ∨ (pa % 2 ≠ 0 ∧ len ≠ 1) then true
  else !validAddr.any fun range => range.1 ≤ pa && pa + len ≤ range.2

/-- The checks of `sys_write_dev` and `sys_read_dev`. The division by zero traps. -/
def devAccess (va pa len : Word) (k : Kernel) (f : CallRes) : CallRes :=
  if isIllegalVaRange va len || isIllegalDevRange pa len then .err (-eInval) k
  else if len = 0 then .stop .panic
  else if va % len ≠ 0 then .err (-eInval) k
  else if len = 4 ∨ len = 2 ∨ len = 1 then f
  else .err (-eInval) k

def sysWriteDev (va pa len : Word) (k : Kernel) : CallRes := devAccess va pa len k (.ok (0, []) k)

/-- `data` is what the device gives. -/
def sysReadDev (va pa len data : Word) (k : Kernel) : CallRes :=
  devAccess va pa len k (.ok (0, copyOut va ((wordBytes data).take len.toNat)) k)

/-- The system calls beside those of `Call`. `sys_putchar` returns what happens to be in `$v0`, `sys_cgetc` the
    character that it waits for. -/
inductive UserCall where
  | putchar (c v0 : Word)
  | printCons (s num : Word)
  | getenvid
  | setTlbModEntry (envid func : Word)
  | setTrapframe (envid tf : Word)
  | panic (msg : Word)
  | cgetc (ch : Word)
  | writeDev (va pa len : Word)
  | readDev (va pa len data : Word)
  | getcwd (buf len : Word)
  | chdir (userPath : Word)
  | setVar (userName userValue flags : Word)
  | getVar (userName userBuf : Word)
  | unsetVar (userName : Word)
  | getVarByIndex (index userBuf : Word)

def userTable (cur : EnvPtr) (load : Load) : UserCall → Kernel → CallRes
  | .putchar _ v0 => .ok (v0, [])
  | .printCons s num => sysPrintCons s num
  | .getenvid => sysGetenvid cur
  | .setTlbModEntry envid func => sysSetTlbModEntry cur envid func
  | .setTrapframe envid tf => sysSetTrapframe cur load envid tf
  | .panic _ => fun _ => .stop .panic
  | .cgetc ch => .ok (ch, [])
  | .writeDev va pa len => sysWriteDev va pa len
  | .readDev va pa len data => sysReadDev va pa len data
  | .getcwd buf len => sysGetcwd cur buf len
  | .chdir userPath => sysChdir cur load userPath
  | .setVar userName userValue flags => sysSetVar cur load userName userValue flags
  | .getVar userName userBuf => sysGetVar cur load userName userBuf
  | .unsetVar userName => sysUnsetVar cur load userName
  | .getVarByIndex index userBuf => sysGetVarByIndex cur index userBuf

/-- The stores of the kernel to user addresses, when they all land; `kernelMod` is what else happens. The TLB refill of a
    missing page is a step before. -/
def storeBytes (cur : EnvPtr) : List Store → Kernel → Option Kernel
  | [], k => some k
  | (va, b) :: rest, k =>
    (translate k.vm (k.envs cur).envPgdir va).bind fun pte =>
      if pte &&& pteD = 0 then none
      else storeBytes cur rest (k.putVm { k.vm with
        mem := Function.update k.vm.mem (ppn pte) (setByte (k.vm.mem (ppn pte)) (va.toNat % 4096) b) })

/-- The place of the frame that `do_tlb_mod` copies to the exception stack. -/
def exceptionSp (tf : Trapframe) : Word :=
  (if tf.regs 29 < ustacktop ∨ uxstacktop ≤ tf.regs 29 then uxstacktop else tf.regs 29) - BitVec.ofNat 32 trapframeSize

/-- The stores of `do_tlb_mod`. -/
def frameStores (tf : Trapframe) : List Store := copyOut (exceptionSp tf) (tf.words.flatMap wordBytes)

/-- `do_tlb_mod`: the frame with which the handler of the env goes on, and the copy of the old one on the exception
    stack. `page_lookup` is called for nothing. -/
def doTlbMod (cur : EnvPtr) (tf : Trapframe) (k : Kernel) : Option Kernel :=
  if (k.envs cur).envUserTlbModEntry = 0 then none
  else (storeBytes cur (frameStores tf) k).map fun k =>
    { k with tf := { (tf.setReg 4 (exceptionSp tf)).setReg 29 (exceptionSp tf - 4) with
      cp0Epc := (k.envs cur).envUserTlbModEntry } }

/-- What a system call takes from outside the kernel: the user's memory, the `$v0` that `sys_putchar` leaves, the
    console and the device. -/
structure Outside where
  load : Load
  v0 : Word
  ch : Word
  data : Word

structure Args where
  arg1 : Word
  arg2 : Word
  arg3 : Word
  arg4 : Word
  arg5 : Word

def Args.of (tf : Trapframe) (load : Load) : Args :=
  ⟨tf.regs 5, tf.regs 6, tf.regs 7, loadWord load (tf.regs 29 + 16), loadWord load (tf.regs 29 + 20)⟩

def maxSysno : Nat := 24

/-- `syscall_table` -/
def syscallAt (a : Args) (out : Outside) : Nat → Option (Call ⊕ UserCall)
  | 0 => some (.inr (.putchar a.arg1 out.v0))
  | 1 => some (.inr (.printCons a.arg1 a.arg2))
  | 2 => some (.inr .getenvid)
  | 3 => some (.inl .yield)
  | 4 => some (.inl (.envDestroy a.arg1 a.arg2))
  | 5 => some (.inr (.setTlbModEntry a.arg1 a.arg2))
  | 6 => some (.inl (.memAlloc a.arg1 a.arg2 a.arg3))
  | 7 => some (.inl (.memMap a.arg1 a.arg2 a.arg3 a.arg4 a.arg5))
  | 8 => some (.inl (.memUnmap a.arg1 a.arg2))
  | 9 => some (.inl .exofork)
  | 10 => some (.inl (.setEnvStatus a.arg1 a.arg2))
  | 11 => some (.inr (.setTrapframe a.arg1 a.arg2))
  | 12 => some (.inr (.panic a.arg1))
  | 13 => some (.inl (.ipcTrySend a.arg1 a.arg2 a.arg3 a.arg4))
  | 14 => some (.inl (.ipcRecv a.arg1))
  | 15 => some (.inr (.cgetc out.ch))
  | 16 => some (.inr (.writeDev a.arg1 a.arg2 a.arg3))
  | 17 => some (.inr (.readDev a.arg1 a.arg2 a.arg3 out.data))
  | 18 => some (.inr (.getcwd a.arg1 a.arg2))
  | 19 => some (.inr (.chdir a.arg1))
  | 20 => some (.inr (.setVar a.arg1 a.arg2 a.arg3))
  | 21 => some (.inr (.getVar a.arg1 a.arg2))
  | 22 => some (.inr (.unsetVar a.arg1))
  | 23 => some (.inr (.getVarByIndex a.arg1 a.arg2))
  | _ => none

/-- `do_syscall`. A number without an entry is refused before the EPC is moved. -/
def doAnySyscall (cur : EnvPtr) (tf : Trapframe) (out : Outside) (k : Kernel) : Option Kernel :=
  if (tf.regs 4).toInt < 0 ∨ maxSysno ≤ (tf.regs 4).toInt then some { k with tf := tf.setReg 2 (-eNoSys) }
  else
    match syscallAt (Args.of tf out.load) out (tf.regs 4).toNat with
    | none => none
    | some (.inl call) => doSyscall cur tf call k
    | some (.inr call) =>
      match userTable cur out.load call (k.trap tf) with
      | .ok (r, stores) k => (storeBytes cur stores k).map fun k => { k with tf := k.tf.setReg 2 r }
      | .err r k => some { k with tf := k.tf.setReg 2 r }
      | .stop _ => none

/-- The kernel at the first store that goes to a page without `PTE_D`, if one does. -/
def storesUntilMod (cur : EnvPtr) : List Store → Kernel → Option Kernel
  | [], _ => none
  | s :: rest, k =>
    (translate k.vm (k.envs cur).envPgdir s.1).bind fun pte =>
      if pte &&& pteD = 0 then some k else (storeBytes cur [s] k).bind (storesUntilMod cur rest)

/-- The stores with which a system call ends, and for `none` those of `do_tlb_mod`. -/
def pendingStores (cur : EnvPtr) (tf : Trapframe) (k : Kernel) : Option Outside → Option (List Store × Kernel)
  | some out =>
    if (tf.regs 4).toInt < 0 ∨ maxSysno ≤ (tf.regs 4).toInt then none
    else
      match syscallAt (Args.of tf out.load) out (tf.regs 4).toNat with
      | some (.inr call) =>
        match userTable cur out.load call (k.trap tf) with
        | .ok (_, stores) k => some (stores, k)
        | _ => none
      | _ => none
  | none => if (k.envs cur).envUserTlbModEntry = 0 then none else some (frameStores tf, k)

def statusIe : Word := 0x1
def statusExl : Word := 0x2
def statusUm : Word := 0x10

/-- What the kernel's own exception saves: `exc_gen_entry` has cleared three bits of the status, the exception sets one. -/
def nestedStatus (tf : Trapframe) : Word := tf.cp0Status &&& ~~~(statusUm ||| statusExl ||| statusIe) ||| statusExl

/-- The TLB Mod exception of the kernel itself. `do_tlb_mod` treats the frame on the kernel's stack as one of the env.
    `inner` has the registers of the kernel. A second exception of the kernel repeats without end. -/
def kernelMod (cur : EnvPtr) (tf : Trapframe) (out : Option Outside) (inner : Trapframe) (k : Kernel) : Option Kernel :=
  if inner.regs 29 < ulim then none
  else
    (pendingStores cur tf k out).bind fun pending =>
      (storesUntilMod cur pending.1 pending.2).bind (doTlbMod cur { inner with cp0Status := nestedStatus tf })

/-- What happens next: a system call of the env that runs, a timer interrupt, a TLB miss, a store of the env to its own
    memory, one to a page without `PTE_D`, one of the kernel to such a page in a system call or a `do_tlb_mod`, or
    `mips_init` creates an env. -/
inductive MachineOp where
  | syscall (tf : Trapframe) (out : Outside)
  | timer (tf : Trapframe)
  | tlbRefill (va : Word) (victim : Nat)
  | store (va : Word) (b : BitVec 8)
  | tlbMod (tf : Trapframe)
  | kernelMod (tf : Trapframe) (out : Option Outside) (inner : Trapframe)
  | envCreate (binary : Binary) (priority : Word)

/-- The machine with all the system calls. -/
def machineStep (k : Kernel) : MachineOp → Option Kernel
  | .syscall tf out => k.curenv.bind fun cur => doAnySyscall cur tf out k
  | .timer tf => step k (.timer tf)
  | .tlbRefill va victim => step k (.tlbRefill va victim)
  | .store va b => k.curenv.bind fun cur => storeBytes cur [(va, b)] k
  | .tlbMod tf => k.curenv.bind fun cur => doTlbMod cur tf k
  | .kernelMod tf out inner => k.curenv.bind fun cur => kernelMod cur tf out inner k
  | .envCreate binary priority => step k (.envCreate binary priority)

end Mos
