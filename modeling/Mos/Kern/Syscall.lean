import Mos.Kern.Env

namespace Mos

def EnvStatus.code : EnvStatus → Word
  | .free => 0
  | .runnable => 1
  | .notRunnable => 2
  | .zombie => 3

/-- A system call returns `some r` to `do_syscall`, or `none` when it has switched to another env. -/
abbrev SysRes := Res Kernel (Option Word)

def tryEnv (found : Except Word EnvPtr) (k : Kernel) (f : EnvPtr → SysRes) : SysRes :=
  match found with
  | .ok e => f e
  | .error code => .err code k

def ret (r : Word) {α : Type} (res : Res Kernel α) : SysRes := res.bind fun _ k => .ok (some r) k

def switch (res : Res Kernel Unit) : SysRes := res.bind fun _ k => .ok none k

def sysYield (k : Kernel) : SysRes := switch (schedule true k)

def sysEnvDestroy (cur : EnvPtr) (envid status : Word) (k : Kernel) : SysRes :=
  match envid2env k cur envid true with
  | .error _ => .err (-eBadEnv) k
  | .ok e =>
    if e = cur then
      let k := k.updateEnv e fun env => { env with envExitStatus := status, envStatus := .zombie }
      switch ((k.tailqRemove e).bind fun _ k => schedule true k)
    else if (k.envs e).envParentId ≠ (k.envs cur).envId ∨ (k.envs e).envStatus ≠ .zombie then .err (-eBadEnv) k
    else ret 0 (envDestroy e k)

def isIllegalVa (va : Word) : Bool := va < utemp || utop ≤ va

def sysMemAlloc (cur : EnvPtr) (envid va perm : Word) (k : Kernel) : SysRes :=
  if isIllegalVa va then .err (-eInval) k
  else tryEnv (envid2env k cur envid true) k fun env =>
    (k.withVm (pageAlloc k.vm)).bind fun pp k =>
      ret 0 (k.withVm (pageInsert k.vm (k.envs env).envPgdir (asidWord (k.envs env).envAsid) pp va perm))

def sysMemMap (cur : EnvPtr) (srcid srcva dstid dstva perm : Word) (k : Kernel) : SysRes :=
  if isIllegalVa srcva || isIllegalVa dstva then .err (-eInval) k
  else tryEnv (envid2env k cur srcid true) k fun srcenv =>
    tryEnv (envid2env k cur dstid true) k fun dstenv =>
      (k.withVm (pageLookup k.vm (k.envs srcenv).envPgdir srcva)).bind fun found k =>
        match found with
        | none => .err (-eInval) k
        | some (pp, _) =>
          ret 0 (k.withVm
            (pageInsert k.vm (k.envs dstenv).envPgdir (asidWord (k.envs dstenv).envAsid) pp dstva perm))

def sysMemUnmap (cur : EnvPtr) (envid va : Word) (k : Kernel) : SysRes :=
  if isIllegalVa va then .err (-eInval) k
  else tryEnv (envid2env k cur envid true) k fun e =>
    ret 0 (k.withVm (pageRemove k.vm (k.envs e).envPgdir (asidWord (k.envs e).envAsid) va))

def sysExofork (cur : EnvPtr) (k : Kernel) : SysRes :=
  (envAlloc (k.envs cur).envId k).bind fun e k =>
    let k := k.updateEnv e fun env =>
      { env with envTf := k.tf.setReg 2 0, envStatus := .notRunnable, envPri := (k.envs cur).envPri }
    .ok (some (k.envs e).envId) k

/-- Steps 3 to 5 of `sys_set_env_status`. -/
def setEnvStatus (cur env : EnvPtr) (status : EnvStatus) (k : Kernel) : SysRes :=
  (if status = .runnable ∧ (k.envs env).envStatus ≠ .runnable then .ok () (k.tailqInsertTail env)
    else if status = .notRunnable ∧ (k.envs env).envStatus ≠ .notRunnable then k.tailqRemove env
    else .ok () k).bind fun _ k =>
  let k := k.updateEnv env fun e => { e with envStatus := status }
  if env = cur then switch (schedule true k) else .ok (some 0) k

def sysSetEnvStatus (cur : EnvPtr) (envid status : Word) (k : Kernel) : SysRes :=
  if status ≠ EnvStatus.runnable.code ∧ status ≠ EnvStatus.notRunnable.code then .err (-eInval) k
  else tryEnv (envid2env k cur envid true) k fun env =>
    setEnvStatus cur env (if status = EnvStatus.runnable.code then .runnable else .notRunnable) k

def sysIpcRecv (cur : EnvPtr) (dstva : Word) (k : Kernel) : SysRes :=
  if dstva ≠ 0 ∧ isIllegalVa dstva then .err (-eInval) k
  else
    let k := k.updateEnv cur fun env =>
      { env with envIpcRecving := 1, envIpcDstva := dstva, envStatus := .notRunnable }
    switch ((k.tailqRemove cur).bind fun _ k => schedule true { k with tf := k.tf.setReg 2 0 })

/-- Steps 4 and 5 of `sys_ipc_try_send`: the receiver's fields are set and it is made runnable. -/
def ipcDeliver (cur e : EnvPtr) (value perm : Word) (k : Kernel) : Kernel :=
  let k := k.updateEnv e fun env =>
    { env with envIpcValue := value, envIpcFrom := (k.envs cur).envId, envIpcPerm := pteV ||| perm,
               envIpcRecving := 0, envStatus := .runnable }
  k.tailqInsertTail e

/-- Step 6 of `sys_ipc_try_send`: the page transfer. -/
def ipcMap (cur e : EnvPtr) (srcva perm : Word) (k : Kernel) : SysRes :=
  if srcva ≠ 0 then
    (k.withVm (pageLookup k.vm (k.envs cur).envPgdir srcva)).bind fun found k =>
      match found with
      | none => .err (-eInval) k
      | some (p, _) =>
        ret 0 (k.withVm (pageInsert k.vm (k.envs e).envPgdir (asidWord (k.envs e).envAsid) p
          (k.envs e).envIpcDstva perm))
  else .ok (some 0) k

def sysIpcTrySend (cur : EnvPtr) (envid value srcva perm : Word) (k : Kernel) : SysRes :=
  if srcva ≠ 0 ∧ isIllegalVa srcva then .err (-eInval) k
  else tryEnv (envid2env k cur envid false) k fun e =>
    if (k.envs e).envIpcRecving ≠ 1 then .err (-eIpcNotRecv) k
    else ipcMap cur e srcva perm (ipcDeliver cur e value perm k)

inductive Call where
  | yield
  | envDestroy (envid status : Word)
  | memAlloc (envid va perm : Word)
  | memMap (srcid srcva dstid dstva perm : Word)
  | memUnmap (envid va : Word)
  | exofork
  | setEnvStatus (envid status : Word)
  | ipcTrySend (envid value srcva perm : Word)
  | ipcRecv (dstva : Word)
deriving DecidableEq

def syscallTable (cur : EnvPtr) : Call → Kernel → SysRes
  | .yield => sysYield
  | .envDestroy envid status => sysEnvDestroy cur envid status
  | .memAlloc envid va perm => sysMemAlloc cur envid va perm
  | .memMap srcid srcva dstid dstva perm => sysMemMap cur srcid srcva dstid dstva perm
  | .memUnmap envid va => sysMemUnmap cur envid va
  | .exofork => sysExofork cur
  | .setEnvStatus envid status => sysSetEnvStatus cur envid status
  | .ipcTrySend envid value srcva perm => sysIpcTrySend cur envid value srcva perm
  | .ipcRecv dstva => sysIpcRecv cur dstva

/-- The trap saves the frame and `do_syscall` moves it past the `syscall` instruction. -/
def Kernel.trap (k : Kernel) (tf : Trapframe) : Kernel := { k with tf := { tf with cp0Epc := tf.cp0Epc + 4 } }

def doSyscall (cur : EnvPtr) (tf : Trapframe) (call : Call) (k : Kernel) : Option Kernel :=
  match syscallTable cur call (k.trap tf) with
  | .ok (some r) k => some { k with tf := k.tf.setReg 2 r }
  | .ok none k => some k
  | .err r k => some { k with tf := k.tf.setReg 2 r }
  | .stop _ => none

/-- What happens next in the machine: the current env traps into a system call, a timer interrupt or a
    TLB miss, or `mips_init` creates an env. -/
inductive Op where
  | syscall (tf : Trapframe) (call : Call)
  | timer (tf : Trapframe)
  | tlbRefill (va : Word) (victim : Nat)
  | envCreate (binary : Binary) (priority : Word)

def step (k : Kernel) : Op → Option Kernel
  | .syscall tf call => k.curenv.bind fun cur => doSyscall cur tf call k
  | .timer tf => Result.state (schedule false { k with tf := tf })
  | .tlbRefill va victim => k.curenv.bind fun cur =>
      Result.state (k.withVm (doTlbRefill va k.curPgdir (asidWord (k.envs cur).envAsid) victim k.vm))
  | .envCreate binary priority => Result.state (envCreate binary priority k)

end Mos
