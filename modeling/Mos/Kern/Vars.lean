import Mos.Kern.Syscall
import Mos.Lib.Bytes

namespace Mos

def ePerm : Word := 16
def eVarNotFound : Word := 15

def maxPathLen : Nat := 1024
def maxVarNameLen : Nat := 16
def maxVarValueLen : Nat := 16

/-- `sizeof(struct Var)`, and the place of `value` in it. The flags are its last word. -/
def varSize : Nat := 40
def varValue : Nat := 17

/-- What the user's memory holds, byte by byte. The TLB misses of the kernel's own loads are steps before the call. -/
abbrev Load := Word → BitVec 8

def loadWord (load : Load) (va : Word) : Word :=
  (load va).setWidth 32 ||| (load (va + 1)).setWidth 32 <<< 8 ||| (load (va + 2)).setWidth 32 <<< 16 |||
    (load (va + 3)).setWidth 32 <<< 24

/-- The loops that copy a string from the user: at most `n` bytes, each address checked before it is read. -/
def copyIn (load : Load) (va : Word) : Nat → Except Word (List (BitVec 8))
  | 0 => .ok []
  | n + 1 =>
    if isIllegalVa va then .error (-eInval)
    else if load va = 0 then .ok []
    else (copyIn load (va + 1) n).map (load va :: ·)

def isIllegalVaRange (va len : Word) : Bool :=
  if len = 0 then false else va + len < va || va < utemp || utop < va + len

/-- A byte that the kernel stores at a user address. -/
abbrev Store := Word × BitVec 8

def copyOut (va : Word) : List (BitVec 8) → List Store
  | [] => []
  | b :: rest => (va, b) :: copyOut (va + 1) rest

/-- A system call returns its result with the stores to user memory, which all come last. -/
abbrev CallRes := Res Kernel (Word × List Store)

def tryCopy (copied : Except Word (List (BitVec 8))) (k : Kernel) (f : List (BitVec 8) → CallRes) : CallRes :=
  match copied with
  | .ok bytes => f bytes
  | .error code => .err code k

def varFlags (words : Nat → Word) (i : Nat) : Word := words (varWords * i + 9)

def varUnused (words : Nat → Word) (i : Nat) : Bool := varFlags words i &&& varUsed = 0

def findVar (words : Nat → Word) (name : List (BitVec 8)) : Option Nat :=
  (List.range maxVars).find? fun i => !varUnused words i && cString words (varSize * i) (maxVarNameLen + 1) = name

def structVar (words : Nat → Word) (i : Nat) : List (BitVec 8) :=
  (List.range varSize).map fun off => byteAt words (varSize * i + off)

def withVars (cur : EnvPtr) (k : Kernel) (f : Nat → CallRes) : CallRes :=
  match (k.envs cur).envVars with
  | some vars => f vars
  | none => .stop .fault

def putVars (k : Kernel) (vars : Nat) (words : Nat → Word) : Kernel :=
  k.putVm { k.vm with mem := Function.update k.vm.mem vars words }

def sysSetVar (cur : EnvPtr) (load : Load) (userName userValue flags : Word) (k : Kernel) : CallRes :=
  tryCopy (copyIn load userName maxVarNameLen) k fun name =>
  tryCopy (copyIn load userValue maxVarValueLen) k fun value =>
  withVars cur k fun vars =>
    let words := k.vm.mem vars
    match findVar words name with
    | some i =>
      if varFlags words i &&& varReadonly ≠ 0 then .err (-ePerm) k
      else
        let set := setBytes words (varSize * i + varValue) (value ++ [0])
        let flags := varFlags set i ||| flags &&& (varExport ||| varReadonly)
        .ok (0, []) (putVars k vars (Function.update set (varWords * i + 9) flags))
    | none =>
      match (List.range maxVars).find? (varUnused words) with
      | none => .err (-eNoMem) k
      | some i =>
        let set := setBytes (setBytes words (varSize * i) (name ++ [0])) (varSize * i + varValue) (value ++ [0])
        .ok (0, []) (putVars k vars (Function.update set (varWords * i + 9) (varUsed ||| flags)))

def sysGetVar (cur : EnvPtr) (load : Load) (userName userBuf : Word) (k : Kernel) : CallRes :=
  tryCopy (copyIn load userName maxVarNameLen) k fun name =>
  if isIllegalVaRange userBuf (BitVec.ofNat 32 varSize) then .err (-eInval) k
  else withVars cur k fun vars =>
    match findVar (k.vm.mem vars) name with
    | none => .err (-eVarNotFound) k
    | some i => .ok (0, copyOut userBuf (structVar (k.vm.mem vars) i)) k

def sysUnsetVar (cur : EnvPtr) (load : Load) (userName : Word) (k : Kernel) : CallRes :=
  tryCopy (copyIn load userName maxVarNameLen) k fun name =>
  withVars cur k fun vars =>
    let words := k.vm.mem vars
    match findVar words name with
    | none => .ok (0, []) k
    | some i =>
      if varFlags words i &&& varReadonly ≠ 0 then .err (-ePerm) k
      else .ok (0, []) (putVars k vars (Function.update words (varWords * i + 9) 0))

def sysGetVarByIndex (cur : EnvPtr) (index userBuf : Word) (k : Kernel) : CallRes :=
  if BitVec.ofNat 32 maxVars ≤ index then .err (-eInval) k
  else if isIllegalVaRange userBuf (BitVec.ofNat 32 varSize) then .err (-eInval) k
  else withVars cur k fun vars =>
    if varUnused (k.vm.mem vars) index.toNat then .err (-eVarNotFound) k
    else .ok (0, copyOut userBuf (structVar (k.vm.mem vars) index.toNat)) k

def sysGetcwd (cur : EnvPtr) (buf len : Word) (k : Kernel) : CallRes :=
  if isIllegalVaRange buf len then .err (-eInval) k
  else if len.toNat < (k.envs cur).envCwd.length + 1 then .err (-eNoMem) k
  else .ok (0, copyOut buf ((k.envs cur).envCwd ++ [0])) k

/-- The last test reads one byte more, whose address is not checked. -/
def sysChdir (cur : EnvPtr) (load : Load) (userPath : Word) (k : Kernel) : CallRes :=
  tryCopy (copyIn load userPath (maxPathLen - 1)) k fun path =>
  if path.length = maxPathLen - 1 ∧ load (userPath + BitVec.ofNat 32 (maxPathLen - 1)) ≠ 0 then .err (-eInval) k
  else .ok (0, []) (k.updateEnv cur fun env => { env with envCwd := path })

end Mos
