import Mos.Kern.Syscall

namespace Mos

/-- The kernel image and its stack end at `0x80400000`, and `mips_vm_init` puts `pages` there,
    12 bytes for each page. -/
def pagesBase : Nat := 1024

def pagesPages (npage : Nat) : Nat := (npage * 12 + 4095) / 4096

/-- `PADDR(freemem) / PAGE_SIZE` in `page_init`: the pages below are in use. -/
def bootPages (npage : Nat) : Nat := pagesBase + pagesPages npage

/-- `page_init`; `env_init` then allocates `envs` from the first pages that went on the free list. -/
def pageInit (npage : Nat) (mem : Nat → Nat → Word) : Vm :=
  { mem := mem
    ppRef := fun pp => if pp < bootPages npage then 1 else 0
    pageFreeList := (List.range' (bootPages npage) (npage - bootPages npage)).reverse
    tlb := []
    npage := npage
    envsBase := bootPages npage }

def mapSegment (pgdir : Nat) (asid : Word) (pp : Nat) (va : Word) (n : Nat) (perm : Word) (vm : Vm) : Res Vm Unit :=
  Result.forRange n (fun i vm =>
    panicOn (pageInsert vm pgdir asid (pp + i) (va + BitVec.ofNat 32 i <<< pgshift) perm)) vm

def zeroFrame : Trapframe :=
  { regs := fun _ => 0, cp0Status := 0, hi := 0, lo := 0, cp0Badvaddr := 0, cp0Cause := 0, cp0Epc := 0 }

def zeroEnv : Env :=
  { envTf := zeroFrame, envId := 0, envAsid := 0, envParentId := 0, envStatus := .free, envPgdir := 0,
    envPri := 0, envIpcValue := 0, envIpcFrom := 0, envIpcRecving := 0, envIpcDstva := 0, envIpcPerm := 0,
    envUserTlbModEntry := 0, envRuns := 0, envCwd := [], envExitStatus := 0, envVars := none }

def initKernel (basePgdir : Nat) (vm : Vm) : Kernel :=
  { vm := vm, envs := fun _ => zeroEnv, envFreeList := List.finRange 1024,
    envSchedList := .init (fun _ => none) (fun _ => none), asidBitmap := fun _ => false, mkenvidI := 0,
    curenv := none, curPgdir := 0, count := 0, tf := zeroFrame, basePgdir := basePgdir }

/-- The template page directory of `env_init`: `UPAGES` maps `pages` and `UENVS` maps `envs`. -/
def buildBasePgdir (vm : Vm) : Res Vm Nat :=
  (panicOn (pageAlloc vm)).bind fun p vm =>
  (mapSegment p 0 pagesBase upages (pagesPages vm.npage) pteG (vm.incRef p)).bind fun _ vm =>
  (mapSegment p 0 vm.envsBase uenvs envsPages pteG vm).bind fun _ vm => .ok p vm

def envInit (vm : Vm) : Option Kernel :=
  if vm.npage ≤ vm.envsBase + envsPages then none
  else
    match buildBasePgdir vm with
    | .ok p vm => some (initKernel p vm)
    | _ => none

/-- `mips_init` up to the creation of the first env, on a machine with `npage` pages of memory. -/
def boot (npage : Nat) (mem : Nat → Nat → Word) : Option Kernel := envInit (pageInit npage mem)

theorem boot_init {npage : Nat} {mem : Nat → Nat → Word} {k : Kernel} (booted : boot npage mem = some k) :
    ∃ p vm, bootPages npage + envsPages < npage ∧ buildBasePgdir (pageInit npage mem) = .ok p vm ∧
      k = initKernel p vm := by
  unfold boot envInit at booted
  split at booted
  · cases booted
  · rename_i fits
    split at booted
    · rename_i p vm built
      cases booted
      exact ⟨p, vm, not_le.mp fits, built, rfl⟩
    · cases booted

/-- A machine with 8 MiB of cleared memory and a program without segments, for concrete runs. -/
def clearBoot : Option Kernel := boot 2048 fun _ _ => 0

def emptyBinary : Binary := { pages := [], entry := 0 }

def Op.call (call : Call) : Op := .syscall zeroFrame call

end Mos
