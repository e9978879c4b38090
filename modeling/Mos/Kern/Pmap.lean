import Mos.Kern.Mmu
import Mos.Lib.Machine
import Mathlib.Logic.Function.Basic

namespace Mos

/-- Why the kernel stops: `panic` and failed assertions, a store through a null pointer, a loop that
    does not end, or a page of the `envs` array handed out by `page_alloc`. The array is allocated after
    `page_init` has put its pages on the free list, and what follows its overwriting is not modelled. -/
inductive Stop where
  | panic
  | fault
  | loop
  | envsOverwritten
deriving DecidableEq

abbrev Res (σ α : Type) := Result σ Word Stop α

structure TlbEntry where
  vpn2 : Word
  asid : Word
  entryLo0 : Word
  entryLo1 : Word
deriving DecidableEq

/-- A pointer to a page table word: the page that holds it and the index in that page. -/
structure PtePtr where
  page : Nat
  index : Nat
deriving DecidableEq

/-- What pmap.c and tlbex.c manage: the contents of physical memory as words, `pages[].pp_ref`,
    `page_free_list`, the TLB, the number of pages and the first page of the `envs` array. -/
structure Vm where
  mem : Nat → Nat → Word
  ppRef : Nat → BitVec 16
  pageFreeList : List Nat
  tlb : List TlbEntry
  npage : Nat
  envsBase : Nat

/-- `NENV * sizeof(struct Env)` is exactly 313 pages. -/
def envsPages : Nat := 313

namespace Vm

def holdsEnvs (vm : Vm) (pp : Nat) : Bool := vm.envsBase ≤ pp && pp < vm.envsBase + envsPages

def read (vm : Vm) (p : PtePtr) : Word := vm.mem p.page p.index

def write (vm : Vm) (p : PtePtr) (w : Word) : Vm :=
  { vm with mem := Function.update vm.mem p.page (Function.update (vm.mem p.page) p.index w) }

def setRef (vm : Vm) (pp : Nat) (n : BitVec 16) : Vm := { vm with ppRef := Function.update vm.ppRef pp n }

def incRef (vm : Vm) (pp : Nat) : Vm := vm.setRef pp (vm.ppRef pp + 1)

end Vm

/-- `tlb_invalidate`: `tlb_out` clears the entry that `tlbp` finds for the page pair and the ASID. -/
def tlbInvalidate (vm : Vm) (asid va : Word) : Vm :=
  { vm with tlb := vm.tlb.filter fun t =>
      !(t.vpn2 == va >>> 13 && (t.asid == (asid &&& 0xff) || (t.entryLo0 &&& t.entryLo1 &&& 1) == 1)) }

def pageAlloc (vm : Vm) : Res Vm Nat :=
  match vm.pageFreeList with
  | [] => .err (-eNoMem) vm
  | pp :: rest =>
    if vm.holdsEnvs pp then .stop .envsOverwritten
    else .ok pp { vm with pageFreeList := rest, mem := Function.update vm.mem pp fun _ => 0 }

def pageFree (vm : Vm) (pp : Nat) : Res Vm Unit :=
  if vm.ppRef pp ≠ 0 then .stop .panic
  else .ok () { vm with pageFreeList := pp :: vm.pageFreeList }

def pageDecref (vm : Vm) (pp : Nat) : Res Vm Unit :=
  if vm.ppRef pp = 0 then .stop .panic
  else
    let vm := vm.setRef pp (vm.ppRef pp - 1)
    if vm.ppRef pp = 0 then pageFree vm pp else .ok () vm

/-- Step 3 of `pgdir_walk`: `KADDR` panics when the page directory entry names no page. -/
def pteIn (vm : Vm) (pde va : Word) : Res Vm (Option PtePtr) :=
  if vm.npage ≤ ppn pde then .stop .panic else .ok (some ⟨ppn pde, ptx va⟩) vm

/-- The test of the source is `!((*pgdir_entryp) && PTE_V)`: any nonzero entry counts as present. -/
def pgdirWalk (vm : Vm) (pgdir : Nat) (va : Word) (create : Bool) : Res Vm (Option PtePtr) :=
  if vm.mem pgdir (pdx va) = 0 then
    if create then
      (pageAlloc vm).bind fun pp vm =>
        let entry := page2pa pp ||| pteCCacheable ||| pteV
        pteIn ((vm.write ⟨pgdir, pdx va⟩ entry).incRef pp) entry va
    else .ok none vm
  else pteIn vm (vm.mem pgdir (pdx va)) va

def pageLookup (vm : Vm) (pgdir : Nat) (va : Word) : Res Vm (Option (Nat × PtePtr)) :=
  (pgdirWalk vm pgdir va false).bind fun pte vm =>
    match pte with
    | none => .ok none vm
    | some pte =>
      if vm.read pte &&& pteV = 0 then .ok none vm
      else if vm.npage ≤ ppn (vm.read pte) then .stop .panic
      else .ok (some (ppn (vm.read pte), pte)) vm

def pageRemove (vm : Vm) (pgdir : Nat) (asid va : Word) : Res Vm Unit :=
  (pageLookup vm pgdir va).bind fun found vm =>
    match found with
    | none => .ok () vm
    | some (pp, pte) =>
      (pageDecref vm pp).bind fun _ vm => .ok () (tlbInvalidate (vm.write pte 0) asid va)

/-- Steps 2 to 4 of `page_insert`. -/
def pageInsertNew (vm : Vm) (pgdir : Nat) (asid : Word) (pp : Nat) (va perm : Word) : Res Vm Unit :=
  (pgdirWalk (tlbInvalidate vm asid va) pgdir va true).bind fun pte vm =>
    match pte with
    | none => .stop .fault
    | some pte => .ok () ((vm.write pte (pteOf pp perm)).incRef pp)

def pageInsert (vm : Vm) (pgdir : Nat) (asid : Word) (pp : Nat) (va perm : Word) : Res Vm Unit :=
  (pageLookup vm pgdir va).bind fun found vm =>
    match found with
    | none => pageInsertNew vm pgdir asid pp va perm
    | some (old, pte) =>
      if old ≠ pp then
        (pageRemove vm pgdir asid va).bind fun _ vm => pageInsertNew vm pgdir asid pp va perm
      else .ok () ((tlbInvalidate vm asid va).write pte (pteOf pp perm))

def passiveAlloc (va : Word) (pgdir : Nat) (asid : Word) (vm : Vm) : Res Vm Unit :=
  if va < utemp || (ustacktop ≤ va && va < ustacktop + pageSize) || (uenvs ≤ va && va < upages) ||
      (upages ≤ va && va < uvpt) || ulim ≤ va then .stop .panic
  else
    match pageAlloc vm with
    | .ok pp vm =>
      match pageInsert vm pgdir asid pp (pteAddr va) (if uvpt ≤ va && va < ulim then 0 else pteD) with
      | .ok _ vm => .ok () vm
      | .err _ _ => .stop .panic
      | .stop cause => .stop cause
    | .err _ _ => .stop .panic
    | .stop cause => .stop cause

/-- The loop of `_do_tlb_refill`: look the page up, allocating it until it is found. -/
def refillLookup (va : Word) (pgdir : Nat) (asid : Word) : Nat → Vm → Res Vm PtePtr
  | 0, _ => .stop .loop
  | fuel + 1, vm =>
    (pageLookup vm pgdir va).bind fun found vm =>
      match found with
      | some (_, pte) => .ok pte vm
      | none => (passiveAlloc va pgdir asid vm).bind fun _ vm => refillLookup va pgdir asid fuel vm

/-- `_do_tlb_refill` and the `tlbwr` of `do_tlb_refill`, which replaces the entry at `victim`. -/
def doTlbRefill (va : Word) (pgdir : Nat) (asid : Word) (victim : Nat) (vm : Vm) : Res Vm Unit :=
  (refillLookup va pgdir asid 2 (tlbInvalidate vm asid va)).bind fun pte vm =>
    let entry : TlbEntry :=
      { vpn2 := va >>> 13, asid := asid &&& 0xff,
        entryLo0 := vm.read ⟨pte.page, 2 * (pte.index / 2)⟩ >>> 6,
        entryLo1 := vm.read ⟨pte.page, 2 * (pte.index / 2) + 1⟩ >>> 6 }
    .ok () { vm with tlb := entry :: vm.tlb.eraseIdx victim }

end Mos
