import Mos.Kern.PageWalk
import Mathlib.Logic.Function.Basic

namespace Mos.Elf

abbrev Byte := BitVec 8

def pfW : Word := 2

/-- The fields of a program header that `elf_load_seg` reads. -/
structure Phdr where
  vaddr : Word
  filesz : Word
  memsz : Word
  flags : Word

/-- The pages that have been allocated, those that the env to be loaded maps, and what its loader maps at `UTEMP`. -/
structure Memory where
  frame : Nat → Nat → Byte
  taken : Nat
  env : Nat → Option (Nat × Word)
  utemp : Option Nat

def pageNo (va : Word) : Nat := va.toNat / 4096

namespace Memory

def pageAlloc (m : Memory) : Nat × Memory :=
  (m.taken, { m with frame := Function.update m.frame m.taken fun _ => 0, taken := m.taken + 1 })

def pageInsert (m : Memory) (p : Nat) (va perm : Word) : Memory :=
  { m with env := Function.update m.env (pageNo va) (some (p, perm ||| pteV)) }

/-- `memcpy` of `len` bytes to `offset` in page `p`. -/
def copy (m : Memory) (p offset : Nat) (src : Nat → Byte) (len : Nat) : Memory :=
  { m with frame := Function.update m.frame p fun o =>
      if offset ≤ o ∧ o < offset + len then src (o - offset) else m.frame p o }

end Memory

/-- `elf_mapper_t`: the address, the offset in the page, the permission, the source and the length. -/
abbrev Mapper := Word → Nat → Word → Option (Nat → Byte) → Nat → Memory → Except Word Memory

/-- `load_icode_mapper`, where memory does not run out. -/
def loadIcodeMapper : Mapper := fun va offset perm src len m =>
  let (p, m) := m.pageAlloc
  let m := match src with
    | some src => m.copy p offset src len
    | none => m
  .ok (m.pageInsert p va perm)

def sysMemAlloc (va perm : Word) (m : Memory) : Except Word Memory :=
  if isIllegalVa va then .error (-eInval)
  else
    let (p, m) := m.pageAlloc
    .ok (m.pageInsert p va perm)

/-- `sys_mem_map` of the page at `va` of the env to `UTEMP` of the caller. -/
def sysMemMap (va : Word) (m : Memory) : Except Word Memory :=
  if isIllegalVa va then .error (-eInval)
  else
    match m.env (pageNo va) with
    | some (p, _) => .ok { m with utemp := some p }
    | none => .error (-eInval)

/-- `spawn_mapper`, where memory does not run out. A store to `UTEMP` goes to the page that is mapped there. -/
def spawnMapper : Mapper := fun va offset perm src len m =>
  (sysMemAlloc va perm m).bind fun m =>
    match src with
    | none => .ok m
    | some src =>
      match sysMemMap va m with
      | .error r => .error r
      | .ok m =>
        match m.utemp with
        | some p => .ok { m.copy p offset src len with utemp := none }
        | none => .ok m

/-- The loops of `elf_load_seg`, from `i` up to `size`. `src` is `bin` in the first and `NULL` in the second; a loop
    that does not end has no result. -/
def mapPages (mapPage : Mapper) (va perm : Word) (src : Option (Nat → Byte)) (size : Nat) :
    Nat → Nat → Memory → Option (Except Word (Nat × Memory))
  | 0, _, _ => none
  | fuel + 1, i, m =>
    if i < size then
      match mapPage (va + BitVec.ofNat 32 i) 0 perm (src.map fun bin k => bin (i + k)) (min (size - i) 4096) m with
      | .error r => some (.error r)
      | .ok m => mapPages mapPage va perm src size fuel ((i + 4096) % 2 ^ 32) m
    else some (.ok (i, m))

def segPerm (ph : Phdr) : Word := if ph.flags &&& pfW ≠ 0 then pteV ||| pteD else pteV

/-- `va - ROUNDDOWN(va, PAGE_SIZE)`. -/
def pageOffset (va : Word) : Nat := va.toNat % 4096

def headSize (ph : Phdr) : Nat := if pageOffset ph.vaddr ≠ 0 then min ph.filesz.toNat (4096 - pageOffset ph.vaddr) else 0

def mapHead (mapPage : Mapper) (ph : Phdr) (bin : Nat → Byte) (m : Memory) : Except Word Memory :=
  if pageOffset ph.vaddr ≠ 0 then mapPage ph.vaddr (pageOffset ph.vaddr) (segPerm ph) (some bin) (headSize ph) m else .ok m

def elfLoadSeg (mapPage : Mapper) (ph : Phdr) (bin : Nat → Byte) (fuel : Nat) (m : Memory) : Option (Except Word Memory) :=
  match mapHead mapPage ph bin m with
  | .error r => some (.error r)
  | .ok m =>
    match mapPages mapPage ph.vaddr (segPerm ph) (some bin) ph.filesz.toNat fuel (headSize ph) m with
    | none => none
    | some (.error r) => some (.error r)
    | some (.ok (i, m)) =>
      match mapPages mapPage ph.vaddr (segPerm ph) none ph.memsz.toNat fuel i m with
      | none => none
      | some (.error r) => some (.error r)
      | some (.ok (_, m)) => some (.ok m)

def emptyMemory : Memory := { frame := fun _ _ => 0, taken := 0, env := fun _ => none, utemp := none }

end Mos.Elf
