import Mos.Kern.Mmu
import Mathlib.Data.List.Basic
import Mathlib.Logic.Function.Basic
import Mathlib.Tactic.Common
import Mathlib.Algebra.BigOperators.Group.List.Basic

namespace Mos.Spawn

abbrev Byte := BitVec 8

abbrev Mem := Word → Byte

def utemp : Word := 0x3fe000
def ustacktop : Word := 0x7f3fe000

def storeBytes (m : Mem) (a : Word) : List Byte → Mem
  | [] => m
  | b :: rest => storeBytes (Function.update m a b) (a + 1) rest

def leBytes (w : Word) : List Byte := [w.extractLsb' 0 8, w.extractLsb' 8 8, w.extractLsb' 16 8, w.extractLsb' 24 8]

def storeWord (m : Mem) (a w : Word) : Mem := storeBytes m a (leBytes w)

def loadWord (m : Mem) (a : Word) : Word := m (a + 3) ++ m (a + 2) ++ m (a + 1) ++ m a

/-- `ROUND(tot, 4)`. -/
def round4 (tot : Word) : Word := (tot + 3) &&& ~~~3

def total (argv : List (List Byte)) : Word := argv.foldl (fun tot s => tot + BitVec.ofNat 32 (s.length + 1)) 0

def tooBig (argv : List (List Byte)) : Bool := 4096 < round4 (total argv) + 4 * (BitVec.ofNat 32 argv.length + 3)

/-- The loop over the strings: the bytes of each and its 0, from `ctemp` on. -/
def copyStrings : List (List Byte) → Word → Mem → Mem
  | [], _, m => m
  | s :: rest, ctemp, m => copyStrings rest (ctemp + BitVec.ofNat 32 (s.length + 1)) (storeBytes m ctemp (s ++ [0]))

/-- The loop over `args`, with the last value of `ctemp`. -/
def setArgs : List (List Byte) → Word → Word → Mem → Word × Mem
  | [], _, ctemp, m => (ctemp, m)
  | s :: rest, args, ctemp, m =>
    setArgs rest (args + 4) (ctemp + BitVec.ofNat 32 (s.length + 1)) (storeWord m args ctemp)

structure Calls where
  alloc : Word
  map : Word
  unmap : Word

/-- From an address in the page at `UTEMP` to that in the child. -/
def shift : Word := ustacktop - utemp - 4096

/-- `init_stack`: its error, or `*init_sp` and the memory of the parent when the child gets the page at `UTEMP`. `m` is
    the parent's memory with that page zeroed. -/
def initStack (calls : Calls) (argv : List (List Byte)) (m : Mem) : Except Word (Word × Mem) :=
  let tot := total argv
  let argc := BitVec.ofNat 32 argv.length
  if tooBig argv then .error (-eNoMem)
  else
    let strings := utemp + 4096 - tot
    let args := utemp + 4096 - round4 tot - 4 * (argc + 1)
    if calls.alloc.slt 0 then .error calls.alloc
    else
      let m := copyStrings argv strings m
      let (ctemp, m) := setArgs argv args (shift + strings) m
      -- the word behind the pointers
      let m := storeWord m (args + 4 * argc) (ctemp - 1)
      let m := storeWord m (args - 4) (shift + args)
      let m := storeWord m (args - 8) argc
      if calls.map.slt 0 then .error calls.map
      else if calls.unmap.slt 0 then .error calls.unmap
      else .ok (shift + (args - 8), m)

def child (m : Mem) : Mem := fun x => m (x - shift)

def Fits (argv : List (List Byte)) : Prop := (argv.map fun s => s.length + 1).sum + 4 * (argv.length + 3) ≤ 4096

def Apart (a : Word) (m : Nat) (b : Word) (n : Nat) : Prop := a.toNat + m ≤ b.toNat ∨ b.toNat + n ≤ a.toNat

def InPage (a : Word) (n : Nat) : Prop := ustacktop.toNat - 4096 ≤ a.toNat ∧ a.toNat + n ≤ ustacktop.toNat

/-- What the child finds at `sp`: the number of arguments, the address of the array, and in the array the addresses of
    the strings. -/
structure Argv (c : Mem) (sp : Word) (argv : List (List Byte)) : Prop where
  argc : loadWord c sp = BitVec.ofNat 32 argv.length
  copies : ∀ i s, argv[i]? = some s → ∀ k, k ≤ s.length →
    c (loadWord c (loadWord c (sp + 4) + BitVec.ofNat 32 (4 * i)) + BitVec.ofNat 32 k) = (s ++ [0]).getD k 0
  words : InPage sp 8
  array : InPage (loadWord c (sp + 4)) (4 * (argv.length + 1))
  arrayApart : Apart sp 8 (loadWord c (sp + 4)) (4 * (argv.length + 1))
  strings : ∀ i s, argv[i]? = some s → InPage (loadWord c (loadWord c (sp + 4) + BitVec.ofNat 32 (4 * i))) (s.length + 1) ∧
    Apart sp 8 (loadWord c (loadWord c (sp + 4) + BitVec.ofNat 32 (4 * i))) (s.length + 1) ∧
    Apart (loadWord c (sp + 4)) (4 * (argv.length + 1))
      (loadWord c (loadWord c (sp + 4) + BitVec.ofNat 32 (4 * i))) (s.length + 1)
  stringsApart : ∀ i j s t, i ≠ j → argv[i]? = some s → argv[j]? = some t →
    Apart (loadWord c (loadWord c (sp + 4) + BitVec.ofNat 32 (4 * i))) (s.length + 1)
      (loadWord c (loadWord c (sp + 4) + BitVec.ofNat 32 (4 * j))) (t.length + 1)

def lastWord (c : Mem) (sp : Word) (argv : List (List Byte)) : Word :=
  loadWord c (loadWord c (sp + 4) + BitVec.ofNat 32 (4 * argv.length))

/-- The stack of the child encodes the arguments, with a null word at the end of the array. -/
def Encodes (calls : Calls) (argv : List (List Byte)) (m : Mem) : Prop :=
  (∀ sp m', initStack calls argv m = .ok (sp, m') → Argv (child m') sp argv ∧ lastWord (child m') sp argv = 0) ∧
    (initStack calls argv m = .error (-eNoMem) ↔ ¬ Fits argv)

end Mos.Spawn
