import Mos.Kern.Env
import Mos.Lib.CopyOnWrite

namespace Mos.Cow

abbrev Contents := Fin 4096 → BitVec 8

/-- A virtual page of an env. -/
abbrev Slot := EnvPtr × Nat

def ucowPage : Nat := vpn ucow

/-- Where an env is. Those behind `user` are inside `fork`, with the child: the tests of `vpd[i]` and of `vpt[VPN(va)]`,
    the three steps of `duppage`, and the two calls at the end. -/
inductive Stage where
  | free
  | embryo (parent : EnvPtr)
  | user
  | exofork
  | region (child : EnvPtr) (i : Nat)
  | page (child : EnvPtr) (v : Nat)
  | duppage (child : EnvPtr) (v : Nat)
  | mapChild (child : EnvPtr) (v : Nat) (perm : Word)
  | mapSelf (child : EnvPtr) (v : Nat) (perm : Word)
  | setEntry (child : EnvPtr)
  | setStatus (child : EnvPtr)
  | dead
deriving DecidableEq

/-- The env that `fork` has made and not yet started. -/
def Stage.child : Stage → Option EnvPtr
  | .region c _ | .page c _ | .duppage c _ | .mapChild c _ _ | .mapSelf c _ _ | .setEntry c | .setStatus c => some c
  | _ => none

/-- Where `cow_entry` is, for a fault in page `v`. -/
inductive Handler where
  | entered (v : Nat)
  | alloc (v : Nat) (perm : Word)
  | copy (v : Nat) (perm : Word) (i : Nat)
  | map (v : Nat) (perm : Word)
  | unmap (v : Nat)
deriving DecidableEq

/-- The envs with their page tables, and the contents of the pages of memory. -/
structure State where
  stage : EnvPtr → Stage
  handler : EnvPtr → Option Handler
  tlbModEntry : EnvPtr → Bool
  vpd : Slot → Bool
  vpt : Slot → Option Word
  mem : Nat → Contents

namespace State

variable (s : State) (e : EnvPtr) (x : Slot)

def setPte (w : Word) : State :=
  { s with vpt := Function.update s.vpt x (some w), vpd := Function.update s.vpd (x.1, x.2 / 1024) true }

def goto (stage : Stage) : State := { s with stage := Function.update s.stage e stage }

def handling (h : Option Handler) : State := { s with handler := Function.update s.handler e h }

def setEntry (set : Bool) : State := { s with tlbModEntry := Function.update s.tlbModEntry e set }

def userPanic : State := (s.goto e .dead).handling e none

/-- `pp` is the page that `page_alloc` gives. -/
def sysMemAlloc (perm : Word) (pp : Nat) : State :=
  { s.setPte x (pteOf pp perm) with mem := Function.update s.mem pp fun _ => 0 }

def sysMemMap (src dst : Slot) (perm : Word) : Option State := (s.vpt src).map fun w => s.setPte dst (pteOf (ppn w) perm)

def sysMemUnmap : State := { s with vpt := Function.update s.vpt x none }

/-- The bits of `vpt[v]` that `duppage` and `cow_entry` look at. -/
def perm : Word := pteFlags ((s.vpt x).getD 0)

end State

/-- `duppage` passes a page on with these flags as it is. -/
def passedOn (perm : Word) : Prop := perm &&& pteD = 0 ∨ perm &&& pteLibrary ≠ 0 ∨ perm &&& pteCow ≠ 0

instance (perm : Word) : Decidable (passedOn perm) := inferInstanceAs (Decidable (_ ∨ _ ∨ _))

def cowPerm (perm : Word) : Word := perm &&& ~~~pteD ||| pteCow

/-- The flags with which `cow_entry` maps the copy. -/
def ownPerm (perm : Word) : Word := perm &&& ~~~pteCow ||| pteD

/-- The next page of the loops of `fork`. -/
def nextPage (child : EnvPtr) (v : Nat) : Stage :=
  if (v + 1) % 1024 = 0 then .region child ((v + 1) / 1024) else .page child (v + 1)

/-- What `fork` does next. -/
def forkStep (e : EnvPtr) (s : State) : Option State :=
  match s.stage e with
  | .region c i =>
    if pdx uxstacktop ≤ i then some (s.goto e (.setEntry c))
    else if s.vpd (e, i) then some (s.goto e (.page c (1024 * i)))
    else some (s.goto e (.region c (i + 1)))
  | .page c v =>
    if vpn ustacktop ≤ v then some (s.goto e (.region c (v / 1024 + 1)))
    else if (s.vpt (e, v)).isSome then some (s.goto e (.duppage c v))
    else some (s.goto e (nextPage c v))
  | .duppage c v => some (s.goto e (.mapChild c v (s.perm (e, v))))
  | .mapChild c v perm =>
    if passedOn perm then
      match s.sysMemMap (e, v) (c, v) perm with
      | some t => some (t.goto e (nextPage c v))
      | none => some (s.userPanic e)
    else
      match s.sysMemMap (e, v) (c, v) (cowPerm perm) with
      | some t => some (t.goto e (.mapSelf c v perm))
      | none => some (s.userPanic e)
  | .mapSelf c v perm =>
    match s.sysMemMap (e, v) (e, v) (cowPerm perm) with
    | some t => some (t.goto e (nextPage c v))
    | none => some (s.userPanic e)
  | .setEntry c => some ((s.setEntry c true).goto e (.setStatus c))
  | .setStatus c => some ((s.goto c .user).goto e .user)
  | _ => none

/-- What `cow_entry` does next. `memcpy` goes byte by byte here. -/
def cowEntry (e : EnvPtr) (pp : Nat) (s : State) : Option State :=
  match s.handler e with
  | none => none
  | some (.entered v) =>
    if s.perm (e, v) &&& pteCow = 0 then some (s.userPanic e)
    else some (s.handling e (some (.alloc v (ownPerm (s.perm (e, v))))))
  | some (.alloc v perm) => some ((s.sysMemAlloc (e, ucowPage) perm pp).handling e (some (.copy v perm 0)))
  | some (.copy v perm i) =>
    if h : i < 4096 then
      match s.vpt (e, v), s.vpt (e, ucowPage) with
      | some w, some u =>
        let page := Function.update (s.mem (ppn u)) ⟨i, h⟩ (s.mem (ppn w) ⟨i, h⟩)
        some ({ s with mem := Function.update s.mem (ppn u) page }.handling e (some (.copy v perm (i + 1))))
      | _, _ => none
    else some (s.handling e (some (.map v perm)))
  | some (.map v perm) => (s.sysMemMap (e, ucowPage) (e, v) perm).map fun t => t.handling e (some (.unmap v))
  | some (.unmap _) => some ((s.sysMemUnmap (e, ucowPage)).handling e none)

/-- A store of the env. Without `PTE_D` it ends in `cow_entry`, and is made again afterwards. -/
def store (e : EnvPtr) (v : Nat) (i : Fin 4096) (b : BitVec 8) (s : State) : Option State :=
  match s.vpt (e, v) with
  | none => none
  | some w =>
    if w &&& pteD ≠ 0 then
      some { s with mem := Function.update s.mem (ppn w) (Function.update (s.mem (ppn w)) i b) }
    else if s.handler e = none ∧ s.tlbModEntry e then some (s.handling e (some (.entered v)))
    else none

/-- What happens next: an env stores a byte, misses a page that the kernel then allocates, makes a system call of its own,
    calls `fork`, goes on in `fork` or in `cow_entry`, has its first mapping refused by the kernel, exits or is reaped. -/
inductive Op where
  | store (e : EnvPtr) (v : Nat) (i : Fin 4096) (b : BitVec 8)
  | refill (e : EnvPtr) (v pp : Nat)
  | memAlloc (e : EnvPtr) (v : Nat) (perm : Word) (pp : Nat)
  | memMap (e : EnvPtr) (v v' : Nat) (perm : Word)
  | memUnmap (e : EnvPtr) (v : Nat)
  | fork (e : EnvPtr)
  | exofork (e child : EnvPtr)
  | forkStep (e : EnvPtr)
  | cowEntry (e : EnvPtr) (pp : Nat)
  | refuse (e : EnvPtr)
  | exit (e : EnvPtr)
  | reap (e : EnvPtr)

def Stage.runs : Stage → Bool
  | .free | .embryo _ | .dead => false
  | _ => true

/-- The env runs its own code, outside `fork` and `cow_entry`. -/
def State.atHome (s : State) (e : EnvPtr) : Prop := s.stage e = .user ∧ s.handler e = none

instance (s : State) (e : EnvPtr) : Decidable (s.atHome e) := inferInstanceAs (Decidable (_ ∧ _))

def step (s : State) : Op → Option State
  | .store e v i b => if (s.stage e).runs then store e v i b s else none
  | .refill e v pp => if (s.stage e).runs ∧ s.vpt (e, v) = none then some (s.sysMemAlloc (e, v) pteD pp) else none
  | .memAlloc e v perm pp => if s.atHome e then some (s.sysMemAlloc (e, v) perm pp) else none
  | .memMap e v v' perm => if s.atHome e then s.sysMemMap (e, v) (e, v') perm else none
  | .memUnmap e v => if s.atHome e then some (s.sysMemUnmap (e, v)) else none
  | .fork e => if s.atHome e then some ((s.setEntry e true).goto e .exofork) else none
  | .exofork e c =>
    if s.stage e = .exofork ∧ s.handler e = none ∧ s.stage c = .free then
      some (((s.setEntry c false).goto c (.embryo e)).goto e (.region c 0))
    else none
  | .forkStep e => if s.handler e = none then forkStep e s else none
  | .cowEntry e pp => cowEntry e pp s
  | .refuse e =>
    match s.stage e with
    | .mapChild _ _ _ => if s.handler e = none then some (s.userPanic e) else none
    | _ => none
  | .exit e => if s.atHome e then some (s.goto e .dead) else none
  | .reap e =>
    if s.stage e = .dead then
      some { (s.goto e .free).setEntry e false with
        vpt := fun x => if x.1 = e then none else s.vpt x, vpd := fun x => if x.1 = e then false else s.vpd x }
    else none

/-- Memories that `fork` copies: each page of an env is a cell, which it shares with others only when it is meant to. -/
structure Copies where
  cell : Slot → Option Nat
  data : Nat → Contents
  next : Nat

namespace Copies

variable (m : Copies)

def store (x : Slot) (i : Fin 4096) (b : BitVec 8) : Copies :=
  match m.cell x with
  | none => m
  | some c => { m with data := Function.update m.data c (Function.update (m.data c) i b) }

def create (x : Slot) (page : Contents) : Copies where
  cell := Function.update m.cell x (some m.next)
  data := Function.update m.data m.next page
  next := m.next + 1

def copy (src dst : Slot) : Copies :=
  match m.cell src with
  | none => m
  | some c => m.create dst (m.data c)

def share (src dst : Slot) : Copies := { m with cell := Function.update m.cell dst (m.cell src) }

def drop (x : Slot) : Copies := { m with cell := Function.update m.cell x none }

def dropEnv (e : EnvPtr) : Copies := { m with cell := fun x => if x.1 = e then none else m.cell x }

/-- The child of an env that ends inside `fork` never runs. -/
def dropChild (stage : Stage) : Copies :=
  match stage.child with
  | some c => m.dropEnv c
  | none => m

end Copies

/-- `duppage` copies a page, or shares it. -/
def forkMeaning (e : EnvPtr) (s : State) (m : Copies) : Copies :=
  match s.stage e with
  | .mapChild c v perm =>
    if perm &&& pteLibrary ≠ 0 then m.share (e, v) (c, v)
    else if passedOn perm then m.copy (e, v) (c, v)
    else m
  | .mapSelf c v _ => m.copy (e, v) (c, v)
  | _ => m

/-- `cow_entry` does nothing to the memories, unless it ends the env. -/
def cowMeaning (e : EnvPtr) (s : State) (m : Copies) : Copies :=
  match s.handler e with
  | some (.entered v) => if s.perm (e, v) &&& pteCow = 0 then m.dropChild (s.stage e) else m
  | _ => m

def meaning (s : State) (m : Copies) : Op → Copies
  | .store e v i b => if (s.vpt (e, v)).getD 0 &&& pteD ≠ 0 then m.store (e, v) i b else m
  | .refill e v _ => m.create (e, v) fun _ => 0
  | .memAlloc e v _ _ => m.create (e, v) fun _ => 0
  | .memMap e v v' _ => m.share (e, v) (e, v')
  | .memUnmap e v => m.drop (e, v)
  | .forkStep e => forkMeaning e s m
  | .cowEntry e _ => cowMeaning e s m
  | .refuse e => m.dropChild (s.stage e)
  | .reap e => m.dropEnv e
  | _ => m

def both (s : State × Copies) (op : Op) : Option (State × Copies) := (step s.1 op).map fun t => (t, meaning s.1 s.2 op)

end Mos.Cow
