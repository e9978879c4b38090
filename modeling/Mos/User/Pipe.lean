import Mos.Kern.Mmu
import Mos.Lib.Machine
import Mos.Lib.Ring

namespace Mos

abbrev Byte := BitVec 8

def pipeSize : Nat := 32

instance pipeSize_neZero : NeZero pipeSize := ⟨by decide⟩

structure Pipe where
  pRpos : Word
  pWpos : Word
  pBuf : Fin pipeSize → Byte

def Pipe.slot (pos : Word) : Fin pipeSize := Fin.ofNat pipeSize pos.toNat

/-- Where a `pipe_read` or `pipe_write` is: at the loop's test `i < n`, at the test of the positions, after that
    test has found the pipe empty or full, before the transfer of byte `i`, before the advance of the position,
    or back in its caller with a result. -/
inductive Pc where
  | loop
  | test
  | wait
  | copy
  | advance
  | done (r : Word)
deriving DecidableEq

structure Frame where
  vbuf : Word
  n : Word
  i : Word
  pc : Pc

/-- A reader and a writer of one pipe, each with the memory its buffers are in. `bytesRead` and
    `bytesWritten` log the transfers, and `readBefore` and `writtenBefore` their lengths when the current call
    began. -/
structure Session where
  pipe : Pipe
  reader : Frame
  writer : Frame
  rmem : Word → Byte
  wmem : Word → Byte
  bytesRead : List Byte
  bytesWritten : List Byte
  readBefore : Nat
  writtenBefore : Nat

/-- An access of a user program below `UTEMP` or from `ULIM` on ends in a panic. -/
def userVa (va : Word) : Bool := utemp ≤ va && va < ulim

/-- One step of `pipe_read`; `closed` is what `_pipe_is_closed` returns. -/
def pipeRead (closed : Bool) (s : Session) : Option Session :=
  let f := s.reader
  match f.pc with
  | .loop => some { s with reader := { f with pc := if f.i < f.n then .test else .done f.n } }
  | .test => some { s with reader := { f with pc := if s.pipe.pRpos = s.pipe.pWpos then .wait else .copy } }
  | .wait => some { s with reader := { f with pc := if closed || 0 < f.i.toInt then .done f.i else .test } }
  | .copy =>
    if userVa (f.vbuf + f.i) then
      let byte := s.pipe.pBuf (Pipe.slot s.pipe.pRpos)
      some { s with reader := { f with pc := .advance }, rmem := Function.update s.rmem (f.vbuf + f.i) byte,
                    bytesRead := s.bytesRead ++ [byte] }
    else none
  | .advance => some { s with pipe := { s.pipe with pRpos := s.pipe.pRpos + 1 },
                              reader := { f with i := f.i + 1, pc := .loop } }
  | .done _ => none

/-- One step of `pipe_write`. -/
def pipeWrite (closed : Bool) (s : Session) : Option Session :=
  let f := s.writer
  match f.pc with
  | .loop => some { s with writer := { f with pc := if f.i < f.n then .test else .done f.n } }
  | .test =>
    some { s with writer :=
      { f with pc := if s.pipe.pWpos - s.pipe.pRpos = BitVec.ofNat 32 pipeSize then .wait else .copy } }
  | .wait => some { s with writer := { f with pc := if closed then .done f.i else .test } }
  | .copy =>
    if userVa (f.vbuf + f.i) then
      let byte := s.wmem (f.vbuf + f.i)
      some { s with writer := { f with pc := .advance }, bytesWritten := s.bytesWritten ++ [byte],
                    pipe := { s.pipe with pBuf := Function.update s.pipe.pBuf (Pipe.slot s.pipe.pWpos) byte } }
    else none
  | .advance => some { s with pipe := { s.pipe with pWpos := s.pipe.pWpos + 1 },
                              writer := { f with i := f.i + 1, pc := .loop } }
  | .done _ => none

/-- The reader or the writer takes a step, or the one that has returned starts another call. -/
inductive PipeOp where
  | readCall (vbuf n : Word)
  | writeCall (mem : Word → Byte) (vbuf n : Word)
  | reader (closed : Bool)
  | writer (closed : Bool)

def Frame.idle (f : Frame) : Bool :=
  match f.pc with
  | .done _ => true
  | _ => false

def Session.step (s : Session) : PipeOp → Option Session
  | .readCall vbuf n =>
    if s.reader.idle then
      some { s with reader := ⟨vbuf, n, 0, .loop⟩, readBefore := s.bytesRead.length }
    else none
  | .writeCall mem vbuf n =>
    if s.writer.idle then
      some { s with writer := ⟨vbuf, n, 0, .loop⟩, wmem := mem, writtenBefore := s.bytesWritten.length }
    else none
  | .reader closed => pipeRead closed s
  | .writer closed => pipeWrite closed s

/-- A new pipe, which `sys_mem_alloc` has cleared. -/
def Session.init : Session :=
  { pipe := ⟨0, 0, fun _ => 0⟩, reader := ⟨0, 0, 0, .done 0⟩, writer := ⟨0, 0, 0, .done 0⟩, rmem := fun _ => 0,
    wmem := fun _ => 0, bytesRead := [], bytesWritten := [], readBefore := 0, writtenBefore := 0 }

def Frame.pending (f : Frame) : Nat := if f.pc = .advance then 1 else 0

/-- The call `f` began at position `before`, and position `pos` is reached: `f` has moved `i` bytes, or has
    returned their number. -/
structure Frame.Counts (f : Frame) (before pos : Nat) : Prop where
  moved : f.idle = false → pos = before + f.i.toNat
  returned : ∀ r, f.pc = .done r → pos = before + r.toNat ∧ r.toNat < 2^31
  within : f.idle = false → f.i ≤ f.n ∧ (f.pc ≠ .loop → f.i < f.n)
  user : f.idle = false → f.i = 0 ∨ utemp ≤ f.vbuf ∧ f.vbuf.toNat + f.i.toNat ≤ 2^31
  here : f.pc = .advance → userVa (f.vbuf + f.i) = true

theorem Frame.Counts.start {vbuf n : Word} {pos : Nat} : Frame.Counts ⟨vbuf, n, 0, .loop⟩ pos pos := by
  refine ⟨fun _ => rfl, fun r done => ?_, fun _ => ⟨BitVec.le_def.mpr (Nat.zero_le _), fun away => absurd rfl away⟩,
    fun _ => Or.inl rfl, fun at_ => ?_⟩
  · cases done
  · cases at_

theorem Frame.Counts.small {f : Frame} {before pos : Nat} (counts : f.Counts before pos) (running : f.idle = false) :
    f.i.toNat < 2^31 := by
  rcases counts.user running with zero | ⟨low, top⟩
  · rw [zero]
    decide
  · have base : utemp.toNat ≤ f.vbuf.toNat := low
    have some : utemp.toNat = 0x3fe000 := by decide
    omega

theorem Frame.Counts.goto {f : Frame} {before pos : Nat} {pc : Pc} (counts : f.Counts before pos)
    (running : f.idle = false) (stay : pc ≠ .advance) (less : f.i < f.n)
    (result : ∀ r, pc = .done r → r = f.i) : Frame.Counts { f with pc := pc } before pos := by
  have small := counts.small running
  refine ⟨fun _ => counts.moved running, fun r done => ?_, fun _ => ⟨?_, fun _ => less⟩, fun _ => counts.user running,
    fun at_ => absurd at_ stay⟩
  · obtain rfl := result r done
    exact ⟨counts.moved running, small⟩
  · exact BitVec.le_of_lt less

theorem Frame.Counts.leave {f : Frame} {before pos : Nat} (counts : f.Counts before pos) (running : f.idle = false)
    (all : ¬ f.i < f.n) : Frame.Counts { f with pc := .done f.n } before pos := by
  have small := counts.small running
  have same : f.i = f.n := BitVec.le_antisymm (counts.within running).1 (BitVec.not_lt.mp all)
  refine ⟨fun idle => ?_, fun r done => ?_, fun idle => ?_, fun idle => ?_, fun at_ => ?_⟩
  · cases idle
  · cases done
    rw [← same]
    exact ⟨counts.moved running, small⟩
  · cases idle
  · cases idle
  · cases at_

theorem Frame.Counts.transfer {f : Frame} {before pos : Nat} (counts : f.Counts before pos) (at_ : f.pc = .copy)
    (user : userVa (f.vbuf + f.i) = true) : Frame.Counts { f with pc := .advance } before pos := by
  have running : f.idle = false := by simp [Frame.idle, at_]
  have less := (counts.within running).2 (by simp [at_])
  refine ⟨fun _ => counts.moved running, fun r done => ?_, fun _ => ⟨BitVec.le_of_lt less, fun _ => less⟩,
    fun _ => counts.user running, fun _ => user⟩
  cases done

theorem Frame.Counts.next {f : Frame} {before pos : Nat} (counts : f.Counts before pos) (at_ : f.pc = .advance) :
    Frame.Counts { f with i := f.i + 1, pc := .loop } before (pos + 1) := by
  have running : f.idle = false := by simp [Frame.idle, at_]
  have less := (counts.within running).2 (by simp [at_])
  have small := counts.small running
  have moved := counts.moved running
  have step : (f.i + 1).toNat = f.i.toNat + 1 := by
    rw [BitVec.toNat_add]
    simp
    omega
  have user := counts.here at_
  simp only [userVa, Bool.and_eq_true, decide_eq_true_eq] at user
  refine ⟨fun _ => by simp only [step]; omega, fun r done => (by cases done), fun _ => ⟨?_, fun away => absurd rfl away⟩,
    fun _ => Or.inr ⟨?_, ?_⟩, fun at_ => (by cases at_)⟩
  · have bound : f.i.toNat < f.n.toNat := less
    exact BitVec.le_def.mpr (by rw [step]; exact bound)
  · rcases counts.user running with zero | ⟨low, _⟩
    · rw [zero] at user
      simpa using user.1
    · exact low
  · show f.vbuf.toNat + (f.i + 1).toNat ≤ 2^31
    rw [step]
    have high : (f.vbuf + f.i).toNat < ulim.toNat := user.2
    have top : ulim.toNat = 2^31 := by decide
    rw [BitVec.toNat_add, top] at high
    have range := f.vbuf.isLt
    rcases counts.user running with zero | ⟨_, below⟩
    · have none : f.i.toNat = 0 := by rw [zero]; rfl
      omega
    · omega

end Mos
