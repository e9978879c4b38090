import Mos.Sh.Chain
import Mos.Sh.Builtin

namespace Mos.Sh

structure System where
  replies : Replies
  cwd : Text
  fds : Fds
  /-- The status that the program run by the process with this number ends with, or nothing where `spawn` fails. -/
  spawn : Nat → Text → List Text → Option Int

namespace System

variable (sys : System)

/-- The status that a process ends with, given the one that its right neighbour ends with. -/
def exitStatus (i : Nat) (p : Parsed) (right : Int) : Int :=
  match (p.finish (sys.replies.builtin i) sys.cwd).result, p.argv with
  | none, some (name :: args) =>
    match sys.spawn i name args with
    | none => 1
    | some status => if p.rightpipe ≠ 0 then right else status
  -- `runcmd` has returned, and its caller goes on with `exit(1)`.
  | _, _ => 1

/-- The status of the first of the processes; each one but the last waits for the next. -/
def firstStatus (i : Nat) : List Parsed → Int
  | [] => 1
  | p :: rest => sys.exitStatus i p (firstStatus (i + 1) rest)

def processes (line : Text) : List Parsed := parsecmd sys.replies sys.cwd [] (tokens line) sys.fds 0

/-- The processes of a line store nothing outside of `cmd_copy` and `argv`. -/
def inside (line : Text) : Bool := line.length < cmdCopySize && !(sys.processes line).any Parsed.full

end System

variable {σ : Type}

/-- The host whose children run `runcmd` and then `exit(1)`; it keeps the statuses that they end with. Nothing is known of the
    status of a child whose processes store outside of their arrays; `spoilt` stands for it. -/
def Host.forking (host : Host σ) (system : σ → System) (spoilt : Int) : Host (σ × (Int → Int)) where
  getVarValue name s := host.getVarValue name s.1
  runAndCaptureOutput cmd outputSize s :=
    let (result, world) := host.runAndCaptureOutput cmd outputSize s.1
    (result, world, s.2)
  -- No command comes of it.
  overrun _ _ _ s := ((-1, []), s)
  runHistoryCmd s := (host.runHistoryCmd s.1, s.2)
  runcmd cmd s :=
    let (r, world) := host.runcmd cmd s.1
    (r, world, s.2)
  fork cmd s :=
    let (r, world) := host.fork cmd s.1
    let sys := system s.1
    (r, world, Function.update s.2 r (if sys.inside cmd then sys.firstStatus 0 (sys.processes cmd) else spoilt))
  wait child s := (s.2 child, (host.wait child s.1).2, s.2)
  historySave lines s := (host.historySave lines s.1, s.2)

abbrev Command := Text × List Text

namespace Command

def words (c : Command) : List Token := (c.1 :: c.2).map .word

def Found (sys : System) (i : Nat) (c : Command) : Prop := isBuiltin c.1 = false ∧ sys.spawn i c.1 c.2 ≠ none

end Command

namespace System

variable (sys : System)

/-- The status of one command alone: of its program, 1 if it cannot be spawned, and 0 for a builtin that succeeds. -/
def alone (i : Nat) (p : Parsed) : Int :=
  match p.argv with
  | some (name :: args) =>
    match runBuiltin (sys.replies.builtin i) sys.cwd name args p.fds with
    | some (ok, _, _) => if ok then 0 else 1
    | none => (sys.spawn i name args).getD 1
  | _ => 1

/-- Every command but the last is a program that is found, and the last one is no builtin. -/
def Carried (i : Nat) (first : Command) : List Command → Prop
  | [] => isBuiltin first.1 = false
  | second :: rest => first.Found sys i ∧ Carried (i + 1) second rest

end System

/-- The processes of a pipeline of which each one has been made. -/
inductive Piped : Command → List Command → List Parsed → Prop where
  | last {c : Command} {p : Parsed} : p.rightpipe = 0 → p.argv = some (c.1 :: c.2) → c.2.length < maxArgs → Piped c [] [p]
  | long {c : Command} {p : Parsed} : p.rightpipe = 0 → p.argv = none → maxArgs ≤ c.2.length → Piped c [] [p]
  | more {c next : Command} {rest : List Command} {p : Parsed} {ps : List Parsed} : p.rightpipe ≠ 0 →
      p.argv = some (c.1 :: c.2) → c.2.length < maxArgs → Piped next rest ps → Piped c (next :: rest) (p :: ps)

section Parse

variable (r : Replies) (cwd : Text)

end Parse

/-- The null behind the arguments lies outside of `argv` exactly where a command has `MAXARGS` words. -/
theorem Piped.full {first : Command} {rest : List Command} {ps : List Parsed} (piped : Piped first rest ps) :
    ps.any Parsed.full = false ↔ ∀ c ∈ first :: rest, c.2.length + 1 ≠ maxArgs := by
  have one {c : Command} {p : Parsed} (argv : p.argv = some (c.1 :: c.2)) (few : c.2.length < maxArgs) :
      p.full = false ↔ c.2.length + 1 ≠ maxArgs := by
    rw [Parsed.full, argv, Option.any_some, decide_eq_false_iff_not, List.length_cons]
    omega
  induction piped with
  | last noRight argv few => simpa using one argv few
  | @long c p noRight argv many =>
    have none : p.full = false := by rw [Parsed.full, argv]; rfl
    rw [List.any_cons, none, List.any_nil]
    simp only [Bool.or_self, List.mem_singleton, forall_eq, true_iff]
    omega
  | more right argv few piped ih =>
    rw [List.any_cons, Bool.or_eq_false_iff, List.forall_mem_cons]
    exact and_congr (one argv few) ih

namespace System

variable (sys : System) {first : Command} {p : Parsed}

end System

section Run

variable (first : Option Int) (spoilt : Int)

end Run

end Mos.Sh
