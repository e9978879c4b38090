import Mos.Sh.Text
import Mathlib.Data.PNat.Notation
import Mathlib.Logic.Function.Basic

namespace Mos.Sh

def maxArgs : Nat := 128
def maxNameLen : Nat := 128
def maxPathLen : Nat := 1024
def maxFd : Nat := 32

/-- What `gettoken` returns; `append` is its token `'a'` for `>>`. -/
inductive Token where
  | word (t : Text)
  | symbol (c : Char)
  | append
deriving DecidableEq

/-- `_gettoken`: the token at the start of the string and what follows it. -/
def nextToken (s : Text) : Option (Token × Text) :=
  match s.dropWhile isSpace with
  | [] => none
  | '>' :: '>' :: rest => some (.append, rest)
  | c :: rest =>
    if isSymbol c then some (.symbol c, rest)
    else some (.word (c :: rest.takeWhile inWord), rest.dropWhile inWord)

theorem nextToken_shorter {s rest : Text} {tok : Token} (next : nextToken s = some (tok, rest)) : rest.length < s.length := by
  have trimmed := (List.dropWhile_suffix (l := s) isSpace).length_le
  unfold nextToken at next
  split at next
  · cases next
  · rename_i eq
    cases next
    rw [eq] at trimmed
    simp only [List.length_cons] at trimmed
    omega
  · rename_i c tail _ eq
    rw [eq, List.length_cons] at trimmed
    split at next
    · cases next
      omega
    · cases next
      have shorter := (List.dropWhile_suffix (l := tail) inWord).length_le
      omega

/-- The tokens that the calls of `gettoken` give, one by one. -/
def tokens (s : Text) : List Token :=
  match _next : nextToken s with
  | none => []
  | some (tok, rest) => tok :: tokens rest
termination_by s.length
decreasing_by exact nextToken_shorter _next

/-- The index at which `..` cuts the path, searched from `i` down. -/
def cutIndex (path : Text) : Nat → Nat
  | 0 => 1
  | i + 1 => if path[i + 1]? = some '/' then i + 1 else cutIndex path i

def resolveComponents (maxLen : Nat) (resolved p : Text) : Option Text :=
  match _skip : p.dropWhile (· == '/') with
  | [] => some (if resolved = [] then ['/'] else resolved)
  | c :: rest =>
    let component := (c :: rest).takeWhile (· != '/')
    let p' := (c :: rest).dropWhile (· != '/')
    if maxNameLen ≤ component.length then none
    else if component = ['.'] then resolveComponents maxLen resolved p'
    else if component = ['.', '.'] then
      if 1 < resolved.length then
        let last := resolved.length - 1
        let from' := if resolved[last]? = some '/' then last - 1 else last
        resolveComponents maxLen (resolved.take (cutIndex resolved from')) p'
      else resolveComponents maxLen resolved p'
    else if 1 < resolved.length ∧ maxLen ≤ resolved.length + 1 then none
    else
      let base := if 1 < resolved.length then resolved ++ ['/'] else resolved
      if maxLen ≤ base.length + component.length then none
      else resolveComponents maxLen (base ++ component) p'
termination_by p.length
decreasing_by
  all_goals
    have skipped := (List.dropWhile_suffix (l := p) (· == '/')).length_le
    have first : c ≠ '/' := by
      intro eq
      have head := List.head_dropWhile_not (l := p) (p := (· == '/')) (by rw [_skip]; exact List.cons_ne_nil c rest)
      simp [_skip, eq] at head
    have shorter : ((c :: rest).dropWhile (· != '/')).length ≤ rest.length := by
      rw [List.dropWhile_cons, if_pos (by simp [first])]
      exact (List.dropWhile_suffix _).length_le
    rw [_skip, List.length_cons] at skipped
    omega

/-- `resolve_path`; the empty path stands for a null pointer too. -/
def resolvePath (cwd path : Text) (maxLen : Nat) : Option Text :=
  if path = [] then if maxLen < 2 then none else some ['/']
  else if path.head? = some '/' then if maxLen < 2 then none else resolveComponents maxLen ['/'] path.tail
  else if maxLen ≤ cwd.length then none
  else resolveComponents maxLen cwd path

/-- An open file, as the page of its `struct Fd`. -/
abbrev File := Nat

abbrev Fds := Nat → Option File

def fdAlloc (fds : Fds) : Option Nat := (List.range (maxFd - 1)).find? fun n => (fds n).isNone

def close (fds : Fds) (fd : Nat) : Fds := Function.update fds fd none

/-- `dup`; `ok` tells whether its calls of `sys_mem_map` succeed. -/
def dup (ok : Bool) (fds : Fds) (old new : Nat) : Fds :=
  if (fds old).isNone then fds
  else Function.update (close fds new) new (if ok then close fds new old else none)

inductive OpenReply where
  | refused
  /-- The descriptor page is mapped, but a later step of `open` fails. -/
  | leaked (file : File)
  | opened (file : File)

/-- `open` gives the lowest free descriptor to the file. -/
def openFd (reply : OpenReply) (fds : Fds) : Option Nat × Fds :=
  match fdAlloc fds, reply with
  | none, _ => (none, fds)
  | some _, .refused => (none, fds)
  | some fd, .leaked file => (none, Function.update fds fd (some file))
  | some fd, .opened file => (some fd, Function.update fds fd (some file))

def pipe (reply : Option (File × File)) (fds : Fds) : Option (Nat × Nat) × Fds :=
  match fdAlloc fds, reply with
  | some p0, some (reader, writer) =>
    let fds' := Function.update fds p0 (some reader)
    match fdAlloc fds' with
    | some p1 => (some (p0, p1), Function.update fds' p1 (some writer))
    | none => (none, fds)
  | _, _ => (none, fds)

/-- What the system answers to the calls of one builtin. -/
structure BuiltinReplies where
  getcwdFails : Bool
  stat : Text → OpenReply
  fstatFails : Bool
  isDir : Bool
  chdirFails : Bool
  setVarFails : Bool
  unsetVarFails : Bool

/-- What the system answers while a line is run. The calls that one token leads to are told apart by the number of tokens
    behind it, the builtins by the number of forks before them. -/
structure Replies where
  getcwdFails : Nat → Bool
  opens : Nat → Text → OpenReply
  /-- The second `open` of `>>`. -/
  creates : Nat → Text → OpenReply
  seekFails : Nat → Bool
  dups : Nat → Bool
  childDups : Nat → Bool
  pipes : Nat → Option (File × File)
  forks : Nat → Option ℕ+
  builtin : Nat → BuiltinReplies

inductive Redirection where
  | input
  | output
  | append
deriving DecidableEq

def redirection : Token → Option Redirection
  | .symbol '<' => some .input
  | .symbol '>' => some .output
  | .append => some .append
  | _ => none

def Redirection.target : Redirection → Nat
  | .input => 0
  | _ => 1

section Parse

variable (r : Replies) (cwd : Text)

/-- What `open` answers with `O_CREAT`. The root is always there, and the server refuses to create what is there. -/
def createReply (path : Text) (reply : OpenReply) : OpenReply := if path = ['/'] then .refused else reply

def openRedirected (n : Nat) (kind : Redirection) (path : Text) (fds : Fds) : Option Nat × Fds :=
  match kind with
  | .input => openFd (r.opens n path) fds
  | .output => openFd (createReply path (r.opens n path)) fds
  | .append =>
    match openFd (r.opens n path) fds with
    | (none, fds) => openFd (createReply path (r.creates n path)) fds
    | (some fd, fds) => if r.seekFails n then (none, close fds fd) else (some fd, fds)

def redirect (n : Nat) (kind : Redirection) (t : Text) (fds : Fds) : Bool × Fds :=
  if r.getcwdFails n then (false, fds)
  else
    match resolvePath cwd t maxPathLen with
    | none => (false, fds)
    | some path =>
      match openRedirected r n kind path fds with
      | (none, fds) => (false, fds)
      | (some fd, fds) => (true, close (dup (r.dups n) fds fd kind.target) fd)

/-- A process in which `parsecmd` has returned, with `argv`, or nothing for -1, and the env of `rightpipe`. -/
structure Parsed where
  fds : Fds
  argv : Option (List Text)
  rightpipe : Int

/-- `parsecmd`, in the process that calls it and then in the processes that it forks. -/
def parsecmd (argv : List Text) (toks : List Token) (fds : Fds) (rightpipe : Int) : List Parsed :=
  match toks with
  | [] => [⟨fds, some argv, rightpipe⟩]
  | .word t :: toks =>
    if maxArgs ≤ argv.length then [⟨fds, none, rightpipe⟩] else parsecmd (argv ++ [t]) toks fds rightpipe
  | tok :: toks =>
    match redirection tok with
    | some kind =>
      match toks with
      | .word t :: toks =>
        match redirect r cwd toks.length kind t fds with
        | (false, fds) => [⟨fds, none, rightpipe⟩]
        | (true, fds) => parsecmd argv toks fds rightpipe
      | _ => [⟨fds, none, rightpipe⟩]
    | none =>
      if tok = .symbol '|' then
        match pipe (r.pipes toks.length) fds with
        | (none, fds) => [⟨fds, none, rightpipe⟩]
        | (some (p0, p1), fds) =>
          match r.forks toks.length with
          | none => [⟨fds, none, -1⟩]
          | some child =>
            let right := close (close (dup (r.childDups toks.length) fds p0 0) p0) p1
            let left := close (close (dup (r.dups toks.length) fds p1 1) p1) p0
            ⟨left, some argv, child.val⟩ :: parsecmd [] toks right 0
      else parsecmd argv toks fds rightpipe

end Parse

section Builtins

variable (r : BuiltinReplies) (cwd : Text)

/-- Whether `cd` succeeds, the descriptors and the directory behind it. -/
def cd (args : List Text) (fds : Fds) : Bool × Fds × Text :=
  if 1 < args.length then (false, fds, cwd)
  else if r.getcwdFails then (false, fds, cwd)
  else
    match resolvePath cwd (args.headD []) maxPathLen with
    | none => (false, fds, cwd)
    | some path =>
      match openFd (r.stat path) fds with
      | (none, fds) => (false, fds, cwd)
      | (some fd, fds) =>
        if r.fstatFails || !r.isDir || r.chdirFails then (false, close fds fd, cwd) else (true, close fds fd, path)

def runBuiltin (name : Text) (args : List Text) (fds : Fds) : Option (Bool × Fds × Text) :=
  if name = "cd".toList then some (cd r cwd args fds)
  else if name = "pwd".toList then some (args.isEmpty && !r.getcwdFails, fds, cwd)
  else if name = "declare".toList then
    -- The options come first; without a name behind them nothing is set.
    let names := args.dropWhile fun arg => arg.head? = some '-'
    some (names.isEmpty || !r.setVarFails, fds, cwd)
  else if name = "unset".toList then some (args.length = 1 && !r.unsetVarFails, fds, cwd)
  else none

end Builtins

/-- A process behind `runcmd`; the result is missing where it has ended in `exit`. -/
structure Outcome where
  fds : Fds
  cwd : Text
  result : Option Int

/-- What `runcmd` does behind `parsecmd`. -/
def Parsed.finish (r : BuiltinReplies) (cwd : Text) (p : Parsed) : Outcome :=
  match p.argv with
  | none => ⟨p.fds, cwd, some (-1)⟩
  | some [] => ⟨p.fds, cwd, some p.rightpipe⟩
  | some (name :: args) =>
    match runBuiltin r cwd name args p.fds with
    | none => ⟨p.fds, cwd, none⟩
    | some (true, fds, cwd) => ⟨fds, cwd, some p.rightpipe⟩
    | some (false, fds, cwd) => ⟨fds, cwd, some (-1)⟩

/-- The null behind the arguments lies outside of `argv[MAXARGS]`. -/
def Parsed.full (p : Parsed) : Bool := p.argv.any fun argv => maxArgs ≤ argv.length

/-- `runcmd`: the calling process first, then the ones forked by `parsecmd`. -/
def runcmd (r : Replies) (cwd : Text) (fds : Fds) (line : Text) : Except Fault (List Outcome) :=
  -- `strcpy` to `cmd_copy`
  if cmdCopySize ≤ line.length then .error .outside
  else
    let ps := parsecmd r cwd [] (tokens line) fds 0
    -- `argv[argc] = 0` in one of the processes
    if ps.any Parsed.full then .error .outside else .ok (ps.mapIdx fun i p => p.finish (r.builtin i) cwd)

end Mos.Sh
