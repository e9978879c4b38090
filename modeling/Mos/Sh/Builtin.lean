import Mos.Sh.Command
import Mathlib.Data.List.Infix

namespace Mos.Sh

theorem isBuiltin_cases {name : Text} (builtin : isBuiltin name = true) :
    name = "cd".toList ∨ name = "pwd".toList ∨ name = "declare".toList ∨ name = "unset".toList := by
  simpa only [isBuiltin, or_assoc, Bool.or_eq_true, decide_eq_true_eq] using builtin

theorem isBuiltin_take {name : Text} (builtin : isBuiltin (name.take 127) = true) : isBuiltin name = true := by
  have short : (name.take 127).length ≤ 7 := by
    rcases isBuiltin_cases builtin with eq | eq | eq | eq <;> rw [eq] <;> decide
  have whole : name.take 127 = name := by
    apply List.take_of_length_le
    rw [List.length_take] at short
    omega
  rw [← whole]
  exact builtin

theorem tokens_nil {s : Text} (last : nextToken s = none) : tokens s = [] := by
  rw [tokens.eq_def]
  split
  · rfl
  · rename_i goes
    cases last.symm.trans goes

theorem tokens_cons {s rest : Text} {tok : Token} (next : nextToken s = some (tok, rest)) : tokens s = tok :: tokens rest := by
  rw [tokens.eq_def]
  split
  · rename_i ends
    cases next.symm.trans ends
  · rename_i goes
    cases next.symm.trans goes
    rfl

theorem tokens_builtin {line : Text} (builtin : isBuiltin (peekFirstWord line 128) = true) :
    ∃ name toks, tokens line = .word name :: toks ∧ isBuiltin name = true := by
  unfold peekFirstWord at builtin
  cases trimmed : line.dropWhile isSpace with
  | nil =>
    rw [trimmed] at builtin
    exact absurd builtin (by decide)
  | cons c rest =>
    rw [trimmed] at builtin
    have visible : inWord c = true := by
      by_contra hidden
      rw [List.takeWhile_cons_of_neg hidden] at builtin
      exact absurd builtin (by decide)
    have noSymbol : isSymbol c = false := by
      unfold inWord at visible
      simp only [Bool.and_eq_true, Bool.not_eq_true'] at visible
      exact visible.2
    have next : nextToken line = some (.word (c :: rest.takeWhile inWord), rest.dropWhile inWord) := by
      unfold nextToken
      rw [trimmed]
      split
      · rename_i eq
        cases eq
      · rename_i eq
        cases eq
        exact absurd noSymbol (by decide)
      · rename_i eq
        cases eq
        rw [noSymbol]
        rfl
    rw [List.takeWhile_cons_of_pos visible] at builtin
    refine ⟨c :: rest.takeWhile inWord, tokens (rest.dropWhile inWord), ?_, ?_⟩
    · exact tokens_cons next
    · exact isBuiltin_take builtin

def Keeps (fds fds' : Fds) : Prop := ∀ n, fds n ≠ none → fds' n = fds n

namespace Keeps

variable {fds fds' fds'' : Fds}

theorem refl (fds : Fds) : Keeps fds fds := fun _ _ => rfl

theorem update {fd : Nat} (free : fds fd = none) (file : Option File) : Keeps fds (Function.update fds fd file) := by
  intro n used
  apply Function.update_of_ne
  rintro rfl
  exact used free

end Keeps

theorem fdAlloc_free {fds : Fds} {fd : Nat} (alloc : fdAlloc fds = some fd) : fds fd = none := by
  simpa using List.find?_some alloc

theorem openFd_keeps {reply : OpenReply} {fds fds' : Fds} {result : Option Nat} (opened : openFd reply fds = (result, fds')) :
    Keeps fds fds' ∧ ∀ fd, result = some fd → Keeps fds (close fds' fd) := by
  cases alloc : fdAlloc fds with
  | none =>
    simp only [openFd, alloc, Prod.mk.injEq] at opened
    obtain ⟨rfl, rfl⟩ := opened
    exact ⟨.refl fds, fun _ eq => nomatch eq⟩
  | some slot =>
    have free := fdAlloc_free alloc
    cases reply with
    | refused =>
      simp only [openFd, alloc, Prod.mk.injEq] at opened
      obtain ⟨rfl, rfl⟩ := opened
      exact ⟨.refl fds, fun _ eq => nomatch eq⟩
    | leaked file =>
      simp only [openFd, alloc, Prod.mk.injEq] at opened
      obtain ⟨rfl, rfl⟩ := opened
      exact ⟨.update free _, fun _ eq => nomatch eq⟩
    | opened file =>
      simp only [openFd, alloc, Prod.mk.injEq] at opened
      obtain ⟨rfl, rfl⟩ := opened
      refine ⟨.update free _, fun fd eq => ?_⟩
      cases eq
      rw [close, Function.update_idem]
      exact .update free _

theorem openFd_full {reply : OpenReply} {fds : Fds} (full : fdAlloc fds = none) : openFd reply fds = (none, fds) := by
  simp only [openFd, full]

theorem openFd_refused (fds : Fds) : openFd .refused fds = (none, fds) := by
  cases alloc : fdAlloc fds <;> simp only [openFd, alloc]

theorem cd_keeps (r : BuiltinReplies) (cwd : Text) (args : List Text) (fds : Fds) : Keeps fds (cd r cwd args fds).2.1 := by
  unfold cd
  split
  · exact .refl fds
  · split
    · exact .refl fds
    · split
      · exact .refl fds
      · rename_i path _
        cases opened : openFd (r.stat path) fds with
        | mk result fds' =>
          obtain ⟨kept, closed⟩ := openFd_keeps opened
          cases result with
          | none => exact kept
          | some fd =>
            dsimp only
            split <;> exact closed fd rfl

theorem runBuiltin_keeps {r : BuiltinReplies} {cwd cwd' name : Text} {args : List Text} {fds fds' : Fds} {ok : Bool}
    (ran : runBuiltin r cwd name args fds = some (ok, fds', cwd')) : Keeps fds fds' := by
  unfold runBuiltin at ran
  split at ran
  · have kept := cd_keeps r cwd args fds
    rw [Option.some.inj ran] at kept
    exact kept
  · split at ran
    · cases ran
      exact .refl fds
    · split at ran
      · cases ran
        exact .refl fds
      · split at ran
        · cases ran
          exact .refl fds
        · cases ran

theorem runBuiltin_returns (r : BuiltinReplies) (cwd : Text) {name : Text} (args : List Text) (fds : Fds)
    (builtin : isBuiltin name = true) : ∃ result, runBuiltin r cwd name args fds = some result := by
  unfold runBuiltin
  rcases isBuiltin_cases builtin with rfl | rfl | rfl | rfl
  all_goals exact ⟨_, rfl⟩

theorem finish_keeps (r : BuiltinReplies) (cwd : Text) (p : Parsed) : Keeps p.fds (p.finish r cwd).fds := by
  obtain ⟨fds, argv, rightpipe⟩ := p
  unfold Parsed.finish
  split
  · exact .refl fds
  · exact .refl fds
  · split
    · exact .refl fds
    · rename_i ran
      exact runBuiltin_keeps ran
    · rename_i ran
      exact runBuiltin_keeps ran

theorem finish_returns (r : BuiltinReplies) (cwd : Text) (p : Parsed)
    (builtin : ∀ argv, p.argv = some argv → ∃ name args, argv = name :: args ∧ isBuiltin name = true) :
    ∃ result, (p.finish r cwd).result = some result := by
  obtain ⟨fds, argv, rightpipe⟩ := p
  cases argv with
  | none => exact ⟨-1, rfl⟩
  | some argv =>
    obtain ⟨name, args, rfl, isB⟩ := builtin argv rfl
    obtain ⟨⟨ok, fds', cwd'⟩, ran⟩ := runBuiltin_returns r cwd args fds isB
    cases ok with
    | true => exact ⟨rightpipe, by simp only [Parsed.finish, ran]⟩
    | false => exact ⟨-1, by simp only [Parsed.finish, ran]⟩

def twoFree (fds : Fds) : Bool :=
  match fdAlloc fds with
  | none => false
  | some p0 => (fdAlloc (Function.update fds p0 (some 0))).isSome

/-- The word names a file that can be opened as far as the shell can tell; the root cannot be created. -/
def Redirects (cwd : Text) (fds : Fds) (kind : Redirection) (t : Text) : Prop :=
  ∃ path, resolvePath cwd t maxPathLen = some path ∧ (kind = .output → path ≠ ['/']) ∧ fdAlloc fds ≠ none

/-- Behind `argc` words, `parsecmd` reaches neither a redirection that can be carried out nor a pipe that can be made before
    it reaches an error or the end of the line, and there it leaves room for the null behind the arguments. -/
def Quiet (cwd : Text) (fds : Fds) (argc : Nat) : List Token → Prop
  | [] => argc < maxArgs
  | .word _ :: toks => maxArgs ≤ argc ∨ Quiet cwd fds (argc + 1) toks
  | tok :: toks =>
    match redirection tok with
    | some kind =>
      match toks with
      | .word t :: _ => ¬ Redirects cwd fds kind t
      | _ => True
    | none => if tok = .symbol '|' then twoFree fds = false else Quiet cwd fds argc toks

theorem fdAlloc_update (fds : Fds) (n : Nat) (f g : File) :
    fdAlloc (Function.update fds n (some f)) = fdAlloc (Function.update fds n (some g)) := by
  have same (i : Nat) : (Function.update fds n (some f) i).isNone = (Function.update fds n (some g) i).isNone := by
    by_cases eq : i = n
    · subst eq
      simp
    · simp [Function.update_of_ne eq]
  simp only [fdAlloc, same]

theorem pipe_refused {reply : Option (File × File)} {fds : Fds} (full : twoFree fds = false) : pipe reply fds = (none, fds) := by
  unfold twoFree at full
  unfold pipe
  cases alloc : fdAlloc fds with
  | none => rfl
  | some p0 =>
    rw [alloc] at full
    cases reply with
    | none => rfl
    | some files =>
      simp only [Option.isSome_eq_false_iff, Option.isNone_iff_eq_none] at full
      simp only [fdAlloc_update fds p0 files.1 0, full]

theorem redirect_refused (r : Replies) (cwd : Text) (n : Nat) (kind : Redirection) {t : Text} {fds : Fds}
    (refused : ¬ Redirects cwd fds kind t) : redirect r cwd n kind t fds = (false, fds) := by
  unfold redirect
  split
  · rfl
  · split
    · rfl
    · rename_i path resolved
      have opened : openRedirected r n kind path fds = (none, fds) := by
        by_cases full : fdAlloc fds = none
        · cases kind <;> simp only [openRedirected, openFd_full full]
        · by_cases root : kind = .output ∧ path = ['/']
          · obtain ⟨rfl, rfl⟩ := root
            exact openFd_refused fds
          · exact absurd ⟨path, resolved, fun output eq => root ⟨output, eq⟩, full⟩ refused
      rw [opened]

section Steps

variable {r : Replies} {cwd : Text} {argv : List Text} {tok : Token} {toks : List Token} {fds : Fds} {rightpipe : Int}
  {kind : Redirection} {argc : Nat}

/-- A symbol that `parsecmd` passes over. -/
def Skipped (tok : Token) : Prop := redirection tok = none ∧ tok ≠ .symbol '|' ∧ ∀ t, tok ≠ .word t

theorem token_cases (tok : Token) :
    (∃ t, tok = .word t) ∨ (∃ kind, redirection tok = some kind) ∨ tok = .symbol '|' ∨ Skipped tok := by
  cases tok with
  | word t => exact Or.inl ⟨t, rfl⟩
  | append => exact Or.inr (Or.inl ⟨.append, rfl⟩)
  | symbol c =>
    cases redirects : redirection (.symbol c) with
    | some kind => exact Or.inr (Or.inl ⟨kind, rfl⟩)
    | none =>
      by_cases bar : Token.symbol c = .symbol '|'
      · exact Or.inr (Or.inr (Or.inl bar))
      · exact Or.inr (Or.inr (Or.inr ⟨redirects, bar, fun _ eq => nomatch eq⟩))

theorem parsecmd_word {t : Text} (redirects : redirection tok = some kind) :
    parsecmd r cwd argv (tok :: .word t :: toks) fds rightpipe =
      if (redirect r cwd toks.length kind t fds).1 then
        parsecmd r cwd argv toks (redirect r cwd toks.length kind t fds).2 rightpipe
      else [⟨(redirect r cwd toks.length kind t fds).2, none, rightpipe⟩] := by
  obtain ⟨done, fds', result⟩ : ∃ done fds', redirect r cwd toks.length kind t fds = (done, fds') := ⟨_, _, rfl⟩
  cases tok with
  | word t => cases redirects
  | symbol c =>
    rw [parsecmd.eq_def]
    dsimp only
    split
    · rename_i eq
      cases redirects.symm.trans eq
      rw [result]
      cases done <;> rfl
    · rename_i eq
      cases redirects.symm.trans eq
  | append =>
    cases redirects
    rw [parsecmd.eq_def]
    dsimp only [redirection]
    rw [result]
    cases done <;> rfl

theorem parsecmd_bare (redirects : redirection tok = some kind) (noWord : ∀ t rest, toks ≠ .word t :: rest) :
    parsecmd r cwd argv (tok :: toks) fds rightpipe = [⟨fds, none, rightpipe⟩] := by
  cases tok with
  | word t => cases redirects
  | symbol c =>
    rw [parsecmd.eq_def]
    simp only [redirects]
  | append =>
    cases redirects
    rw [parsecmd.eq_def]
    dsimp only [redirection]
    split
    · rename_i t rest
      exact absurd rfl (noWord t rest)
    · rfl

theorem parsecmd_skip (skipped : Skipped tok) :
    parsecmd r cwd argv (tok :: toks) fds rightpipe = parsecmd r cwd argv toks fds rightpipe := by
  cases tok with
  | word t => exact absurd rfl (skipped.2.2 t)
  | symbol c =>
    rw [parsecmd.eq_def]
    simp only [skipped.1, if_neg skipped.2.1]
  | append => cases skipped.1

theorem quiet_redirect (redirects : redirection tok = some kind) :
    Quiet cwd fds argc (tok :: toks) ↔ ∀ t rest, toks = .word t :: rest → ¬ Redirects cwd fds kind t := by
  have same : Quiet cwd fds argc (tok :: toks) ↔ match toks with
      | .word t :: _ => ¬ Redirects cwd fds kind t
      | _ => True := by
    cases tok with
    | word t => cases redirects
    | symbol c =>
      rw [Quiet.eq_def]
      simp only [redirects]
    | append =>
      cases redirects
      exact Iff.rfl
  rw [same]
  split
  · simp
  · rename_i noWord
    simp only [true_iff]
    exact fun t rest eq => absurd eq (noWord t rest)

theorem quiet_skip (skipped : Skipped tok) : Quiet cwd fds argc (tok :: toks) ↔ Quiet cwd fds argc toks := by
  cases tok with
  | word t => exact absurd rfl (skipped.2.2 t)
  | symbol c =>
    rw [Quiet.eq_def]
    simp only [skipped.1, if_neg skipped.2.1]
  | append => cases skipped.1

end Steps

/-- On a quiet line `parsecmd` returns in one process, with its descriptors and the words read so far, which leave room for
    the null. -/
theorem parsecmd_quiet (r : Replies) (cwd : Text) (fds : Fds) (toks : List Token) (argv : List Text) (rightpipe : Int)
    (quiet : Quiet cwd fds argv.length toks) :
    ∃ p, parsecmd r cwd argv toks fds rightpipe = [p] ∧ p.fds = fds ∧ p.full = false ∧
      ∀ all, p.argv = some all → argv <+: all := by
  have ends (argv : List Text) : ∃ p : Parsed, [(⟨fds, none, rightpipe⟩ : Parsed)] = [p] ∧ p.fds = fds ∧ p.full = false ∧
      ∀ all, p.argv = some all → argv <+: all := ⟨_, rfl, rfl, rfl, fun _ eq => nomatch eq⟩
  induction toks generalizing argv with
  | nil =>
    have room : argv.length < maxArgs := quiet
    refine ⟨_, rfl, rfl, ?_, fun all eq => by cases eq; exact List.prefix_rfl⟩
    exact decide_eq_false (Nat.not_le_of_lt room)
  | cons tok toks ih =>
    rcases token_cases tok with ⟨t, rfl⟩ | ⟨kind, redirects⟩ | rfl | skipped
    · unfold parsecmd
      by_cases full : maxArgs ≤ argv.length
      · rw [if_pos full]
        exact ends argv
      · rw [if_neg full]
        have more : Quiet cwd fds (argv ++ [t]).length toks := by
          rw [List.length_append, List.length_singleton]
          exact quiet.resolve_left full
        obtain ⟨p, parsed, same, room, words⟩ := ih (argv ++ [t]) more
        exact ⟨p, parsed, same, room, fun all eq => (List.prefix_append argv [t]).trans (words all eq)⟩
    · have refused := (quiet_redirect redirects).mp quiet
      by_cases word : ∃ t rest, toks = .word t :: rest
      · obtain ⟨t, rest, rfl⟩ := word
        rw [parsecmd_word redirects, redirect_refused r cwd rest.length kind (refused t rest rfl)]
        exact ends argv
      · rw [parsecmd_bare redirects fun t rest eq => word ⟨t, rest, eq⟩]
        exact ends argv
    · have full : twoFree fds = false := quiet
      have parsed : parsecmd r cwd argv (.symbol '|' :: toks) fds rightpipe = [⟨fds, none, rightpipe⟩] := by
        rw [parsecmd.eq_def]
        simp [redirection, pipe_refused full]
      rw [parsed]
      exact ends argv
    · rw [parsecmd_skip skipped]
      exact ih argv ((quiet_skip skipped).mp quiet)

structure Standing (fds : Fds) : Prop where
  stdin : fds 0 ≠ none
  stdout : fds 1 ≠ none

/-- Each of the descriptors 0 and 1 keeps its file or gets `file`. -/
def Becomes (file : File) (fds fds' : Fds) : Prop := ∀ n < 2, fds' n = fds n ∨ fds' n = some file

namespace Becomes

variable {file : File} {fds fds' fds'' : Fds}

theorem refl : Becomes file fds fds := fun _ _ => Or.inl rfl

theorem trans (first : Becomes file fds fds') (second : Becomes file fds' fds'') : Becomes file fds fds'' := by
  intro n low
  rcases second n low with same | new
  · rw [same]
    exact first n low
  · exact Or.inr new

theorem standing (becomes : Becomes file fds fds') (standing : Standing fds) : Standing fds' := by
  constructor
  · rcases becomes 0 (by decide) with same | new
    · rw [same]
      exact standing.stdin
    · rw [new]
      exact Option.some_ne_none file
  · rcases becomes 1 (by decide) with same | new
    · rw [same]
      exact standing.stdout
    · rw [new]
      exact Option.some_ne_none file

theorem stays (becomes : Becomes file fds fds') {n : Nat} (low : n < 2) (new : fds n = some file) : fds' n = some file := by
  rcases becomes n low with same | new'
  · rw [same, new]
  · exact new'

end Becomes

theorem Standing.ne {fds : Fds} (standing : Standing fds) {fd n : Nat} (free : fds fd = none) (low : n < 2) : n ≠ fd := by
  rintro rfl
  obtain rfl | rfl : n = 0 ∨ n = 1 := by omega
  · exact standing.stdin free
  · exact standing.stdout free

/-- The system on which everything that can succeed does, with one file for all calls. -/
def noisy (file : File) : Replies where
  getcwdFails _ := false
  opens _ _ := .opened file
  creates _ _ := .opened file
  seekFails _ := false
  dups _ := true
  childDups _ := true
  pipes _ := some (file, file)
  forks _ := some ⟨1, Nat.one_pos⟩
  builtin _ := ⟨false, fun _ => .opened file, false, true, false, false, false⟩

section Noisy

variable (file : File) (cwd : Text) {fds : Fds}

theorem dup_noisy {file : File} {old : Nat} (new : Nat) (isFile : fds old = some file) (low : new < 2) (high : 2 ≤ old) :
    let fds' := close (dup true fds old new) old
    fds' new = some file ∧ fds' old = none ∧ ∀ n, n ≠ new → n ≠ old → fds' n = fds n := by
  have apart : new ≠ old := by omega
  have used : ¬ (fds old).isNone = true := by simp [isFile]
  have moved : close fds new old = some file := by rw [close, Function.update_of_ne (Ne.symm apart), isFile]
  refine ⟨?_, Function.update_self _ _ _, ?_⟩
  · rw [close, Function.update_of_ne apart, dup, if_neg used, Function.update_self, if_pos rfl, moved]
  · intro n other other'
    rw [close, Function.update_of_ne other', dup, if_neg used, Function.update_of_ne other, close,
      Function.update_of_ne other]

theorem redirect_noisy (standing : Standing fds) (n : Nat) (kind : Redirection) {t : Text}
    (redirects : Redirects cwd fds kind t) :
    ∃ fds', redirect (noisy file) cwd n kind t fds = (true, fds') ∧ fds' kind.target = some file ∧ Becomes file fds fds' := by
  obtain ⟨path, resolved, created, room⟩ := redirects
  obtain ⟨fd, alloc⟩ := Option.ne_none_iff_exists'.mp room
  have free := fdAlloc_free alloc
  have opened : openFd (.opened file) fds = (some fd, Function.update fds fd (some file)) := by simp only [openFd, alloc]
  have open' : openRedirected (noisy file) n kind path fds = (some fd, Function.update fds fd (some file)) := by
    cases kind with
    | output => rw [openRedirected, createReply, if_neg (created rfl)]; exact opened
    | input => simp [openRedirected, noisy, opened]
    | append => simp [openRedirected, noisy, opened]
  have low : kind.target < 2 := by cases kind <;> decide
  have high : 2 ≤ fd := by
    have ne0 := standing.ne free (n := 0) (by decide)
    have ne1 := standing.ne free (n := 1) (by decide)
    omega
  obtain ⟨new, -, others⟩ := dup_noisy kind.target (Function.update_self fd (some file) fds) low high
  refine ⟨_, ?_, new, ?_⟩
  · have asks : (noisy file).getcwdFails n = false := rfl
    simp only [redirect, asks, Bool.false_eq_true, if_false, resolved, open']
    rfl
  · intro m small
    by_cases same : m = kind.target
    · rw [same]
      exact Or.inr new
    · have apart : m ≠ fd := by omega
      rw [others m same apart, Function.update_of_ne apart]
      exact Or.inl rfl

theorem pipe_noisy (standing : Standing fds) (room : twoFree fds = true) :
    ∃ p0 p1, pipe (some (file, file)) fds =
        (some (p0, p1), Function.update (Function.update fds p0 (some file)) p1 (some file)) ∧ 2 ≤ p0 ∧ 2 ≤ p1 := by
  unfold twoFree at room
  cases alloc : fdAlloc fds with
  | none => simp [alloc] at room
  | some p0 =>
    rw [alloc] at room
    obtain ⟨p1, alloc'⟩ := Option.isSome_iff_exists.mp room
    rw [fdAlloc_update fds p0 0 file] at alloc'
    have free := fdAlloc_free alloc
    have free' := fdAlloc_free alloc'
    have apart : p1 ≠ p0 := by
      rintro rfl
      rw [Function.update_self] at free'
      cases free'
    rw [Function.update_of_ne apart] at free'
    have ne0 := standing.ne free (n := 0) (by decide)
    have ne1 := standing.ne free (n := 1) (by decide)
    have ne0' := standing.ne free' (n := 0) (by decide)
    have ne1' := standing.ne free' (n := 1) (by decide)
    refine ⟨p0, p1, ?_, by omega, by omega⟩
    simp only [pipe, alloc, alloc']

theorem parsecmd_pipe (toks : List Token) (argv : List Text) (rightpipe : Int) (standing : Standing fds)
    (room : twoFree fds = true) :
    ∃ p rest, parsecmd (noisy file) cwd argv (.symbol '|' :: toks) fds rightpipe = p :: rest ∧ Becomes file fds p.fds ∧
      p.fds 1 = some file := by
  obtain ⟨p0, p1, made, high, high'⟩ := pipe_noisy file standing room
  obtain ⟨new, -, others⟩ := dup_noisy 1 (Function.update_self p1 (some file) (Function.update fds p0 (some file)))
    (by decide) high'
  have parsed : ∃ rest, parsecmd (noisy file) cwd argv (.symbol '|' :: toks) fds rightpipe =
      ⟨close (close (dup true (Function.update (Function.update fds p0 (some file)) p1 (some file)) p1 1) p1) p0,
        some argv, 1⟩ :: rest := by
    have asks : (noisy file).pipes toks.length = some (file, file) := rfl
    rw [parsecmd.eq_def]
    simp only [redirection, if_true, asks, made]
    exact ⟨_, rfl⟩
  obtain ⟨rest, parsed⟩ := parsed
  refine ⟨_, rest, parsed, ?_, ?_⟩
  · intro m small
    have apart : m ≠ p0 := by omega
    have apart' : m ≠ p1 := by omega
    by_cases same : m = 1
    · right
      dsimp only
      rw [same, close, Function.update_of_ne (by omega), new]
    · left
      dsimp only
      rw [close, Function.update_of_ne apart, others m same apart', Function.update_of_ne apart', Function.update_of_ne apart]
  · dsimp only
    rw [close, Function.update_of_ne (by omega), new]

/-- On the noisy system the caller of `parsecmd` ends with its own files or the given one at 0 and 1. -/
theorem parsecmd_noisy (toks : List Token) (argv : List Text) (rightpipe : Int) (standing : Standing fds) :
    ∃ p rest, parsecmd (noisy file) cwd argv toks fds rightpipe = p :: rest ∧ Becomes file fds p.fds := by
  induction size : toks.length using Nat.strong_induction_on generalizing toks argv fds rightpipe with
  | _ size' ih =>
  subst size
  cases toks with
  | nil => exact ⟨_, _, rfl, .refl⟩
  | cons tok toks =>
    have less : toks.length < (tok :: toks).length := Nat.lt_succ_self _
    rcases token_cases tok with ⟨t, rfl⟩ | ⟨kind, redirects⟩ | rfl | skipped
    · unfold parsecmd
      split
      · exact ⟨_, _, rfl, .refl⟩
      · exact ih toks.length less toks _ _ standing rfl
    · by_cases word : ∃ t rest, toks = .word t :: rest
      · obtain ⟨t, rest, rfl⟩ := word
        rw [parsecmd_word redirects]
        by_cases carried : Redirects cwd fds kind t
        · obtain ⟨fds', done, -, becomes⟩ := redirect_noisy file cwd standing rest.length kind carried
          have less' : rest.length < (tok :: .word t :: rest).length := by
            simp only [List.length_cons]
            omega
          rw [done, if_pos rfl]
          obtain ⟨p, others, parsed, becomes'⟩ := ih rest.length less' rest argv rightpipe (becomes.standing standing) rfl
          exact ⟨p, others, parsed, becomes.trans becomes'⟩
        · rw [redirect_refused _ cwd rest.length kind carried]
          exact ⟨_, _, rfl, .refl⟩
      · rw [parsecmd_bare redirects fun t rest eq => word ⟨t, rest, eq⟩]
        exact ⟨_, _, rfl, .refl⟩
    · cases room : twoFree fds with
      | true =>
        obtain ⟨p, rest, parsed, becomes, -⟩ := parsecmd_pipe file cwd toks argv rightpipe standing room
        exact ⟨p, rest, parsed, becomes⟩
      | false =>
        have parsed : parsecmd (noisy file) cwd argv (.symbol '|' :: toks) fds rightpipe = [⟨fds, none, rightpipe⟩] := by
          rw [parsecmd.eq_def]
          simp [redirection, pipe_refused room]
        exact ⟨_, _, parsed, .refl⟩
    · rw [parsecmd_skip skipped]
      exact ih toks.length less toks _ _ standing rfl

/-- On a line that is not quiet it ends with the given file at 0 or 1, or without room for the null. -/
theorem parsecmd_loud (toks : List Token) (argv : List Text) (rightpipe : Int) (standing : Standing fds)
    (loud : ¬ Quiet cwd fds argv.length toks) :
    ∃ p rest, parsecmd (noisy file) cwd argv toks fds rightpipe = p :: rest ∧
      (p.full = true ∨ ∃ n < 2, p.fds n = some file) := by
  induction toks generalizing argv with
  | nil =>
    have long : maxArgs ≤ argv.length := Nat.le_of_not_lt loud
    exact ⟨_, _, rfl, Or.inl (decide_eq_true long)⟩
  | cons tok toks ih =>
    rcases token_cases tok with ⟨t, rfl⟩ | ⟨kind, redirects⟩ | rfl | skipped
    · obtain ⟨room, later⟩ := not_or.mp loud
      rw [parsecmd, if_neg room]
      apply ih (argv ++ [t])
      rw [List.length_append, List.length_singleton]
      exact later
    · rw [quiet_redirect redirects] at loud
      push Not at loud
      obtain ⟨t, rest, rfl, carried⟩ := loud
      obtain ⟨fds', done, new, becomes⟩ := redirect_noisy file cwd standing rest.length kind carried
      obtain ⟨p, others, parsed, becomes'⟩ := parsecmd_noisy file cwd rest argv rightpipe
        (becomes.standing standing)
      have low : kind.target < 2 := by cases kind <;> decide
      refine ⟨p, others, ?_, Or.inr ⟨kind.target, low, becomes'.stays low new⟩⟩
      rw [parsecmd_word redirects, done, if_pos rfl, parsed]
    · have room : twoFree fds = true := by simpa using (show ¬ twoFree fds = false from loud)
      obtain ⟨p, rest, parsed, -, new⟩ := parsecmd_pipe file cwd toks argv rightpipe standing room
      exact ⟨p, rest, parsed, Or.inr ⟨1, by decide, new⟩⟩
    · rw [parsecmd_skip skipped]
      exact ih argv fun quiet => loud ((quiet_skip skipped).mpr quiet)

end Noisy

/-- Nothing is stored outside of the arrays, and only the shell itself comes back to the loop of `main`, with its files at 0
    and 1. -/
def Undisturbed (fds : Fds) (ended : Except Fault (List Outcome)) : Prop :=
  ∃ shell others result, ended = .ok (shell :: others) ∧ shell.result = some result ∧ (∀ o ∈ others, o.result = none) ∧
    shell.fds 0 = fds 0 ∧ shell.fds 1 = fds 1

theorem quiet_undisturbed (r : Replies) {cwd : Text} {fds : Fds} {name line : Text} {toks : List Token}
    (standing : Standing fds) (builtin : isBuiltin name = true) (words : tokens line = .word name :: toks)
    (short : line.length < cmdCopySize) (quiet : Quiet cwd fds 1 toks) : Undisturbed fds (runcmd r cwd fds line) := by
  obtain ⟨p, parsed, same, room, names⟩ := parsecmd_quiet r cwd fds toks [name] 0 quiet
  obtain ⟨result, returns⟩ := finish_returns (r.builtin 0) cwd p fun argv eq => by
    obtain ⟨args, rfl⟩ := names argv eq
    exact ⟨name, args, rfl, builtin⟩
  have kept := finish_keeps (r.builtin 0) cwd p
  have whole : parsecmd r cwd [] (.word name :: toks) fds 0 = [p] := by
    rw [parsecmd, if_neg (by decide)]
    exact parsed
  rw [same] at kept
  rw [runcmd, if_neg (Nat.not_le_of_lt short), words, whole]
  refine ⟨p.finish (r.builtin 0) cwd, [], result, ?_, returns, fun _ mem => absurd mem List.not_mem_nil,
    kept 0 standing.stdin, kept 1 standing.stdout⟩
  simp [room]

theorem loud_disturbed {cwd : Text} {fds : Fds} {name line : Text} {toks : List Token} (standing : Standing fds)
    (words : tokens line = .word name :: toks) (loud : ¬ Quiet cwd fds 1 toks) :
    ∃ r, ¬ Undisturbed fds (runcmd r cwd fds line) := by
  obtain ⟨file, larger0, larger1⟩ : ∃ file, (fds 0).getD 0 < file ∧ (fds 1).getD 0 < file :=
    ⟨max ((fds 0).getD 0) ((fds 1).getD 0) + 1, Nat.lt_succ_of_le (Nat.le_max_left _ _), Nat.lt_succ_of_le (Nat.le_max_right _ _)⟩
  have fresh : ∀ n < 2, fds n ≠ some file := by
    intro n low eq
    have bound : (fds n).getD 0 < file := by
      obtain rfl | rfl : n = 0 ∨ n = 1 := by omega
      · exact larger0
      · exact larger1
    rw [eq, Option.getD_some] at bound
    exact Nat.lt_irrefl file bound
  obtain ⟨p, rest, parsed, changed⟩ := parsecmd_loud file cwd toks [name] 0 standing loud
  have whole : parsecmd (noisy file) cwd [] (.word name :: toks) fds 0 = p :: rest := by
    rw [parsecmd, if_neg (by decide)]
    exact parsed
  refine ⟨noisy file, ?_⟩
  rintro ⟨shell, others, result, ended, -, -, stdin, stdout⟩
  rw [runcmd, words, whole] at ended
  split at ended
  · cases ended
  · dsimp only at ended
    split at ended
    · cases ended
    · rename_i room
      rw [List.mapIdx_cons] at ended
      obtain ⟨rfl, -⟩ := List.cons.inj (Except.ok.inj ended)
      rcases changed with full | ⟨n, low, new⟩
      · exact room (by rw [List.any_cons, full, Bool.true_or])
      · have kept := finish_keeps ((noisy file).builtin 0) cwd p n (by rw [new]; exact Option.some_ne_none file)
        have same : (p.finish ((noisy file).builtin 0) cwd).fds n = fds n := by
          obtain rfl | rfl : n = 0 ∨ n = 1 := by omega
          · exact stdin
          · exact stdout
        exact fresh n low (same.symm.trans (kept.trans new))

/-- Whatever the system answers, a line that begins with a builtin leaves the shell alone if and only if it fits in `cmd_copy`
    and is quiet. -/
theorem builtin_undisturbed_iff (cwd : Text) (fds : Fds) (standing : Standing fds) (line : Text)
    (builtin : isBuiltin (peekFirstWord line 128) = true) :
    (∀ r, Undisturbed fds (runcmd r cwd fds line)) ↔ line.length < cmdCopySize ∧ Quiet cwd fds 0 (tokens line) := by
  obtain ⟨name, toks, words, isB⟩ := tokens_builtin builtin
  have room : ¬ maxArgs ≤ 0 := by decide
  have start : Quiet cwd fds 0 (.word name :: toks) ↔ Quiet cwd fds 1 toks := or_iff_right room
  rw [words, start]
  constructor
  · intro always
    constructor
    · by_contra long
      obtain ⟨shell, others, result, ended, -⟩ := always (noisy 0)
      rw [runcmd, if_pos (Nat.le_of_not_lt long)] at ended
      cases ended
    · by_contra loud
      obtain ⟨r, disturbed⟩ := loud_disturbed standing words loud
      exact disturbed (always r)
  · exact fun ⟨short, quiet⟩ r => quiet_undisturbed r standing isB words short quiet

def consoleFds : Fds := fun n => if n < 2 then some 7 else none

/-- In `pwd x > /` there is an argument too many, and a redirection to the root. -/
theorem builtin_undisturbed_iff_pwd :
    Quiet "/".toList consoleFds 0 (tokens "pwd x > /".toList) ∧
      ∀ r, Undisturbed consoleFds (runcmd r "/".toList consoleFds "pwd x > /".toList) := by
  have line : tokens "pwd x > /".toList = [.word "pwd".toList, .word "x".toList, .symbol '>', .word "/".toList] := by
    rw [tokens_cons (show _ = some (.word "pwd".toList, " x > /".toList) from rfl),
      tokens_cons (show _ = some (.word "x".toList, " > /".toList) from rfl),
      tokens_cons (show _ = some (.symbol '>', " /".toList) from rfl),
      tokens_cons (show _ = some (.word "/".toList, []) from rfl), tokens_nil rfl]
  have root : resolvePath "/".toList "/".toList maxPathLen = some ['/'] := by
    simp [resolvePath, resolveComponents, maxPathLen]
  have refused : ¬ Redirects "/".toList consoleFds .output "/".toList := by
    rintro ⟨path, resolved, created, -⟩
    exact created rfl (Option.some.inj (resolved.symm.trans root))
  have quiet : Quiet "/".toList consoleFds 0 (tokens "pwd x > /".toList) := by
    rw [line]
    exact Or.inr (Or.inr refused)
  exact ⟨quiet, (builtin_undisturbed_iff "/".toList consoleFds ⟨by decide, by decide⟩ "pwd x > /".toList (by decide)).mpr
    ⟨by decide, quiet⟩⟩

/-- In `pwd|pwd` the shell gets the pipe as its output, and the child comes back to the loop of `main`. -/
theorem runcmd_pwd_pwd :
    (runcmd (noisy 8) "/".toList consoleFds "pwd|pwd".toList).map
        (fun outcomes => outcomes.map fun o => (o.result, o.fds 0, o.fds 1)) =
      .ok [(some 1, some 7, some 8), (some 0, some 8, some 7)] := by
  have line : tokens "pwd|pwd".toList = [.word "pwd".toList, .symbol '|', .word "pwd".toList] := by
    rw [tokens_cons (show _ = some (.word "pwd".toList, "|pwd".toList) from rfl),
      tokens_cons (show _ = some (.symbol '|', "pwd".toList) from rfl),
      tokens_cons (show _ = some (.word "pwd".toList, []) from rfl), tokens_nil rfl]
  rw [runcmd, if_neg (by decide), line]
  rfl

theorem pwd_pwd_disturbs : ¬ ∀ r, Undisturbed consoleFds (runcmd r "/".toList consoleFds "pwd|pwd".toList) := by
  intro always
  obtain ⟨shell, others, result, ended, -, gone, -⟩ := always (noisy 8)
  have run := runcmd_pwd_pwd
  rw [ended, Except.map, Except.ok.injEq, List.map_cons] at run
  have children := (List.cons.inj run).2
  cases others with
  | nil => cases children
  | cons child others =>
    rw [List.map_cons] at children
    have returns := congrArg Prod.fst (List.cons.inj children).1
    cases (gone child List.mem_cons_self).symm.trans returns

end Mos.Sh
