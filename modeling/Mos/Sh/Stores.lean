import Mos.Sh.Semicolon
import Mos.Sh.Pipeline

namespace Mos.Sh

/-- The arrays of the command pipeline. `captureCopy` is `cmd_copy` of `run_and_capture_output`, `cmdCopy` that of
    `runcmd`. -/
inductive Buffer where
  | expandedBuf
  | subCmdBuf
  | finalCmdBuf
  | subCmd
  | captureCopy
  | cmdCopy
  | argv
deriving DecidableEq

def Buffer.size : Buffer → Nat
  | .expandedBuf => 2048
  | .subCmdBuf => 2048
  | .finalCmdBuf => 2048
  | .subCmd => 1024
  | .captureCopy => 1024
  | .cmdCopy => 1024
  | .argv => maxArgs

structure Store where
  buffer : Buffer
  index : Nat

def Inside (stores : List Store) : Prop := ∀ s ∈ stores, s.index < s.buffer.size

/-- The processes that copy the texts, or none where `pipe` or `fork` fails. -/
structure Runners (σ : Type) where
  captured : Text → σ → Option System
  command : Text → σ → Option System

/-- `strncpy` of `n` bytes. -/
def strncpyStores (b : Buffer) (n : Nat) : List Store := (List.range n).map fun i => ⟨b, i⟩

/-- `strcpy` to the place `off` of the array. -/
def strcpyStores (b : Buffer) (off : Nat) (s : Text) : List Store :=
  (List.range (s.length + 1)).map fun i => ⟨b, off + i⟩

/-- The null behind the arguments, which `runcmd` stores unless there are none. -/
def endStores (argc : Nat) : List Store := if argc = 0 then [] else [⟨.argv, argc⟩]

/-- The stores of `parsecmd` and of its callers to `argv`. -/
def parsecmdStores (r : Replies) (cwd : Text) (argc : Nat) (toks : List Token) (fds : Fds) : List Store :=
  match toks with
  | [] => endStores argc
  | .word _ :: toks =>
    if maxArgs ≤ argc then [] else ⟨.argv, argc⟩ :: parsecmdStores r cwd (argc + 1) toks fds
  | tok :: toks =>
    match redirection tok with
    | some kind =>
      match toks with
      | .word t :: toks =>
        match redirect r cwd toks.length kind t fds with
        | (false, _) => []
        | (true, fds) => parsecmdStores r cwd argc toks fds
      | _ => []
    | none =>
      if tok = .symbol '|' then
        match pipe (r.pipes toks.length) fds with
        | (none, _) => []
        | (some (p0, p1), fds) =>
          match r.forks toks.length with
          | none => []
          | some _ => endStores argc ++ parsecmdStores r cwd 0 toks (close (close (dup (r.childDups toks.length) fds p0 0) p0) p1)
      else parsecmdStores r cwd argc toks fds

def runcmdStores (sys : System) (text : Text) : List Store :=
  strcpyStores .cmdCopy 0 text ++ parsecmdStores sys.replies sys.cwd 0 (tokens text) sys.fds

variable {σ : Type}

/-- The loop of expansion, which is at the place `ep` of `expanded_buf`. -/
def expandStores (host : Host σ) (world : σ) (ep : Nat) (p : Text) : List Store :=
  match p with
  | [] => [⟨.expandedBuf, ep⟩]
  | c :: rest =>
    if c = '$' then
      let val := host.getVarValue ((rest.takeWhile inName).take maxVarNameLen) world
      strcpyStores .expandedBuf ep val ++ expandStores host world (ep + val.length) (rest.dropWhile inName)
    else ⟨.expandedBuf, ep⟩ :: expandStores host world (ep + 1) rest
termination_by p.length
decreasing_by
  · have shorter := (List.dropWhile_suffix (l := rest) inName).length_le
    rw [List.length_cons]
    omega
  · simp

section Loop

variable (host : Host σ) (runners : Runners σ)

/-- The copies of a region, in `handle_backticks` and in the child that runs it. -/
def regionStores (text : Text) (world : σ) : List Store :=
  strncpyStores .subCmd text.length ++ ⟨.subCmd, text.length⟩ ::
    match runners.captured text world with
    | none => []
    | some sys => strcpyStores .captureCopy 0 text ++ runcmdStores sys text

/-- The loop of `handle_backticks`, with `n` bytes of `cmd_out` written. -/
def substituteStores (cmdIn pIn : Text) (n : Nat) (world : σ) : List Store :=
  match pIn with
  | [] => [⟨.finalCmdBuf, n⟩]
  | c :: rest =>
    if c = '`' then
      match strchr rest '`' with
      | none => strcpyStores .finalCmdBuf 0 cmdIn
      | some endTick =>
        let ((cmdStatus, output), world') := host.runAndCaptureOutput (rest.take endTick) 1024 world
        regionStores runners (rest.take endTick) world ++
          if cmdStatus < 0 then []
          else if 2047 ≤ n + output.length then []
          else
            strcpyStores .finalCmdBuf n output ++ substituteStores cmdIn (rest.drop (endTick + 1)) (n + output.length) world'
    else if 2047 ≤ n then []
    else ⟨.finalCmdBuf, n⟩ :: substituteStores cmdIn rest (n + 1) world
termination_by pIn.length
decreasing_by
  · simp only [List.length_drop, List.length_cons]
    omega
  · simp

def executeStores (finalCmd : Text) (world : σ) : List Store :=
  let firstWord := peekFirstWord finalCmd 128
  if firstWord = "exit".toList ∨ firstWord = "history".toList then []
  else
    match runners.command finalCmd world with
    | none => []
    | some sys => runcmdStores sys finalCmd

def runSubStores (subCmd : Text) (world : σ) : List Store :=
  let ((status, finalCmd), world') := host.handleBackticks subCmd 2048 world
  substituteStores host runners subCmd subCmd 0 world ++ if status < 0 then [] else executeStores runners finalCmd world'

/-- The loop of `main` over one expanded line. -/
def chainStores (line : Text) (run : Bool) (s : Chain σ) : List Store :=
  match _trimmed : line.dropWhile isSpace with
  | [] => []
  | c :: rest =>
    match _found : separator (c :: rest) with
    | none => strcpyStores .subCmdBuf 0 (c :: rest) ++ if run then runSubStores host runners (c :: rest) s.world else []
    | some (off, len) =>
      strncpyStores .subCmdBuf off ++ ⟨.subCmdBuf, off⟩ ::
        ((if run then runSubStores host runners ((c :: rest).take off) s.world else []) ++
          match if run then host.runSub ((c :: rest).take off) s else some s with
          | none => []
          | some s' => chainStores ((c :: rest).drop (off + len)) (shouldRun (c :: rest) (off, len) s'.lastStatus) s')
termination_by line.length
decreasing_by
  have shorter := (List.dropWhile_suffix (l := line) isSpace).length_le
  have positive := separator_pos _found
  rw [_trimmed] at shorter
  simp only [List.length_cons, List.length_drop] at shorter ⊢
  omega

/-- The stores of the command pipeline for one line of text, in the shell and in the processes that it forks. -/
def lineStores (world : σ) (text : Text) : List Store :=
  expandStores host world 0 (clean text) ++ chainStores host runners (expand host world (clean text)) true ⟨world, 0, []⟩

end Loop

section Fit

variable (host : Host σ) (runners : Runners σ)

/-- Each text between backticks that the substitution comes to fits in `sub_cmd` and in the arrays of the processes that run it. -/
def RegionsFit (pIn : Text) (n : Nat) (world : σ) : Prop :=
  match pIn with
  | [] => True
  | c :: rest =>
    if c = '`' then
      match strchr rest '`' with
      | none => True
      | some endTick =>
        let ((cmdStatus, output), world') := host.runAndCaptureOutput (rest.take endTick) 1024 world
        ((rest.take endTick).length < subCmdSize ∧
            ∀ sys, runners.captured (rest.take endTick) world = some sys → sys.inside (rest.take endTick) = true) ∧
          (0 ≤ cmdStatus → n + output.length < 2047 → RegionsFit (rest.drop (endTick + 1)) (n + output.length) world')
    else n < 2047 → RegionsFit rest (n + 1) world
termination_by pIn.length
decreasing_by
  · simp only [List.length_drop, List.length_cons]
    omega
  · simp

def ExecuteFits (finalCmd : Text) (world : σ) : Prop :=
  isCopied (peekFirstWord finalCmd 128) = true → ∀ sys, runners.command finalCmd world = some sys → sys.inside finalCmd = true

def RunSubFits (subCmd : Text) (world : σ) : Prop :=
  let ((status, finalCmd), world') := host.handleBackticks subCmd 2048 world
  RegionsFit host runners subCmd 0 world ∧ (0 ≤ status → ExecuteFits runners finalCmd world')

/-- The commands of an expanded line fit, where the loop over the line comes to them. -/
def LineFits (line : Text) (run : Bool) (s : Chain σ) : Prop :=
  match _trimmed : line.dropWhile isSpace with
  | [] => True
  | c :: rest =>
    match _found : separator (c :: rest) with
    | none => run = true → RunSubFits host runners (c :: rest) s.world
    | some (off, len) =>
      (run = true → RunSubFits host runners ((c :: rest).take off) s.world) ∧
        ∀ s', (if run then host.runSub ((c :: rest).take off) s else some s) = some s' →
          LineFits ((c :: rest).drop (off + len)) (shouldRun (c :: rest) (off, len) s'.lastStatus) s'
termination_by line.length
decreasing_by
  exact drop_shorter _trimmed _found

end Fit

section Copies

variable {b : Buffer} {n : Nat} {stores more : List Store}

theorem inside_nil : Inside [] := List.forall_mem_nil _

theorem inside_cons {i : Nat} : Inside (⟨b, i⟩ :: stores) ↔ i < b.size ∧ Inside stores := List.forall_mem_cons

theorem inside_append : Inside (stores ++ more) ↔ Inside stores ∧ Inside more := List.forall_mem_append

theorem strncpyStores_inside : Inside (strncpyStores b n) ↔ n ≤ b.size := by
  simp only [Inside, strncpyStores, List.forall_mem_map, List.mem_range]
  constructor
  · intro inside
    by_contra far
    exact Nat.lt_irrefl _ (inside b.size (Nat.lt_of_not_le far))
  · exact fun fits i low => lt_of_lt_of_le low fits

theorem strcpyStores_inside {off : Nat} {s : Text} : Inside (strcpyStores b off s) ↔ off + s.length < b.size := by
  simp only [Inside, strcpyStores, List.forall_mem_map, List.mem_range]
  constructor
  · exact fun inside => inside s.length (Nat.lt_succ_self _)
  · intro fits i low
    omega

theorem endStores_inside (argc : Nat) : Inside (endStores argc) ↔ argc < maxArgs := by
  unfold endStores
  split
  · rename_i none
    simp [none, maxArgs, inside_nil]
  · simp [Inside, Buffer.size]

end Copies

section Command

variable {r : Replies} {cwd : Text}

/-- Every process of the line has room for the null behind its arguments. -/
def Roomy (ps : List Parsed) : Prop := ∀ p ∈ ps, ∀ argv, p.argv = some argv → argv.length < maxArgs

theorem roomy_failed (fds : Fds) (rightpipe : Int) : Roomy [⟨fds, none, rightpipe⟩] := by
  intro p mem argv has
  cases List.mem_singleton.mp mem
  cases has

theorem roomy_cons {fds : Fds} {argv : List Text} {rightpipe : Int} {rest : List Parsed} :
    Roomy (⟨fds, some argv, rightpipe⟩ :: rest) ↔ argv.length < maxArgs ∧ Roomy rest := by
  unfold Roomy
  rw [List.forall_mem_cons]
  simp only [Option.some.injEq, forall_eq']

theorem roomy_iff (ps : List Parsed) : Roomy ps ↔ ps.any Parsed.full = false := by
  simp only [Roomy, List.any_eq_false, Parsed.full, Option.any_eq_true, decide_eq_true_eq, not_exists, not_and, Nat.not_le]

theorem parsecmdStores_inside {argv : List Text} (toks : List Token) (fds : Fds) (rightpipe : Int) (room : argv.length ≤ maxArgs) :
    Inside (parsecmdStores r cwd argv.length toks fds) ↔ Roomy (parsecmd r cwd argv toks fds rightpipe) := by
  have failed (fds : Fds) (rightpipe : Int) : Inside [] ↔ Roomy [⟨fds, none, rightpipe⟩] :=
    iff_of_true inside_nil (roomy_failed fds rightpipe)
  fun_induction parsecmd r cwd argv toks fds rightpipe with
  | case1 argv fds rightpipe =>
    rw [parsecmdStores, endStores_inside, roomy_cons]
    simp [Roomy]
  | case2 argv fds rightpipe t toks full =>
    rw [parsecmdStores, if_pos full]
    exact failed fds rightpipe
  | case3 argv fds rightpipe t toks more ih =>
    have less := Nat.lt_of_not_le more
    rw [parsecmdStores, if_neg more, inside_cons]
    rw [List.length_append, List.length_singleton] at ih
    exact (and_iff_right less).trans (ih less)
  | case4 argv fds rightpipe tok word kind redirects t toks fds' refused =>
    rw [parsecmdStores, redirects]
    · simp only [refused]
      exact failed fds' rightpipe
    · exact word
  | case5 argv fds rightpipe tok word kind redirects t toks fds' done ih =>
    rw [parsecmdStores, redirects]
    · simp only [done]
      exact ih room
    · exact word
  | case6 argv fds rightpipe tok toks word kind redirects bare =>
    rw [parsecmdStores, redirects]
    · dsimp only
      split
      · exact absurd rfl (bare _ _)
      · exact failed fds rightpipe
    · exact word
  | case7 argv fds rightpipe toks fds' refused =>
    rw [parsecmdStores]
    · simp only [redirection, refused]
      exact failed fds' rightpipe
    · intro _ eq
      cases eq
  | case8 argv fds rightpipe toks p0 p1 fds' piped refused =>
    rw [parsecmdStores]
    · simp only [redirection, piped, refused]
      exact failed fds' (-1)
    · intro _ eq
      cases eq
  | case9 argv fds rightpipe toks p0 p1 fds' piped child forked right left _ _ ih =>
    rw [parsecmdStores, roomy_cons]
    · simp only [redirection, piped, forked, if_true]
      show Inside (endStores argv.length ++ parsecmdStores r cwd 0 toks right) ↔ _
      rw [inside_append, endStores_inside]
      exact and_congr_right fun _ => ih (Nat.zero_le _)
    · intro _ eq
      cases eq
  | case10 argv fds rightpipe tok toks word none notBar ih =>
    rw [parsecmdStores, none]
    · simp only [if_neg notBar]
      exact ih room
    · exact word

/-- A process that runs a command stores inside `cmd_copy` and `argv` if and only if the command fits. -/
theorem runcmdStores_inside (sys : System) (text : Text) : Inside (runcmdStores sys text) ↔ sys.inside text = true := by
  have roomy := @parsecmdStores_inside sys.replies sys.cwd [] (tokens text) sys.fds 0 (Nat.zero_le _)
  unfold runcmdStores System.inside
  rw [inside_append, strcpyStores_inside, Nat.zero_add, Bool.and_eq_true, decide_eq_true_eq, Bool.not_eq_true', ← roomy_iff]
  exact and_congr_right fun _ => roomy

end Command

section Loop

variable {σ : Type} (host : Host σ) (runners : Runners σ)

theorem expandStores_inside (world : σ) (ep : Nat) (p : Text) :
    Inside (expandStores host world ep p) ↔ ep + (expand host world p).length < 2048 := by
  induction p using expand.induct generalizing ep with
  | case1 =>
    rw [expandStores, expand, inside_cons]
    exact and_iff_left inside_nil
  | case2 rest ih =>
    rw [expandStores, if_pos rfl, expand, if_pos rfl]
    dsimp only
    rw [inside_append, strcpyStores_inside, ih, List.length_append, Nat.add_assoc]
    constructor
    · exact fun both => both.2
    · exact fun all => ⟨show _ < 2048 by omega, all⟩
  | case3 c rest other ih =>
    rw [expandStores, if_neg other, expand, if_neg other, inside_cons, ih, List.length_cons]
    constructor
    · rintro ⟨-, all⟩
      omega
    · exact fun all => ⟨show ep < 2048 by omega, by omega⟩

theorem regionStores_inside (text : Text) (world : σ) :
    Inside (regionStores runners text world) ↔
      text.length < subCmdSize ∧ ∀ sys, runners.captured text world = some sys → sys.inside text = true := by
  have size : Buffer.subCmd.size = subCmdSize := rfl
  unfold regionStores
  rw [inside_append, inside_cons, strncpyStores_inside, size]
  cases captured : runners.captured text world with
  | none =>
    constructor
    · exact fun ⟨_, short, _⟩ => ⟨short, fun _ no => by cases no⟩
    · exact fun ⟨short, _⟩ => ⟨le_of_lt short, short, inside_nil⟩
  | some sys =>
    simp only [Option.some.injEq, forall_eq']
    rw [inside_append, strcpyStores_inside, Nat.zero_add, runcmdStores_inside]
    constructor
    · exact fun ⟨_, short, _, fits⟩ => ⟨short, fits⟩
    · exact fun ⟨short, fits⟩ => ⟨le_of_lt short, short, short, fits⟩

theorem substituteStores_inside (cmdIn : Text) (short : cmdIn.length < 2048) (pIn : Text) (n : Nat) (world : σ) (room : n < 2048) :
    Inside (substituteStores host runners cmdIn pIn n world) ↔ RegionsFit host runners pIn n world := by
  fun_induction substituteStores host runners cmdIn pIn n world with
  | case1 n world =>
    rw [RegionsFit, inside_cons]
    exact iff_of_true ⟨room, inside_nil⟩ trivial
  | case2 n world rest none =>
    rw [RegionsFit, if_pos rfl, none, strcpyStores_inside, Nat.zero_add]
    exact iff_of_true short trivial
  | case3 n world rest endTick found cmdStatus output world' ran ih =>
    rw [RegionsFit, if_pos rfl, found, inside_append, regionStores_inside]
    simp only [ran]
    refine and_congr_right fun _ => ?_
    split
    · exact iff_of_true inside_nil fun fine => absurd fine (by omega)
    · split
      · exact iff_of_true inside_nil fun _ less => absurd less (by omega)
      · rename_i fine room'
        have fits : n + output.length < 2048 := by omega
        rw [inside_append, strcpyStores_inside, ih fits]
        constructor
        · exact fun both _ _ => both.2
        · exact fun later => ⟨fits, later (by omega) (by omega)⟩
  | case4 n world c rest other full =>
    rw [RegionsFit, if_neg other]
    exact iff_of_true inside_nil fun less => absurd less (by omega)
  | case5 n world c rest other free ih =>
    rw [RegionsFit, if_neg other, inside_cons, ih (by omega)]
    constructor
    · exact fun both _ => both.2
    · exact fun later => ⟨room, later (by omega)⟩

theorem executeStores_inside (finalCmd : Text) (world : σ) :
    Inside (executeStores runners finalCmd world) ↔ ExecuteFits runners finalCmd world := by
  unfold executeStores ExecuteFits isCopied
  dsimp only
  split
  · rename_i reserved
    refine iff_of_true inside_nil fun copied => ?_
    rcases reserved with eq | eq <;> rw [eq] at copied <;> exact absurd copied (by decide)
  · rename_i other
    obtain ⟨notExit, notHistory⟩ := not_or.mp other
    have copied : (peekFirstWord finalCmd 128 != "exit".toList && peekFirstWord finalCmd 128 != "history".toList) = true :=
      Bool.and_eq_true_iff.mpr ⟨bne_iff_ne.mpr notExit, bne_iff_ne.mpr notHistory⟩
    rw [forall_prop_of_true copied]
    cases runners.command finalCmd world with
    | none => exact iff_of_true inside_nil fun _ no => by cases no
    | some sys =>
      simp only [Option.some.injEq, forall_eq']
      exact runcmdStores_inside sys finalCmd

theorem runSubStores_inside (subCmd : Text) (short : subCmd.length < 2048) (world : σ) :
    Inside (runSubStores host runners subCmd world) ↔ RunSubFits host runners subCmd world := by
  unfold runSubStores RunSubFits
  dsimp only
  rw [inside_append, substituteStores_inside host runners subCmd short subCmd 0 world (by decide)]
  refine and_congr_right fun _ => ?_
  split
  · exact iff_of_true inside_nil fun fine => absurd fine (by omega)
  · rename_i fine
    rw [executeStores_inside, forall_prop_of_true (Int.not_lt.mp fine)]

theorem lineFits_eq {line body : Text} {run : Bool} {s : Chain σ} (trim : line.dropWhile isSpace = body) (nonempty : body ≠ []) :
    LineFits host runners line run s ↔
      match separator body with
      | none => run = true → RunSubFits host runners body s.world
      | some (off, len) => (run = true → RunSubFits host runners (body.take off) s.world) ∧
          ∀ s', (if run then host.runSub (body.take off) s else some s) = some s' →
            LineFits host runners (body.drop (off + len)) (shouldRun body (off, len) s'.lastStatus) s' := by
  rw [LineFits]
  split
  · rename_i empty
    exact absurd (trim.symm.trans empty) nonempty
  · rename_i c rest eq
    obtain rfl := trim.symm.trans eq
    split
    · rename_i last
      rw [last]
    · rename_i off len found
      rw [found]

theorem lineFits_blank {line : Text} {run : Bool} {s : Chain σ} (trim : line.dropWhile isSpace = []) :
    LineFits host runners line run s := by
  rw [LineFits]
  split
  · trivial
  · rename_i eq
    cases trim.symm.trans eq

theorem chainStores_inside (line : Text) (short : line.length < 2048) (run : Bool) (s : Chain σ) :
    Inside (chainStores host runners line run s) ↔ LineFits host runners line run s := by
  have trim {line body : Text} (same : line.dropWhile isSpace = body) : body.length ≤ line.length :=
    same ▸ (List.dropWhile_suffix (l := line) isSpace).length_le
  have sub {text : Text} (fits : text.length < 2048) (run : Bool) (world : σ) :
      Inside (if run then runSubStores host runners text world else []) ↔ (run = true → RunSubFits host runners text world) := by
    cases run with
    | true =>
      rw [if_pos rfl, runSubStores_inside host runners text fits world]
      exact ⟨fun sub _ => sub, fun sub => sub rfl⟩
    | false => exact iff_of_true inside_nil fun skipped => by cases skipped
  fun_induction chainStores host runners line run s with
  | case1 line run s trimmed => exact iff_of_true inside_nil (lineFits_blank host runners trimmed)
  | case2 line run s c rest trimmed none =>
    have fits : (c :: rest).length < 2048 := lt_of_le_of_lt (trim trimmed) short
    rw [lineFits_eq host runners trimmed (List.cons_ne_nil c rest), none, inside_append, strcpyStores_inside, Nat.zero_add, sub fits]
    exact and_iff_right fits
  | case3 line run s c rest trimmed off len found ih =>
    have fits : (c :: rest).length < 2048 := lt_of_le_of_lt (trim trimmed) short
    have inside := separator_inside found
    have cut : ((c :: rest).take off).length < 2048 := lt_of_le_of_lt (List.length_take_le' _ _) fits
    have place : off < 2048 := by omega
    rw [lineFits_eq host runners trimmed (List.cons_ne_nil c rest), found, inside_append, inside_cons, inside_append,
      strncpyStores_inside, sub cut]
    refine (and_iff_right (le_of_lt place)).trans ((and_iff_right place).trans (and_congr_right fun _ => ?_))
    split
    · rename_i ends
      exact iff_of_true inside_nil fun s' goes => by cases ends.symm.trans goes
    · rename_i s' goes
      have later : ((c :: rest).drop (off + len)).length < 2048 := by
        rw [List.length_drop]
        omega
      refine (ih s' later).trans ?_
      constructor
      · intro fit s'' goes'
        cases goes.symm.trans goes'
        exact fit
      · exact fun fit => fit s' goes

/-- Every store for a line stays inside its array if and only if the line fits when it is expanded and the texts fit that are
    substituted or run. -/
theorem stores_inside_iff (world : σ) (text : Text) :
    Inside (lineStores host runners world text) ↔
      (expand host world (clean text)).length < 2048 ∧
        LineFits host runners (expand host world (clean text)) true ⟨world, 0, []⟩ := by
  have expanded := expandStores_inside host world 0 (clean text)
  rw [Nat.zero_add] at expanded
  unfold lineStores
  rw [inside_append, expanded]
  exact and_congr_right fun short => chainStores_inside host runners _ short true ⟨world, 0, []⟩

end Loop

/-- The line `$a$a...` with `n` variables. -/
def dollars (n : Nat) : Text := (List.replicate n ['$', 'a']).flatten

theorem dollars_succ (n : Nat) : dollars (n + 1) = '$' :: 'a' :: dollars n := by
  rw [dollars, List.replicate_succ, List.flatten_cons]
  rfl

theorem expand_dollars {σ : Type} (host : Host σ) (world : σ) (n : Nat) :
    (expand host world (dollars n)).length = n * (host.getVarValue ['a'] world).length := by
  induction n with
  | zero =>
    rw [dollars, List.replicate_zero, List.flatten_nil, expand]
    simp
  | succ n ih =>
    have named : (dollars n).takeWhile inName = [] ∧ (dollars n).dropWhile inName = dollars n := by
      cases n with
      | zero => exact ⟨rfl, rfl⟩
      | succ n => exact ⟨rfl, rfl⟩
    have isName : inName 'a' = true := by decide
    rw [dollars_succ, expand, if_pos rfl, List.takeWhile_cons_of_pos isName, List.dropWhile_cons_of_pos isName, named.1, named.2,
      List.length_append, ih]
    rw [show ['a'].take maxVarNameLen = ['a'] from rfl, Nat.succ_mul, Nat.add_comm]

theorem length_dollars (n : Nat) : (dollars n).length = n * 2 := by
  induction n with
  | zero => rfl
  | succ n ih =>
    rw [dollars_succ, List.length_cons, List.length_cons, ih]
    omega

theorem clean_dollars (n : Nat) : clean (dollars (n + 1)) = dollars (n + 1) := by
  have plain : '#' ∉ dollars (n + 1) := by simp [dollars]
  have ends : dollars (n + 1) = (dollars n ++ ['$']) ++ ['a'] := by
    rw [dollars, List.replicate_succ', List.flatten_append, dollars]
    simp
  rw [clean_plain plain, ends]
  exact List.rdropWhile_concat_neg isSpace _ 'a' (by decide)

/-- A line of 1022 bytes is expanded to 8176. -/
theorem stores_overflow : ¬ ∀ (host : Host Unit) (runners : Runners Unit) (text : Text), text.length ≤ 1023 →
    (∀ name, (host.getVarValue name ()).length ≤ 16) →
      Inside (lineStores host runners () text) := by
  intro claimed
  let host : Host Unit := { failing with getVarValue := fun _ _ => List.replicate 16 'v' }
  let runners : Runners Unit := ⟨fun _ _ => none, fun _ _ => none⟩
  have size : (dollars 511).length ≤ 1023 := by rw [length_dollars]; decide
  have inside := claimed host runners (dollars 511) size fun _ => le_of_eq List.length_replicate
  have short := (expandStores_inside host () 0 (clean (dollars 511))).mp (inside_append.mp inside).1
  rw [Nat.zero_add, clean_dollars, expand_dollars, show (host.getVarValue ['a'] ()).length = 16 from List.length_replicate] at short
  exact absurd short (by decide)

end Mos.Sh
