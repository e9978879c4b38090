import Mos.Sh.Text
import Mathlib.Data.List.TakeWhile

namespace Mos.Sh

/-- What the shell calls and does not decide itself; `σ` is the rest of the system. -/
structure Host (σ : Type) where
  getVarValue : Text → σ → Text
  runAndCaptureOutput : Text → Nat → σ → (Int × Text) × σ
  /-- What comes of `handle_backticks` where a text does not fit in `sub_cmd`. -/
  overrun : (cmdIn pIn out : Text) → σ → (Int × Text) × σ
  runHistoryCmd : σ → σ
  /-- A builtin, run in the shell's own process. -/
  runcmd : Text → σ → Int × σ
  /-- The child runs `runcmd` on the text and ends. -/
  fork : Text → σ → Int × σ
  wait : Int → σ → Int × σ
  historySave : List Text → σ → σ

/-- The system, `last_status` and the commands that were run, each with its status. -/
structure Chain (σ : Type) where
  world : σ
  lastStatus : Int
  ran : List (Text × Int)

variable {σ : Type}

namespace Host

variable (host : Host σ)

/-- The loop of `handle_backticks`, with the part of `cmd_out` that is written. -/
def substitute (cmdIn pIn out : Text) (outSize : Nat) (captured : Int) (world : σ) : (Int × Text) × σ :=
  match pIn with
  | [] => ((captured, out), world)
  | c :: rest =>
    if c = '`' then
      match strchr rest '`' with
      | none => ((-1, cmdIn), world)
      | some endTick =>
        -- `strncpy` of `endTick` bytes to `sub_cmd` and the null behind them
        if subCmdSize ≤ endTick then host.overrun cmdIn pIn out world
        else
          let ((cmdStatus, output), world) := host.runAndCaptureOutput (rest.take endTick) 1024 world
          if cmdStatus < 0 then ((-1, out), world)
          else if outSize - 1 ≤ out.length + output.length then ((-1, out), world)
          else
            let captured := if cmdStatus ≠ 0 then cmdStatus else captured
            substitute cmdIn (rest.drop (endTick + 1)) (out ++ output) outSize captured world
    else if outSize - 1 ≤ out.length then ((-1, out), world)
    else substitute cmdIn rest (out ++ [c]) outSize captured world
termination_by pIn.length
decreasing_by
  · simp only [List.length_drop, List.length_cons]
    omega
  · simp

def handleBackticks (cmdIn : Text) (outSize : Nat) (world : σ) : (Int × Text) × σ :=
  host.substitute cmdIn cmdIn [] outSize 0 world

/-- How one command is run; `none` where the shell itself ends, in `exit` or because `fork` fails. -/
def execute (finalCmd : Text) (world : σ) : Option (Int × σ) :=
  let firstWord := peekFirstWord finalCmd 128
  if firstWord = "exit".toList then none
  else if firstWord = "history".toList then some (0, host.runHistoryCmd world)
  else if isBuiltin firstWord then
    let (retCode, world) := host.runcmd finalCmd world
    if retCode < 0 then some (1, world)
    else if 0 < retCode then some (host.wait retCode world)
    else some (0, world)
  else
    let (r, world) := host.fork finalCmd world
    if r < 0 then none else some (host.wait r world)

end Host

/-- `execute` with its status kept and the command noted down. -/
def Chain.run (execute : Text → σ → Option (Int × σ)) (text : Text) (s : Chain σ) : Option (Chain σ) :=
  (execute text s.world).map fun (status, world) => ⟨world, status, s.ran ++ [(text, status)]⟩

namespace Host

variable (host : Host σ)

/-- The body of `if (should_run)`. -/
def runSub (subCmd : Text) (s : Chain σ) : Option (Chain σ) :=
  let ((status, finalCmd), world) := host.handleBackticks subCmd 2048 s.world
  if status < 0 then some { s with world := world, lastStatus := 1 }
  else Chain.run host.execute finalCmd { s with world := world, lastStatus := if status ≠ 0 then status else s.lastStatus }

end Host

/-- `if (next && (!separator || next < separator)) separator = next`. -/
def earlier (next found : Option Nat) : Option Nat :=
  match next, found with
  | some n, none => some n
  | some n, some f => if n < f then some n else some f
  | none, found => found

def separator (line : Text) : Option (Nat × Nat) :=
  let nextAnd := myStrstr line "&&".toList
  let nextOr := myStrstr line "||".toList
  let nextSemi := strchr line ';'
  let found := earlier nextSemi (earlier nextOr (earlier nextAnd none))
  found.map fun off => (off, if some off = nextSemi then 1 else 2)

/-- The test behind a command that decides whether the next one runs. -/
def shouldRun (s : Text) (sep : Nat × Nat) (lastStatus : Int) : Bool :=
  if sep.2 = 2 ∧ s[sep.1]? = some '&' then lastStatus == 0
  else if sep.2 = 2 ∧ s[sep.1]? = some '|' then lastStatus != 0
  else true

theorem separator_pos {line : Text} {off len : Nat} (found : separator line = some (off, len)) : 0 < off + len := by
  obtain ⟨at', -, eq⟩ := Option.map_eq_some_iff.mp found
  obtain ⟨rfl, rfl⟩ := Prod.mk.inj eq
  split <;> omega

/-- The loop of `main` over one expanded line. -/
def chainLoop (host : Host σ) (line : Text) (run : Bool) (s : Chain σ) : Option (Chain σ) :=
  match _trimmed : line.dropWhile isSpace with
  | [] => some s
  | c :: rest =>
    match _found : separator (c :: rest) with
    | none => if run then host.runSub (c :: rest) s else some s
    | some (off, len) =>
      match if run then host.runSub ((c :: rest).take off) s else some s with
      | none => none
      | some s' =>
        let run := shouldRun (c :: rest) (off, len) s'.lastStatus
        chainLoop host ((c :: rest).drop (off + len)) run s'
termination_by line.length
decreasing_by
  have shorter := (List.dropWhile_suffix (l := line) isSpace).length_le
  have positive := separator_pos _found
  rw [_trimmed] at shorter
  simp only [List.length_cons, List.length_drop] at shorter ⊢
  omega

inductive Connective where
  | and
  | or
  | semi

namespace Connective

def text : Connective → Text
  | .and => "&&".toList
  | .or => "||".toList
  | .semi => ";".toList

/-- Whether the command behind the connective runs after the status. -/
def runs : Connective → Int → Bool
  | .and, status => status == 0
  | .or, status => status != 0
  | .semi, _ => true

end Connective

def leftToRight (execute : Text → σ → Option (Int × σ)) (s : Chain σ) : List (Connective × Text) → Option (Chain σ)
  | [] => some s
  | (connective, text) :: rest =>
    (if connective.runs s.lastStatus then s.run execute text else some s).bind fun s => leftToRight execute s rest

structure Simple where
  text : Text
  nonblank : ∃ c ∈ text, isSpace c = false
  noAnd : '&' ∉ text
  noSemi : ';' ∉ text
  noTick : '`' ∉ text
  noOr : ¬ "||".toList <:+: text
  opens : text.head? ≠ some '|'
  closes : text.getLast? ≠ some '|'
  stays : peekFirstWord text 128 ≠ "exit".toList

def Simple.trimmed (command : Simple) : Text := command.text.dropWhile isSpace

def joined (first : Simple) (rest : List (Connective × Simple)) : Text :=
  first.text ++ rest.flatMap fun (connective, command) => connective.text ++ command.text

section Search

variable {c : Text} (tail : Text)

theorem no_head {x : Char} (needle : Text) (absent : x ∉ c) (first rest : Text) (part : c = first ++ rest)
    (more : rest ≠ []) : ¬ x :: needle <+: rest ++ tail := by
  rintro ⟨after, eq⟩
  cases rest with
  | nil => exact more rfl
  | cons y rest =>
    have same : x = y := (List.cons.inj eq).1
    exact absent (by simp [part, ← same])

theorem no_or (noOr : ¬ "||".toList <:+: c) (closes : c.getLast? ≠ some '|') (first rest : Text) (part : c = first ++ rest)
    (more : rest ≠ []) : ¬ "||".toList <+: rest ++ tail := by
  rintro ⟨after, eq⟩
  match rest with
  | [] => exact more rfl
  | [x] =>
    have same : '|' = x := (List.cons.inj eq).1
    exact closes (by simp [part, ← same])
  | x :: y :: rest =>
    have same : '|' = x := (List.cons.inj eq).1
    have next : '|' = y := (List.cons.inj (List.cons.inj eq).2).1
    apply noOr
    rw [part, ← same, ← next]
    exact ⟨first, rest, by simp⟩

/-- The text of a command, perhaps without some of its first characters. -/
structure Unbroken (c : Text) : Prop where
  noAnd : '&' ∉ c
  noSemi : ';' ∉ c
  noTick : '`' ∉ c
  noOr : ¬ "||".toList <:+: c
  closes : c.getLast? ≠ some '|'

/-- A search that ends, if at all, behind `off`. -/
def Beyond (off : Nat) (next : Option Nat) : Prop := ∀ n, next = some n → off < n

theorem earlier_beyond {off : Nat} {next found : Option Nat} (ofNext : Beyond off next) (ofFound : Beyond off found) :
    Beyond off (earlier next found) := by
  intro n eq
  cases next with
  | none => exact ofFound n eq
  | some next =>
    cases found with
    | none => exact ofNext n eq
    | some found =>
      simp only [earlier] at eq
      split at eq
      · exact ofNext n eq
      · exact ofFound n eq

theorem earlier_here {off : Nat} {found : Option Nat} (ofFound : Beyond off found) : earlier (some off) found = some off := by
  cases found with
  | none => rfl
  | some found =>
    have less := ofFound found rfl
    simp [earlier, less]

theorem earlier_kept {off : Nat} {next : Option Nat} (ofNext : Beyond off next) : earlier next (some off) = some off := by
  cases next with
  | none => rfl
  | some next =>
    have less := ofNext next rfl
    simp [earlier, Nat.lt_asymm less]

theorem search_beyond {needle after tail : Text} (nonempty : needle ≠ [])
    (absent : ∀ first rest, c = first ++ rest → rest ≠ [] → ¬ needle <+: rest ++ after)
    (here : needle.isPrefixOf after = false) (x : Char) (more : after = x :: tail) :
    Beyond c.length (myStrstr (c ++ after) needle) := by
  subst more
  intro n eq
  rw [myStrstr_skip nonempty absent, myStrstr, if_neg nonempty] at eq
  simp only [here, Bool.false_eq_true, if_false, Option.map_map, Option.map_eq_some_iff, Function.comp_apply] at eq
  obtain ⟨k, -, rfl⟩ := eq
  omega

theorem search_here {needle tail : Text} (nonempty : needle ≠ [])
    (absent : ∀ first rest, c = first ++ rest → rest ≠ [] → ¬ needle <+: rest ++ (needle ++ tail)) :
    myStrstr (c ++ (needle ++ tail)) needle = some c.length := by
  rw [myStrstr_skip nonempty absent, myStrstr_here tail nonempty, Option.map_some, Nat.zero_add]

theorem separator_connective (unbroken : Unbroken c) (connective : Connective) :
    separator (c ++ (connective.text ++ tail)) = some (c.length, connective.text.length) := by
  have noAnd := no_head (connective.text ++ tail) ['&'] unbroken.noAnd
  have noOr := no_or (connective.text ++ tail) unbroken.noOr unbroken.closes
  have noSemi := no_head (connective.text ++ tail) [] unbroken.noSemi
  simp only [separator, strchr_eq_myStrstr]
  cases connective with
  | and =>
    have beyondOr := search_beyond (by decide) noOr rfl '&' rfl
    have beyondSemi := search_beyond (by decide) noSemi rfl '&' rfl
    have here := search_here (by decide) noAnd
    have found : earlier (myStrstr (c ++ (Connective.and.text ++ tail)) "&&".toList) none = some c.length :=
      congrArg (earlier · none) here
    rw [found, earlier_kept beyondOr, earlier_kept beyondSemi]
    have other : ¬ some c.length = myStrstr (c ++ (Connective.and.text ++ tail)) [';'] :=
      fun eq => Nat.lt_irrefl _ (beyondSemi _ eq.symm)
    rw [Option.map_some, if_neg other]
    rfl
  | or =>
    have beyondAnd := search_beyond (by decide) noAnd rfl '|' rfl
    have beyondSemi := search_beyond (by decide) noSemi rfl '|' rfl
    have here : myStrstr (c ++ (Connective.or.text ++ tail)) "||".toList = some c.length := search_here (by decide) noOr
    have beyond : Beyond c.length (earlier (myStrstr (c ++ (Connective.or.text ++ tail)) "&&".toList) none) :=
      earlier_beyond beyondAnd fun _ eq => nomatch eq
    rw [here, earlier_here beyond, earlier_kept beyondSemi]
    have other : ¬ some c.length = myStrstr (c ++ (Connective.or.text ++ tail)) [';'] :=
      fun eq => Nat.lt_irrefl _ (beyondSemi _ eq.symm)
    rw [Option.map_some, if_neg other]
    rfl
  | semi =>
    have beyondAnd := search_beyond (by decide) noAnd rfl ';' rfl
    have beyondOr := search_beyond (by decide) noOr rfl ';' rfl
    have here : myStrstr (c ++ (Connective.semi.text ++ tail)) [';'] = some c.length := search_here (by decide) noSemi
    have beyond : Beyond c.length (earlier (myStrstr (c ++ (Connective.semi.text ++ tail)) "||".toList)
        (earlier (myStrstr (c ++ (Connective.semi.text ++ tail)) "&&".toList) none)) :=
      earlier_beyond beyondOr (earlier_beyond beyondAnd fun _ eq => nomatch eq)
    rw [here, earlier_here beyond, Option.map_some, if_pos rfl]
    rfl

theorem separator_last (unbroken : Unbroken c) : separator c = none := by
  have noAnd : ¬ "&&".toList <:+: c := fun ⟨first, rest, eq⟩ => unbroken.noAnd (by simp [← eq])
  have searchSemi := strchr_none unbroken.noSemi
  rw [separator, searchSemi, myStrstr_none noAnd, myStrstr_none unbroken.noOr]
  rfl

theorem shouldRun_connective (connective : Connective) (status : Int) :
    shouldRun (c ++ (connective.text ++ tail)) (c.length, connective.text.length) status = connective.runs status := by
  cases connective <;> simp [shouldRun, Connective.text, Connective.runs]

end Search

namespace Simple

variable (command : Simple)

theorem trimmed_suffix : command.trimmed <:+ command.text := List.dropWhile_suffix isSpace

theorem trimmed_length : command.trimmed.length ≤ command.text.length := command.trimmed_suffix.length_le

theorem trimmed_ne_nil : command.trimmed ≠ [] := by
  obtain ⟨c, mem, visible⟩ := command.nonblank
  intro eq
  have blank := List.dropWhile_eq_nil_iff.mp eq c mem
  rw [visible] at blank
  cases blank

theorem trimmed_unbroken : Unbroken command.trimmed where
  noAnd mem := command.noAnd (command.trimmed_suffix.subset mem)
  noSemi mem := command.noSemi (command.trimmed_suffix.subset mem)
  noTick mem := command.noTick (command.trimmed_suffix.subset mem)
  noOr found := command.noOr (found.trans command.trimmed_suffix.isInfix)
  closes last := by
    obtain ⟨blanks, eq⟩ := command.trimmed_suffix
    apply command.closes
    rw [← eq, List.getLast?_append, last]
    rfl

theorem dropWhile_text (tail : Text) : (command.text ++ tail).dropWhile isSpace = command.trimmed ++ tail := by
  rw [List.dropWhile_append, if_neg]
  · rfl
  · rw [List.isEmpty_iff]
    exact command.trimmed_ne_nil

end Simple

namespace Host

variable (host : Host σ)

theorem substitute_plain {cmdIn pIn out : Text} {outSize : Nat} {captured : Int} {world : σ} (noTick : '`' ∉ pIn)
    (fits : out.length + pIn.length ≤ outSize - 1) :
    host.substitute cmdIn pIn out outSize captured world = ((captured, out ++ pIn), world) := by
  induction pIn generalizing out with
  | nil => rw [substitute, List.append_nil]
  | cons c rest ih =>
    have other : ¬ c = '`' := fun eq => noTick (by simp [eq])
    rw [List.length_cons] at fits
    have room : ¬ outSize - 1 ≤ out.length := by omega
    have later : (out ++ [c]).length + rest.length ≤ outSize - 1 := by
      rw [List.length_append, List.length_singleton]
      omega
    rw [substitute, if_neg other, if_neg room, ih (fun mem => noTick (List.mem_cons_of_mem c mem)) later]
    rw [List.append_assoc, List.singleton_append]

theorem runSub_plain {subCmd : Text} (s : Chain σ) (noTick : '`' ∉ subCmd) (fits : subCmd.length < 2048) :
    host.runSub subCmd s = s.run host.execute subCmd := by
  have copied : host.handleBackticks subCmd 2048 s.world = ((0, subCmd), s.world) := by
    apply host.substitute_plain noTick
    simp only [List.length_nil]
    omega
  rw [runSub, copied]
  rfl

end Host

theorem chainLoop_eq (host : Host σ) {line body : Text} (run : Bool) (s : Chain σ) (trim : line.dropWhile isSpace = body)
    (nonempty : body ≠ []) :
    chainLoop host line run s =
      match separator body with
      | none => if run then host.runSub body s else some s
      | some (off, len) => (if run then host.runSub (body.take off) s else some s).bind fun s' =>
          chainLoop host (body.drop (off + len)) (shouldRun body (off, len) s'.lastStatus) s' := by
  rw [chainLoop]
  split
  · rename_i empty
    exact absurd (trim.symm.trans empty) nonempty
  · rename_i c rest eq
    obtain rfl := trim.symm.trans eq
    split
    · rename_i last
      rw [last]
    · rename_i off len found
      rw [found]
      dsimp only
      cases if run then host.runSub ((c :: rest).take off) s else some s <;> rfl

theorem chainLoop_blank (host : Host σ) {line : Text} (run : Bool) (s : Chain σ) (trim : line.dropWhile isSpace = []) :
    chainLoop host line run s = some s := by
  rw [chainLoop]
  split
  · rfl
  · rename_i eq
    cases trim.symm.trans eq

theorem text_le_joined (first : Simple) (rest : List (Connective × Simple)) :
    first.text.length ≤ (joined first rest).length := by
  rw [joined, List.length_append]
  exact Nat.le_add_right _ _

theorem runSub_trimmed (host : Host σ) (command : Simple) (s : Chain σ) (fits : command.text.length < 2048) :
    host.runSub command.trimmed s = s.run host.execute command.trimmed :=
  host.runSub_plain s command.trimmed_unbroken.noTick (Nat.lt_of_le_of_lt command.trimmed_length fits)

theorem chainLoop_joined (host : Host σ) (first : Simple) (rest : List (Connective × Simple)) (run : Bool) (s : Chain σ)
    (fits : (joined first rest).length < 2048) :
    chainLoop host (joined first rest) run s =
      (if run then s.run host.execute first.trimmed else some s).bind fun s =>
        leftToRight host.execute s (rest.map fun (connective, command) => (connective, command.trimmed)) := by
  have runs := runSub_trimmed host first s (Nat.lt_of_le_of_lt (text_le_joined first rest) fits)
  induction rest generalizing first run s with
  | nil =>
    have trim : (joined first []).dropWhile isSpace = first.trimmed := by
      rw [joined, List.flatMap_nil, first.dropWhile_text, List.append_nil]
    rw [chainLoop_eq host run s trim first.trimmed_ne_nil, separator_last first.trimmed_unbroken, runs]
    simp [leftToRight]
  | cons link rest ih =>
    obtain ⟨connective, command⟩ := link
    have line : joined first ((connective, command) :: rest) = first.text ++ (connective.text ++ joined command rest) := by
      simp [joined]
    have trim := first.dropWhile_text (connective.text ++ joined command rest)
    have more : first.trimmed ++ (connective.text ++ joined command rest) ≠ [] := by simp [first.trimmed_ne_nil]
    rw [line] at fits ⊢
    rw [chainLoop_eq host run s trim more, separator_connective _ first.trimmed_unbroken]
    dsimp only
    rw [List.take_left, runs, List.map_cons]
    congr 1
    funext s'
    rw [shouldRun_connective, leftToRight, ← List.drop_drop, List.drop_left, List.drop_left]
    simp only [List.length_append] at fits
    have later : (joined command rest).length < 2048 := by omega
    exact ih command _ s' later (runSub_trimmed host command s' (Nat.lt_of_le_of_lt (text_le_joined command rest) later))

/-- The status that the chain ends with is the one of the command run last. -/
def Settled (s : Chain σ) : Prop := s.ran.getLast?.map Prod.snd = some s.lastStatus

theorem run_settled {execute : Text → σ → Option (Int × σ)} {text : Text} {s t : Chain σ} (ran : s.run execute text = some t) :
    Settled t := by
  obtain ⟨⟨status, world⟩, -, rfl⟩ := Option.map_eq_some_iff.mp ran
  simp [Settled]

theorem leftToRight_settled {execute : Text → σ → Option (Int × σ)} {commands : List (Connective × Text)} {s t : Chain σ}
    (settled : Settled s) (ran : leftToRight execute s commands = some t) : Settled t := by
  induction commands generalizing s with
  | nil =>
    cases ran
    exact settled
  | cons link commands ih =>
    obtain ⟨connective, text⟩ := link
    obtain ⟨mid, first, later⟩ := Option.bind_eq_some_iff.mp ran
    apply ih _ later
    split at first
    · exact run_settled first
    · cases first
      exact settled

/-- The evaluation of a chain whose commands are given by the texts that they are run with. -/
def evaluate (execute : Text → σ → Option (Int × σ)) (first : Text) (rest : List (Connective × Text)) (world : σ) :
    Option (Chain σ) :=
  (Chain.run execute first ⟨world, 0, []⟩).bind fun s => leftToRight execute s rest

/-- A line that fits `expanded_buf` runs the commands of left-to-right evaluation, each without its leading blanks. -/
theorem chainLoop_leftToRight (host : Host σ) (first : Simple) (rest : List (Connective × Simple)) (world : σ)
    (fits : (joined first rest).length < 2048) :
    chainLoop host (joined first rest) true ⟨world, 0, []⟩ =
        evaluate host.execute first.trimmed (rest.map fun (connective, command) => (connective, command.trimmed)) world ∧
      ∀ s, chainLoop host (joined first rest) true ⟨world, 0, []⟩ = some s → Settled s := by
  have whole := chainLoop_joined host first rest true ⟨world, 0, []⟩ fits
  rw [if_pos rfl] at whole
  refine ⟨whole, fun s ended => ?_⟩
  rw [whole] at ended
  obtain ⟨mid, ran, later⟩ := Option.bind_eq_some_iff.mp ended
  exact leftToRight_settled (run_settled ran) later

/-- Every child ends with status 1. -/
def failing : Host Unit where
  getVarValue _ _ := []
  runAndCaptureOutput _ _ _ := ((0, []), ())
  overrun _ _ _ _ := ((0, []), ())
  runHistoryCmd _ := ()
  runcmd _ _ := (0, ())
  fork _ _ := (1, ())
  wait _ _ := (1, ())
  historySave _ _ := ()

def commandA : Simple :=
  ⟨"a".toList, ⟨'a', by decide, rfl⟩, by decide, by decide, by decide, by decide, by decide, by decide, by decide⟩

def commandB : Simple :=
  ⟨" b".toList, ⟨'b', by decide, rfl⟩, by decide, by decide, by decide, by decide, by decide, by decide, by decide⟩

theorem chainLoop_leftToRight_failing :
    (joined commandA [(.or, commandB)]).length < 2048 ∧
      chainLoop failing (joined commandA [(.or, commandB)]) true ⟨(), 0, []⟩ =
        evaluate failing.execute commandA.trimmed [(.or, commandB.trimmed)] () :=
  ⟨by decide, (chainLoop_leftToRight failing commandA [(.or, commandB)] () (by decide)).1⟩

/-- In `a|| b` the second command is run as `b`, without the blank that stands before it. -/
theorem chainLoop_drops_blanks :
    ¬ ∀ (host : Host Unit) (first : Simple) (rest : List (Connective × Simple)) (world : Unit),
      (joined first rest).length < 2048 → chainLoop host (joined first rest) true ⟨world, 0, []⟩ =
        evaluate host.execute first.text (rest.map fun (connective, command) => (connective, command.text)) world := by
  intro exactly
  have claimed := exactly failing commandA [(.or, commandB)] () (by decide)
  rw [chainLoop_joined failing commandA [(.or, commandB)] true ⟨(), 0, []⟩ (by decide)] at claimed
  have texts := congrArg (Option.map fun s => s.ran.map Prod.fst) claimed
  revert texts
  decide

end Mos.Sh
