import Mos.Sh.Input

namespace Mos.Sh

def regions (s : Text) : List Text :=
  match s with
  | [] => []
  | c :: rest =>
    if c = '`' then
      match strchr rest '`' with
      | none => []
      | some endTick => rest.take endTick :: regions (rest.drop (endTick + 1))
    else regions rest
termination_by s.length
decreasing_by
  · simp only [List.length_drop, List.length_cons]
    omega
  · simp

/-- A text that the loop of `main` does not cut. -/
structure Whole (text : Text) : Prop where
  noAnd : ¬ "&&".toList <:+: text
  noOr : ¬ "||".toList <:+: text
  noSemi : ';' ∉ text

section Regions

/-- How a text begins: with a character outside of all regions, with a backtick that has no partner, or with a region. -/
theorem tick_cases {motive : Text → Prop} (s : Text) (nil : motive [])
    (cons : ∀ c rest, c ≠ '`' → motive rest → motive (c :: rest)) (opened : ∀ rest, '`' ∉ rest → motive ('`' :: rest))
    (pair : ∀ text rest, '`' ∉ text → motive rest → motive ('`' :: (text ++ '`' :: rest))) : motive s := by
  match s with
  | [] => exact nil
  | c :: rest =>
    by_cases tick : c = '`'
    · subst tick
      cases found : strchr rest '`' with
      | none =>
        apply opened
        intro mem
        obtain ⟨before, after, rfl, absent⟩ := List.eq_append_cons_of_mem mem
        rw [strchr_append absent] at found
        cases found
      | some endTick =>
        obtain ⟨before, after, rfl, -, absent⟩ := strchr_split found
        exact pair before after absent (tick_cases after nil cons opened pair)
    · exact cons c rest tick (tick_cases rest nil cons opened pair)
termination_by s.length
decreasing_by
  · subst_vars
    simp only [List.length_append, List.length_cons]
    omega
  · simp

end Regions

section Cut

/-- The result is one of the two, and neither lies before it. -/
theorem earlier_least {next found : Option Nat} :
    (earlier next found = next ∨ earlier next found = found) ∧
      (∀ n, next = some n → ∃ m, earlier next found = some m ∧ m ≤ n) ∧
      ∀ n, found = some n → ∃ m, earlier next found = some m ∧ m ≤ n := by
  cases next with
  | none =>
    refine ⟨Or.inr rfl, ?_, ?_⟩
    · intro n eq
      cases eq
    · intro n eq
      exact ⟨n, eq, Nat.le_refl n⟩
  | some next =>
    cases found with
    | none => simp [earlier]
    | some found =>
      simp only [earlier]
      split <;> simp <;> omega

theorem found_before {s needle : Text} {off : Nat} (nonempty : needle ≠ []) (occurs : needle <:+: s.take off) :
    ∃ n, myStrstr s needle = some n ∧ n < off := by
  obtain ⟨before, after, eq⟩ := occurs
  have inside : before.length < off := by
    have lengths := congrArg List.length eq
    have positive := List.length_pos_iff.mpr nonempty
    simp only [List.length_append, List.length_take] at lengths
    omega
  have here : needle <+: s.drop before.length := by
    rw [← List.take_append_drop off s, ← eq]
    simp only [List.append_assoc, List.drop_left]
    exact List.prefix_append _ _
  obtain ⟨n, found, le⟩ := myStrstr_le nonempty here
  exact ⟨n, found, Nat.lt_of_le_of_lt le inside⟩

theorem mem_iff_within {c : Char} {s : Text} : c ∈ s ↔ [c] <:+: s := by
  constructor
  · intro mem
    obtain ⟨before, after, eq⟩ := List.append_of_mem mem
    exact ⟨before, after, by simp [eq]⟩
  · rintro ⟨before, after, eq⟩
    simp [← eq]

variable {line : Text}

def searches (line : Text) : List (Option Nat) := [myStrstr line "&&".toList, myStrstr line "||".toList, strchr line ';']

theorem separator_least {off : Nat} (early : ∀ m, (separator line).map Prod.fst = some m → off ≤ m) {needle : Text}
    (searched : myStrstr line needle ∈ searches line) (nonempty : needle ≠ []) : ¬ needle <:+: line.take off := by
  intro occurs
  obtain ⟨n, found, less⟩ := found_before nonempty occurs
  obtain ⟨-, -, andLeast⟩ := @earlier_least (myStrstr line "||".toList) (earlier (myStrstr line "&&".toList) none)
  obtain ⟨-, orLeast, andOrLeast⟩ := @earlier_least (myStrstr line "||".toList) (earlier (myStrstr line "&&".toList) none)
  obtain ⟨-, semiLeast, restLeast⟩ := @earlier_least (strchr line ';')
    (earlier (myStrstr line "||".toList) (earlier (myStrstr line "&&".toList) none))
  have result : (separator line).map Prod.fst = earlier (strchr line ';')
      (earlier (myStrstr line "||".toList) (earlier (myStrstr line "&&".toList) none)) := by
    simp [separator, Function.comp_def]
  rw [result] at early
  have firstAnd : earlier (myStrstr line "&&".toList) none = myStrstr line "&&".toList := by
    cases myStrstr line "&&".toList <;> rfl
  rw [found] at searched
  simp only [searches, List.mem_cons, List.not_mem_nil, or_false] at searched
  rcases searched with eq | eq | eq
  · rw [firstAnd] at andOrLeast restLeast early
    obtain ⟨m, eq', le⟩ := andOrLeast n eq.symm
    obtain ⟨m', eq'', le'⟩ := restLeast m eq'
    have := early m' eq''
    omega
  · obtain ⟨m, eq', le⟩ := orLeast n eq.symm
    obtain ⟨m', eq'', le'⟩ := restLeast m eq'
    have := early m' eq''
    omega
  · obtain ⟨m, eq', le⟩ := semiLeast n eq.symm
    have := early m eq'
    omega

theorem whole_take {off : Nat} (early : ∀ m, (separator line).map Prod.fst = some m → off ≤ m) : Whole (line.take off) where
  noAnd := separator_least early (by simp [searches]) (by decide)
  noOr := separator_least early (by simp [searches]) (by decide)
  noSemi mem := by
    have absent := @separator_least _ _ early [';'] (by simp [searches, strchr_eq_myStrstr]) (by decide)
    exact absent (mem_iff_within.mp mem)

theorem separator_cut {off len : Nat} (found : separator line = some (off, len)) :
    ∃ connective : Connective, connective.text.length = len ∧
      line = line.take off ++ (connective.text ++ line.drop (off + len)) ∧ Whole (line.take off) := by
  have whole : Whole (line.take off) := whole_take (by simp [found])
  obtain ⟨at', search, eq⟩ := Option.map_eq_some_iff.mp found
  obtain ⟨rfl, rfl⟩ := Prod.mk.inj eq
  have split {needle : Text} (occurs : needle <+: line.drop at') :
      line = line.take at' ++ (needle ++ line.drop (at' + needle.length)) := by
    obtain ⟨after, eq⟩ := occurs
    have behind : line.drop (at' + needle.length) = after := by rw [← List.drop_drop, ← eq, List.drop_left]
    rw [behind, eq, List.take_append_drop]
  by_cases semi : some at' = strchr line ';'
  · rw [if_pos semi]
    rw [strchr_eq_myStrstr] at semi
    exact ⟨.semi, rfl, split (myStrstr_at semi.symm), whole⟩
  · rw [if_neg semi]
    have or_and : some at' = myStrstr line "||".toList ∨ some at' = myStrstr line "&&".toList := by
      rcases earlier_least.1 with eq | eq
      · exact absurd (search.symm.trans eq) semi
      · rcases earlier_least.1 with eq' | eq'
        · exact Or.inl ((search.symm.trans eq).trans eq')
        · refine Or.inr (((search.symm.trans eq).trans eq').trans ?_)
          cases myStrstr line "&&".toList <;> rfl
    rcases or_and with here | here
    · exact ⟨.or, rfl, split (myStrstr_at here.symm), whole⟩
    · exact ⟨.and, rfl, split (myStrstr_at here.symm), whole⟩

end Cut

theorem separator_inside {line : Text} {off len : Nat} (found : separator line = some (off, len)) :
    off < line.length ∧ off + len ≤ line.length := by
  obtain ⟨connective, rfl, split, -⟩ := separator_cut found
  have positive : 0 < connective.text.length := by cases connective <;> decide
  have lengths := congrArg List.length split
  simp only [List.length_append, List.length_take, List.length_drop] at lengths
  omega

theorem drop_shorter {line body : Text} {off len : Nat} (trim : line.dropWhile isSpace = body)
    (found : separator body = some (off, len)) : (body.drop (off + len)).length < line.length := by
  have suffix := (List.dropWhile_suffix (l := line) isSpace).length_le
  have inside := separator_inside found
  have positive := separator_pos found
  rw [trim] at suffix
  rw [List.length_drop]
  omega

variable {σ : Type}

namespace Host

/-- The host with a log of the texts that are handed to `runAndCaptureOutput`. Nothing is known of what is handed over once the
    shell has stored behind `sub_cmd` or `cmd_copy`; `spoilt` stands for it. -/
def logged (host : Host σ) (spoilt : Text) : Host (σ × List Text) where
  getVarValue name s := host.getVarValue name s.1
  runAndCaptureOutput cmd outputSize s :=
    let (result, world) := host.runAndCaptureOutput cmd outputSize s.1
    (result, world, s.2 ++ [cmd])
  overrun cmdIn pIn out s :=
    let (result, world) := host.overrun cmdIn pIn out s.1
    (result, world, s.2 ++ [spoilt])
  runHistoryCmd s := (host.runHistoryCmd s.1, s.2)
  runcmd cmd s :=
    let (r, world) := host.runcmd cmd s.1
    (r, world, if cmdCopySize ≤ cmd.length then s.2 ++ [spoilt] else s.2)
  fork cmd s :=
    let (r, world) := host.fork cmd s.1
    (r, world, s.2)
  wait child s :=
    let (r, world) := host.wait child s.1
    (r, world, s.2)
  historySave lines s := (host.historySave lines s.1, s.2)

variable (host : Host σ)

/-- The substitution gets to every region of the rest of the command. -/
def Reaches (pIn out : Text) (outSize : Nat) (world : σ) : Prop :=
  match pIn with
  | [] => True
  | c :: rest =>
    if c = '`' then
      match strchr rest '`' with
      | none => True
      | some endTick =>
        let ((cmdStatus, output), world) := host.runAndCaptureOutput (rest.take endTick) 1024 world
        regions (rest.drop (endTick + 1)) = [] ∨
          0 ≤ cmdStatus ∧ out.length + output.length < outSize - 1 ∧
            Reaches (rest.drop (endTick + 1)) (out ++ output) outSize world
    else regions rest = [] ∨ out.length < outSize - 1 ∧ Reaches rest (out ++ [c]) outSize world
termination_by pIn.length
decreasing_by
  · simp only [List.length_drop, List.length_cons]
    omega
  · simp

end Host

/-- A text that `sub_cmd` cannot hold is met, with `n` bytes of `cmd_out` written before the rest of the input. -/
inductive MeetsLong (host : Host σ) (outSize : Nat) : Text → Nat → σ → Prop
  | here {text rest : Text} {n : Nat} {w : σ} (inner : '`' ∉ text) (long : subCmdSize ≤ text.length) :
      MeetsLong host outSize ('`' :: (text ++ '`' :: rest)) n w
  | plain {c : Char} {rest : Text} {n : Nat} {w : σ} (other : c ≠ '`') (room : n < outSize - 1)
      (later : MeetsLong host outSize rest (n + 1) w) : MeetsLong host outSize (c :: rest) n w
  | pair {text rest output : Text} {n : Nat} {w w' : σ} {status : Int} (inner : '`' ∉ text)
      (short : text.length < subCmdSize) (ran : host.runAndCaptureOutput text 1024 w = ((status, output), w'))
      (fine : 0 ≤ status) (room : n + output.length < outSize - 1)
      (later : MeetsLong host outSize rest (n + output.length) w') :
      MeetsLong host outSize ('`' :: (text ++ '`' :: rest)) n w

section Meets

variable {host : Host σ} {outSize n : Nat} {w : σ}

theorem meetsLong_nil : ¬ MeetsLong host outSize [] n w := by
  intro long
  cases long

theorem split_unique {text rest text' rest' : Text} (same : text ++ '`' :: rest = text' ++ '`' :: rest') (inner : '`' ∉ text)
    (inner' : '`' ∉ text') : text = text' ∧ rest = rest' := by
  have place := strchr_append inner rest
  rw [same, strchr_append inner' rest'] at place
  obtain ⟨first, second⟩ := List.append_inj same (Option.some.inj place).symm
  exact ⟨first, (List.cons.inj second).2⟩

theorem meetsLong_plain {c : Char} (other : c ≠ '`') {rest : Text} :
    MeetsLong host outSize (c :: rest) n w ↔ n < outSize - 1 ∧ MeetsLong host outSize rest (n + 1) w := by
  constructor
  · intro long
    generalize whole : c :: rest = p at long
    cases long with
    | here => exact absurd (List.cons.inj whole).1 other
    | plain other' room later =>
      obtain ⟨rfl, rfl⟩ := List.cons.inj whole
      exact ⟨room, later⟩
    | pair => exact absurd (List.cons.inj whole).1 other
  · exact fun ⟨room, later⟩ => .plain other room later

theorem meetsLong_pair {text rest output : Text} {w' : σ} {status : Int} (inner : '`' ∉ text) (short : text.length < subCmdSize)
    (ran : host.runAndCaptureOutput text 1024 w = ((status, output), w')) :
    MeetsLong host outSize ('`' :: (text ++ '`' :: rest)) n w ↔
      0 ≤ status ∧ n + output.length < outSize - 1 ∧ MeetsLong host outSize rest (n + output.length) w' := by
  constructor
  · intro long
    generalize whole : '`' :: (text ++ '`' :: rest) = p at long
    cases long with
    | here inner' long =>
      obtain ⟨rfl, rfl⟩ := split_unique (List.cons.inj whole).2 inner inner'
      omega
    | plain other => exact absurd (List.cons.inj whole).1.symm other
    | pair inner' short' ran' fine room later =>
      obtain ⟨rfl, rfl⟩ := split_unique (List.cons.inj whole).2 inner inner'
      cases ran.symm.trans ran'
      exact ⟨fine, room, later⟩
  · exact fun ⟨fine, room, later⟩ => .pair inner short ran fine room later

end Meets

namespace Host

variable (host : Host σ)

end Host

/-- The log behind a command. Where the shell ends in the command, it is the one behind its substitution. -/
def loggedSub (host : Host σ) (spoilt subCmd : Text) (s : Chain (σ × List Text)) : List Text :=
  match (host.logged spoilt).runSub subCmd s with
  | none => ((host.logged spoilt).handleBackticks subCmd 2048 s.world).2.2
  | some s' => s'.world.2

/-- The texts handed to `runAndCaptureOutput` so far, when the loop or the shell ends. -/
def handed (host : Host σ) (spoilt line : Text) (run : Bool) (s : Chain (σ × List Text)) : List Text :=
  match _trimmed : line.dropWhile isSpace with
  | [] => s.world.2
  | c :: rest =>
    match _found : separator (c :: rest) with
    | none => if run then loggedSub host spoilt (c :: rest) s else s.world.2
    | some (off, len) =>
      match if run then (host.logged spoilt).runSub ((c :: rest).take off) s else some s with
      | none => loggedSub host spoilt ((c :: rest).take off) s
      | some s' =>
        let run := shouldRun (c :: rest) (off, len) s'.lastStatus
        handed host spoilt ((c :: rest).drop (off + len)) run s'
termination_by line.length
decreasing_by
  exact drop_shorter _trimmed _found

/-- Each text between backticks that the substitution comes to fits in `sub_cmd`, and what is substituted fits in `cmd_copy`
    where its first word says that it is copied. -/
def Host.ContainedSub (host : Host σ) (copied : Text → Bool) (subCmd : Text) (world : σ) : Prop :=
  ¬ MeetsLong host 2048 subCmd 0 world ∧
    (0 ≤ (host.handleBackticks subCmd 2048 world).1.1 →
      copied (peekFirstWord (host.handleBackticks subCmd 2048 world).1.2 128) = true →
        (host.handleBackticks subCmd 2048 world).1.2.length < cmdCopySize)

def Contained (host : Host σ) (copied : Text → Bool) (line : Text) (run : Bool) (s : Chain σ) : Prop :=
  match _trimmed : line.dropWhile isSpace with
  | [] => True
  | c :: rest =>
    match _found : separator (c :: rest) with
    | none => run = true → host.ContainedSub copied (c :: rest) s.world
    | some (off, len) =>
      (run = true → host.ContainedSub copied ((c :: rest).take off) s.world) ∧
        ∀ s', (if run then host.runSub ((c :: rest).take off) s else some s) = some s' →
          Contained host copied ((c :: rest).drop (off + len)) (shouldRun (c :: rest) (off, len) s'.lastStatus) s'
termination_by line.length
decreasing_by
  exact drop_shorter _trimmed _found

/-- The chain conditions are true and the substitutions succeed up to the last region of the line. -/
inductive Reached (host : Host σ) : Text → Chain σ → Prop where
  | rest {line : Text} {s : Chain σ} : regions line = [] → Reached host line s
  | last {line : Text} {s : Chain σ} : separator (line.dropWhile isSpace) = none →
      host.Reaches (line.dropWhile isSpace) [] 2048 s.world → Reached host line s
  | tail {line : Text} {s : Chain σ} {off len : Nat} : separator (line.dropWhile isSpace) = some (off, len) →
      host.Reaches ((line.dropWhile isSpace).take off) [] 2048 s.world →
      regions ((line.dropWhile isSpace).drop (off + len)) = [] → Reached host line s
  | next {line : Text} {s s' : Chain σ} {off len : Nat} : separator (line.dropWhile isSpace) = some (off, len) →
      host.Reaches ((line.dropWhile isSpace).take off) [] 2048 s.world →
      host.runSub ((line.dropWhile isSpace).take off) s = some s' →
      shouldRun (line.dropWhile isSpace) (off, len) s'.lastStatus = true →
      Reached host ((line.dropWhile isSpace).drop (off + len)) s' → Reached host line s

section Loop

variable (host : Host σ)

theorem Whole.mono {part text : Text} (inside : part <:+: text) (whole : Whole text) : Whole part where
  noAnd found := whole.noAnd (found.trans inside)
  noOr found := whole.noOr (found.trans inside)
  noSemi mem := whole.noSemi (inside.subset mem)

theorem Whole.connective {text : Text} (whole : Whole text) (connective : Connective) : ¬ connective.text <:+: text := by
  cases connective with
  | and => exact whole.noAnd
  | or => exact whole.noOr
  | semi => exact fun found => whole.noSemi (mem_iff_within.mpr found)

theorem handed_eq (spoilt : Text) {line body : Text} (run : Bool) (s : Chain (σ × List Text))
    (trim : line.dropWhile isSpace = body) (nonempty : body ≠ []) :
    handed host spoilt line run s =
      match separator body with
      | none => if run then loggedSub host spoilt body s else s.world.2
      | some (off, len) =>
        match if run then (host.logged spoilt).runSub (body.take off) s else some s with
        | none => loggedSub host spoilt (body.take off) s
        | some s' => handed host spoilt (body.drop (off + len)) (shouldRun body (off, len) s'.lastStatus) s' := by
  rw [handed]
  split
  · rename_i empty
    exact absurd (trim.symm.trans empty) nonempty
  · rename_i c rest eq
    obtain rfl := trim.symm.trans eq
    split
    · rename_i last
      rw [last]
    · rename_i off len found
      rw [found]

theorem handed_blank (host : Host σ) (spoilt : Text) {line : Text} (run : Bool) (s : Chain (σ × List Text))
    (trim : line.dropWhile isSpace = []) : handed host spoilt line run s = s.world.2 := by
  rw [handed]
  split
  · rfl
  · rename_i eq
    cases trim.symm.trans eq

theorem handed_ended (spoilt : Text) {line : Text} {run : Bool} {s t : Chain (σ × List Text)}
    (ended : chainLoop (host.logged spoilt) line run s = some t) : handed host spoilt line run s = t.world.2 := by
  cases trim : line.dropWhile isSpace with
  | nil =>
    cases (chainLoop_blank _ run s trim).symm.trans ended
    exact handed_blank host spoilt run s trim
  | cons c rest =>
    rw [chainLoop_eq _ run s trim (List.cons_ne_nil c rest)] at ended
    rw [handed_eq host spoilt run s trim (List.cons_ne_nil c rest)]
    cases found : separator (c :: rest) with
    | none =>
      rw [found] at ended
      dsimp only at ended ⊢
      cases run with
      | false =>
        cases ended
        rfl
      | true =>
        rw [if_pos rfl] at ended
        rw [if_pos rfl, loggedSub, ended]
    | some cut =>
      obtain ⟨off, len⟩ := cut
      have shorter := drop_shorter trim found
      rw [found] at ended
      dsimp only at ended ⊢
      obtain ⟨s', ran, ended⟩ := Option.bind_eq_some_iff.mp ended
      rw [ran]
      exact handed_ended spoilt ended
termination_by line.length
decreasing_by exact shorter

end Loop

section Expand

variable (host : Host σ) (world : σ)

end Expand

end Mos.Sh
