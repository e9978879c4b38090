import Mos.Sh.Regions
import Mos.Sh.ResolvePath

namespace Mos.Sh

open CStr

variable {σ : Type}

/-- A call of `run_and_capture_output`: its command, the status and the output. -/
structure Call where
  text : Text
  status : Int
  output : Text

/-- What `handle_backticks` returns, `cmd_out`, the calls that were made and the system. -/
structure Handled (σ : Type) where
  ret : Int
  cmdOut : Chars
  calls : List Call
  world : σ

/-- The loop of `handle_backticks`: `p_in` is at a rest of the input, `p_out` at a place of `cmd_out`. -/
def backtickLoop (host : Host σ) (cmdIn : Text) (outSize : Nat) (pIn : Text) (pOut : Nat) (s : Handled σ) :
    Except Fault (Handled σ) :=
  match pIn with
  | [] => (store outSize s.cmdOut pOut nul).map fun cmdOut => { s with cmdOut := cmdOut }
  | c :: rest =>
    if c = '`' then
      match strchr rest '`' with
      | none => (copyTo outSize s.cmdOut 0 cmdIn).map fun cmdOut => { s with ret := -1, cmdOut := cmdOut }
      | some endTick =>
        -- `strncpy` of `endTick` bytes to `sub_cmd` and the null behind them
        if subCmdSize ≤ endTick then .error .outside
        else
          let ((status, output), world) := host.runAndCaptureOutput (rest.take endTick) 1024 s.world
          let s := { s with calls := s.calls ++ [Call.mk (rest.take endTick) status output], world := world }
          if status < 0 then .ok { s with ret := -1 }
          else
            let s := { s with ret := if status ≠ 0 then status else s.ret }
            if outSize - 1 ≤ pOut + output.length then .ok { s with ret := -1 }
            else
              (copyTo outSize s.cmdOut pOut output).bind fun cmdOut =>
                backtickLoop host cmdIn outSize (rest.drop (endTick + 1)) (pOut + output.length) { s with cmdOut := cmdOut }
    else if outSize - 1 ≤ pOut then .ok { s with ret := -1 }
    else
      (store outSize s.cmdOut pOut c).bind fun cmdOut =>
        backtickLoop host cmdIn outSize rest (pOut + 1) { s with cmdOut := cmdOut }
termination_by pIn.length
decreasing_by
  · simp only [List.length_drop, List.length_cons]
    omega
  · simp

/-- `handle_backticks` -/
def handleBackticksIn (host : Host σ) (cmdIn : Text) (cmdOut : Chars) (outSize : Nat) (world : σ) : Except Fault (Handled σ) :=
  backtickLoop host cmdIn outSize cmdIn 0 ⟨0, cmdOut, [], world⟩

/-- Each pair of backticks and the text between is replaced by the output of a call with that text. -/
inductive Replaces (host : Host σ) : Text → σ → List Call → Text → Prop
  | nil {w : σ} : Replaces host [] w [] []
  | plain {c : Char} {rest t : Text} {w : σ} {calls : List Call} (other : c ≠ '`') (later : Replaces host rest w calls t) :
      Replaces host (c :: rest) w calls (c :: t)
  | pair {text rest t output : Text} {w w' : σ} {status : Int} {calls : List Call} (inner : '`' ∉ text)
      (ran : host.runAndCaptureOutput text 1024 w = ((status, output), w')) (fine : 0 ≤ status)
      (later : Replaces host rest w' calls t) :
      Replaces host ('`' :: (text ++ '`' :: rest)) w (⟨text, status, output⟩ :: calls) (output ++ t)

/-- A backtick that is not closed, or a negative status, is met. -/
inductive Breaks (host : Host σ) : Text → σ → Prop
  | opened {rest : Text} {w : σ} (alone : '`' ∉ rest) : Breaks host ('`' :: rest) w
  | negative {text rest output : Text} {w w' : σ} {status : Int} (inner : '`' ∉ text)
      (ran : host.runAndCaptureOutput text 1024 w = ((status, output), w')) (failed : status < 0) :
      Breaks host ('`' :: (text ++ '`' :: rest)) w
  | plain {c : Char} {rest : Text} {w : σ} (other : c ≠ '`') (later : Breaks host rest w) : Breaks host (c :: rest) w
  | pair {text rest output : Text} {w w' : σ} {status : Int} (inner : '`' ∉ text)
      (ran : host.runAndCaptureOutput text 1024 w = ((status, output), w')) (fine : 0 ≤ status)
      (later : Breaks host rest w') : Breaks host ('`' :: (text ++ '`' :: rest)) w

def lastStatus (calls : List Call) : Int := calls.foldl (fun last call => if call.status ≠ 0 then call.status else last) 0

/-- What is wanted of `handle_backticks`, which stores nothing outside of its arrays. -/
def Substitutes (host : Host σ) (cmdIn : Text) (cmdOut : Chars) (outSize : Nat) (world : σ) : Prop :=
  ∃ s, handleBackticksIn host cmdIn cmdOut outSize world = .ok s ∧
    (0 ≤ s.ret → ∃ t, Replaces host cmdIn world s.calls t ∧ At nul s.cmdOut 0 t ∧ s.ret = lastStatus s.calls) ∧
    (Breaks host cmdIn world → s.ret = -1) ∧
    ∀ calls t, Replaces host cmdIn world calls t →
      (outSize ≤ t.length → s.ret = -1) ∧ (t.length < outSize - 1 → s.ret ≠ -1)

section Shape

variable {host : Host σ} {text rest text' rest' : Text} {w : σ}

theorem breaks_or_replaces (host : Host σ) (pIn : Text) (w : σ) :
    Breaks host pIn w ∨ ∃ calls t, Replaces host pIn w calls t := by
  induction pIn using tick_cases generalizing w with
  | nil => exact .inr ⟨[], [], .nil⟩
  | cons c rest other ih =>
    rcases ih w with breaks | ⟨calls, t, replaces⟩
    · exact .inl (.plain other breaks)
    · exact .inr ⟨calls, c :: t, .plain other replaces⟩
  | opened rest alone => exact .inl (.opened alone)
  | pair text rest inner ih =>
    obtain ⟨⟨⟨status, output⟩, w'⟩, ran⟩ : ∃ r, host.runAndCaptureOutput text 1024 w = r := ⟨_, rfl⟩
    by_cases failed : status < 0
    · exact .inl (.negative inner ran failed)
    · rcases ih w' with breaks | ⟨calls, t, replaces⟩
      · exact .inl (.pair inner ran (Int.not_lt.mp failed) breaks)
      · exact .inr ⟨_, _, .pair inner ran (Int.not_lt.mp failed) replaces⟩

theorem Replaces.unique {pIn t t' : Text} {calls calls' : List Call} (first : Replaces host pIn w calls t)
    (second : Replaces host pIn w calls' t') : calls = calls' ∧ t = t' := by
  induction first generalizing calls' t' with
  | nil =>
    cases second
    exact ⟨rfl, rfl⟩
  | @plain c rest t w calls other later ih =>
    generalize whole : c :: rest = p at second
    cases second with
    | nil => cases whole
    | plain other' later' =>
      obtain ⟨rfl, rfl⟩ := List.cons.inj whole
      obtain ⟨rfl, rfl⟩ := ih later'
      exact ⟨rfl, rfl⟩
    | pair => exact absurd (List.cons.inj whole).1 other
  | @pair text rest t output w w' status calls inner ran fine later ih =>
    generalize whole : '`' :: (text ++ '`' :: rest) = p at second
    cases second with
    | nil => cases whole
    | plain other' later' => exact absurd (List.cons.inj whole).1.symm other'
    | pair inner' ran' fine' later' =>
      obtain ⟨rfl, rfl⟩ := split_unique (List.cons.inj whole).2 inner inner'
      cases ran.symm.trans ran'
      obtain ⟨rfl, rfl⟩ := ih later'
      exact ⟨rfl, rfl⟩

theorem Replaces.not_breaks {pIn t : Text} {calls : List Call} (replaces : Replaces host pIn w calls t) :
    ¬ Breaks host pIn w := by
  induction replaces with
  | nil =>
    intro breaks
    cases breaks
  | @plain c rest t w calls other later ih =>
    intro breaks
    generalize whole : c :: rest = p at breaks
    cases breaks with
    | opened => exact other (List.cons.inj whole).1
    | negative => exact other (List.cons.inj whole).1
    | plain other' later' =>
      obtain ⟨rfl, rfl⟩ := List.cons.inj whole
      exact ih later'
    | pair => exact other (List.cons.inj whole).1
  | @pair text rest t output w w' status calls inner ran fine later ih =>
    intro breaks
    generalize whole : '`' :: (text ++ '`' :: rest) = p at breaks
    cases breaks with
    | opened alone =>
      refine alone ?_
      rw [← (List.cons.inj whole).2]
      simp
    | negative inner' ran' failed =>
      obtain ⟨rfl, rfl⟩ := split_unique (List.cons.inj whole).2 inner inner'
      cases ran.symm.trans ran'
      exact Int.not_lt.mpr fine failed
    | plain other' => exact other' (List.cons.inj whole).1.symm
    | pair inner' ran' fine' later' =>
      obtain ⟨rfl, rfl⟩ := split_unique (List.cons.inj whole).2 inner inner'
      cases ran.symm.trans ran'
      exact ih later'

end Shape

section Loop

variable {host : Host σ} {cmdIn : Text} {outSize : Nat}

theorem backtickLoop_plain {c : Char} (other : c ≠ '`') (rest : Text) {n : Nat} (s : Handled σ) :
    backtickLoop host cmdIn outSize (c :: rest) n s =
      if outSize - 1 ≤ n then .ok { s with ret := -1 }
      else (store outSize s.cmdOut n c).bind fun cmdOut =>
        backtickLoop host cmdIn outSize rest (n + 1) { s with cmdOut := cmdOut } := by
  rw [backtickLoop, if_neg other]

theorem backtickLoop_pair {text : Text} (inner : '`' ∉ text) (short : text.length < subCmdSize) (rest : Text) {n : Nat}
    (s : Handled σ) {status : Int} {output : Text} {w : σ}
    (ran : host.runAndCaptureOutput text 1024 s.world = ((status, output), w)) :
    backtickLoop host cmdIn outSize ('`' :: (text ++ '`' :: rest)) n s =
      if status < 0 then .ok ⟨-1, s.cmdOut, s.calls ++ [⟨text, status, output⟩], w⟩
      else if outSize - 1 ≤ n + output.length then .ok ⟨-1, s.cmdOut, s.calls ++ [⟨text, status, output⟩], w⟩
      else (copyTo outSize s.cmdOut n output).bind fun cmdOut =>
        backtickLoop host cmdIn outSize rest (n + output.length)
          ⟨if status ≠ 0 then status else s.ret, cmdOut, s.calls ++ [⟨text, status, output⟩], w⟩ := by
  have behind : (text ++ '`' :: rest).drop (text.length + 1) = rest := by simp
  rw [backtickLoop, if_pos rfl, strchr_append inner]
  simp only [if_neg (Nat.not_le_of_lt short), List.take_left, behind, ran]

theorem backtickLoop_long {pIn : Text} {n : Nat} {w : σ} (long : MeetsLong host outSize pIn n w) {s : Handled σ}
    (world : s.world = w) : backtickLoop host cmdIn outSize pIn n s = .error .outside := by
  induction long generalizing s with
  | here inner long =>
    rw [backtickLoop, if_pos rfl, strchr_append inner]
    exact if_pos long
  | plain other room later ih =>
    rw [backtickLoop_plain other, if_neg (by omega), store, if_pos (by omega)]
    exact ih world
  | pair inner short ran fine room later ih =>
    rw [backtickLoop_pair inner short _ s (world.symm ▸ ran), if_neg (by omega), if_neg (by omega), copyTo, if_pos (by omega)]
    exact ih rfl

/-- The output written so far lies at the start of `cmd_out`. -/
structure Written (buf : Chars) (out : Text) : Prop where
  chars : ∀ i < out.length, buf (0 + i) = out.getD i nul
  free : nul ∉ out

theorem Written.append {buf : Chars} {out t : Text} (written : Written buf out) (free : nul ∉ t) :
    Written (strcpy nul buf out.length t) (out ++ t) := by
  have copied := strcpy_behind nul written.chars written.free free
  rw [Nat.zero_add] at copied
  exact ⟨fun i less => copied.char i (Nat.le_of_lt less), copied.free⟩

theorem Written.ends {buf : Chars} {out : Text} (written : Written buf out) :
    At nul (Function.update buf out.length nul) 0 out := by
  refine ⟨fun i le => ?_, written.free⟩
  rcases Nat.lt_or_eq_of_le le with less | rfl
  · rw [Function.update_of_ne (by omega), written.chars i less]
  · rw [Nat.zero_add, Function.update_self, List.getD_eq_default _ _ (Nat.le_refl _)]

theorem Written.push {buf : Chars} {out : Text} (written : Written buf out) {c : Char} (nonzero : c ≠ nul) :
    Written (Function.update buf out.length c) (out ++ [c]) := by
  refine ⟨fun i less => ?_, fun mem => ?_⟩
  · rw [List.length_append, List.length_singleton] at less
    by_cases last : i = out.length
    · rw [last, Nat.zero_add, Function.update_self, List.getD_append_right _ _ _ _ (Nat.le_refl _), Nat.sub_self,
        List.getD_cons_zero]
    · rw [Function.update_of_ne (by omega), written.chars i (by omega), List.getD_append _ _ _ _ (by omega)]
  · rcases List.mem_append.mp mem with before | last
    · exact written.free before
    · exact nonzero (List.mem_singleton.mp last).symm

def Strings (host : Host σ) : Prop := ∀ text w, nul ∉ (host.runAndCaptureOutput text 1024 w).1.2

/-- The loop fails because of the input or because the text gets too long, or it writes the text. -/
theorem backtickLoop_ends (strings : Strings host) (fits : cmdIn.length < outSize) {pIn out : Text} {s : Handled σ}
    (written : Written s.cmdOut out) (room : out.length ≤ outSize - 1) (free : nul ∉ pIn) (fine : 0 ≤ s.ret)
    (short : ¬ MeetsLong host outSize pIn out.length s.world) :
    ∃ s', backtickLoop host cmdIn outSize pIn out.length s = .ok s' ∧
      ((s'.ret = -1 ∧ ∀ calls t, Replaces host pIn s.world calls t → outSize - 1 ≤ out.length + t.length) ∨
        ∃ calls t, Replaces host pIn s.world calls t ∧ out.length + t.length ≤ outSize - 1 ∧ At nul s'.cmdOut 0 (out ++ t) ∧
          s'.calls = s.calls ++ calls ∧ 0 ≤ s'.ret ∧
          s'.ret = calls.foldl (fun last call => if call.status ≠ 0 then call.status else last) s.ret) := by
  induction pIn using tick_cases generalizing out s with
  | nil =>
    refine ⟨{ s with cmdOut := Function.update s.cmdOut out.length nul }, ?_, .inr ⟨[], [], .nil, room, ?_, ?_, fine, rfl⟩⟩
    · rw [backtickLoop, store, if_pos (by omega)]
      rfl
    · rw [List.append_nil]
      exact written.ends
    · exact (List.append_nil _).symm
  | cons c rest other ih =>
    have nonzero : c ≠ nul := fun zero => free (by simp [zero])
    rw [backtickLoop_plain other]
    by_cases full : outSize - 1 ≤ out.length
    · rw [if_pos full]
      exact ⟨_, rfl, .inl ⟨rfl, fun calls t _ => by omega⟩⟩
    · rw [if_neg full, store, if_pos (by omega)]
      have length : (out ++ [c]).length = out.length + 1 := by simp
      obtain ⟨s', goes, ended⟩ := ih (s := { s with cmdOut := Function.update s.cmdOut out.length c })
        (written.push nonzero) (by omega) (fun mem => free (List.mem_cons_of_mem c mem)) fine
        (fun long => short (.plain other (Nat.lt_of_not_le full) (length ▸ long)))
      rw [length] at goes ended
      refine ⟨s', goes, ?_⟩
      rcases ended with ⟨failed, large⟩ | ⟨calls, t, replaces, small, lies, called, fine', ret⟩
      · refine .inl ⟨failed, fun calls t replaces => ?_⟩
        generalize whole : c :: rest = p at replaces
        cases replaces with
        | nil => cases whole
        | plain other' later =>
          obtain ⟨rfl, rfl⟩ := List.cons.inj whole
          have le := large _ _ later
          rw [List.length_cons]
          omega
        | pair => exact absurd (List.cons.inj whole).1 other
      · refine .inr ⟨calls, c :: t, .plain other replaces, ?_, ?_, called, fine', ret⟩
        · rw [List.length_cons]
          omega
        · rw [List.append_cons]
          exact lies
  | opened rest alone =>
    refine ⟨⟨-1, strcpy nul s.cmdOut 0 cmdIn, s.calls, s.world⟩, ?_, .inl ⟨rfl, fun calls t replaces => ?_⟩⟩
    · rw [backtickLoop, if_pos rfl, strchr_none alone, copyTo, if_pos (by omega)]
      rfl
    · exact absurd (.opened alone) replaces.not_breaks
  | pair text rest inner ih =>
    have small : text.length < subCmdSize := Nat.lt_of_not_le fun long => short (.here inner long)
    obtain ⟨status, output, w, ran⟩ : ∃ status output w, host.runAndCaptureOutput text 1024 s.world = ((status, output), w) :=
      ⟨_, _, _, rfl⟩
    have freeOut : nul ∉ output := by
      have free := strings text s.world
      rwa [ran] at free
    have freeRest : nul ∉ rest := fun mem => free (List.mem_cons_of_mem _ (by simp [mem]))
    rw [backtickLoop_pair inner small rest s ran]
    by_cases failed : status < 0
    · rw [if_pos failed]
      exact ⟨_, rfl, .inl ⟨rfl, fun calls t replaces => absurd (.negative inner ran failed) replaces.not_breaks⟩⟩
    · have good : 0 ≤ status := Int.not_lt.mp failed
      have length : (out ++ output).length = out.length + output.length := List.length_append
      rw [if_neg failed]
      by_cases full : outSize - 1 ≤ out.length + output.length
      · rw [if_pos full]
        refine ⟨_, rfl, .inl ⟨rfl, fun calls t replaces => ?_⟩⟩
        rcases breaks_or_replaces host rest w with breaks | ⟨calls', t', later⟩
        · exact absurd (.pair inner ran good breaks) replaces.not_breaks
        · obtain ⟨-, rfl⟩ := replaces.unique (.pair inner ran good later)
          rw [List.length_append]
          omega
      · rw [if_neg full, copyTo, if_pos (by omega)]
        obtain ⟨s', goes, ended⟩ := ih
          (s := ⟨if status ≠ 0 then status else s.ret, strcpy nul s.cmdOut out.length output,
            s.calls ++ [⟨text, status, output⟩], w⟩)
          (written.append freeOut) (by omega) freeRest (by simp only; split <;> omega)
          (fun long => short (.pair inner small ran good (Nat.lt_of_not_le full) (length ▸ long)))
        rw [length] at goes ended
        refine ⟨s', goes, ?_⟩
        rcases ended with ⟨ret, large⟩ | ⟨calls, t, replaces, few, lies, called, fine', ret⟩
        · refine .inl ⟨ret, fun calls t replaces => ?_⟩
          rcases breaks_or_replaces host rest w with breaks | ⟨calls', t', later⟩
          · exact absurd (.pair inner ran good breaks) replaces.not_breaks
          · obtain ⟨-, rfl⟩ := replaces.unique (.pair inner ran good later)
            have le := large _ _ later
            rw [List.length_append]
            omega
        · refine .inr ⟨⟨text, status, output⟩ :: calls, output ++ t, .pair inner ran good replaces, ?_, ?_, ?_, fine', ret⟩
          · rw [List.length_append]
            omega
          · rw [← List.append_assoc]
            exact lies
          · rw [called, List.append_assoc]
            rfl

end Loop

/-- `handle_backticks` substitutes if and only if no text that it comes to has the size of `sub_cmd`. -/
theorem substitutes_iff {host : Host σ} (strings : Strings host) {cmdIn : Text} {outSize : Nat} (fits : cmdIn.length < outSize)
    (free : nul ∉ cmdIn) (cmdOut : Chars) (world : σ) :
    Substitutes host cmdIn cmdOut outSize world ↔ ¬ MeetsLong host outSize cmdIn 0 world := by
  constructor
  · rintro ⟨s, goes, -⟩ long
    rw [handleBackticksIn, backtickLoop_long long rfl] at goes
    cases goes
  · intro short
    have none' : Written cmdOut [] := ⟨fun i less => absurd less (Nat.not_lt_zero i), List.not_mem_nil⟩
    obtain ⟨s, goes, ended⟩ := backtickLoop_ends strings fits (s := ⟨0, cmdOut, [], world⟩) none' (Nat.zero_le _) free
      (Int.le_refl 0) short
    refine ⟨s, goes, ?_⟩
    rcases ended with ⟨ret, large⟩ | ⟨calls, t, replaces, small, lies, called, fine, ret⟩
    · refine ⟨fun positive => ?_, fun _ => ret, fun calls t replaces => ⟨fun _ => ret, fun less => ?_⟩⟩
      · rw [ret] at positive
        exact absurd positive (by decide)
      · have le := large calls t replaces
        rw [List.length_nil] at le
        omega
    · obtain rfl : s.calls = calls := called
      refine ⟨fun _ => ⟨t, replaces, lies, ret⟩, fun breaks => absurd breaks replaces.not_breaks, fun calls' t' replaces' => ?_⟩
      obtain ⟨-, rfl⟩ := replaces.unique replaces'
      rw [List.length_nil] at small
      exact ⟨fun large => by omega, fun _ => by omega⟩

/-- A text that is one byte too long for `sub_cmd`, in backticks. -/
def longRegion : Text := '`' :: (List.replicate subCmdSize 'a' ++ ['`'])

theorem not_substitutes_long : ¬ Substitutes failing longRegion (fun _ => nul) 2048 () := by
  rintro ⟨s, goes, -⟩
  have inner : '`' ∉ List.replicate subCmdSize 'a' := fun mem => absurd (List.mem_replicate.mp mem).2 (by decide)
  have long : MeetsLong failing 2048 longRegion 0 () := .here inner (by rw [List.length_replicate])
  rw [handleBackticksIn, backtickLoop_long long rfl] at goes
  cases goes

/-- The output of a call is its command, and its status the number of the calls before it. -/
def echoing : Host Nat where
  getVarValue _ _ := []
  runAndCaptureOutput text _ calls := ((calls, text.takeWhile (· != nul)), calls + 1)
  overrun _ _ _ calls := ((0, []), calls)
  runHistoryCmd calls := calls
  runcmd _ calls := (0, calls)
  fork _ calls := (1, calls)
  wait _ calls := (0, calls)
  historySave _ calls := calls

/-- In ``x`ab`y`c` `` the two pairs are replaced, and the value is the status of the second call. -/
theorem substitutes_two :
    ∃ s, handleBackticksIn echoing ['x', '`', 'a', 'b', '`', 'y', '`', 'c', '`'] (fun _ => nul) 2048 0 = .ok s ∧
      At nul s.cmdOut 0 ['x', 'a', 'b', 'y', 'c'] ∧ s.calls = [⟨['a', 'b'], 0, ['a', 'b']⟩, ⟨['c'], 1, ['c']⟩] ∧ s.ret = 1 := by
  have strings : Strings echoing := by
    intro text w mem
    simpa using List.mem_takeWhile_imp mem
  have first : ['x', '`', 'a', 'b', '`', 'y', '`', 'c', '`'] = 'x' :: '`' :: (['a', 'b'] ++ '`' :: ['y', '`', 'c', '`']) := rfl
  have second : ['`', 'c', '`'] = '`' :: (['c'] ++ '`' :: []) := rfl
  have replaces : Replaces echoing ['x', '`', 'a', 'b', '`', 'y', '`', 'c', '`'] 0 [⟨['a', 'b'], 0, ['a', 'b']⟩, ⟨['c'], 1, ['c']⟩]
      ['x', 'a', 'b', 'y', 'c'] := by
    have runs : echoing.runAndCaptureOutput ['a', 'b'] 1024 0 = ((0, ['a', 'b']), 1) := rfl
    have runs' : echoing.runAndCaptureOutput ['c'] 1024 1 = ((1, ['c']), 2) := rfl
    rw [first]
    refine .plain (by decide) (.pair (by decide) runs (by decide) (.plain (by decide) ?_))
    rw [second]
    exact .pair (by decide) runs' (by decide) .nil
  have short : ¬ MeetsLong echoing 2048 ['x', '`', 'a', 'b', '`', 'y', '`', 'c', '`'] 0 0 := by
    rw [first, meetsLong_plain (by decide), meetsLong_pair (by decide) (by decide) rfl, meetsLong_plain (by decide), second,
      meetsLong_pair (by decide) (by decide) rfl]
    exact fun long => meetsLong_nil long.2.2.2.2.2.2
  obtain ⟨s, goes, done, -⟩ := (substitutes_iff strings (by decide) (by decide) (fun _ => nul) 0).mpr short
  have ran : (handleBackticksIn echoing ['x', '`', 'a', 'b', '`', 'y', '`', 'c', '`'] (fun _ => nul) 2048 0).map (·.ret) =
      .ok 1 := by
    simp [handleBackticksIn, backtickLoop, echoing, strchr, store, copyTo, subCmdSize, Except.map, Except.bind, nul]
  have ret : s.ret = 1 := by
    rw [goes] at ran
    exact Except.ok.inj ran
  obtain ⟨t, replaces', lies, -⟩ := done (by rw [ret]; decide)
  obtain ⟨calls, rfl⟩ := replaces'.unique replaces
  exact ⟨s, goes, lies, calls, ret⟩

end Mos.Sh
