import Mos.Sh.Regions
import Mos.Sh.Builtin

namespace Mos.Sh

section Blanks

variable {blanks : Text} (blank : ∀ c ∈ blanks, isSpace c = true)
include blank

end Blanks

variable {σ : Type}

/-- The commands that are given to `runcmd`, in the shell or in a child. -/
def isCopied (firstWord : Text) : Bool := firstWord != "exit".toList && firstWord != "history".toList

namespace Host

variable {host : Host σ} {blanks : Text} (blank : ∀ c ∈ blanks, isSpace c = true)
include blank

end Host

namespace Host

variable (host : Host σ)

/-- What stands behind a command is copied to the end of what is substituted, if it has no backtick and there is room. -/
structure Extends (tail : Text) (outSize : Nat) (r r' : (Int × Text) × σ) : Prop where
  world : r'.2 = r.2
  fails : r.1.1 < 0 → r'.1.1 < 0
  copied : 0 ≤ r.1.1 → r.1.2.length + tail.length ≤ outSize - 1 → r'.1 = (r.1.1, r.1.2 ++ tail)

theorem Extends.failed (tail : Text) (outSize : Nat) (out out' : Text) (world : σ) :
    Extends tail outSize ((-1, out), world) ((-1, out'), world) :=
  ⟨rfl, fun fails => fails, fun fine => absurd fine (by show ¬ (0 : Int) ≤ -1; decide)⟩

end Host

/-- Two chains that differ at most in the blanks between the tokens of their commands. -/
structure Chain.Same (s t : Chain σ) : Prop where
  world : t.world = s.world
  lastStatus : t.lastStatus = s.lastStatus
  ran : t.ran.map (fun r => (tokens r.1, r.2)) = s.ran.map fun r => (tokens r.1, r.2)

section Loop

variable {host : Host σ}

end Loop

section Separator

variable {tail : Text}

end Separator

/-- The command with the blanks behind it fits in `final_cmd_buf`, and in `cmd_copy` where it is copied. -/
def Room (blanks finalCmd : Text) : Prop :=
  finalCmd.length + blanks.length ≤ 2047 ∧
    (isCopied (peekFirstWord finalCmd 128) = true → finalCmd.length + blanks.length < cmdCopySize)

/-- The loop comes to a command at the end of the line, which has room for the blanks behind it, or it does not run what is left. -/
inductive Ends (host : Host σ) (blanks : Text) : Text → Bool → Chain σ → Prop where
  | last {line : Text} {run : Bool} {s : Chain σ} : separator (line.dropWhile isSpace) = none →
      (run = true → line.dropWhile isSpace ≠ [] ∧
        (0 ≤ (host.handleBackticks (line.dropWhile isSpace) 2048 s.world).1.1 →
          Room blanks (host.handleBackticks (line.dropWhile isSpace) 2048 s.world).1.2)) →
      Ends host blanks line run s
  | next {line : Text} {run : Bool} {s : Chain σ} {off len : Nat} : separator (line.dropWhile isSpace) = some (off, len) →
      (∀ s', (if run then host.runSub ((line.dropWhile isSpace).take off) s else some s) = some s' →
        Ends host blanks ((line.dropWhile isSpace).drop (off + len))
          (shouldRun (line.dropWhile isSpace) (off, len) s'.lastStatus) s') →
      Ends host blanks line run s

section Join

variable {host : Host σ} {blanks : Text} (blank : ∀ c ∈ blanks, isSpace c = true)
include blank

end Join

/-- What `main` does with one line of text. -/
def processText (host : Host σ) (world : σ) (text : Text) : Except Fault (Option (Chain σ)) :=
  (expandLine host world (clean text)).map fun line => chainLoop host line true ⟨world, 0, []⟩

theorem processText_ok {host : Host σ} {world : σ} {text : Text} {ended : Option (Chain σ)} :
    processText host world text = .ok ended ↔ (expand host world (clean text)).length < expandedSize ∧
      ended = chainLoop host (expand host world (clean text)) true ⟨world, 0, []⟩ := by
  unfold processText expandLine
  split
  · rename_i long
    exact iff_of_false (fun eq => nomatch eq) fun both => Nat.not_lt_of_le long both.1
  · rename_i short
    rw [Except.map, Except.ok.injEq, eq_comm]
    exact (and_iff_right (Nat.lt_of_not_le short)).symm

theorem processLine_text (host : Host σ) (s : Shell σ) {ended : Option (Chain σ)}
    (done : processText host s.world s.buf = .ok ended) :
    (processLine host false s).2 = ended.isSome ∧ ∀ t, ended = some t → (processLine host false s).1.world = t.world := by
  obtain ⟨-, rfl⟩ := processText_ok.mp done
  simp only [processLine, Bool.false_eq_true, if_false]
  cases chainLoop host (expand host s.world (clean s.buf)) true ⟨s.world, 0, []⟩ <;> simp

/-- The commands of one line of text fit. -/
def Held (host : Host σ) (world : σ) (text : Text) : Prop :=
  Contained host isCopied (expand host world (clean text)) true ⟨world, 0, []⟩

theorem clean_plain {text : Text} (plain : '#' ∉ text) : clean text = text.rdropWhile isSpace := by
  rw [clean, List.takeWhile_eq_self_iff.mpr]
  intro c mem
  simp only [bne_iff_ne, ne_eq]
  rintro rfl
  exact plain mem

section Line

variable {host : Host σ} {world : σ} {first second : Text} (plain : '#' ∉ first) (plain' : '#' ∉ second)
include plain plain'

variable (ends : Ends host (first.rtakeWhile isSpace) (expand host world (clean first)) true ⟨world, 0, []⟩)
include ends

end Line

section Single

variable (host : Host σ) (world : σ) (command : Simple)

end Single

end Mos.Sh
