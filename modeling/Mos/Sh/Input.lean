import Mos.Sh.Chain
import Mathlib.Data.List.DropRight

namespace Mos.Sh

def maxCmdLen : Nat := 1024
def maxHistory : Nat := 20
def bufSize : Nat := 1024
def maxVarNameLen : Nat := 16

structure History where
  /-- `history_buf`; the last row keeps the unfinished line. -/
  buf : Nat → Text
  count : Nat
  head : Nat
  tail : Nat

namespace History

/-- The row that is `back` commands behind the newest one. -/
def row (h : History) (back : Int) : Nat := ((h.tail - 1 - back + maxHistory) % maxHistory).toNat

def saved (h : History) : List Text := (List.range h.count).map fun i => h.buf ((h.head + i) % maxHistory)

def holds (h : History) (cmd : Text) : Prop := 0 < h.count ∧ cmd = h.buf (h.row 0)

instance (h : History) (cmd : Text) : Decidable (h.holds cmd) := inferInstanceAs (Decidable (_ ∧ _))

/-- `history_add`, with the file that `history_save` writes. -/
def add (host : Host σ) (cmd : Text) (h : History) (world : σ) : History × σ :=
  if cmd = [] ∨ h.holds cmd then (h, world)
  else
    let h' : History := { h with
      buf := Function.update h.buf h.tail cmd
      tail := (h.tail + 1) % maxHistory
      count := if h.count < maxHistory then h.count + 1 else h.count
      head := if h.count < maxHistory then h.head else (h.head + 1) % maxHistory }
    (h', host.historySave h'.saved world)

end History

/-- What one call of `read(0, &c, 1)` gives. -/
inductive Read where
  | byte (c : Char)
  | eof
  | error

def Read.store (c : Char) : Read → Char
  | .byte b => b
  | .eof => c
  | .error => c

/-- `local_buf`, `cursor_pos`, `history_nav_pos` and the history. -/
structure Editor where
  localBuf : Text
  cursorPos : Nat
  navPos : Int
  history : History

namespace Editor

def start (history : History) : Editor := ⟨[], 0, -1, history⟩

def show' (e : Editor) (line : Text) : Editor := { e with localBuf := line, cursorPos := line.length }

def backspace (e : Editor) : Editor :=
  if 0 < e.cursorPos then
    { e with
      localBuf := e.localBuf.take (e.cursorPos - 1) ++ e.localBuf.drop e.cursorPos
      cursorPos := e.cursorPos - 1 }
  else e

def killWord (e : Editor) : Editor :=
  let blank (c : Char) := (strchr " \t".toList c).isSome
  let left := ((e.localBuf.take e.cursorPos).rdropWhile blank).rdropWhile fun c => !blank c
  if left.length < e.cursorPos then
    { e with localBuf := left ++ e.localBuf.drop e.cursorPos, cursorPos := left.length }
  else e

def insert (e : Editor) (c : Char) : Editor :=
  if e.localBuf.length < maxCmdLen - 1 ∧ 32 ≤ c.toNat ∧ c.toNat < 127 then
    { e with
      localBuf := e.localBuf.take e.cursorPos ++ c :: e.localBuf.drop e.cursorPos
      cursorPos := e.cursorPos + 1 }
  else e

/-- The cases of the `switch` that go on reading. -/
def key (e : Editor) (c : Char) : Editor :=
  match c.toNat with
  | 0x08 => e.backspace
  | 0x7f => e.backspace
  | 0x01 => { e with cursorPos := 0 }
  | 0x05 => { e with cursorPos := e.localBuf.length }
  | 0x0b => { e with localBuf := e.localBuf.take e.cursorPos }
  | 0x15 => { e with localBuf := e.localBuf.drop e.cursorPos, cursorPos := 0 }
  | 0x17 => e.killWord
  | _ => e.insert c

def up (e : Editor) : Editor :=
  if e.navPos < e.history.count - 1 then
    let buf := if e.navPos = -1 then Function.update e.history.buf maxHistory e.localBuf else e.history.buf
    let e : Editor := { e with history := { e.history with buf := buf }, navPos := e.navPos + 1 }
    e.show' (e.history.buf (e.history.row e.navPos))
  else e

def down (e : Editor) : Editor :=
  if -1 < e.navPos then
    let e : Editor := { e with navPos := e.navPos - 1 }
    e.show' (if e.navPos = -1 then e.history.buf maxHistory else e.history.buf (e.history.row e.navPos))
  else e

def arrow (e : Editor) (c : Char) : Editor :=
  if c = 'A' then e.up
  else if c = 'B' then e.down
  else if c = 'C' then { e with cursorPos := if e.cursorPos < e.localBuf.length then e.cursorPos + 1 else e.cursorPos }
  else if c = 'D' then { e with cursorPos := e.cursorPos - 1 }
  else e

end Editor

/-- What ends the loop of `readline_advanced`. -/
inductive Ending where
  | newline
  | eof
  | error

def isNewline (c : Char) : Bool := c == '\r' || c == '\n'

/-- The loop of `readline_advanced`; `none` while it waits for the next read. The two reads behind an escape are not checked. -/
def editLine (e : Editor) (reads : List Read) : Option (Ending × Editor × List Read) :=
  match reads with
  | [] => none
  | .error :: rest => some (.error, e, rest)
  | .eof :: rest => some (.eof, e, rest)
  | .byte c :: rest =>
    if isNewline c then some (.newline, e, rest)
    else if c.toNat = 0x1b then
      match rest with
      | [] => none
      | second :: rest =>
        if second.store c = '[' then
          match rest with
          | [] => none
          | third :: rest => editLine (e.arrow (third.store '[')) rest
        else editLine e rest
    else editLine (e.key c) rest

/-- The result, `buf` and what is left of the input. -/
def readlineAdvanced (history : History) (buf : Text) (reads : List Read) : Option (Int × Text × History × List Read) :=
  (editLine (.start history) reads).map fun (ending, e, rest) =>
    match ending with
    | .newline => (e.localBuf.length, e.localBuf.take (bufSize - 1), e.history, rest)
    | .eof => (0, buf, e.history, rest)
    | .error => (-1, buf, e.history, rest)

/-- `getline`, with `i` characters read and room for `n` more. -/
def getline (line : Text) (n : Nat) (reads : List Read) : Option (Int × Text × List Read) :=
  match n, reads with
  | 0, reads => some (line.length, line, reads)
  | _ + 1, [] => none
  | _ + 1, .error :: rest => some (-1, line, rest)
  | _ + 1, .eof :: rest => if line = [] then some (-1, line, rest) else some (line.length, line, rest)
  | n + 1, .byte c :: rest => if isNewline c then some (line.length, line, rest) else getline (line ++ [c]) n rest

/-- The comment and the blanks at the end of the line are taken off. -/
def clean (buf : Text) : Text := (buf.takeWhile (· != '#')).rdropWhile isSpace

def inName (c : Char) : Bool := isalnum c || c == '_'

def expand (host : Host σ) (world : σ) (p : Text) : Text :=
  match p with
  | [] => []
  | c :: rest =>
    if c = '$' then
      host.getVarValue ((rest.takeWhile inName).take maxVarNameLen) world ++ expand host world (rest.dropWhile inName)
    else c :: expand host world rest
termination_by p.length
decreasing_by
  · have shorter := (List.dropWhile_suffix (l := rest) inName).length_le
    rw [List.length_cons]
    omega
  · simp

/-- Variable expansion in `expanded_buf`. -/
def expandLine (host : Host σ) (world : σ) (p : Text) : Except Fault Text :=
  if expandedSize ≤ (expand host world p).length then .error .outside else .ok (expand host world p)

/-- The shell between two lines, with the lines that `main` has processed. -/
structure Shell (σ : Type) where
  buf : Text
  history : History
  world : σ
  lines : List Text

/-- The body of the loop of `main` behind the read, and whether the shell is still there at its end. -/
def processLine (host : Host σ) (interactive : Bool) (s : Shell σ) : Shell σ × Bool :=
  let line := clean s.buf
  let (history, world) := if interactive then s.history.add host line s.world else (s.history, s.world)
  let s := { s with buf := line, history := history, world := world, lines := s.lines ++ [line] }
  match chainLoop host (expand host world line) true ⟨world, 0, []⟩ with
  | none => (s, false)
  | some chain => ({ s with world := chain.world }, true)

def readLine (interactive : Bool) (s : Shell σ) (reads : List Read) : Option (Int × Shell σ × List Read) :=
  if interactive then
    (readlineAdvanced s.history s.buf reads).map fun (r, buf, history, rest) =>
      (r, { s with buf := buf, history := history }, rest)
  else (getline [] (bufSize - 1) reads).map fun (r, buf, rest) => (r, { s with buf := buf }, rest)

theorem editLine_local {e e' : Editor} {reads rest : List Read} {ending : Ending}
    (ended : editLine e reads = some (ending, e', rest)) :
    ∃ consumed, consumed ≠ [] ∧ reads = consumed ++ rest ∧ ∀ more, editLine e (consumed ++ more) = some (ending, e', more) := by
  fun_induction editLine e reads with
  | case1 => cases ended
  | case2 e rest =>
    cases ended
    exact ⟨[.error], List.cons_ne_nil _ _, rfl, fun _ => rfl⟩
  | case3 e rest =>
    cases ended
    exact ⟨[.eof], List.cons_ne_nil _ _, rfl, fun _ => rfl⟩
  | case4 e c rest newline =>
    cases ended
    exact ⟨[.byte c], List.cons_ne_nil _ _, rfl, fun more => by rw [editLine.eq_def]; simp [newline]⟩
  | case5 => cases ended
  | case6 => cases ended
  | case7 e c newline escape second bracket third rest ih =>
    obtain ⟨consumed, -, rfl, later⟩ := ih ended
    exact ⟨.byte c :: second :: third :: consumed, List.cons_ne_nil _ _, rfl, fun more => by
      rw [editLine.eq_def]; simp [newline, escape, bracket, later]⟩
  | case8 e c newline escape second rest bracket ih =>
    obtain ⟨consumed, -, rfl, later⟩ := ih ended
    exact ⟨.byte c :: second :: consumed, List.cons_ne_nil _ _, rfl, fun more => by
      rw [editLine.eq_def]; simp [newline, escape, bracket, later]⟩
  | case9 e c rest newline escape ih =>
    obtain ⟨consumed, -, rfl, later⟩ := ih ended
    exact ⟨.byte c :: consumed, List.cons_ne_nil _ _, rfl, fun more => by
      rw [editLine.eq_def]; simp [newline, escape, later]⟩

theorem editLine_shorter {e e' : Editor} {reads rest : List Read} {ending : Ending}
    (ended : editLine e reads = some (ending, e', rest)) : rest.length < reads.length := by
  obtain ⟨consumed, nonempty, rfl, -⟩ := editLine_local ended
  rw [List.length_append]
  exact Nat.lt_add_of_pos_left (List.length_pos_iff.mpr nonempty)

theorem getline_shorter {line line' : Text} {n : Nat} {reads rest : List Read} {r : Int}
    (ended : getline line n reads = some (r, line', rest)) : rest.length ≤ reads.length ∧ (0 < n → rest.length < reads.length) := by
  fun_induction getline line n reads with
  | case1 =>
    cases ended
    exact ⟨Nat.le_refl _, fun less => absurd less (Nat.lt_irrefl 0)⟩
  | case2 => cases ended
  | case3 => cases ended; simp
  | case4 => cases ended; simp
  | case5 => cases ended; simp
  | case6 => cases ended; simp
  | case7 line n c rest newline ih =>
    have shorter := (ih ended).1
    simp only [List.length_cons]
    omega

theorem readLine_shorter {interactive : Bool} {s s' : Shell σ} {reads rest : List Read} {r : Int}
    (ended : readLine interactive s reads = some (r, s', rest)) : rest.length < reads.length := by
  unfold readLine at ended
  split at ended
  · obtain ⟨⟨r, buf, history, rest⟩, read, eq⟩ := Option.map_eq_some_iff.mp ended
    obtain ⟨⟨ending, e, rest'⟩, edited, eq'⟩ := Option.map_eq_some_iff.mp read
    cases eq
    have shorter := editLine_shorter edited
    cases ending <;> cases eq' <;> exact shorter
  · obtain ⟨⟨r, buf, rest⟩, read, eq⟩ := Option.map_eq_some_iff.mp ended
    cases eq
    exact (getline_shorter read).2 (by decide)

/-- The loop of `main`, up to the read that it waits for. -/
def mainLoop (host : Host σ) (interactive : Bool) (s : Shell σ) (reads : List Read) : Shell σ :=
  match _ended : readLine interactive s reads with
  | none => s
  | some (r, s', rest) =>
    if r < 0 then s'
    else
      match processLine host interactive s' with
      | (s'', false) => s''
      | (s'', true) => mainLoop host interactive s'' rest
termination_by reads.length
decreasing_by exact readLine_shorter _ended

/-- A shell that works on the lines completed by a newline and on nothing else. -/
def enteredLoop (host : Host σ) (s : Shell σ) (reads : List Read) : Shell σ :=
  match _ended : editLine (.start s.history) reads with
  | none => s
  | some (.error, e, _) => { s with history := e.history }
  | some (.eof, e, rest) => enteredLoop host { s with history := e.history } rest
  | some (.newline, e, rest) =>
    match processLine host true { s with buf := e.localBuf.take (bufSize - 1), history := e.history } with
    | (s', false) => s'
    | (s', true) => enteredLoop host s' rest
termination_by reads.length
decreasing_by all_goals exact editLine_shorter _ended

/-- For each end of input that `enteredLoop` reads, the line completed last before it. -/
def endsAfter (host : Host σ) (s : Shell σ) (reads : List Read) : List Text :=
  match _ended : editLine (.start s.history) reads with
  | none => []
  | some (.error, _, _) => []
  | some (.eof, e, rest) => s.buf :: endsAfter host { s with history := e.history } rest
  | some (.newline, e, rest) =>
    match processLine host true { s with buf := e.localBuf.take (bufSize - 1), history := e.history } with
    | (_, false) => []
    | (s', true) => endsAfter host s' rest
termination_by reads.length
decreasing_by all_goals exact editLine_shorter _ended

def Shell.commandLines (s : Shell σ) : List Text := s.lines.filter (· ≠ [])

section Step

variable {host : Host σ} {s : Shell σ} {e : Editor} {reads rest : List Read}

def Shell.complete (s : Shell σ) (e : Editor) : Shell σ :=
  { s with buf := e.localBuf.take (bufSize - 1), history := e.history }

def Shell.remember (s : Shell σ) (e : Editor) : Shell σ := { s with history := e.history }

theorem mainLoop_wait (waits : editLine (.start s.history) reads = none) : mainLoop host true s reads = s := by
  have read : readLine true s reads = none := by simp [readLine, readlineAdvanced, waits]
  rw [mainLoop.eq_def]
  split
  · rfl
  · rename_i found
    cases read.symm.trans found

theorem mainLoop_error (ended : editLine (.start s.history) reads = some (.error, e, rest)) :
    mainLoop host true s reads = s.remember e := by
  have read : readLine true s reads = some (-1, s.remember e, rest) := by
    simp [readLine, readlineAdvanced, ended, Shell.remember]
  rw [mainLoop.eq_def]
  split
  · rename_i found
    cases read.symm.trans found
  · rename_i found
    cases read.symm.trans found
    rfl

theorem mainLoop_process {s' : Shell σ} {r : Int} (read : readLine true s reads = some (r, s', rest)) (fine : ¬ r < 0) :
    mainLoop host true s reads =
      if (processLine host true s').2 then mainLoop host true (processLine host true s').1 rest
      else (processLine host true s').1 := by
  rw [mainLoop.eq_def]
  split
  · rename_i found
    cases read.symm.trans found
  · rename_i found
    cases read.symm.trans found
    rw [if_neg fine]
    split <;> rename_i eq <;> rw [eq] <;> rfl

theorem mainLoop_eof (ended : editLine (.start s.history) reads = some (.eof, e, rest)) :
    mainLoop host true s reads =
      if (processLine host true (s.remember e)).2 then mainLoop host true (processLine host true (s.remember e)).1 rest
      else (processLine host true (s.remember e)).1 := by
  apply mainLoop_process (r := 0) _ (by decide)
  simp [readLine, readlineAdvanced, ended, Shell.remember]

theorem mainLoop_newline (ended : editLine (.start s.history) reads = some (.newline, e, rest)) :
    mainLoop host true s reads =
      if (processLine host true (s.complete e)).2 then mainLoop host true (processLine host true (s.complete e)).1 rest
      else (processLine host true (s.complete e)).1 := by
  apply mainLoop_process (r := e.localBuf.length) _ (by omega)
  simp [readLine, readlineAdvanced, ended, Shell.complete]

theorem enteredLoop_wait (waits : editLine (.start s.history) reads = none) :
    enteredLoop host s reads = s ∧ endsAfter host s reads = [] := by
  rw [enteredLoop.eq_def, endsAfter.eq_def]
  constructor <;> split <;> rename_i found <;> first | rfl | cases waits.symm.trans found

theorem enteredLoop_error (ended : editLine (.start s.history) reads = some (.error, e, rest)) :
    enteredLoop host s reads = s.remember e ∧ endsAfter host s reads = [] := by
  rw [enteredLoop.eq_def, endsAfter.eq_def]
  constructor <;> split <;> rename_i found <;> cases ended.symm.trans found <;> rfl

theorem enteredLoop_eof (ended : editLine (.start s.history) reads = some (.eof, e, rest)) :
    enteredLoop host s reads = enteredLoop host (s.remember e) rest ∧
      endsAfter host s reads = s.buf :: endsAfter host (s.remember e) rest := by
  rw [enteredLoop.eq_def, endsAfter.eq_def]
  constructor <;> split <;> rename_i found <;> cases ended.symm.trans found <;> rfl

theorem enteredLoop_newline (ended : editLine (.start s.history) reads = some (.newline, e, rest)) :
    enteredLoop host s reads =
        (if (processLine host true (s.complete e)).2 then enteredLoop host (processLine host true (s.complete e)).1 rest
        else (processLine host true (s.complete e)).1) ∧
      endsAfter host s reads =
        if (processLine host true (s.complete e)).2 then endsAfter host (processLine host true (s.complete e)).1 rest
        else [] := by
  rw [enteredLoop.eq_def, endsAfter.eq_def]
  constructor
  · split <;> rename_i found <;> cases ended.symm.trans found
    split <;> rename_i eq <;> rw [Shell.complete, eq] <;> rfl
  · split <;> rename_i found <;> cases ended.symm.trans found
    split <;> rename_i eq <;> rw [Shell.complete, eq] <;> rfl

end Step

/-- Two shells that will treat the next input in the same way. -/
structure Alike (s t : Shell σ) : Prop where
  buf : clean s.buf = clean t.buf
  history : s.history = t.history
  world : s.world = t.world
  commandLines : s.commandLines = t.commandLines

namespace Alike

variable {s t : Shell σ}

theorem complete (alike : Alike s t) (e : Editor) : Alike (s.complete e) (t.complete e) :=
  ⟨rfl, rfl, alike.world, alike.commandLines⟩

theorem remember (alike : Alike s t) (e : Editor) : Alike (s.remember e) (t.remember e) :=
  ⟨alike.buf, rfl, alike.world, alike.commandLines⟩

theorem processLine (host : Host σ) (alike : Alike s t) :
    Alike (processLine host true s).1 (processLine host true t).1 ∧
      (Sh.processLine host true s).2 = (Sh.processLine host true t).2 := by
  have same (line : Text) : (s.lines ++ [line]).filter (· ≠ []) = (t.lines ++ [line]).filter (· ≠ []) := by
    rw [List.filter_append, List.filter_append]
    exact congrArg (· ++ _) alike.commandLines
  simp only [Sh.processLine, alike.buf, alike.history, alike.world, if_true]
  split <;> exact ⟨⟨rfl, rfl, rfl, same _⟩, rfl⟩

end Alike

theorem chainLoop_nil (host : Host σ) (run : Bool) (s : Chain σ) : chainLoop host [] run s = some s := by
  rw [chainLoop.eq_def]
  rfl

theorem processLine_blank (host : Host σ) {s : Shell σ} (blank : clean s.buf = []) :
    (processLine host true s).2 = true ∧ Alike (processLine host true s).1 s := by
  have kept : s.history.add host [] s.world = (s.history, s.world) := by simp [History.add]
  have unchanged : expand host s.world [] = [] := by rw [expand]
  simp only [processLine, blank, if_true, kept, unchanged, chainLoop_nil]
  exact ⟨trivial, blank.symm, rfl, rfl, by simp [Shell.commandLines]⟩

theorem processLine_commandLines {host : Host σ} {s : Shell σ} (some' : clean s.buf ≠ []) :
    (processLine host true s).1.commandLines = s.commandLines ++ [clean s.buf] := by
  simp only [processLine, if_true]
  split <;> simp [Shell.commandLines, some']

/-- A prefix of the input either leaves the editor waiting in the same line or completes it in the same way. -/
theorem editLine_prefix {e e' : Editor} {pre consumed rest : List Read} {ending : Ending}
    (ended : ∀ more, editLine e (consumed ++ more) = some (ending, e', more)) (part : pre <+: consumed ++ rest) :
    editLine e pre = none ∨ ∃ later, pre = consumed ++ later ∧ later <+: rest := by
  cases early : editLine e pre with
  | none => exact Or.inl rfl
  | some result =>
    obtain ⟨ending', e'', later⟩ := result
    obtain ⟨consumed', -, rfl, extends'⟩ := editLine_local early
    obtain ⟨more, whole⟩ := part
    have same := extends' (later ++ more)
    rw [← List.append_assoc, whole, ended] at same
    obtain rfl : rest = later ++ more := congrArg (·.2.2) (Option.some.inj same)
    rw [← List.append_assoc] at whole
    obtain rfl := List.append_cancel_right (List.append_cancel_right whole)
    exact Or.inr ⟨later, rfl, List.prefix_append later more⟩

theorem editLine_waits {e : Editor} {pre reads : List Read} (waits : editLine e reads = none) (part : pre <+: reads) :
    editLine e pre = none := by
  cases early : editLine e pre with
  | none => rfl
  | some result =>
    obtain ⟨ending, e', later⟩ := result
    obtain ⟨consumed, -, rfl, extends'⟩ := editLine_local early
    obtain ⟨more, rfl⟩ := part
    rw [List.append_assoc, extends'] at waits
    cases waits

/-- The two shells process the same lines at each point of the input. -/
def Agree (host : Host σ) (s t : Shell σ) (reads : List Read) : Prop :=
  ∀ pre, pre <+: reads → (mainLoop host true s pre).commandLines = (enteredLoop host t pre).commandLines

section Agree

variable {host : Host σ} {s t : Shell σ} {e : Editor} {consumed rest : List Read} {ending : Ending}

theorem agree_behind {s' t' : Shell σ} (alike : Alike s t)
    (ended : ∀ more, editLine (.start t.history) (consumed ++ more) = some (ending, e, more))
    (main : ∀ more, mainLoop host true s (consumed ++ more) = mainLoop host true s' more)
    (entered : ∀ more, enteredLoop host t (consumed ++ more) = enteredLoop host t' more) :
    Agree host s t (consumed ++ rest) ↔ Agree host s' t' rest := by
  constructor
  · intro agree later part
    rw [← main, ← entered]
    exact agree _ ((List.prefix_append_right_inj consumed).mpr part)
  · intro agree pre part
    rcases editLine_prefix ended part with waits | ⟨later, rfl, part'⟩
    · rw [mainLoop_wait (by rw [alike.history]; exact waits), (enteredLoop_wait waits).1]
      exact alike.commandLines
    · rw [main, entered]
      exact agree later part'

/-- The line ends both shells, or neither goes on reading. -/
theorem agree_ends {s' t' : Shell σ} (alike : Alike s t)
    (ended : ∀ more, editLine (.start t.history) (consumed ++ more) = some (ending, e, more))
    (main : ∀ more, mainLoop host true s (consumed ++ more) = s')
    (entered : ∀ more, enteredLoop host t (consumed ++ more) = t') (same : s'.commandLines = t'.commandLines) :
    Agree host s t (consumed ++ rest) := by
  intro pre part
  rcases editLine_prefix ended part with waits | ⟨later, rfl, -⟩
  · rw [mainLoop_wait (by rw [alike.history]; exact waits), (enteredLoop_wait waits).1]
    exact alike.commandLines
  · rw [main, entered]
    exact same

end Agree

theorem agree_iff (host : Host σ) (s t : Shell σ) (reads : List Read) (alike : Alike s t) :
    Agree host s t reads ↔ ∀ line ∈ endsAfter host t reads, clean line = [] := by
  induction size : reads.length using Nat.strong_induction_on generalizing reads s t with
  | _ size' ih =>
  subst size
  cases first : editLine (.start t.history) reads with
  | none =>
    rw [(enteredLoop_wait first).2]
    refine iff_of_true (fun pre part => ?_) (by simp)
    have waits := editLine_waits first part
    rw [mainLoop_wait (by rw [alike.history]; exact waits), (enteredLoop_wait waits).1]
    exact alike.commandLines
  | some result =>
    obtain ⟨ending, e, rest⟩ := result
    have shorter := editLine_shorter first
    obtain ⟨consumed, -, rfl, ended⟩ := editLine_local first
    have ended' : ∀ more, editLine (.start s.history) (consumed ++ more) = some (ending, e, more) := by
      rw [alike.history]
      exact ended
    cases ending with
    | error =>
      rw [(enteredLoop_error first).2]
      refine iff_of_true ?_ (by simp)
      exact agree_ends alike ended (fun more => mainLoop_error (ended' more)) (fun more => (enteredLoop_error (ended more)).1)
        (alike.remember e).commandLines
    | newline =>
      obtain ⟨after, together⟩ := (alike.complete e).processLine host
      rw [(enteredLoop_newline first).2]
      cases stays : (processLine host true (t.complete e)).2 with
      | false =>
        refine iff_of_true ?_ (by simp)
        refine agree_ends alike ended (fun more => ?_) (fun more => ?_) after.commandLines
        · rw [mainLoop_newline (ended' more), together, stays]
          rfl
        · rw [(enteredLoop_newline (ended more)).1, stays]
          rfl
      | true =>
        rw [if_pos rfl, ← ih _ shorter _ _ rest after rfl]
        apply agree_behind alike ended
        · intro more
          rw [mainLoop_newline (ended' more), together, stays]
          rfl
        · intro more
          rw [(enteredLoop_newline (ended more)).1, stays]
          rfl
    | eof =>
      rw [(enteredLoop_eof first).2, List.forall_mem_cons]
      by_cases blank : clean t.buf = []
      · have blank' : clean (s.remember e).buf = [] := alike.buf.trans blank
        obtain ⟨stays, idle⟩ := processLine_blank host blank'
        have after : Alike (processLine host true (s.remember e)).1 (t.remember e) :=
          ⟨idle.buf.trans alike.buf, idle.history, idle.world.trans alike.world,
            idle.commandLines.trans alike.commandLines⟩
        rw [and_iff_right blank, ← ih _ shorter _ _ rest after rfl]
        apply agree_behind alike ended
        · intro more
          rw [mainLoop_eof (ended' more), stays]
          rfl
        · exact fun more => (enteredLoop_eof (ended more)).1
      · refine iff_of_false (fun agree => ?_) (fun quiet => blank quiet.1)
        -- Up to this end of input the shell has processed its last line once more.
        have again : clean (s.remember e).buf ≠ [] := fun eq => blank (alike.buf.symm.trans eq)
        have atEnd := agree (consumed ++ []) ((List.prefix_append_right_inj consumed).mpr List.nil_prefix)
        rw [mainLoop_eof (ended' []), mainLoop_wait rfl, ite_self, processLine_commandLines again] at atEnd
        rw [(enteredLoop_eof (ended [])).1, (enteredLoop_wait rfl).1, (alike.remember e).commandLines] at atEnd
        exact absurd atEnd (by simp)

/-- The shell when `main` begins to read. -/
def Shell.start (history : History) (world : σ) : Shell σ := ⟨[], history, world, []⟩

/-- At each point of the input the shell has processed the command lines that were completed, and no others, as long as every
    end of input finds it behind a line without a command. -/
theorem mainLoop_entered_iff (host : Host σ) (history : History) (world : σ) (reads : List Read) :
    (∀ pre, pre <+: reads → (mainLoop host true (.start history world) pre).commandLines =
        (enteredLoop host (.start history world) pre).commandLines) ↔
      ∀ line ∈ endsAfter host (.start history world) reads, clean line = [] :=
  agree_iff host _ _ reads ⟨rfl, rfl, rfl, rfl⟩

def emptyHistory : History := ⟨fun _ => [], 0, 0, 0⟩

theorem processLine_buf (host : Host σ) (s : Shell σ) : (processLine host true s).1.buf = clean s.buf := by
  simp only [processLine]
  split <;> rfl

theorem processLine_a (s : Shell Unit) (line : clean s.buf = ['a']) : (processLine failing true s).2 = true := by
  have plain : expand failing () ['a'] = ['a'] := by simp [expand]
  have ran := chainLoop_joined failing commandA [] true ⟨(), 0, []⟩ (by decide)
  have ended : chainLoop failing ['a'] true ⟨(), 0, []⟩ = some ⟨(), 1, [(['a'], 1)]⟩ := ran
  simp only [processLine, line, plain, ended]

/-- The line `a` and the end of the input: `a` is run twice. -/
theorem mainLoop_runs_again :
    (mainLoop failing true (.start emptyHistory ()) [.byte 'a', .byte '\n', .eof]).commandLines = [['a'], ['a']] ∧
      (enteredLoop failing (.start emptyHistory ()) [.byte 'a', .byte '\n', .eof]).commandLines = [['a']] := by
  have entered : editLine (.start emptyHistory) [.byte 'a', .byte '\n', .eof] =
      some (.newline, ⟨['a'], 1, -1, emptyHistory⟩, [.eof]) := rfl
  let completed : Shell Unit := ⟨['a'], emptyHistory, (), []⟩
  have stays := processLine_a completed (by decide)
  have once : (processLine failing true completed).1.commandLines = [['a']] := processLine_commandLines (by decide)
  have kept : clean (processLine failing true completed).1.buf = ['a'] := by
    rw [processLine_buf]
    decide
  have atEnd (history : History) : editLine (.start history) [.eof] = some (.eof, .start history, []) := rfl
  constructor
  · rw [mainLoop_newline entered]
    show (if (processLine failing true completed).2 then mainLoop failing true (processLine failing true completed).1 [.eof]
      else (processLine failing true completed).1).commandLines = _
    rw [if_pos stays, mainLoop_eof (atEnd _), mainLoop_wait rfl, ite_self]
    have again : clean (processLine failing true completed).1.buf ≠ [] := by simp [kept]
    refine (processLine_commandLines again).trans ?_
    exact congr (congrArg _ once) (congrArg (fun line => [line]) kept)
  · rw [(enteredLoop_newline entered).1]
    show (if (processLine failing true completed).2 then enteredLoop failing (processLine failing true completed).1 [.eof]
      else (processLine failing true completed).1).commandLines = _
    rw [if_pos stays, (enteredLoop_eof (atEnd _)).1, (enteredLoop_wait rfl).1]
    exact once

end Mos.Sh
