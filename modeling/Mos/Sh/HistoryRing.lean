import Mos.Sh.Input
import Mathlib.Data.List.Destutter
import Mathlib.Algebra.GroupWithZero.Nat

namespace Mos.Sh

/-- The character that ends a C string. -/
def nul : Char := Char.ofNat 0

/-- What `history_buf` can hold: a string shorter than a row. -/
structure Fits (cmd : Text) : Prop where
  short : cmd.length < maxCmdLen
  noNul : nul ∉ cmd

namespace History

/-- The command is stored behind the newest one, over the oldest one when the buffer is full. -/
def push (cmd : Text) (h : History) : History :=
  { buf := Function.update h.buf h.tail cmd
    tail := (h.tail + 1) % maxHistory
    count := if h.count < maxHistory then h.count + 1 else h.count
    head := if h.count < maxHistory then h.head else (h.head + 1) % maxHistory }

/-- The ring holds the commands `l`, the oldest one first. -/
structure Ring (h : History) (l : List Text) : Prop where
  count : h.count = l.length
  full : h.count ≤ maxHistory
  head : h.head < maxHistory
  tail : h.tail = (h.head + h.count) % maxHistory
  rows : ∀ i < h.count, l[i]? = some (h.buf ((h.head + i) % maxHistory))

variable {h : History} {l : List Text}

theorem Ring.saved (ring : Ring h l) : h.saved = l := by
  apply List.ext_getElem?
  intro i
  by_cases less : i < h.count
  · simp [History.saved, less, ring.rows i less]
  · rw [List.getElem?_eq_none (by simpa [History.saved] using less),
      List.getElem?_eq_none (by rw [← ring.count]; exact Nat.le_of_not_lt less)]

theorem Ring.row (ring : Ring h l) {back : Nat} (less : back < h.count) :
    h.row back = (h.head + (h.count - 1 - back)) % maxHistory := by
  have head := ring.head
  have full := ring.full
  have tail := ring.tail
  simp only [maxHistory] at head full tail
  unfold History.row
  simp only [maxHistory]
  omega

theorem Ring.newest (ring : Ring h l) {back : Nat} (less : back < h.count) :
    l.reverse[back]? = some (h.buf (h.row back)) := by
  rw [List.getElem?_reverse (by rw [← ring.count]; exact less), ring.row less, ← ring.count]
  exact ring.rows _ (by omega)

theorem Ring.holds_iff (ring : Ring h l) (cmd : Text) : h.holds cmd ↔ l.getLast? = some cmd := by
  unfold History.holds
  by_cases some' : 0 < h.count
  · have last := ring.newest some'
    rw [← List.head?_eq_getElem?, List.head?_reverse] at last
    simp only [some', true_and]
    rw [last]
    exact ⟨fun same => congrArg some same.symm, fun same => (Option.some.inj same).symm⟩
  · have empty : l = [] := List.length_eq_zero_iff.mp (by rw [← ring.count]; omega)
    simp [some', empty]

theorem ring_empty : Ring emptyHistory [] :=
  ⟨rfl, Nat.zero_le _, by decide, rfl, fun i less => absurd less (Nat.not_lt_zero i)⟩

theorem Ring.push (ring : Ring h l) (cmd : Text) : Ring (h.push cmd) ((l ++ [cmd]).rtake maxHistory) := by
  have count := ring.count
  have full := ring.full
  have head := ring.head
  have tail := ring.tail
  have rows := ring.rows
  simp only [maxHistory] at full head tail rows
  by_cases less : h.count < 20
  · have whole : (l ++ [cmd]).rtake maxHistory = l ++ [cmd] := by
      rw [List.rtake, List.length_append, List.length_singleton, maxHistory, Nat.sub_eq_zero_of_le (by omega), List.drop_zero]
    have newCount : (h.push cmd).count = h.count + 1 := if_pos less
    have newHead : (h.push cmd).head = h.head := if_pos less
    rw [whole]
    refine ⟨?_, ?_, ?_, ?_, fun i small => ?_⟩
    · simp [newCount, count]
    · rw [newCount]
      exact less
    · rw [newHead]
      exact head
    · rw [newCount, newHead]
      simp only [History.push, maxHistory]
      omega
    · rw [newCount] at small
      rw [newHead]
      simp only [History.push, maxHistory]
      by_cases last : i = h.count
      · have place : (h.head + i) % 20 = h.tail := by omega
        rw [place, Function.update_self, last, count]
        simp
      · have before : i < h.count := by omega
        have apart : (h.head + i) % 20 ≠ h.tail := by omega
        rw [Function.update_of_ne apart, List.getElem?_append_left (by omega)]
        exact rows i before
  · have twenty : h.count = 20 := by omega
    have cut : (l ++ [cmd]).rtake maxHistory = (l ++ [cmd]).drop 1 := by
      rw [List.rtake, List.length_append, List.length_singleton, maxHistory, ← count, twenty]
    have newCount : (h.push cmd).count = h.count := if_neg less
    have newHead : (h.push cmd).head = (h.head + 1) % 20 := if_neg less
    rw [cut]
    refine ⟨?_, ?_, ?_, ?_, fun i small => ?_⟩
    · simp [newCount, count]
    · rw [newCount]
      exact full
    · rw [newHead]
      exact Nat.mod_lt _ (by decide)
    · rw [newCount, newHead]
      simp only [History.push, maxHistory]
      omega
    · rw [newCount] at small
      rw [newHead, List.getElem?_drop]
      simp only [History.push, maxHistory]
      by_cases last : i = 19
      · have place : ((h.head + 1) % 20 + i) % 20 = h.tail := by omega
        have behind : 1 + i = l.length := by omega
        rw [place, Function.update_self, behind]
        simp
      · have apart : ((h.head + 1) % 20 + i) % 20 ≠ h.tail := by omega
        have same : ((h.head + 1) % 20 + i) % 20 = (h.head + (1 + i)) % 20 := by omega
        rw [Function.update_of_ne apart, List.getElem?_append_left (by omega), same]
        exact rows (1 + i) (by omega)

end History

/-- What `history_add` keeps of a command behind the ones in `l`. -/
def remember (l : List Text) (cmd : Text) : List Text := if cmd = [] ∨ l.getLast? = some cmd then l else l ++ [cmd]

theorem add_push {σ : Type} {h : History} (host : Host σ) (cmd : Text) (world : σ) :
    (h.add host cmd world).1 = if cmd = [] ∨ h.holds cmd then h else h.push cmd := by
  unfold History.add
  split <;> rfl

theorem rtake_rtake_append {α : Type} (l r : List α) (n : Nat) : (l.rtake n ++ r).rtake n = (l ++ r).rtake n := by
  simp only [List.rtake_eq_reverse_take_reverse, List.reverse_append, List.reverse_reverse, List.take_append, List.take_take]
  congr 2
  rw [Nat.min_eq_left (Nat.sub_le n _)]

theorem getLast?_rtake {α : Type} (l : List α) {n : Nat} (pos : 0 < n) : (l.rtake n).getLast? = l.getLast? := by
  rw [List.rtake_eq_reverse_take_reverse, List.getLast?_reverse, List.head?_take, if_neg (by omega), List.head?_reverse]

theorem add_ring {σ : Type} {h : History} {l : List Text} (ring : h.Ring (l.rtake maxHistory)) (host : Host σ) (cmd : Text)
    (world : σ) : (h.add host cmd world).1.Ring ((remember l cmd).rtake maxHistory) := by
  have held : h.holds cmd ↔ l.getLast? = some cmd := by
    rw [ring.holds_iff, getLast?_rtake l (by decide)]
  rw [add_push, remember]
  by_cases ignored : cmd = [] ∨ l.getLast? = some cmd
  · rw [if_pos ignored, if_pos (ignored.imp_right held.mpr)]
    exact ring
  · rw [if_neg ignored, if_neg fun again => ignored (again.imp_right held.mp), ← rtake_rtake_append]
    exact ring.push cmd

/-- One call of `history_add` after another. -/
def addAll {σ : Type} (host : Host σ) (h : History) (world : σ) : List Text → History × σ
  | [] => (h, world)
  | cmd :: cmds => addAll host (h.add host cmd world).1 (h.add host cmd world).2 cmds

theorem addAll_ring {σ : Type} (host : Host σ) (cmds : List Text) {h : History} {l : List Text} (world : σ)
    (ring : h.Ring (l.rtake maxHistory)) :
    (addAll host h world cmds).1.Ring ((cmds.foldl remember l).rtake maxHistory) := by
  induction cmds generalizing h l world with
  | nil => exact ring
  | cons cmd cmds ih => exact ih _ (add_ring ring host cmd world)

theorem remember_after (cmds before : List Text) (last : Text) :
    cmds.foldl remember (before ++ [last]) = before ++ (cmds.filter (· ≠ [])).destutter' (· ≠ ·) last := by
  induction cmds generalizing before last with
  | nil => rfl
  | cons cmd cmds ih =>
    rw [List.foldl_cons, remember, List.getLast?_append, List.getLast?_singleton]
    by_cases empty : cmd = []
    · simpa [empty] using ih before last
    · by_cases same : last = cmd
      · subst same
        simpa [empty, List.destutter'_cons] using ih before last
      · simpa [empty, same, List.destutter'_cons] using ih (before ++ [last]) cmd

/-- What is remembered of a sequence of commands: empty commands and immediate repetitions are removed. -/
theorem remembered (cmds : List Text) : cmds.foldl remember [] = (cmds.filter (· ≠ [])).destutter (· ≠ ·) := by
  induction cmds with
  | nil => rfl
  | cons cmd cmds ih =>
    rw [List.foldl_cons]
    by_cases empty : cmd = []
    · simpa [remember, empty] using ih
    · have first := remember_after cmds [] cmd
      rw [List.nil_append, List.nil_append] at first
      simp only [remember, empty, List.getLast?_nil, reduceCtorEq, or_self, if_false, List.nil_append]
      rw [first, List.filter_cons_of_pos (by simpa using empty), List.destutter_cons']

/-- The file that `history_save` writes. -/
def History.file (h : History) : Text := h.saved.flatMap (· ++ ['\n'])

/-- `sizeof(buf) - 1` in `history_load` -/
def chunkSize : Nat := 1023

/-- `history_load` between two characters: the history and `line_start`. -/
structure Loading where
  history : History
  lineStart : Nat

/-- A line of the chunk ends at `i`. -/
def Loading.newline (chunk : Text) (i : Nat) (s : Loading) : Loading where
  history :=
    if s.lineStart < i then
      s.history.push (((chunk.drop s.lineStart).take (i - s.lineStart)).takeWhile (· ≠ nul))
    else s.history
  lineStart := i + 1

def scanChunk (chunk : Text) (i : Nat) (rest : Text) (s : Loading) : Loading :=
  match rest with
  | [] => s
  | c :: rest => scanChunk chunk (i + 1) rest (if c = '\n' then s.newline chunk i else s)

/-- The loop of `read`: `line_start` is kept from one chunk to the next. -/
def loadFrom (s : Loading) (file : Text) : Loading :=
  if _some : file = [] then s
  else loadFrom (scanChunk (file.take chunkSize) 0 (file.take chunkSize) s) (file.drop chunkSize)
termination_by file.length
decreasing_by
  have pos := List.length_pos_iff.mpr _some
  simp only [List.length_drop, chunkSize]
  omega

/-- `history_load` of a shell whose `history_buf` is `h.buf`. -/
def History.load (h : History) (file : Text) : History := (loadFrom ⟨⟨h.buf, 0, 0, 0⟩, 0⟩ file).history

theorem ring_start (buf : Nat → Text) : History.Ring ⟨buf, 0, 0, 0⟩ [] :=
  ⟨rfl, Nat.zero_le _, Nat.zero_lt_succ _, rfl, fun i less => absurd less (Nat.not_lt_zero i)⟩

theorem scanChunk_plain {chunk t : Text} (plain : '\n' ∉ t) (i : Nat) (rest : Text) (s : Loading) :
    scanChunk chunk i (t ++ rest) s = scanChunk chunk (i + t.length) rest s := by
  induction t generalizing i with
  | nil => rfl
  | cons c t ih =>
    have other : c ≠ '\n' := fun eq => plain (by simp [eq])
    rw [List.cons_append, scanChunk, if_neg other, ih fun mem => plain (List.mem_cons_of_mem c mem), List.length_cons]
    congr 1
    omega

structure IsCommand (cmd : Text) : Prop where
  nonempty : cmd ≠ []
  noNewline : '\n' ∉ cmd
  noNul : nul ∉ cmd

theorem takeWhile_noNul {t : Text} (noNul : nul ∉ t) : t.takeWhile (· ≠ nul) = t := by
  rw [List.takeWhile_eq_self_iff]
  intro c mem
  have other : c ≠ nul := fun eq => noNul (eq ▸ mem)
  simpa using other

theorem scanChunk_lines {cmds : List Text} (each : ∀ cmd ∈ cmds, IsCommand cmd) (chunk before : Text)
    (lies : chunk = before ++ cmds.flatMap (· ++ ['\n'])) {l : List Text} {h : History}
    (ring : h.Ring (l.rtake maxHistory)) :
    (scanChunk chunk before.length (cmds.flatMap (· ++ ['\n'])) ⟨h, before.length⟩).history.Ring
      ((l ++ cmds).rtake maxHistory) := by
  induction cmds generalizing before l h with
  | nil => simpa [scanChunk] using ring
  | cons cmd cmds ih =>
    have isCommand := each cmd List.mem_cons_self
    have pos := List.length_pos_iff.mpr isCommand.nonempty
    have ends : before.length < before.length + cmd.length := by omega
    have line : ((chunk.drop before.length).take (before.length + cmd.length - before.length)).takeWhile (· ≠ nul) = cmd := by
      rw [lies, List.drop_left, List.flatMap_cons, Nat.add_sub_cancel_left, List.append_assoc, List.take_left,
        takeWhile_noNul isCommand.noNul]
    have pushed := ring.push cmd
    rw [rtake_rtake_append] at pushed
    have later := ih (fun c mem => each c (List.mem_cons_of_mem cmd mem)) (before ++ cmd ++ ['\n'])
      (by rw [lies]; simp) pushed
    have length : (before ++ cmd ++ ['\n']).length = before.length + cmd.length + 1 := by simp [Nat.add_assoc]
    rw [length, List.append_assoc, List.singleton_append] at later
    rw [List.flatMap_cons, List.append_assoc, scanChunk_plain isCommand.noNewline, List.cons_append, List.nil_append,
      scanChunk, if_pos rfl, Loading.newline]
    simp only [ends, if_true]
    rw [line]
    exact later

def weight (l : List Text) : Nat := (l.map fun cmd => cmd.length + 1).sum

theorem weight_append (l r : List Text) : weight (l ++ r) = weight l + weight r := by simp [weight]

theorem weight_rtake (l : List Text) (n : Nat) : weight (l.rtake n) ≤ weight l := by
  have parts := weight_append (l.take (l.length - n)) (l.drop (l.length - n))
  rw [List.take_append_drop] at parts
  rw [List.rtake, parts]
  exact Nat.le_add_left _ _

theorem weight_file (h : History) : h.file.length = weight h.saved := by
  simp [History.file, weight, List.length_flatMap]

/-- The commands loaded so far are no longer than the text up to `line_start`, behind the first `base` characters. -/
structure Light (base i : Nat) (s : Loading) (l : List Text) : Prop where
  ring : s.history.Ring l
  read : weight l ≤ base + i
  started : weight l ≤ base + s.lineStart

theorem Light.newline {base i : Nat} {s : Loading} {l : List Text} (light : Light base i s l) (chunk : Text) :
    ∃ l', Light base (i + 1) (s.newline chunk i) l' := by
  have started := light.started
  by_cases long : s.lineStart < i
  · have line : (((chunk.drop s.lineStart).take (i - s.lineStart)).takeWhile (· ≠ nul)).length ≤ i - s.lineStart :=
      (List.takeWhile_prefix _).length_le.trans (List.length_take_le _ _)
    refine ⟨_, ⟨by rw [Loading.newline, if_pos long]; exact light.ring.push _, ?_, ?_⟩⟩
    all_goals
      refine (weight_rtake _ _).trans ?_
      rw [weight_append]
      simp only [weight, List.map_cons, List.map_nil, List.sum_cons, List.sum_nil, Loading.newline] at *
      omega
  · refine ⟨l, ⟨by rw [Loading.newline, if_neg long]; exact light.ring, ?_, ?_⟩⟩
    · exact light.read.trans (by omega)
    · exact light.read.trans (by simp only [Loading.newline]; omega)

theorem Light.scan (base : Nat) (chunk rest : Text) {i : Nat} {s : Loading} {l : List Text} (light : Light base i s l) :
    ∃ l', Light base (i + rest.length) (scanChunk chunk i rest s) l' := by
  induction rest generalizing i s l with
  | nil => exact ⟨l, light⟩
  | cons c rest ih =>
    have length : i + (c :: rest).length = i + 1 + rest.length := by
      rw [List.length_cons]
      omega
    rw [length, scanChunk]
    split
    · obtain ⟨l', light'⟩ := light.newline chunk
      exact ih light'
    · exact ih ⟨light.ring, light.read.trans (by omega), light.started⟩

theorem scan_stale (base : Nat) (chunk rest : Text) {i : Nat} {s : Loading} {l : List Text} (ring : s.history.Ring l)
    (bound : weight l ≤ base + 1) (stale : i + rest.length ≤ s.lineStart) (some' : 0 < i + rest.length) :
    ∃ l', (scanChunk chunk i rest s).history.Ring l' ∧ weight l' ≤ base + (i + rest.length) := by
  induction rest generalizing i with
  | nil => exact ⟨l, ring, bound.trans (by simp at some' ⊢; omega)⟩
  | cons c rest ih =>
    rw [List.length_cons] at stale some' ⊢
    rw [scanChunk]
    split
    · have dropped : s.newline chunk i = ⟨s.history, i + 1⟩ := by
        rw [Loading.newline, if_neg (by omega)]
      obtain ⟨l', light⟩ := Light.scan base chunk rest (i := i + 1) (s := ⟨s.history, i + 1⟩) (l := l)
        ⟨ring, by omega, bound.trans (by simp only; omega)⟩
      rw [dropped]
      exact ⟨l', light.ring, light.read.trans (by omega)⟩
    · obtain ⟨l', ring', less⟩ := ih (i := i + 1) (by omega) (by omega)
      exact ⟨l', ring', less.trans (by omega)⟩

theorem loadFrom_light {w : Nat} {s : Loading} {l : List Text} {file : Text} (ring : s.history.Ring l) (some'' : 0 < w)
    (less : weight l < w ∨ weight l ≤ w ∧ chunkSize ≤ s.lineStart) (some' : file ≠ []) :
    ∃ l', (loadFrom s file).history.Ring l' ∧ weight l' < w + file.length := by
  induction len : file.length using Nat.strongRecOn generalizing w s l file with
  | ind n ih =>
    have pos := List.length_pos_iff.mpr some'
    have cut : (file.take chunkSize).length + (file.drop chunkSize).length = file.length := by
      rw [← List.length_append, List.take_append_drop]
    have size : (file.take chunkSize).length = min chunkSize file.length := List.length_take
    have first : ∃ l', (scanChunk (file.take chunkSize) 0 (file.take chunkSize) s).history.Ring l' ∧
        weight l' < w + (file.take chunkSize).length := by
      rcases less with less | ⟨le, stale⟩
      · obtain ⟨l', light⟩ := Light.scan (w - 1) (file.take chunkSize) (file.take chunkSize) (i := 0) (s := s)
          (l := l) ⟨ring, by omega, by omega⟩
        exact ⟨l', light.ring, Nat.lt_of_le_of_lt light.read (by omega)⟩
      · obtain ⟨l', ring', le'⟩ := scan_stale (w - 1) (file.take chunkSize) (file.take chunkSize) (i := 0) ring
          (by omega) (by omega) (by rw [size]; simp only [chunkSize]; omega)
        exact ⟨l', ring', by omega⟩
    obtain ⟨l', ring', less'⟩ := first
    rw [loadFrom, dif_neg some']
    by_cases last : file.drop chunkSize = []
    · rw [last, loadFrom, dif_pos rfl]
      rw [last, List.length_nil] at cut
      exact ⟨l', ring', by omega⟩
    · have shorter : (file.drop chunkSize).length < n := by
        rw [List.length_drop, chunkSize]
        omega
      obtain ⟨l'', ring'', less''⟩ := ih _ shorter ring' (by omega) (.inl less') last rfl
      exact ⟨l'', ring'', by omega⟩

/-- A history that `history_add` has made of commands that the shell can read. -/
def Made {σ : Type} (host : Host σ) (h : History) : Prop :=
  ∃ cmds world, (∀ cmd ∈ cmds, Fits cmd ∧ '\n' ∉ cmd) ∧ h = (addAll host emptyHistory world cmds).1

theorem Made.saved {σ : Type} {host : Host σ} {h : History} (made : Made host h) :
    h.saved.length ≤ maxHistory ∧ ∀ cmd ∈ h.saved, IsCommand cmd := by
  obtain ⟨cmds, world, each, rfl⟩ := made
  have ring := addAll_ring host cmds (l := []) world (History.ring_empty : emptyHistory.Ring ([].rtake maxHistory))
  rw [ring.saved]
  refine ⟨by rw [← ring.count]; exact ring.full, fun cmd mem => ?_⟩
  have kept : cmd ∈ cmds.foldl remember [] := List.mem_of_mem_drop mem
  rw [remembered] at kept
  obtain ⟨inside, nonempty⟩ := List.mem_filter.mp ((List.destutter_sublist _ _).subset kept)
  exact ⟨by simpa using nonempty, (each cmd inside).2, (each cmd inside).1.noNul⟩

theorem history_lost {h : History} (long : chunkSize < h.file.length) (buf : Nat → Text) :
    (History.load ⟨buf, 0, 0, 0⟩ h.file).saved ≠ h.saved := by
  intro same
  have cut : (h.file.take chunkSize).length = chunkSize := by
    rw [List.length_take]
    omega
  have rest : (h.file.drop chunkSize).length = h.file.length - chunkSize := List.length_drop
  have some' : h.file ≠ [] := fun empty => by simp [empty] at long
  have later : h.file.drop chunkSize ≠ [] := List.ne_nil_of_length_pos (by omega)
  obtain ⟨l, light⟩ := Light.scan 0 (h.file.take chunkSize) (h.file.take chunkSize) (i := 0)
    (s := ⟨⟨buf, 0, 0, 0⟩, 0⟩) (l := []) ⟨ring_start buf, Nat.zero_le _, Nat.zero_le _⟩
  have read := light.read
  have started := light.started
  obtain ⟨l', ring', less⟩ := loadFrom_light (w := chunkSize) light.ring (by decide) (by omega) later
  have loaded : (History.load ⟨buf, 0, 0, 0⟩ h.file).saved = l' := by
    rw [History.load, loadFrom, dif_neg some']
    exact ring'.saved
  rw [loaded] at same
  rw [same, ← weight_file] at less
  omega

theorem saved_file {h : History} (empty : h.file = []) : h.saved = [] := by
  have none' := weight_file h
  rw [empty] at none'
  cases saved : h.saved with
  | nil => rfl
  | cons cmd cmds =>
    have some' : 0 < weight (cmd :: cmds) := by
      rw [weight, List.map_cons, List.sum_cons]
      omega
    rw [saved] at none'
    rw [← none'] at some'
    exact absurd some' (Nat.lt_irrefl 0)

/-- A new shell loads the history that was saved if and only if the file fits into one chunk. -/
theorem history_reloaded {σ : Type} {host : Host σ} {h : History} (made : Made host h) (buf : Nat → Text) :
    (History.load ⟨buf, 0, 0, 0⟩ h.file).saved = h.saved ↔ h.file.length ≤ chunkSize := by
  obtain ⟨few, each⟩ := made.saved
  have start : History.Ring ⟨buf, 0, 0, 0⟩ [] := ring_start buf
  constructor
  · intro same
    by_contra long
    exact history_lost (Nat.lt_of_not_le long) buf same
  · intro short
    have whole : h.file.take chunkSize = h.file := List.take_of_length_le short
    have lines := scanChunk_lines each h.file [] rfl (l := []) (h := ⟨buf, 0, 0, 0⟩) start
    by_cases empty : h.file = []
    · rw [History.load, empty, loadFrom, dif_pos rfl, start.saved, saved_file empty]
    · rw [History.load, loadFrom, dif_neg empty, whole, List.drop_of_length_le short, loadFrom, dif_pos rfl]
      refine lines.saved.trans ?_
      rw [List.nil_append, List.rtake, Nat.sub_eq_zero_of_le few, List.drop_zero]

/-- The commands `ca`, `cb` and so on. -/
def manyCommands : List Text := (List.range 22).map fun n => ['c', Char.ofNat (97 + n)]

/-- Of 22 commands the ring has lost the first two. -/
theorem history_reloaded_a :
    (History.load emptyHistory (addAll failing emptyHistory () manyCommands).1.file).saved = manyCommands.drop 2 := by
  have made : Made failing (addAll failing emptyHistory () manyCommands).1 := by
    have each : ∀ cmd ∈ manyCommands, cmd.length < 1024 ∧ Char.ofNat 0 ∉ cmd ∧ '\n' ∉ cmd := by decide
    refine ⟨manyCommands, (), fun cmd mem => ?_, rfl⟩
    obtain ⟨short, free, line⟩ := each cmd mem
    exact ⟨⟨short, free⟩, line⟩
  have saved : (addAll failing emptyHistory () manyCommands).1.saved = manyCommands.drop 2 := by decide +kernel
  rw [← saved]
  exact (history_reloaded made fun _ => []).mpr (by decide +kernel)

theorem pair_lost {long : Text} (length : long.length = chunkSize) :
    (History.load emptyHistory (addAll failing emptyHistory () [long, ['b']]).1.file).saved ≠
      (addAll failing emptyHistory () [long, ['b']]).1.saved := by
  have ring := addAll_ring failing [long, ['b']] (l := []) () (History.ring_empty : emptyHistory.Ring ([].rtake maxHistory))
  have nonempty : long ≠ [] := by
    rintro rfl
    cases length
  have other : long ≠ ['b'] := by
    rintro rfl
    cases length
  have kept : [long, ['b']].foldl remember [] = [long, ['b']] := by simp [remember, nonempty, other]
  rw [kept] at ring
  have saved : (addAll failing emptyHistory () [long, ['b']]).1.saved = [long, ['b']] := ring.saved
  apply history_lost
  rw [weight_file, saved]
  simp only [weight, List.map_cons, List.map_nil, List.sum_cons, List.sum_nil, length, List.length_singleton]
  omega

theorem history_not_reloaded :
    (∀ cmd ∈ [List.replicate 1023 'a', ['b']], Fits cmd ∧ '\n' ∉ cmd) ∧
      (History.load emptyHistory (addAll failing emptyHistory () [List.replicate 1023 'a', ['b']]).1.file).saved ≠
        (addAll failing emptyHistory () [List.replicate 1023 'a', ['b']]).1.saved := by
  refine ⟨fun cmd mem => ?_, pair_lost List.length_replicate⟩
  rcases List.mem_cons.mp mem with rfl | mem
  · refine ⟨⟨by rw [List.length_replicate]; decide, ?_⟩, ?_⟩
    · rw [List.mem_replicate]
      exact fun mem => absurd mem.2 (by decide)
    · rw [List.mem_replicate]
      exact fun mem => absurd mem.2 (by decide)
  · obtain rfl := List.mem_singleton.mp mem
    exact ⟨⟨by decide, by decide⟩, by decide⟩

end Mos.Sh
