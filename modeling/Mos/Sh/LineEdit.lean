import Mos.Sh.HistoryRing
import Mos.Lib.CString
import Mos.Lib.Editing

namespace Mos.Sh

open CStr Editing

/-- `local_buf`, `len`, `cursor_pos` and `history_nav_pos` of `readline_advanced`, and the history. -/
structure Readline where
  localBuf : Nat → Char
  len : Nat
  cursorPos : Nat
  navPos : Int
  history : History

def isBlank (c : Char) : Bool := (strchr " \t".toList c).isSome

/-- A loop that moves a position to the left as long as the character there satisfies `p`. -/
def skipBack (p : Char → Bool) (b : Nat → Char) : Nat → Nat
  | 0 => 0
  | n + 1 => if p (b n) then skipBack p b n else n + 1

namespace Readline

def start (localBuf : Nat → Char) (history : History) : Readline := ⟨Function.update localBuf 0 nul, 0, 0, -1, history⟩

def backspace (l : Readline) : Readline :=
  if 0 < l.cursorPos then
    { l with
      localBuf := memmove l.localBuf (l.cursorPos - 1) l.cursorPos (l.len - l.cursorPos + 1)
      cursorPos := l.cursorPos - 1
      len := l.len - 1 }
  else l

def killRight (l : Readline) : Readline :=
  { l with localBuf := Function.update l.localBuf l.cursorPos nul, len := l.cursorPos }

def killLeft (l : Readline) : Readline :=
  if 0 < l.cursorPos then
    { l with
      localBuf := memmove l.localBuf 0 l.cursorPos (l.len - l.cursorPos + 1)
      len := l.len - l.cursorPos
      cursorPos := 0 }
  else l

def killWord (l : Readline) : Readline :=
  if 0 < l.cursorPos then
    let startPos := skipBack (fun c => !isBlank c) l.localBuf (skipBack isBlank l.localBuf l.cursorPos)
    if startPos < l.cursorPos then
      { l with
        localBuf := memmove l.localBuf startPos l.cursorPos (l.len - l.cursorPos + 1)
        len := l.len - (l.cursorPos - startPos)
        cursorPos := startPos }
    else l
  else l

def insert (l : Readline) (c : Char) : Readline :=
  if l.len < maxCmdLen - 1 ∧ 32 ≤ c.toNat ∧ c.toNat < 127 then
    { l with
      localBuf :=
        Function.update (memmove l.localBuf (l.cursorPos + 1) l.cursorPos (l.len - l.cursorPos + 1)) l.cursorPos c
      len := l.len + 1
      cursorPos := l.cursorPos + 1 }
  else l

/-- The cases of the `switch` that neither return nor read. -/
def key (l : Readline) (c : Char) : Readline :=
  match c.toNat with
  | 0x08 => l.backspace
  | 0x7f => l.backspace
  | 0x01 => { l with cursorPos := 0 }
  | 0x05 => { l with cursorPos := l.len }
  | 0x0b => l.killRight
  | 0x15 => l.killLeft
  | 0x17 => l.killWord
  | _ => l.insert c

/-- `strcpy` of a row to `local_buf`, with the cursor behind it. -/
def show' (l : Readline) (row : Text) : Readline :=
  let buf := strcpy nul l.localBuf 0 row
  let len := (strAt nul buf 0 maxCmdLen).length
  { l with localBuf := buf, len := len, cursorPos := len }

def up (l : Readline) : Readline :=
  if l.navPos < l.history.count - 1 then
    let line := strAt nul l.localBuf 0 maxCmdLen
    let buf := if l.navPos = -1 then Function.update l.history.buf maxHistory line else l.history.buf
    let l : Readline := { l with history := { l.history with buf := buf }, navPos := l.navPos + 1 }
    l.show' (l.history.buf (l.history.row l.navPos))
  else l

def down (l : Readline) : Readline :=
  if -1 < l.navPos then
    let l : Readline := { l with navPos := l.navPos - 1 }
    l.show' (if l.navPos = -1 then l.history.buf maxHistory else l.history.buf (l.history.row l.navPos))
  else l

def arrow (l : Readline) (c : Char) : Readline :=
  if c = 'A' then l.up
  else if c = 'B' then l.down
  else if c = 'C' then if l.cursorPos < l.len then { l with cursorPos := l.cursorPos + 1 } else l
  else if c = 'D' then if 0 < l.cursorPos then { l with cursorPos := l.cursorPos - 1 } else l
  else l

end Readline

/-- Which of its reads the loop is at: the one at its head, the one behind an escape or the one behind a bracket. -/
inductive Mode where
  | key
  | escape
  | bracket
deriving DecidableEq

structure Session where
  line : Readline
  mode : Mode

/-- What `readline_advanced` returns, the array it was given and the history. -/
structure Returned where
  r : Int
  buf : Nat → Char
  history : History

def esc : Char := Char.ofNat 0x1b

namespace Session

def start (localBuf : Nat → Char) (history : History) : Session := ⟨.start localBuf history, .key⟩

def read (size : Nat) (buf : Nat → Char) (s : Session) (r : Read) : Session ⊕ Returned :=
  match s.mode with
  | .key =>
    match r with
    | .error => .inr ⟨-1, buf, s.line.history⟩
    | .eof => .inr ⟨0, buf, s.line.history⟩
    | .byte c =>
      if isNewline c then
        .inr ⟨s.line.len, Function.update (strncpy nul buf s.line.localBuf 0 (size - 1)) (size - 1) nul, s.line.history⟩
      else if c = esc then .inl { s with mode := .escape }
      else .inl { s with line := s.line.key c }
  | .escape => .inl { s with mode := if r.store esc = '[' then .bracket else .key }
  | .bracket => .inl ⟨s.line.arrow (r.store '['), .key⟩

def run (size : Nat) (buf : Nat → Char) (s : Session) : List Read → Session ⊕ Returned
  | [] => .inl s
  | r :: reads =>
    match s.read size buf r with
    | .inl s => run size buf s reads
    | .inr returned => .inr returned

end Session

/-- The editing command of a byte, unless it is a control byte that has none. -/
def keyOf (c : Char) : Option (Key Char) :=
  match c.toNat with
  | 0x08 => some (.edit .erase)
  | 0x7f => some (.edit .erase)
  | 0x01 => some (.edit .home)
  | 0x05 => some (.edit .last)
  | 0x0b => some (.edit .cutRight)
  | 0x15 => some (.edit .cutLeft)
  | 0x17 => some (.edit .cutWord)
  | n => if 32 ≤ n ∧ n < 127 then some (.edit (.type c)) else none

def arrowOf (c : Char) : Option (Key Char) :=
  if c = 'A' then some .older
  else if c = 'B' then some .newer
  else if c = 'C' then some (.edit .forward)
  else if c = 'D' then some (.edit .back)
  else none

def keys : Mode → List Read → List (Key Char)
  | _, [] => []
  | .key, .byte c :: reads => if c = esc then keys .escape reads else (keyOf c).toList ++ keys .key reads
  | .key, _ :: reads => keys .key reads
  | .escape, r :: reads => keys (if r.store esc = '[' then .bracket else .key) reads
  | .bracket, r :: reads => (arrowOf (r.store '[')).toList ++ keys .key reads

/-- At the head of the loop the input has neither a line end nor the end of the input or an error. -/
def editing : Mode → List Read → Bool
  | _, [] => true
  | .key, .byte c :: reads => !isNewline c && editing (if c = esc then .escape else .key) reads
  | .key, .eof :: _ => false
  | .key, .error :: _ => false
  | .escape, r :: reads => editing (if r.store esc = '[' then .bracket else .key) reads
  | .bracket, _ :: reads => editing .key reads

/-- The editor shows the draft: `entries` are the commands of the history, the newest one first. -/
structure Views (e : Editor) (entries : List Text) (d : Draft Char) : Prop where
  text : e.localBuf = d.cursor.text
  cursor : e.cursorPos = d.cursor.left.length
  fits : Fits d.cursor.text
  nav : e.navPos = d.back - 1
  back : d.back ≤ entries.length
  ring : e.history.Ring entries.reverse
  rows : ∀ row ∈ entries, Fits row
  draft : 0 < d.back → e.history.buf maxHistory = d.draft ∧ Fits d.draft

def blank (c : Char) : Bool := c == ' ' || c == '\t'

theorem History.Ring.setDraft {h : History} {l : List Text} (ring : h.Ring l) (line : Text) :
    History.Ring { h with buf := Function.update h.buf maxHistory line } l := by
  refine ⟨ring.count, ring.full, ring.head, ring.tail, fun i less => ?_⟩
  have apart : (h.head + i) % maxHistory ≠ maxHistory := Nat.ne_of_lt (Nat.mod_lt _ (by decide))
  simp only [Function.update_of_ne apart]
  exact ring.rows i less

abbrev drafted (entries : List Text) (d : Draft Char) (k : Key Char) : Draft Char := d.key (maxCmdLen - 1) blank entries k

theorem Fits.sublist {t t' : Text} (fits : Fits t) (part : t'.Sublist t) : Fits t' :=
  ⟨Nat.lt_of_le_of_lt part.length_le fits.short, fun mem => fits.noNul (part.subset mem)⟩

theorem isBlank_eq : isBlank = blank := by
  funext c
  by_cases space : ' ' = c
  · subst space
    rfl
  · by_cases tab : '\t' = c
    · subst tab
      rfl
    · simp [isBlank, blank, strchr, space, tab, Ne.symm space, Ne.symm tab]

namespace Views

variable {e : Editor} {entries : List Text} {d : Draft Char}

theorem count (views : Views e entries d) : e.history.count = entries.length := by
  rw [views.ring.count, List.length_reverse]

theorem take (views : Views e entries d) : e.localBuf.take e.cursorPos = d.cursor.left := by
  rw [views.text, views.cursor, Cursor.text, List.take_left]

theorem drop (views : Views e entries d) : e.localBuf.drop e.cursorPos = d.cursor.right := by
  rw [views.text, views.cursor, Cursor.text, List.drop_left]

theorem line (views : Views e entries d) {c : Cursor Char} {t : Text} {n : Nat} (text : t = c.text)
    (cursor : n = c.left.length) (fits : Fits c.text) :
    Views { e with localBuf := t, cursorPos := n } entries { d with cursor := c } :=
  ⟨text, cursor, fits, views.nav, views.back, views.ring, views.rows, views.draft⟩

theorem shorter (views : Views e entries d) {c : Cursor Char} {t : Text} {n : Nat} (text : t = c.text)
    (cursor : n = c.left.length) (part : c.text.Sublist d.cursor.text) :
    Views { e with localBuf := t, cursorPos := n } entries { d with cursor := c } :=
  views.line text cursor (views.fits.sublist part)

theorem backspace (views : Views e entries d) : Views e.backspace entries (drafted entries d (.edit .erase)) := by
  have text : e.localBuf.take (e.cursorPos - 1) = d.cursor.left.dropLast := by
    rw [List.dropLast_eq_take, ← views.take, List.take_take, views.take, ← views.cursor, Nat.min_eq_left (Nat.sub_le _ 1)]
  unfold Editor.backspace
  split
  · refine views.shorter ?_ ?_ ((List.dropLast_sublist _).append_right _)
    · rw [text, views.drop]
      rfl
    · rw [views.cursor]
      exact List.length_dropLast.symm
  · have none' : d.cursor.left = [] := List.length_eq_zero_iff.mp (by rw [← views.cursor]; omega)
    have same : drafted entries d (.edit .erase) = d := by
      obtain ⟨⟨left, right⟩, back, draft⟩ := d
      cases none'
      rfl
    rw [same]
    exact views

theorem killWord (views : Views e entries d) : Views e.killWord entries (drafted entries d (.edit .cutWord)) := by
  let left := ((e.localBuf.take e.cursorPos).rdropWhile isBlank).rdropWhile fun c => !isBlank c
  have cases' : e.killWord =
      if left.length < e.cursorPos then
        { e with localBuf := left ++ e.localBuf.drop e.cursorPos, cursorPos := left.length }
      else e := rfl
  have word : d.cursor.edit (maxCmdLen - 1) blank .cutWord = ⟨left, d.cursor.right⟩ := by
    simp only [left, isBlank_eq, views.take]
    rfl
  have part : left <+: d.cursor.left := by
    rw [← views.take]
    exact (List.rdropWhile_prefix _ _).trans (List.rdropWhile_prefix _ _)
  show Views e.killWord entries { d with cursor := d.cursor.edit (maxCmdLen - 1) blank .cutWord }
  rw [cases', word]
  split
  · refine views.shorter ?_ rfl (part.sublist.append_right _)
    rw [views.drop]
    rfl
  · have same : left = d.cursor.left := part.eq_of_length_le (by rw [← views.cursor]; omega)
    rw [same]
    exact views

theorem insert (views : Views e entries d) {c : Char} (printable : 32 ≤ c.toNat ∧ c.toNat < 127) :
    Views (e.insert c) entries (drafted entries d (.edit (.type c))) := by
  have length : d.cursor.text.length = e.localBuf.length := by rw [views.text]
  show Views (e.insert c) entries { d with cursor := if d.cursor.text.length < maxCmdLen - 1 then _ else _ }
  unfold Editor.insert
  rw [length]
  simp only [printable, and_true]
  split
  · rename_i room
    refine views.line ?_ ?_ ⟨?_, ?_⟩
    · rw [views.take, views.drop]
      simp [Cursor.text]
    · simp [views.cursor]
    · rw [← length] at room
      simp only [Cursor.text, List.length_append, List.length_singleton] at room ⊢
      omega
    · intro mem
      simp only [Cursor.text, List.append_assoc, List.mem_append, List.mem_singleton] at mem
      rcases mem with left | rfl | right
      · exact views.fits.noNul (List.mem_append_left _ left)
      · exact absurd printable.1 (by decide)
      · exact views.fits.noNul (List.mem_append_right _ right)
  · exact views

theorem key (views : Views e entries d) (c : Char) :
    Views (e.key c) entries ((keyOf c).toList.foldl (drafted entries) d) := by
  unfold Editor.key
  split
  · rename_i code
    rw [keyOf, code]
    exact views.backspace
  · rename_i code
    rw [keyOf, code]
    exact views.backspace
  · rename_i code
    rw [keyOf, code]
    exact views.shorter views.text rfl (List.Sublist.refl d.cursor.text)
  · rename_i code
    rw [keyOf, code]
    have whole : d.cursor.text = (⟨d.cursor.text, []⟩ : Cursor Char).text := (List.append_nil _).symm
    exact views.shorter (views.text.trans whole) (congrArg List.length views.text) (whole ▸ List.Sublist.refl _)
  · rename_i code
    rw [keyOf, code]
    have cut : d.cursor.left = (⟨d.cursor.left, []⟩ : Cursor Char).text := (List.append_nil _).symm
    exact views.shorter (views.take.trans cut) views.cursor (cut ▸ List.sublist_append_left _ _)
  · rename_i code
    rw [keyOf, code]
    exact views.shorter views.drop rfl (List.sublist_append_right d.cursor.left d.cursor.right)
  · rename_i code
    rw [keyOf, code]
    exact views.killWord
  · have typed : keyOf c = if 32 ≤ c.toNat ∧ c.toNat < 127 then some (.edit (.type c)) else none := by
      unfold keyOf
      split <;> first | contradiction | rfl
    rw [typed]
    split
    · rename_i printable
      exact views.insert printable
    · rename_i control
      have same : e.insert c = e := if_neg fun all => control all.2
      rw [same]
      exact views

theorem visit (views : Views e entries d) {h : History} (ring : h.Ring entries.reverse) {n : Nat}
    (le : n ≤ entries.length) {line : Text} (fits : Fits line) (kept : h.buf maxHistory = line) {nav : Int}
    (place : nav = n - 1) {shown : Text} (row : shown = if nav = -1 then h.buf maxHistory else h.buf (h.row nav)) :
    Views ⟨shown, shown.length, nav, h⟩ entries (Draft.visit entries line n) := by
  have found : shown = Draft.shown entries line n ∧ Fits shown := by
    cases n with
    | zero =>
      rw [row, if_pos (by omega), kept]
      exact ⟨rfl, fits⟩
    | succ n =>
      have back : nav = n := by omega
      have newest := ring.newest (show n < h.count by rw [ring.count, List.length_reverse]; omega)
      rw [List.reverse_reverse] at newest
      rw [row, if_neg (by omega), back, Draft.shown, List.getD_eq_getElem?_getD, newest]
      exact ⟨rfl, views.rows _ (List.mem_of_getElem? newest)⟩
  have text : shown = (Draft.visit entries line n).cursor.text := found.1.trans (List.append_nil _).symm
  exact ⟨text, congrArg List.length found.1, text ▸ found.2, place, le, ring, views.rows, fun _ => ⟨kept, fits⟩⟩

theorem up (views : Views e entries d) : Views e.up entries (drafted entries d .older) := by
  have nav := views.nav
  have count := views.count
  show Views e.up entries (d.older entries)
  unfold Editor.up Draft.older
  by_cases less : d.back < entries.length
  · have place : e.navPos + 1 = ((d.back + 1 : Nat) : Int) - 1 := by omega
    have behind : e.navPos + 1 ≠ -1 := by omega
    rw [if_pos (by omega), if_pos less]
    by_cases own : d.back = 0
    · have kept : Function.update e.history.buf maxHistory e.localBuf maxHistory = d.cursor.text := by
        rw [Function.update_self, views.text]
      rw [if_pos own, if_pos (by omega)]
      exact views.visit (views.ring.setDraft e.localBuf) (Nat.succ_le_of_lt less) views.fits kept place
        (if_neg behind).symm
    · obtain ⟨kept, fits⟩ := views.draft (Nat.pos_of_ne_zero own)
      rw [if_neg own, if_neg (by omega)]
      exact views.visit views.ring (Nat.succ_le_of_lt less) fits kept place (if_neg behind).symm
  · rw [if_neg (by omega), if_neg less]
    exact views

theorem down (views : Views e entries d) : Views e.down entries (drafted entries d .newer) := by
  have nav := views.nav
  have back := views.back
  show Views e.down entries (d.newer entries)
  unfold Editor.down Draft.newer
  by_cases some' : 0 < d.back
  · obtain ⟨kept, fits⟩ := views.draft some'
    rw [if_pos (by omega), if_pos some']
    exact views.visit views.ring (by omega) fits kept (by simp only; omega) rfl
  · rw [if_neg (by omega), if_neg some']
    exact views

theorem forward (views : Views e entries d) :
    Views { e with cursorPos := if e.cursorPos < e.localBuf.length then e.cursorPos + 1 else e.cursorPos } entries
      (drafted entries d (.edit .forward)) := by
  have length : e.localBuf.length = d.cursor.left.length + d.cursor.right.length := by
    rw [views.text, Cursor.text, List.length_append]
  have same := forward_text (maxCmdLen - 1) blank d.cursor
  refine views.line (views.text.trans same.symm) ?_ (same ▸ views.fits)
  rw [length, views.cursor]
  cases right : d.cursor.right <;> simp [Cursor.edit, right]

theorem back' (views : Views e entries d) :
    Views { e with cursorPos := e.cursorPos - 1 } entries (drafted entries d (.edit .back)) := by
  have same := back_text (maxCmdLen - 1) blank d.cursor
  refine views.line (views.text.trans same.symm) ?_ (same ▸ views.fits)
  rw [views.cursor, Cursor.edit, List.length_dropLast]

theorem arrow (views : Views e entries d) (c : Char) :
    Views (e.arrow c) entries ((arrowOf c).toList.foldl (drafted entries) d) := by
  unfold Editor.arrow arrowOf
  split
  · exact views.up
  · split
    · exact views.down
    · split
      · exact views.forward
      · split
        · exact views.back'
        · exact views

end Views

/-- The arrays and indices of `readline_advanced` hold what the editor has. -/
structure Holds (l : Readline) (e : Editor) : Prop where
  text : At nul l.localBuf 0 e.localBuf
  len : l.len = e.localBuf.length
  cursor : l.cursorPos = e.cursorPos
  nav : l.navPos = e.navPos
  history : l.history = e.history

namespace Holds

variable {l : Readline} {e : Editor}

theorem delete (holds : Holds l e) {a : Nat} (le : a ≤ e.cursorPos) (inside : e.cursorPos ≤ e.localBuf.length) :
    Holds
      { l with
        localBuf := memmove l.localBuf a l.cursorPos (l.len - l.cursorPos + 1), len := l.len - (l.cursorPos - a),
        cursorPos := a }
      { e with localBuf := e.localBuf.take a ++ e.localBuf.drop e.cursorPos, cursorPos := a } := by
  refine ⟨?_, ?_, rfl, holds.nav, holds.history⟩
  · have cut := holds.text.delete le inside
    rw [Nat.zero_add, Nat.zero_add] at cut
    rw [holds.len, holds.cursor]
    exact cut
  · simp only [List.length_append, List.length_take, List.length_drop, holds.len, holds.cursor]
    omega

theorem skipBack (holds : Holds l e) (p : Char → Bool) {n : Nat} (inside : n ≤ e.localBuf.length) :
    e.localBuf.take (Sh.skipBack p l.localBuf n) = (e.localBuf.take n).rdropWhile p ∧ Sh.skipBack p l.localBuf n ≤ n := by
  induction n with
  | zero => exact ⟨rfl, Nat.le_refl 0⟩
  | succ n ih =>
    have found := holds.text.get (show n < e.localBuf.length by omega)
    rw [Nat.zero_add] at found
    have last : e.localBuf.take (n + 1) = e.localBuf.take n ++ [l.localBuf n] := by
      rw [List.take_add_one, found, Option.toList_some]
    rw [Sh.skipBack, last]
    split
    · rename_i skips
      obtain ⟨same, le⟩ := ih (by omega)
      rw [List.rdropWhile_concat_pos _ _ _ skips]
      exact ⟨same, le.trans (Nat.le_succ n)⟩
    · rename_i stays
      rw [List.rdropWhile_concat_neg _ _ _ stays]
      exact ⟨last, Nat.le_refl _⟩

theorem backspace (holds : Holds l e) (inside : e.cursorPos ≤ e.localBuf.length) : Holds l.backspace e.backspace := by
  unfold Readline.backspace Editor.backspace
  rw [holds.cursor]
  split
  · have cut := holds.delete (Nat.sub_le e.cursorPos 1) inside
    rw [holds.cursor, Nat.sub_sub_self (by omega)] at cut
    exact cut
  · exact holds

theorem killWord (holds : Holds l e) (inside : e.cursorPos ≤ e.localBuf.length) : Holds l.killWord e.killWord := by
  have blanks := holds.skipBack isBlank inside
  have word := holds.skipBack (fun c => !isBlank c) (blanks.2.trans inside)
  have le := word.2.trans blanks.2
  rw [← holds.cursor] at blanks word le
  let left := ((e.localBuf.take e.cursorPos).rdropWhile isBlank).rdropWhile fun c => !isBlank c
  let startPos := Sh.skipBack (fun c => !isBlank c) l.localBuf (Sh.skipBack isBlank l.localBuf l.cursorPos)
  have same : left = e.localBuf.take startPos := by rw [word.1, blanks.1, holds.cursor]
  have length : left.length = startPos := by
    rw [same]
    exact List.length_take_of_le (le.trans (holds.cursor ▸ inside))
  have arrays : l.killWord =
      if 0 < l.cursorPos then
        if startPos < l.cursorPos then
          { l with
            localBuf := memmove l.localBuf startPos l.cursorPos (l.len - l.cursorPos + 1)
            len := l.len - (l.cursorPos - startPos)
            cursorPos := startPos }
        else l
      else l := rfl
  have texts : e.killWord =
      if left.length < e.cursorPos then
        { e with localBuf := left ++ e.localBuf.drop e.cursorPos, cursorPos := left.length }
      else e := rfl
  rw [arrays, texts, length, same, ← holds.cursor]
  by_cases moved : startPos < l.cursorPos
  · have cut := holds.delete (holds.cursor ▸ le) inside
    rw [← holds.cursor] at cut
    rw [if_pos moved, if_pos moved, if_pos (by omega)]
    exact cut
  · rw [if_neg moved, if_neg moved, ite_self]
    exact holds

theorem killLeft (holds : Holds l e) (inside : e.cursorPos ≤ e.localBuf.length) :
    Holds l.killLeft { e with localBuf := e.localBuf.drop e.cursorPos, cursorPos := 0 } := by
  unfold Readline.killLeft
  rw [holds.cursor]
  split
  · have cut := holds.delete (Nat.zero_le e.cursorPos) inside
    rw [holds.cursor] at cut
    exact cut
  · have zero : e.cursorPos = 0 := by omega
    rw [zero]
    exact ⟨holds.text, holds.len, holds.cursor.trans zero, holds.nav, holds.history⟩

theorem killRight (holds : Holds l e) (inside : e.cursorPos ≤ e.localBuf.length) :
    Holds l.killRight { e with localBuf := e.localBuf.take e.cursorPos } := by
  have cut := holds.text.cut inside
  rw [Nat.zero_add] at cut
  refine ⟨?_, ?_, holds.cursor, holds.nav, holds.history⟩
  · rw [Readline.killRight, holds.cursor]
    exact cut
  · rw [Readline.killRight, holds.cursor]
    exact (List.length_take_of_le inside).symm

theorem insert (holds : Holds l e) (inside : e.cursorPos ≤ e.localBuf.length) (c : Char) :
    Holds (l.insert c) (e.insert c) := by
  unfold Readline.insert Editor.insert
  rw [holds.len, holds.cursor]
  split
  · rename_i printable
    refine ⟨?_, ?_, rfl, holds.nav, holds.history⟩
    · have nonzero : c ≠ nul := by
        rintro rfl
        exact absurd printable.2.1 (by decide)
      have put := holds.text.insert inside nonzero
      rw [Nat.zero_add] at put
      exact put
    · simp only [List.length_append, List.length_take, List.length_cons, List.length_drop]
      omega
  · exact holds

theorem key (holds : Holds l e) (inside : e.cursorPos ≤ e.localBuf.length) (c : Char) : Holds (l.key c) (e.key c) := by
  unfold Readline.key
  split
  · rename_i code
    rw [Editor.key, code]
    exact holds.backspace inside
  · rename_i code
    rw [Editor.key, code]
    exact holds.backspace inside
  · rename_i code
    rw [Editor.key, code]
    exact ⟨holds.text, holds.len, rfl, holds.nav, holds.history⟩
  · rename_i code
    rw [Editor.key, code]
    exact ⟨holds.text, holds.len, holds.len, holds.nav, holds.history⟩
  · rename_i code
    rw [Editor.key, code]
    exact holds.killRight inside
  · rename_i code
    rw [Editor.key, code]
    exact holds.killLeft inside
  · rename_i code
    rw [Editor.key, code]
    exact holds.killWord inside
  · have typed : e.key c = e.insert c := by
      unfold Editor.key
      split <;> first | contradiction | rfl
    rw [typed]
    exact holds.insert inside c

theorem show' (holds : Holds l e) {row : Text} (fits : Fits row) : Holds (l.show' row) (e.show' row) := by
  have copied : At nul (strcpy nul l.localBuf 0 row) 0 row := strcpy_at nul fits.noNul
  have length := strAt_eq nul copied (Nat.le_of_lt fits.short)
  exact ⟨copied, congrArg List.length length, congrArg List.length length, holds.nav, holds.history⟩

theorem up {entries : List Text} {d : Draft Char} (holds : Holds l e) (views : Views e entries d) : Holds l.up e.up := by
  have line : strAt nul l.localBuf 0 maxCmdLen = e.localBuf := by
    refine strAt_eq nul holds.text ?_
    rw [views.text]
    exact Nat.le_of_lt views.fits.short
  have shown := views.up
  unfold Readline.up
  rw [holds.nav, holds.history, line]
  unfold Editor.up at shown ⊢
  split at shown <;> rename_i less
  · rw [if_pos less, if_pos less]
    have fits : Fits (Editor.show' _ _).localBuf := shown.text ▸ shown.fits
    let h : History :=
      { e.history with
        buf := if e.navPos = -1 then Function.update e.history.buf maxHistory e.localBuf else e.history.buf }
    have before : Holds { l with history := h, navPos := e.navPos + 1 } { e with history := h, navPos := e.navPos + 1 } :=
      ⟨holds.text, holds.len, holds.cursor, rfl, rfl⟩
    exact before.show' fits
  · rw [if_neg less, if_neg less]
    exact holds

theorem down {entries : List Text} {d : Draft Char} (holds : Holds l e) (views : Views e entries d) : Holds l.down e.down := by
  have shown := views.down
  unfold Readline.down
  rw [holds.nav, holds.history]
  unfold Editor.down at shown ⊢
  split at shown <;> rename_i less
  · rw [if_pos less, if_pos less]
    have fits : Fits (Editor.show' _ _).localBuf := shown.text ▸ shown.fits
    have before : Holds { l with history := e.history, navPos := e.navPos - 1 } { e with navPos := e.navPos - 1 } :=
      ⟨holds.text, holds.len, holds.cursor, rfl, rfl⟩
    exact before.show' fits
  · rw [if_neg less, if_neg less]
    exact holds

theorem arrow {entries : List Text} {d : Draft Char} (holds : Holds l e) (views : Views e entries d) (c : Char) :
    Holds (l.arrow c) (e.arrow c) := by
  unfold Readline.arrow Editor.arrow
  split
  · exact holds.up views
  · split
    · exact holds.down views
    · split
      · rw [holds.cursor, holds.len]
        split
        · exact ⟨holds.text, rfl, rfl, holds.nav, holds.history⟩
        · exact holds
      · split
        · rw [holds.cursor]
          split
          · exact ⟨holds.text, holds.len, rfl, holds.nav, holds.history⟩
          · exact ⟨holds.text, holds.len, by simp only [holds.cursor]; omega, holds.nav, holds.history⟩
        · exact holds

end Holds

/-- The arrays and indices of `readline_advanced` are those of an editor that shows the draft. -/
def Shows (l : Readline) (entries : List Text) (d : Draft Char) : Prop := ∃ e, Holds l e ∧ Views e entries d

namespace Shows

variable {l : Readline} {entries : List Text} {d : Draft Char}

theorem start {h : History} (localBuf : Nat → Char) (ring : h.Ring entries.reverse) (rows : ∀ row ∈ entries, Fits row) :
    Shows (.start localBuf h) entries .start := by
  have empty : At nul (Function.update localBuf 0 nul) 0 [] := at_nil (Function.update_self _ _ _)
  refine ⟨.start h, ⟨empty, rfl, rfl, rfl, rfl⟩, rfl, rfl, ⟨by decide, List.not_mem_nil⟩, rfl, Nat.zero_le _, ring, rows, ?_⟩
  exact fun some' => absurd some' (Nat.lt_irrefl 0)

theorem key (shows' : Shows l entries d) (c : Char) :
    Shows (l.key c) entries ((keyOf c).toList.foldl (drafted entries) d) := by
  obtain ⟨e, holds, views⟩ := shows'
  have inside : e.cursorPos ≤ e.localBuf.length := by
    rw [views.cursor, views.text, Cursor.text, List.length_append]
    exact Nat.le_add_right _ _
  exact ⟨e.key c, holds.key inside c, views.key c⟩

theorem arrow (shows' : Shows l entries d) (c : Char) :
    Shows (l.arrow c) entries ((arrowOf c).toList.foldl (drafted entries) d) := by
  obtain ⟨e, holds, views⟩ := shows'
  exact ⟨e.arrow c, holds.arrow views c, views.arrow c⟩

theorem text (shows' : Shows l entries d) : At nul l.localBuf 0 d.cursor.text := by
  obtain ⟨e, holds, views⟩ := shows'
  exact views.text ▸ holds.text

theorem ring (shows' : Shows l entries d) : l.history.Ring entries.reverse := by
  obtain ⟨e, holds, views⟩ := shows'
  exact holds.history ▸ views.ring

theorem nav (shows' : Shows l entries d) : l.navPos = d.back - 1 := by
  obtain ⟨e, holds, views⟩ := shows'
  exact holds.nav.trans views.nav

end Shows

section Run

variable {size : Nat} {buf : Nat → Char} {s s' : Session} {entries : List Text} {d : Draft Char}

theorem read_shows {r : Read} (goes : s.read size buf r = .inl s') (shows' : Shows s.line entries d) :
    ∃ d', Shows s'.line entries d' ∧
      ∀ reads, (keys s.mode (r :: reads)).foldl (drafted entries) d = (keys s'.mode reads).foldl (drafted entries) d' := by
  obtain ⟨l, mode⟩ := s
  cases mode with
  | key =>
    cases r with
    | error => cases goes
    | eof => cases goes
    | byte c =>
      dsimp only [Session.read] at goes
      split at goes
      · cases goes
      · split at goes <;> rename_i escape <;> cases goes
        · exact ⟨d, shows', fun reads => by rw [keys, if_pos escape]⟩
        · exact ⟨_, shows'.key c, fun reads => by rw [keys, if_neg escape, List.foldl_append]⟩
  | escape =>
    cases goes
    exact ⟨d, shows', fun reads => by rw [keys]⟩
  | bracket =>
    cases goes
    exact ⟨_, shows'.arrow _, fun reads => by rw [keys, List.foldl_append]⟩

theorem run_editing (size : Nat) (buf : Nat → Char) (s : Session) (reads : List Read) :
    (s.run size buf reads).isLeft = editing s.mode reads := by
  induction reads generalizing s with
  | nil =>
    cases s.mode <;> rfl
  | cons r reads ih =>
    obtain ⟨l, mode⟩ := s
    rw [Session.run]
    cases mode with
    | key =>
      cases r with
      | error => rfl
      | eof => rfl
      | byte c =>
        rw [editing]
        cases newline : isNewline c with
        | true => simp [Session.read, newline]
        | false =>
          simp only [Session.read, newline, Bool.false_eq_true, if_false, Bool.not_false, Bool.true_and]
          by_cases escape : c = esc
          · simpa only [if_pos escape] using ih ⟨l, .escape⟩
          · simpa only [if_neg escape] using ih ⟨l.key c, .key⟩
    | escape =>
      rw [editing]
      exact ih ⟨l, if r.store esc = '[' then .bracket else .key⟩
    | bracket =>
      rw [editing]
      exact ih ⟨l.arrow (r.store '['), .key⟩

theorem run_shows {reads : List Read} (goes : s.run size buf reads = .inl s') (shows' : Shows s.line entries d) :
    Shows s'.line entries ((keys s.mode reads).foldl (drafted entries) d) := by
  induction reads generalizing s d with
  | nil =>
    cases goes
    rw [keys]
    exact shows'
  | cons r reads ih =>
    rw [Session.run] at goes
    split at goes
    · rename_i s'' first
      obtain ⟨d', shows'', rest⟩ := read_shows first shows'
      rw [rest]
      exact ih goes shows''
    · cases goes

end Run

/-- The history after calls of `history_add` with these commands, between which lines are read. -/
inductive Calls {σ : Type} (host : Host σ) (first : History) : History → List Text → Prop
  | start : Calls host first first []
  | add {h : History} {cmds : List Text} (before : Calls host first h cmds) {cmd : Text} (fits : Fits cmd) (world : σ) :
      Calls host first (h.add host cmd world).1 (cmds ++ [cmd])
  | line {h : History} {cmds : List Text} (before : Calls host first h cmds) {localBuf buf : Nat → Char} {size : Nat}
      {reads : List Read} {s : Session} (ran : (Session.start localBuf h).run size buf reads = .inl s) :
      Calls host first s.line.history cmds

theorem remember_fits {l : List Text} {cmd : Text} (rows : ∀ row ∈ l, Fits row) (fits : Fits cmd) :
    ∀ row ∈ remember l cmd, Fits row := by
  unfold remember
  split
  · exact rows
  · simpa [or_imp, forall_and] using ⟨rows, fits⟩

theorem Calls.ring {σ : Type} {host : Host σ} {first h : History} {cmds : List Text} (calls : Calls host first h cmds)
    {l : List Text} (ring : first.Ring (l.rtake maxHistory)) (rows : ∀ row ∈ l, Fits row) :
    h.Ring ((cmds.foldl remember l).rtake maxHistory) ∧ ∀ row ∈ cmds.foldl remember l, Fits row := by
  induction calls with
  | start => exact ⟨ring, rows⟩
  | add before fits world ih =>
    rw [List.foldl_append]
    exact ⟨add_ring ih.1 host _ world, remember_fits ih.2 fits⟩
  | line before ran ih =>
    obtain ⟨ring, rows⟩ := ih
    refine ⟨?_, rows⟩
    rw [← List.reverse_reverse (List.rtake _ _)] at ring ⊢
    exact (run_shows ran (.start _ ring fun row mem => rows row (List.mem_of_mem_drop (List.mem_reverse.mp mem)))).ring

def Sound (h : History) : Prop := ∃ l, h.Ring l ∧ ∀ row ∈ l, Fits row

theorem Sound.scan {chunk rest : Text} {i : Nat} {s : Loading} (sound : Sound s.history) (short : i + rest.length ≤ chunkSize) :
    Sound (scanChunk chunk i rest s).history := by
  induction rest generalizing i s with
  | nil => exact sound
  | cons c rest ih =>
    rw [List.length_cons] at short
    refine ih ?_ (by omega)
    split
    · obtain ⟨l, ring, rows⟩ := sound
      unfold Loading.newline
      by_cases long : s.lineStart < i
      · rw [if_pos long]
        refine ⟨_, ring.push _, fun row mem => ?_⟩
        rcases List.mem_append.mp (List.mem_of_mem_drop mem) with before | last
        · exact rows row before
        · obtain rfl := List.mem_singleton.mp last
          have length := (List.takeWhile_prefix (· ≠ nul)).length_le.trans
            (List.length_take_le (i - s.lineStart) (chunk.drop s.lineStart))
          refine ⟨Nat.lt_of_le_of_lt length ?_, fun zero => ?_⟩
          · simp only [chunkSize, maxCmdLen] at short ⊢
            omega
          · simpa using List.mem_takeWhile_imp zero
      · rw [if_neg long]
        exact ⟨l, ring, rows⟩
    · exact sound

theorem Sound.load {s : Loading} (sound : Sound s.history) (file : Text) : Sound (loadFrom s file).history := by
  induction len : file.length using Nat.strongRecOn generalizing s file with
  | ind n ih =>
    rw [loadFrom]
    split
    · exact sound
    · rename_i some'
      have pos := List.length_pos_iff.mpr some'
      refine ih (file.drop chunkSize).length ?_ (sound.scan ?_) _ rfl
      · rw [List.length_drop, chunkSize]
        omega
      · rw [Nat.zero_add]
        exact List.length_take_le _ _

theorem Calls.sound {σ : Type} {host : Host σ} {first h : History} {cmds : List Text} (calls : Calls host first h cmds)
    (sound : Sound first) : Sound h := by
  obtain ⟨l, ring, rows⟩ := sound
  have few : l.length ≤ maxHistory := by
    rw [← ring.count]
    exact ring.full
  have whole : l.rtake maxHistory = l := by
    rw [List.rtake, Nat.sub_eq_zero_of_le few, List.drop_zero]
  obtain ⟨ring', rows'⟩ := calls.ring (whole.symm ▸ ring) rows
  exact ⟨_, ring', fun row mem => rows' row (List.mem_of_mem_drop mem)⟩

theorem Sound.start {h : History} (sound : Sound h) (localBuf : Nat → Char) :
    Shows (.start localBuf h) h.saved.reverse .start := by
  obtain ⟨l, ring, rows⟩ := sound
  rw [ring.saved]
  refine .start localBuf ?_ fun row mem => rows row (List.mem_reverse.mp mem)
  rw [List.reverse_reverse]
  exact ring

/-- The line that is edited when the history is loaded from a file and commands are added to it. The loop goes on reading
    exactly as long as the input is one of editing, and then the line is the text of the abstract one, which Enter returns. -/
theorem readline_edits {σ : Type} {host : Host σ} {file : Text} {h : History} {cmds : List Text}
    (calls : Calls host (emptyHistory.load file) h cmds) (localBuf buf : Nat → Char) (size : Nat) (reads : List Read) :
    (editing .key reads = false → ∃ returned, (Session.start localBuf h).run size buf reads = .inr returned) ∧
      (editing .key reads = true → ∃ s, (Session.start localBuf h).run size buf reads = .inl s ∧
        let d := (keys .key reads).foldl (Draft.key (maxCmdLen - 1) blank h.saved.reverse) .start
        s.line.cursorPos ≤ s.line.len ∧ s.line.len < maxCmdLen ∧
          At nul s.line.localBuf 0 d.cursor.text ∧ s.line.len = d.cursor.text.length ∧
          s.line.cursorPos = d.cursor.left.length ∧
          (s.mode = .key → ∀ c, isNewline c = true → ∃ out, At nul out 0 (d.cursor.text.take (size - 1)) ∧
            s.read size buf (.byte c) = .inr ⟨d.cursor.text.length, out, s.line.history⟩)) := by
  have goes := run_editing size buf (.start localBuf h) reads
  constructor
  · intro ends
    rw [show editing (Session.start localBuf h).mode reads = false from ends] at goes
    cases run : (Session.start localBuf h).run size buf reads with
    | inl s =>
      rw [run] at goes
      cases goes
    | inr returned => exact ⟨returned, rfl⟩
  · intro edits
    rw [show editing (Session.start localBuf h).mode reads = true from edits] at goes
    obtain ⟨s, run⟩ := Sum.isLeft_iff.mp goes
    refine ⟨s, run, ?_⟩
    intro d
    have loaded : Sound (emptyHistory.load file) := Sound.load ⟨[], ring_start _, fun _ mem => by cases mem⟩ file
    obtain ⟨e, holds, views⟩ : Shows s.line h.saved.reverse d := run_shows run ((calls.sound loaded).start localBuf)
    have len : s.line.len = d.cursor.text.length := by rw [holds.len, views.text]
    have cursor : s.line.cursorPos = d.cursor.left.length := holds.cursor.trans views.cursor
    have text : At nul s.line.localBuf 0 d.cursor.text := views.text ▸ holds.text
    refine ⟨?_, len ▸ views.fits.short, text, len, cursor, fun mode c newline => ?_⟩
    · rw [cursor, len, Cursor.text, List.length_append]
      exact Nat.le_add_right _ _
    · refine ⟨Function.update (strncpy nul buf s.line.localBuf 0 (size - 1)) (size - 1) nul, strncpy_at nul text, ?_⟩
      unfold Session.read
      rw [mode, ← len]
      exact if_pos newline

/-- `ab`, Left, `c`, Ctrl-U, `d`, and an escape that is not complete. -/
def typed : List Read :=
  [.byte 'a', .byte 'b', .byte esc, .byte '[', .byte 'D', .byte 'c', .byte (Char.ofNat 0x15), .byte 'd', .byte esc]

theorem readline_edits_ab :
    ∃ s, (Session.start (fun _ => nul) (emptyHistory.load [])).run 1024 (fun _ => nul) typed = .inl s ∧ s.line.len = 2 ∧
      s.line.cursorPos = 1 ∧ At nul s.line.localBuf 0 ['d', 'b'] := by
  have calls : Calls failing (emptyHistory.load []) (emptyHistory.load []) [] := .start
  obtain ⟨s, goes, -, -, text, len, cursor, -⟩ :=
    (readline_edits calls (fun _ => nul) (fun _ => nul) 1024 typed).2 (by decide)
  exact ⟨s, goes, len, cursor, text⟩

section Arrows

variable (size : Nat) (buf : Nat → Char)

def presses (n : Nat) (c : Char) : List Read := (List.replicate n [.byte esc, .byte '[', .byte c]).flatten

theorem run_presses (n : Nat) (c : Char) (l : Readline) (reads : List Read) :
    Session.run size buf ⟨l, .key⟩ (presses n c ++ reads) = Session.run size buf ⟨(fun l => l.arrow c)^[n] l, .key⟩ reads := by
  induction n generalizing l with
  | zero => rfl
  | succ n ih =>
    rw [Function.iterate_succ_apply, ← ih]
    rfl

theorem Shows.older {l : Readline} {entries : List Text} {d : Draft Char} (shows' : Shows l entries d) (n : Nat) :
    Shows ((fun l => l.arrow 'A')^[n] l) entries ((Draft.older entries)^[n] d) := by
  induction n with
  | zero => exact shows'
  | succ n ih =>
    rw [Function.iterate_succ_apply', Function.iterate_succ_apply']
    exact ih.arrow 'A'

theorem Shows.newer {l : Readline} {entries : List Text} {d : Draft Char} (shows' : Shows l entries d) (n : Nat) :
    Shows ((fun l => l.arrow 'B')^[n] l) entries ((Draft.newer entries)^[n] d) := by
  induction n with
  | zero => exact shows'
  | succ n ih =>
    rw [Function.iterate_succ_apply', Function.iterate_succ_apply']
    exact ih.arrow 'B'

end Arrows

/-- The ring holds the newest commands without empty ones and repetitions. Behind `j` times Up and `k` times Down the line
    is the one that is `j - k` commands back, or the unfinished one. -/
theorem history_recall {σ : Type} {host : Host σ} {h : History} {cmds : List Text} (calls : Calls host emptyHistory h cmds) :
    let kept := (cmds.filter (· ≠ [])).destutter (· ≠ ·)
    h.saved = kept.rtake maxHistory ∧
      ∀ (localBuf buf : Nat → Char) (size : Nat) (reads : List Read) (s : Session) (line : Text),
        (Session.start localBuf h).run size buf reads = .inl s → s.mode = .key → s.line.navPos = -1 →
        At nul s.line.localBuf 0 line → ∀ j k, 0 < j → j ≤ h.count → k ≤ j →
          ∃ s' shown, s.run size buf (presses j 'A' ++ presses k 'B') = .inl s' ∧ At nul s'.line.localBuf 0 shown ∧
            if k = j then shown = line else kept.reverse[j - k - 1]? = some shown := by
  intro kept
  obtain ⟨ring, rows⟩ := calls.ring (l := []) History.ring_empty fun _ mem => by cases mem
  rw [remembered] at ring rows
  refine ⟨ring.saved, fun localBuf buf size reads s line goes mode nav text j k some' few less => ?_⟩
  have sound : Sound h := ⟨_, ring, fun row mem => rows row (List.mem_of_mem_drop mem)⟩
  have shows' := run_shows goes (sound.start localBuf)
  have entries : h.saved.reverse = kept.reverse.take maxHistory := by
    rw [ring.saved, List.rtake_eq_reverse_take_reverse, List.reverse_reverse]
  have length : h.saved.reverse.length = h.count := by rw [List.length_reverse, ring.saved, ← ring.count]
  revert shows'
  generalize (keys (Session.start localBuf h).mode reads).foldl (drafted h.saved.reverse) .start = d
  intro shows'
  have own : d.back = 0 := by
    have place := shows'.nav
    omega
  have unfinished : d.cursor.text = line := shows'.text.unique text
  have back : (Draft.newer h.saved.reverse)^[k] ((Draft.older h.saved.reverse)^[j] d) =
      Draft.visit h.saved.reverse line (j - k) := by
    have first := older_iterate own (show j - 1 < h.saved.reverse.length by omega)
    rw [Nat.sub_add_cancel some', unfinished] at first
    rw [first, ← newer_iterate (j - k) k, Nat.sub_add_cancel less]
  have shown := ((shows'.older j).newer k).text
  rw [back] at shown
  have pressed : s.run size buf (presses j 'A' ++ presses k 'B') =
      .inl ⟨(fun l => l.arrow 'B')^[k] ((fun l => l.arrow 'A')^[j] s.line), .key⟩ := by
    have up := run_presses size buf j 'A' s.line (presses k 'B')
    have down := run_presses size buf k 'B' ((fun l => l.arrow 'A')^[j] s.line) []
    rw [List.append_nil] at down
    have same : s = ⟨s.line, .key⟩ := by rw [← mode]
    rw [same]
    exact up.trans down
  refine ⟨_, _, pressed, shown, ?_⟩
  by_cases all : k = j
  · rw [if_pos all, all, Nat.sub_self]
    exact List.append_nil _
  · obtain ⟨n, place⟩ : ∃ n, j - k = n + 1 := ⟨j - k - 1, by omega⟩
    have inside : n < h.saved.reverse.length := by omega
    have text : (Draft.visit h.saved.reverse line (n + 1)).cursor.text = h.saved.reverse.getD n [] := List.append_nil _
    have before : n < maxHistory := Nat.lt_of_lt_of_le (length ▸ inside) ring.full
    rw [if_neg all, place, Nat.add_sub_cancel, text, List.getD_eq_getElem _ _ inside, ← List.getElem?_eq_getElem inside,
      entries, List.getElem?_take_of_lt before]

/-- The history of the commands `a`, `b`, `b` and `c`. -/
def historyABC : History :=
  let h := (emptyHistory.add failing ['a'] ()).1
  let h := ((h.add failing ['b'] ()).1.add failing ['b'] ()).1
  (h.add failing ['c'] ()).1

/-- Behind three times Up and once Down the line is `b`, and behind two more times Down the `x` that was typed first. -/
theorem history_recall_a :
    ∃ s, (Session.start (fun _ => nul) historyABC).run 1024 (fun _ => nul) [.byte 'x'] = .inl s ∧
      (∃ s' shown, s.run 1024 (fun _ => nul) (presses 3 'A' ++ presses 1 'B') = .inl s' ∧ At nul s'.line.localBuf 0 shown ∧
        shown = ['b']) ∧
      ∃ s' shown, s.run 1024 (fun _ => nul) (presses 3 'A' ++ presses 3 'B') = .inl s' ∧ At nul s'.line.localBuf 0 shown ∧
        shown = ['x'] := by
  have calls : Calls failing emptyHistory historyABC [['a'], ['b'], ['b'], ['c']] :=
    .add (.add (.add (.add .start ⟨by decide, by decide⟩ ()) ⟨by decide, by decide⟩ ()) ⟨by decide, by decide⟩ ())
      ⟨by decide, by decide⟩ ()
  have text : At nul ((Session.start (fun _ => nul) historyABC).line.key 'x').localBuf 0 ['x'] := by
    refine ⟨fun i le => ?_, by decide⟩
    rw [List.length_singleton] at le
    obtain rfl | rfl : i = 0 ∨ i = 1 := by omega
    · rfl
    · rfl
  have recalls := (history_recall calls).2 (fun _ => nul) (fun _ => nul) 1024 [.byte 'x'] _ ['x'] rfl rfl rfl text
  obtain ⟨s, shown, goes, lies, entry⟩ := recalls 3 1 (by decide) (by decide) (by decide)
  obtain ⟨s', shown', goes', lies', entry'⟩ := recalls 3 3 (by decide) (by decide) (by decide)
  exact ⟨_, rfl, ⟨s, shown, goes, lies, (Option.some.inj entry).symm⟩, s', shown', goes', lies', entry'⟩

end Mos.Sh
