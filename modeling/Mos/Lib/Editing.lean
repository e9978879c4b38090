import Mathlib.Data.List.DropRight
import Mathlib.Data.List.GetD
import Mathlib.Logic.Function.Iterate

/-! A line with a cursor in it, and the recall of earlier lines. -/

namespace Editing

variable {α : Type}

structure Cursor (α : Type) where
  left : List α
  right : List α

def Cursor.text (c : Cursor α) : List α := c.left ++ c.right

inductive Edit (α : Type) where
  | type (c : α)
  | erase
  | back
  | forward
  | home
  | last
  | cutRight
  | cutLeft
  | cutWord

/-- What an edit does to a line that has room for so many characters. -/
def Cursor.edit (room : Nat) (blank : α → Bool) (c : Cursor α) : Edit α → Cursor α
  | .type x => if c.text.length < room then ⟨c.left ++ [x], c.right⟩ else c
  | .erase => ⟨c.left.dropLast, c.right⟩
  | .back => ⟨c.left.dropLast, c.left.getLast?.toList ++ c.right⟩
  | .forward => ⟨c.left ++ c.right.head?.toList, c.right.tail⟩
  | .home => ⟨[], c.text⟩
  | .last => ⟨c.text, []⟩
  | .cutRight => ⟨c.left, []⟩
  | .cutLeft => ⟨[], c.right⟩
  | .cutWord => ⟨(c.left.rdropWhile blank).rdropWhile fun x => !blank x, c.right⟩

theorem back_text (room : Nat) (blank : α → Bool) (c : Cursor α) : (c.edit room blank .back).text = c.text := by
  obtain ⟨left, right⟩ := c
  rcases left.eq_nil_or_concat with rfl | ⟨left, x, rfl⟩ <;> simp [Cursor.edit, Cursor.text]

theorem forward_text (room : Nat) (blank : α → Bool) (c : Cursor α) : (c.edit room blank .forward).text = c.text := by
  obtain ⟨left, right⟩ := c
  cases right <;> simp [Cursor.edit, Cursor.text]

/-- A line and the unfinished line that it stands for when it is the one `back` entries ago. -/
structure Draft (α : Type) where
  cursor : Cursor α
  back : Nat
  draft : List α

namespace Draft

def start : Draft α := ⟨⟨[], []⟩, 0, []⟩

/-- The line that is `n` entries back. -/
def shown (entries : List (List α)) (draft : List α) : Nat → List α
  | 0 => draft
  | n + 1 => entries.getD n []

def visit (entries : List (List α)) (draft : List α) (n : Nat) : Draft α := ⟨⟨shown entries draft n, []⟩, n, draft⟩

def older (entries : List (List α)) (d : Draft α) : Draft α :=
  if d.back < entries.length then visit entries (if d.back = 0 then d.cursor.text else d.draft) (d.back + 1) else d

def newer (entries : List (List α)) (d : Draft α) : Draft α :=
  if 0 < d.back then visit entries d.draft (d.back - 1) else d

end Draft

inductive Key (α : Type) where
  | edit (e : Edit α)
  | older
  | newer

def Draft.key (room : Nat) (blank : α → Bool) (entries : List (List α)) (d : Draft α) : Key α → Draft α
  | .edit e => { d with cursor := d.cursor.edit room blank e }
  | .older => d.older entries
  | .newer => d.newer entries

section Lemmas

variable {entries : List (List α)} {draft : List α}

theorem older_visit {n : Nat} (less : n < entries.length) :
    (Draft.visit entries draft n).older entries = Draft.visit entries draft (n + 1) := by
  have inside : (Draft.visit entries draft n).back < entries.length := less
  rw [Draft.older, if_pos inside]
  cases n <;> simp [Draft.visit, Draft.shown, Cursor.text]

theorem newer_visit (n : Nat) : (Draft.visit entries draft (n + 1)).newer entries = Draft.visit entries draft n :=
  if_pos (Nat.zero_lt_succ n)

theorem older_iterate {d : Draft α} (own : d.back = 0) {n : Nat} (less : n < entries.length) :
    (Draft.older entries)^[n + 1] d = Draft.visit entries d.cursor.text (n + 1) := by
  induction n with
  | zero => simp [Draft.older, own, less]
  | succ n ih => rw [Function.iterate_succ_apply', ih (by omega), older_visit less]

theorem newer_iterate (n k : Nat) :
    (Draft.newer entries)^[k] (Draft.visit entries draft (n + k)) = Draft.visit entries draft n := by
  induction k with
  | zero => rfl
  | succ k ih => rw [Function.iterate_succ_apply, ← Nat.add_assoc, newer_visit, ih]

end Lemmas

end Editing
