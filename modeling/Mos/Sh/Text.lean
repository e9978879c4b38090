import Mathlib.Data.List.Infix

namespace Mos.Sh

/-- A C string without its NUL. -/
abbrev Text := List Char

/-- How a function of the shell ends without a result: it returns -1, or it has stored behind an array. -/
inductive Fault where
  | failed
  | outside
deriving DecidableEq

/-- `sizeof(expanded_buf)`, and of `sub_cmd_buf` and `final_cmd_buf` -/
def expandedSize : Nat := 2048
/-- `sizeof(sub_cmd)` -/
def subCmdSize : Nat := 1024
/-- `sizeof(cmd_copy)` -/
def cmdCopySize : Nat := 1024

def whitespace : Text := [' ', '\t', '\r', '\n']
def symbols : Text := ['<', '|', '>', '&', ';', '(', ')']

/-- Pointers into a string are offsets from its start. -/
def strchr (s : Text) (c : Char) : Option Nat :=
  match s with
  | [] => none
  | x :: s => if x = c then some 0 else (strchr s c).map (· + 1)

def myStrstr (haystack needle : Text) : Option Nat :=
  if needle = [] then some 0
  else
    match haystack with
    | [] => none
    | x :: haystack =>
      if needle.isPrefixOf (x :: haystack) then some 0 else (myStrstr haystack needle).map (· + 1)

def isSpace (c : Char) : Bool := (strchr whitespace c).isSome
def isSymbol (c : Char) : Bool := (strchr symbols c).isSome

def isalnum (c : Char) : Bool :=
  (97 ≤ c.toNat && c.toNat ≤ 122) || (65 ≤ c.toNat && c.toNat ≤ 90) || (48 ≤ c.toNat && c.toNat ≤ 57)

def inWord (c : Char) : Bool := !isSpace c && !isSymbol c

def peekFirstWord (buf : Text) (wordBufLen : Nat) : Text :=
  ((buf.dropWhile isSpace).takeWhile inWord).take (wordBufLen - 1)

/-- The commands that `main` runs in the shell's own process. -/
def isBuiltin (firstWord : Text) : Bool :=
  firstWord = "cd".toList || firstWord = "pwd".toList || firstWord = "declare".toList || firstWord = "unset".toList

theorem strchr_eq_myStrstr (s : Text) (c : Char) : strchr s c = myStrstr s [c] := by
  induction s with
  | nil => rfl
  | cons x s ih =>
    rw [strchr, myStrstr, ih]
    by_cases same : x = c
    · simp [same]
    · have other : ¬ c = x := fun eq => same eq.symm
      simp [same, other]

theorem strchr_none {s : Text} {c : Char} (absent : c ∉ s) : strchr s c = none := by
  induction s with
  | nil => rfl
  | cons x s ih =>
    have first : ¬ x = c := fun eq => absent (by simp [eq])
    rw [strchr, if_neg first, ih fun mem => absent (List.mem_cons_of_mem x mem)]
    rfl

theorem myStrstr_here {needle : Text} (rest : Text) (nonempty : needle ≠ []) : myStrstr (needle ++ rest) needle = some 0 := by
  cases needle with
  | nil => exact absurd rfl nonempty
  | cons x needle => simp [myStrstr]

theorem myStrstr_skip {needle before after : Text} (nonempty : needle ≠ [])
    (absent : ∀ first rest, before = first ++ rest → rest ≠ [] → ¬ needle <+: rest ++ after) :
    myStrstr (before ++ after) needle = (myStrstr after needle).map (· + before.length) := by
  induction before with
  | nil => simp
  | cons x before ih =>
    have here : ¬ needle.isPrefixOf (x :: (before ++ after)) = true := by
      rw [List.isPrefixOf_iff_prefix]
      exact absent [] (x :: before) rfl (List.cons_ne_nil x before)
    have later := ih fun first rest eq => absent (x :: first) rest (by rw [eq]; rfl)
    rw [List.cons_append, myStrstr, if_neg nonempty]
    simp only [here, later, Option.map_map]
    rw [if_neg Bool.false_ne_true]
    congr 1

theorem myStrstr_none {needle s : Text} (absent : ¬ needle <:+: s) : myStrstr s needle = none := by
  have nonempty : needle ≠ [] := fun eq => absent (by rw [eq]; exact List.nil_infix)
  have search : myStrstr (s ++ []) needle = (myStrstr [] needle).map (· + s.length) := by
    apply myStrstr_skip nonempty
    intro first rest eq _ found
    apply absent
    rw [List.append_nil] at found
    rw [eq]
    exact found.isInfix.trans (List.suffix_append first rest).isInfix
  rw [List.append_nil] at search
  rw [search, myStrstr, if_neg nonempty]
  rfl

theorem strchr_split {s : Text} {c : Char} {n : Nat} (found : strchr s c = some n) :
    ∃ before after, s = before ++ c :: after ∧ before.length = n ∧ c ∉ before := by
  induction s generalizing n with
  | nil => cases found
  | cons x s ih =>
    rw [strchr] at found
    split at found
    · rename_i same
      cases found
      exact ⟨[], s, by rw [same, List.nil_append], rfl, List.not_mem_nil⟩
    · rename_i other
      obtain ⟨n, later, rfl⟩ := Option.map_eq_some_iff.mp found
      obtain ⟨before, after, rfl, rfl, absent⟩ := ih later
      refine ⟨x :: before, after, rfl, rfl, ?_⟩
      intro mem
      rcases List.mem_cons.mp mem with same | mem
      · exact other same.symm
      · exact absent mem

theorem strchr_append {s : Text} {c : Char} (absent : c ∉ s) (after : Text) : strchr (s ++ c :: after) c = some s.length := by
  induction s with
  | nil => rw [List.nil_append, strchr, if_pos rfl, List.length_nil]
  | cons x s ih =>
    have first : ¬ x = c := fun eq => absent (by simp [eq])
    rw [List.cons_append, strchr, if_neg first, ih fun mem => absent (List.mem_cons_of_mem x mem)]
    rfl

theorem myStrstr_at {s needle : Text} {off : Nat} (found : myStrstr s needle = some off) : needle <+: s.drop off := by
  induction s generalizing off with
  | nil =>
    rw [myStrstr] at found
    split at found
    · rename_i empty
      rw [empty]
      exact List.nil_prefix
    · cases found
  | cons x s ih =>
    rw [myStrstr] at found
    split at found
    · rename_i empty
      rw [empty]
      exact List.nil_prefix
    · split at found
      · rename_i here
        cases found
        exact List.isPrefixOf_iff_prefix.mp here
      · obtain ⟨off, later, rfl⟩ := Option.map_eq_some_iff.mp found
        exact ih later

theorem myStrstr_le {s needle : Text} {at' : Nat} (nonempty : needle ≠ []) (occurs : needle <+: s.drop at') :
    ∃ off, myStrstr s needle = some off ∧ off ≤ at' := by
  induction s generalizing at' with
  | nil =>
    rw [List.drop_nil] at occurs
    exact absurd (List.prefix_nil.mp occurs) nonempty
  | cons x s ih =>
    rw [myStrstr, if_neg nonempty]
    by_cases here : needle.isPrefixOf (x :: s) = true
    · rw [if_pos here]
      exact ⟨0, rfl, Nat.zero_le _⟩
    · rw [if_neg here]
      cases at' with
      | zero => exact absurd (List.isPrefixOf_iff_prefix.mpr occurs) here
      | succ at' =>
        obtain ⟨off, later, le⟩ := ih occurs
        exact ⟨off + 1, by rw [later]; rfl, Nat.succ_le_succ le⟩

end Mos.Sh
