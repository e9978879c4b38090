import Mos.Sh.Command
import Mos.Sh.HistoryRing
import Mos.Lib.CString

namespace Mos.Sh

open CStr

/-- The loop of `_gettoken` over blanks, which it overwrites; `none` when it runs over more than `n` characters. -/
def skipBlanks (m : Nat → Char) (s : Nat) : Nat → Option ((Nat → Char) × Nat)
  | 0 => none
  | n + 1 => if (strchr whitespace (m s)).isSome then skipBlanks (Function.update m s nul) (s + 1) n else some (m, s)

def skipWord (m : Nat → Char) (s : Nat) : Nat → Option Nat
  | 0 => none
  | n + 1 =>
    if m s ≠ nul ∧ (strchr (whitespace ++ symbols) (m s)).isNone then skipWord m (s + 1) n else some s

/-- The memory and the variables `nc`, `np1` and `np2` of `gettoken`. -/
structure Lexer where
  mem : Nat → Char
  nc : Char
  np1 : Option Nat
  np2 : Option Nat

/-- `_gettoken`, over a string of less than `n` characters; a null pointer is `none`. -/
def scanToken (n : Nat) (m : Nat → Char) : Option Nat → Option Lexer
  | none => some ⟨m, nul, none, none⟩
  | some s =>
    (skipBlanks m s n).bind fun (m, s) =>
      if m s = nul then some ⟨m, nul, none, none⟩
      else if m s = '>' ∧ m (s + 1) = '>' then
        some ⟨Function.update (Function.update m s nul) (s + 1) nul, 'a', some s, some (s + 2)⟩
      else if (strchr symbols (m s)).isSome then some ⟨Function.update m s nul, m s, some s, some (s + 1)⟩
      else (skipWord m s n).map fun p2 => ⟨m, 'w', some s, some p2⟩

namespace Lexer

/-- `gettoken(s, 0)` -/
def start (n : Nat) (m : Nat → Char) (s : Nat) : Option Lexer := scanToken n m (some s)

def gettoken (n : Nat) (l : Lexer) : Option ((Char × Option Nat) × Lexer) :=
  (scanToken n l.mem l.np2).map fun next => ((l.nc, l.np1), next)

/-- What the next `k` calls deliver. -/
def gettokens (n : Nat) (l : Lexer) : Nat → Option (List (Char × Option Nat) × Lexer)
  | 0 => some ([], l)
  | k + 1 => (l.gettoken n).bind fun (t, l) => (l.gettokens n k).map fun (ts, l) => (t :: ts, l)

end Lexer

/-- The lexical grammar: blanks separate, a word is a maximal run of other characters. -/
inductive Lexes : Text → List Token → Prop
  | done {b : Text} (blanks : ∀ c ∈ b, c ∈ whitespace) : Lexes b []
  | append {b t : Text} {toks : List Token} (blanks : ∀ c ∈ b, c ∈ whitespace) (later : Lexes t toks) :
      Lexes (b ++ '>' :: '>' :: t) (.append :: toks)
  | symbol {b t : Text} {c : Char} {toks : List Token} (blanks : ∀ c ∈ b, c ∈ whitespace) (symbol : c ∈ symbols)
      (single : ¬ (c = '>' ∧ t.head? = some '>')) (later : Lexes t toks) : Lexes (b ++ c :: t) (.symbol c :: toks)
  | word {b w t : Text} {toks : List Token} (blanks : ∀ c ∈ b, c ∈ whitespace) (nonempty : w ≠ [])
      (other : ∀ c ∈ w, c ∉ whitespace ∧ c ∉ symbols)
      (maximal : ∀ c, t.head? = some c → c ∈ whitespace ∨ c ∈ symbols) (later : Lexes t toks) :
      Lexes (b ++ w ++ t) (.word w :: toks)

theorem strchr_isSome (s : Text) (c : Char) : (strchr s c).isSome = true ↔ c ∈ s := by
  induction s with
  | nil => simp [strchr]
  | cons x s ih =>
    rw [strchr]
    by_cases same : x = c
    · simp [same]
    · simp [same, Ne.symm same, ih]

theorem isSpace_iff (c : Char) : isSpace c = true ↔ c ∈ whitespace := strchr_isSome whitespace c

theorem isSymbol_iff (c : Char) : isSymbol c = true ↔ c ∈ symbols := strchr_isSome symbols c

theorem inWord_iff (c : Char) : inWord c = true ↔ c ∉ whitespace ∧ c ∉ symbols := by
  simp only [inWord, Bool.and_eq_true, Bool.not_eq_true', ← Bool.not_eq_true, isSpace_iff, isSymbol_iff]

theorem dropWhile_separators {b t : Text} (blanks : ∀ c ∈ b, c ∈ whitespace) (rest : ∀ c, t.head? = some c → c ∉ whitespace) :
    (b ++ t).dropWhile isSpace = t := by
  rw [List.dropWhile_append_of_pos fun c mem => (isSpace_iff c).mpr (blanks c mem)]
  cases t with
  | nil => rfl
  | cons c t =>
    rw [List.dropWhile_cons_of_neg]
    rw [isSpace_iff]
    exact rest c rfl

theorem symbols_disjoint {c : Char} (symbol : c ∈ symbols) : c ∉ whitespace := by
  simp only [symbols, List.mem_cons, List.not_mem_nil, or_false] at symbol
  rcases symbol with rfl | rfl | rfl | rfl | rfl | rfl | rfl <;> decide

theorem tokens_next {s rest : Text} {tok : Token} (next : nextToken s = some (tok, rest)) : tokens s = tok :: tokens rest := by
  rw [tokens]
  split
  · rename_i none'
    cases next.symm.trans none'
  · rename_i found
    cases next.symm.trans found
    rfl

theorem tokens_end {s : Text} (next : nextToken s = none) : tokens s = [] := by
  rw [tokens]
  split
  · rfl
  · rename_i found
    cases next.symm.trans found

theorem nextToken_append {s t : Text} (trimmed : s.dropWhile isSpace = '>' :: '>' :: t) :
    nextToken s = some (.append, t) := by
  simp [nextToken, trimmed]

theorem nextToken_symbol {s t : Text} {c : Char} (trimmed : s.dropWhile isSpace = c :: t) (symbol : c ∈ symbols)
    (single : ¬ (c = '>' ∧ t.head? = some '>')) : nextToken s = some (.symbol c, t) := by
  unfold nextToken
  rw [trimmed]
  split
  · rename_i eq
    cases eq
  · rename_i eq
    cases eq
    exact absurd ⟨rfl, rfl⟩ single
  · rename_i eq
    cases eq
    rw [if_pos ((isSymbol_iff c).mpr symbol)]

theorem nextToken_word {s w t : Text} (trimmed : s.dropWhile isSpace = w ++ t) (nonempty : w ≠ [])
    (other : ∀ c ∈ w, c ∉ whitespace ∧ c ∉ symbols) (maximal : ∀ c, t.head? = some c → c ∈ whitespace ∨ c ∈ symbols) :
    nextToken s = some (.word w, t) := by
  cases w with
  | nil => exact absurd rfl nonempty
  | cons c w =>
    have first := other c List.mem_cons_self
    have inside : ∀ x ∈ w, inWord x = true := fun x mem => (inWord_iff x).mpr (other x (List.mem_cons_of_mem c mem))
    have behind : ∀ x, t.head? = some x → inWord x = false := by
      intro x head
      rw [← Bool.not_eq_true, inWord_iff]
      rcases maximal x head with blank | symbol
      · exact fun both => both.1 blank
      · exact fun both => both.2 symbol
    have takes : (w ++ t).takeWhile inWord = w := by
      rw [List.takeWhile_append_of_pos inside]
      cases t with
      | nil => simp
      | cons x t => simp [behind x rfl]
    have drops : (w ++ t).dropWhile inWord = t := by
      rw [List.dropWhile_append_of_pos inside]
      cases t with
      | nil => rfl
      | cons x t => simp [behind x rfl]
    unfold nextToken
    rw [trimmed, List.cons_append]
    split
    · rename_i eq
      cases eq
    · rename_i eq
      obtain ⟨rfl, -⟩ := List.cons.inj eq
      exact absurd (by decide) first.2
    · rename_i eq
      cases eq
      rw [if_neg fun symbol => first.2 ((isSymbol_iff c).mp symbol), takes, drops]

theorem Lexes.unique {s : Text} {toks : List Token} (lexes : Lexes s toks) : toks = tokens s := by
  induction lexes with
  | done blanks =>
    have trimmed := dropWhile_separators (t := []) blanks fun c head => by cases head
    rw [List.append_nil] at trimmed
    rw [tokens_end]
    rw [nextToken, trimmed]
  | append blanks later ih =>
    rw [tokens_next (nextToken_append (dropWhile_separators blanks fun c head => ?_)), ih]
    cases head
    decide
  | @symbol b t c toks blanks symbol single later ih =>
    have trimmed := dropWhile_separators (t := c :: t) blanks fun c head => by cases head; exact symbols_disjoint symbol
    rw [tokens_next (nextToken_symbol trimmed symbol single), ih]
  | @word b w t toks blanks nonempty other maximal later ih =>
    have trimmed : (b ++ (w ++ t)).dropWhile isSpace = w ++ t := by
      refine dropWhile_separators blanks fun c head => ?_
      cases w with
      | nil => exact absurd rfl nonempty
      | cons x w =>
        cases head
        exact (other _ List.mem_cons_self).1
    rw [List.append_assoc, tokens_next (nextToken_word trimmed nonempty other maximal), ih]

theorem lexes_tokens (s : Text) : Lexes s (tokens s) := by
  induction len : s.length using Nat.strongRecOn generalizing s with
  | ind n ih =>
    have later {tok : Token} {rest : Text} (next : nextToken s = some (tok, rest)) : Lexes rest (tokens rest) :=
      ih _ (len ▸ nextToken_shorter next) rest rfl
    have parts : s = s.takeWhile isSpace ++ s.dropWhile isSpace := List.takeWhile_append_dropWhile.symm
    have blanks : ∀ c ∈ s.takeWhile isSpace, c ∈ whitespace := fun c mem =>
      (isSpace_iff c).mp (List.mem_takeWhile_imp mem)
    cases trimmed : s.dropWhile isSpace with
    | nil =>
      rw [trimmed, List.append_nil] at parts
      rw [tokens_end (by rw [nextToken, trimmed])]
      exact .done (parts ▸ blanks)
    | cons c rest =>
      have start : c ∉ whitespace := by
        have head := List.head_dropWhile_not (l := s) (p := isSpace) (by rw [trimmed]; exact List.cons_ne_nil c rest)
        simp only [trimmed, List.head_cons] at head
        rwa [← isSpace_iff, Bool.not_eq_true]
      rw [trimmed] at parts
      by_cases symbol : c ∈ symbols
      · by_cases double : c = '>' ∧ rest.head? = some '>'
        · obtain ⟨rfl, head⟩ := double
          obtain ⟨rest, rfl⟩ : ∃ t, rest = '>' :: t := by
            cases rest with
            | nil => cases head
            | cons x t =>
              cases head
              exact ⟨t, rfl⟩
          have next := nextToken_append trimmed
          rw [tokens_next next, parts]
          exact .append blanks (later next)
        · have next := nextToken_symbol trimmed symbol double
          rw [tokens_next next, parts]
          exact .symbol blanks symbol double (later next)
      · have word : c :: rest = (c :: rest.takeWhile inWord) ++ rest.dropWhile inWord := by
          rw [List.cons_append, List.takeWhile_append_dropWhile]
        have other : ∀ x ∈ c :: rest.takeWhile inWord, x ∉ whitespace ∧ x ∉ symbols := by
          intro x mem
          rcases List.mem_cons.mp mem with rfl | mem
          · exact ⟨start, symbol⟩
          · exact (inWord_iff x).mp (List.mem_takeWhile_imp mem)
        have maximal : ∀ x, (rest.dropWhile inWord).head? = some x → x ∈ whitespace ∨ x ∈ symbols := by
          intro x head
          have stops := List.head?_dropWhile_not inWord rest
          rw [head] at stops
          by_contra neither
          rw [not_or, ← inWord_iff] at neither
          simp [neither] at stops
        have next := nextToken_word (word ▸ trimmed) (List.cons_ne_nil _ _) other maximal
        rw [tokens_next next, parts, word, ← List.append_assoc]
        exact .word blanks (List.cons_ne_nil _ _) other maximal (later next)

section Scan

variable {m : Nat → Char} {s n : Nat} {t : Text}

theorem nul_stops : nul ∉ whitespace ∧ nul ∉ symbols := by decide

theorem skipBlanks_at (lies : At nul m s t) (enough : t.length < n) :
    ∃ m' k, skipBlanks m s n = some (m', s + k) ∧ k + (t.dropWhile isSpace).length = t.length ∧
      At nul m' (s + k) (t.dropWhile isSpace) ∧ (∀ i < s, m' i = m i) ∧ (t.dropWhile isSpace ≠ t → m' s = nul) := by
  induction n generalizing m s t with
  | zero => exact absurd enough (Nat.not_lt_zero _)
  | succ n ih =>
    have stay (none' : m s ∉ whitespace) (same : t.dropWhile isSpace = t) :
        ∃ m' k, skipBlanks m s (n + 1) = some (m', s + k) ∧ k + (t.dropWhile isSpace).length = t.length ∧
          At nul m' (s + k) (t.dropWhile isSpace) ∧ (∀ i < s, m' i = m i) ∧ (t.dropWhile isSpace ≠ t → m' s = nul) := by
      refine ⟨m, 0, ?_, by rw [same, Nat.zero_add], same.symm ▸ lies, fun i less => rfl, fun other => absurd same other⟩
      rw [skipBlanks, if_neg fun blank => none' ((strchr_isSome _ _).mp blank)]
      rfl
    cases t with
    | nil => exact stay (by rw [lies.empty]; exact nul_stops.1) rfl
    | cons c t =>
      by_cases blank : c ∈ whitespace
      · have dropped : (c :: t).dropWhile isSpace = t.dropWhile isSpace :=
          List.dropWhile_cons_of_pos ((isSpace_iff c).mpr blank)
        have rest : At nul (Function.update m s nul) (s + 1) t :=
          lies.tail.congr fun i le => Function.update_of_ne (by omega) _ _
        obtain ⟨m', k, skipped, length, lies', before, -⟩ := ih rest (by rw [List.length_cons] at enough; omega)
        have place : s + 1 + k = s + (k + 1) := by omega
        rw [place] at skipped lies'
        have first : m' s = nul := (before s (Nat.lt_succ_self s)).trans (Function.update_self _ _ _)
        refine ⟨m', k + 1, ?_, ?_, dropped.symm ▸ lies', fun i less => ?_, fun _ => first⟩
        · rw [skipBlanks, lies.head, if_pos ((strchr_isSome _ _).mpr blank), skipped]
        · rw [dropped, List.length_cons, ← length]
          omega
        · exact (before i (by omega)).trans (Function.update_of_ne (by omega) _ _)
      · refine stay (by rw [lies.head]; exact blank) (List.dropWhile_cons_of_neg ?_)
        rw [isSpace_iff]
        exact blank

theorem skipWord_at (lies : At nul m s t) (enough : t.length < n) :
    skipWord m s n = some (s + (t.takeWhile inWord).length) := by
  induction n generalizing s t with
  | zero => exact absurd enough (Nat.not_lt_zero _)
  | succ n ih =>
    have goes : (strchr (whitespace ++ symbols) (m s)).isNone = inWord (m s) := by
      rw [Bool.eq_iff_iff, inWord_iff, Option.isNone_iff_eq_none, ← Option.not_isSome_iff_eq_none, strchr_isSome,
        List.mem_append, not_or]
    rw [skipWord, goes]
    cases t with
    | nil => rw [if_neg fun both => both.1 lies.empty, List.takeWhile_nil, List.length_nil, Nat.add_zero]
    | cons c t =>
      rw [lies.head]
      by_cases inside : inWord c = true
      · rw [if_pos ⟨lies.head_ne, inside⟩, ih lies.tail (by rw [List.length_cons] at enough; omega),
          List.takeWhile_cons_of_pos inside, List.length_cons]
        congr 1
        omega
      · rw [if_neg fun both => inside both.2, List.takeWhile_cons_of_neg inside, List.length_nil, Nat.add_zero]

/-- The lexer has yet to deliver these tokens, of a string shorter than `n`. -/
inductive Lexer.Ahead (n : Nat) : Lexer → List Token → Prop
  | ended {m : Nat → Char} : Lexer.Ahead n ⟨m, nul, none, none⟩ []
  | append {m : Nat → Char} {p : Option Nat} {q : Nat} {t : Text} (rest : At nul m q t) (short : t.length < n) :
      Lexer.Ahead n ⟨m, 'a', p, some q⟩ (.append :: tokens t)
  | symbol {m : Nat → Char} {c : Char} {p : Option Nat} {q : Nat} {t : Text} (rest : At nul m q t) (short : t.length < n) :
      Lexer.Ahead n ⟨m, c, p, some q⟩ (.symbol c :: tokens t)
  | word {m : Nat → Char} {p : Nat} {w t : Text} (lies : At nul m p (w ++ t)) (short : t.length < n)
      (maximal : ∀ c, t.head? = some c → c ∈ whitespace ∨ c ∈ symbols) :
      Lexer.Ahead n ⟨m, 'w', some p, some (p + w.length)⟩ (.word w :: tokens t)

theorem scanToken_at (lies : At nul m s t) (enough : t.length < n) :
    ∃ l, scanToken n m (some s) = some l ∧ l.Ahead n (tokens t) ∧ (∀ i < s, l.mem i = m i) ∧ (∀ q, l.np2 = some q → s < q) ∧
      ((∀ c, t.head? = some c → c ∈ whitespace ∨ c ∈ symbols) → l.mem s = nul) := by
  obtain ⟨m', k, skipped, length, lies', before, blanked⟩ := skipBlanks_at lies enough
  have start (stops : ∀ c, t.head? = some c → c ∈ whitespace ∨ c ∈ symbols) : m' s = nul ∨ k = 0 ∧ t = t.dropWhile isSpace := by
    by_cases same : t.dropWhile isSpace = t
    · rw [same] at length
      exact .inr ⟨by omega, same.symm⟩
    · exact .inl (blanked same)
  rw [scanToken, skipped, Option.bind_some]
  dsimp only
  cases trimmed : t.dropWhile isSpace with
  | nil =>
    rw [trimmed] at lies' start
    rw [if_pos lies'.empty, tokens_end (by rw [nextToken, trimmed])]
    refine ⟨_, rfl, .ended, before, (fun q none' => by cases none'), fun stops => ?_⟩
    rcases start stops with zero | ⟨rfl, -⟩
    · exact zero
    · exact lies'.empty
  | cons c rest =>
    rw [trimmed] at lies' start
    have stored {i : Nat} (less : i < s) (v : Char) : Function.update m' (s + k) v i = m i :=
      (Function.update_of_ne (by omega) _ _).trans (before i less)
    have begins : c ∉ whitespace := by
      have head := List.head_dropWhile_not (l := t) (p := isSpace) (by rw [trimmed]; exact List.cons_ne_nil c rest)
      simp only [trimmed, List.head_cons] at head
      rwa [← isSpace_iff, Bool.not_eq_true]
    have zeroed (stops : ∀ c, t.head? = some c → c ∈ whitespace ∨ c ∈ symbols) : Function.update m' (s + k) nul s = nul := by
      rcases start stops with zero | ⟨rfl, -⟩
      · by_cases here : s = s + k
        · rw [← here, Function.update_self]
        · rw [Function.update_of_ne here, zero]
      · exact Function.update_self _ _ _
    have short : rest.length < n := by
      rw [trimmed, List.length_cons] at length
      omega
    rw [lies'.head, if_neg lies'.head_ne]
    by_cases symbol : c ∈ symbols
    · by_cases double : c = '>' ∧ rest.head? = some '>'
      · obtain ⟨rfl, head⟩ := double
        cases rest with
        | nil => cases head
        | cons x rest =>
          cases head
          rw [if_pos ⟨rfl, lies'.tail.head⟩, tokens_next (nextToken_append trimmed)]
          refine ⟨_, rfl, .append ?_ (Nat.lt_of_succ_lt short), fun i less => ?_, fun q next => ?_, fun stops => ?_⟩
          · refine lies'.tail.tail.congr fun i le => ?_
            rw [Function.update_of_ne (by omega), Function.update_of_ne (by omega)]
          · exact (Function.update_of_ne (by omega) _ _).trans (stored less nul)
          · cases next
            omega
          · refine (Function.update_of_ne (by omega) _ _).trans (zeroed stops)
      · have single : ¬ (c = '>' ∧ m' (s + k + 1) = '>') := by
          rintro ⟨rfl, next⟩
          refine double ⟨rfl, ?_⟩
          cases rest with
          | nil =>
            rw [lies'.tail.empty] at next
            exact absurd next (by decide)
          | cons x rest => rw [← next, lies'.tail.head, List.head?_cons]
        rw [if_neg single, if_pos ((strchr_isSome symbols c).mpr symbol), tokens_next (nextToken_symbol trimmed symbol double)]
        refine ⟨_, rfl, .symbol ?_ short, fun i less => stored less nul, fun q next => ?_, zeroed⟩
        · exact lies'.tail.congr fun i le => Function.update_of_ne (by omega) _ _
        · cases next
          omega
    · have inside : inWord c = true := (inWord_iff c).mpr ⟨begins, symbol⟩
      have single : ¬ (c = '>' ∧ m' (s + k + 1) = '>') := fun both => symbol (by rw [both.1]; decide)
      have parts : c :: rest = (c :: rest).takeWhile inWord ++ (c :: rest).dropWhile inWord :=
        List.takeWhile_append_dropWhile.symm
      have some' : 0 < ((c :: rest).takeWhile inWord).length := by
        rw [List.takeWhile_cons_of_pos inside, List.length_cons]
        exact Nat.zero_lt_succ _
      have maximal : ∀ x, ((c :: rest).dropWhile inWord).head? = some x → x ∈ whitespace ∨ x ∈ symbols := by
        intro x head
        have stops := List.head?_dropWhile_not inWord (c :: rest)
        rw [head] at stops
        by_contra neither
        rw [not_or, ← inWord_iff] at neither
        simp [neither] at stops
      have other : ∀ x ∈ (c :: rest).takeWhile inWord, x ∉ whitespace ∧ x ∉ symbols := fun x mem =>
        (inWord_iff x).mp (List.mem_takeWhile_imp mem)
      have word := skipWord_at lies' (show (c :: rest).length < n by rw [trimmed] at length; omega)
      have next := nextToken_word (trimmed.trans parts) (List.ne_nil_of_length_pos some') other maximal
      rw [if_neg single, if_neg fun mem => symbol ((strchr_isSome symbols c).mp mem), word, Option.map_some, tokens_next next]
      have left : ((c :: rest).dropWhile inWord).length < n := by
        have shorter := (List.dropWhile_suffix (l := c :: rest) inWord).length_le
        rw [trimmed] at length
        omega
      refine ⟨_, rfl, .word (parts ▸ lies') left maximal, before, fun q at' => ?_, fun stops => ?_⟩
      · cases at'
        omega
      · rcases start stops with zero | ⟨-, rfl⟩
        · exact zero
        · rcases stops c rfl with blank | mem
          · exact absurd blank begins
          · exact absurd mem symbol

end Scan

/-- What a call of `gettoken` delivers for a token, or behind the last one; the word is there in memory `m`. -/
def Delivered (m : Nat → Char) : Option Token → Char × Option Nat → Prop
  | none, (c, _) => c = nul
  | some .append, (c, _) => c = 'a'
  | some (.symbol x), (c, _) => c = x
  | some (.word w), (c, t) => c = 'w' ∧ ∃ p, t = some p ∧ At nul m p w

/-- A token that has been delivered, in front of the place where the lexer is. -/
structure Lexer.Kept (l : Lexer) (tok : Option Token) (r : Char × Option Nat) : Prop where
  delivered : Delivered l.mem tok r
  before : ∀ w p q, tok = some (.word w) → r.2 = some p → l.np2 = some q → p + w.length < q

section Run

variable {l l' : Lexer} {n q : Nat} {toks : List Token}

theorem Lexer.Kept.scan {tok : Option Token} {r : Char × Option Nat} (kept : l.Kept tok r) (place : l.np2 = some q)
    (frame : ∀ i < q, l'.mem i = l.mem i) (further : ∀ q', l'.np2 = some q' → q < q') : l'.Kept tok r := by
  obtain ⟨delivered, before⟩ := kept
  refine ⟨?_, fun w p q' word at' next => (before w p q word at' place).trans (further q' next)⟩
  rcases tok with _ | ⟨w⟩ | c
  · exact delivered
  · obtain ⟨code, p, at', lies⟩ := delivered
    have behind := before w p q rfl at' place
    exact ⟨code, p, at', lies.congr fun i le => frame _ (by omega)⟩
  · exact delivered
  · exact delivered

theorem gettoken_ahead (ahead : l.Ahead n toks) :
    ∃ l', l.gettoken n = some ((l.nc, l.np1), l') ∧ l'.Ahead n toks.tail ∧ l'.Kept (toks[0]?) (l.nc, l.np1) ∧
      ∀ tok r, l.Kept tok r → l'.Kept tok r := by
  cases ahead with
  | ended => exact ⟨_, rfl, .ended, ⟨rfl, fun w p q word => by cases word⟩, fun _ _ kept => kept⟩
  | append rest short =>
    obtain ⟨l', scanned, ahead, frame, further, -⟩ := scanToken_at rest short
    refine ⟨l', by rw [Lexer.gettoken, scanned]; rfl, ahead, ⟨rfl, fun w p q word => by cases word⟩, fun tok r kept => ?_⟩
    exact kept.scan rfl frame further
  | symbol rest short =>
    obtain ⟨l', scanned, ahead, frame, further, -⟩ := scanToken_at rest short
    refine ⟨l', by rw [Lexer.gettoken, scanned]; rfl, ahead, ⟨rfl, fun w p q word => by cases word⟩, fun tok r kept => ?_⟩
    exact kept.scan rfl frame further
  | @word m p w t lies short maximal =>
    have rest := lies.drop (show w.length ≤ (w ++ t).length by rw [List.length_append]; omega)
    rw [List.drop_left] at rest
    obtain ⟨l', scanned, ahead, frame, further, zero⟩ := scanToken_at rest short
    have word : At nul l'.mem p w := by
      refine ⟨fun i le => ?_, fun mem => lies.free (List.mem_append_left t mem)⟩
      rcases Nat.lt_or_eq_of_le le with less | rfl
      · rw [frame _ (by omega), lies.char i (by rw [List.length_append]; omega), List.getD_append _ _ _ _ less]
      · rw [zero maximal, List.getD_eq_default _ _ (Nat.le_refl _)]
    refine ⟨l', by rw [Lexer.gettoken, scanned]; rfl, ahead, ⟨⟨rfl, p, rfl, word⟩, fun w' p' q' same at' next => ?_⟩,
      fun tok r kept => kept.scan rfl frame further⟩
    cases same
    cases at'
    exact further q' next

theorem gettokens_ahead (ahead : l.Ahead n toks) (k : Nat) :
    ∃ handed l', l.gettokens n k = some (handed, l') ∧ handed.length = k ∧
      (∀ (i : Nat) r, handed[i]? = some r → l'.Kept (toks[i]?) r) ∧ ∀ tok r, l.Kept tok r → l'.Kept tok r := by
  induction k generalizing l toks with
  | zero => exact ⟨[], l, rfl, rfl, fun i r found => (by simp at found), fun _ _ kept => kept⟩
  | succ k ih =>
    obtain ⟨l1, delivered, ahead', first, kept⟩ := gettoken_ahead ahead
    obtain ⟨handed, l', later, length, each, kept'⟩ := ih ahead'
    refine ⟨(l.nc, l.np1) :: handed, l', ?_, by rw [List.length_cons, length], fun i r found => ?_, fun tok r before => ?_⟩
    · rw [Lexer.gettokens, delivered, Option.bind_some]
      dsimp only
      rw [later]
      rfl
    · cases i with
      | zero =>
        obtain rfl := Option.some.inj found
        exact kept' _ _ first
      | succ i =>
        rw [← List.getElem?_tail]
        exact each i r found
    · exact kept' tok r (kept tok r before)

end Run

/-- The calls of `gettoken` deliver the only lexing of the string. Whatever the number of calls behind which `parsecmd`
    returns, each word that was delivered is there as a string of its own. -/
theorem gettoken_tokens {m : Nat → Char} {s n : Nat} {t : Text} (lies : At nul m s t) (enough : t.length < n) :
    Lexes t (tokens t) ∧ (∀ toks, Lexes t toks → toks = tokens t) ∧
      ∃ l, Lexer.start n m s = some l ∧
        ∀ k, ∃ handed l', l.gettokens n k = some (handed, l') ∧ handed.length = k ∧
          ∀ (i : Nat) r, handed[i]? = some r → Delivered l'.mem ((tokens t)[i]?) r := by
  obtain ⟨l, started, ahead, -⟩ := scanToken_at lies enough
  refine ⟨lexes_tokens t, fun toks lexes => lexes.unique, l, started, fun k => ?_⟩
  obtain ⟨handed, l', delivered, length, each, -⟩ := gettokens_ahead ahead k
  exact ⟨handed, l', delivered, length, fun i r found => (each i r found).delivered⟩

theorem gettoken_tokens_redirect :
    ∃ l, Lexer.start 16 (strcpy nul (fun _ => nul) 0 "a>>b".toList) 0 = some l ∧
      ∀ k, ∃ handed l', l.gettokens 16 k = some (handed, l') ∧ handed.length = k ∧
        ∀ (i : Nat) r, handed[i]? = some r → Delivered l'.mem ((tokens "a>>b".toList)[i]?) r :=
  (gettoken_tokens (strcpy_at nul (by decide)) (by decide)).2.2

end Mos.Sh
