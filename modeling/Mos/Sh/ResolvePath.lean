import Mos.Sh.Lexer

namespace Mos.Sh

open CStr

abbrev Chars := Nat → Char

/-- A store to an array of `maxLen` bytes. -/
def store (maxLen : Nat) (b : Chars) (i : Nat) (c : Char) : Except Fault Chars :=
  if i < maxLen then .ok (Function.update b i c) else .error .outside

/-- `strcpy` to the place `d` of an array of `maxLen` bytes. -/
def copyTo (maxLen : Nat) (b : Chars) (d : Nat) (t : Text) : Except Fault Chars :=
  if d + t.length < maxLen then .ok (strcpy nul b d t) else .error .outside

/-- `strlen` of what an array of `maxLen` bytes holds. -/
def strlen (maxLen : Nat) (b : Chars) : Nat := (strAt nul b 0 maxLen).length

/-- The loop that looks for the slash in front of the last component. -/
def slashBefore (b : Chars) : Nat → Nat
  | 0 => 0
  | i + 1 => if b (i + 1) = '/' then i + 1 else slashBefore b i

/-- The component `..`. -/
def goUp (maxLen : Nat) (b : Chars) : Except Fault Chars :=
  let len := strlen maxLen b
  if 1 < len then
    let i := if b (len - 1) = '/' then len - 1 - 1 else len - 1
    let i := slashBefore b i
    store maxLen b (if 0 < i then i else 1) nul
  else .ok b

def appendComponent (maxLen : Nat) (b : Chars) (component : Text) : Except Fault Chars :=
  let len := strlen maxLen b
  if 1 < len then
    if maxLen ≤ len + 1 then .error .failed
    else
      (store maxLen b len '/').bind fun b => (store maxLen b (len + 1) nul).bind fun b =>
        if maxLen ≤ len + 1 + component.length then .error .failed else copyTo maxLen b (len + 1) component
  else if maxLen ≤ len + component.length then .error .failed
  else copyTo maxLen b len component

theorem behind_shorter {p rest : Text} {c : Char} (skip : p.dropWhile (· == '/') = c :: rest) :
    ((c :: rest).dropWhile (· != '/')).length < p.length := by
  have skipped := (List.dropWhile_suffix (l := p) (· == '/')).length_le
  have first : c ≠ '/' := by
    intro eq
    have head := List.head_dropWhile_not (l := p) (p := (· == '/')) (by rw [skip]; exact List.cons_ne_nil c rest)
    simp [skip, eq] at head
  have shorter : ((c :: rest).dropWhile (· != '/')).length ≤ rest.length := by
    rw [List.dropWhile_cons, if_pos (by simp [first])]
    exact (List.dropWhile_suffix _).length_le
  rw [skip, List.length_cons] at skipped
  omega

/-- The loop over the components of the path, which both copies of `resolve_path` have. -/
def resolveLoop (maxLen : Nat) (b : Chars) (p : Text) : Except Fault Chars :=
  match _skip : p.dropWhile (· == '/') with
  | [] => .ok b
  | c :: rest =>
    let component := (c :: rest).takeWhile (· != '/')
    let p' := (c :: rest).dropWhile (· != '/')
    if maxNameLen ≤ component.length then .error .failed
    else if component = ['.'] then resolveLoop maxLen b p'
    else if component = ['.', '.'] then (goUp maxLen b).bind fun b => resolveLoop maxLen b p'
    else (appendComponent maxLen b component).bind fun b => resolveLoop maxLen b p'
termination_by p.length
decreasing_by all_goals exact behind_shorter _skip

/-- `resolve_path` of the library; a null pointer is `none`, and `cwd` is what the kernel keeps in `env_cwd`. -/
def libResolvePath (cwd : Text) (path : Option Text) (resolvedPath : Chars) (maxLen : Nat) : Except Fault Chars :=
  -- `syscall_getcwd` into an array of `MAXPATHLEN` bytes
  if maxPathLen < cwd.length + 1 then .error .failed
  else
    match path with
    | none => copyTo maxLen resolvedPath 0 ['/']
    | some [] => copyTo maxLen resolvedPath 0 ['/']
    | some (c :: rest) =>
      let start :=
        if c = '/' then if maxLen < 2 then .error .failed else copyTo maxLen resolvedPath 0 ['/']
        else if maxLen ≤ cwd.length then .error .failed
        else copyTo maxLen resolvedPath 0 cwd
      start.bind fun b => (resolveLoop maxLen b (if c = '/' then rest else c :: rest)).bind fun b =>
        if b 0 = nul then copyTo maxLen b 0 ['/'] else .ok b

/-- The static copy of `resolve_path` in the shell, which is given the current directory. -/
def shResolvePath (cwd : Text) (path : Option Text) (resolvedPath : Chars) (maxLen : Nat) : Except Fault Chars :=
  match path with
  | none => if maxLen < 2 then .error .failed else copyTo maxLen resolvedPath 0 ['/']
  | some [] => if maxLen < 2 then .error .failed else copyTo maxLen resolvedPath 0 ['/']
  | some (c :: rest) =>
    let start :=
      if c = '/' then if maxLen < 2 then .error .failed else copyTo maxLen resolvedPath 0 ['/']
      else if maxLen ≤ cwd.length then .error .failed
      else copyTo maxLen resolvedPath 0 cwd
    start.bind fun b => (resolveLoop maxLen b (if c = '/' then rest else c :: rest)).bind fun b =>
      if b 0 = nul then if maxLen < 2 then .error .failed else copyTo maxLen b 0 ['/'] else .ok b

def components (p : Text) : List Text := (p.splitOn '/').filter (· ≠ [])

structure IsComponent (c : Text) : Prop where
  nonempty : c ≠ []
  noSlash : '/' ∉ c
  noNul : nul ∉ c
  notDot : c ≠ ['.']
  notDots : c ≠ ['.', '.']

def render (cs : List Text) : Text := if cs = [] then ['/'] else cs.flatMap ('/' :: ·)

def walk (cs : List Text) (c : Text) : List Text :=
  if c = ['.'] then cs else if c = ['.', '.'] then cs.dropLast else cs ++ [c]

def pathTarget (cs : List Text) : Option Text → List Text
  | none => []
  | some path => (components path).foldl walk (if path.head? = some '/' ∨ path = [] then [] else cs)

section Buffer

variable {maxLen : Nat} {b : Chars} {t : Text}

theorem strlen_at (lies : At nul b 0 t) (short : t.length < maxLen) : strlen maxLen b = t.length :=
  congrArg List.length (strAt_eq nul lies (Nat.le_of_lt short))

theorem slashBefore_cut (lies : At nul b 0 t) {i : Nat} (inside : i < t.length) :
    (if 0 < slashBefore b i then slashBefore b i else 1) = cutIndex t i := by
  induction i with
  | zero => rfl
  | succ i ih =>
    have here := lies.get inside
    rw [Nat.zero_add] at here
    rw [slashBefore, cutIndex, here]
    by_cases slash : b (i + 1) = '/'
    · rw [if_pos slash, if_pos (Nat.zero_lt_succ i), if_pos (by rw [slash])]
    · rw [if_neg slash, if_neg fun same => slash (Option.some.inj same)]
      exact ih (Nat.lt_of_succ_lt inside)

theorem cutIndex_le (t : Text) (i : Nat) : 1 ≤ cutIndex t i ∧ cutIndex t i ≤ max 1 i := by
  induction i with
  | zero => exact ⟨Nat.le_refl 1, Nat.le_max_left 1 0⟩
  | succ i ih =>
    rw [cutIndex]
    split <;> omega

/-- The length to which `..` cuts a path. -/
def upTo (t : Text) : Nat := cutIndex t (if t[t.length - 1]? = some '/' then t.length - 1 - 1 else t.length - 1)

theorem upTo_le (long : 1 < t.length) : 1 ≤ upTo t ∧ upTo t < t.length := by
  have le := cutIndex_le t (if t[t.length - 1]? = some '/' then t.length - 1 - 1 else t.length - 1)
  unfold upTo
  split at le <;> split <;> first | omega | contradiction

theorem goUp_at (lies : At nul b 0 t) (short : t.length < maxLen) (long : 1 < t.length) :
    ∃ b', goUp maxLen b = .ok b' ∧ At nul b' 0 (t.take (upTo t)) := by
  have last := lies.get (show t.length - 1 < t.length by omega)
  rw [Nat.zero_add] at last
  have le := upTo_le long
  have slash : b (t.length - 1) = '/' ↔ t[t.length - 1]? = some '/' := by rw [last, Option.some.injEq]
  have place := slashBefore_cut lies
    (show (if t[t.length - 1]? = some '/' then t.length - 1 - 1 else t.length - 1) < t.length by split <;> omega)
  have cut := lies.cut (Nat.le_of_lt le.2)
  rw [Nat.zero_add] at cut
  refine ⟨_, ?_, cut⟩
  unfold goUp
  rw [strlen_at lies short, if_pos long]
  simp only [slash]
  rw [place, store, if_pos (by rw [← upTo]; omega), ← upTo]

theorem appendComponent_at (lies : At nul b 0 t) (short : t.length < maxLen) {component : Text} (free : nul ∉ component) :
    (appendComponent maxLen b component = .error .failed ∧ ((1 < t.length ∧ maxLen ≤ t.length + 1) ∨
      maxLen ≤ (if 1 < t.length then t ++ ['/'] else t).length + component.length)) ∨
    ∃ b', appendComponent maxLen b component = .ok b' ∧ ¬ (1 < t.length ∧ maxLen ≤ t.length + 1) ∧
      (if 1 < t.length then t ++ ['/'] else t).length + component.length < maxLen ∧
      At nul b' 0 ((if 1 < t.length then t ++ ['/'] else t) ++ component) := by
  unfold appendComponent
  rw [strlen_at lies short]
  by_cases long : 1 < t.length
  · simp only [long, if_true, true_and, List.length_append, List.length_singleton]
    by_cases full : maxLen ≤ t.length + 1
    · rw [if_pos full]
      exact .inl ⟨rfl, .inl full⟩
    · rw [if_neg full, store, if_pos short, Except.bind, store, if_pos (by omega), Except.bind]
      by_cases beyond : maxLen ≤ t.length + 1 + component.length
      · rw [if_pos beyond]
        exact .inl ⟨rfl, .inr beyond⟩
      · have slash : nul ∉ t ++ ['/'] := by
          intro mem
          rcases List.mem_append.mp mem with left | last
          · exact lies.free left
          · exact absurd (List.mem_singleton.mp last) (by decide)
        have chars : ∀ i < (t ++ ['/']).length,
            Function.update (Function.update b t.length '/') (t.length + 1) nul (0 + i) = (t ++ ['/']).getD i nul := by
          intro i less
          rw [List.length_append, List.length_singleton] at less
          rw [Nat.zero_add, Function.update_of_ne (by omega)]
          by_cases last : i = t.length
          · rw [last, Function.update_self, List.getD_append_right _ _ _ _ (Nat.le_refl _), Nat.sub_self,
              List.getD_cons_zero]
          · have here := lies.char i (by omega)
            rw [Nat.zero_add] at here
            rw [Function.update_of_ne last, here, List.getD_append _ _ _ _ (by omega)]
        have copied := strcpy_behind nul chars slash free
        rw [Nat.zero_add, List.length_append, List.length_singleton] at copied
        rw [if_neg beyond, copyTo, if_pos (by omega)]
        exact .inr ⟨_, rfl, full, by omega, copied⟩
  · simp only [long, if_false, false_and, not_false_eq_true, true_and, false_or]
    by_cases beyond : maxLen ≤ t.length + component.length
    · rw [if_pos beyond]
      exact .inl ⟨rfl, beyond⟩
    · have copied := strcpy_behind nul (fun i less => lies.char i (Nat.le_of_lt less)) lies.free free
      rw [Nat.zero_add] at copied
      rw [if_neg beyond, copyTo, if_pos (by omega)]
      exact .inr ⟨_, rfl, by omega, copied⟩

end Buffer

theorem resolveLoop_nil {maxLen : Nat} {b : Chars} {p : Text} (skip : p.dropWhile (· == '/') = []) :
    resolveLoop maxLen b p = .ok b := by
  rw [resolveLoop]
  split
  · rfl
  · rename_i found
    cases skip.symm.trans found

theorem resolveLoop_cons {maxLen : Nat} {b : Chars} {p rest : Text} {c : Char} (skip : p.dropWhile (· == '/') = c :: rest) :
    resolveLoop maxLen b p =
      if maxNameLen ≤ ((c :: rest).takeWhile (· != '/')).length then .error .failed
      else if (c :: rest).takeWhile (· != '/') = ['.'] then resolveLoop maxLen b ((c :: rest).dropWhile (· != '/'))
      else if (c :: rest).takeWhile (· != '/') = ['.', '.'] then
        (goUp maxLen b).bind fun b => resolveLoop maxLen b ((c :: rest).dropWhile (· != '/'))
      else (appendComponent maxLen b ((c :: rest).takeWhile (· != '/'))).bind fun b =>
        resolveLoop maxLen b ((c :: rest).dropWhile (· != '/')) := by
  rw [resolveLoop]
  split
  · rename_i found
    cases skip.symm.trans found
  · rename_i found
    cases skip.symm.trans found
    rfl

theorem goUp_root {maxLen : Nat} {b : Chars} {t : Text} (lies : At nul b 0 t) (short : t.length < maxLen)
    (root : ¬ 1 < t.length) : goUp maxLen b = .ok b := by
  unfold goUp
  rw [strlen_at lies short, if_neg root]

theorem noNul_behind {p rest : Text} {c : Char} (skip : p.dropWhile (· == '/') = c :: rest) (free : nul ∉ p) :
    nul ∉ (c :: rest).takeWhile (· != '/') ∧ nul ∉ (c :: rest).dropWhile (· != '/') := by
  have inside : nul ∉ c :: rest := fun mem => free ((List.dropWhile_suffix (l := p) (· == '/')).subset (skip ▸ mem))
  exact ⟨fun mem => inside ((List.takeWhile_prefix _).subset mem), fun mem => inside ((List.dropWhile_suffix _).subset mem)⟩

theorem cutComponent {p rest : Text} {c : Char} (skip : p.dropWhile (· == '/') = c :: rest) :
    (c :: rest).takeWhile (· != '/') ≠ [] ∧ '/' ∉ (c :: rest).takeWhile (· != '/') ∧
      ∀ x, ((c :: rest).dropWhile (· != '/')).head? = some x → x = '/' := by
  have first : c ≠ '/' := by
    intro eq
    have head := List.head_dropWhile_not (l := p) (p := (· == '/')) (by rw [skip]; exact List.cons_ne_nil c rest)
    simp [skip, eq] at head
  refine ⟨?_, fun mem => ?_, fun x head => ?_⟩
  · rw [List.takeWhile_cons_of_pos (by simpa using first)]
    exact List.cons_ne_nil _ _
  · simpa using List.mem_takeWhile_imp mem
  · have stops := List.head?_dropWhile_not (· != '/') (c :: rest)
    rw [head] at stops
    simpa using stops

theorem resolveLoop_text {maxLen : Nat} {b : Chars} {t p : Text} (lies : At nul b 0 t) (nonempty : t ≠ [])
    (short : t.length < maxLen) (free : nul ∉ p) :
    (resolveComponents maxLen t p = none ∧ resolveLoop maxLen b p = .error .failed) ∨
      ∃ u out, resolveComponents maxLen t p = some u ∧ resolveLoop maxLen b p = .ok out ∧ At nul out 0 u ∧ u ≠ [] ∧
        u.length < maxLen := by
  fun_induction resolveComponents maxLen t p generalizing b with
  | case1 t p skip =>
    refine .inr ⟨t, b, ?_, resolveLoop_nil skip, lies, nonempty, short⟩
    rw [if_neg nonempty]
  | case2 =>
    rename_i t p c rest skip component long
    refine .inl ⟨rfl, ?_⟩
    rw [resolveLoop_cons skip, if_pos long]
  | case3 =>
    rename_i t p c rest skip component p' long dot ih
    rw [resolveLoop_cons skip, if_neg long, if_pos dot]
    exact ih lies nonempty short (noNul_behind skip free).2
  | case4 =>
    rename_i t p c rest skip component p' long dot dots above last from' ih
    obtain ⟨b', up, lies'⟩ := goUp_at lies short above
    have le := upTo_le above
    rw [resolveLoop_cons skip, if_neg long, if_neg dot, if_pos dots, up]
    refine ih lies' ?_ ?_ (noNul_behind skip free).2
    · refine List.ne_nil_of_length_pos ?_
      rw [List.length_take]
      show 0 < min (upTo t) t.length
      omega
    · rw [List.length_take]
      omega
  | case5 =>
    rename_i t p c rest skip component p' long dot dots root ih
    rw [resolveLoop_cons skip, if_neg long, if_neg dot, if_pos dots, goUp_root lies short root]
    exact ih lies nonempty short (noNul_behind skip free).2
  | case6 =>
    rename_i t p c rest skip component long dot dots full
    rw [resolveLoop_cons skip, if_neg long, if_neg dot, if_neg dots]
    rcases appendComponent_at lies short (noNul_behind skip free).1 with ⟨failed, -⟩ | ⟨b', -, room, -⟩
    · exact .inl ⟨rfl, by rw [failed]; rfl⟩
    · exact absurd full room
  | case7 =>
    rename_i t p c rest skip component long dot dots room base full
    rw [resolveLoop_cons skip, if_neg long, if_neg dot, if_neg dots]
    rcases appendComponent_at lies short (noNul_behind skip free).1 with ⟨failed, -⟩ | ⟨b', -, -, fits, -⟩
    · exact .inl ⟨rfl, by rw [failed]; rfl⟩
    · exact absurd full (Nat.not_le_of_lt fits)
  | case8 =>
    rename_i t p c rest skip component p' long dot dots room base fits ih
    rw [resolveLoop_cons skip, if_neg long, if_neg dot, if_neg dots]
    rcases appendComponent_at lies short (noNul_behind skip free).1 with ⟨-, beyond⟩ | ⟨b', goes, -, less, lies'⟩
    · exact absurd beyond (not_or.mpr ⟨room, fits⟩)
    · rw [goes]
      refine ih lies' ?_ ?_ (noNul_behind skip free).2
      · exact List.append_ne_nil_of_right_ne_nil _ (cutComponent skip).1
      · rw [List.length_append]
        exact less

section Components

variable {p w rest : Text}

theorem components_skip (p : Text) : components p = components (p.dropWhile (· == '/')) := by
  induction p with
  | nil => rfl
  | cons c p ih =>
    by_cases slash : c = '/'
    · subst slash
      have split := List.splitOn_append_cons_self (a := '/') [] p
      rw [List.nil_append] at split
      rw [List.dropWhile_cons_of_pos (by rfl), ← ih, components, split]
      simp [components]
    · rw [List.dropWhile_cons_of_neg (by simpa using slash)]

theorem components_cons (nonempty : w ≠ []) (noSlash : '/' ∉ w) (behind : ∀ x, rest.head? = some x → x = '/') :
    components (w ++ rest) = w :: components rest := by
  cases rest with
  | nil =>
    rw [List.append_nil, components, List.splitOn_eq_singleton noSlash]
    simp [components, nonempty]
  | cons x rest =>
    obtain rfl := behind x rfl
    rw [components_skip ('/' :: rest), List.dropWhile_cons_of_pos (by rfl), ← components_skip, components,
      List.splitOn_append_cons_self, List.splitOn_eq_singleton noSlash, List.filter_append]
    simp [components, nonempty]

theorem components_nil (skip : p.dropWhile (· == '/') = []) : components p = [] := by
  rw [components_skip, skip]
  rfl

theorem components_next {c : Char} (skip : p.dropWhile (· == '/') = c :: rest) :
    components p = (c :: rest).takeWhile (· != '/') :: components ((c :: rest).dropWhile (· != '/')) := by
  obtain ⟨nonempty, noSlash, behind⟩ := cutComponent skip
  rw [components_skip, skip, ← components_cons nonempty noSlash behind, List.takeWhile_append_dropWhile]

end Components

section Render

variable {cs : List Text} {c : Text}

theorem render_concat (cs : List Text) (c : Text) : render (cs ++ [c]) = cs.flatMap ('/' :: ·) ++ '/' :: c := by
  simp [render]

theorem render_length_iff (each : ∀ c ∈ cs, IsComponent c) : 1 < (render cs).length ↔ cs ≠ [] := by
  rcases cs.eq_nil_or_concat with rfl | ⟨cs, c, rfl⟩
  · simp [render]
  · have pos := List.length_pos_iff.mpr (each c (by simp)).nonempty
    rw [List.concat_eq_append, render_concat]
    simp
    omega

theorem render_append (each : ∀ c ∈ cs, IsComponent c) (c : Text) :
    (if 1 < (render cs).length then render cs ++ ['/'] else render cs) ++ c = render (cs ++ [c]) := by
  rw [render_concat]
  by_cases empty : cs = []
  · subst empty
    simp [render]
  · rw [if_pos ((render_length_iff each).mpr empty), render, if_neg empty]
    simp

theorem cutIndex_word {pre w : Text} (noSlash : '/' ∉ w) {i : Nat} (inside : i ≤ w.length) :
    cutIndex (pre ++ '/' :: w) (pre.length + i) = if pre = [] then 1 else pre.length := by
  induction i with
  | zero =>
    cases pre with
    | nil => rfl
    | cons x pre =>
      rw [if_neg (List.cons_ne_nil x pre), Nat.add_zero, List.length_cons, cutIndex, List.cons_append,
        List.getElem?_cons_succ, List.getElem?_append_right (Nat.le_refl _), Nat.sub_self, List.getElem?_cons_zero,
        if_pos rfl]
  | succ i ih =>
    have here : (pre ++ '/' :: w)[pre.length + i + 1]? ≠ some '/' := by
      rw [List.getElem?_append_right (by omega)]
      have place : pre.length + i + 1 - pre.length = i + 1 := by omega
      rw [place, List.getElem?_cons_succ]
      exact fun found => noSlash (List.mem_of_getElem? found)
    rw [← Nat.add_assoc, cutIndex, if_neg here]
    exact ih (Nat.le_of_succ_le inside)

theorem render_up (each : ∀ c ∈ cs, IsComponent c) (some' : cs ≠ []) : (render cs).take (upTo (render cs)) = render cs.dropLast := by
  obtain ⟨cs, c, rfl⟩ := (cs.eq_nil_or_concat).resolve_left some'
  rw [List.concat_eq_append] at each ⊢
  have component := each c (by simp)
  have pos := List.length_pos_iff.mpr component.nonempty
  rw [render_concat, List.dropLast_concat]
  generalize pre : cs.flatMap ('/' :: ·) = pre'
  have last : (pre' ++ '/' :: c).length - 1 = pre'.length + c.length := by
    rw [List.length_append, List.length_cons]
    omega
  have notSlash : (pre' ++ '/' :: c)[pre'.length + c.length]? ≠ some '/' := by
    rw [List.getElem?_append_right (by omega), Nat.add_sub_cancel_left]
    obtain ⟨n, length⟩ : ∃ n, c.length = n + 1 := ⟨c.length - 1, by omega⟩
    rw [length, List.getElem?_cons_succ]
    exact fun found => component.noSlash (List.mem_of_getElem? found)
  rw [upTo, last, if_neg notSlash, cutIndex_word component.noSlash (Nat.le_refl _)]
  by_cases empty : cs = []
  · subst empty
    obtain rfl : [] = pre' := pre
    simp [render]
  · have nonempty : pre' ≠ [] := by
      rw [← pre]
      cases cs with
      | nil => exact absurd rfl empty
      | cons x cs => simp
    rw [if_neg nonempty, List.take_left, render, if_neg empty, pre]

end Render

section Fold

variable {maxLen : Nat} {cs : List Text} {p u : Text}

theorem isComponent_cut {rest : Text} {c : Char} (skip : p.dropWhile (· == '/') = c :: rest) (free : nul ∉ p)
    (dot : (c :: rest).takeWhile (· != '/') ≠ ['.']) (dots : (c :: rest).takeWhile (· != '/') ≠ ['.', '.']) :
    IsComponent ((c :: rest).takeWhile (· != '/')) :=
  ⟨(cutComponent skip).1, (cutComponent skip).2.1, (noNul_behind skip free).1, dot, dots⟩

theorem walk_components {c : Text} (each : ∀ c ∈ cs, IsComponent c) (component : IsComponent c) :
    ∀ d ∈ cs ++ [c], IsComponent d := by
  intro d mem
  rcases List.mem_append.mp mem with before | last
  · exact each d before
  · obtain rfl := List.mem_singleton.mp last
    exact component

theorem render_ne_nil (cs : List Text) : render cs ≠ [] := by
  cases cs <;> simp [render]

theorem resolveComponents_walk (each : ∀ c ∈ cs, IsComponent c) (free : nul ∉ p)
    (found : resolveComponents maxLen (render cs) p = some u) :
    u = render ((components p).foldl walk cs) ∧ (∀ c ∈ (components p).foldl walk cs, IsComponent c) ∧
      ∀ c ∈ components p, c.length < maxNameLen := by
  generalize path : render cs = t at found
  fun_induction resolveComponents maxLen t p generalizing cs with
  | case1 =>
    rename_i t p skip
    cases found
    rw [components_nil skip, if_neg (path ▸ render_ne_nil cs)]
    exact ⟨path.symm, each, fun c mem => by cases mem⟩
  | case2 => cases found
  | case3 =>
    rename_i t p c rest skip component p' long dot ih
    obtain ⟨same, each', short⟩ := ih each (noNul_behind skip free).2 path found
    rw [components_next skip, List.foldl_cons, walk, if_pos dot]
    exact ⟨same, each', List.forall_mem_cons.mpr ⟨Nat.lt_of_not_le long, short⟩⟩
  | case4 =>
    rename_i t p c rest skip component p' long dot dots above last from' ih
    have some' : cs ≠ [] := (render_length_iff each).mp (by rw [path]; exact above)
    have cut : render cs.dropLast = t.take (upTo t) := by rw [← render_up each some', path]
    obtain ⟨same, each', short⟩ := ih (fun c mem => each c (List.mem_of_mem_dropLast mem)) (noNul_behind skip free).2 cut found
    rw [components_next skip, List.foldl_cons, walk, if_neg dot, if_pos dots]
    exact ⟨same, each', List.forall_mem_cons.mpr ⟨Nat.lt_of_not_le long, short⟩⟩
  | case5 =>
    rename_i t p c rest skip component p' long dot dots root ih
    have none' : cs = [] := by
      by_contra some'
      exact root (path ▸ (render_length_iff each).mpr some')
    obtain ⟨same, each', short⟩ := ih each (noNul_behind skip free).2 path found
    rw [components_next skip, List.foldl_cons, walk, if_neg dot, if_pos dots, none', List.dropLast_nil]
    rw [none'] at same each'
    exact ⟨same, each', List.forall_mem_cons.mpr ⟨Nat.lt_of_not_le long, short⟩⟩
  | case6 => cases found
  | case7 => cases found
  | case8 =>
    rename_i t p c rest skip component p' long dot dots room base fits ih
    have component' := isComponent_cut skip free dot dots
    have next : render (cs ++ [component]) = base ++ component := by
      rw [← render_append each, path]
      rfl
    obtain ⟨same, each', short⟩ := ih (walk_components each component') (noNul_behind skip free).2 next found
    rw [components_next skip, List.foldl_cons, walk, if_neg dot, if_neg dots]
    exact ⟨same, each', List.forall_mem_cons.mpr ⟨Nat.lt_of_not_le long, short⟩⟩

theorem render_length_le (cs ds : List Text) : (render cs).length ≤ (render (cs ++ ds)).length := by
  by_cases empty : cs = []
  · subst empty
    exact List.length_pos_iff.mpr (render_ne_nil ds)
  · have nonempty : cs ++ ds ≠ [] := List.append_ne_nil_of_left_ne_nil empty ds
    rw [render, if_neg empty, render, if_neg nonempty, List.flatMap_append, List.length_append]
    exact Nat.le_add_right _ _

theorem resolveComponents_plain (each : ∀ c ∈ cs, IsComponent c) (plain : ∀ c ∈ components p, IsComponent c)
    (short : ∀ c ∈ components p, c.length < maxNameLen) (room : (render (cs ++ components p)).length < maxLen) :
    resolveComponents maxLen (render cs) p = some (render (cs ++ components p)) := by
  generalize path : render cs = t
  fun_induction resolveComponents maxLen t p generalizing cs with
  | case1 =>
    rename_i t p skip
    rw [components_nil skip, List.append_nil, path, if_neg (path ▸ render_ne_nil cs)]
  | case2 =>
    rename_i t p c rest skip component long
    exact absurd long (Nat.not_le_of_lt (short component (by rw [components_next skip]; exact List.mem_cons_self)))
  | case3 =>
    rename_i t p c rest skip component p' long dot ih
    exact absurd dot (plain component (by rw [components_next skip]; exact List.mem_cons_self)).notDot
  | case4 =>
    rename_i t p c rest skip component p' long dot dots above last from' ih
    exact absurd dots (plain component (by rw [components_next skip]; exact List.mem_cons_self)).notDots
  | case5 =>
    rename_i t p c rest skip component p' long dot dots root ih
    exact absurd dots (plain component (by rw [components_next skip]; exact List.mem_cons_self)).notDots
  | case6 =>
    rename_i t p c rest skip component long dot dots full
    have pos := List.length_pos_iff.mpr (cutComponent skip).1
    have le := render_length_le (cs ++ [(c :: rest).takeWhile (· != '/')]) (components ((c :: rest).dropWhile (· != '/')))
    rw [components_next skip, List.append_cons] at room
    rw [← render_append each, path, if_pos full.1, List.length_append, List.length_append, List.length_singleton] at le
    omega
  | case7 =>
    rename_i t p c rest skip component long dot dots room' base full
    have le := render_length_le (cs ++ [(c :: rest).takeWhile (· != '/')]) (components ((c :: rest).dropWhile (· != '/')))
    rw [components_next skip, List.append_cons] at room
    rw [← render_append each, path, List.length_append] at le
    have full' : maxLen ≤ (if 1 < t.length then t ++ ['/'] else t).length + ((c :: rest).takeWhile (· != '/')).length := full
    omega
  | case8 =>
    rename_i t p c rest skip component p' long dot dots room' base fits ih
    have rest' := components_next skip
    have next : render (cs ++ [component]) = base ++ component := by
      rw [← render_append each, path]
      rfl
    rw [rest', List.append_cons] at room
    rw [rest', List.append_cons]
    rw [rest'] at plain short
    exact ih (walk_components each (plain _ List.mem_cons_self)) (fun c mem => plain c (List.mem_cons_of_mem _ mem))
      (fun c mem => short c (List.mem_cons_of_mem _ mem)) room next

end Fold

section Entry

variable {maxLen : Nat} {cwd : Text} {path : Option Text} {buf : Chars}

theorem copyTo_root (buf : Chars) (two : 2 ≤ maxLen) : ∃ out, copyTo maxLen buf 0 ['/'] = .ok out ∧ At nul out 0 ['/'] :=
  ⟨strcpy nul buf 0 ['/'], if_pos (Nat.lt_of_succ_le two), strcpy_at nul (by decide)⟩

theorem shResolvePath_text (path : Option Text) (buf : Chars) (nonempty : cwd ≠ []) (freeCwd : nul ∉ cwd) (free : ∀ p, path = some p → nul ∉ p)
    (two : 2 ≤ maxLen) :
    (resolvePath cwd (path.getD []) maxLen = none ∧ shResolvePath cwd path buf maxLen = .error .failed) ∨
      ∃ u out, resolvePath cwd (path.getD []) maxLen = some u ∧ shResolvePath cwd path buf maxLen = .ok out ∧
        At nul out 0 u ∧ u.length < maxLen := by
  have noRoot : ¬ maxLen < 2 := Nat.not_lt_of_le two
  obtain ⟨root, copied, rootAt⟩ := copyTo_root buf two
  have finish {b : Chars} {t p : Text} (lies : At nul b 0 t) (nonempty : t ≠ []) (short : t.length < maxLen) (free : nul ∉ p) :
      (resolveComponents maxLen t p = none ∧ ((resolveLoop maxLen b p).bind fun b =>
        if b 0 = nul then if maxLen < 2 then .error .failed else copyTo maxLen b 0 ['/'] else .ok b) = .error .failed) ∨
      ∃ u out, resolveComponents maxLen t p = some u ∧ ((resolveLoop maxLen b p).bind fun b =>
        if b 0 = nul then if maxLen < 2 then .error .failed else copyTo maxLen b 0 ['/'] else .ok b) = .ok out ∧
        At nul out 0 u ∧ u.length < maxLen := by
    rcases resolveLoop_text lies nonempty short free with ⟨none', failed⟩ | ⟨u, out, some', goes, lies', nonempty', short'⟩
    · exact .inl ⟨none', by rw [failed]; rfl⟩
    · have first := lies'.nonzero (List.length_pos_iff.mpr nonempty')
      refine .inr ⟨u, out, some', ?_, lies', short'⟩
      rw [goes]
      exact if_neg first
  cases path with
  | none =>
    refine .inr ⟨['/'], root, ?_, ?_, rootAt, two⟩
    · rw [Option.getD_none, resolvePath, if_pos rfl, if_neg noRoot]
    · rw [shResolvePath, if_neg noRoot, copied]
  | some p =>
    cases p with
    | nil =>
      refine .inr ⟨['/'], root, ?_, ?_, rootAt, two⟩
      · rw [Option.getD_some, resolvePath, if_pos rfl, if_neg noRoot]
      · rw [shResolvePath, if_neg noRoot, copied]
    | cons c rest =>
      have freePath := free _ rfl
      rw [Option.getD_some, resolvePath, if_neg (List.cons_ne_nil c rest), List.head?_cons, shResolvePath]
      by_cases slash : c = '/'
      · rw [if_pos (by rw [slash]), if_neg noRoot, if_pos slash, if_neg noRoot, copied, if_pos slash]
        exact finish rootAt (by decide) two fun mem => freePath (List.mem_cons_of_mem c mem)
      · rw [if_neg fun same => slash (Option.some.inj same), if_neg slash]
        by_cases long : maxLen ≤ cwd.length
        · rw [if_pos long, if_pos long]
          exact .inl ⟨rfl, rfl⟩
        · rw [if_neg long, if_neg long, copyTo, if_pos (by omega), if_neg slash]
          exact finish (strcpy_at nul freeCwd) nonempty (Nat.lt_of_not_le long) freePath

/-- Both copies do the same, as long as the current directory fits into the array of the kernel. -/
theorem shResolvePath_eq (fits : cwd.length < maxPathLen) (two : 2 ≤ maxLen) :
    shResolvePath cwd path buf maxLen = libResolvePath cwd path buf maxLen := by
  have noRoot : ¬ maxLen < 2 := Nat.not_lt_of_le two
  have read : ¬ maxPathLen < cwd.length + 1 := by omega
  unfold shResolvePath libResolvePath
  rw [if_neg read]
  cases path with
  | none => exact if_neg noRoot
  | some p =>
    cases p with
    | nil => exact if_neg noRoot
    | cons c rest => simp only [if_neg noRoot]

theorem libResolvePath_far (far : maxPathLen ≤ cwd.length) : libResolvePath cwd path buf maxLen = .error .failed := by
  unfold libResolvePath
  rw [if_pos (by omega)]

theorem shResolvePath_absolute {cs : List Text} (cwd cwd' : Text) :
    shResolvePath cwd (some (render cs)) buf maxLen = shResolvePath cwd' (some (render cs)) buf maxLen := by
  obtain ⟨rest, slash⟩ : ∃ rest, render cs = '/' :: rest := by cases cs <;> exact ⟨_, rfl⟩
  simp only [slash, shResolvePath, if_true]

theorem render_noNul {cs : List Text} (each : ∀ c ∈ cs, IsComponent c) : nul ∉ render cs := by
  unfold render
  split
  · decide
  · intro mem
    obtain ⟨c, inside, at'⟩ := List.mem_flatMap.mp mem
    rcases List.mem_cons.mp at' with slash | inWord
    · exact absurd slash (by decide)
    · exact (each c inside).noNul inWord

theorem resolvePath_target {cs : List Text} {u : Text} (each : ∀ c ∈ cs, IsComponent c) (free : ∀ p, path = some p → nul ∉ p)
    (found : resolvePath (render cs) (path.getD []) maxLen = some u) :
    u = render (pathTarget cs path) ∧ (∀ c ∈ pathTarget cs path, IsComponent c) ∧
      ∀ p, path = some p → ∀ c ∈ components p, c.length < maxNameLen := by
  have root : ∀ c ∈ ([] : List Text), IsComponent c := fun c mem => by cases mem
  cases path with
  | none =>
    rw [Option.getD_none, resolvePath, if_pos rfl] at found
    split at found <;> cases found
    exact ⟨rfl, root, fun p none' => by cases none'⟩
  | some p =>
    have freePath := free p rfl
    rw [Option.getD_some, resolvePath] at found
    by_cases empty : p = []
    · subst empty
      rw [if_pos rfl] at found
      split at found <;> cases found
      exact ⟨rfl, root, fun p some' => by cases some'; exact fun c mem => by cases mem⟩
    · rw [if_neg empty] at found
      by_cases slash : p.head? = some '/'
      · rw [if_pos slash] at found
        split at found
        · cases found
        · obtain ⟨rest, rfl⟩ : ∃ rest, p = '/' :: rest := List.head?_eq_some_iff.mp slash
          have same : components ('/' :: rest) = components rest := by
            rw [components_skip, List.dropWhile_cons_of_pos (by rfl), ← components_skip]
          obtain ⟨is, each', short⟩ := resolveComponents_walk root
            (fun mem => freePath (List.mem_cons_of_mem _ mem)) found
          rw [pathTarget, if_pos (.inl rfl), same]
          exact ⟨is, each', fun p some' => by cases some'; exact same ▸ short⟩
      · rw [if_neg slash] at found
        split at found
        · cases found
        · obtain ⟨is, each', short⟩ := resolveComponents_walk each freePath found
          rw [pathTarget, if_neg (not_or.mpr ⟨slash, empty⟩)]
          exact ⟨is, each', fun p some' => by cases some'; exact short⟩

theorem components_flatMap {cs : List Text} (each : ∀ c ∈ cs, IsComponent c) : components (cs.flatMap ('/' :: ·)) = cs := by
  induction cs with
  | nil => rfl
  | cons c cs ih =>
    have component := each c List.mem_cons_self
    have behind : ∀ x, (cs.flatMap ('/' :: ·)).head? = some x → x = '/' := by
      intro x head
      cases cs with
      | nil => cases head
      | cons d cs =>
        rw [List.flatMap_cons, List.cons_append, List.head?_cons] at head
        exact (Option.some.inj head).symm
    have slash : ((c ++ cs.flatMap ('/' :: ·)).dropWhile (· == '/')) = c ++ cs.flatMap ('/' :: ·) := by
      obtain ⟨x, c', rfl⟩ := List.exists_cons_of_ne_nil component.nonempty
      have first : x ≠ '/' := fun eq => component.noSlash (by simp [eq])
      rw [List.cons_append, List.dropWhile_cons_of_neg (by simpa using first)]
    rw [List.flatMap_cons, List.cons_append, components_skip, List.dropWhile_cons_of_pos (by rfl), slash,
      components_cons component.nonempty component.noSlash behind, ih fun d mem => each d (List.mem_cons_of_mem c mem)]

theorem components_render {cs : List Text} (each : ∀ c ∈ cs, IsComponent c) : components (render cs) = cs := by
  unfold render
  split
  · rename_i empty
    rw [empty]
    rfl
  · exact components_flatMap each

theorem resolvePath_render (cwd : Text) {cs : List Text} (each : ∀ c ∈ cs, IsComponent c) (short : ∀ c ∈ cs, c.length < maxNameLen)
    (room : (render cs).length < maxLen) (two : 2 ≤ maxLen) : resolvePath cwd (render cs) maxLen = some (render cs) := by
  have root : ∀ c ∈ ([] : List Text), IsComponent c := fun c mem => by cases mem
  obtain ⟨rest, path⟩ : ∃ rest, render cs = '/' :: rest := by
    cases cs with
    | nil => exact ⟨[], rfl⟩
    | cons c cs => exact ⟨_, rfl⟩
  have same : components rest = cs := by
    have all := components_render each
    rwa [path, components_skip, List.dropWhile_cons_of_pos (by rfl), ← components_skip] at all
  have room' : (render ([] ++ components rest)).length < maxLen := by
    rw [same]
    exact room
  have resolved := resolveComponents_plain root (same.symm ▸ each) (same.symm ▸ short) room'
  rw [same] at resolved
  rw [resolvePath, if_neg (render_ne_nil cs), path, List.head?_cons, if_pos rfl, if_neg (Nat.not_lt_of_le two), List.tail_cons]
  exact resolved.trans (congrArg some path)

/-- `resolve_path` gives the canonical path of the place that the path leads to from the current directory. -/
theorem resolvePath_canonical {cs : List Text} (each : ∀ c ∈ cs, IsComponent c) (free : ∀ p, path = some p → nul ∉ p)
    (two : 2 ≤ maxLen) :
    ((render cs).length < maxPathLen → shResolvePath (render cs) path buf maxLen = libResolvePath (render cs) path buf maxLen) ∧
      libResolvePath (render cs) path buf maxLen ≠ .error .outside ∧
      ∀ out, libResolvePath (render cs) path buf maxLen = .ok out →
        At nul out 0 (render (pathTarget cs path)) ∧ (∀ c ∈ pathTarget cs path, IsComponent c) ∧
        (render (pathTarget cs path)).length < maxLen ∧
        ∀ cwd' buf', cwd'.length < maxPathLen →
          ((∃ again, libResolvePath cwd' (some (render (pathTarget cs path))) buf' maxLen = .ok again ∧
            At nul again 0 (render (pathTarget cs path))) ↔ ∀ c ∈ pathTarget cs path, c.length < maxNameLen) := by
  have freeCwd := render_noNul each
  refine ⟨fun fits => shResolvePath_eq fits two, ?_, fun out goes => ?_⟩
  · intro outside
    by_cases fits : (render cs).length < maxPathLen
    · rw [← shResolvePath_eq fits two] at outside
      rcases shResolvePath_text path buf (render_ne_nil cs) freeCwd free two with ⟨-, failed⟩ | ⟨u, out, -, goes, -⟩
      · cases failed.symm.trans outside
      · cases goes.symm.trans outside
    · cases (libResolvePath_far (Nat.le_of_not_lt fits)).symm.trans outside
  · have fits : (render cs).length < maxPathLen := by
      by_contra long
      cases (libResolvePath_far (Nat.le_of_not_lt long)).symm.trans goes
    rw [← shResolvePath_eq fits two] at goes
    rcases shResolvePath_text path buf (render_ne_nil cs) freeCwd free two with ⟨-, failed⟩ | ⟨u, out', found, goes', lies, short⟩
    · cases failed.symm.trans goes
    · cases goes'.symm.trans goes
      obtain ⟨rfl, each', -⟩ := resolvePath_target each free found
      refine ⟨lies, each', short, fun cwd' buf' fits' => ?_⟩
      have freePath : ∀ p, some (render (pathTarget cs path)) = some p → nul ∉ p := fun p same => by
        cases same
        exact render_noNul each'
      have second := shResolvePath_text (some (render (pathTarget cs path))) buf' (render_ne_nil cs) freeCwd freePath two
      rw [← shResolvePath_eq fits' two, shResolvePath_absolute cwd' (render cs)]
      constructor
      · rintro ⟨again, goes', -⟩
        rcases second with ⟨-, failed⟩ | ⟨u, out', found', -, -, -⟩
        · cases failed.symm.trans goes'
        · obtain ⟨-, -, named⟩ := resolvePath_target each freePath found'
          have all := named _ rfl
          rwa [components_render each'] at all
      · intro all
        have again := resolvePath_render (render cs) each' all short two
        rcases second with ⟨none', -⟩ | ⟨u, out', found', goes', lies', -⟩
        · cases none'.symm.trans again
        · cases found'.symm.trans again
          exact ⟨out', goes', lies'⟩

end Entry

theorem resolve_dots : resolvePath "/a/b".toList "../c".toList 16 = some "/a/c".toList := by
  have up : resolveComponents 16 "/a/b".toList "../c".toList = resolveComponents 16 "/a".toList "/c".toList := by
    rw [resolveComponents.eq_def]
    split
    · rename_i found
      exact absurd found (by decide)
    · rename_i found
      obtain ⟨rfl, rfl⟩ := List.cons.inj (found : ['.', '.', '/', 'c'] = _)
      rfl
  have down : resolveComponents 16 "/a".toList "/c".toList = resolveComponents 16 "/a/c".toList [] := by
    rw [resolveComponents.eq_def]
    split
    · rename_i found
      exact absurd found (by decide)
    · rename_i found
      obtain ⟨rfl, rfl⟩ := List.cons.inj (found : ['c'] = _)
      rfl
  rw [resolvePath, if_neg (by decide), if_neg (by decide), if_neg (by decide), up, down]
  simp [resolveComponents]

/-- `../c` in `/a/b` -/
theorem resolvePath_canonical_up :
    ∃ out again, libResolvePath (render [['a'], ['b']]) (some "../c".toList) (fun _ => nul) 16 = .ok out ∧
      At nul out 0 "/a/c".toList ∧ libResolvePath "/".toList (some "/a/c".toList) (fun _ => nul) 16 = .ok again ∧
      At nul again 0 "/a/c".toList := by
  have each : ∀ c ∈ [['a'], ['b']], IsComponent c := by
    intro c mem
    simp only [List.mem_cons, List.not_mem_nil, or_false] at mem
    rcases mem with rfl | rfl <;> exact ⟨by decide, by decide, by decide, by decide, by decide⟩
  have free : ∀ p, some "../c".toList = some p → nul ∉ p := fun p same => by
    cases same
    decide
  have target : render (pathTarget [['a'], ['b']] (some "../c".toList)) = "/a/c".toList := by decide
  have two : 2 ≤ 16 := by decide
  obtain ⟨out, goes⟩ : ∃ out, libResolvePath (render [['a'], ['b']]) (some "../c".toList) (fun _ => nul) 16 = .ok out := by
    rw [← shResolvePath_eq (by decide) two]
    rcases shResolvePath_text (some "../c".toList) (fun _ => nul) (render_ne_nil _) (render_noNul each) free two with
      ⟨none', -⟩ | ⟨u, out, -, goes, -⟩
    · cases none'.symm.trans resolve_dots
    · exact ⟨out, goes⟩
  obtain ⟨lies, -, -, again⟩ := (resolvePath_canonical each free two).2.2 out goes
  rw [target] at lies again
  obtain ⟨out', goes', lies'⟩ := (again "/".toList (fun _ => nul) (by decide)).mpr (by decide)
  exact ⟨out, out', goes, lies, goes', lies'⟩

def longName : Text := List.replicate maxNameLen 'a'

theorem resolveComponents_dot {maxLen : Nat} {t p rest : Text} {c : Char} (skip : p.dropWhile (· == '/') = c :: rest)
    (dot : (c :: rest).takeWhile (· != '/') = ['.']) :
    resolveComponents maxLen t p = resolveComponents maxLen t ((c :: rest).dropWhile (· != '/')) := by
  have short : ¬ maxNameLen ≤ ((c :: rest).takeWhile (· != '/')).length := by
    rw [dot]
    decide
  rw [resolveComponents.eq_def]
  split
  · rename_i found
    cases skip.symm.trans found
  · rename_i found
    cases skip.symm.trans found
    rw [if_neg short, if_pos dot]

theorem longName_component : ∀ c ∈ [longName], IsComponent c := by
  intro c mem
  obtain rfl := List.mem_singleton.mp mem
  have only {x : Char} (inside : x ∈ longName) : x = 'a' := (List.mem_replicate.mp inside).2
  refine ⟨?_, fun mem => absurd (only mem) (by decide), fun mem => absurd (only mem) (by decide), ?_, ?_⟩
  · exact List.ne_nil_of_length_pos (by rw [longName, List.length_replicate]; decide)
  · intro same
    exact absurd (congrArg List.length same) (by rw [longName, List.length_replicate]; decide)
  · intro same
    exact absurd (congrArg List.length same) (by rw [longName, List.length_replicate]; decide)

/-- A current directory with a long name is resolved once, but not again. -/
theorem resolvePath_long :
    (∃ out, libResolvePath (render [longName]) (some ['.']) (fun _ => nul) maxPathLen = .ok out ∧
      At nul out 0 (render [longName])) ∧
    ∀ cwd' buf', libResolvePath cwd' (some (render [longName])) buf' maxPathLen = .error .failed := by
  have each := longName_component
  have two : 2 ≤ maxPathLen := by decide
  have length : (render [longName]).length < maxPathLen := by
    simp [render, longName, maxNameLen, maxPathLen]
  constructor
  · have stays : resolvePath (render [longName]) ['.'] maxPathLen = some (render [longName]) := by
      have short : ¬ maxPathLen ≤ (render [longName]).length := Nat.not_le_of_lt length
      have none' (t : Text) (nonempty : t ≠ []) : resolveComponents maxPathLen t [] = some t := by
        simp [resolveComponents, nonempty]
      rw [resolvePath, if_neg (by decide), if_neg (by decide), if_neg short, resolveComponents_dot (c := '.') rfl rfl]
      exact none' _ (render_ne_nil _)
    rw [← shResolvePath_eq length two]
    rcases shResolvePath_text (some ['.']) (fun _ => nul) (render_ne_nil _) (render_noNul each)
      (fun p same => by cases same; decide) two with ⟨none', -⟩ | ⟨u, out, found, goes, lies, -⟩
    · cases none'.symm.trans stays
    · cases found.symm.trans stays
      exact ⟨out, goes, lies⟩
  · intro cwd' buf'
    by_cases fits : cwd'.length < maxPathLen
    · have free : ∀ p, some (render [longName]) = some p → nul ∉ p := fun p same => by
        cases same
        exact render_noNul each
      rw [← shResolvePath_eq fits two, shResolvePath_absolute cwd' (render [longName])]
      rcases shResolvePath_text (some (render [longName])) buf' (render_ne_nil _) (render_noNul each) free two with
        ⟨-, failed⟩ | ⟨u, out, found, -⟩
      · exact failed
      · have named := (resolvePath_target each free found).2.2 _ rfl longName
        rw [components_render each] at named
        exact absurd (named List.mem_cons_self) (by rw [longName, List.length_replicate]; exact Nat.lt_irrefl _)
    · exact libResolvePath_far (Nat.le_of_not_lt fits)

end Mos.Sh
