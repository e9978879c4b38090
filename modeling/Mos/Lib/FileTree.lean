import Mos.Lib.Machine
import Mathlib.Data.List.Infix
import Mathlib.Logic.Function.Basic

/-! A file system as a map of paths, and the changes that it makes: `ν` are the names, `κ` what stands under a path, and
    `dir` is a directory. -/

namespace FileTree

/-- What stands under each path. -/
abbrev Tree (ν κ : Type) := List ν → Option κ

inductive Change (ν κ : Type) where
  | stay
  | add (path : List ν) (node : κ)
  | prune (path : List ν)
  | write (path : List ν) (node : κ)

variable {ν κ : Type} {dir : κ} {tree tree' : Tree ν κ} {change : Change ν κ} {changes : List (Change ν κ)} {path p q : List ν}

/-- The root is a directory, and each other path leads through one. -/
structure WellFormed (dir : κ) (tree : Tree ν κ) : Prop where
  root : tree [] = some dir
  parent : ∀ parent name, tree (parent ++ [name]) ≠ none → tree parent = some dir

/-- `add` makes a new entry of a directory, and `write` is of a file. -/
def Allowed (dir : κ) (tree : Tree ν κ) : Change ν κ → Prop
  | .stay => True
  | .add path _ => tree path = none ∧ ∃ parent name, path = parent ++ [name] ∧ tree parent = some dir
  | .prune path => tree path ≠ none
  | .write path node => node ≠ dir ∧ ∃ old, tree path = some old ∧ old ≠ dir

/-- The paths whose nodes a change may touch. The root stays. -/
def Touches : Change ν κ → List ν → Prop
  | .stay, _ => False
  | .add path _, p => p = path
  | .prune path, p => path <+: p ∧ p ≠ []
  | .write path _, p => p = path

variable [DecidableEq ν]

/-- `prune` takes what is at the path and below it. -/
def apply (tree : Tree ν κ) : Change ν κ → Tree ν κ
  | .stay => tree
  | .add path node => Function.update tree path (some node)
  | .prune path => fun p => if path <+: p ∧ p ≠ [] then none else tree p
  | .write path node => Function.update tree path (some node)

def step (tree : Tree ν κ) (change : Change ν κ) : Option (Tree ν κ) := some (apply tree change)

theorem apply_add (node : κ) : apply tree (.add path node) path = some node := Function.update_self ..

theorem apply_other (other : ¬ Touches change p) : apply tree change p = tree p := by
  cases change with
  | stay => rfl
  | add path node => exact Function.update_of_ne other _ _
  | prune path => exact if_neg other
  | write path node => exact Function.update_of_ne other _ _

theorem update_dir {node : κ} (notDir : tree path ≠ some dir) (there : tree p = some dir) :
    Function.update tree path (some node) p = some dir := by
  rw [Function.update_of_ne, there]
  rintro rfl
  exact notDir there

theorem WellFormed.apply (well : WellFormed dir tree) (allowed : Allowed dir tree change) :
    WellFormed dir (apply tree change) := by
  cases change with
  | stay => exact well
  | add path node =>
    obtain ⟨absent, above, last, rfl, isDir⟩ := allowed
    have notDir : tree (above ++ [last]) ≠ some dir := by simp [absent]
    refine ⟨update_dir notDir well.root, fun parent name present => update_dir notDir ?_⟩
    by_cases here : parent ++ [name] = above ++ [last]
    · obtain ⟨rfl, -⟩ := List.append_inj' here rfl
      exact isDir
    · have other : ¬ Touches (.add (above ++ [last]) node) (parent ++ [name]) := here
      rw [apply_other other] at present
      exact well.parent parent name present
  | prune path =>
    have stays : ∀ p, ¬ Touches (.prune path : Change ν κ) p → FileTree.apply tree (.prune path) p = tree p := fun _ => apply_other
    refine ⟨(stays [] fun both => both.2 rfl).trans well.root, fun parent name present => ?_⟩
    have outside : ¬ path <+: parent ++ [name] := fun below => present (if_pos ⟨below, by simp⟩)
    rw [stays (parent ++ [name]) fun both => outside both.1] at present
    rw [stays parent fun both => outside (both.1.trans (List.prefix_append parent [name]))]
    exact well.parent parent name present
  | write path node =>
    obtain ⟨-, old, isFile, notDir⟩ := allowed
    have notDir : tree path ≠ some dir := by simp [isFile, notDir]
    refine ⟨update_dir notDir well.root, fun parent name present => update_dir notDir (well.parent parent name ?_)⟩
    by_cases here : parent ++ [name] = path
    · rw [here, isFile]
      exact Option.some_ne_none old
    · have other : ¬ Touches (.write path node) (parent ++ [name]) := here
      rwa [apply_other other] at present

section History

theorem run_other (run : Run step (Allowed dir) tree changes tree') (others : ∀ change ∈ changes, ¬ Touches change p) :
    tree' p = tree p := by
  induction run with
  | nil => rfl
  | snoc run allowed next ih =>
    cases next
    rw [apply_other (others _ (by simp))]
    exact ih fun change mem => others change (by simp [mem])

end History

end FileTree

/-- When each step of a machine is, on what `view` shows, an allowed step of another one that answers it, then a run of the
    machine shows a run of the other one. -/
theorem Run.refine {σ ι τ κ : Type} {step : σ → ι → Option σ} {guard : σ → ι → Prop} {step' : τ → κ → Option τ}
    {guard' : τ → κ → Prop} {s t : σ} {inputs : List ι} (view : σ → τ) (inv : σ → Prop) (answers : σ → ι → κ → Prop)
    (initial : inv s)
    (steps : ∀ s i t, inv s → guard s i → step s i = some t →
      inv t ∧ ∃ k, answers s i k ∧ guard' (view s) k ∧ step' (view s) k = some (view t))
    (run : Run step guard s inputs t) :
    inv t ∧ ∃ pairs : List (ι × κ), pairs.map Prod.fst = inputs ∧
      Run (fun s pair => step s pair.1) (fun s pair => answers s pair.1 pair.2) s pairs t ∧
      Run step' guard' (view s) (pairs.map Prod.snd) (view t) := by
  induction run with
  | nil => exact ⟨initial, [], rfl, .nil, .nil⟩
  | @snoc t u inputs i run meets next ih =>
    obtain ⟨before, pairs, rfl, answered, shown⟩ := ih
    obtain ⟨after, k, answer, allowed, moved⟩ := steps t i u before meets next
    have last : (fun s (pair : ι × κ) => step s pair.1) t (i, k) = some u := next
    refine ⟨after, pairs ++ [(i, k)], List.map_append, answered.snoc answer last, ?_⟩
    rw [List.map_append]
    exact shown.snoc allowed moved

theorem Run.met {σ ι : Type} {step : σ → ι → Option σ} {guard : σ → ι → Prop} {s t : σ} {inputs : List ι}
    (run : Run step guard s inputs t) : ∀ i ∈ inputs, ∃ u, guard u i := by
  induction run with
  | nil => exact fun i mem => absurd mem (List.not_mem_nil)
  | @snoc t u inputs j run meets next ih =>
    intro i mem
    rcases List.mem_append.mp mem with before | last
    · exact ih i before
    · exact ⟨t, List.mem_singleton.mp last ▸ meets⟩
