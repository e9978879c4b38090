import Mos.Fs.Files

namespace Mos.Fs

variable {c c' : Image} {f g d dir : FilePtr} {names path parent : List (List Byte)} {name : List Byte} {s t u : Store} {i : Nat}

theorem Confined.data (confined : Confined c g c') (exclusive : Exclusive c) (reach : Reach c g) (reachF : Reach c f)
    (other : f ≠ g) (notDir : c.field f 33 ≠ ftypeDir) (held : c.target f (some i) ≠ 0) :
    c' (c.target f (some i)) = c (c.target f (some i)) := by
  funext w
  refine confined.words _ _ (.inr ⟨f, some i, reachF, other, rfl, held⟩) fun here => ?_
  cases reach with
  | ofRoot =>
    have data := (exclusive.inUse f (some i) reachF held).1.1
    have two := c.two_le_bitmapEnd
    have one : c.target f (some i) = 1 := here
    omega
  | @ofSlot dir i' j reach visible held' below =>
    obtain ⟨rfl, -⟩ := exclusive.once f dir (some i) (some i') reachF reach held here
    exact absurd visible.1 notDir

section Removed

variable (removed : Removed g s t) (orderly : Orderly s.content) (leads : At s.content path g)
include removed orderly leads

theorem Removed.entry_new (reach : Reach t.content dir) (inner : dir ≠ g) (short : name.length < maxNameLen)
    (entry : s.content.Entry dir name f) (other : f ≠ g) : t.content.Entry dir name f := by
  obtain ⟨-, same⟩ := removed.kept orderly leads.reach reach inner
  obtain ⟨i, j, visible, held, small, rfl, named⟩ := entry
  have visible' := (same.visible i).mpr visible
  have bound : name.length < 128 := short
  have reachF : Reach t.content (fileOf (s.content.target dir (some i)) j) := by
    rw [← same.target] at held ⊢
    exact .ofSlot reach visible' held small
  obtain ⟨-, sameF⟩ := removed.kept orderly leads.reach reachF other
  refine ⟨i, j, visible', by rwa [same.target], small, by rw [same.target], fun k inside => ?_⟩
  refine Eq.trans ?_ (named k inside)
  unfold Image.nameByte
  rw [sameF.field _ (by omega)]

theorem Removed.at : At t.content names f ↔ At s.content names f ∧ ¬ (path <+: names ∧ names ≠ []) := by
  constructor
  · intro left
    induction left with
    | top => exact ⟨.top, fun both => both.2 rfl⟩
    | @down parent dir f name above plain short type entry ih =>
      obtain ⟨before, outside⟩ := ih
      have inner := removed.inner entry
      obtain ⟨old, other⟩ := removed.entry_old orderly leads.reach above.reach plain short entry
      have type' : s.content.field dir 33 = ftypeDir := by
        rw [← (removed.kept orderly leads.reach above.reach inner).2.field 33 (by decide)]
        exact type
      have whole : At s.content (parent ++ [name]) f := .down before plain short type' old
      refine ⟨whole, fun ⟨below, _⟩ => ?_⟩
      rcases List.prefix_concat_iff.mp below with here | above'
      · exact other (whole.determined orderly.distinct (here ▸ leads))
      · by_cases top : parent = []
        · subst top
          obtain rfl := List.prefix_nil.mp above'
          exact inner (before.determined orderly.distinct leads)
        · exact outside ⟨above', top⟩
  · rintro ⟨before, outside⟩
    induction before with
    | top => exact .top
    | @down parent dir f name above plain short type entry ih =>
      have apart : ¬ path <+: parent ++ [name] := fun below => outside ⟨below, by simp⟩
      have above' := ih fun both => apart (both.1.trans (List.prefix_append _ _))
      have inner : dir ≠ g := by
        rintro rfl
        rw [above.unique orderly.toExclusive leads] at apart
        exact apart (List.prefix_append _ _)
      have other : f ≠ g := by
        rintro rfl
        have whole : At s.content (parent ++ [name]) f := .down above plain short type entry
        exact apart (whole.unique orderly.toExclusive leads ▸ List.prefix_rfl)
      refine .down above' plain short ?_ (removed.entry_new orderly leads above'.reach inner short entry other)
      rw [(removed.kept orderly leads.reach above'.reach inner).2.field 33 (by decide)]
      exact type

/-- Nothing but the path and what is below it is gone, and the rest is as before. -/
theorem Removed.treeOf (ready : Ready t) (top : s.content.field root 33 = ftypeDir) :
    Fs.treeOf t.content = FileTree.apply (Fs.treeOf s.content) (.prune path) := by
  funext names
  show Fs.treeOf t.content names = if path <+: names ∧ names ≠ [] then none else Fs.treeOf s.content names
  split
  · rename_i below
    exact treeOf_none fun f left => ((removed.at orderly leads).mp left).2 below
  · rename_i outside
    refine treeOf_congr orderly.distinct ready.orderly.distinct
      (fun f => (removed.at orderly leads).trans (and_iff_left outside)) fun f before => ?_
    have left := (removed.at orderly leads).mpr ⟨before, outside⟩
    by_cases here : f = g
    · -- the root keeps its place, and only it can
      subst here
      cases before with
      | top => rw [node_dir top, node_dir (removed.type.trans top)]
      | down above plain short type entry =>
        exact absurd removed.dead (left.not_dead (orderly.toExclusive.entry_ne_root above.reach entry))
    · obtain ⟨reach, same⟩ := removed.kept orderly leads.reach left.reach here
      refine node_congr (same.field 33 (by decide)) fun notDir => contents_congr (same.field 32 (by decide)) fun i => ?_
      exact ⟨same.target _, removed.confined.data orderly.toExclusive leads.reach reach here notDir⟩

theorem Removed.keeps (ready : Ready t) (regular : Regular s.content) (cleared : ∀ i, t.content.target g (some i) = 0) :
    Regular t.content := by
  refine { ready.orderly with top := ?_, trim := fun f i reach behind => ?_ }
  · by_cases here : root = g
    · subst here
      exact removed.type.trans regular.top
    · exact ((removed.kept orderly leads.reach .ofRoot here).2.field 33 (by decide)).trans regular.top
  · by_cases here : f = g
    · subst here
      exact cleared i
    · obtain ⟨reach', same⟩ := removed.kept orderly leads.reach reach here
      exact regular.trim_same reach' (same.field 32 (by decide)) (same.field 33 (by decide)) (same.target _) behind

end Removed

theorem removeFound_cleared (regular : Regular s.content) (super : s.cache 1 ≠ none) (reach : Reach s.content g)
    (cached : s.cache g.block ≠ none) :
    ((fileTruncate g 0 s).bind fun _ s => (fileFlush g (s.setNameByte g 0 0)).bind fun _ s => flushDir g s).Leaves
      (fun t => ∀ i, t.content.target g (some i) = 0) fun _ => True := by
  have ready : Ready s := ⟨super, regular.orderly⟩
  refine Result.Meets.bind (P := fun _ u => ∀ i, (u.setNameByte g 0 0).content.target g (some i) = 0) ?_ fun _ u cleared => ?_
  · refine (fileTruncate_spec (ready.holds reach cached) False.elim (Nat.zero_le _)).mono
      (fun _ u ⟨role', resized, gone, _⟩ i => ?_) (fun _ no => no.elim) fun _ h => h
    have content : (u.setNameByte g 0 0).content = u.content.set g.block (g.word + 0) _ := content_setWord resized.holds.cached
    rw [content, Image.setField_target (resized.holds.placed.indirect_ne resized.holds.consistent resized.holds.placed) (by decide)]
    by_cases inside : i < roundBlocks (s.content.field g 32)
    · exact gone i (Nat.zero_le _) inside
    · refine (resized.target (some i)).elim id fun same => same.trans (regular.trim g i reach ?_)
      unfold Image.extent
      split
      · rename_i type
        have bound := regular.size_le reach type
        rw [roundBlocks_eq] at inside
        omega
      · omega
  have same : ∀ {v : Store}, Read (u.setNameByte g 0 0) v → ∀ i, v.content.target g (some i) = 0 := fun read i =>
    read.content ▸ cleared i
  refine Result.Meets.bind (P := fun _ v => Read (u.setNameByte g 0 0) v)
    (Result.Meets.mono (fileFlush_kept (f := g) (read_kept _) (Read.refl _)) (fun _ _ h => h) (fun _ => same) fun _ h => h)
    fun _ v read => ?_
  exact Result.Leaves.mono (flushDir_kept (f := g) (read_kept _) read) fun _ => same

/-- `file_remove` takes what is at the path and below it, when the path is there and memory does not run out. -/
theorem fileRemove_prunes {path : List Byte} (steady : Steady s) :
    (fileRemove path s).Leaves (fun t => (Steady t ∧ t.content.nblocks = s.content.nblocks) ∧
      (treeOf t.content = treeOf s.content ∧ (treeOf s.content (pathElements path) = none ∨ RunsOut s.memory) ∨
        treeOf t.content = FileTree.apply (treeOf s.content) (.prune (pathElements path)) ∧
          treeOf s.content (pathElements path) ≠ none)) fun _ => True := by
  have regular := steady.regular
  have exclusive := regular.toExclusive
  obtain ⟨w, t, walked, answer, shows, -, cached⟩ := steady.ready.walk path
  have steady' := steady.shows shows
  have regular' := steady'.regular
  have same : treeOf t.content = treeOf s.content := shows.marked.treeOf regular
  unfold fileRemove
  rw [walked, Result.ok_bind]
  cases found : w.file with
  | none =>
    refine ⟨⟨steady', shows.marked.nblocks exclusive⟩, .inl ⟨same, ?_⟩⟩
    rcases answer.tree regular.distinct with ⟨-, -, out⟩ | result
    · exact .inr out
    · cases there : treeOf s.content (pathElements path) with
      | none => exact .inl rfl
      | some node =>
        rw [there] at result
        obtain ⟨-, f, isFile, -⟩ := result
        rw [found] at isFile
        cases isFile
  | some g =>
    have before := answer.found_at found
    have leads : At t.content (pathElements path) g := (shows.marked.at exclusive).mpr before
    have removed := removeFound_removed steady'.ready leads.reach (cached g found)
    have cleared := removeFound_cleared regular' steady'.super leads.reach (cached g found)
    refine (Result.Meets.and removed cleared).mono (fun _ u both => ?_) (fun u both => ?_) fun _ _ => trivial
    all_goals
      obtain ⟨removed, cleared⟩ := both
      have ready := removed.ready steady'.ready leads.reach
      have nblocks := (removed.confined.nblocks regular'.toExclusive leads.reach).trans (shows.marked.nblocks exclusive)
      refine ⟨⟨⟨ready.super, removed.keeps regular'.orderly leads ready regular' cleared⟩, nblocks⟩, .inr ⟨?_, ?_⟩⟩
      · rw [removed.treeOf regular'.orderly leads ready regular'.top, same]
      · rw [treeOf_at regular.distinct before]
        exact Option.some_ne_none _

end Mos.Fs
