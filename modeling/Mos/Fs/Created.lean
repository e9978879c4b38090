import Mos.Fs.Files

namespace Mos.Fs

variable {c c' : Image} {f g d dir : FilePtr} {names path parent : List (List Byte)} {name : List Byte} {s t u : Store} {i : Nat}

theorem Image.target_blank (blank : ∀ k, 34 ≤ k → k < 64 → c.field f k = 0) (p : Option Nat) : c.target f p = 0 := by
  have indirect : c.indirect f = 0 := by
    unfold Image.indirect
    rw [blank 44 (by decide) (by decide)]
    rfl
  cases p with
  | none => exact indirect
  | some i =>
    unfold Image.target
    dsimp only
    split
    · rename_i low
      have few : i < 10 := low
      rw [blank (34 + i) (by omega) (by omega)]
      rfl
    · rw [if_neg fun both => both.2 indirect]

theorem Extended.keeps {n : Nat} (extended : Extended d n c c') (regular : Regular c) (exclusive' : Exclusive c')
    (held : c'.target d (some n) ≠ 0) (live : d ≠ root → ¬ c.Dead d) : Regular c' := by
  refine { exclusive' with
    distinct := extended.unambiguous regular.distinct, top := (extended.type_eq .ofRoot).trans regular.top
    blocks := fun dir i reach visible => ?_, trim := fun f i reach behind => ?_, free := fun f reach notRoot dead => ?_ }
  · rcases extended.reach_cases reach with old | empty
    · rcases extended.old old visible with ⟨before, same⟩ | ⟨rfl, rfl⟩
      · rw [same]
        exact regular.blocks dir i old before
      · exact held
    · have type := visible.1
      rw [empty 33 (by decide)] at type
      cases type
  · rcases extended.reach_cases reach with old | empty
    · by_cases here : f = d
      · subst here
        rw [Image.extent, if_pos ((extended.type_eq old).trans extended.type), extended.after] at behind
        rw [extended.target i (by omega)]
        refine regular.trim f i old ?_
        rw [Image.extent, if_pos extended.type, extended.before]
        omega
      · have same := extended.file f old here
        exact regular.trim_same old (same.field 32 (by decide)) (same.field 33 (by decide)) (same.target _) behind
    · exact Image.target_blank (fun k _ small => empty k small) (some i)
  · rcases extended.reach_cases reach with old | empty
    · by_cases here : f = d
      · subst here
        refine absurd ?_ (live notRoot)
        unfold Image.Dead at dead ⊢
        rwa [extended.field 0 (by decide) (by decide)] at dead
      · have same := extended.file f old here
        exact regular.free_same old notRoot (same.field 0 (by decide)) (same.field 32 (by decide)) dead
    · exact empty 32 (by decide)

theorem Naming.keeps (naming : Naming d name f c c') (regular : Regular c) (size : c'.field f 32 = 0)
    (type : c'.field f 33 = c.field f 33) (target : ∀ p, c'.target f p = c.target f p) : Regular c' := by
  obtain ⟨reachF, inner, notRoot⟩ := naming.reach_slot
  have beside := naming.beside
  have old : ∀ {x}, Reach c' x → Reach c x := (beside.reach naming.leaf naming.leaf').mp
  have zero : c.field f 32 = 0 := regular.free f reachF notRoot naming.dead
  refine { naming.exclusive' with
    distinct := naming.after.distinct, top := (beside.field root .ofRoot notRoot.symm 33 (by decide) (by decide)).trans regular.top
    blocks := fun dir i reach visible => ?_, trim := fun x i reach behind => ?_, free := fun x reach notRoot dead => ?_ }
  · have other : dir ≠ f := by
      rintro rfl
      have inside := visible.2
      rw [size] at inside
      exact absurd inside (Nat.not_lt_zero _)
    rw [beside.target dir (old reach) other]
    exact regular.blocks dir i (old reach) ((beside.visible (old reach) other i).mp visible)
  · by_cases here : x = f
    · subst here
      exact regular.trim_same reachF (size.trans zero.symm) type (target _) behind
    · exact regular.trim_same (old reach) (beside.field x (old reach) here 32 (by decide) (by decide))
        (beside.field x (old reach) here 33 (by decide) (by decide)) (beside.target x (old reach) here _) behind
  · by_cases here : x = f
    · subst here
      exact size
    · exact regular.free_same (old reach) notRoot (beside.field x (old reach) here 0 (by decide) (by decide))
        (beside.field x (old reach) here 32 (by decide) (by decide)) dead

theorem Naming.leads (naming : Naming d name f c c') (above : At c parent d) : At c' (parent ++ [name]) f := by
  obtain ⟨-, inner, -⟩ := naming.reach_slot
  have other : parent ≠ parent ++ [name] := by simp
  have beside := naming.beside
  obtain ⟨i, j, visible, held, small, place⟩ := naming.slot
  have target := beside.target d naming.reach inner (some i)
  refine .down (((naming.sameBut above).paths parent d other).mpr above) naming.plain naming.short ?_
    ⟨i, j, (beside.visible naming.reach inner i).mpr visible, by rwa [target], small, by rwa [target], naming.named⟩
  rw [beside.field d naming.reach inner 33 (by decide) (by decide)]
  exact visible.1

theorem Slot.reach (slot : Slot d f s) (reach : Reach s.content d) : Reach s.content f ∧ f ≠ root := by
  obtain ⟨i, j, visible, held, small, place⟩ := slot.slot
  refine ⟨place ▸ .ofSlot reach visible held small, ?_⟩
  rintro rfl
  have word : 2 = 64 * j := congrArg FilePtr.word place
  omega

/-- The slot that `dir_alloc_file` has for a new file at the path, in a tree that is as it was. -/
structure Offered (path parent : List (List Byte)) (last : List Byte) (d : FilePtr) (c : Image) (f : FilePtr) (t : Store) : Prop
    extends Steady t where
  same : SameBut path c t.content
  slot : Slot d f t
  above : At t.content parent d
  absent : ∀ x, ¬ t.content.Entry d last x
  nblocks : t.content.nblocks = c.nblocks

theorem dirAllocFile_offered {last : List Byte} (steady : Steady s) (above : At s.content parent d)
    (type : s.content.field d 33 = ftypeDir) (plain : Plain last) (short : last.length < maxNameLen)
    (absent : ∀ x, ¬ s.content.Entry d last x) (there : s.cache d.block ≠ none)
    (allowed : ∀ u e v, slotScan d ((s.fSize d).toNat / 4096) 0 s = .ok none u →
      fileGetBlock d ((s.fSize d).toNat / 4096) (u.setField d 32 (u.fSize d + blockSize)) ≠ .err e v) :
    (dirAllocFile d s).Meets (fun f t => CleanMeta t → Offered path parent last d s.content f t)
      (fun t => Steady t ∧ t.content = s.content) fun _ => True := by
  have size : s.fSize d = s.content.field d 32 := field_content there 32
  rw [dirAllocFile, dirAllocScan_eq, Nat.zero_add]
  have scan := slotScan_slot steady.ready above.reach type there ((s.fSize d).toNat / 4096) 0 (by rw [size, Nat.zero_add])
  cases scanned : slotScan d ((s.fSize d).toNat / 4096) 0 s with
  | stop cause => trivial
  | err e u =>
    rw [scanned] at scan
    exact ⟨steady.read scan, scan.content⟩
  | ok r u =>
    rw [scanned] at scan
    obtain ⟨read, found⟩ := scan
    have steady' := steady.read read
    rw [Result.ok_bind]
    rw [← read.content] at above type absent size ⊢
    cases r with
    | some f =>
      intro clean
      exact { toSteady := steady', same := .refl _ _, slot := found f rfl, above := above, absent := absent, nblocks := rfl }
    | none =>
      have extended := extendDir_extended steady'.ready above.reach type (read.cached _ there) rfl
      rw [← size] at extended
      cases made : extendDir d ((s.fSize d).toNat / 4096) u with
      | stop cause => trivial
      | err e v =>
        rcases Result.bind_err made with refused | ⟨b, x, -, rest⟩
        · exact absurd refused (allowed u e v scanned)
        · cases rest
      | ok f v =>
        rw [made] at extended
        intro clean
        obtain ⟨extended, exclusive, super, slot, -, held, nblocks⟩ := extended clean
        have live : d ≠ root → ¬ u.content.Dead d := above.not_dead
        exact { super := super, regular := extended.keeps steady'.regular exclusive held live, same := extended.sameBut _
                slot := slot, above := extended.at.mpr above, nblocks := nblocks
                absent := fun x entry => absent x ((extended.entry above.reach plain short).mp entry) }

theorem Offered.named {last : List Byte} (offered : Offered path parent last d c f t) (names : path = parent ++ [last])
    (plain : Plain last) (short : last.length < maxNameLen) :
    Steady (t.setName f last) ∧ SameBut path c (t.setName f last).content ∧ At (t.setName f last).content path f ∧
      (t.setName f last).content.field f 32 = 0 ∧ (t.setName f last).cache f.block ≠ none ∧
      (t.setName f last).content.nblocks = c.nblocks := by
  have regular := offered.regular
  obtain ⟨reachF, notRoot⟩ := offered.slot.reach offered.above.reach
  have zero := regular.free f reachF notRoot offered.slot.dead
  obtain ⟨naming, field, target, nblocks⟩ := offered.slot.naming regular.toExclusive regular.distinct offered.super
    offered.above.reach plain short offered.absent zero
  have empty : (t.setName f last).content.field f 32 = 0 := (field 32 (by decide)).trans zero
  obtain ⟨named, -, -⟩ := (offered.ready.holds reachF offered.slot.cached).setName plain.isName short
  exact ⟨⟨named.super, naming.keeps regular empty (field 33 (by decide)) target⟩,
    offered.same.trans (names ▸ naming.sameBut offered.above), names ▸ naming.leads offered.above, empty, named.cached,
    nblocks.trans offered.nblocks⟩

structure Created (path : List (List Byte)) (c : Image) (f : FilePtr) (t : Store) : Prop extends Steady t where
  same : SameBut path c t.content
  leads : At t.content path f
  size : t.content.field f 32 = 0
  cached : t.cache f.block ≠ none
  nblocks : t.content.nblocks = c.nblocks
  absent : ∀ x, ¬ At c path x
  parent : ∃ parent name dir, path = parent ++ [name] ∧ At c parent dir ∧ c.field dir 33 = ftypeDir

theorem fileCreate_created {path : List Byte} (steady : Steady s) (allowed : ¬ GrowRefused path s) :
    (fileCreate path s).Meets (fun f t => CleanMeta t → Created (pathElements path) s.content f t)
      (fun t => Steady t ∧ Remarked s.content t.content) fun _ => True := by
  obtain ⟨w, t, walked, answer, shows, cached, -⟩ := steady.ready.walk path
  have exclusive := steady.regular.toExclusive
  have steady' := steady.shows shows
  have failed : Steady t ∧ Remarked s.content t.content := ⟨steady', shows.marked⟩
  unfold fileCreate
  rw [walked, Result.ok_bind]
  split
  · exact failed
  rename_i code
  split
  · exact failed
  rename_i d at_d
  split
  · exact failed
  cases answer with
  | found => exact absurd rfl code
  | fails => cases at_d
  | noMem => cases at_d
  | @absent d' last misses =>
    cases at_d
    have there := cached d rfl rfl
    obtain ⟨parent, names, above, plain, short, type, absent⟩ := misses.at .top fun _ mem => plain_of_mem mem
    rw [List.nil_append] at names
    have nothing : ∀ x, ¬ At s.content (pathElements path) x := by
      intro x leads
      rw [names] at leads
      obtain ⟨dir, above', -, -, -, entry⟩ := leads.above
      cases above.determined steady.regular.distinct above'
      exact absent x entry
    have above' := (shows.marked.at exclusive).mpr above
    have type' : t.content.field d 33 = ftypeDir := (shows.marked.field exclusive above.reach (by decide) (by decide)).trans type
    have absent' : ∀ x, ¬ t.content.Entry d last x := fun x entry =>
      absent x ((shows.marked.entry exclusive above.reach short x).mp entry)
    have found : (dirAllocFile d t).Meets (fun f u => CleanMeta u → Offered (pathElements path) parent last d t.content f u)
        (fun u => Steady u ∧ u.content = t.content) fun _ => True :=
      dirAllocFile_offered steady' above' type' plain short absent' there fun u e v scanned refused =>
        allowed ⟨_, t, d, u, e, v, (walkPathLoop_eq path s).trans walked, rfl, rfl, scanned, refused⟩
    refine Result.Meets.bind (found.mono (fun _ _ h => h) (fun u kept => ⟨kept.1, kept.2 ▸ shows.marked⟩) fun _ h => h)
      fun f u slot clean => ?_
    have offered := slot (by_contra fun spoiled => setName_kept spoiled_kept last spoiled clean)
    obtain ⟨steady'', same, leads, empty, cached, nblocks⟩ := offered.named names plain short
    exact { toSteady := steady'', same := (shows.marked.sameBut exclusive _).trans same, leads := leads, size := empty
            cached := cached, nblocks := nblocks.trans (shows.marked.nblocks exclusive), absent := nothing
            parent := ⟨parent, last, d, names, above, type⟩ }

section Created

variable (created : Created path c f t)
include created

theorem Created.notRoot : f ≠ root := by
  obtain ⟨parent, name, -, rfl, -, -⟩ := created.parent
  obtain ⟨dir, above, -, -, -, entry⟩ := created.leads.above
  exact created.regular.toExclusive.entry_ne_root above.reach entry

theorem Created.pointers (i : Nat) : t.content.target f (some i) = 0 := by
  refine created.regular.trim f i created.leads.reach ?_
  have none : roundBlocks 0 = 0 := by decide
  unfold Image.extent
  rw [created.size, none]
  split
  · exact Nat.zero_le i
  · exact Nat.zero_le i

theorem Created.leaf (i : Nat) : ¬ t.content.Visible f i := by
  intro visible
  have inside := visible.2
  rw [created.size] at inside
  exact absurd inside (Nat.not_lt_zero _)

theorem Created.node : t.content.node f = .dir ∨ t.content.node f = .file .empty := by
  by_cases type : t.content.field f 33 = ftypeDir
  · exact .inl (node_dir type)
  · right
    rw [node_file type]
    unfold Image.contents Contents.empty
    rw [created.size]
    congr 2
    funext i
    rw [if_pos (created.pointers i)]

theorem Created.treeOf (distinct : Unambiguous c) :
    Fs.treeOf t.content = FileTree.apply (Fs.treeOf c) (.add path (t.content.node f)) :=
  created.same.treeOf distinct created.regular.distinct created.leads

theorem Created.allowed (distinct : Unambiguous c) (node : FileNode) : FileTree.Allowed .dir (Fs.treeOf c) (.add path node) := by
  obtain ⟨parent, name, dir, names, above, type⟩ := created.parent
  refine ⟨treeOf_none created.absent, parent, name, names, ?_⟩
  rw [treeOf_at distinct above, node_dir type]

theorem Created.retyped :
    Rewritten f t.content (t.setField f 33 ftypeDir).content ∧ (t.setField f 33 ftypeDir).content.node f = .dir ∧
      (t.setField f 33 ftypeDir).cache 1 ≠ none := by
  have regular := created.regular
  have reach := created.leads.reach
  have holds := created.ready.holds reach created.cached
  obtain ⟨holds', -, type, size, target⟩ := holds.setType False.elim fun i _ => created.pointers i
  have content : (t.setField f 33 ftypeDir).content = t.content.set f.block (f.word + 33) ftypeDir := content_setWord created.cached
  have touches : Touches t.content (ownerOf t.content) f (t.setField f 33 ftypeDir).content := by
    rw [content]
    exact Touches.setField (by decide)
  refine ⟨⟨?_, holds'.consistent.sound.toExclusive, fun k small => ?_, created.leaf, fun i visible => ?_, fun i _ => ?_⟩,
    node_dir type, holds'.super⟩
  · exact (touches.spared holds.consistent holds.placed fun _ _ _ owner => owner).confined regular.sound holds'.consistent
  · exact setField_field created.cached (by omega)
  · have inside := visible.2
    rw [size, created.size] at inside
    exact absurd inside (Nat.not_lt_zero _)
  · rw [target]
    exact created.pointers i

end Created

end Mos.Fs
