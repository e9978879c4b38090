import Mos.Fs.Files

namespace Mos.Fs

variable {c c' : Image} {f g d dir : FilePtr} {names path parent : List (List Byte)} {name : List Byte} {s t u : Store} {i : Nat}

/-- The path leads to the file, which is no directory. -/
structure Leads (c : Image) (path : List (List Byte)) (g : FilePtr) : Prop where
  leads : At c path g
  notDir : c.field g 33 ≠ ftypeDir

theorem Leads.file (file : Leads c path g) (regular : Regular c) :
    treeOf c path = some (.file (c.contents g)) ∧ g ≠ root := by
  refine ⟨?_, fun same => file.notDir (same ▸ regular.top)⟩
  rw [treeOf_at regular.distinct file.leads, node_file file.notDir]

theorem Leads.extent (file : Leads c path g) : c.extent g = roundBlocks (c.field g 32) := if_neg file.notDir

theorem Leads.elsewhere (file : Leads c path g) (regular : Regular c) (held : c.target g (some i) ≠ 0) (k : Nat) :
    Elsewhere c (ownerOf c) g (c.target g (some i)) k := by
  have exclusive := regular.toExclusive
  have reach := file.leads.reach
  obtain ⟨dirBlock, owner, -⟩ := exclusive.ownerOf_target reach held
  have consistent := regular.sound.consistent
  refine ⟨IsData.not_bitmap (consistent.data _ _ owner), .inr ⟨_, owner, fun both => ?_⟩, fun here => ?_⟩
  · cases both.2
  · exact absurd here.symm (consistent.apart _ _ owner)

theorem Leads.rewritten (file : Leads c path g) (confined : Confined c g c') (exclusive : Exclusive c')
    (type : c'.field g 33 ≠ ftypeDir) (name : ∀ k, k < 32 → c'.field g k = c.field g k)
    (trim : ∀ i, roundBlocks (c'.field g 32) ≤ i → c'.target g (some i) = 0) : Rewritten g c c' where
  confined := confined
  exclusive := exclusive
  name := name
  before i visible := file.notDir visible.1
  after i visible := type visible.1
  trim i last := by
    rw [Image.extent, if_neg type] at last
    exact trim i last

theorem Leads.trim (file : Leads c path g) (regular : Regular c) (last : roundBlocks (c.field g 32) ≤ i) :
    c.target g (some i) = 0 := regular.trim g i file.leads.reach (file.extent.symm ▸ last)

section Resize

variable {n : Word}

/-- What `file_set_size` makes of the `File` and its pointers, up to the store of the size. -/
structure Trims (g : FilePtr) (n : Word) (c : Image) (t : Store) : Prop where
  cached : t.cache g.block ≠ none
  apart : t.content.indirect g ≠ 0 → t.content.indirect g ≠ g.block
  touches : Touches c (ownerOf c) g t.content
  field : ∀ k, k < 32 → t.content.field g k = c.field g k
  target : ∀ i, t.content.target g (some i) = if i < roundBlocks n then c.target g (some i) else 0

theorem roundBlocks_mono {m n : Word} (le : m.toNat ≤ n.toNat) (bounded : n.toNat ≤ 0xFFFFF000) : roundBlocks m ≤ roundBlocks n := by
  rw [roundBlocks_eq, roundBlocks_eq]
  omega

theorem newBlocks_eq (n : Word) : newBlocks n = roundBlocks n := by
  unfold newBlocks
  split
  · rename_i zero
    rw [zero]
    rfl
  · rfl

variable (steady : Steady s) (charted : Charted s) (file : Leads s.content path g) (cached : s.cache g.block ≠ none)
include steady charted file cached

theorem truncate_trims (shrinks : n.toNat ≤ (s.content.field g 32).toNat) :
    (fileTruncate g n s).Meets (fun _ t => Trims g n s.content t) (fun _ => False) fun _ => True := by
  have regular := steady.regular
  have reach := file.leads.reach
  have holds := steady.ready.holds reach cached
  have behind : ∀ i, roundBlocks (s.content.field g 32) ≤ i → s.content.target g (some i) = 0 := fun i => file.trim regular
  have sheds : Sheds g n s.content := ⟨fun _ i _ last => behind i last, fun _ _ _ visible => absurd visible.1 file.notDir⟩
  have shed := fileTruncate_shed holds charted sheds
  have cut := fileTruncate_spec holds False.elim shrinks
  refine (Result.Meets.and shed cut).mono (fun _ t both => ?_) (fun _ both => both.1) fun _ h => h
  obtain ⟨⟨shed, -, field, -⟩, role', resized, -⟩ := both
  rw [newBlocks_eq] at shed
  refine ⟨shed.cached _ cached, resized.holds.placed.indirect_ne resized.holds.consistent resized.holds.placed, shed.touches,
    fun k small => field k (by omega) (by omega), fun i => ?_⟩
  split
  · rename_i inside
    by_cases held : s.content.target g (some i) = 0
    · exact (shed.target (some i)).elim (fun zero => zero.trans held.symm) id
    · exact shed.kept i (.inl inside) held
  · rename_i outside
    by_cases last : i < roundBlocks (s.content.field g 32)
    · exact shed.gone i (Nat.not_lt.mp outside) last
    · exact (shed.target (some i)).elim id fun same => same.trans (behind i (Nat.not_lt.mp last))

theorem fileSetSize_touches (bounded : n.toNat ≤ 0xFFFFF000) :
    (fileSetSize g n s).Leaves (fun t => Touches s.content (ownerOf s.content) g t.content ∧
      (∀ k, k < 32 → t.content.field g k = s.content.field g k) ∧
      ∀ i, t.content.target g (some i) = if i < roundBlocks n then s.content.target g (some i) else 0) fun _ => True := by
  have holds := steady.ready.holds file.leads.reach cached
  have size : s.fSize g = s.content.field g 32 := field_content cached 32
  have trims : (if n < s.fSize g then fileTruncate g n s else .ok () s).Meets (fun _ t => Trims g n s.content t) (fun _ => False)
      fun _ => True := by
    split
    · rename_i smaller
      rw [size] at smaller
      exact truncate_trims steady charted file cached (Nat.le_of_lt smaller)
    · rename_i larger
      rw [size] at larger
      have le : (s.content.field g 32).toNat ≤ n.toNat := Nat.not_lt.mp larger
      refine ⟨cached, holds.placed.indirect_ne holds.consistent holds.placed, .refl _ _ _, fun _ _ => rfl, fun i => ?_⟩
      split
      · rfl
      · rename_i outside
        have grown := roundBlocks_mono le bounded
        exact file.trim steady.regular (by omega)
  unfold fileSetSize
  refine Result.Meets.bind (P := fun _ t => Trims g n s.content t) (trims.mono (fun _ _ h => h) (fun _ no => no.elim) fun _ h => h)
    fun _ t trims => ?_
  refine Result.Leaves.mono (flushDir_kept (f := g) (read_kept _) (Read.refl _)) fun u read => ?_
  have content : (t.setField g 32 n).content = t.content.set g.block (g.word + 32) n := content_setWord trims.cached
  have stored : Touches t.content (ownerOf s.content) g (t.setField g 32 n).content := by
    rw [content]
    exact Touches.setField (by decide)
  rw [read.content]
  refine ⟨trims.touches.trans stored (trims.touches.nblocks holds.consistent holds.placed), fun k small => ?_, fun i => ?_⟩
  · exact (setField_field trims.cached (by omega)).trans (trims.field k small)
  · rw [content, Image.setField_target trims.apart (by decide)]
    exact trims.target i

theorem fileSetSize_resizes (bounded : n.toNat ≤ 0xFFFFF000) :
    (fileSetSize g n s).Leaves (fun t => Rewritten g s.content t.content ∧ t.cache 1 ≠ none ∧
      t.content.node g = .file ((s.content.contents g).resize n)) fun _ => True := by
  have regular := steady.regular
  have holds := steady.ready.holds file.leads.reach cached
  have guard : SetGuard g n s.content := fun type => absurd type file.notDir
  have spec := fileSetSize_spec holds False.elim guard
  have left := fileSetSize_touches steady charted file cached bounded
  refine (Result.Meets.and spec left).mono (fun _ t both => ?_) (fun t both => ?_) fun _ h => h
  all_goals
    obtain ⟨⟨role', resized⟩, touches, name, target⟩ := both
    have type : t.content.field g 33 ≠ ftypeDir := resized.type ▸ file.notDir
    refine ⟨file.rewritten (resized.spared.confined regular.sound resized.holds.consistent)
      resized.holds.consistent.sound.toExclusive type name fun i last => ?_, resized.holds.super, ?_⟩
    · rw [resized.size] at last
      rw [target, if_neg (Nat.not_lt.mpr last)]
    · rw [node_file type]
      refine congrArg FileNode.file (Contents.ext_block resized.size (funext fun i => ?_))
      unfold Contents.resize
      dsimp only
      split
      · rename_i inside
        refine contents_block ((target i).trans (if_pos inside)) fun there => funext fun k => ?_
        exact touches _ _ (file.elsewhere regular there k)
      · rename_i outside
        exact if_pos ((target i).trans (if_neg outside))

end Resize

/-- A block of the file is there, or one has been put into the hole. -/
structure Filled (g : FilePtr) (i : Nat) (s t : Store) : Prop where
  super : t.cache 1 ≠ none
  nblocks : t.content.nblocks = s.content.nblocks
  rewritten : Rewritten g s.content t.content
  node : t.content.node g = s.content.node g ∨ ∃ page, t.content.node g = .file ((s.content.contents g).fill i page)

theorem Filled.refl (steady : Steady s) (file : Leads s.content path g) (read : Read s t) : Filled g i s t where
  super := read.cached 1 steady.super
  nblocks := by rw [read.content]
  rewritten := by
    rw [read.content]
    have regular := steady.regular
    exact file.rewritten (.refl regular.sound) regular.toExclusive file.notDir (fun _ _ => rfl) fun i => file.trim regular
  node := .inl (by rw [read.content])

theorem Filled.ofReached {role' : Nat → Option Owner} (steady : Steady s) (file : Leads s.content path g) (cached : s.cache g.block ≠ none)
    (inside : i < s.content.extent g) (hole : s.content.target g (some i) = 0)
    (reached : Reached False g (fun j => j = i) s (ownerOf s.content) t role') : Filled g i s t := by
  have regular := steady.regular
  have holds := steady.ready.holds file.leads.reach cached
  have grown := reached.grown
  have type : t.content.field g 33 = s.content.field g 33 := grown.field 33 (.inl (by decide))
  have size : t.content.field g 32 = s.content.field g 32 := grown.field 32 (.inl (by decide))
  have notDir : t.content.field g 33 ≠ ftypeDir := type ▸ file.notDir
  have others : ∀ j, j ≠ i → t.content.target g (some j) = s.content.target g (some j) := fun j ne => grown.target j ne
  have blocks : ∀ j, j ≠ i → (t.content.contents g).block j = (s.content.contents g).block j := fun j ne =>
    contents_block (others j ne) fun there => funext fun k => grown.touches _ _ (file.elsewhere regular there k)
  refine ⟨reached.holds.super, grown.nblocks, file.rewritten ((grown.spared holds.consistent holds.placed).confined regular.sound
    reached.holds.consistent) reached.holds.consistent.sound.toExclusive notDir (fun k small => grown.field k (.inl (by omega)))
    fun j last => ?_, ?_⟩
  · rw [size] at last
    rw [file.extent] at inside
    rw [others j (by omega)]
    exact file.trim regular last
  rw [node_file notDir, node_file file.notDir]
  by_cases empty : t.content.target g (some i) = 0
  · refine .inl (congrArg FileNode.file (Contents.ext_block size (funext fun j => ?_)))
    by_cases here : j = i
    · subst here
      exact contents_block (empty.trans hole.symm) fun there => absurd hole there
    · exact blocks j here
  · refine .inr ⟨fun k => t.content (t.content.target g (some i)) k, congrArg FileNode.file ?_⟩
    refine Contents.ext_block size (funext fun j => ?_)
    by_cases here : j = i
    · subst here
      rw [Contents.fill_self]
      exact if_neg empty
    · rw [Contents.fill_ne here]
      exact blocks j here

/-- `file_get_block` of a block of a file attaches at most that block, which may come with anything in it. -/
theorem fileGetBlock_fills (steady : Steady s) (file : Leads s.content path g) (cached : s.cache g.block ≠ none)
    (inside : i < s.content.extent g) :
    (fileGetBlock g i s).Leaves (fun t => CleanMeta t → Filled g i s t) fun _ => True := by
  have exclusive := steady.regular.toExclusive
  have reach := file.leads.reach
  by_cases hole : s.content.target g (some i) = 0
  · have holds := steady.ready.holds reach cached
    refine (fileGetBlock_spec i holds False.elim).mono (fun _ t got clean => ?_) (fun t failed clean => ?_) fun _ h => h
    · obtain ⟨role', reached, -⟩ := got.resolve_left fun spoiled => spoiled clean
      exact .ofReached steady file cached inside hole reached
    · obtain ⟨role', reached, -⟩ := failed.resolve_left fun spoiled => spoiled clean
      exact .ofReached steady file cached inside hole reached
  · rcases fileGetBlock_loads exclusive ⟨steady.super, fun _ _ _ => rfl, rfl⟩ reach cached hole with
      ⟨t, got, loads, -⟩ | ⟨t, got, loads, -⟩
    · rw [got]
      exact fun _ => .refl steady file loads.toRead
    · rw [got]
      exact fun _ => .refl steady file loads.toRead

section Store

variable {b k : Nat} {v : Word}

theorem setWord_spared (steady : Steady s) (file : Leads s.content path g) (held : s.content.target g (some i) ≠ 0) :
    let t := s.setWord (s.content.target g (some i)) k v
    Spared s.content (ownerOf s.content) g t.content (ownerOf s.content) ∧ Consistent False t.content (ownerOf s.content) ∧
      (∀ k, t.content.field g k = s.content.field g k) ∧ ∀ p, t.content.target g p = s.content.target g p := by
  intro t
  have exclusive := steady.regular.toExclusive
  have reach := file.leads.reach
  have data := (exclusive.inUse g (some i) reach held).1
  have two := s.content.two_le_bitmapEnd
  have off : ∀ b, b ≠ s.content.target g (some i) → t.content b = s.content b := fun b ne => content_setWord_ne ne
  obtain ⟨dirBlock, owner, flag⟩ := exclusive.ownerOf_target reach held
  have consistent := steady.regular.sound.consistent
  have field : ∀ k, t.content.field g k = s.content.field g k := fun k => congrFun (off _ (consistent.apart _ _ owner)) _
  refine ⟨⟨?_, fun _ _ _ had => had, fun b w _ owned _ => congrFun (off b fun here => ?_) w⟩, ?_, field, ?_⟩
  · have first := data.1
    have super : 1 ≠ s.content.target g (some i) := by omega
    exact congrArg BitVec.toNat (congrFun (off 1 super) 1)
  · rcases owned with rfl | ⟨o, other, ne⟩
    · have first := data.1
      omega
    · rw [here] at other
      cases owner.symm.trans other
      exact ne rfl
  · refine consistent.store data.1 (fun o mine => ?_) off
    cases owner.symm.trans mine
    refine ⟨Option.some_ne_none i, Bool.eq_false_iff.mpr fun directory => ?_⟩
    obtain ⟨j, -, visible⟩ := flag.mp directory
    exact file.notDir visible.1
  · refine Image.target_congr (fun k _ _ => field k) fun j _ _ pointers => congrFun (off _ fun same => ?_) j
    have both := exclusive.once g g none (some i) reach reach pointers same
    cases both.2

theorem setWord_stores (steady : Steady s) (file : Leads s.content path g) (held : s.content.target g (some i) ≠ 0)
    (cached : s.cache (s.content.target g (some i)) ≠ none) (small : k < 1024) :
    let t := s.setWord (s.content.target g (some i)) k v
    Rewritten g s.content t.content ∧ t.cache 1 ≠ none ∧ t.content.nblocks = s.content.nblocks ∧
      t.content.node g = .file ((s.content.contents g).store i ⟨k, small⟩ v) := by
  intro t
  have regular := steady.regular
  have reach := file.leads.reach
  have content : t.content = s.content.set (s.content.target g (some i)) k v := content_setWord cached
  obtain ⟨spared, stored, field, target⟩ := setWord_spared (k := k) (v := v) steady file held
  have notDir : t.content.field g 33 ≠ ftypeDir := field 33 ▸ file.notDir
  refine ⟨file.rewritten (spared.confined regular.sound stored) stored.sound.toExclusive notDir (fun k _ => field k) fun j last => ?_,
    setWord_cached steady.super, spared.nblocks, ?_⟩
  · rw [field] at last
    rw [target]
    exact file.trim regular last
  rw [node_file notDir]
  refine congrArg FileNode.file (Contents.ext_block (field 32) (funext fun j => ?_))
  by_cases here : j = i
  · subst here
    rw [Contents.store_self]
    unfold Image.contents
    dsimp only
    rw [target, if_neg held, if_neg held]
    refine congrArg some (funext fun w => ?_)
    rw [content]
    dsimp only
    rw [Function.update_apply]
    split
    · rename_i same
      rw [same]
      exact Image.set_self ..
    · rename_i other
      exact Image.set_ne fun same => other (Fin.ext (congrArg Prod.snd same))
  · rw [Contents.store_ne here]
    refine contents_block (target _) fun there => content_setWord_ne fun same => ?_
    obtain ⟨-, index⟩ := regular.toExclusive.once g g (some j) (some i) reach reach there same
    cases index
    exact here rfl

end Store

end Mos.Fs
