import Mos.Fs.Replace
import Mos.Fs.Sync

namespace Mos.Fs

/-- The size of a file, and the words of the blocks that it has. -/
structure Contents where
  size : Word
  block : Nat → Option (Fin 1024 → Word)

inductive FileNode where
  | dir
  | file (contents : Contents)

namespace Image

def contents (c : Image) (f : FilePtr) : Contents where
  size := c.field f 32
  block i := if c.target f (some i) = 0 then none else some fun k => c (c.target f (some i)) k

def node (c : Image) (f : FilePtr) : FileNode := if c.field f 33 = ftypeDir then .dir else .file (c.contents f)

end Image

open Classical in
/-- The files and directories as a map of their paths. -/
noncomputable def treeOf (c : Image) (names : List (List Byte)) : Option FileNode :=
  if h : ∃ f, At c names f then some (c.node h.choose) else none

variable {c c' : Image} {f g d : FilePtr} {names : List (List Byte)} {name : List Byte} {s s' u : Store} {b i w : Nat}

section Tree

theorem treeOf_at (distinct : Unambiguous c) (leads : At c names f) : treeOf c names = some (c.node f) := by
  have found : ∃ f, At c names f := ⟨f, leads⟩
  unfold treeOf
  rw [dif_pos found, found.choose_spec.determined distinct leads]

theorem treeOf_none (absent : ∀ f, ¬ At c names f) : treeOf c names = none := by
  unfold treeOf
  rw [dif_neg fun ⟨f, leads⟩ => absent f leads]

theorem treeOf_congr (distinct : Unambiguous c) (distinct' : Unambiguous c') (same : ∀ f, At c' names f ↔ At c names f)
    (nodes : ∀ f, At c names f → c'.node f = c.node f) : treeOf c' names = treeOf c names := by
  by_cases found : ∃ f, At c names f
  · obtain ⟨f, leads⟩ := found
    rw [treeOf_at distinct leads, treeOf_at distinct' ((same f).mpr leads), nodes f leads]
  · rw [treeOf_none fun f leads => found ⟨f, leads⟩, treeOf_none fun f leads => found ⟨f, (same f).mp leads⟩]

theorem At.above (leads : At c (names ++ [name]) f) : ∃ dir, At c names dir ∧ Plain name ∧ name.length < maxNameLen ∧
    c.field dir 33 = ftypeDir ∧ c.Entry dir name f := by
  generalize whole : names ++ [name] = all at leads
  cases leads with
  | top => simp at whole
  | down above plain short type entry =>
    obtain ⟨rfl, last⟩ := List.append_inj' whole rfl
    cases last
    exact ⟨_, above, plain, short, type, entry⟩

theorem Resolves.snoc {dir e : Option FilePtr} (resolves : Resolves c dir f names e g) (short : name.length < maxNameLen)
    (type : c.field g 33 = ftypeDir) {x : FilePtr} (entry : c.Entry g name x) : Resolves c dir f (names ++ [name]) (some g) x := by
  induction resolves with
  | here => exact .down short type entry (.here _ x)
  | down short' type' entry' further ih => exact .down short' type' entry' (ih type entry)

theorem At.resolves (leads : At c names f) : ∃ e, Resolves c none root names e f := by
  induction leads with
  | top => exact ⟨none, .here none root⟩
  | down above plain short type entry ih =>
    obtain ⟨e, resolves⟩ := ih
    exact ⟨_, resolves.snoc short type entry⟩

theorem Answer.tree {memory : Nat → Bool} {path : List Byte} {r : Walked} (distinct : Unambiguous c)
    (answer : Answer c memory none root (pathElements path) r) : r.code = -eNoMem ∧ r.file = none ∧ RunsOut memory ∨
      match treeOf c (pathElements path) with
      | some node => r.code = 0 ∧ ∃ f, r.file = some f ∧ c.node f = node
      | none => r.code ≠ 0 ∧ r.file = none := by
  have plain : ∀ name ∈ pathElements path, Plain name := fun _ mem => plain_of_mem mem
  cases answer with
  | noMem out => exact .inl ⟨rfl, rfl, out⟩
  | found resolves =>
    have leads := resolves.at .top plain
    rw [List.nil_append] at leads
    rw [treeOf_at distinct leads]
    exact .inr ⟨rfl, _, rfl, rfl⟩
  | absent misses =>
    obtain ⟨parent, names, above, -, -, -, absent⟩ := misses.at .top plain
    rw [List.nil_append] at names
    have code : -eNotFound ≠ 0 := by decide
    have missing : ∀ f, ¬ At c (pathElements path) f := by
      intro f leads
      rw [names] at leads
      obtain ⟨dir, above', -, -, -, entry⟩ := leads.above
      cases above.determined distinct above'
      exact absent f entry
    rw [treeOf_none missing]
    exact .inr ⟨code, rfl⟩
  | fails codes unresolved present =>
    have missing : ∀ f, ¬ At c (pathElements path) f := by
      intro f leads
      obtain ⟨e, resolves⟩ := leads.resolves
      exact unresolved e f resolves
    rw [treeOf_none missing]
    refine .inr ⟨?_, rfl⟩
    rcases codes with rfl | rfl
    · decide
    · decide

end Tree

/-- The image has the blocks in use of the other one, but for the words `f_dir`. -/
def Carried (c c' : Image) : Prop :=
  ∀ b w, 0 < b → b < c.nblocks → ¬ c.Free b → w < 1024 → ¬ IsMark c b w → c' b w = c b w

section Carried

variable (carried : Carried c c') (size : 2 < c.nblocks) (own : Exclusive c)
include carried size own

theorem Carried.system (low : 0 < b) (inside : b ≤ c.bitmapEnd) (small : w < 1024) : c' b w = c b w := by
  have below : b < c.nblocks := by
    unfold Image.bitmapEnd blockSizeBit at inside
    omega
  refine carried b w low below (own.system b below inside) small fun mark => ?_
  have data := (mark.data own).1
  omega

theorem Carried.nblocks : c'.nblocks = c.nblocks :=
  congrArg BitVec.toNat (carried.system size own (Nat.lt_succ_self 0) (Nat.le_of_lt c.two_le_bitmapEnd) (by decide))

theorem Carried.free (below : b < c.nblocks) : c'.Free b ↔ c.Free b := by
  obtain ⟨low, inside⟩ := Image.bitmapBlock_isBitmap below
  have small : Store.bitmapWord b < 1024 := Nat.mod_lt _ (by decide)
  unfold Image.Free
  rw [carried.system size own (by omega) inside small]

theorem Carried.field (reach : Reach c f) {k : Nat} (small : k < 64) (plain : k ≠ 45) : c'.field f k = c.field f k := by
  have word := reach.word own small plain
  cases reach with
  | ofRoot => exact carried.system size own (Nat.lt_succ_self 0) (Nat.le_of_lt c.two_le_bitmapEnd) (by show 2 + k < 1024; omega)
  | @ofSlot dir i j reach visible held inside =>
    obtain ⟨data, used⟩ := own.inUse dir (some i) reach held
    have few : j < 16 := inside
    exact carried _ _ (Nat.zero_lt_of_lt data.1) data.2 used (by show 64 * j + k < 1024; omega) word

theorem Carried.target (reach : Reach c f) (p : Option Nat) : c'.target f p = c.target f p := by
  refine Image.target_congr (fun k low high => carried.field size own reach (by omega) (by omega)) (fun i _ high held => ?_) p
  obtain ⟨data, used⟩ := own.inUse f none reach held
  exact carried _ _ (Nat.zero_lt_of_lt data.1) data.2 used high (reach.entry own held i)

theorem Carried.visible (reach : Reach c f) (i : Nat) : c'.Visible f i ↔ c.Visible f i := by
  unfold Image.Visible
  rw [carried.field size own reach (k := 33) (by decide) (by decide),
    carried.field size own reach (k := 32) (by decide) (by decide)]

theorem Carried.reach : Reach c' f ↔ Reach c f := by
  constructor
  · intro reach
    induction reach with
    | ofRoot => exact .ofRoot
    | @ofSlot dir i j reach visible held small ih =>
      rw [carried.target size own ih] at held ⊢
      exact .ofSlot ih ((carried.visible size own ih i).mp visible) held small
  · intro reach
    induction reach with
    | ofRoot => exact .ofRoot
    | @ofSlot dir i j reach visible held small ih =>
      rw [← carried.target size own reach] at held ⊢
      exact .ofSlot ih ((carried.visible size own reach i).mpr visible) held small

theorem Carried.nameAt (reach : Reach c f) (short : name.length < maxNameLen) : c'.NameAt f name ↔ c.NameAt f name := by
  have small : name.length < 128 := short
  unfold Image.NameAt Image.nameByte
  refine forall₂_congr fun k inside => ?_
  rw [carried.field size own reach (by omega) (by omega)]

theorem Carried.entry (reach : Reach c d) (short : name.length < maxNameLen) : c'.Entry d name f ↔ c.Entry d name f := by
  unfold Image.Entry
  refine exists₂_congr fun i j => ?_
  rw [carried.visible size own reach, carried.target size own reach]
  constructor
  · rintro ⟨visible, held, small, rfl, named⟩
    exact ⟨visible, held, small, rfl, (carried.nameAt size own (.ofSlot reach visible held small) short).mp named⟩
  · rintro ⟨visible, held, small, rfl, named⟩
    exact ⟨visible, held, small, rfl, (carried.nameAt size own (.ofSlot reach visible held small) short).mpr named⟩

theorem Carried.at : At c' names f ↔ At c names f := by
  have type : ∀ {f}, Reach c f → c'.field f 33 = c.field f 33 := fun reach =>
    carried.field size own reach (by decide) (by decide)
  constructor
  · intro leads
    induction leads with
    | top => exact .top
    | down above plain short isDir entry ih =>
      exact .down ih plain short ((type ih.reach).symm.trans isDir) ((carried.entry size own ih.reach short).mp entry)
  · intro leads
    induction leads with
    | top => exact .top
    | down above plain short isDir entry ih =>
      exact .down ih plain short ((type above.reach).trans isDir) ((carried.entry size own above.reach short).mpr entry)

theorem Carried.node (reach : Reach c f) : c'.node f = c.node f := by
  unfold Image.node Image.contents
  rw [carried.field size own reach (k := 33) (by decide) (by decide),
    carried.field size own reach (k := 32) (by decide) (by decide)]
  split
  · rfl
  · rename_i notDir
    congr 2
    funext i
    rw [carried.target size own reach]
    split
    · rfl
    · rename_i held
      obtain ⟨data, used⟩ := own.inUse f (some i) reach held
      congr 1
      funext k
      refine carried _ _ (Nat.zero_lt_of_lt data.1) data.2 used k.isLt ?_
      -- a block of a directory belongs to no other file
      rintro ⟨dir, i', j, reach', visible, -, same, -⟩
      obtain ⟨rfl, -⟩ := own.once f dir (some i) (some i') reach reach' held same
      exact notDir visible.1

theorem Carried.exclusive : Exclusive c' where
  once f g p q reach reach' held same := by
    have reach := (carried.reach size own).mp reach
    have reach' := (carried.reach size own).mp reach'
    rw [carried.target size own reach] at held same
    rw [carried.target size own reach'] at same
    exact own.once f g p q reach reach' held same
  inUse f p reach held := by
    have reach := (carried.reach size own).mp reach
    rw [carried.target size own reach] at held ⊢
    obtain ⟨data, used⟩ := own.inUse f p reach held
    refine ⟨(Image.IsData.of_nblocks (carried.nblocks size own)).mpr data, fun isFree => used ?_⟩
    exact (carried.free size own data.2).mp isFree
  system b below low isFree := by
    unfold Image.bitmapEnd at low
    rw [carried.nblocks size own] at below low
    exact own.system b below low ((carried.free size own below).mp isFree)

theorem Carried.unambiguous (distinct : Unambiguous c) : Unambiguous c' := by
  intro dir name f g reach plain short entry entry'
  have reach := (carried.reach size own).mp reach
  exact distinct dir name f g reach plain short ((carried.entry size own reach short).mp entry)
    ((carried.entry size own reach short).mp entry')

theorem Carried.treeOf (distinct : Unambiguous c) : treeOf c' names = treeOf c names :=
  treeOf_congr distinct (carried.unambiguous size own distinct) (fun _ => carried.at size own)
    fun _ leads => carried.node size own leads.reach

end Carried

/-- The words of the blocks in use that the disk does not have are marked dirty, but for the words `f_dir`: `dir_lookup`
    stores these and marks nothing. -/
def MarkedFiles (s : Store) : Prop :=
  ∀ b, InUse s b → (∃ i, i < 1024 ∧ ¬ IsMark s.content b i ∧ s.disk b i ≠ s.content b i) → s.dirty b = true

theorem Synced.carried (synced : Synced s.nblocks s s') (booted : Booted s'.disk u) (super : s.cache 1 ≠ none)
    (marked : MarkedFiles s) : Carried s.content u.content := by
  intro b w low below used small plain
  have use : InUse s b := by
    refine ⟨low, nblocks_content super ▸ below, ?_⟩
    unfold blockIsFree
    split
    · rfl
    · rw [decide_eq_false_iff_not]
      exact fun isFree => used (free_of_bitmap isFree)
  rw [booted.content b (by omega), synced.disk b]
  split
  · rfl
  · rename_i unwritten
    by_contra differ
    have dirty := marked b use ⟨w, small, plain, differ⟩
    refine unwritten ⟨use.2.1, ?_⟩
    rw [blockIsDirty, dirty, Bool.and_true, Option.isSome_iff_ne_none]
    intro hole
    rw [Store.content, hole, Option.getD_none] at differ
    exact differ rfl

/-- After `fs_sync` a new server on the disk has the files of the old one, and finds them under their paths. -/
theorem sync_restart {t t' v : Server} (tree : DirTree t.fs.content) (super : t.fs.cache 1 ≠ none) (size : 2 < t.fs.nblocks)
    (marked : MarkedFiles t.fs) (sync : serveStep t .fsreqSync = some t') {memory : Nat → Bool}
    (booted : serverInit t'.fs.disk memory = some v) :
    treeOf v.fs.content = treeOf t.fs.content ∧ ∀ path, ∃ r x, walkPathLoop path v.fs = .ok r x ∧
      (r.code = -eNoMem ∧ r.file = none ∧ RunsOut v.fs.memory ∨
        match treeOf t.fs.content (pathElements path) with
        | some node => r.code = 0 ∧ ∃ f, r.file = some f ∧ v.fs.content.node f = node
        | none => r.code ≠ 0 ∧ r.file = none) := by
  obtain ⟨s', ran, synced⟩ := fsSync_synced t.fs
  have reached : t'.fs = s' := by
    simp only [serveStep, serveSync, ran, Result.ok_bind] at sync
    cases sync
    rfl
  rw [reached] at booted
  obtain ⟨boot, -⟩ := serverInit_booted booted
  have carried := synced.carried boot super marked
  have exclusive := tree.toExclusive
  rw [nblocks_content super] at size
  have distinct : Unambiguous t.fs.content := fun dir name f g reach plain _ => tree.distinct dir name f g reach plain.isName
  have distinct' := carried.unambiguous size exclusive distinct
  have same : treeOf v.fs.content = treeOf t.fs.content := funext fun _ => carried.treeOf size exclusive distinct
  refine ⟨same, fun path => ?_⟩
  have blocks : ∀ dir i, Reach v.fs.content dir → v.fs.content.Visible dir i → v.fs.content.target dir (some i) ≠ 0 := by
    intro dir i reach visible
    have reach := (carried.reach size exclusive).mp reach
    rw [carried.target size exclusive reach]
    exact tree.blocks dir i reach ((carried.visible size exclusive reach i).mp visible)
  have shows : Shows v.fs.content v.fs.memory v.fs := ⟨boot.super, fun _ _ _ => rfl, rfl⟩
  obtain ⟨r, x, walked, answer, -⟩ := walkElements_answer (distinct'.short (carried.exclusive size exclusive)) .ofRoot
    (fun _ mem => isName_of_mem mem) (solid_of_blocks blocks .ofRoot (pathElements path)) shows boot.super
  refine ⟨r, x, (walkPathLoop_eq path v.fs).trans walked, ?_⟩
  rw [← same]
  exact answer.tree distinct'

/-- A server that has the block of the root in its cache, marked dirty, and something else on its disk. -/
def staleServer : Server where
  fs := { smallStore fun _ => true with
    cache := fun b => if b < 4 then some (smallImage b) else none
    dirty := fun b => b = 3
    disk := fun b => if b = 3 then fun _ => 7 else smallImage b }
  opentab _ := { file := none, mode := 0, ff := clearFilefd, refs := 0 }
  handed _ := false

theorem staleServer_content : staleServer.fs.content = smallImage := by
  funext b
  by_cases cached : b < 4
  · simp [Store.content, staleServer, cached]
  · have other : b ≠ 3 := by omega
    simp [Store.content, staleServer, cached, other]

theorem staleServer_marked : MarkedFiles staleServer.fs := by
  rintro b - ⟨i, -, -, differ⟩
  rw [staleServer_content] at differ
  by_cases here : b = 3
  · exact decide_eq_true here
  · simp [staleServer, here] at differ

set_option maxRecDepth 100000 in
theorem sync_restart_stale : ∃ t' v, serveStep staleServer .fsreqSync = some t' ∧
    serverInit t'.fs.disk (fun _ => true) = some v ∧ treeOf v.fs.content = treeOf staleServer.fs.content := by
  have check : ((serveStep staleServer .fsreqSync).any fun t' => (serverInit t'.fs.disk fun _ => true).isSome) = true := by
    decide +kernel
  obtain ⟨t', sync, check⟩ := Option.any_eq_true .. |>.mp check
  obtain ⟨v, booted⟩ := Option.isSome_iff_exists.mp check
  have tree : DirTree staleServer.fs.content := staleServer_content ▸ smallImage_tree
  have super : staleServer.fs.cache 1 ≠ none := by simp [staleServer]
  exact ⟨t', v, sync, booted, (sync_restart tree super (by decide) staleServer_marked sync booted).1⟩

end Mos.Fs
