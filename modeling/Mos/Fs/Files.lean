import Mos.Lib.FileTree
import Mos.Fs.Restart

namespace Mos.Fs

namespace Contents

def empty : Contents := { size := 0, block := fun _ => none }

/-- `file_set_size` drops the blocks behind the new end. -/
def resize (d : Contents) (size : Word) : Contents :=
  { size := size, block := fun i => if i < roundBlocks size then d.block i else none }

def fill (d : Contents) (i : Nat) (page : Fin 1024 → Word) : Contents :=
  { d with block := Function.update d.block i (some page) }

def store (d : Contents) (i : Nat) (k : Fin 1024) (v : Word) : Contents :=
  { d with block := Function.update d.block i ((d.block i).map fun page => Function.update page k v) }

variable {d : Contents} {i j : Nat} {page : Fin 1024 → Word}

@[simp] theorem fill_self : (d.fill i page).block i = some page := Function.update_self ..

theorem fill_ne (ne : j ≠ i) : (d.fill i page).block j = d.block j := Function.update_of_ne ne ..

theorem store_self {k : Fin 1024} {v : Word} :
    (d.store i k v).block i = (d.block i).map fun page => Function.update page k v := Function.update_self ..

theorem store_ne {k : Fin 1024} {v : Word} (ne : j ≠ i) : (d.store i k v).block j = d.block j := Function.update_of_ne ne ..

theorem resize_empty : empty.resize 0 = empty := by
  unfold resize empty
  simp

theorem ext_block {d e : Contents} (size : d.size = e.size) (block : d.block = e.block) : d = e := by
  cases d
  cases e
  cases size
  cases block
  rfl

end Contents

def Image.extent (c : Image) (f : FilePtr) : Nat :=
  if c.field f 33 = ftypeDir then (c.field f 32).toNat / 4096 else roundBlocks (c.field f 32)

/-- The root is a directory, no name stands for two files, directories have no holes, no file has blocks behind its end,
    and the free slots have no size. -/
structure Regular (c : Image) : Prop extends Exclusive c where
  distinct : Unambiguous c
  top : c.field root 33 = ftypeDir
  blocks : ∀ dir i, Reach c dir → c.Visible dir i → c.target dir (some i) ≠ 0
  trim : ∀ f i, Reach c f → c.extent f ≤ i → c.target f (some i) = 0
  free : ∀ f, Reach c f → f ≠ root → c.Dead f → c.field f 32 = 0

variable {c c' : Image} {f g d dir : FilePtr} {names path parent : List (List Byte)} {name : List Byte} {s t u : Store} {i : Nat}

theorem Regular.trim_same (regular : Regular c) (reach : Reach c f) (size : c'.field f 32 = c.field f 32)
    (type : c'.field f 33 = c.field f 33) (target : c'.target f (some i) = c.target f (some i)) (behind : c'.extent f ≤ i) :
    c'.target f (some i) = 0 := by
  unfold Image.extent at behind
  rw [size, type] at behind
  rw [target]
  exact regular.trim f i reach behind

theorem Regular.free_same (regular : Regular c) (reach : Reach c f) (notRoot : f ≠ root) (name : c'.field f 0 = c.field f 0)
    (size : c'.field f 32 = c.field f 32) (dead : c'.Dead f) : c'.field f 32 = 0 := by
  have dead' : c.Dead f := by
    unfold Image.Dead at dead ⊢
    rwa [name] at dead
  rw [size]
  exact regular.free f reach notRoot dead'

theorem Regular.orderly (regular : Regular c) : Orderly c where
  toExclusive := regular.toExclusive
  distinct := regular.distinct
  blocks := regular.blocks
  ends dir reach type := regular.trim dir _ reach (by rw [Image.extent, if_pos type])
  free := regular.free

theorem Regular.sound (regular : Regular c) : Sound False c := ⟨regular.toExclusive, False.elim⟩

theorem Regular.size_le (regular : Regular c) (reach : Reach c d) (type : c.field d 33 = ftypeDir) :
    (c.field d 32).toNat / 4096 ≤ 1024 := by
  by_contra far
  refine regular.blocks d 1024 reach ⟨type, by omega⟩ ?_
  simp [Image.target, nindirect, ndirect]

theorem node_dir (type : c.field f 33 = ftypeDir) : c.node f = .dir := if_pos type

theorem node_file (notDir : c.field f 33 ≠ ftypeDir) : c.node f = .file (c.contents f) := if_neg notDir

theorem contents_block (target : c'.target f (some i) = c.target f (some i))
    (page : c.target f (some i) ≠ 0 → c' (c.target f (some i)) = c (c.target f (some i))) :
    (c'.contents f).block i = (c.contents f).block i := by
  unfold Image.contents
  dsimp only
  rw [target]
  split
  · rfl
  · rename_i held
    rw [page held]

theorem contents_congr (size : c'.field f 32 = c.field f 32) (data : ∀ i, c'.target f (some i) = c.target f (some i) ∧
    (c.target f (some i) ≠ 0 → c' (c.target f (some i)) = c (c.target f (some i)))) : c'.contents f = c.contents f :=
  Contents.ext_block size (funext fun i => contents_block (data i).1 (data i).2)

theorem node_congr (type : c'.field f 33 = c.field f 33)
    (contents : c.field f 33 ≠ ftypeDir → c'.contents f = c.contents f) : c'.node f = c.node f := by
  unfold Image.node
  rw [type]
  split
  · rfl
  · rename_i notDir
    rw [contents notDir]

theorem SameBut.node (same : SameBut path c c') (leads : At c names f) (ne : names ≠ path) : c'.node f = c.node f := by
  refine node_congr (same.type names f ne leads) fun notDir => ?_
  exact contents_congr (same.size names f ne leads notDir) fun i => same.data names f i ne leads notDir

theorem SameBut.treeOf (same : SameBut path c c') (distinct : Unambiguous c) (distinct' : Unambiguous c') (leads : At c' path f) :
    treeOf c' = Function.update (treeOf c) path (some (c'.node f)) := by
  funext names
  by_cases here : names = path
  · subst here
    rw [Function.update_self, treeOf_at distinct' leads]
  · rw [Function.update_of_ne here]
    exact treeOf_congr distinct distinct' (fun f => same.paths names f here) fun _ leads => same.node leads here

section Marks

variable (marked : Remarked c c') (regular : Regular c)
include marked regular

theorem Remarked.keeps : Regular c' := by
  have exclusive := regular.toExclusive
  have orderly := marked.orderly regular.orderly
  refine { orderly with top := ?_, trim := fun f i reach behind => ?_ }
  · rw [marked.field exclusive .ofRoot (by decide) (by decide)]
    exact regular.top
  · have reach := (marked.reach exclusive).mp reach
    exact regular.trim_same reach (marked.field exclusive reach (by decide) (by decide))
      (marked.field exclusive reach (by decide) (by decide)) (marked.target exclusive reach _) behind

theorem Remarked.treeOf : treeOf c' = treeOf c := by
  funext names
  have same := marked.sameBut regular.toExclusive (names ++ [[]])
  have ne : names ≠ names ++ [[]] := by simp
  exact treeOf_congr regular.distinct (marked.keeps regular).distinct (fun f => same.paths names f ne)
    fun _ leads => same.node leads ne

end Marks

section Carried

variable (carried : Carried c c') (size : 2 < c.nblocks) (own : Exclusive c)
include carried size own

theorem Carried.keeps (regular : Regular c) : Regular c' := by
  have old : ∀ {f}, Reach c' f → Reach c f := (carried.reach size own).mp
  refine { carried.exclusive size own with
    distinct := carried.unambiguous size own regular.distinct
    top := (carried.field size own .ofRoot (by decide) (by decide)).trans regular.top
    blocks := fun dir i reach visible => ?_, trim := fun f i reach behind => ?_, free := fun f reach notRoot dead => ?_ }
  · rw [carried.target size own (old reach)]
    exact regular.blocks dir i (old reach) ((carried.visible size own (old reach) i).mp visible)
  · exact regular.trim_same (old reach) (carried.field size own (old reach) (by decide) (by decide))
      (carried.field size own (old reach) (by decide) (by decide)) (carried.target size own (old reach) _) behind
  · exact regular.free_same (old reach) notRoot (carried.field size own (old reach) (by decide) (by decide))
      (carried.field size own (old reach) (by decide) (by decide)) dead

end Carried

theorem Confined.nblocks (confined : Confined c g c') (exclusive : Exclusive c) (reach : Reach c g) : c'.nblocks = c.nblocks := by
  refine congrArg BitVec.toNat (confined.words 1 1 (.inl rfl) fun here => ?_)
  cases reach with
  | ofRoot => exact .inl (by decide)
  | @ofSlot dir i j reach visible held small =>
    have data := (exclusive.inUse dir (some i) reach held).1.1
    have two := c.two_le_bitmapEnd
    have one : 1 = c.target dir (some i) := here
    omega

/-- Of the tree at most the type and the contents of `g` are changed, which is no directory with blocks. -/
structure Rewritten (g : FilePtr) (c c' : Image) : Prop where
  confined : Confined c g c'
  exclusive : Exclusive c'
  name : ∀ k, k < 32 → c'.field g k = c.field g k
  before : ∀ i, ¬ c.Visible g i
  after : ∀ i, ¬ c'.Visible g i
  trim : ∀ i, c'.extent g ≤ i → c'.target g (some i) = 0

section Rewritten

variable (rewritten : Rewritten g c c') (regular : Regular c) (reachG : Reach c g) (notRoot : g ≠ root)
include rewritten

theorem Rewritten.leaves : Leaf c g ∧ Leaf c' g :=
  ⟨fun i visible => absurd visible (rewritten.before i), fun i visible => absurd visible (rewritten.after i)⟩

include regular reachG

theorem Rewritten.beside : Beside g c c' := rewritten.confined.beside regular.toExclusive reachG rewritten.leaves.1

theorem Rewritten.reach : Reach c' f ↔ Reach c f :=
  (rewritten.beside regular reachG).reach rewritten.leaves.1 rewritten.leaves.2

theorem Rewritten.word (reachF : Reach c f) {k : Nat} (small : k < 32) : c'.field f k = c.field f k := by
  by_cases here : f = g
  · subst here
    exact rewritten.name k small
  · exact (rewritten.beside regular reachG).field f reachF here k (by omega) (by omega)

theorem Rewritten.nameAt (reachF : Reach c f) (short : name.length < maxNameLen) : c'.NameAt f name ↔ c.NameAt f name := by
  have small : name.length < 128 := short
  unfold Image.NameAt Image.nameByte
  refine forall₂_congr fun k inside => ?_
  rw [rewritten.word regular reachG reachF (by omega)]

theorem Rewritten.entry (reachD : Reach c d) (short : name.length < maxNameLen) : c'.Entry d name f ↔ c.Entry d name f := by
  by_cases here : d = g
  · subst here
    refine iff_of_false ?_ ?_
    · rintro ⟨i, j, visible, -⟩
      exact rewritten.after i visible
    · rintro ⟨i, j, visible, -⟩
      exact rewritten.before i visible
  · have beside := rewritten.beside regular reachG
    unfold Image.Entry
    refine exists₂_congr fun i j => ?_
    rw [beside.visible reachD here, beside.target d reachD here]
    constructor
    · rintro ⟨visible, held, small, rfl, named⟩
      exact ⟨visible, held, small, rfl, (rewritten.nameAt regular reachG (.ofSlot reachD visible held small) short).mp named⟩
    · rintro ⟨visible, held, small, rfl, named⟩
      exact ⟨visible, held, small, rfl, (rewritten.nameAt regular reachG (.ofSlot reachD visible held small) short).mpr named⟩

theorem Rewritten.type (reachD : Reach c d) (entry : c.Entry d name f) : c'.field d 33 = c.field d 33 := by
  have other : d ≠ g := by
    rintro rfl
    obtain ⟨i, j, visible, -⟩ := entry
    exact rewritten.before i visible
  exact (rewritten.beside regular reachG).field d reachD other 33 (by decide) (by decide)

theorem Rewritten.at : At c' names f ↔ At c names f := by
  constructor
  · intro leads
    induction leads with
    | top => exact .top
    | down above plain short isDir entry ih =>
      have entry' := (rewritten.entry regular reachG ih.reach short).mp entry
      exact .down ih plain short ((rewritten.type regular reachG ih.reach entry').symm.trans isDir) entry'
  · intro leads
    induction leads with
    | top => exact .top
    | down above plain short isDir entry ih =>
      exact .down ih plain short ((rewritten.type regular reachG above.reach entry).trans isDir)
        ((rewritten.entry regular reachG above.reach short).mpr entry)

include notRoot

theorem Rewritten.keeps (live : ¬ c.Dead g) : Regular c' := by
  have beside := rewritten.beside regular reachG
  have old : ∀ {f}, Reach c' f → Reach c f := (rewritten.reach regular reachG).mp
  refine { rewritten.exclusive with
    distinct := fun dir name f g' reach' plain short entry entry' => ?_
    top := (beside.field root .ofRoot notRoot.symm 33 (by decide) (by decide)).trans regular.top
    blocks := fun dir i reach' visible => ?_, trim := fun f i reach' behind => ?_, free := fun f reach' notRoot dead => ?_ }
  · have reach := old reach'
    exact regular.distinct dir name f g' reach plain short ((rewritten.entry regular reachG reach short).mp entry)
      ((rewritten.entry regular reachG reach short).mp entry')
  · have other : dir ≠ g := fun same => rewritten.after i (same ▸ visible)
    rw [beside.target dir (old reach') other]
    exact regular.blocks dir i (old reach') ((beside.visible (old reach') other i).mp visible)
  · by_cases here : f = g
    · subst here
      exact rewritten.trim i behind
    · exact regular.trim_same (old reach') (beside.field f (old reach') here 32 (by decide) (by decide))
        (beside.field f (old reach') here 33 (by decide) (by decide)) (beside.target f (old reach') here _) behind
  · have first := rewritten.word regular reachG (old reach') (show 0 < 32 by decide)
    by_cases here : f = g
    · subst here
      refine absurd ?_ live
      unfold Image.Dead at dead ⊢
      rwa [first] at dead
    · exact regular.free_same (old reach') notRoot first (beside.field f (old reach') here 32 (by decide) (by decide)) dead

theorem Rewritten.treeOf (leads : At c path g) : treeOf c' = Function.update (treeOf c) path (some (c'.node g)) := by
  have distinct' := (rewritten.keeps regular reachG notRoot (leads.not_dead notRoot)).distinct
  have beside := rewritten.beside regular reachG
  funext names
  by_cases here : names = path
  · subst here
    rw [Function.update_self, treeOf_at distinct' ((rewritten.at regular reachG).mpr leads)]
  · rw [Function.update_of_ne here]
    refine treeOf_congr regular.distinct distinct' (fun f => rewritten.at regular reachG) fun f leadsF => ?_
    have other : f ≠ g := by
      rintro rfl
      exact here (leadsF.unique regular.toExclusive leads)
    refine node_congr (beside.field f leadsF.reach other 33 (by decide) (by decide)) fun isFile => ?_
    exact contents_congr (beside.field f leadsF.reach other 32 (by decide) (by decide)) fun i =>
      ⟨beside.target f leadsF.reach other _, beside.data f i leadsF.reach other isFile⟩

end Rewritten

structure Steady (s : Store) : Prop where
  super : s.cache 1 ≠ none
  regular : Regular s.content

theorem Steady.ready (steady : Steady s) : Ready s := ⟨steady.super, steady.regular.orderly⟩

theorem Steady.read (steady : Steady s) (read : Read s t) : Steady t :=
  ⟨read.cached 1 steady.super, read.content ▸ steady.regular⟩

theorem Steady.shows (steady : Steady s) {memory : Nat → Bool} (shows : Shows s.content memory t) : Steady t :=
  ⟨shows.super, shows.marked.keeps steady.regular⟩

end Mos.Fs
