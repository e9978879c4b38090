import Mos.Format.Write
import Mos.Fs.Boot

namespace Mos.Format

open Fs

variable {c c' : Image} {i j k m n : Nat} {f g x dir : FilePtr} {name : List Byte} {forest entries : Forest}

/-- A file or a directory of a forest. -/
inductive Node where
  | file (content : List Byte)
  | dir (entries : Forest)

namespace Forest

/-- The `i`-th entry. -/
def entry : Forest → Nat → Option (List Byte × Node)
  | .nil, _ => none
  | .file name content rest, i => if i = 0 then some (name, .file content) else rest.entry (i - 1)
  | .dir name entries rest, i => if i = 0 then some (name, .dir entries) else rest.entry (i - 1)

def names : Forest → List (List Byte)
  | .nil => []
  | .file name _ rest => name :: rest.names
  | .dir name _ rest => name :: rest.names

def WellNamed : Forest → Prop
  | .nil => True
  | .file name _ rest => ValidName name ∧ name ∉ rest.names ∧ rest.WellNamed
  | .dir name entries rest => ValidName name ∧ name ∉ rest.names ∧ entries.WellNamed ∧ rest.WellNamed

def find : Forest → List Byte → Option Node
  | .nil, _ => none
  | .file name content rest, wanted => if name = wanted then some (.file content) else rest.find wanted
  | .dir name entries rest, wanted => if name = wanted then some (.dir entries) else rest.find wanted

theorem WellNamed.valid (well : forest.WellNamed) : forest.Valid := by
  induction forest with
  | nil => trivial
  | file name content rest ih => exact ⟨well.1, ih well.2.2⟩
  | dir name entries rest first second => exact ⟨well.1, first well.2.2.1, second well.2.2.2⟩

theorem entry_of_lt (inside : i < forest.count) : ∃ name node, forest.entry i = some (name, node) := by
  induction forest generalizing i with
  | nil => exact absurd inside (Nat.not_lt_zero i)
  | file name content rest ih =>
    rw [entry]
    split
    · exact ⟨_, _, rfl⟩
    · exact ih (by rw [count] at inside; omega)
  | dir name entries rest first second =>
    rw [entry]
    split
    · exact ⟨_, _, rfl⟩
    · exact second (by rw [count] at inside; omega)

theorem entry_mem {node : Node} (at_i : forest.entry i = some (name, node)) : name ∈ forest.names ∧ i < forest.count := by
  induction forest generalizing i with
  | nil => cases at_i
  | file first content rest ih =>
    rw [entry] at at_i
    split at at_i
    · cases at_i
      exact ⟨List.mem_cons_self, by rw [count]; omega⟩
    · obtain ⟨mem, below⟩ := ih at_i
      exact ⟨List.mem_cons_of_mem _ mem, by rw [count]; omega⟩
  | dir first entries rest _ ih =>
    rw [entry] at at_i
    split at at_i
    · cases at_i
      exact ⟨List.mem_cons_self, by rw [count]; omega⟩
    · obtain ⟨mem, below⟩ := ih at_i
      exact ⟨List.mem_cons_of_mem _ mem, by rw [count]; omega⟩

theorem entry_unique {node node' : Node} (well : forest.WellNamed) (at_i : forest.entry i = some (name, node))
    (at_j : forest.entry j = some (name, node')) : i = j := by
  induction forest generalizing i j with
  | nil => cases at_i
  | file first content rest ih =>
    rw [entry] at at_i at_j
    split at at_i <;> split at at_j
    · omega
    · cases at_i
      exact absurd (entry_mem at_j).1 well.2.1
    · cases at_j
      exact absurd (entry_mem at_i).1 well.2.1
    · have := ih well.2.2 at_i at_j
      omega
  | dir first entries rest _ ih =>
    rw [entry] at at_i at_j
    split at at_i <;> split at at_j
    · omega
    · cases at_i
      exact absurd (entry_mem at_j).1 well.2.1
    · cases at_j
      exact absurd (entry_mem at_i).1 well.2.1
    · have := ih well.2.2.2 at_i at_j
      omega

theorem find_some {node : Node} (found : forest.find name = some node) : ∃ i, forest.entry i = some (name, node) := by
  induction forest with
  | nil => cases found
  | file first content rest ih =>
    rw [find] at found
    split at found
    · rename_i same
      cases found
      exact ⟨0, by rw [entry, if_pos rfl, same]⟩
    · obtain ⟨i, at_i⟩ := ih found
      exact ⟨i + 1, by rw [entry, if_neg (Nat.succ_ne_zero i), Nat.add_sub_cancel, at_i]⟩
  | dir first entries rest _ ih =>
    rw [find] at found
    split at found
    · rename_i same
      cases found
      exact ⟨0, by rw [entry, if_pos rfl, same]⟩
    · obtain ⟨i, at_i⟩ := ih found
      exact ⟨i + 1, by rw [entry, if_neg (Nat.succ_ne_zero i), Nat.add_sub_cancel, at_i]⟩

theorem find_entry {node : Node} (well : forest.WellNamed) (at_i : forest.entry i = some (name, node)) :
    forest.find name = some node := by
  induction forest generalizing i with
  | nil => cases at_i
  | file first content rest ih =>
    rw [entry] at at_i
    rw [find]
    split at at_i
    · cases at_i
      exact if_pos rfl
    · rw [if_neg]
      · exact ih well.2.2 at_i
      · rintro rfl
        exact well.2.1 (entry_mem at_i).1
  | dir first entries rest _ ih =>
    rw [entry] at at_i
    rw [find]
    split at at_i
    · cases at_i
      exact if_pos rfl
    · rw [if_neg]
      · exact ih well.2.2.2 at_i
      · rintro rfl
        exact well.2.1 (entry_mem at_i).1

end Forest

namespace Node

/-- What the names lead to. -/
def lookup : Node → List (List Byte) → Option Node
  | node, [] => some node
  | .file _, _ :: _ => none
  | .dir entries, name :: rest => (entries.find name).bind fun node => node.lookup rest

def WellNamed : Node → Prop
  | .file _ => True
  | .dir entries => entries.WellNamed

end Node

/-- The `File` is the file or the directory. -/
def IsNode (c : Image) (f : FilePtr) : Node → Prop
  | .file content => IsFile c f content
  | .dir entries => Listing c f entries.count (dirBlocks entries.count) ∧ Stored c entries f 0

theorem Stored.entry {node : Node} (stored : Stored c forest f k) (well : forest.WellNamed)
    (at_i : forest.entry i = some (name, node)) :
    ValidName name ∧ node.WellNamed ∧ c.NameAt (slot c f (k + i)) name ∧ IsNode c (slot c f (k + i)) node := by
  induction forest generalizing k i with
  | nil => cases at_i
  | file first content rest ih =>
    rw [Forest.entry] at at_i
    split at at_i
    · rename_i zero
      cases at_i
      subst zero
      exact ⟨well.1, trivial, stored.1, stored.2.1⟩
    · have after := ih stored.2.2 well.2.2 at_i
      rwa [show k + 1 + (i - 1) = k + i by omega] at after
  | dir first entries rest _ ih =>
    rw [Forest.entry] at at_i
    split at at_i
    · rename_i zero
      cases at_i
      subst zero
      exact ⟨well.1, well.2.2.1, stored.1, stored.2.1, stored.2.2.1⟩
    · have after := ih stored.2.2.2 well.2.2.2 at_i
      rwa [show k + 1 + (i - 1) = k + i by omega] at after

theorem nameAt_cut (named : c.NameAt f name) : c.NameAt f (name.takeWhile (· ≠ 0)) := by
  intro k inside
  have whole := List.takeWhile_append_dropWhile (p := (· ≠ 0)) (l := name)
  have zero := List.head?_dropWhile_not (· ≠ 0) name
  generalize name.takeWhile (· ≠ 0) = front at *
  generalize name.dropWhile (· ≠ 0) = back at *
  have inName : k ≤ name.length := by
    rw [← whole, List.length_append]
    omega
  rw [named k inName, ← whole]
  cases back with
  | nil => rw [List.append_nil]
  | cons x back =>
    obtain rfl : x = 0 := by simpa using zero
    rw [List.append_assoc, List.cons_append]
    rcases Nat.lt_or_eq_of_le inside with below | rfl
    · rw [List.getD_append _ _ _ _ below, List.getD_append _ _ _ _ below]
    · rw [List.getD_append_right _ _ _ _ (Nat.le_refl _), List.getD_append_right _ _ _ _ (Nat.le_refl _), Nat.sub_self]
      rfl

theorem plain_cut (isName : IsName name) : Plain (name.takeWhile (· ≠ 0)) := by
  obtain ⟨b, rest, rfl, nonzero⟩ := isName
  refine ⟨?_, fun x mem => by simpa using List.mem_takeWhile_imp mem⟩
  rw [List.takeWhile_cons_of_pos (by simpa using nonzero)]
  exact List.cons_ne_nil _ _

section Directory

variable (isDir : IsNode c f (.dir entries)) (well : entries.WellNamed)
include isDir well

theorem IsNode.slot_entry (isName : IsName name) (found : c.Entry f name x) :
    ∃ i node, entries.entry i = some (name.takeWhile (· ≠ 0), node) ∧ x = slot c f i := by
  obtain ⟨listing, stored⟩ := isDir
  obtain ⟨b, j, visible, held, small, rfl, named⟩ := found
  have small' : j < 16 := small
  have inside : 16 * b + j < 16 * dirBlocks entries.count := by
    have := (listing.held b).mp held
    omega
  have place : slot c f (16 * b + j) = fileOf (c.target f (some b)) j := by
    unfold slot
    rw [show (16 * b + j) / 16 = b by omega, show (16 * b + j) % 16 = j by omega]
  have cut := nameAt_cut named
  have plain := plain_cut isName
  have below : 16 * b + j < entries.count := by
    by_contra past
    have dead := listing.dead _ (Nat.le_of_not_lt past) inside
    rw [place] at dead
    exact live_of_name plain cut dead
  obtain ⟨other, node, at_i⟩ := Forest.entry_of_lt below
  obtain ⟨valid, -, stands, -⟩ := stored.entry well at_i
  rw [Nat.zero_add, place] at stands
  refine ⟨16 * b + j, node, ?_, place.symm⟩
  rw [nameAt_unique plain valid.1 cut stands]
  exact at_i

theorem IsNode.entry_slot {node : Node} (at_i : entries.entry i = some (name, node)) : c.Entry f name (slot c f i) := by
  obtain ⟨listing, stored⟩ := isDir
  obtain ⟨-, -, stands, -⟩ := stored.entry well at_i
  rw [Nat.zero_add] at stands
  obtain ⟨inside, -⟩ := listing.live i (Forest.entry_mem at_i).2
  obtain ⟨visible, held⟩ := listing.visible inside
  exact ⟨_, _, visible, held, Nat.mod_lt _ (by decide), rfl, stands⟩

theorem IsNode.entry_find (plain : Plain name) (found : c.Entry f name x) :
    ∃ node, entries.find name = some node ∧ IsNode c x node ∧ node.WellNamed := by
  obtain ⟨i, node, at_i, rfl⟩ := isDir.slot_entry well plain.isName found
  have whole : name.takeWhile (· ≠ 0) = name := by
    rw [List.takeWhile_eq_self_iff]
    intro b mem
    simpa using plain.2 b mem
  rw [whole] at at_i
  obtain ⟨-, inner, -, isNode⟩ := isDir.2.entry well at_i
  rw [Nat.zero_add] at isNode
  exact ⟨node, Forest.find_entry well at_i, isNode, inner⟩

theorem IsNode.find_entry {node : Node} (found : entries.find name = some node) :
    ValidName name ∧ node.WellNamed ∧ ∃ x, c.Entry f name x ∧ IsNode c x node := by
  obtain ⟨i, at_i⟩ := Forest.find_some found
  obtain ⟨valid, inner, -, isNode⟩ := isDir.2.entry well at_i
  rw [Nat.zero_add] at isNode
  exact ⟨valid, inner, _, isDir.entry_slot well at_i, isNode⟩

end Directory

section Lookup

variable {names : List (List Byte)} {node : Node} {d : Option FilePtr}

theorem IsNode.resolves (isNode : IsNode c f node) (well : node.WellNamed) (plain : ∀ name ∈ names, Plain name)
    {parent : Option FilePtr} (resolves : Resolves c parent f names d x) :
    ∃ found, node.lookup names = some found ∧ IsNode c x found := by
  induction resolves generalizing node with
  | here => exact ⟨node, by rw [Node.lookup], isNode⟩
  | @down parent d file g x name rest short type entry further ih =>
    cases node with
    | file content =>
      have other := isNode.type
      rw [type] at other
      exact absurd other (by decide)
    | dir entries =>
      obtain ⟨next, found, isNext, inner⟩ := isNode.entry_find well (plain name List.mem_cons_self) entry
      obtain ⟨last, looked, isLast⟩ := ih isNext inner fun other mem => plain other (List.mem_cons_of_mem name mem)
      refine ⟨last, ?_, isLast⟩
      rw [Node.lookup, found]
      exact looked

theorem IsNode.lookup (isNode : IsNode c f node) (well : node.WellNamed) {found : Node}
    (looked : node.lookup names = some found) (parent : Option FilePtr) :
    ∃ d x, Resolves c parent f names d x ∧ IsNode c x found := by
  induction names generalizing node f parent with
  | nil =>
    rw [Node.lookup] at looked
    cases looked
    exact ⟨parent, f, .here parent f, isNode⟩
  | cons name rest ih =>
    cases node with
    | file content => cases looked
    | dir entries =>
      rw [Node.lookup] at looked
      obtain ⟨next, step, further⟩ := Option.bind_eq_some_iff.mp looked
      obtain ⟨valid, inner, x, entry, isNext⟩ := isNode.find_entry well step
      obtain ⟨d, y, resolves, isLast⟩ := ih isNext inner further (some f)
      exact ⟨d, y, .down valid.2 isNode.1.type entry resolves, isLast⟩

end Lookup

theorem Made.isNode (made : Made c n) (top : IsNode c root (.dir forest)) (well : forest.WellNamed) (reach : Reach c f)
    (live : f ≠ root → ¬ c.Dead f) : ∃ node, IsNode c f node ∧ node.WellNamed := by
  induction reach with
  | ofRoot => exact ⟨_, top, well⟩
  | @ofSlot dir i j above visible held small ih =>
    have alive : dir ≠ root → ¬ c.Dead dir := by
      intro notRoot dead
      have zero := made.clean dir above notRoot dead 33 (by decide)
      rw [visible.1] at zero
      exact absurd zero (by decide)
    obtain ⟨node, isNode, inner⟩ := ih alive
    cases node with
    | file content =>
      have other := isNode.type
      rw [visible.1] at other
      exact absurd other (by decide)
    | dir entries =>
      obtain ⟨listing, stored⟩ := isNode
      have small' : j < 16 := small
      have place : slot c dir (16 * i + j) = fileOf (c.target dir (some i)) j := by
        unfold slot
        rw [show (16 * i + j) / 16 = i by omega, show (16 * i + j) % 16 = j by omega]
      have below : 16 * i + j < entries.count := by
        by_contra past
        refine live (fileOf_ne_root _ _) ?_
        rw [← place]
        refine listing.dead _ (Nat.le_of_not_lt past) ?_
        have := (listing.held i).mp held
        omega
      obtain ⟨name, node, at_i⟩ := Forest.entry_of_lt below
      obtain ⟨-, wellNode, -, isNode⟩ := stored.entry inner at_i
      rw [Nat.zero_add, place] at isNode
      exact ⟨node, isNode, wellNode⟩

theorem Made.distinct (made : Made c n) (top : IsNode c root (.dir forest)) (well : forest.WellNamed) (reach : Reach c dir)
    (isName : IsName name) (first : c.Entry dir name f) (second : c.Entry dir name g) : f = g := by
  have visible : ∃ i, c.Visible dir i := by
    obtain ⟨i, j, visible, -⟩ := first
    exact ⟨i, visible⟩
  obtain ⟨i, visible⟩ := visible
  have alive : dir ≠ root → ¬ c.Dead dir := by
    intro notRoot dead
    have zero := made.clean dir reach notRoot dead 33 (by decide)
    rw [visible.1] at zero
    exact absurd zero (by decide)
  obtain ⟨node, isNode, inner⟩ := made.isNode top well reach alive
  cases node with
  | file content =>
    have other := isNode.type
    rw [visible.1] at other
    exact absurd other (by decide)
  | dir entries =>
    obtain ⟨i, node, at_i, rfl⟩ := isNode.slot_entry inner isName first
    obtain ⟨j, node', at_j, rfl⟩ := isNode.slot_entry inner isName second
    rw [Forest.entry_unique inner at_i at_j]

theorem Made.dirTree (made : Made c n) (top : IsNode c root (.dir forest)) (well : forest.WellNamed) : DirTree c :=
  { made.sound.toExclusive with
    distinct := fun _ _ _ _ reach isName => made.distinct top well reach isName
    blocks := made.solid }

theorem Made.noLeak (made : Made c n) : NoLeak c := by
  intro b data used
  obtain ⟨low, high⟩ := (isData_iff made.size).mp data
  obtain ⟨f, p, named, same, -⟩ := made.owned b low (Nat.lt_of_not_le fun past => used ((made.free b high).mpr past))
  exact ⟨f, p, named, same⟩

section Start

theorem initDisk_field {k : Nat} (inside : k < 64) :
    initDisk.image.field root k = if k = 33 then ftypeDir else if k = 0 then 0x2f else 0 := by
  have small : initDisk.nextbno ≤ nblock := by decide
  rw [← Disk.field_image small (.inl rfl) inside]
  have place : root.word = 2 := rfl
  unfold Disk.field initDisk
  rw [if_pos rfl, place]
  dsimp only
  rw [if_neg (by omega), if_neg (by omega)]
  by_cases type : k = 33
  · rw [if_pos (by omega), if_pos type]
  · rw [if_neg (by omega), if_neg type]
    by_cases name : k = 0
    · rw [if_pos (by omega), if_pos name]
    · rw [if_neg (by omega), if_neg name]

theorem initDisk_target (p : Option Nat) : initDisk.image.target root p = 0 := by
  have indirect : initDisk.image.indirect root = 0 := congrArg BitVec.toNat (initDisk_field (show 44 < 64 by decide))
  cases p with
  | none => exact indirect
  | some i =>
    by_cases low : i < ndirect
    · have small : i < 10 := low
      unfold Image.target
      dsimp only
      rw [if_pos low, initDisk_field (by omega), if_neg (by omega), if_neg (by omega)]
      rfl
    · exact Image.target_of_no_indirect indirect (Nat.le_of_not_lt low)

theorem initDisk_reach (reach : Reach initDisk.image f) : f = root := by
  induction reach with
  | ofRoot => rfl
  | ofSlot above visible held small ih =>
    subst ih
    exact absurd (initDisk_target _) held

theorem initDisk_super {w : Nat} (inside : w < 66) : initDisk.image 1 w = initDisk.super w := by
  rw [Disk.image_off (by decide) (by decide)]
  unfold finishFs
  rw [if_pos ⟨rfl, inside⟩]

theorem initDisk_good : Good initDisk where
  bitmap := rfl
  made := by
    have size : initDisk.image.nblocks = nblock := by
      unfold Image.nblocks
      rw [initDisk_super (by decide)]
      rfl
    have unseen : ∀ i, ¬ initDisk.image.Visible root i := by
      intro i visible
      have inside := visible.2
      rw [initDisk_field (by decide)] at inside
      exact absurd inside (Nat.not_lt_zero i)
    refine ⟨by decide, by decide, ?_, size, fun b below => free_image rfl below, fun b past => ?_, ⟨⟨fun f g p q reach _ held _ => ?_,
      fun f p reach held => ?_, fun b below low isFree => ?_⟩, fun _ f reach notRoot _ => ?_⟩, fun b low below => ?_,
      fun f i reach visible => ?_, fun f reach notRoot _ _ _ => ?_⟩
    · rw [initDisk_super (by decide)]
      rfl
    · have least : 3 ≤ b := past
      rw [Disk.image_disk (by decide) least]
      funext w
      unfold initDisk
      dsimp only
      rw [if_neg, if_neg]
      · rfl
      · intro both
        have : b < 3 := both.2
        omega
      · intro all
        have : b = 2 := all.1
        omega
    · rw [initDisk_reach reach] at held
      exact absurd (initDisk_target p) held
    · rw [initDisk_reach reach] at held
      exact absurd (initDisk_target p) held
    · rw [bitmapEnd_of_size size] at low
      rw [size] at below
      have : 3 ≤ b := (free_image rfl below).mp isFree
      omega
    · exact absurd (initDisk_reach reach) notRoot
    · have : b < 3 := below
      omega
    · rw [initDisk_reach reach] at visible
      exact absurd visible (unseen i)
    · exact absurd (initDisk_reach reach) notRoot

theorem initDisk_listing : Listing initDisk.image root 0 (dirBlocks 0) where
  held i := by
    rw [initDisk_target]
    exact iff_of_false (fun no => no rfl) (Nat.not_lt_zero i)
  indirect := iff_of_true (initDisk_target none) (Nat.zero_le _)
  type := initDisk_field (by decide)
  size := by
    rw [initDisk_field (by decide)]
    rfl
  live i below := absurd below (Nat.not_lt_zero i)
  dead i _ below := absurd below (Nat.not_lt_zero i)

end Start

/-- What `fsformat` makes of its arguments. -/
structure Formatted (args : Forest) (c : Image) (n : Nat) : Prop where
  made : Made c n
  count : n = 3 + forestCost 0 args
  top : IsNode c root (.dir args)

/-- An image is made just when the arguments fit on the disk. -/
theorem fsformat_spec {args : Forest} (some : args ≠ .nil) (valid : args.Valid) :
    Exactly (fsformat args) (3 + forestCost 0 args ≤ nblock) fun c => ∃ n, Formatted args c n := by
  have spec := writeForest_spec initDisk_good .ofRoot initDisk_listing valid
  have shape : fsformat args = (writeForest args root initDisk).map fun d => finishFs (flushBitmap d) := by
    unfold fsformat
    split
    · exact absurd rfl some
    · rfl
  rw [shape]
  refine spec.map fun _ d after => ⟨d.nextbno, after.good.made, after.count, ?_⟩
  have listing := after.listing
  rw [Nat.zero_add] at listing
  exact ⟨listing, after.stored⟩

end Mos.Format
