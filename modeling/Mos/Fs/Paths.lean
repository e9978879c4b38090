import Mos.Fs.CreateAtomic
import Mos.Fs.Descriptor
import Mathlib.Data.List.GetD

namespace Mos.Fs

variable {c c' c'' : Image} {names p parent : List (List Byte)} {name : List Byte} {d dir f g : FilePtr}

/-- A name as `walk_path` cuts it out of a path. -/
def Plain (name : List Byte) : Prop := name ≠ [] ∧ ∀ b ∈ name, b ≠ 0

theorem plain_of_mem {path : List Byte} (mem : name ∈ pathElements path) : Plain name := by
  obtain ⟨mem, notEmpty⟩ := List.mem_filter.mp mem
  refine ⟨by simpa using notEmpty, fun b inName => ?_⟩
  rcases mem_of_split (a := []) mem inName with inside | no
  · simpa using List.mem_takeWhile_imp inside
  · cases no

theorem Plain.isName (plain : Plain name) : IsName name := by
  obtain ⟨b, rest, rfl⟩ := List.exists_cons_of_ne_nil plain.1
  exact ⟨b, rest, rfl, plain.2 b List.mem_cons_self⟩

/-- The names lead from the root to `f`. -/
inductive At (c : Image) : List (List Byte) → FilePtr → Prop where
  | top : At c [] root
  | down {names : List (List Byte)} {dir f : FilePtr} {name : List Byte} (above : At c names dir) (plain : Plain name)
      (short : name.length < maxNameLen) (type : c.field dir 33 = ftypeDir) (entry : c.Entry dir name f) :
      At c (names ++ [name]) f

theorem At.reach (leads : At c names f) : Reach c f := by
  induction leads with
  | top => exact .ofRoot
  | down above plain short type entry ih => exact entry.reach ih

theorem Resolves.at {pre : List (List Byte)} {dir d : Option FilePtr} (resolves : Resolves c dir f names d g) (above : At c pre f)
    (plain : ∀ name ∈ names, Plain name) : At c (pre ++ names) g := by
  induction resolves generalizing pre with
  | here => rwa [List.append_nil]
  | @down dir d file f g name rest short type entry further ih =>
    have step := ih (.down above (plain name List.mem_cons_self) short type entry)
      fun other mem => plain other (List.mem_cons_of_mem name mem)
    rwa [List.append_assoc] at step

theorem Misses.at {pre : List (List Byte)} {last : List Byte} (misses : Misses c f names d last) (above : At c pre f)
    (plain : ∀ name ∈ names, Plain name) : ∃ parent, pre ++ names = parent ++ [last] ∧ At c parent d ∧ Plain last ∧
      last.length < maxNameLen ∧ c.field d 33 = ftypeDir ∧ ∀ x, ¬ c.Entry d last x := by
  induction misses generalizing pre with
  | here short type absent => exact ⟨pre, rfl, above, plain _ List.mem_cons_self, short, type, absent⟩
  | @down file f d name last rest short type entry further ih =>
    obtain ⟨parent, same, rest⟩ := ih (.down above (plain name List.mem_cons_self) short type entry)
      fun other mem => plain other (List.mem_cons_of_mem name mem)
    rw [List.append_assoc] at same
    exact ⟨parent, same, rest⟩

theorem nameAt_unique {n : List Byte} (plain : Plain name) (plain' : Plain n) (first : c.NameAt f name) (second : c.NameAt f n) :
    name = n := by
  have ends : ∀ {a b : List Byte}, Plain b → c.NameAt f a → c.NameAt f b → b.length ≤ a.length := by
    intro a b plainB atA atB
    refine Nat.le_of_not_lt fun longer => ?_
    have zero := atA a.length (Nat.le_refl _)
    rw [atB a.length (Nat.le_of_lt longer), List.getD_append _ _ _ _ longer, List.getD_append_right _ _ _ _ (Nat.le_refl _),
      Nat.sub_self] at zero
    rw [List.getD_eq_getElem _ _ longer] at zero
    exact plainB.2 _ (List.getElem_mem longer) zero
  have same : name.length = n.length := Nat.le_antisymm (ends plain second first) (ends plain' first second)
  refine List.ext_getElem same fun k below below' => ?_
  have byte := first k (Nat.le_of_lt below)
  rw [second k (Nat.le_of_lt below'), List.getD_append _ _ _ _ below', List.getD_append _ _ _ _ below,
    List.getD_eq_getElem _ _ below', List.getD_eq_getElem _ _ below] at byte
  exact byte.symm

theorem Exclusive.slot (exclusive : Exclusive c) {dir' : FilePtr} {n : List Byte} (reach : Reach c dir) (reach' : Reach c dir')
    (entry : c.Entry dir name f) (entry' : c.Entry dir' n f) : dir = dir' := by
  obtain ⟨i, j, -, held, -, rfl, -⟩ := entry
  obtain ⟨i', j', -, -, -, same, -⟩ := entry'
  exact (exclusive.once dir dir' (some i) (some i') reach reach' held (congrArg FilePtr.block same)).1

theorem Exclusive.entry_ne_root (exclusive : Exclusive c) (reach : Reach c dir) (entry : c.Entry dir name f) : f ≠ root := by
  obtain ⟨i, j, -, held, -, rfl, -⟩ := entry
  intro same
  have data := (exclusive.inUse dir (some i) reach held).1.1
  rw [show c.target dir (some i) = 1 from congrArg FilePtr.block same] at data
  have two := c.two_le_bitmapEnd
  omega

theorem At.unique (exclusive : Exclusive c) {names' : List (List Byte)} (leads : At c names f) (leads' : At c names' f) :
    names = names' := by
  induction leads generalizing names' with
  | top =>
    cases leads' with
    | top => rfl
    | down above plain short type entry => exact absurd rfl (exclusive.entry_ne_root above.reach entry)
  | @down names dir f name above plain short type entry ih =>
    cases leads' with
    | top => exact absurd rfl (exclusive.entry_ne_root above.reach entry)
    | @down names' dir' _ name' above' plain' short' type' entry' =>
      cases exclusive.slot above.reach above'.reach entry entry'
      obtain ⟨i, j, -, -, -, -, named⟩ := entry
      obtain ⟨i', j', -, -, -, -, named'⟩ := entry'
      rw [ih above', nameAt_unique plain plain' named named']

/-- No two files of a directory have the same name. -/
def Unambiguous (c : Image) : Prop := ∀ dir name f g, Reach c dir → Plain name → name.length < maxNameLen → c.Entry dir name f →
  c.Entry dir name g → f = g

theorem At.determined (distinct : Unambiguous c) (leads : At c names f) (leads' : At c names g) : f = g := by
  induction leads generalizing g with
  | top =>
    generalize empty : ([] : List (List Byte)) = none at leads'
    cases leads' with
    | top => rfl
    | down => simp at empty
  | @down names dir f name above plain short type entry ih =>
    generalize whole : names ++ [name] = all at leads'
    cases leads' with
    | top => simp at whole
    | @down names' dir' _ name' above' plain' short' type' entry' =>
      obtain ⟨rfl, last⟩ := List.append_inj' whole rfl
      cases last
      cases ih above'
      exact distinct dir name f g above.reach plain short entry entry'

/-- The paths but `p` lead to the same files, which have the same types, and but for directories the same contents. -/
structure SameBut (p : List (List Byte)) (c c' : Image) : Prop where
  paths : ∀ names f, names ≠ p → (At c' names f ↔ At c names f)
  type : ∀ names f, names ≠ p → At c names f → c'.field f 33 = c.field f 33
  size : ∀ names f, names ≠ p → At c names f → c.field f 33 ≠ ftypeDir → c'.field f 32 = c.field f 32
  data : ∀ names f i, names ≠ p → At c names f → c.field f 33 ≠ ftypeDir → c'.target f (some i) = c.target f (some i) ∧
    (c.target f (some i) ≠ 0 → c' (c.target f (some i)) = c (c.target f (some i)))

theorem SameBut.refl (p : List (List Byte)) (c : Image) : SameBut p c c :=
  ⟨fun _ _ _ => Iff.rfl, fun _ _ _ _ => rfl, fun _ _ _ _ _ => rfl, fun _ _ _ _ _ _ => ⟨rfl, fun _ => rfl⟩⟩

theorem SameBut.trans (first : SameBut p c c') (second : SameBut p c' c'') : SameBut p c c'' where
  paths names f other := (second.paths names f other).trans (first.paths names f other)
  type names f other leads := (second.type names f other ((first.paths names f other).mpr leads)).trans (first.type names f other leads)
  size names f other leads notDir := by
    have leads' := (first.paths names f other).mpr leads
    have type := first.type names f other leads
    exact (second.size names f other leads' (type ▸ notDir)).trans (first.size names f other leads notDir)
  data names f i other leads notDir := by
    have leads' := (first.paths names f other).mpr leads
    have type := first.type names f other leads
    obtain ⟨target, same⟩ := first.data names f i other leads notDir
    obtain ⟨target', same'⟩ := second.data names f i other leads' (type ▸ notDir)
    refine ⟨target'.trans target, fun held => ?_⟩
    rw [target] at same'
    exact (same' held).trans (same held)

section Marks

variable (marked : Remarked c c') (exclusive : Exclusive c)
include marked exclusive

theorem Remarked.at : At c' names f ↔ At c names f := by
  have type : ∀ {f}, Reach c f → c'.field f 33 = c.field f 33 := fun reach =>
    marked.field exclusive reach (by decide) (by decide)
  constructor
  · intro leads
    induction leads with
    | top => exact .top
    | down above plain short isDir entry ih =>
      exact .down ih plain short ((type ih.reach).symm.trans isDir) ((marked.entry exclusive ih.reach short _).mp entry)
  · intro leads
    induction leads with
    | top => exact .top
    | down above plain short isDir entry ih =>
      exact .down ih plain short ((type above.reach).trans isDir) ((marked.entry exclusive above.reach short _).mpr entry)

theorem Remarked.sameBut (p : List (List Byte)) : SameBut p c c' where
  paths _ _ _ := marked.at exclusive
  type _ _ _ leads := marked.field exclusive leads.reach (by decide) (by decide)
  size _ _ _ leads _ := marked.field exclusive leads.reach (by decide) (by decide)
  data _ f i _ leads notDir := by
    refine ⟨marked.target exclusive leads.reach _, fun held => funext fun w => marked _ w ?_⟩
    rintro ⟨dir, i', j, reach, visible, -, same, -⟩
    obtain ⟨rfl, -⟩ := exclusive.once f dir (some i) (some i') leads.reach reach held same
    exact notDir visible.1

theorem Remarked.unambiguous (distinct : Unambiguous c) : Unambiguous c' := by
  intro dir name f g reach plain short entry entry'
  have reach := (marked.reach exclusive).mp reach
  exact distinct dir name f g reach plain short ((marked.entry exclusive reach short f).mp entry)
    ((marked.entry exclusive reach short g).mp entry')

end Marks

/-- The names that `walk_path` looks for are told apart as well: what stands behind a zero does not count. -/
theorem Unambiguous.short (distinct : Unambiguous c) (exclusive : Exclusive c) : ShortTree c where
  toExclusive := exclusive
  distinct dir name f g reach isName short entry entry' := by
    obtain ⟨b, rest, rfl, nonzero⟩ := isName
    have cut : ∀ {x}, c.Entry dir (b :: rest) x → c.Entry dir ((b :: rest).takeWhile (· ≠ 0)) x := by
      rintro x ⟨i, j, visible, held, small, rfl, named⟩
      refine ⟨i, j, visible, held, small, rfl, fun k inside => ?_⟩
      have whole := List.takeWhile_append_dropWhile (p := (· ≠ 0)) (l := b :: rest)
      have zero := List.head?_dropWhile_not (· ≠ 0) (b :: rest)
      generalize (b :: rest).takeWhile (· ≠ 0) = front at *
      generalize (b :: rest).dropWhile (· ≠ 0) = back at *
      have inName : k ≤ (b :: rest).length := by
        rw [← whole, List.length_append]
        omega
      rw [named k inName, ← whole]
      cases back with
      | nil => rw [List.append_nil]
      | cons x back =>
        obtain rfl : x = 0 := by simpa using zero
        rw [List.append_assoc, List.cons_append]
        rcases Nat.lt_or_eq_of_le inside with below | rfl
        · rw [List.getD_append _ _ _ _ below, List.getD_append _ _ _ _ below]
        · rw [List.getD_append_right _ _ _ _ (Nat.le_refl _), List.getD_append_right _ _ _ _ (Nat.le_refl _), Nat.sub_self]
          rfl
    refine distinct dir _ f g reach ⟨?_, fun x mem => by simpa using List.mem_takeWhile_imp mem⟩ ?_ (cut entry) (cut entry')
    · rw [List.takeWhile_cons_of_pos (by simpa using nonzero)]
      exact List.cons_ne_nil _ _
    exact Nat.lt_of_le_of_lt (List.takeWhile_sublist _).length_le short

/-- The files of the tree but `g` have the same fields, pointers and data. -/
structure Beside (g : FilePtr) (c c' : Image) : Prop where
  field : ∀ f, Reach c f → f ≠ g → ∀ k, k < 64 → k ≠ 45 → c'.field f k = c.field f k
  target : ∀ f, Reach c f → f ≠ g → ∀ p, c'.target f p = c.target f p
  data : ∀ f i, Reach c f → f ≠ g → c.field f 33 ≠ ftypeDir → c.target f (some i) ≠ 0 →
    c' (c.target f (some i)) = c (c.target f (some i))

def Leaf (c : Image) (g : FilePtr) : Prop := ∀ i, c.Visible g i → c.target g (some i) = 0

theorem Beside.visible (beside : Beside g c c') (reach : Reach c f) (other : f ≠ g) (i : Nat) : c'.Visible f i ↔ c.Visible f i := by
  unfold Image.Visible
  rw [beside.field f reach other 33 (by decide) (by decide), beside.field f reach other 32 (by decide) (by decide)]

theorem Beside.reach (beside : Beside g c c') (leaf : Leaf c g) (leaf' : Leaf c' g) : Reach c' f ↔ Reach c f := by
  constructor
  · intro reach
    induction reach with
    | ofRoot => exact .ofRoot
    | @ofSlot dir i j reach visible held small ih =>
      have other : dir ≠ g := fun same => held (leaf' i (same ▸ visible) ▸ by rw [same])
      rw [beside.target dir ih other] at held ⊢
      exact .ofSlot ih ((beside.visible ih other i).mp visible) held small
  · intro reach
    induction reach with
    | ofRoot => exact .ofRoot
    | @ofSlot dir i j reach visible held small ih =>
      have other : dir ≠ g := fun same => held (leaf i (same ▸ visible) ▸ by rw [same])
      rw [← beside.target dir reach other] at held ⊢
      exact .ofSlot ih ((beside.visible reach other i).mpr visible) held small

theorem Beside.symm (beside : Beside g c c') (leaf : Leaf c g) (leaf' : Leaf c' g) : Beside g c' c where
  field f reach other k small plain := (beside.field f ((beside.reach leaf leaf').mp reach) other k small plain).symm
  target f reach other p := (beside.target f ((beside.reach leaf leaf').mp reach) other p).symm
  data f i reach other notDir held := by
    have reach' := (beside.reach leaf leaf').mp reach
    rw [beside.field f reach' other 33 (by decide) (by decide)] at notDir
    rw [beside.target f reach' other] at held ⊢
    exact (beside.data f i reach' other notDir held).symm

theorem Beside.nameAt (beside : Beside g c c') (reach : Reach c f) (other : f ≠ g) (short : name.length < maxNameLen) :
    c'.NameAt f name ↔ c.NameAt f name := by
  have small : name.length < 128 := short
  unfold Image.NameAt Image.nameByte
  refine forall₂_congr fun k inside => ?_
  rw [beside.field f reach other _ (by omega) (by omega)]

/-- The entry of `g`, which is no directory with blocks, is `name` in `d`, or it has none. -/
structure Sole (d : FilePtr) (name : List Byte) (g : FilePtr) (c : Image) : Prop where
  exclusive : Exclusive c
  distinct : Unambiguous c
  leaf : Leaf c g
  mine : ∀ dir n, Reach c dir → Plain n → c.Entry dir n g → dir = d ∧ n = name
  only : ∀ x, c.Entry d name x → x = g

theorem Beside.entry (beside : Beside g c c') (reach : Reach c dir) (inner : dir ≠ g) (outer : f ≠ g) (short : name.length < maxNameLen) :
    c'.Entry dir name f ↔ c.Entry dir name f := by
  unfold Image.Entry
  refine exists₂_congr fun i j => ?_
  rw [beside.visible reach inner, beside.target dir reach inner]
  constructor
  · rintro ⟨visible, held, small, rfl, named⟩
    exact ⟨visible, held, small, rfl, (beside.nameAt (.ofSlot reach visible held small) outer short).mp named⟩
  · rintro ⟨visible, held, small, rfl, named⟩
    exact ⟨visible, held, small, rfl, (beside.nameAt (.ofSlot reach visible held small) outer short).mpr named⟩

section Confined

variable (confined : Confined c g c') (exclusive : Exclusive c) (reach : Reach c g)
include confined exclusive reach

theorem Confined.same (reachF : Reach c f) (other : f ≠ g) (outside : f = root ∨ OtherBlock c g f.block) : Same c c' f := by
  have two := c.two_le_bitmapEnd
  have high : ∀ {f p}, Reach c f → c.target f p ≠ 0 → c.target f p ≠ 1 := by
    intro f p reach held one
    have data := (exclusive.inUse f p reach held).1.1
    omega
  refine Same.of_words (fun k small => ?_) fun i _ _ held => ?_
  · refine confined.words _ _ (outside.imp (fun same => congrArg FilePtr.block same) id) fun same => ?_
    cases reachF with
    | ofRoot =>
      cases reach with
      | ofRoot => exact absurd rfl other
      | ofSlot reach visible held => exact absurd same.symm (high reach held)
    | @ofSlot dir i j reachD visible held below =>
      cases reach with
      | ofRoot => exact absurd same (high reachD held)
      | @ofSlot dir' i' j' reach' visible' held' below' =>
        have ne : j ≠ j' := by
          rintro rfl
          have block : c.target dir (some i) = c.target dir' (some i') := same
          exact other (by rw [block])
        show 64 * j + k < 64 * j' ∨ 64 * j' + 64 ≤ 64 * j + k
        omega
  · refine confined.words _ _ (.inr ⟨f, none, reachF, other, rfl, held⟩) fun here => ?_
    cases reach with
    | ofRoot => exact absurd here (high (p := none) reachF held)
    | @ofSlot dir i j reach visible held' below =>
      have both := exclusive.once f dir none (some i) reachF reach held here
      cases both.2

theorem Confined.slot {i j : Nat} (reachD : Reach c dir) (inner : dir ≠ g) (visible : c.Visible dir i)
    (held : c.target dir (some i) ≠ 0) (small : j < file2blk) (other : fileOf (c.target dir (some i)) j ≠ g) :
    Same c c' (fileOf (c.target dir (some i)) j) :=
  confined.same exclusive reach (.ofSlot reachD visible held small) other (.inr ⟨dir, some i, reachD, inner, rfl, held⟩)

theorem Confined.beside (leaf : Leaf c g) : Beside g c c' := by
  have same : ∀ f, Reach c f → f ≠ g → Same c c' f := by
    intro f reachF other
    cases reachF with
    | ofRoot => exact confined.same exclusive reach .ofRoot other (.inl rfl)
    | @ofSlot dir i j reachD visible held small =>
      have inner : dir ≠ g := fun same => held (leaf i (same ▸ visible) ▸ by rw [same])
      exact confined.slot exclusive reach reachD inner visible held small other
  refine ⟨fun f reachF other k small _ => (same f reachF other).field k small, fun f reachF other p => (same f reachF other).target p,
    fun f i reachF other notDir held => funext fun w => ?_⟩
  refine confined.words _ _ (.inr ⟨f, some i, reachF, other, rfl, held⟩) fun here => ?_
  cases reach with
  | ofRoot =>
    have data := (exclusive.inUse f (some i) reachF held).1.1
    have two := c.two_le_bitmapEnd
    have one : c.target f (some i) = 1 := here
    omega
  | @ofSlot dir i' j reach visible held' below =>
    obtain ⟨rfl, -⟩ := exclusive.once f dir (some i) (some i') reachF reach held here
    exact absurd visible.1 notDir

theorem Confined.kept (leaf' : Leaf c' g) (reach' : Reach c' f) : f = g ∨ Reach c f ∧ Same c c' f := by
  induction reach' with
  | ofRoot =>
    by_cases here : root = g
    · exact .inl here
    · exact .inr ⟨.ofRoot, confined.same exclusive reach .ofRoot here (.inl rfl)⟩
  | @ofSlot dir i j reach' visible held small ih =>
    have inner : dir ≠ g := fun same => held (leaf' i (same ▸ visible) ▸ by rw [same])
    obtain ⟨reachD, same⟩ := ih.resolve_left inner
    rw [same.target] at held ⊢
    have visible := (same.visible i).mp visible
    by_cases here : fileOf (c.target dir (some i)) j = g
    · exact .inl here
    · exact .inr ⟨.ofSlot reachD visible held small, confined.slot exclusive reach reachD inner visible held small here⟩

end Confined

theorem Beside.sole (beside : Beside g c c') (leaf : Leaf c g) (leaf' : Leaf c' g) (distinct : Unambiguous c)
    (exclusive' : Exclusive c') (above : Reach c d) (only : ∀ x, c.Entry d name x → x = g)
    (mine : ∀ dir n, Reach c' dir → Plain n → c'.Entry dir n g → dir = d ∧ n = name) (short : name.length < maxNameLen) :
    Sole d name g c' := by
  have inner : ∀ {dir n x}, c'.Entry dir n x → dir ≠ g := by
    rintro dir n x ⟨i, j, visible, held, -⟩ rfl
    exact held (leaf' i visible)
  have back : ∀ {dir n x}, Reach c' dir → n.length < maxNameLen → c'.Entry dir n x → x ≠ g → c.Entry dir n x :=
    fun reach short entry outer => (beside.entry ((beside.reach leaf leaf').mp reach) (inner entry) outer short).mp entry
  have other : ∀ dir n x, Reach c' dir → Plain n → n.length < maxNameLen → c'.Entry dir n g → c'.Entry dir n x → x = g := by
    intro dir n x reach plain short' entry entry'
    by_contra outer
    obtain ⟨rfl, rfl⟩ := mine dir n reach plain entry
    exact outer (only x (back reach short' entry' outer))
  refine ⟨exclusive', fun dir n x y reach plain short' entry entry' => ?_, leaf', mine, fun x entry => ?_⟩
  · by_cases first : x = g
    · subst first
      exact (other dir n y reach plain short' entry entry').symm
    · by_cases second : y = g
      · subst second
        exact other dir n x reach plain short' entry' entry
      · exact distinct dir n x y ((beside.reach leaf leaf').mp reach) plain short' (back reach short' entry first)
          (back reach short' entry' second)
  · by_contra outer
    exact outer (only x (back ((beside.reach leaf leaf').mpr above) short entry outer))

/-- A path that does not end at `g` is still there when `g` has got or lost its name. -/
theorem At.beside (beside : Beside g c c') (sole : Sole d name g c) (notRoot : g ≠ root) (above : At c parent d)
    (leads : At c names f) (other : names ≠ parent ++ [name]) : At c' names f ∧ f ≠ g := by
  induction leads with
  | top => exact ⟨.top, notRoot.symm⟩
  | @down names dir f n above' plain short type entry ih =>
    have inner : dir ≠ g := by
      rintro rfl
      obtain ⟨i, j, visible, held, -⟩ := entry
      exact held (sole.leaf i visible)
    have notP : names ≠ parent ++ [name] := by
      intro whole
      rw [whole] at above'
      generalize at_p : parent ++ [name] = all at above'
      cases above' with
      | top => simp at at_p
      | down higher _ _ _ entry' =>
        obtain ⟨rfl, last⟩ := List.append_inj' at_p rfl
        cases last
        cases higher.determined sole.distinct above
        exact inner (sole.only _ entry')
    obtain ⟨leads', -⟩ := ih notP
    have outer : f ≠ g := by
      rintro rfl
      obtain ⟨rfl, rfl⟩ := sole.mine dir n above'.reach plain entry
      exact other (by rw [above'.unique sole.exclusive above])
    have reach := above'.reach
    have reachF := entry.reach reach
    obtain ⟨i, j, visible, held, small, rfl, named⟩ := entry
    refine ⟨.down leads' plain short ((beside.field dir reach inner 33 (by decide) (by decide)).trans type)
      ⟨i, j, (beside.visible reach inner i).mpr visible, ?_, small, ?_, (beside.nameAt reachF outer short).mpr named⟩, outer⟩
    · rwa [beside.target dir reach inner]
    · rw [beside.target dir reach inner]

theorem Sole.sameBut (sole : Sole d name g c) (sole' : Sole d name g c') (beside : Beside g c c') (notRoot : g ≠ root)
    (above : At c parent d) : SameBut (parent ++ [name]) c c' := by
  have other : parent ≠ parent ++ [name] := by simp
  have above' := (At.beside beside sole notRoot above above other).1
  have back := beside.symm sole.leaf sole'.leaf
  refine ⟨fun names f ne => ⟨fun leads => (At.beside back sole' notRoot above' leads ne).1,
    fun leads => (At.beside beside sole notRoot above leads ne).1⟩, fun names f ne leads => ?_, fun names f ne leads _ => ?_,
    fun names f i ne leads notDir => ?_⟩
  · exact beside.field f leads.reach (At.beside beside sole notRoot above leads ne).2 33 (by decide) (by decide)
  · exact beside.field f leads.reach (At.beside beside sole notRoot above leads ne).2 32 (by decide) (by decide)
  · have outer := (At.beside beside sole notRoot above leads ne).2
    exact ⟨beside.target f leads.reach outer _, beside.data f i leads.reach outer notDir⟩

theorem Plain.not_dead (plain : Plain name) (dead : c.Dead f) : ¬ c.NameAt f name := by
  intro named
  obtain ⟨x, rest, rfl⟩ := List.exists_cons_of_ne_nil plain.1
  have first : c.nameByte f 0 = x := named 0 (Nat.zero_le _)
  exact plain.2 x List.mem_cons_self (first.symm.trans dead)

theorem At.not_dead (leads : At c names f) (notRoot : f ≠ root) : ¬ c.Dead f := by
  cases leads with
  | top => exact absurd rfl notRoot
  | down above plain short type entry =>
    obtain ⟨i, j, -, -, -, -, named⟩ := entry
    exact fun dead => plain.not_dead dead named

/-- The file `name` of the directory has lost its name. -/
structure Unnamed (d : FilePtr) (name : List Byte) (g : FilePtr) (c c' : Image) : Prop where
  confined : Confined c g c'
  exclusive : Exclusive c
  exclusive' : Exclusive c'
  distinct : Unambiguous c
  reach : Reach c d
  plain : Plain name
  short : name.length < maxNameLen
  entry : c.Entry d name g
  leaf : Leaf c g
  leaf' : Leaf c' g
  dead : c'.Dead g

theorem Unnamed.beside (unnamed : Unnamed d name g c c') : Beside g c c' :=
  unnamed.confined.beside unnamed.exclusive (unnamed.entry.reach unnamed.reach) unnamed.leaf

theorem Unnamed.before (unnamed : Unnamed d name g c c') : Sole d name g c where
  exclusive := unnamed.exclusive
  distinct := unnamed.distinct
  leaf := unnamed.leaf
  mine dir n reach plain entry := by
    obtain rfl := unnamed.exclusive.slot reach unnamed.reach entry unnamed.entry
    obtain ⟨i, j, -, -, -, -, named⟩ := entry
    obtain ⟨i', j', -, -, -, -, named'⟩ := unnamed.entry
    exact ⟨rfl, nameAt_unique plain unnamed.plain named named'⟩
  only x entry := unnamed.distinct d name x g unnamed.reach unnamed.plain unnamed.short entry unnamed.entry

theorem Unnamed.after (unnamed : Unnamed d name g c c') : Sole d name g c' :=
  unnamed.beside.sole unnamed.leaf unnamed.leaf' unnamed.distinct unnamed.exclusive' unnamed.reach unnamed.before.only
    (fun _ _ _ plain ⟨_, _, _, _, _, _, named⟩ => absurd named (plain.not_dead unnamed.dead)) unnamed.short

theorem Unnamed.sameBut (unnamed : Unnamed d name g c c') (above : At c parent d) : SameBut (parent ++ [name]) c c' :=
  unnamed.before.sameBut unnamed.after unnamed.beside (unnamed.exclusive.entry_ne_root unnamed.reach unnamed.entry) above

/-- The slot `f` of a directory, which was free, has got a name that the directory did not have. -/
structure Naming (d : FilePtr) (name : List Byte) (f : FilePtr) (c c' : Image) : Prop where
  confined : Confined c f c'
  exclusive : Exclusive c
  exclusive' : Exclusive c'
  distinct : Unambiguous c
  reach : Reach c d
  plain : Plain name
  short : name.length < maxNameLen
  slot : ∃ i j, c.Visible d i ∧ c.target d (some i) ≠ 0 ∧ j < file2blk ∧ f = fileOf (c.target d (some i)) j
  absent : ∀ x, ¬ c.Entry d name x
  dead : c.Dead f
  leaf : Leaf c f
  leaf' : Leaf c' f
  named : c'.NameAt f name

theorem Naming.reach_slot (naming : Naming d name f c c') : Reach c f ∧ d ≠ f ∧ f ≠ root := by
  obtain ⟨i, j, visible, held, small, same⟩ := naming.slot
  refine ⟨same ▸ .ofSlot naming.reach visible held small, fun here => held (naming.leaf i (here ▸ visible) ▸ by rw [here]), ?_⟩
  rintro rfl
  have word : 2 = 64 * j := congrArg FilePtr.word same
  omega

theorem Naming.beside (naming : Naming d name f c c') : Beside f c c' :=
  naming.confined.beside naming.exclusive naming.reach_slot.1 naming.leaf

theorem Naming.before (naming : Naming d name f c c') : Sole d name f c where
  exclusive := naming.exclusive
  distinct := naming.distinct
  leaf := naming.leaf
  mine _ _ _ plain := fun ⟨_, _, _, _, _, _, named⟩ => absurd named (plain.not_dead naming.dead)
  only x entry := absurd entry (naming.absent x)

theorem Naming.after (naming : Naming d name f c c') : Sole d name f c' := by
  obtain ⟨-, inner, -⟩ := naming.reach_slot
  have reach' : Reach c' d := (naming.beside.reach naming.leaf naming.leaf').mpr naming.reach
  have entry : c'.Entry d name f := by
    obtain ⟨i, j, visible, held, small, same⟩ := naming.slot
    have target := naming.beside.target d naming.reach inner (some i)
    exact ⟨i, j, (naming.beside.visible naming.reach inner i).mpr visible, target ▸ held, small, target ▸ same, naming.named⟩
  refine naming.beside.sole naming.leaf naming.leaf' naming.distinct naming.exclusive' naming.reach naming.before.only
    (fun dir n reach plain entry' => ?_) naming.short
  obtain rfl := naming.exclusive'.slot reach reach' entry' entry
  obtain ⟨i, j, -, -, -, -, named⟩ := entry'
  exact ⟨rfl, nameAt_unique plain naming.plain named naming.named⟩

theorem Naming.sameBut (naming : Naming d name f c c') (above : At c parent d) : SameBut (parent ++ [name]) c c' :=
  naming.before.sameBut naming.after naming.beside naming.reach_slot.2.2 above

/-- The directory has one block more, and that has come clean or is not there. -/
structure Extended (d : FilePtr) (n : Nat) (c c' : Image) : Prop where
  reach : Reach c d
  type : c.field d 33 = ftypeDir
  before : (c.field d 32).toNat / 4096 = n
  after : (c'.field d 32).toNat / 4096 = n + 1
  file : ∀ f, Reach c f → f ≠ d → Same c c' f
  field : ∀ k, k < 34 → k ≠ 32 → c'.field d k = c.field d k
  target : ∀ i, i ≠ n → c'.target d (some i) = c.target d (some i)
  fresh : c'.target d (some n) ≠ 0 → ∀ k, k < 1024 → c' (c'.target d (some n)) k = 0
  data : ∀ f i, Reach c f → c.field f 33 ≠ ftypeDir → c.target f (some i) ≠ 0 → c' (c.target f (some i)) = c (c.target f (some i))

section Extended

variable {n : Nat} (extended : Extended d n c c')
include extended

theorem Extended.visible (reach : Reach c f) {i : Nat} (visible : c.Visible f i) :
    c'.Visible f i ∧ c'.target f (some i) = c.target f (some i) := by
  by_cases here : f = d
  · subst here
    have below : i < n := extended.before ▸ visible.2
    exact ⟨⟨(extended.field 33 (by decide) (by decide)).trans visible.1, by rw [extended.after]; omega⟩, extended.target i (by omega)⟩
  · have same := extended.file f reach here
    exact ⟨(same.visible i).mpr visible, same.target _⟩

theorem Extended.zero {j : Nat} (held : c'.target d (some n) ≠ 0) (small : j < file2blk) {k : Nat} (inside : k < 64) :
    c'.field (fileOf (c'.target d (some n)) j) k = 0 := by
  have bound : j < 16 := small
  refine extended.fresh held _ ?_
  show 64 * j + k < 1024
  omega

theorem Extended.old (reach : Reach c f) {i : Nat} (visible : c'.Visible f i) :
    c.Visible f i ∧ c'.target f (some i) = c.target f (some i) ∨ f = d ∧ i = n := by
  by_cases here : f = d
  · subst here
    by_cases last : i = n
    · exact .inr ⟨rfl, last⟩
    · have below := visible.2
      rw [extended.after] at below
      exact .inl ⟨⟨extended.type, by rw [extended.before]; omega⟩, extended.target i last⟩
  · have same := extended.file f reach here
    exact .inl ⟨(same.visible i).mp visible, same.target _⟩

theorem Extended.reach_cases (reach : Reach c' f) : Reach c f ∨ ∀ k, k < 64 → c'.field f k = 0 := by
  induction reach with
  | ofRoot => exact .inl .ofRoot
  | @ofSlot dir i j reach visible held small ih =>
    rcases ih with old | empty
    · rcases extended.old old visible with ⟨before, same⟩ | ⟨rfl, rfl⟩
      · rw [same] at held ⊢
        exact .inl (.ofSlot old before held small)
      · exact .inr fun k inside => extended.zero held small inside
    · have type := visible.1
      rw [empty 33 (by decide)] at type
      cases type

theorem Extended.nameAt (reach : Reach c f) (short : name.length < maxNameLen) : c'.NameAt f name ↔ c.NameAt f name := by
  have small : name.length < 128 := short
  unfold Image.NameAt Image.nameByte
  refine forall₂_congr fun k inside => ?_
  by_cases here : f = d
  · subst here
    rw [extended.field _ (by omega) (by omega)]
  · rw [(extended.file f reach here).field _ (by omega)]

theorem Extended.entry (reach : Reach c dir) (plain : Plain name) (short : name.length < maxNameLen) :
    c'.Entry dir name f ↔ c.Entry dir name f := by
  constructor
  · rintro ⟨i, j, visible, held, small, rfl, named⟩
    rcases extended.old reach visible with ⟨before, same⟩ | ⟨rfl, rfl⟩
    · rw [same] at held named ⊢
      exact ⟨i, j, before, held, small, rfl, (extended.nameAt (.ofSlot reach before held small) short).mp named⟩
    · refine absurd named (plain.not_dead ?_)
      unfold Image.Dead
      rw [extended.zero held small (by decide)]
      rfl
  · rintro ⟨i, j, visible, held, small, rfl, named⟩
    obtain ⟨visible', same⟩ := extended.visible reach visible
    exact ⟨i, j, visible', same ▸ held, small, by rw [same], (extended.nameAt (.ofSlot reach visible held small) short).mpr named⟩

theorem Extended.type_eq (reach : Reach c f) : c'.field f 33 = c.field f 33 := by
  by_cases here : f = d
  · subst here
    exact extended.field 33 (by decide) (by decide)
  · exact (extended.file f reach here).field 33 (by decide)

theorem Extended.at : At c' names f ↔ At c names f := by
  constructor
  · intro leads
    induction leads with
    | top => exact .top
    | down above plain short isDir entry ih =>
      exact .down ih plain short ((extended.type_eq ih.reach).symm.trans isDir) ((extended.entry ih.reach plain short).mp entry)
  · intro leads
    induction leads with
    | top => exact .top
    | down above plain short isDir entry ih =>
      exact .down ih plain short ((extended.type_eq above.reach).trans isDir) ((extended.entry above.reach plain short).mpr entry)

theorem Extended.sameBut (p : List (List Byte)) : SameBut p c c' := by
  have file : ∀ {f}, Reach c f → c.field f 33 ≠ ftypeDir → Same c c' f := fun reach notDir =>
    extended.file _ reach fun same => notDir (same ▸ extended.type)
  exact ⟨fun _ _ _ => extended.at, fun _ _ _ leads => extended.type_eq leads.reach,
    fun _ _ _ leads notDir => (file leads.reach notDir).field 32 (by decide),
    fun _ f i _ leads notDir => ⟨(file leads.reach notDir).target _, extended.data f i leads.reach notDir⟩⟩

theorem Extended.unambiguous (distinct : Unambiguous c) : Unambiguous c' := by
  intro dir name f g reach plain short entry entry'
  rcases extended.reach_cases reach with old | empty
  · exact distinct dir name f g old plain short ((extended.entry old plain short).mp entry)
      ((extended.entry old plain short).mp entry')
  · obtain ⟨i, j, visible, -⟩ := entry
    have type := visible.1
    rw [empty 33 (by decide)] at type
    cases type

end Extended

end Mos.Fs
