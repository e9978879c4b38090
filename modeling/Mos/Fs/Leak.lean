import Mos.Fs.Release
import Mos.Fs.Exclusive

namespace Mos.Fs

/-- The owners of the blocks are known and no block is lost, and `f` is a `File` of the tree in a cached block. -/
structure Tidy (s : Store) (role : Nat → Option Owner) (f : FilePtr) : Prop extends Holds False s role f where
  charted : Charted s
  noLeak : NoLeak s.content

/-- No block is lost, unless a block that is read as pointers or files came with something in it. -/
def Neat (s : Store) : Prop := Unless s fun role => ∃ f, Tidy s role f

/-- A file with a name of the tidy tree, which meets `X`. -/
structure Found (X : Image → Prop) (f : FilePtr) (s : Store) (role : Nat → Option Owner) : Prop extends Tidy s role f where
  named : Named s.content f
  met : X s.content

variable {s t : Store} {role role' : Nat → Option Owner} {f g dir : FilePtr} {X Y : Image → Prop}

theorem live_false (f : FilePtr) (c : Image) : Live False f c := False.elim

theorem Tidy.exclusive (tidy : Tidy s role f) : Exclusive s.content := tidy.consistent.sound.toExclusive

theorem Tidy.neat (tidy : Tidy s role f) : Neat s := .inr ⟨role, f, tidy⟩

theorem Tidy.read (tidy : Tidy s role f) (read : Read s t) : Tidy t role f where
  toHolds := tidy.toHolds.read read
  charted := tidy.charted.of_cached (by rw [read.content]) read.cached
  noLeak := read.content ▸ tidy.noLeak

theorem Tidy.change (tidy : Tidy s role f) (holds : Holds False t role' g) (changed : Changed dir s.content t.content)
    (charted : Charted t) : Tidy t role' g :=
  ⟨holds, charted, tidy.noLeak.change changed tidy.exclusive⟩

theorem Found.neat (found : Unless s (Found X f s)) : Neat s := Unless.mono found fun _ found => ⟨f, found.toTidy⟩

theorem Found.mono (found : Unless s (Found X f s)) (weaker : ∀ c, X c → Y c) : Unless s (Found Y f s) :=
  Unless.mono found fun _ found => ⟨found.toTidy, found.named, weaker _ found.met⟩

theorem Found.slot {n i b j : Nat} (found : Found (Searched False dir n) dir t role) (target : t.content.target dir (some i) = b)
    (nonzero : b ≠ 0) (inside : i < n) (small : j < file2blk) (cached : t.cache b ≠ none) : Tidy t role (fileOf b j) :=
  ⟨found.met.slot found.toHolds target nonzero inside small cached, found.charted, found.noLeak⟩

theorem Tidy.setField {k : Nat} {v : Word} (tidy : Tidy s role f) (holds : Holds False (s.setField f k v) role f)
    (pointer : k < 34 ∨ 45 ≤ k) (small : k < 64)
    (dead : (s.setField f k v).content.Dead f → s.content.Dead f)
    (visible : ∀ i, s.content.Visible f i → (s.setField f k v).content.Visible f i) :
    Tidy (s.setField f k v) role f ∧ ∀ g, Named s.content g → Named (s.setField f k v).content g := by
  obtain ⟨shed, -, -, target⟩ := (Shed.refl f s role).setField (v := v) tidy.toHolds pointer small
  refine ⟨tidy.change holds (shed.changed tidy.toHolds (fun _ live isDead => absurd (dead isDead) live)
    fun i _ _ seen _ _ _ => ⟨visible i seen, .inr (Nat.zero_le i)⟩) (tidy.charted.of_cached shed.released.nblocks shed.cached),
    fun g named => named.keep fun h other => ?_⟩
  by_cases here : h = f
  · subst here
    exact ⟨visible, fun p _ => target p, dead⟩
  · exact (shed.touches.same tidy.consistent tidy.placed (tidy.consistent.placed other.reach) here).keeps

theorem Tidy.setName {name : List Byte} (tidy : Tidy s role f) (isName : IsName name) (short : name.length < maxNameLen) :
    Tidy (s.setName f name) role f := by
  have bytes : ∀ m, m ≤ name.length + 1 →
      Tidy ((List.range m).foldl (fun s k => s.setNameByte f k ((name ++ [0]).getD k 0)) s) role f := by
    intro m
    induction m with
    | zero => exact fun _ => tidy
    | succ m ih =>
      intro bound
      have before := ih (by omega)
      have inName : m < 128 := by
        unfold maxNameLen at short
        omega
      have first : m = 0 → (name ++ [0]).getD m 0 ≠ 0 := by
        obtain ⟨x, rest, rfl, nonzero⟩ := isName
        rintro rfl
        exact nonzero
      obtain ⟨after, -, dead⟩ := before.toHolds.setNameByte inName first
      rw [List.range_succ, List.foldl_append]
      refine (before.setField after (by omega) (by omega) (fun isDead => (dead isDead).2) fun i visible => ?_).1
      unfold Image.Visible at visible ⊢
      rwa [setField_field before.cached (by omega), setField_field before.cached (by omega)]
  exact bytes (name.length + 1) (Nat.le_refl _)

/-- What `file_remove` frees of a file: all of it, when no block is attached behind the size. -/
structure Removes (f : FilePtr) (c : Image) : Prop extends Sheds f 0 c where
  behind : ∀ i, roundBlocks (c.field f 32) ≤ i → c.target f (some i) = 0

theorem Removes.gone (removes : Removes f s.content) (shed : Shed f 0 (roundBlocks (s.content.field f 32)) s role t)
    (indirect : t.content.target f none = 0) (p : Option Nat) : t.content.target f p = 0 := by
  cases p with
  | none => exact indirect
  | some i =>
    by_cases inside : i < roundBlocks (s.content.field f 32)
    · exact shed.gone i (Nat.zero_le i) inside
    · exact (shed.target (some i)).elim id fun same => same.trans (removes.behind i (Nat.not_lt.mp inside))

/-- The server's tree is whole and no block is lost. -/
structure Accounted (t : Server) : Prop extends Whole False t where
  charted : Charted t.fs
  noLeak : NoLeak t.fs.content

variable {t u : Server}

section Steps

variable (before : Accounted t)
include before

theorem Accounted.tidy (reach : Reach t.fs.content f) (cached : t.fs.cache f.block ≠ none) :
    Tidy t.fs (ownerOf t.fs.content) f :=
  ⟨before.holds reach cached, before.charted, before.noLeak⟩

theorem Accounted.root : Found (fun _ => True) root t.fs (ownerOf t.fs.content) :=
  ⟨before.tidy .ofRoot before.super, .ofRoot, trivial⟩

theorem Accounted.read {α : Type} {r : Res α} (read : r.Leaves (Read t.fs) fun _ => True) :
    r.Leaves Neat fun _ => True :=
  Result.Leaves.mono read fun _ read => (before.root.toTidy.read read).neat

end Steps

theorem Booted.noLeak {disk : Image} (booted : Booted disk s) (noLeak : NoLeak disk) (sound : Sound False disk) :
    NoLeak s.content :=
  noLeak.of_same (fun _ named => booted.same sound.consistent (sound.consistent.placed named.reach)) booted.nblocks
    fun _ data => (booted.free data.2).mpr

def chartedCheck (s : Store) : Bool := s.content.nblocks = 16 && (s.cache 2).isSome

theorem charted_of_check (check : chartedCheck s = true) : Charted s := by
  simp only [chartedCheck, Bool.and_eq_true, decide_eq_true_eq] at check
  rintro b ⟨low, high⟩ none
  have last : s.content.bitmapEnd = 2 := by
    unfold Image.bitmapEnd
    rw [check.1]
    decide
  obtain rfl : b = 2 := by omega
  rw [none] at check
  cases check.2

theorem cleanMeta_of_check (check : (s.given.all fun g => g.old.isNone) = true) : CleanMeta s := by
  intro g mem _ p old
  have none := List.all_eq_true.mp check g mem
  rw [old] at none
  cases none

/-- No file has a name, and the root does not have block `b`, which is in use. -/
def orphan (c : Image) (b : Nat) : Bool :=
  firstSlot c && (List.range file2blk).all (fun j => (c.field (fileOf 3 j) 0).extractLsb' 0 8 = 0) && c.indirect root = 0 &&
  (List.range ndirect).all (fun i => c.target root (some i) ≠ b) && c.bitmapEnd < b && b < c.nblocks &&
  c (Store.bitmapBlock b) (Store.bitmapWord b) &&& Store.bitmapBit b = 0

end Mos.Fs
