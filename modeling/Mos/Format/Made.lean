import Mos.Format.Disk
import Mos.Fs.Marks

namespace Mos.Format

open Fs

variable {c c' : Image} {n n' i b x : Nat} {f g : FilePtr}

def take (c : Image) (b : Nat) : Image :=
  c.set (Store.bitmapBlock b) (Store.bitmapWord b) (c (Store.bitmapBlock b) (Store.bitmapWord b) &&& ~~~Store.bitmapBit b)

theorem take_free : (take c b).Free x ↔ c.Free x ∧ x ≠ b := by
  unfold Image.Free take
  by_cases here : (Store.bitmapBlock x, Store.bitmapWord x) = (Store.bitmapBlock b, Store.bitmapWord b)
  · obtain ⟨block, word⟩ := Prod.mk.inj here
    rw [block, word, Image.set_self]
    constructor
    · intro bit
      refine ⟨cleared_bits bit, ?_⟩
      rintro rfl
      exact bit (cleared_self _ _)
    · rintro ⟨bit, ne⟩
      refine clear_keeps ?_ bit
      by_contra both
      exact ne (same_bit block word (bitmapBit_disjoint both))
  · rw [Image.set_ne here]
    refine (and_iff_left ?_).symm
    rintro rfl
    exact here rfl

theorem set_off {v : Word} (ne : x ≠ b) : c.set b i v x = c x := Function.update_of_ne ne _ _

theorem take_off (ne : x ≠ Store.bitmapBlock b) : take c b x = c x := set_off ne

theorem bitmapBlock_small (below : b < nblock) : Store.bitmapBlock b = 2 := by
  have small : b < 1024 := below
  unfold Store.bitmapBlock
  omega

theorem free_congr (below : x < nblock) (same : c' 2 = c 2) : c'.Free x ↔ c.Free x := by
  unfold Image.Free
  rw [bitmapBlock_small below, same]

/-- A disk on which the blocks before `n` are in use: each of them is a block of a file with a name, which lies before
    it, and the other blocks and the free slots are zeros. -/
structure Made (c : Image) (n : Nat) : Prop where
  low : 3 ≤ n
  high : n ≤ nblock
  magic : c 1 0 = fsMagic
  size : c.nblocks = nblock
  free : ∀ b, b < nblock → (c.Free b ↔ n ≤ b)
  fresh : ∀ b, n ≤ b → c b = zeroPage
  sound : Sound True c
  owned : ∀ b, 3 ≤ b → b < n → ∃ f p, Named c f ∧ c.target f p = b ∧ f.block < b
  solid : ∀ f i, Reach c f → c.Visible f i → c.target f (some i) ≠ 0
  clean : ∀ f, Reach c f → f ≠ root → c.Dead f → ∀ k, k < 64 → c.field f k = 0

theorem bitmapEnd_of_size (size : c.nblocks = nblock) : c.bitmapEnd = 2 := by
  unfold Image.bitmapEnd
  rw [size]
  rfl

theorem isData_iff (size : c.nblocks = nblock) : c.IsData b ↔ 3 ≤ b ∧ b < nblock := by
  unfold Image.IsData
  rw [bitmapEnd_of_size size, size, Nat.lt_iff_add_one_le]

theorem isBitmap_iff (size : c.nblocks = nblock) : c.IsBitmap b ↔ b = 2 := by
  unfold Image.IsBitmap
  rw [bitmapEnd_of_size size]
  omega

theorem block_cases (sound : Sound True c) (size : c.nblocks = nblock) (reach : Reach c f) :
    f = root ∨ 3 ≤ f.block ∧ f.block < nblock ∧ ¬ c.Free f.block := by
  cases reach with
  | ofRoot => exact .inl rfl
  | ofSlot reach visible held small =>
    obtain ⟨data, used⟩ := sound.inUse _ _ reach held
    obtain ⟨low, high⟩ := (isData_iff size).mp data
    exact .inr ⟨low, high, used⟩

/-- Block `n` becomes block `i` of `f`, with block `n + 1` as the indirect block that it takes. -/
inductive Linked (c : Image) (n : Nat) (f : FilePtr) (i : Nat) (c' : Image) : Nat → Prop where
  | direct (low : i < ndirect) (off : ∀ b, b ≠ 2 → c' b = c.set f.block (f.word + (34 + i)) (BitVec.ofNat 32 n) b) :
      Linked c n f i c' (n + 1)
  | entry (high : ndirect ≤ i) (small : i < nindirect) (held : c.indirect f ≠ 0)
      (off : ∀ b, b ≠ 2 → c' b = c.set (c.indirect f) i (BitVec.ofNat 32 n) b) : Linked c n f i c' (n + 1)
  | index (high : ndirect ≤ i) (small : i < nindirect) (hole : c.indirect f = 0)
      (off : ∀ b, b ≠ 2 → c' b =
        (c.set f.block (f.word + 44) (BitVec.ofNat 32 (n + 1))).set (n + 1) i (BitVec.ofNat 32 n) b) :
      Linked c n f i c' (n + 2)

structure Links (c : Image) (n : Nat) (f : FilePtr) (i : Nat) (c' : Image) (n' : Nat) : Prop where
  sound : Sound True c'
  page : c' n = c n
  self : c'.target f (some i) = n
  indirect : c'.indirect f = if i < ndirect ∨ c.indirect f ≠ 0 then c.indirect f else n + 1
  count : n' = if i < ndirect ∨ c.indirect f ≠ 0 then n + 1 else n + 2
  others : ∀ j, j ≠ i → c'.target f (some j) = c.target f (some j)
  field : ∀ k, k < 34 → c'.field f k = c.field f k
  same : ∀ g, Reach c g → g ≠ f → Same c c' g

structure Takes (c : Image) (n : Nat) (c' : Image) (n' : Nat) : Prop where
  low : 3 ≤ n
  high : n' ≤ nblock
  size : c.nblocks = nblock
  before : ∀ b, b < nblock → (c.Free b ↔ n ≤ b)
  after : ∀ b, b < nblock → (c'.Free b ↔ n' ≤ b)

theorem ofNat_toNat_small (small : b < nblock) : (BitVec.ofNat 32 b).toNat = b := by
  have below : b < 1024 := small
  rw [BitVec.toNat_ofNat]
  omega

theorem attach_links {role : Nat → Option Owner} (consistent : Consistent True c role) (placed : Placed role f)
    (live : f ≠ root → ¬ c.Dead f) (attached : Attached c role f (some i) b c')
    (fresh : c.Visible f i → c' b = zeroPage) :
    Sound True c' ∧ c'.target f (some i) = b ∧ (∀ q, q ≠ some i → c'.target f q = c.target f q) ∧
      (∀ k, k < 34 → c'.field f k = c.field f k) ∧ ∀ g, Placed role g → g ≠ f → Same c c' g := by
  obtain ⟨d, after⟩ := consistent.attach placed attached (fun zero k _ => by
    rcases zero with none | ⟨j, same, visible⟩
    · cases none
    · cases same
      rw [fresh visible]
      rfl) fun _ => live
  have grown := attached.grown (d := d) consistent placed nofun
  refine ⟨after.sound, attached.target_self consistent placed, fun q ne => ?_, fun k small => ?_, fun g other ne => ?_⟩
  · exact attached.target_ne consistent placed nofun ne
  · exact grown.field k (.inl small)
  · exact grown.touches.same consistent placed other ne

theorem Takes.attached (takes : Takes c n c' n') (more : n < n') (has : c.HasCell f (some i))
    (empty : c.target f (some i) = 0)
    (off : ∀ b, b ≠ 2 → c' b = c.set (c.cell f (some i)).1 (c.cell f (some i)).2 (BitVec.ofNat 32 n) b)
    (cell : (c.cell f (some i)).1 ≠ 2) (role : Nat → Option Owner) : Attached c role f (some i) n c' where
  has := has
  empty := empty
  below := by
    have high := takes.high
    rw [takes.size]
    omega
  free := (takes.before n (Nat.lt_of_lt_of_le more takes.high)).mpr (Nat.le_refl n)
  used isFree := by
    have := (takes.after n (Nat.lt_of_lt_of_le more takes.high)).mp isFree
    omega
  bits x below isFree := by
    rw [takes.size] at below
    have := (takes.after x below).mp isFree
    exact (takes.before x below).mpr (by omega)
  wrote := by
    refine ⟨fun x k plain _ ne => ?_, ?_⟩
    · rw [off x fun same => plain ((isBitmap_iff takes.size).mpr same)]
      exact Image.set_ne ne
    · rw [off _ cell, Image.set_self]

section Link

variable (takes : Takes c n c' n') (sound : Sound True c) (reach : Reach c f)
include takes sound reach

theorem Takes.block_ne : f.block ≠ 2 ∧ ∀ b, n ≤ b → b < nblock → f.block ≠ b := by
  have low := takes.low
  rcases block_cases sound takes.size reach with rfl | ⟨above, below, used⟩
  · exact ⟨by decide, fun b more _ => by show 1 ≠ b; omega⟩
  · refine ⟨by omega, fun b more small same => ?_⟩
    rw [same] at used
    exact used ((takes.before b small).mpr more)

theorem Takes.indirect_ne (held : c.indirect f ≠ 0) : 3 ≤ c.indirect f ∧ c.indirect f < n := by
  obtain ⟨data, used⟩ := sound.inUse f none reach held
  obtain ⟨low, high⟩ := (isData_iff takes.size).mp data
  refine ⟨low, ?_⟩
  by_contra more
  exact used ((takes.before _ high).mpr (Nat.le_of_not_lt more))

variable (live : f ≠ root → ¬ c.Dead f) (empty : c.target f (some i) = 0) (fresh : ∀ b, n < b → c b = zeroPage)
  (zero : c.Visible f i → c n = zeroPage)
include live empty fresh zero

theorem Takes.index_links (more : n' = n + 2) (high : ndirect ≤ i) (small : i < nindirect) (hole : c.indirect f = 0)
    (off : ∀ b, b ≠ 2 → c' b =
      (c.set f.block (f.word + 44) (BitVec.ofNat 32 (n + 1))).set (n + 1) i (BitVec.ofNat 32 n) b) : Links c n f i c' n' := by
  have low := takes.low
  have top : n' ≤ 1024 := takes.high
  have consistent := sound.consistent
  have placed := consistent.placed reach
  obtain ⟨block, apart⟩ := takes.block_ne sound reach
  have below : n + 1 < nblock := by show n + 1 < 1024; omega
  have other : f.block ≠ n + 1 := apart (n + 1) (Nat.le_succ n) below
  have other' : f.block ≠ n := apart n (Nat.le_refl n) (Nat.lt_of_succ_lt below)
  generalize between : take (c.set f.block (f.word + 44) (BitVec.ofNat 32 (n + 1))) (n + 1) = mid
  have midOff : ∀ x, x ≠ 2 → mid x = c.set f.block (f.word + 44) (BitVec.ofNat 32 (n + 1)) x := by
    intro x ne
    rw [← between]
    apply take_off
    rwa [bitmapBlock_small below]
  have midFree : ∀ x, x < nblock → (mid.Free x ↔ c.Free x ∧ x ≠ n + 1) := by
    intro x inside
    rw [← between, take_free]
    exact and_congr_left fun _ => free_congr inside (set_off (Ne.symm block))
  have first : Attached c (ownerOf c) f none (n + 1) mid := by
    refine ⟨trivial, hole, takes.size ▸ below, (takes.before _ below).mpr (Nat.le_succ n), fun isFree => ?_, fun x inside isFree => ?_,
      fun x k plain _ ne => ?_, ?_⟩
    · exact ((midFree _ below).mp isFree).2 rfl
    · exact ((midFree x (takes.size ▸ inside)).mp isFree).1
    · rw [midOff x fun same => plain ((isBitmap_iff takes.size).mpr same)]
      exact Image.set_ne ne
    · show mid f.block (f.word + 44) = _
      rw [midOff _ block, Image.set_self]
  have clear : ∀ k, k < 1024 → mid (n + 1) k = 0 := by
    intro k _
    rw [midOff _ (by omega), set_off (Ne.symm other), fresh _ (Nat.lt_succ_self n)]
    rfl
  obtain ⟨d, after⟩ := consistent.attach placed first (fun _ => clear) fun _ => live
  have grown := first.grown (d := d) consistent placed fun _ => clear
  have indirect : mid.indirect f = n + 1 := first.target_self consistent placed
  have second : Attached mid (Function.update (ownerOf c) (n + 1) (some ⟨f, none, d⟩)) f (some i) n c' := by
    have cell : mid.cell f (some i) = (n + 1, i) := by
      unfold Image.cell
      simp only [if_neg (Nat.not_lt.mpr high), indirect]
    refine ⟨.inr ⟨small, by rw [indirect]; exact Nat.succ_ne_zero n⟩, ?_, ?_, ?_, fun isFree => ?_, fun x inside isFree => ?_,
      fun x k plain _ ne => ?_, ?_⟩
    · rw [grown.target i nofun]
      exact empty
    · rw [grown.nblocks, takes.size]
      exact Nat.lt_of_succ_lt below
    · exact (midFree n (Nat.lt_of_succ_lt below)).mpr ⟨(takes.before n (Nat.lt_of_succ_lt below)).mpr (Nat.le_refl n), by omega⟩
    · have := (takes.after n (Nat.lt_of_succ_lt below)).mp isFree
      omega
    · rw [grown.nblocks, takes.size] at inside
      have := (takes.after x inside).mp isFree
      exact (midFree x inside).mpr ⟨(takes.before x inside).mpr (by omega), by omega⟩
    · have plain : x ≠ 2 := fun same => plain ((isBitmap_iff (grown.nblocks.trans takes.size)).mpr same)
      rw [cell] at ne
      rw [off x plain, midOff x plain, Image.set_ne ne]
    · rw [cell]
      show c' (n + 1) i = _
      rw [off _ (by omega), Image.set_self]
  have live' : f ≠ root → ¬ mid.Dead f := by
    intro notRoot dead
    apply live notRoot
    unfold Image.Dead at dead ⊢
    rwa [← grown.field 0 (.inl (by decide))]
  have page : c' n = c n := by
    rw [off n (by omega), set_off (Nat.ne_of_lt (Nat.lt_succ_self n)), set_off (Ne.symm other')]
  obtain ⟨sound', self, others, field, kept⟩ := attach_links after (placed.mono grown.owners) live' second fun visible =>
    page.trans (zero ((grown.visible i).mp visible))
  have hole' : ¬ (i < ndirect ∨ c.indirect f ≠ 0) := by
    rintro (less | held)
    · exact Nat.not_lt.mpr high less
    · exact held hole
  refine ⟨sound', page, self, ?_, ?_, fun j ne => ?_, fun k low => ?_, fun g reach' ne => ?_⟩
  · rw [if_neg hole']
    exact (others none nofun).trans indirect
  · rw [if_neg hole', more]
  · exact (others (some j) fun same => ne (Option.some.inj same)).trans (grown.target j nofun)
  · exact (field k low).trans (grown.field k (.inl low))
  · have placed' := consistent.placed reach'
    have same := grown.touches.same consistent placed placed' ne
    have same' := kept g (placed'.mono grown.owners) ne
    exact ⟨fun k low => (same'.field k low).trans (same.field k low), fun p => (same'.target p).trans (same.target p)⟩

theorem Linked.links (linked : Linked c n f i c' n') : Links c n f i c' n' := by
  have low := takes.low
  have high : n' ≤ 1024 := takes.high
  have consistent := sound.consistent
  have placed := consistent.placed reach
  obtain ⟨block, apart⟩ := takes.block_ne sound reach
  cases linked with
  | direct direct off =>
    have cell : c.cell f (some i) = (f.block, f.word + (34 + i)) := by
      unfold Image.cell
      simp only [if_pos direct]
    have attached := takes.attached (Nat.lt_succ_self n) (.inl direct) empty (by rw [cell]; exact off)
      (by rw [cell]; exact block) (ownerOf c)
    have same : c' n = c n := by
      rw [off n (by omega)]
      exact set_off (apart n (Nat.le_refl n) high).symm
    obtain ⟨after, self, others, field, kept⟩ := attach_links consistent placed live attached fun visible =>
      same.trans (zero visible)
    exact ⟨after, same, self, (others none nofun).trans (if_pos (.inl direct)).symm, (if_pos (.inl direct)).symm,
      fun j ne => others (some j) fun same => ne (Option.some.inj same), field, fun g other => kept g (consistent.placed other)⟩
  | entry above small held off =>
    have cell : c.cell f (some i) = (c.indirect f, i) := by
      unfold Image.cell
      simp only [if_neg (Nat.not_lt.mpr above)]
    obtain ⟨least, less⟩ := takes.indirect_ne sound reach held
    have attached := takes.attached (Nat.lt_succ_self n) (.inr ⟨small, held⟩) empty (by rw [cell]; exact off)
      (by rw [cell]; show c.indirect f ≠ 2; omega) (ownerOf c)
    have same : c' n = c n := by
      rw [off n (by omega)]
      exact set_off (by omega)
    obtain ⟨after, self, others, field, kept⟩ := attach_links consistent placed live attached fun visible =>
      same.trans (zero visible)
    exact ⟨after, same, self, (others none nofun).trans (if_pos (.inr held)).symm, (if_pos (.inr held)).symm,
      fun j ne => others (some j) fun same => ne (Option.some.inj same), field, fun g other => kept g (consistent.placed other)⟩
  | index above small hole off => exact takes.index_links sound reach live empty fresh zero rfl above small hole off

end Link

/-- A disk on which `f` is about to get block `n` as its block `i`. -/
structure Ready (c : Image) (n : Nat) (f : FilePtr) (i : Nat) : Prop where
  low : 3 ≤ n
  magic : c 1 0 = fsMagic
  size : c.nblocks = nblock
  free : ∀ b, b < nblock → (c.Free b ↔ n ≤ b)
  fresh : ∀ b, n < b → c b = zeroPage
  zero : c.Visible f i → c n = zeroPage
  sound : Sound True c
  owned : ∀ b, 3 ≤ b → b < n → ∃ g p, Named c g ∧ c.target g p = b ∧ g.block < b
  solid : ∀ g j, Reach c g → c.Visible g j → c.target g (some j) ≠ 0 ∨ g = f ∧ j = i
  clean : ∀ g, Reach c g → g ≠ root → c.Dead g → ∀ k, k < 64 → c.field g k = 0
  named : Named c f
  empty : c.target f (some i) = 0

section Ready

variable (ready : Ready c n f i) (links : Links c n f i c' n')
include links

theorem Links.visible (j : Nat) : c'.Visible f j ↔ c.Visible f j := by
  unfold Image.Visible
  rw [links.field 33 (by decide), links.field 32 (by decide)]

theorem Links.dead : c'.Dead f ↔ c.Dead f := by
  unfold Image.Dead
  rw [links.field 0 (by decide)]

include ready

theorem Links.target {p : Option Nat} (held : c.target f p ≠ 0) : c'.target f p = c.target f p := by
  cases p with
  | none => exact links.indirect.trans (if_pos (.inr held))
  | some j =>
    refine links.others j ?_
    rintro rfl
    exact held ready.empty

theorem Links.keeps (reach : Reach c g) : Keeps c c' g := by
  by_cases here : g = f
  · subst here
    exact ⟨fun j => (links.visible j).mpr, fun p => links.target ready, links.dead.mp⟩
  · exact (links.same g reach here).keeps

theorem Links.named (named : Named c g) : Named c' g := named.keep fun _ other => links.keeps ready other.reach

theorem Links.reach (reach : Reach c' g) : Reach c g ∨ c.Visible f i ∧ ∃ j, j < file2blk ∧ g = fileOf n j := by
  induction reach with
  | ofRoot => exact .inl .ofRoot
  | @ofSlot dir k j above visible held small ih =>
    rcases ih with reach | ⟨seen, j', small', rfl⟩
    · by_cases here : dir = f
      · subst here
        by_cases new : k = i
        · subst new
          rw [links.self]
          exact .inr ⟨(links.visible k).mp visible, j, small, rfl⟩
        · rw [links.others k new] at held ⊢
          exact .inl (.ofSlot reach ((links.visible k).mp visible) held small)
      · have same := links.same dir reach here
        rw [same.target] at held ⊢
        exact .inl (.ofSlot reach ((same.visible k).mp visible) held small)
    · have zero : c'.field (fileOf n j') 33 = 0 := by
        unfold Image.field
        rw [show (fileOf n j').block = n from rfl, links.page, ready.zero seen]
        rfl
      rw [visible.1] at zero
      exact absurd zero (by decide)

end Ready

section Step

variable (linked : Linked c n f i c' n')
include linked

theorem Linked.old {k : Nat} (ne : b ≠ 2) (old : b < n) (file : b = f.block → k < f.word + 34 ∨ f.word + 45 ≤ k)
    (entries : c.indirect f ≠ 0 → b ≠ c.indirect f) : c' b k = c b k := by
  cases linked with
  | direct direct off =>
    rw [off b ne]
    apply Image.set_ne
    intro same
    obtain ⟨block, word⟩ := Prod.mk.inj same
    have small : i < 10 := direct
    have outside := file block
    omega
  | entry high small held off =>
    rw [off b ne, set_off (entries held)]
  | index high small hole off =>
    rw [off b ne, set_off (by omega)]
    apply Image.set_ne
    intro same
    obtain ⟨block, word⟩ := Prod.mk.inj same
    have outside := file block
    omega

theorem Linked.more : n < n' := by
  cases linked with
  | direct => exact Nat.lt_succ_self n
  | entry => exact Nat.lt_succ_self n
  | index => exact Nat.lt_add_of_pos_right (by decide)

theorem Linked.new (past : n' ≤ b) (low : 3 ≤ n) (block : f.block < n) (indirect : c.indirect f < n) : c' b = c b := by
  cases linked with
  | direct direct off => rw [off b (by omega), set_off (by omega)]
  | entry high small held off => rw [off b (by omega), set_off (by omega)]
  | index high small hole off => rw [off b (by omega), set_off (by omega), set_off (by omega)]

end Step

section Linking

variable (ready : Ready c n f i) (linked : Linked c n f i c' n') (high : n' ≤ nblock)
  (after : ∀ b, b < nblock → (c'.Free b ↔ n' ≤ b))
include ready linked high after

theorem Ready.links : Links c n f i c' n' :=
  linked.links ⟨ready.low, high, ready.size, ready.free, after⟩ ready.sound ready.named.reach (fun notRoot => ready.named.live notRoot)
    ready.empty ready.fresh ready.zero

theorem Ready.made : Made c' n' := by
  have links := ready.links linked high after
  have takes : Takes c n c' n' := ⟨ready.low, high, ready.size, ready.free, after⟩
  have low := ready.low
  have more := linked.more
  have reach := ready.named.reach
  obtain ⟨-, apart⟩ := takes.block_ne ready.sound reach
  have block : f.block < n := by
    rcases block_cases ready.sound ready.size reach with rfl | ⟨-, below, used⟩
    · exact Nat.lt_of_lt_of_le (by decide : root.block < 3) low
    · exact Nat.lt_of_not_le fun past => apart _ past below rfl
  have indirect : c.indirect f < n := by
    by_cases held : c.indirect f = 0
    · omega
    · exact (takes.indirect_ne ready.sound reach held).2
  have super : ∀ k, k < 2 → c' 1 k = c 1 k := by
    intro k small
    refine linked.old (by decide) (by omega) (fun same => ?_) fun held => ?_
    · rcases block_cases ready.sound ready.size reach with rfl | ⟨above, -⟩
      · exact .inl (by show k < 2 + 34; omega)
      · omega
    · have := (takes.indirect_ne ready.sound reach held).1
      omega
  have zero : ∀ {j}, c.Visible f i → ∀ k, c'.field (fileOf n j) k = 0 := by
    intro j seen k
    unfold Image.field
    rw [show (fileOf n j).block = n from rfl, links.page, ready.zero seen]
    rfl
  refine ⟨Nat.le_of_lt (Nat.lt_of_le_of_lt low more), high, (super 0 (by decide)).trans ready.magic, ?_, after, fun b past => ?_,
    links.sound, fun b least below => ?_, fun g j reach' visible => ?_, fun g reach' notRoot dead k small => ?_⟩
  · unfold Image.nblocks
    rw [super 1 (by decide)]
    exact ready.size
  · rw [linked.new past low block indirect]
    exact ready.fresh b (by omega)
  · by_cases old : b < n
    · obtain ⟨g, p, named, same, before⟩ := ready.owned b least old
      refine ⟨g, p, links.named ready named, ?_, before⟩
      have kept := (links.keeps ready named.reach).target p (by omega)
      exact kept.trans same
    · by_cases here : b = n
      · subst here
        exact ⟨f, some i, links.named ready ready.named, links.self, block⟩
      · have count := links.count
        have place := links.indirect
        split at count
        · omega
        · rename_i hole
          rw [if_neg hole] at place
          obtain rfl : b = n + 1 := by omega
          exact ⟨f, none, links.named ready ready.named, place, Nat.lt_succ_of_lt block⟩
  · rcases links.reach ready reach' with old | ⟨seen, j', -, rfl⟩
    · by_cases here : g = f ∧ j = i
      · obtain ⟨rfl, rfl⟩ := here
        rw [links.self]
        omega
      · have visible' : c.Visible g j := by
          by_cases same : g = f
          · subst same
            exact (links.visible j).mp visible
          · exact ((links.same g old same).visible j).mp visible
        have held := (ready.solid g j old visible').resolve_right here
        rw [(links.keeps ready old).target _ held]
        exact held
    · have type := zero (j := j') seen 33
      rw [visible.1] at type
      exact absurd type (by decide)
  · rcases links.reach ready reach' with old | ⟨seen, j', -, rfl⟩
    · by_cases here : g = f
      · subst here
        exact absurd (links.dead.mp dead) (ready.named.live notRoot)
      · have same := links.same g old here
        exact (same.field k small).trans (ready.clean g old notRoot (same.dead.mp dead) k small)
    · exact zero seen k

end Linking

theorem reach_back (same : ∀ g, Reach c g → Same c c' g) (reach : Reach c' g) : Reach c g := by
  induction reach with
  | ofRoot => exact .ofRoot
  | @ofSlot dir i j above visible held small ih =>
    have kept := same dir ih
    rw [kept.target] at held ⊢
    exact .ofSlot ih ((kept.visible i).mp visible) held small

namespace Made

variable (made : Made c n)
include made

theorem target_lt (reach : Reach c f) {p : Option Nat} (held : c.target f p ≠ 0) : 3 ≤ c.target f p ∧ c.target f p < n := by
  obtain ⟨data, used⟩ := made.sound.inUse f p reach held
  obtain ⟨low, high⟩ := (isData_iff made.size).mp data
  refine ⟨low, ?_⟩
  by_contra past
  exact used ((made.free _ high).mpr (Nat.le_of_not_lt past))

theorem block_lt (reach : Reach c f) : f = root ∨ 3 ≤ f.block ∧ f.block < n := by
  cases reach with
  | ofRoot => exact .inl rfl
  | ofSlot above visible held small => exact .inr (made.target_lt above held)

theorem block_ne (reach : Reach c f) : f.block ≠ 2 ∧ f.block < n := by
  have low := made.low
  rcases made.block_lt reach with rfl | ⟨above, below⟩
  · exact ⟨by decide, Nat.lt_of_lt_of_le (by decide : root.block < 3) low⟩
  · exact ⟨by omega, below⟩

theorem above (reach : Reach c f) {p : Option Nat} (held : c.target f p ≠ 0) : f.block < c.target f p := by
  obtain ⟨low, high⟩ := made.target_lt reach held
  obtain ⟨g, q, named, same, before⟩ := made.owned _ low high
  obtain ⟨rfl, -⟩ := made.sound.once f g p q reach named.reach held same.symm
  exact before

theorem unowned : ownerOf c n = none := by
  cases owner : ownerOf c n with
  | none => rfl
  | some o =>
    obtain ⟨reach, same, nonzero⟩ := ownerOf_some owner
    have := (made.target_lt reach (p := o.index) (by rw [same]; exact nonzero)).2
    omega

theorem ready_data (named : Named c f) (plain : ¬ c.Visible f i) (empty : c.target f (some i) = 0)
    (off : ∀ b, b ≠ n → c' b = c b) : Ready c' n f i ∧ ∀ g, Reach c g → Same c c' g := by
  have low := made.low
  have same : ∀ g, Reach c g → Same c c' g := by
    intro g reach
    refine Same.of_words (fun k _ => ?_) fun k _ _ held => ?_
    · rw [off _ (Nat.ne_of_lt (made.block_ne reach).2)]
    · rw [off (c.indirect g) (Nat.ne_of_lt (made.target_lt reach (p := none) held).2)]
  have super : c' 1 = c 1 := off 1 (by omega)
  have bitmap : c' 2 = c 2 := off 2 (by omega)
  have back : ∀ {g}, Reach c' g → Reach c g := fun reach => reach_back same reach
  have unseen : ¬ c'.Visible f i := fun visible => plain (((same f named.reach).visible i).mp visible)
  refine ⟨⟨low, by rw [super]; exact made.magic, ?_, fun b below => (free_congr below bitmap).trans (made.free b below),
    fun b past => ?_, fun visible => absurd visible unseen, ?_, fun b least below => ?_, fun g j reach visible => .inl ?_,
    fun g reach notRoot dead k small => ?_, named.keep fun g other => (same g other.reach).keeps, ?_⟩, same⟩
  · unfold Image.nblocks
    rw [super]
    exact made.size
  · rw [off b (by omega)]
    exact made.fresh b (by omega)
  · refine (made.sound.consistent.store ?_ (fun o owner => ?_) off).sound
    · rw [bitmapEnd_of_size made.size]
      omega
    · rw [made.unowned] at owner
      cases owner
  · obtain ⟨g, p, owner, meets, before⟩ := made.owned b least below
    exact ⟨g, p, owner.keep fun g other => (same g other.reach).keeps, ((same g owner.reach).target p).trans meets, before⟩
  · have kept := same g (back reach)
    rw [kept.target]
    exact made.solid g j (back reach) ((kept.visible j).mp visible)
  · have kept := same g (back reach)
    exact (kept.field k small).trans (made.clean g (back reach) notRoot (kept.dead.mp dead) k small)
  · exact ((same f named.reach).target _).trans empty

/-- A directory is about to get block `i`: its size is set already. -/
theorem ready_dir {v : Word} (named : Named c f) (empty : c.target f (some i) = 0) (old : (c.field f 32).toNat = 4096 * i)
    (new : v.toNat = 4096 * (i + 1)) :
    Ready (c.set f.block (f.word + 32) v) n f i ∧ (∀ g, Reach c g → Keeps c (c.set f.block (f.word + 32) v) g) ∧
      (∀ g, Reach c g → g ≠ f → Same c (c.set f.block (f.word + 32) v) g) ∧
      ∀ p, (c.set f.block (f.word + 32) v).target f p = c.target f p := by
  have low := made.low
  have reach := named.reach
  obtain ⟨notMap, below⟩ := made.block_ne reach
  have consistent := made.sound.consistent
  have placed := consistent.placed reach
  have apart : c.indirect f ≠ 0 → c.indirect f ≠ f.block := fun held => placed.indirect_ne consistent placed held
  have target : ∀ p, (c.set f.block (f.word + 32) v).target f p = c.target f p :=
    Image.setField_target apart (.inl (by decide))
  have field : ∀ k, k ≠ 32 → (c.set f.block (f.word + 32) v).field f k = c.field f k := by
    intro k ne
    apply Image.set_ne
    intro same
    have := congrArg Prod.snd same
    simp only at this
    omega
  have size : (c.set f.block (f.word + 32) v).field f 32 = v := Image.set_self c _ _ v
  have others : ∀ g, Reach c g → g ≠ f → Same c (c.set f.block (f.word + 32) v) g := by
    intro g other ne
    have touches : Touches c (ownerOf c) f (c.set f.block (f.word + 32) v) := .setField (by decide)
    exact touches.same consistent placed (consistent.placed other) ne
  have seen : ∀ j, (c.set f.block (f.word + 32) v).Visible f j → c.Visible f j ∨ j = i := by
    intro j visible
    have type := visible.1
    have inside := visible.2
    rw [field 33 (by decide)] at type
    rw [size, new] at inside
    by_cases here : j = i
    · exact .inr here
    · refine .inl ⟨type, ?_⟩
      rw [old]
      omega
  have keeps : ∀ g, Reach c g → Keeps c (c.set f.block (f.word + 32) v) g := by
    intro g other
    by_cases here : g = f
    · subst here
      refine ⟨fun j visible => ?_, fun p _ => target p, fun dead => ?_⟩
      · have inside := visible.2
        rw [old] at inside
        refine ⟨(field 33 (by decide)).trans visible.1, ?_⟩
        rw [size, new]
        omega
      · unfold Image.Dead at dead ⊢
        rwa [field 0 (by decide)] at dead
    · exact (others g other here).keeps
  have targets : ∀ g, Reach c g → ∀ p, (c.set f.block (f.word + 32) v).target g p = c.target g p := by
    intro g other p
    by_cases here : g = f
    · exact here ▸ target p
    · exact (others g other here).target p
  have back : ∀ {g}, Reach (c.set f.block (f.word + 32) v) g → Reach c g := by
    intro g other
    induction other with
    | ofRoot => exact .ofRoot
    | @ofSlot dir k j above visible held small ih =>
      rw [targets dir ih] at held ⊢
      by_cases here : dir = f
      · subst here
        refine .ofSlot ih ((seen k visible).resolve_right ?_) held small
        rintro rfl
        exact held empty
      · exact .ofSlot ih (((others dir ih here).visible k).mp visible) held small
  have bitmap : (c.set f.block (f.word + 32) v) 2 = c 2 := set_off (Ne.symm notMap)
  have super : ∀ k, k < 2 → c.set f.block (f.word + 32) v 1 k = c 1 k := by
    intro k small
    apply Image.set_ne
    intro same
    obtain ⟨block, word⟩ := Prod.mk.inj same
    rcases made.block_lt reach with rfl | ⟨above, -⟩
    · have : k = 2 + 32 := word
      omega
    · omega
  refine ⟨⟨low, (super 0 (by decide)).trans made.magic, ?_, fun b inside => (free_congr inside bitmap).trans (made.free b inside),
    fun b past => ?_, fun _ => ?_, ?_, fun b least small => ?_, fun g j other visible => ?_, fun g other notRoot dead k small => ?_,
    named.keep fun g other => keeps g other.reach, (target _).trans empty⟩, keeps, others, target⟩
  · unfold Image.nblocks
    rw [super 1 (by decide)]
    exact made.size
  · rw [set_off (by omega)]
    exact made.fresh b (by omega)
  · rw [set_off (by omega)]
    exact made.fresh n (Nat.le_refl n)
  · refine (consistent.setField placed (by decide) (.inl (by decide)) (fun j visible held => ?_) fun _ notRoot dead => ?_).sound
    · refine (seen j visible).resolve_right ?_
      rintro rfl
      exact held empty
    · exact absurd ((keeps f reach).dead dead) (named.live notRoot)
  · obtain ⟨g, p, owner, meets, before⟩ := made.owned b least small
    refine ⟨g, p, owner.keep fun g other => keeps g other.reach, ?_, before⟩
    exact ((keeps g owner.reach).target p (by omega)).trans meets
  · by_cases here : g = f
    · subst here
      rcases seen j visible with old | new
      · rw [target]
        exact .inl (made.solid g j reach old)
      · exact .inr ⟨rfl, new⟩
    · have same := others g (back other) here
      rw [same.target]
      exact .inl (made.solid g j (back other) ((same.visible j).mp visible))
  · by_cases here : g = f
    · subst here
      exact absurd ((keeps g reach).dead dead) (named.live notRoot)
    · have same := others g (back other) here
      exact (same.field k small).trans (made.clean g (back other) notRoot (same.dead.mp dead) k small)

end Made

/-- A free slot of the tree gets a name, a size and a type; a directory comes without blocks. -/
structure Filled (c : Image) (g : FilePtr) (c' : Image) : Prop where
  off : ∀ b k, b ≠ 2 → (b = g.block → k < g.word ∨ g.word + 34 ≤ k) → c' b k = c b k
  live : ¬ c'.Dead g
  empty : c'.field g 33 = ftypeDir → (c'.field g 32).toNat / 4096 = 0

section Fill

variable (made : Made c n) (filled : Filled c g c') (reach : Reach c g)
include made filled reach

theorem Filled.same {x : FilePtr} (other : Reach c x) (ne : x ≠ g) : Same c c' x := by
  have consistent := made.sound.consistent
  have placed := consistent.placed reach
  refine Same.of_words (fun k small => ?_) fun k _ _ held => ?_
  · refine filled.off _ _ (made.block_ne other).1 fun same => ?_
    rcases Placed.apart consistent placed (consistent.placed other) ne same small with before | after
    · exact .inl before
    · exact .inr (by omega)
  · have low := (made.target_lt other (p := none) held).1
    refine filled.off _ _ (fun same => ?_) fun same => ?_
    · have : c.indirect x = 2 := same
      have : 3 ≤ c.indirect x := low
      omega
    · exact absurd same (placed.indirect_ne consistent (consistent.placed other) held)

variable (notRoot : g ≠ root) (dead : c.Dead g)
include notRoot dead

theorem Filled.target (p : Option Nat) : c'.target g p = 0 := by
  have blank := made.sound.blank trivial g reach notRoot dead
  have none : c.indirect g = 0 := blank.target none
  refine (Image.target_congr (fun k low high => ?_) (fun _ _ _ held => absurd none held) p).trans (blank.target p)
  exact filled.off _ _ (made.block_ne reach).1 fun _ => .inr (by omega)

theorem Filled.back {x : FilePtr} (other : Reach c' x) : Reach c x := by
  induction other with
  | ofRoot => exact .ofRoot
  | @ofSlot dir i j above visible held small ih =>
    by_cases here : dir = g
    · subst here
      exact absurd (filled.target made reach notRoot dead _) held
    · have same := filled.same made reach ih here
      rw [same.target] at held ⊢
      exact .ofSlot ih ((same.visible i).mp visible) held small

theorem Filled.named {x : FilePtr} (named : Named c x) : Named c' x := by
  refine named.keep fun y other => ?_
  have ne : y ≠ g := by
    rintro rfl
    exact other.live notRoot dead
  exact (filled.same made reach other.reach ne).keeps

theorem Filled.disk (free : ∀ b, b < nblock → (c'.Free b ↔ n ≤ b)) : Made c' n := by
  have low := made.low
  have consistent := made.sound.consistent
  have placed := consistent.placed reach
  obtain ⟨notMap, below⟩ := made.block_ne reach
  have block : 3 ≤ g.block := by
    rcases made.block_lt reach with same | ⟨least, -⟩
    · exact absurd same notRoot
    · exact least
  have super : ∀ k, c' 1 k = c 1 k := fun k => filled.off 1 k (by decide) fun same => by omega
  have touches : Touches c (ownerOf c) g c' := by
    intro b k other
    refine filled.off b k (fun same => other.bitmap ((isBitmap_iff made.size).mpr same)) fun same => ?_
    rcases other.file same with before | after
    · exact .inl before
    · exact .inr (by omega)
  refine ⟨low, made.high, (super 0).trans made.magic, ?_, free, fun b past => ?_, ?_, fun b least inside => ?_,
    fun x j other visible => ?_, fun x other rootless isDead k small => ?_⟩
  · unfold Image.nblocks
    rw [super 1]
    exact made.size
  · rw [← made.fresh b past]
    funext k
    exact filled.off b k (by omega) fun same => by omega
  · refine (consistent.change placed touches consistent.data (fun b inside isFree => ?_) consistent.apart (fun _ _ _ owner => owner)
      (fun _ placed => .inl placed) ⟨fun p held => ?_, fun _ _ isDead => ?_⟩).sound
    · rw [made.size] at inside
      exact consistent.free b (made.size ▸ inside) ((made.free b inside).mpr ((free b inside).mp isFree))
    · exact absurd (filled.target made reach notRoot dead p) held
    · exact absurd isDead filled.live
  · obtain ⟨y, p, owner, meets, before⟩ := made.owned b least inside
    refine ⟨y, p, filled.named made reach notRoot dead owner, ?_, before⟩
    have ne : y ≠ g := by
      rintro rfl
      exact owner.live notRoot dead
    exact ((filled.same made reach owner.reach ne).target p).trans meets
  · by_cases here : x = g
    · subst here
      have inside := visible.2
      rw [filled.empty visible.1] at inside
      exact absurd inside (Nat.not_lt_zero j)
    · have old := filled.back made reach notRoot dead other
      have same := filled.same made reach old here
      rw [same.target]
      exact made.solid x j old ((same.visible j).mp visible)
  · have ne : x ≠ g := by
      rintro rfl
      exact filled.live isDead
    have old := filled.back made reach notRoot dead other
    have same := filled.same made reach old ne
    exact (same.field k small).trans (made.clean x old rootless (same.dead.mp isDead) k small)

end Fill

end Mos.Format
