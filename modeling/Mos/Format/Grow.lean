import Mos.Format.Stored

namespace Mos.Format

open Fs

variable {c c' c'' : Image} {n n' n'' i k k' m : Nat} {f g : FilePtr} {v : Word}

theorem Linked.frame (linked : Linked c n f i c' n') {b w : Nat} (notMap : b ≠ 2) (below : b < n) (notOwn : ¬ Own c f b w) :
    c' b w = c b w := by
  refine linked.old notMap below (fun same => ?_) fun held same => notOwn (.inr ⟨held, same⟩)
  by_contra inside
  exact notOwn (.inl ⟨same, by omega, by omega⟩)

theorem Links.pointers (ready : Ready c n f i) (links : Links c n f i c' n') (p : Option Nat) :
    c'.target f p = c.target f p ∨ c.target f p = 0 ∧ n ≤ c'.target f p := by
  by_cases held : c.target f p = 0
  · cases p with
    | none =>
      have place : c'.target f none = _ := links.indirect
      split at place
      · exact .inl place
      · exact .inr ⟨held, by omega⟩
    | some j =>
      by_cases here : j = i
      · subst here
        exact .inr ⟨held, Nat.le_of_eq links.self.symm⟩
      · exact .inl (links.others j here)
  · exact .inl (links.target ready held)

theorem Links.hasBlocks (has : HasBlocks c f i) (nonzero : n ≠ 0) (links : Links c n f i c' n') : HasBlocks c' f (i + 1) where
  held j := by
    by_cases here : j = i
    · subst here
      rw [links.self]
      exact iff_of_true nonzero (Nat.lt_succ_self j)
    · rw [links.others j here, has.held]
      omega
  indirect := by
    rw [links.indirect]
    have hole := has.indirect
    unfold ndirect at hole ⊢
    by_cases old : i < 10 ∨ c.indirect f ≠ 0
    · rw [if_pos old, hole]
      rcases old with low | held
      · omega
      · have := mt hole.mpr held
        omega
    · rw [if_neg old]
      have high : ¬ i < 10 := fun low => old (.inl low)
      exact iff_of_false (Nat.succ_ne_zero n) (by omega)

theorem Made.block {page : Image} (made : Made c n) (named : Named c f) (plain : c.field f 33 ≠ ftypeDir) (has : HasBlocks c f i)
    (off : ∀ b, b ≠ n → page b = c b) (linked : Linked page n f i c' n') (high : n' ≤ nblock)
    (after : ∀ b, b < nblock → (c'.Free b ↔ n' ≤ b)) :
    Steps c n f (fun _ _ => False) c' n' ∧ HasBlocks c' f (i + 1) ∧ c'.target f (some i) = n ∧ c' n = page n ∧
      c'.field f 32 = c.field f 32 := by
  have low := made.low
  have empty : c.target f (some i) = 0 := by
    by_contra held
    exact Nat.lt_irrefl i ((has.held i).mp held)
  obtain ⟨ready, same⟩ := made.ready_data named (fun visible => plain visible.1) empty off
  have links := ready.links linked high after
  have self := same f named.reach
  have indirect : page.indirect f = c.indirect f := self.target none
  refine ⟨⟨ready.made linked high after, Nat.le_of_lt linked.more, fun g other => ?_, fun b w notMap below notOwn _ => ?_,
    fun p => ?_, fun w small _ => ?_⟩, links.hasBlocks (has.same self) (by omega), links.self, links.page, ?_⟩
  · exact links.named ready (other.keep fun x placed => (same x placed.reach).keeps)
  · rw [linked.frame notMap below fun own => notOwn ?_, off b (Nat.ne_of_lt below)]
    unfold Own at own ⊢
    rwa [indirect] at own
  · rw [← self.target p]
    exact links.pointers ready p
  · exact (links.field w small).trans (self.field w (by omega))
  · exact (links.field 32 (by decide)).trans (self.field 32 (by decide))

theorem Listing.grow (listing : Listing c f (16 * m) m) (made : Made c n) (named : Named c f)
    (size : v.toNat = 4096 * (m + 1)) (linked : Linked (c.set f.block (f.word + 32) v) n f m c' n') (high : n' ≤ nblock)
    (after : ∀ b, b < nblock → (c'.Free b ↔ n' ≤ b)) :
    Steps c n f (Rest c f (16 * m)) c' n' ∧ Listing c' f (16 * m) (m + 1) ∧ c'.target f (some m) = n := by
  have low := made.low
  have empty : c.target f (some m) = 0 := by
    by_contra held
    exact Nat.lt_irrefl m ((listing.held m).mp held)
  obtain ⟨ready, keeps, others, target⟩ := made.ready_dir named empty listing.size size
  have links := ready.links linked high after
  have indirect : (c.set f.block (f.word + 32) v).indirect f = c.indirect f := target none
  have field : ∀ k, k ≠ 32 → (c.set f.block (f.word + 32) v).field f k = c.field f k := by
    intro k ne
    apply Image.set_ne
    intro same
    have := congrArg Prod.snd same
    simp only at this
    omega
  have steps : Steps c n f (Rest c f (16 * m)) c' n' := by
    refine ⟨ready.made linked high after, Nat.le_of_lt linked.more, fun g other => ?_, fun b w notMap below notOwn _ => ?_,
      fun p => ?_, fun w small ne => (links.field w small).trans (field w ne)⟩
    · exact links.named ready (other.keep fun x placed => keeps x placed.reach)
    · rw [linked.frame notMap below fun own => notOwn ?_, Image.set_ne fun same => notOwn ?_]
      · obtain ⟨rfl, rfl⟩ := Prod.mk.inj same
        exact .inl ⟨rfl, by omega, by omega⟩
      · unfold Own at own ⊢
        rwa [indirect] at own
    · rw [← target p]
      exact links.pointers ready p
  have has : HasBlocks (c.set f.block (f.word + 32) v) f m := by
    refine ⟨fun i => ?_, ?_⟩
    · rw [target]
      exact listing.held i
    · rw [indirect]
      exact listing.indirect
  refine ⟨steps, ⟨links.hasBlocks has (by omega), (steps.field 33 (by decide) (by decide)).trans listing.type, ?_,
    fun i inside => ?_, fun i past inside => ?_⟩, links.self⟩
  · rw [links.field 32 (by decide), show (c.set f.block (f.word + 32) v).field f 32 = v from Image.set_self c _ _ v]
    exact size
  · obtain ⟨below, live⟩ := listing.live i inside
    have reach := listing.reach named.reach below
    have same := (steps.closed made named.reach).kept _ ⟨reach, listing.block_lt made named below, listing.before made named inside⟩
    rw [steps.slot_eq listing below, same.dead]
    exact ⟨by omega, live⟩
  · have here : i / 16 = m := by omega
    unfold slot Image.Dead Image.field
    rw [here, links.self, show (fileOf n (i % 16)).block = n from rfl, links.page, set_off (Nat.ne_of_gt (made.block_ne named.reach).2),
      made.fresh n (Nat.le_refl n)]
    rfl

theorem Listing.fill (listing : Listing c f k m) (made : Made c n) (named : Named c f) (room : k < 16 * m)
    (filled : Filled c (slot c f k) c') (free : ∀ b, b < nblock → (c'.Free b ↔ n ≤ b)) :
    Steps c n f (Rest c f k) c' n ∧ Listing c' f (k + 1) m ∧ Named c' (slot c f k) ∧ ∀ p, c'.target (slot c f k) p = 0 := by
  have reach := named.reach
  have there := listing.reach reach room
  have notRoot : slot c f k ≠ root := fileOf_ne_root _ _
  have dead := listing.dead k (Nat.le_refl k) room
  have apart := listing.block_lt made named room
  have self : Same c c' f := filled.same made there reach fun same => by
    rw [← same] at apart
    exact Nat.lt_irrefl _ apart
  have other : ∀ {i}, i < 16 * m → i ≠ k → Same c c' (slot c f i) := by
    intro i inside ne
    refine filled.same made there (listing.reach reach inside) fun same => ne ?_
    exact slot_inj made.sound.toExclusive reach (listing.visible inside).2 same
  have slots : ∀ i, slot c' f i = slot c f i := slot_same self
  have steps : Steps c n f (Rest c f k) c' n := by
    refine ⟨filled.disk made there notRoot dead free, Nat.le_refl n, fun g => filled.named made there notRoot dead,
      fun b w notMap below _ notRest => ?_, fun p => .inl (self.target p), fun w small _ => self.field w (by omega)⟩
    refine filled.off b w notMap fun same => ?_
    by_contra inside
    have low : 64 * (k % 16) ≤ w := by
      have : (slot c f k).word = 64 * (k % 16) := rfl
      omega
    exact notRest ⟨(listing.visible room).2, same, low⟩
  have after : Listing c' f (k + 1) m := by
    refine ⟨listing.toHasBlocks.same self, (self.field 33 (by decide)).trans listing.type, ?_, fun i inside => ?_,
      fun i past inside => ?_⟩
    · rw [self.field 32 (by decide)]
      exact listing.size
    · rw [slots]
      by_cases here : i = k
      · subst here
        exact ⟨room, filled.live⟩
      · obtain ⟨below, live⟩ := listing.live i (by omega)
        exact ⟨below, fun isDead => live ((other below here).dead.mp isDead)⟩
    · rw [slots, (other inside (by omega)).dead]
      exact listing.dead i (by omega) inside
  refine ⟨steps, after, ?_, filled.target made there notRoot dead⟩
  rw [← slots]
  exact after.named (steps.named f named) (Nat.lt_succ_self k)

section Inside

variable (steps : Steps c n f (Rest c f k) c' n') (named : Named c f) (listing : Listing c' f (k + 1) m)
  (inner : Steps c' n' (slot c' f k) (Rest c' (slot c' f k) 0) c'' n'') (blank : ∀ p, c'.target (slot c' f k) p = 0)
include steps named listing inner blank

theorem Steps.inside : Steps c n f (Rest c f k) c'' n'' ∧ Listing c'' f (k + 1) m ∧ ∀ i, slot c'' f i = slot c' f i := by
  have made := steps.made
  have named' := steps.named f named
  have reach := named'.reach
  obtain ⟨room, live⟩ := listing.live k (Nat.lt_succ_self k)
  have there := listing.reach reach room
  have apart := listing.block_lt made named' room
  have away : ∀ {x}, Reach c' x → x ≠ slot c' f k → Kept c' c'' x := by
    intro x other ne
    refine inner.kept made there other ne fun same => ?_
    rw [blank] at same
    rcases made.block_lt other with rfl | ⟨low, -⟩
    · exact absurd same (by decide)
    · omega
  have self : Same c' c'' f := by
    refine (away reach fun same => ?_).toSame
    rw [← same] at apart
    exact Nat.lt_irrefl _ apart
  have slots : ∀ i, slot c'' f i = slot c' f i := slot_same self
  have other : ∀ {i}, i < 16 * m → i ≠ k → Same c' c'' (slot c' f i) := by
    intro i inside ne
    refine (away (listing.reach reach inside) fun same => ne ?_).toSame
    exact slot_inj made.sound.toExclusive reach (listing.visible inside).2 same
  have name : c''.Dead (slot c' f k) ↔ c'.Dead (slot c' f k) := by
    unfold Image.Dead
    rw [inner.field 0 (by decide) (by decide)]
  refine ⟨⟨inner.made, Nat.le_trans steps.more inner.more, fun g had => inner.named g (steps.named g had),
    fun b w notMap below notOwn notRest => ?_, fun p => ?_, fun w small ne => ?_⟩,
    ⟨listing.toHasBlocks.same self, (self.field 33 (by decide)).trans listing.type, ?_, fun i inside => ?_, fun i past inside => ?_⟩,
    slots⟩
  · have first := steps.frame b w notMap below notOwn notRest
    refine (inner.frame b w notMap (Nat.lt_of_lt_of_le below steps.more) (fun own => ?_) fun rest => rest.1 (blank _)).trans first
    rcases own with ⟨same, low, -⟩ | ⟨held, -⟩
    · -- the slot lies in an old block, which was the last one
      have place : c'.target f (some (k / 16)) = b := same.symm
      have old := steps.old (p := some (k / 16)) (by omega)
      have word : (slot c' f k).word = 64 * (k % 16) := rfl
      refine notRest ⟨?_, ?_, by omega⟩
      · rw [← old]
        exact (listing.visible room).2
      · rw [← old, place]
    · exact held (blank none)
  · rw [self.target]
    exact steps.pointers p
  · exact (self.field w (by omega)).trans (steps.field w small ne)
  · rw [self.field 32 (by decide)]
    exact listing.size
  · obtain ⟨below, alive⟩ := listing.live i inside
    rw [slots]
    by_cases here : i = k
    · subst here
      exact ⟨below, fun isDead => live (name.mp isDead)⟩
    · exact ⟨below, fun isDead => alive ((other below here).dead.mp isDead)⟩
  · rw [slots, (other inside (by omega)).dead]
    exact listing.dead i past inside

end Inside

theorem Steps.next (steps : Steps c n f (Rest c f k) c' n') (listing : Listing c f k (dirBlocks k)) (more : k ≤ k')
    (after : Steps c' n' f (Rest c' f k') c'' n'') : Steps c n f (Rest c f k) c'' n'' := by
  refine steps.trans after fun b w below rest => ?_
  obtain ⟨held, rfl, low⟩ := rest
  have old := steps.old (p := some (k' / 16)) below
  rw [old] at held ⊢
  have inside : k' / 16 < (k + 15) / 16 := (listing.held _).mp held
  have quotient : k' / 16 = k / 16 := by omega
  rw [quotient] at held ⊢
  exact ⟨held, rfl, by omega⟩

end Mos.Format
