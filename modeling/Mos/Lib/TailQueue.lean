import Mathlib.Data.List.Nodup
import Mathlib.Logic.Function.Basic

namespace TailQueue

/-- The address of a link: the head's own first pointer or an element's next pointer. -/
inductive Loc (α : Type) where
  | first
  | next (a : α)
deriving DecidableEq

/-- An intrusive tail queue: the head's two words and the two link words of every element,
    linked or not. A null `prev` is the link of an element that was never inserted. -/
structure Links (α : Type) where
  first : Option α
  last : Loc α
  next : α → Option α
  prev : α → Option (Loc α)

variable {α : Type}

def Links.init (next : α → Option α) (prev : α → Option (Loc α)) : Links α :=
  { first := none, last := .first, next := next, prev := prev }

def Links.read (q : Links α) : Loc α → Option α
  | .first => q.first
  | .next a => q.next a

/-- From the link at `loc` the queue holds exactly `l`: each element is reached from the link before
    it and points back at that link, and `last` is the link that ends the queue. -/
def Chain (q : Links α) : Loc α → List α → Prop
  | loc, [] => q.read loc = none ∧ q.last = loc
  | loc, a :: l => q.read loc = some a ∧ q.prev a = some loc ∧ Chain q (.next a) l

/-- A well-formed tail queue holding `l` in order. -/
structure Repr (q : Links α) (l : List α) : Prop where
  chain : Chain q .first l
  nodup : l.Nodup

/-- `Member q a`: following the links from the head of `q` meets `a`. -/
inductive Member (q : Links α) : α → Prop where
  | first {a : α} (head : q.first = some a) : Member q a
  | next {a b : α} (before : Member q a) (link : q.next a = some b) : Member q b

def lastLoc : Loc α → List α → Loc α
  | loc, [] => loc
  | _, a :: l => lastLoc (.next a) l

theorem lastLoc_mem (loc : Loc α) (l : List α) : lastLoc loc l = loc ∨ ∃ b ∈ l, lastLoc loc l = .next b := by
  induction l generalizing loc with
  | nil => exact Or.inl rfl
  | cons a l ih =>
    right
    rcases ih (.next a) with h | ⟨b, mem, h⟩
    · exact ⟨a, by simp, h⟩
    · exact ⟨b, by simp [mem], h⟩

theorem Chain.last_eq {q : Links α} {loc : Loc α} {l : List α} (chain : Chain q loc l) :
    q.last = lastLoc loc l := by
  induction l generalizing loc with
  | nil => exact chain.2
  | cons a l ih => exact ih chain.2.2

theorem Chain.frame {q q' : Links α} {loc : Loc α} {l : List α} (chain : Chain q loc l)
    (readLoc : q'.read loc = q.read loc) (next : ∀ a ∈ l, q'.next a = q.next a)
    (prev : ∀ a ∈ l, q'.prev a = q.prev a) (last : q'.last = q.last) : Chain q' loc l := by
  induction l generalizing loc with
  | nil => exact ⟨readLoc.trans chain.1, last.trans chain.2⟩
  | cons a l ih =>
    refine ⟨readLoc.trans chain.1, (prev a (by simp)).trans chain.2.1, ih chain.2.2 ?_ ?_ ?_⟩
    · exact next a (by simp)
    · exact fun b mem => next b (by simp [mem])
    · exact fun b mem => prev b (by simp [mem])

theorem Chain.unique {q : Links α} {loc : Loc α} {l l' : List α} (chain : Chain q loc l)
    (other : Chain q loc l') : l = l' := by
  induction l generalizing loc l' with
  | nil =>
    cases l' with
    | nil => rfl
    | cons b l' => exact absurd (chain.1.symm.trans other.1) (by simp)
  | cons a l ih =>
    cases l' with
    | nil => exact absurd (chain.1.symm.trans other.1) (by simp)
    | cons b l' =>
      have same : a = b := Option.some.inj (chain.1.symm.trans other.1)
      subst same
      rw [ih chain.2.2 other.2.2]

theorem Chain.prev_mem {q : Links α} {loc : Loc α} {l : List α} {a : α} (chain : Chain q loc l) (mem : a ∈ l) :
    ∃ back, q.prev a = some back ∧ q.read back = some a ∧ (back = loc ∨ ∃ b ∈ l, back = .next b) := by
  induction l generalizing loc with
  | nil => cases mem
  | cons c l ih =>
    rcases List.mem_cons.mp mem with rfl | mem
    · exact ⟨loc, chain.2.1, chain.1, Or.inl rfl⟩
    · obtain ⟨back, hprev, hread, hloc⟩ := ih chain.2.2 mem
      refine ⟨back, hprev, hread, Or.inr ?_⟩
      rcases hloc with rfl | ⟨b, hb, rfl⟩
      · exact ⟨c, by simp, rfl⟩
      · exact ⟨b, by simp [hb], rfl⟩

theorem Chain.next_mem {q : Links α} {loc : Loc α} {l : List α} {a n : α} (chain : Chain q loc l) (mem : a ∈ l)
    (next : q.next a = some n) : n ∈ l ∧ q.prev n = some (.next a) := by
  induction l generalizing loc with
  | nil => cases mem
  | cons c l ih =>
    rcases List.mem_cons.mp mem with rfl | mem
    · cases l with
      | nil => exact absurd (chain.2.2.1.symm.trans next) (by simp)
      | cons d l =>
        have same : d = n := Option.some.inj (chain.2.2.1.symm.trans next)
        subst same
        exact ⟨by simp, chain.2.2.2.1⟩
    · obtain ⟨hn, hprev⟩ := ih chain.2.2 mem
      exact ⟨by simp [hn], hprev⟩

theorem Chain.next_ne {q : Links α} {loc : Loc α} {l : List α} {a : α} (chain : Chain q loc l) (nodup : l.Nodup)
    (mem : a ∈ l) : q.next a ≠ some a := by
  induction l generalizing loc with
  | nil => cases mem
  | cons c l ih =>
    obtain ⟨headFresh, tailNodup⟩ := List.nodup_cons.mp nodup
    rcases List.mem_cons.mp mem with rfl | mem
    · intro loop
      cases l with
      | nil => exact absurd (chain.2.2.1.symm.trans loop) (by simp)
      | cons d l =>
        have same : d = a := Option.some.inj (chain.2.2.1.symm.trans loop)
        exact headFresh (by simp [same])
    · exact ih chain.2.2 tailNodup mem

theorem Repr.unique {q : Links α} {l l' : List α} (h : Repr q l) (h' : Repr q l') : l = l' :=
  h.chain.unique h'.chain

theorem Repr.first_eq {q : Links α} {l : List α} (h : Repr q l) : q.first = l.head? := by
  cases l with
  | nil => exact h.chain.1
  | cons a l => exact h.chain.1

theorem Repr.single {q : Links α} {l : List α} {a : α} (h : Repr q l) (first : q.first = some a)
    (last : q.next a = none) : l = [a] := by
  cases l with
  | nil => cases h.chain.1.symm.trans first
  | cons b l =>
    obtain rfl : b = a := Option.some.inj (h.chain.1.symm.trans first)
    cases l with
    | nil => rfl
    | cons c l => cases h.chain.2.2.1.symm.trans last

theorem Chain.read_last {q : Links α} {loc : Loc α} {l : List α} (chain : Chain q loc l) : q.read q.last = none := by
  induction l generalizing loc with
  | nil =>
    rw [chain.2]
    exact chain.1
  | cons a l ih => exact ih chain.2.2

theorem Repr.read_last {q : Links α} {l : List α} (h : Repr q l) : q.read q.last = none := h.chain.read_last

theorem Chain.read_none {q : Links α} {loc other : Loc α} {l : List α} (chain : Chain q loc l)
    (inside : other = loc ∨ ∃ b ∈ l, other = .next b) (empty : q.read other = none) : other = q.last := by
  induction l generalizing loc with
  | nil =>
    rcases inside with rfl | ⟨b, mem, _⟩
    · exact chain.2.symm
    · cases mem
  | cons a l ih =>
    rcases inside with rfl | ⟨b, mem, rfl⟩
    · exact absurd (empty.symm.trans chain.1) (by simp)
    · rcases List.mem_cons.mp mem with rfl | mem
      · exact ih chain.2.2 (Or.inl rfl)
      · exact ih chain.2.2 (Or.inr ⟨b, mem, rfl⟩)

theorem Chain.read_some {q : Links α} {loc other : Loc α} {l : List α} {n : α} (chain : Chain q loc l)
    (inside : other = loc ∨ ∃ b ∈ l, other = .next b) (read : q.read other = some n) :
    n ∈ l ∧ q.prev n = some other := by
  induction l generalizing loc with
  | nil =>
    rcases inside with rfl | ⟨b, mem, _⟩
    · exact absurd (chain.1.symm.trans read) (by simp)
    · cases mem
  | cons a l ih =>
    rcases inside with rfl | ⟨b, mem, rfl⟩
    · have same : a = n := Option.some.inj (chain.1.symm.trans read)
      subst same
      exact ⟨by simp, chain.2.1⟩
    · rcases List.mem_cons.mp mem with rfl | mem
      · have tail := ih chain.2.2 (Or.inl rfl)
        exact ⟨by simp [tail.1], tail.2⟩
      · have tail := ih chain.2.2 (Or.inr ⟨b, mem, rfl⟩)
        exact ⟨by simp [tail.1], tail.2⟩

theorem init_repr (next : α → Option α) (prev : α → Option (Loc α)) : Repr (Links.init next prev) [] :=
  ⟨⟨rfl, rfl⟩, List.nodup_nil⟩

section Operations

variable [DecidableEq α]

def Links.write (q : Links α) (loc : Loc α) (v : Option α) : Links α :=
  match loc with
  | .first => { q with first := v }
  | .next a => { q with next := Function.update q.next a v }

def Links.insertHead (q : Links α) (a : α) : Links α :=
  let q := { q with next := Function.update q.next a q.first }
  let q := match q.first with
    | some n => { q with prev := Function.update q.prev n (some (.next a)) }
    | none => { q with last := .next a }
  { q with first := some a, prev := Function.update q.prev a (some .first) }

def Links.insertTail (q : Links α) (a : α) : Links α :=
  let q := { q with next := Function.update q.next a none, prev := Function.update q.prev a (some q.last) }
  let q := q.write q.last (some a)
  { q with last := .next a }

/-- Removal writes through the element's own `prev`, whether or not the element is in the queue;
    a null `prev` faults. -/
def Links.remove (q : Links α) (a : α) : Option (Links α) :=
  match q.prev a with
  | none => none
  | some loc =>
    let q' := match q.next a with
      | some n => { q with prev := Function.update q.prev n (some loc) }
      | none => { q with last := loc }
    some (q'.write loc (q.next a))

@[simp] theorem read_write_same (q : Links α) (loc : Loc α) (v : Option α) : (q.write loc v).read loc = v := by
  cases loc <;> simp [Links.write, Links.read]

theorem read_write_ne (q : Links α) {loc other : Loc α} (v : Option α) (ne : other ≠ loc) :
    (q.write loc v).read other = q.read other := by
  cases loc with
  | first =>
    cases other with
    | first => exact absurd rfl ne
    | next b => rfl
  | next a =>
    cases other with
    | first => rfl
    | next b =>
      have hb : b ≠ a := fun h => ne (h ▸ rfl)
      simp [Links.write, Links.read, hb]

@[simp] theorem write_prev (q : Links α) (loc : Loc α) (v : Option α) : (q.write loc v).prev = q.prev := by
  cases loc <;> rfl

@[simp] theorem write_last (q : Links α) (loc : Loc α) (v : Option α) : (q.write loc v).last = q.last := by
  cases loc <;> rfl

theorem Repr.insertHead {q : Links α} {l : List α} {a : α} (h : Repr q l) (fresh : a ∉ l) :
    Repr (q.insertHead a) (a :: l) := by
  refine ⟨⟨rfl, by simp [Links.insertHead], ?_⟩, List.nodup_cons.mpr ⟨fresh, h.nodup⟩⟩
  cases l with
  | nil =>
    have empty : q.first = none := h.chain.1
    simp [Chain, Links.insertHead, Links.read, empty]
  | cons b l =>
    have first : q.first = some b := h.chain.1
    obtain ⟨notHead, notTail⟩ := not_or.mp (fun m => fresh (List.mem_cons.mpr m))
    have headFresh := (List.nodup_cons.mp h.nodup).1
    refine ⟨by simp [Links.insertHead, Links.read, first], ?_, ?_⟩
    · simp [Links.insertHead, first, Ne.symm notHead]
    · refine h.chain.2.2.frame ?_ ?_ ?_ ?_
      · simp [Links.insertHead, Links.read, first, Ne.symm notHead]
      · intro c mem
        have ne : c ≠ a := fun eq => notTail (eq ▸ mem)
        simp [Links.insertHead, first, ne]
      · intro c mem
        have ne : c ≠ a := fun eq => notTail (eq ▸ mem)
        have neHead : c ≠ b := fun eq => headFresh (eq ▸ mem)
        simp [Links.insertHead, first, ne, neHead]
      · simp [Links.insertHead, first]

theorem insertTail_read (q : Links α) (a : α) {loc : Loc α} (notLast : loc ≠ q.last) (notSelf : loc ≠ .next a) :
    (q.insertTail a).read loc = q.read loc := by
  have written := read_write_ne
    { q with next := Function.update q.next a none, prev := Function.update q.prev a (some q.last) } (some a) notLast
  cases loc with
  | first => exact written
  | next b =>
    have hb : b ≠ a := fun h => notSelf (h ▸ rfl)
    exact written.trans (by simp [Links.read, hb])

theorem insertTail_prev (q : Links α) (a : α) : (q.insertTail a).prev = Function.update q.prev a (some q.last) := by
  simp [Links.insertTail]

theorem Chain.insertTail {q : Links α} {loc : Loc α} {l : List α} {a : α} (chain : Chain q loc l)
    (nodup : l.Nodup) (fresh : a ∉ l) (outside : ∀ b ∈ a :: l, loc ≠ .next b) :
    Chain (q.insertTail a) loc (l ++ [a]) := by
  induction l generalizing loc with
  | nil =>
    have lastEq : q.last = loc := chain.2
    subst lastEq
    refine ⟨?_, by simp [insertTail_prev], ?_, rfl⟩
    · exact read_write_same _ q.last (some a)
    · have ne : Loc.next a ≠ q.last := (outside a (by simp)).symm
      exact (read_write_ne _ (some a) ne).trans (by simp [Links.read])
  | cons b l ih =>
    obtain ⟨notHead, notTail⟩ := not_or.mp (fun m => fresh (List.mem_cons.mpr m))
    have lastInside : loc ≠ q.last := by
      rw [chain.last_eq]
      rcases lastLoc_mem (.next b) l with h | ⟨c, mem, h⟩
      · exact fun eq => outside b (by simp) (eq.trans h)
      · exact fun eq => outside c (by simp [mem]) (eq.trans h)
    obtain ⟨headFresh, tailNodup⟩ := List.nodup_cons.mp nodup
    refine ⟨?_, ?_, ih chain.2.2 tailNodup notTail ?_⟩
    · exact (insertTail_read q a lastInside (outside a (by simp))).trans chain.1
    · simpa [insertTail_prev, Ne.symm notHead] using chain.2.1
    · intro c mem eq
      have same : b = c := Loc.next.inj eq
      subst same
      rcases List.mem_cons.mp mem with rfl | mem
      · exact notHead rfl
      · exact headFresh mem

theorem Repr.insertTail {q : Links α} {l : List α} {a : α} (h : Repr q l) (fresh : a ∉ l) :
    Repr (q.insertTail a) (l ++ [a]) := by
  refine ⟨h.chain.insertTail h.nodup fresh (by simp), ?_⟩
  rw [List.nodup_append]
  refine ⟨h.nodup, by simp, ?_⟩
  intro b mem c single eq
  exact fresh (List.mem_singleton.mp single ▸ eq ▸ mem)

theorem Chain.remove {q q' : Links α} {loc : Loc α} {l : List α} {a : α} (chain : Chain q loc l)
    (nodup : l.Nodup) (mem : a ∈ l) (outside : ∀ b ∈ l, loc ≠ .next b) (removed : q.remove a = some q') :
    Chain q' loc (l.erase a) := by
  induction l generalizing loc with
  | nil => cases mem
  | cons b l ih =>
    obtain ⟨headFresh, tailNodup⟩ := List.nodup_cons.mp nodup
    by_cases same : b = a
    · subst same
      simp only [Links.remove, chain.2.1, Option.some.injEq] at removed
      subst removed
      rw [List.erase_cons_head]
      cases l with
      | nil =>
        have tail : q.next b = none := chain.2.2.1
        simp only [tail]
        exact ⟨read_write_same _ _ _, by simp⟩
      | cons c l =>
        have tail : q.next b = some c := chain.2.2.1
        simp only [tail]
        refine ⟨read_write_same _ _ _, by simp, chain.2.2.2.2.frame ?_ ?_ ?_ ?_⟩
        · exact read_write_ne _ _ (outside c (by simp)).symm
        · intro d inside
          exact read_write_ne _ _ (outside d (by simp [inside])).symm
        · intro d inside
          have ne : d ≠ c := fun eq => (List.nodup_cons.mp tailNodup).1 (eq ▸ inside)
          simp [ne]
        · simp
    · have inside : a ∈ l := (List.mem_cons.mp mem).resolve_left (Ne.symm same)
      obtain ⟨back, hprev, _, hback⟩ := chain.2.2.prev_mem inside
      have backNe : loc ≠ back := by
        rcases hback with rfl | ⟨c, hc, rfl⟩
        · exact outside b (by simp)
        · exact outside c (by simp [hc])
      have tail := ih chain.2.2 tailNodup inside (fun c hc eq => headFresh (Loc.next.inj eq ▸ hc))
      rw [List.erase_cons_tail (by simpa using same)]
      simp only [Links.remove, hprev, Option.some.injEq] at removed
      refine ⟨?_, ?_, tail⟩
      · rw [← removed, read_write_ne _ _ backNe]
        cases next : q.next a <;> (simp only; exact chain.1)
      · rw [← removed, write_prev]
        cases next : q.next a with
        | none => exact chain.2.1
        | some n =>
          have after := (chain.2.2.next_mem inside next).1
          have ne : b ≠ n := fun eq => headFresh (eq ▸ after)
          simpa [ne] using chain.2.1

theorem Repr.remove {q : Links α} {l : List α} {a : α} (h : Repr q l) (mem : a ∈ l) :
    ∃ q', q.remove a = some q' ∧ Repr q' (l.erase a) := by
  obtain ⟨back, hprev, _, _⟩ := h.chain.prev_mem mem
  have removed : ∃ q', q.remove a = some q' := by simp [Links.remove, hprev]
  obtain ⟨q', removed⟩ := removed
  exact ⟨q', removed, h.chain.remove h.nodup mem (by simp) removed, h.nodup.erase a⟩

/-- The two link words that removing `a` writes, where they belong to the queue, hold what is
    written already. -/
structure Idle (q : Links α) (queued : α → Prop) (a : α) : Prop where
  back : ∀ loc, q.prev a = some loc → (loc = .first ∨ ∃ b, queued b ∧ loc = .next b) → q.read loc = q.next a
  after : ∀ loc n, q.prev a = some loc → q.next a = some n → queued n → q.prev n = some loc
  last : ∀ loc, q.prev a = some loc → q.next a = none → q.last = loc

theorem Repr.remove_idle {q q' : Links α} {l : List α} {a : α} (h : Repr q l) (idle : Idle q (· ∈ l) a)
    (removed : q.remove a = some q') : Repr q' l := by
  refine ⟨?_, h.nodup⟩
  cases hprev : q.prev a with
  | none => simp [Links.remove, hprev] at removed
  | some loc =>
    simp only [Links.remove, hprev, Option.some.injEq] at removed
    have reads : ∀ other, (other = .first ∨ ∃ b ∈ l, other = .next b) → q'.read other = q.read other := by
      intro other inside
      by_cases same : other = loc
      · subst same
        rw [← removed, read_write_same, idle.back other hprev inside]
      · rw [← removed, read_write_ne _ _ same]
        cases q.next a <;> cases other <;> rfl
    refine h.chain.frame (reads .first (Or.inl rfl)) (fun b mem => reads (.next b) (Or.inr ⟨b, mem, rfl⟩)) ?_ ?_
    · intro b mem
      rw [← removed, write_prev]
      cases next : q.next a with
      | none => rfl
      | some n =>
        by_cases same : b = n
        · subst same
          simpa using (idle.after loc b hprev next mem).symm
        · simp [same]
    · rw [← removed, write_last]
      cases next : q.next a with
      | none => exact (idle.last loc hprev next).symm
      | some n => rfl

theorem remove_next {q q' : Links α} {a : α} {back : Loc α} (prev : q.prev a = some back) (loop : back ≠ .next a)
    (removed : q.remove a = some q') : q'.next a = q.next a := by
  simp only [Links.remove, prev, Option.some.injEq] at removed
  subst removed
  cases back with
  | first => cases next : q.next a <;> simp [Links.write, next]
  | next b =>
    have ne : a ≠ b := fun eq => loop (eq ▸ rfl)
    cases next : q.next a <;> simp [Links.write, ne, next]

theorem Repr.idle_after {q q' : Links α} {l : List α} {a : α} (h : Repr q l) (mem : a ∈ l) (removed : q.remove a = some q') :
    Idle q' (· ∈ l.erase a) a ∧ q'.prev a ≠ none := by
  obtain ⟨back, hprev, hread, _⟩ := h.chain.prev_mem mem
  have fresh : q.next a ≠ some a := h.chain.next_ne h.nodup mem
  have loop : back ≠ .next a := fun eq => fresh (by rw [eq] at hread; exact hread)
  have nextA := remove_next hprev loop removed
  simp only [Links.remove, hprev, Option.some.injEq] at removed
  have prevA : q'.prev a = some back := by
    rw [← removed, write_prev]
    cases next : q.next a with
    | none => exact hprev
    | some n =>
      have ne : a ≠ n := fun eq => fresh (eq ▸ next)
      simpa [ne] using hprev
  have readBack : q'.read back = q'.next a := by
    rw [nextA, ← removed, read_write_same]
  refine ⟨⟨fun loc prev _ => ?_, fun loc n prev next _ => ?_, fun loc prev next => ?_⟩, by rw [prevA]; exact Option.some_ne_none back⟩
  · cases prevA.symm.trans prev
    exact readBack
  · cases prevA.symm.trans prev
    rw [nextA] at next
    rw [← removed, write_prev]
    simp [next]
  · cases prevA.symm.trans prev
    rw [nextA] at next
    rw [← removed, write_last]
    simp [next]

theorem Repr.remove_again {q q' : Links α} {l : List α} {a : α} (h : Repr q l) (mem : a ∈ l) (removed : q.remove a = some q') :
    ∃ q'', q'.remove a = some q'' ∧ Repr q'' (l.erase a) := by
  obtain ⟨idle, linked⟩ := h.idle_after mem removed
  obtain ⟨loc, prev⟩ := Option.ne_none_iff_exists'.mp linked
  have again : ∃ q'', q'.remove a = some q'' := by simp [Links.remove, prev]
  obtain ⟨q'', again⟩ := again
  have left : Repr q' (l.erase a) := by
    obtain ⟨q1, removed', left⟩ := h.remove mem
    cases removed.symm.trans removed'
    exact left
  exact ⟨q'', again, left.remove_idle idle again⟩

theorem Repr.idle_of_remove {q q' : Links α} {l l' : List α} {a : α} (h : Repr q l)
    (removed : q.remove a = some q') (h' : Repr q' l') (same : ∀ b, b ∈ l' ↔ b ∈ l) : Idle q (· ∈ l) a := by
  cases hprev : q.prev a with
  | none => simp [Links.remove, hprev] at removed
  | some loc =>
    simp only [Links.remove, hprev, Option.some.injEq] at removed
    have written : q'.read loc = q.next a := by rw [← removed, read_write_same]
    have reads : ∀ other, other ≠ loc → q'.read other = q.read other := by
      intro other ne
      rw [← removed, read_write_ne _ _ ne]
      cases q.next a <;> cases other <;> rfl
    have moved : ∀ other : Loc α, (other = .first ∨ ∃ b ∈ l, other = .next b) → other = .first ∨ ∃ b ∈ l', other = .next b := by
      intro other inside
      exact inside.imp_right fun ⟨b, mem, eq⟩ => ⟨b, (same b).mpr mem, eq⟩
    have after : ∀ n, q.next a = some n → n ∈ l → q.prev n = some loc := by
      intro n next mem
      obtain ⟨back, backPrev, backRead, inside⟩ := h.chain.prev_mem mem
      by_cases eq : back = loc
      · exact eq ▸ backPrev
      · have twice := (h'.chain.read_some (moved back inside) ((reads back eq).trans backRead)).2
        rw [← removed, write_prev] at twice
        simp only [next, Function.update_self, Option.some.injEq] at twice
        exact absurd twice.symm eq
    have last : q.next a = none → q.last = loc := by
      intro next
      by_cases eq : q.last = loc
      · exact eq
      · have inside : q.last = .first ∨ ∃ b ∈ l, q.last = .next b := by
          rw [h.chain.last_eq]
          exact lastLoc_mem .first l
        have empty : q.read q.last = none := h.read_last
        have tail := h'.chain.read_none (moved q.last inside) ((reads q.last eq).trans empty)
        rw [← removed, write_last] at tail
        simpa [next] using tail
    refine ⟨?_, ?_, ?_⟩
    · intro other otherPrev inside
      obtain rfl : loc = other := Option.some.inj (hprev.symm.trans otherPrev)
      cases next : q.next a with
      | none => rw [← last next, h.read_last]
      | some n =>
        have mem := (h'.chain.read_some (moved loc inside) (written.trans next)).1
        obtain ⟨back, backPrev, backRead, _⟩ := h.chain.prev_mem ((same n).mp mem)
        obtain rfl : back = loc := Option.some.inj (backPrev.symm.trans (after n next ((same n).mp mem)))
        exact backRead
    · intro other n otherPrev next mem
      obtain rfl : loc = other := Option.some.inj (hprev.symm.trans otherPrev)
      exact after n next mem
    · intro other otherPrev next
      obtain rfl : loc = other := Option.some.inj (hprev.symm.trans otherPrev)
      exact last next

theorem Chain.not_insertTail {q : Links α} {loc : Loc α} {l l' : List α} {a : α} (chain : Chain q loc l)
    (mem : a ∈ l) (nodup : l.Nodup) (outside : ∀ b ∈ l, loc ≠ .next b) (twice : Chain (q.insertTail a) loc l') : False := by
  induction l generalizing loc l' with
  | nil => cases mem
  | cons b l ih =>
    obtain ⟨headFresh, tailNodup⟩ := List.nodup_cons.mp nodup
    have notLast : loc ≠ q.last := by
      intro same
      have empty := chain.read_last
      rw [← same, chain.1] at empty
      cases empty
    have read := insertTail_read q a notLast (outside a mem)
    rw [chain.1] at read
    cases l' with
    | nil => exact absurd (read.symm.trans twice.1) (by simp)
    | cons c l' =>
      obtain rfl : b = c := Option.some.inj (read.symm.trans twice.1)
      by_cases same : b = a
      · subst same
        have back := twice.2.1
        rw [insertTail_prev] at back
        exact notLast (by simpa using back.symm)
      · have inside : a ∈ l := (List.mem_cons.mp mem).resolve_left (Ne.symm same)
        exact ih chain.2.2 inside tailNodup (fun d hd eq => headFresh (Loc.next.inj eq ▸ hd)) twice.2.2

theorem Repr.not_insertTail {q : Links α} {l l' : List α} {a : α} (h : Repr q l) (mem : a ∈ l) :
    ¬ Repr (q.insertTail a) l' :=
  fun h' => h.chain.not_insertTail mem h.nodup (by simp) h'.chain

end Operations

end TailQueue
