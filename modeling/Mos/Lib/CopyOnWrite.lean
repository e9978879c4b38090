import Mathlib.Logic.Function.Basic

/-! Frames that several slots share, seen as memories of their own. -/

namespace CopyOnWrite

/-- How a slot is mapped: its frame, whether stores go there, and whether it is meant to be shared. -/
structure Entry (F : Type) where
  frame : F
  writable : Bool
  common : Bool

variable {S F C X : Type} {entries : S → Option (Entry F)} {mem : F → X} {cell : S → Option C} {data : C → X}

/-- The slot `s` is mapped by `a`, and `c` is its cell. -/
def At (entries : S → Option (Entry F)) (cell : S → Option C) (s : S) (a : Entry F) (c : C) : Prop :=
  entries s = some a ∧ cell s = some c

/-- Each slot shows the contents of its cell. Slots with a frame in common that is not meant to be shared can neither of
    them be written. -/
structure Shows (entries : S → Option (Entry F)) (mem : F → X) (cell : S → Option C) (data : C → X) : Prop where
  mapped : ∀ s, entries s = none ↔ cell s = none
  content : ∀ s a c, At entries cell s a c → mem a.frame = data c
  apart : ∀ s t a b c d, At entries cell s a c → At entries cell t b d → a.frame = b.frame → c ≠ d →
    a.writable = false ∧ a.common = false
  alike : ∀ s t a b c, At entries cell s a c → At entries cell t b c → s ≠ t → a.frame = b.frame ∧ a.common = true

namespace Shows

variable {s t : S} {a b : Entry F} {c d : C} {f : F} {x : X}

theorem cell_of (shows : Shows entries mem cell data) (found : entries s = some a) : ∃ c, At entries cell s a c := by
  cases there : cell s with
  | none =>
    rw [(shows.mapped s).mpr there] at found
    cases found
  | some c => exact ⟨c, found, there⟩

theorem entry_of (shows : Shows entries mem cell data) (found : cell s = some c) : ∃ a, At entries cell s a c := by
  cases there : entries s with
  | none =>
    rw [(shows.mapped s).mp there] at found
    cases found
  | some a => exact ⟨a, there, found⟩

theorem sole (shows : Shows entries mem cell data) (here : At entries cell s a c) (own : a.common = false) (ne : t ≠ s) :
    cell t ≠ some c := by
  intro same
  obtain ⟨b, there⟩ := shows.entry_of same
  have common := (shows.alike s t a b c here there ne.symm).2
  rw [own] at common
  cases common

theorem unwritable (shows : Shows entries mem cell data) (here : At entries cell s a c) (there : At entries cell t b d)
    (ne : s ≠ t) (frame : a.frame = b.frame) (own : a.common = false) :
    a.writable = false ∧ b.writable = false ∧ b.common = false := by
  have differ : c ≠ d := by
    rintro rfl
    exact shows.sole here own ne.symm there.2
  exact ⟨(shows.apart s t a b c d here there frame differ).1, shows.apart t s b a d c there here frame.symm differ.symm⟩

theorem write [DecidableEq F] [DecidableEq C] (shows : Shows entries mem cell data) (here : At entries cell s a c)
    (writable : a.writable = true) (x : X) : Shows entries (Function.update mem a.frame x) cell (Function.update data c x) := by
  refine ⟨shows.mapped, fun t b d there => ?_, shows.apart, shows.alike⟩
  by_cases same : d = c
  · subst same
    have frame : b.frame = a.frame := by
      by_cases slot : t = s
      · subst slot
        rw [Option.some.inj (there.1.symm.trans here.1)]
      · exact (shows.alike t s b a d there here slot).1
    rw [frame, Function.update_self, Function.update_self]
  · have frame : b.frame ≠ a.frame := by
      intro eq
      have sealed := (shows.apart s t a b c d here there eq.symm fun eq => same eq.symm).1
      rw [writable] at sealed
      cases sealed
    rw [Function.update_of_ne same, Function.update_of_ne frame]
    exact shows.content t b d there

theorem hidden [DecidableEq F] (shows : Shows entries mem cell data) (free : ∀ s a, entries s = some a → a.frame ≠ f) (x : X) :
    Shows entries (Function.update mem f x) cell data := by
  refine ⟨shows.mapped, fun s a c here => ?_, shows.apart, shows.alike⟩
  rw [Function.update_of_ne (free s a here.1)]
  exact shows.content s a c here

theorem unused [DecidableEq C] (shows : Shows entries mem cell data) (free : ∀ s, cell s ≠ some c) (x : X) :
    Shows entries mem cell (Function.update data c x) := by
  refine ⟨shows.mapped, fun s a d here => ?_, shows.apart, shows.alike⟩
  have other : d ≠ c := by
    rintro rfl
    exact free s here.2
  rw [Function.update_of_ne other]
  exact shows.content s a d here

section Slots

variable [DecidableEq S]

theorem at_update (other : t ≠ s) :
    At (Function.update entries s (some a)) (Function.update cell s (some c)) t b d ↔ At entries cell t b d := by
  unfold At
  rw [Function.update_of_ne other, Function.update_of_ne other]

theorem at_self : At (Function.update entries s (some a)) (Function.update cell s (some c)) s b d ↔ a = b ∧ c = d := by
  unfold At
  rw [Function.update_self, Function.update_self, Option.some.injEq, Option.some.injEq]

/-- The slot `s` is mapped anew. What it has in common with each other slot, frame or cell, must fit. -/
theorem set (shows : Shows entries mem cell data) (content : mem a.frame = data c)
    (far : ∀ t b d, t ≠ s → At entries cell t b d → b.frame = a.frame → d ≠ c →
      (b.writable = false ∧ b.common = false) ∧ a.writable = false ∧ a.common = false)
    (near : ∀ t b, t ≠ s → At entries cell t b c → b.frame = a.frame ∧ b.common = true ∧ a.common = true) :
    Shows (Function.update entries s (some a)) mem (Function.update cell s (some c)) data := by
  refine ⟨fun t => ?_, fun t b d there => ?_, fun t u b b' d d' first second frame ne => ?_,
    fun t u b b' d first second ne => ?_⟩
  · by_cases same : t = s
    · subst same
      simp
    · rw [Function.update_of_ne same, Function.update_of_ne same]
      exact shows.mapped t
  · by_cases same : t = s
    · subst same
      obtain ⟨rfl, rfl⟩ := at_self.mp there
      exact content
    · exact shows.content t b d ((at_update same).mp there)
  · by_cases new : t = s
    · subst new
      obtain ⟨rfl, rfl⟩ := at_self.mp first
      by_cases also : u = t
      · subst also
        exact absurd (at_self.mp second).2 ne
      · exact (far u b' d' also ((at_update also).mp second) frame.symm ne.symm).2
    · by_cases also : u = s
      · subst also
        obtain ⟨rfl, rfl⟩ := at_self.mp second
        exact (far t b d new ((at_update new).mp first) frame ne).1
      · exact shows.apart t u b b' d d' ((at_update new).mp first) ((at_update also).mp second) frame ne
  · by_cases new : t = s
    · subst new
      obtain ⟨rfl, rfl⟩ := at_self.mp first
      obtain ⟨frame, -, common⟩ := near u b' ne.symm ((at_update ne.symm).mp second)
      exact ⟨frame.symm, common⟩
    · by_cases also : u = s
      · subst also
        obtain ⟨rfl, rfl⟩ := at_self.mp second
        obtain ⟨frame, common, -⟩ := near t b new ((at_update new).mp first)
        exact ⟨frame, common⟩
      · exact shows.alike t u b b' d ((at_update new).mp first) ((at_update also).mp second) ne

/-- A slot gets a frame and a cell that no other slot has. -/
theorem put (shows : Shows entries mem cell data) (frames : ∀ t b, t ≠ s → entries t = some b → b.frame ≠ a.frame)
    (cells : ∀ t, t ≠ s → cell t ≠ some c) (content : mem a.frame = data c) :
    Shows (Function.update entries s (some a)) mem (Function.update cell s (some c)) data :=
  shows.set content (fun t b _ ne there frame _ => absurd frame (frames t b ne there.1))
    fun t _ ne there => absurd there.2 (cells t ne)

theorem move (shows : Shows entries mem cell data) (here : At entries cell s a c) (own : a.common = false)
    (frames : ∀ t e, t ≠ s → entries t = some e → e.frame ≠ b.frame) (content : mem b.frame = mem a.frame) :
    Shows (Function.update entries s (some b)) mem cell data := by
  have moved := shows.put (a := b) (c := c) frames (fun t ne => shows.sole here own ne)
    (content.trans (shows.content s a c here))
  rwa [← here.2, Function.update_eq_self] at moved

theorem share (shows : Shows entries mem cell data) (here : At entries cell s a c) (common : a.common = true)
    (frame : b.frame = a.frame) (shared : b.common = true) :
    Shows (Function.update entries t (some b)) mem (Function.update cell t (some c)) data := by
  refine shows.set ((congrArg mem frame).trans (shows.content s a c here)) (fun u e d _ there same differ => ?_)
    fun u e _ there => ?_
  · have own := (shows.apart s u a e c d here there (frame.symm.trans same.symm) fun eq => differ eq.symm).2
    rw [common] at own
    cases own
  · by_cases slot : u = s
    · subst slot
      rw [Option.some.inj (there.1.symm.trans here.1)]
      exact ⟨frame.symm, common, shared⟩
    · obtain ⟨same, other⟩ := shows.alike u s e a c there here slot
      exact ⟨same.trans frame.symm, other, shared⟩

theorem close (shows : Shows entries mem cell data) (here : At entries cell s a c) (frame : b.frame = a.frame)
    (common : b.common = a.common) (sealed : b.writable = false) :
    Shows (Function.update entries s (some b)) mem cell data := by
  have content : mem b.frame = data c := (congrArg mem frame).trans (shows.content s a c here)
  have done := shows.set (s := s) content (fun t e d _ there same differ => ?_) fun t e ne there => ?_
  · rwa [← here.2, Function.update_eq_self] at done
  · have same := same.trans frame
    refine ⟨shows.apart t s e a d c there here same differ, sealed, common.trans ?_⟩
    exact (shows.apart s t a e c d here there same.symm fun eq => differ eq.symm).2
  · obtain ⟨same, other⟩ := shows.alike t s e a c there here ne
    exact ⟨same.trans frame.symm, other, common.trans (shows.alike s t a e c here there ne.symm).2⟩

/-- Two slots with one frame, which neither may write, have a cell each. -/
theorem copy (shows : Shows entries mem cell data) (here : At entries cell s a c) (own : a.common = false)
    (closed : a.writable = false) (frame : b.frame = a.frame) (sealed : b.writable = false) (alone : b.common = false)
    (ne : t ≠ s) (cells : ∀ u, cell u ≠ some d) (content : data d = data c) :
    Shows (Function.update entries t (some b)) mem (Function.update cell t (some d)) data := by
  refine shows.set ((congrArg mem frame).trans ((shows.content s a c here).trans content.symm))
    (fun u e d' _ there same _ => ⟨?_, sealed, alone⟩) fun u _ _ there => absurd there.2 (cells u)
  by_cases slot : u = s
  · subst slot
    rw [Option.some.inj (there.1.symm.trans here.1)]
    exact ⟨closed, own⟩
  · exact (shows.unwritable here there (Ne.symm slot) (same.trans frame).symm own).2

end Slots

theorem drop {entries' : S → Option (Entry F)} {cell' : S → Option C} (shows : Shows entries mem cell data)
    (kept : ∀ s, entries' s = entries s ∧ cell' s = cell s ∨ entries' s = none ∧ cell' s = none) :
    Shows entries' mem cell' data := by
  have old : ∀ s a c, At entries' cell' s a c → At entries cell s a c := by
    rintro s a c ⟨found, there⟩
    rcases kept s with ⟨same, same'⟩ | ⟨gone, -⟩
    · exact ⟨same.symm.trans found, same'.symm.trans there⟩
    · rw [gone] at found
      cases found
  refine ⟨fun s => ?_, fun s a c here => shows.content s a c (old s a c here), fun s t a b c d here there =>
    shows.apart s t a b c d (old s a c here) (old t b d there), fun s t a b c here there =>
    shows.alike s t a b c (old s a c here) (old t b c there)⟩
  rcases kept s with ⟨same, same'⟩ | ⟨gone, gone'⟩
  · rw [same, same']
    exact shows.mapped s
  · exact iff_of_true gone gone'

end Shows

end CopyOnWrite
