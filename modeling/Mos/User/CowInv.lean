import Mos.User.Cow
import Mos.Kern.Translate

namespace Mos.Cow

def writable (w : Word) : Bool := w &&& pteD != 0
def cow (w : Word) : Bool := w &&& pteCow != 0
def library (w : Word) : Bool := w &&& pteLibrary != 0

section Bits

variable (w perm : Word) (i : Nat)

theorem and_bit (small : i < 32) : (w &&& BitVec.twoPow 32 i != 0) = w.getLsbD i := by
  rw [BitVec.and_twoPow]
  cases bit : w.getLsbD i with
  | false => rfl
  | true =>
    have nonzero : BitVec.twoPow 32 i ≠ 0 := by
      intro zero
      have same := congrArg (fun w : Word => w.getLsbD i) zero
      simp [small] at same
    simpa using nonzero

theorem writable_eq : writable w = w.getLsbD 8 := and_bit w 8 (by decide)
theorem cow_eq : cow w = w.getLsbD 0 := and_bit w 0 (by decide)
theorem library_eq : library w = w.getLsbD 1 := and_bit w 1 (by decide)

theorem pteOf_bit (pp : Nat) (low : i < 9) (other : i ≠ 7) : (pteOf pp perm).getLsbD i = perm.getLsbD i := by
  have valid : ∀ j < 9, j ≠ 7 → (pteCCacheable.getLsbD j || pteV.getLsbD j) = false := by decide
  have bits := valid i low other
  rw [pteOf, BitVec.getLsbD_or, BitVec.getLsbD_or, BitVec.getLsbD_or, page2pa, BitVec.getLsbD_shiftLeft, pgshift, Bool.or_assoc, bits]
  have below : i < 12 := by omega
  simp [below]

theorem pteFlags_bit (low : i < 12) : (pteFlags w).getLsbD i = w.getLsbD i := by
  have mask : ∀ j < 12, (0xfff#32).getLsbD j = true := by decide
  rw [pteFlags, BitVec.getLsbD_and, mask i low, Bool.and_true]

theorem cowPerm_bit (small : i < 32) : (cowPerm perm).getLsbD i = (i == 0 || i != 8 && perm.getLsbD i) := by
  have masks : ∀ j < 32, (~~~pteD).getLsbD j = (j != 8) ∧ pteCow.getLsbD j = (j == 0) := by decide
  rw [cowPerm, BitVec.getLsbD_or, BitVec.getLsbD_and, (masks i small).1, (masks i small).2, Bool.or_comm, Bool.and_comm]

theorem ownPerm_bit (small : i < 32) : (ownPerm perm).getLsbD i = (i == 8 || i != 0 && perm.getLsbD i) := by
  have masks : ∀ j < 32, (~~~pteCow).getLsbD j = (j != 0) ∧ pteD.getLsbD j = (j == 8) := by decide
  rw [ownPerm, BitVec.getLsbD_or, BitVec.getLsbD_and, (masks i small).1, (masks i small).2, Bool.or_comm, Bool.and_comm]

theorem flagBits_cowPerm {perm : Word} (flags : FlagBits perm) : FlagBits (cowPerm perm) := by
  unfold FlagBits cowPerm at *
  rw [BitVec.ushiftRight_or_distrib, BitVec.ushiftRight_and_distrib, flags]
  rfl

theorem flagBits_ownPerm {perm : Word} (flags : FlagBits perm) : FlagBits (ownPerm perm) := by
  unfold FlagBits ownPerm at *
  rw [BitVec.ushiftRight_or_distrib, BitVec.ushiftRight_and_distrib, flags]
  rfl

theorem ppn_small : ppn w < 2 ^ 20 := by
  rw [ppn, pgshift, BitVec.toNat_ushiftRight, Nat.shiftRight_eq_div_pow]
  omega

end Bits

section Flags

variable {w perm : Word} (pp : Nat)

@[simp] theorem writable_pteOf : writable (pteOf pp perm) = writable perm := by
  rw [writable_eq, writable_eq, pteOf_bit perm 8 pp (by decide) (by decide)]

@[simp] theorem cow_pteOf : cow (pteOf pp perm) = cow perm := by
  rw [cow_eq, cow_eq, pteOf_bit perm 0 pp (by decide) (by decide)]

@[simp] theorem library_pteOf : library (pteOf pp perm) = library perm := by
  rw [library_eq, library_eq, pteOf_bit perm 1 pp (by decide) (by decide)]

@[simp] theorem writable_pteFlags : writable (pteFlags w) = writable w := by
  rw [writable_eq, writable_eq, pteFlags_bit w 8 (by decide)]

@[simp] theorem cow_pteFlags : cow (pteFlags w) = cow w := by
  rw [cow_eq, cow_eq, pteFlags_bit w 0 (by decide)]

@[simp] theorem library_pteFlags : library (pteFlags w) = library w := by
  rw [library_eq, library_eq, pteFlags_bit w 1 (by decide)]

@[simp] theorem writable_cowPerm : writable (cowPerm perm) = false := by
  rw [writable_eq, cowPerm_bit perm 8 (by decide)]
  rfl

@[simp] theorem cow_cowPerm : cow (cowPerm perm) = true := by
  rw [cow_eq, cowPerm_bit perm 0 (by decide)]
  rfl

@[simp] theorem library_cowPerm : library (cowPerm perm) = library perm := by
  rw [library_eq, library_eq, cowPerm_bit perm 1 (by decide)]
  rfl

@[simp] theorem writable_ownPerm : writable (ownPerm perm) = true := by
  rw [writable_eq, ownPerm_bit perm 8 (by decide)]
  rfl

@[simp] theorem cow_ownPerm : cow (ownPerm perm) = false := by
  rw [cow_eq, ownPerm_bit perm 0 (by decide)]
  rfl

@[simp] theorem library_ownPerm : library (ownPerm perm) = library perm := by
  rw [library_eq, library_eq, ownPerm_bit perm 1 (by decide)]
  rfl

theorem passedOn_iff : passedOn perm ↔ writable perm = false ∨ library perm = true ∨ cow perm = true := by
  simp [passedOn, writable, library, cow]

end Flags

/-- What is shared about a page is in its page table entry. -/
def entryOf (w : Word) : CopyOnWrite.Entry Nat := ⟨ppn w, writable w, library w⟩

/-- The page that is mapped in the child already, and not yet anew in the env. -/
def Stage.half : Stage → Option Nat
  | .mapSelf _ v _ => some v
  | _ => none

def Stage.passed (stage : Stage) (c : EnvPtr) (v : Nat) : Bool := stage.child == some c && stage.half != some v

/-- The page is one of the env's memory: not the one at `UCOW`, nor one of a child that `fork` is not done with or
    has given up. -/
def State.seen (s : State) (x : Slot) : Bool :=
  x.2 != ucowPage && match s.stage x.1 with
    | .embryo e => (s.stage e).passed x.1 x.2
    | _ => true

def view (s : State) (x : Slot) : Option (CopyOnWrite.Entry Nat) := if s.seen x then (s.vpt x).map entryOf else none

def Stage.todo : Stage → Option (EnvPtr × Nat)
  | .region c i => some (c, 1024 * i)
  | .page c v => some (c, v)
  | .duppage c v => some (c, v)
  | .mapChild c v _ => some (c, v)
  | .mapSelf c v _ => some (c, v + 1)
  | _ => none

def Stage.forks (stage : Stage) : Bool := stage == .exofork || stage.child.isSome

def Handler.page : Handler → Option Nat
  | .entered v => some v
  | .alloc v _ => some v
  | .copy v _ _ => some v
  | .map v _ => some v
  | .unmap _ => none

/-- What `fork` knows of the page that it is at. -/
def Stage.Ok (s : State) (e : EnvPtr) : Stage → Prop
  | .duppage _ v => v ≠ ucowPage ∧ ∃ w, s.vpt (e, v) = some w
  | .mapChild _ v perm => v ≠ ucowPage ∧ ∃ w, s.vpt (e, v) = some w ∧ perm = pteFlags w
  | .mapSelf c v perm => v ≠ ucowPage ∧ ∃ w, s.vpt (e, v) = some w ∧ perm = pteFlags w ∧ ¬ passedOn perm ∧
      s.vpt (c, v) = some (pteOf (ppn w) (cowPerm perm))
  | .setStatus c => s.tlbModEntry c = true
  | _ => True

/-- `cow_entry` has copied the first `i` bytes of page `v` to a page that is mapped at `UCOW` alone. -/
structure Copying (s : State) (e : EnvPtr) (v : Nat) (perm : Word) (i : Nat) (w u : Word) : Prop where
  found : s.vpt (e, v) = some w
  cow : cow w = true
  perm : perm = ownPerm (pteFlags w)
  new : s.vpt (e, ucowPage) = some u
  alone : ∀ x w', s.vpt x = some w' → ppn w' = ppn u → x = (e, ucowPage)
  bytes : ∀ j : Fin 4096, j.val < i → s.mem (ppn u) j = s.mem (ppn w) j

/-- What `cow_entry` knows of the page of the fault. -/
def Handler.Ok (s : State) (e : EnvPtr) : Option Handler → Prop
  | none => s.vpt (e, ucowPage) = none
  | some (.entered v) => v ≠ ucowPage ∧ s.vpt (e, ucowPage) = none ∧ ∃ w, s.vpt (e, v) = some w ∧ writable w = false
  | some (.alloc v perm) => v ≠ ucowPage ∧ s.vpt (e, ucowPage) = none ∧
      ∃ w, s.vpt (e, v) = some w ∧ cow w = true ∧ perm = ownPerm (pteFlags w)
  | some (.copy v perm i) => v ≠ ucowPage ∧ i ≤ 4096 ∧ ∃ w u, Copying s e v perm i w u
  | some (.map v perm) => v ≠ ucowPage ∧ ∃ w u, Copying s e v perm 4096 w u
  | some (.unmap _) => True

/-- What holds of each env. -/
structure Local (s : State) (e : EnvPtr) : Prop where
  legal : ∀ v w, s.vpt (e, v) = some w → cow w = true → writable w = false ∧ library w = false
  empty : s.stage e = .free → ∀ v, s.vpt (e, v) = none
  idle : (s.stage e).runs = false → s.handler e = none
  child : ∀ c, (s.stage e).child = some c → s.stage c = .embryo e
  ahead : ∀ c n, (s.stage e).todo = some (c, n) → ∀ v, n ≤ v → s.vpt (c, v) = none
  entry : (s.stage e).forks = true → s.tlbModEntry e = true
  catches : (s.stage e).runs = true → ∀ v w, s.vpt (e, v) = some w → cow w = true → s.tlbModEntry e = true
  stage : (s.stage e).Ok s e
  handler : Handler.Ok s e (s.handler e)
  busy : ∀ c v perm h, s.stage e = .mapChild c v perm → s.handler e = some h → h.page ≠ some v
  own : ∀ u, s.vpt (e, ucowPage) = some u → ∀ x w, s.vpt x = some w → ppn w = ppn u → x.1 = e

/-- The envs see the memories, and know what they do. -/
structure Inv (s : State) (m : Copies) : Prop where
  shows : CopyOnWrite.Shows (view s) s.mem m.cell m.data
  below : ∀ x c, m.cell x = some c → c < m.next
  env : ∀ e, Local s e

variable {s t : State} {m : Copies} {e b c : EnvPtr} {x y : Slot} {w u perm : Word} {v pp : Nat} {acts : EnvPtr → Prop}

theorem view_some {a : CopyOnWrite.Entry Nat} : view s x = some a ↔ s.seen x = true ∧ ∃ w, s.vpt x = some w ∧ entryOf w = a := by
  unfold view
  split
  · rename_i seen
    rw [Option.map_eq_some_iff]
    exact (and_iff_right seen).symm
  · rename_i hidden
    exact iff_of_false nofun fun both => hidden both.1

theorem view_of (seen : s.seen x = true) (found : s.vpt x = some w) : view s x = some (entryOf w) :=
  view_some.mpr ⟨seen, w, found, rfl⟩

theorem seen_of (page : x.2 ≠ ucowPage) (born : ∀ p, s.stage x.1 ≠ .embryo p) : s.seen x = true := by
  unfold State.seen
  cases stage : s.stage x.1 with
  | embryo p => exact absurd stage (born p)
  | _ => simpa using page

theorem not_embryo {st : Stage} (runs : st.runs = true) (p : EnvPtr) : st ≠ .embryo p := by
  rintro rfl
  cases runs

/-- Two envs that run have in common no frame of a page that is not meant to be shared and that one of them may write. -/
theorem Inv.unwritable (inv : Inv s m) (seen : s.seen x = true) (found : s.vpt x = some w) (seen' : s.seen y = true)
    (found' : s.vpt y = some u) (ne : x ≠ y) (frame : ppn w = ppn u) (own : library w = false) :
    writable w = false ∧ writable u = false ∧ library u = false := by
  obtain ⟨c, here⟩ := inv.shows.cell_of (view_of seen found)
  obtain ⟨d, there⟩ := inv.shows.cell_of (view_of seen' found')
  exact inv.shows.unwritable here there ne frame own

def Unmapped (s : State) (p : Nat) : Prop := ∀ y u, s.vpt y = some u → ppn u ≠ p

/-- What the envs in `acts` do: they map pages of their own or new ones, and store to new pages and to such that they may
    write. -/
structure Touches (s t : State) (acts : EnvPtr → Prop) : Prop where
  others : ∀ b, ¬ acts b → t.stage b = s.stage b ∧ t.handler b = s.handler b ∧ t.tlbModEntry b = s.tlbModEntry b
  vpt : ∀ x, t.vpt x = s.vpt x ∨ acts x.1 ∧ ∀ w, t.vpt x = some w →
    (∃ y u, acts y.1 ∧ s.vpt y = some u ∧ ppn u = ppn w) ∨ Unmapped s (ppn w)
  mem : ∀ p, t.mem p = s.mem p ∨ Unmapped s p ∨
    ∃ y u, acts y.1 ∧ s.vpt y = some u ∧ ppn u = p ∧ (y.2 = ucowPage ∨ writable u = true ∧ s.seen y = true)

theorem Touches.same (touches : Touches s t acts) (other : ¬ acts b) (v : Nat) : t.vpt (b, v) = s.vpt (b, v) :=
  (touches.vpt (b, v)).resolve_right fun mine => other mine.1

theorem Touches.apart (touches : Touches s t acts) (env : Local s b) (other : ¬ acts b) (new : s.vpt (b, ucowPage) = some u)
    (found : t.vpt x = some w) (frame : ppn w = ppn u) : s.vpt x = some w := by
  rcases touches.vpt x with same | ⟨mine, sources⟩
  · exact same.symm.trans found
  · rcases sources w found with ⟨y, w', also, found', same⟩ | fresh
    · exact absurd (env.own u new y w' found' (same.trans frame) ▸ also) other
    · exact absurd frame.symm (fresh (b, ucowPage) u new)

theorem Inv.untouched (inv : Inv s m) (touches : Touches s t acts) (other : ¬ acts b) (runs : (s.stage b).runs = true)
    (found : s.vpt (b, v) = some w) (page : cow w = true ∧ v ≠ ucowPage ∨ v = ucowPage) : t.mem (ppn w) = s.mem (ppn w) := by
  rcases touches.mem (ppn w) with same | fresh | ⟨y, u, also, found', frame, how⟩
  · exact same
  · exact absurd rfl (fresh (b, v) w found)
  · exfalso
    have ne : (b, v) ≠ y := by
      rintro rfl
      exact other also
    rcases page with ⟨isCow, page⟩ | rfl
    · rcases how with eq | ⟨dirty, seen⟩
      · obtain ⟨a, v'⟩ := y
        obtain rfl : v' = ucowPage := eq
        have owner : b = a := (inv.env a).own u found' (b, v) w found frame.symm
        exact other (owner ▸ also)
      · have own := ((inv.env b).legal v w found isCow).2
        have here : s.seen (b, v) = true := seen_of page fun p => not_embryo runs p
        rw [(inv.unwritable here found seen found' ne frame.symm own).2.1] at dirty
        cases dirty
    · have owner : y.1 = b := (inv.env b).own w found y u found' frame
      exact other (owner ▸ also)

theorem Copying.frame {i : Nat} (copying : Copying s b v perm i w u) (env : Local s b) (touches : Touches s t acts)
    (other : ¬ acts b) (old : t.mem (ppn w) = s.mem (ppn w)) (new : t.mem (ppn u) = s.mem (ppn u)) : Copying t b v perm i w u := by
  have same := touches.same other
  refine ⟨(same v).trans copying.found, copying.cow, copying.perm, (same _).trans copying.new, fun x w' found frame => ?_, fun j low => ?_⟩
  · exact copying.alone x w' (touches.apart env other copying.new found frame) frame
  · rw [old, new]
    exact copying.bytes j low

theorem Inv.frame (inv : Inv s m) (touches : Touches s t acts) (other : ¬ acts b)
    (child : ∀ c, (s.stage b).child = some c → ¬ acts c) : Local t b := by
  have env := inv.env b
  obtain ⟨stage, handler, entry⟩ := touches.others b other
  have vpt := touches.same other
  have copying : ∀ {v perm i}, v ≠ ucowPage → s.handler b ≠ none → (∃ w u, Copying s b v perm i w u) →
      ∃ w u, Copying t b v perm i w u := by
    rintro v perm i page busy ⟨w, u, copying⟩
    have runs : (s.stage b).runs = true := by
      by_contra stopped
      exact busy (env.idle (Bool.not_eq_true _ ▸ stopped))
    exact ⟨w, u, copying.frame env touches other
      (inv.untouched touches other runs copying.found (.inl ⟨copying.cow, page⟩))
      (inv.untouched touches other runs copying.new (.inr rfl))⟩
  refine ⟨fun v w found => env.legal v w ((vpt v).symm.trans found), fun free v => (vpt v).trans (env.empty (stage.symm.trans free) v),
    fun stopped => handler.trans (env.idle (stage ▸ stopped)), fun c mine => ?_, fun c n left v more => ?_,
    fun forks => entry.trans (env.entry (stage ▸ forks)),
    fun runs v w found isCow => entry.trans (env.catches (stage ▸ runs) v w ((vpt v).symm.trans found) isCow), ?_, ?_,
    fun c v perm h at_ busy => env.busy c v perm h (stage ▸ at_) (handler ▸ busy),
    fun u new x w found frame => ?_⟩
  · rw [stage] at mine
    exact (touches.others c (child c mine)).1.trans (env.child c mine)
  · rw [stage] at left
    have mine : (s.stage b).child = some c := by
      cases at_ : s.stage b <;> rw [at_] at left <;> cases left <;> rfl
    exact (touches.same (child c mine) v).trans (env.ahead c n left v more)
  · have ok := env.stage
    rw [stage]
    cases at_ : s.stage b with
    | duppage c v =>
      rw [at_] at ok
      exact ⟨ok.1, ok.2.imp fun w found => (vpt v).trans found⟩
    | mapChild c v perm =>
      rw [at_] at ok
      exact ⟨ok.1, ok.2.imp fun w found => ⟨(vpt v).trans found.1, found.2⟩⟩
    | mapSelf c v perm =>
      rw [at_] at ok
      obtain ⟨page, w, found, flags, writes, there⟩ := ok
      have same := touches.same (child c (by rw [at_]; rfl))
      exact ⟨page, w, (vpt v).trans found, flags, writes, (same v).trans there⟩
    | setStatus c =>
      rw [at_] at ok
      exact (touches.others c (child c (by rw [at_]; rfl))).2.2.trans ok
    | _ => trivial
  · have ok := env.handler
    rw [handler]
    cases at_ : s.handler b with
    | none =>
      rw [at_] at ok
      exact (vpt _).trans ok
    | some h =>
      rw [at_] at ok
      have busy : s.handler b ≠ none := by
        rw [at_]
        nofun
      cases h with
      | entered v => exact ⟨ok.1, (vpt _).trans ok.2.1, ok.2.2.imp fun w found => ⟨(vpt v).trans found.1, found.2⟩⟩
      | alloc v perm => exact ⟨ok.1, (vpt _).trans ok.2.1, ok.2.2.imp fun w found => ⟨(vpt v).trans found.1, found.2⟩⟩
      | copy v perm i => exact ⟨ok.1, ok.2.1, copying ok.1 busy ok.2.2⟩
      | map v perm => exact ⟨ok.1, copying ok.1 busy ok.2⟩
      | unmap v => trivial
  · have new' := (vpt _).symm.trans new
    exact env.own u new' x w (touches.apart env other new' found frame) frame

end Mos.Cow
