import Mos.User.CowInv

namespace Mos.Cow

variable {s t : State} {m m' : Copies} {e b c : EnvPtr} {x y : Slot} {w u perm : Word} {v i pp : Nat} {acts : EnvPtr → Prop}
variable {st : Stage}

theorem Inv.next (inv : Inv s m) (touches : Touches s t acts) (closed : ∀ a p, acts a → s.stage a = .embryo p → acts p)
    (mine : ∀ b, acts b → Local t b) (shows : CopyOnWrite.Shows (view t) t.mem m'.cell m'.data)
    (below : ∀ x c, m'.cell x = some c → c < m'.next) : Inv t m' := by
  refine ⟨shows, below, fun b => ?_⟩
  by_cases act : acts b
  · exact mine b act
  · exact inv.frame touches act fun c kid also => act (closed c b also ((inv.env b).child c kid))

theorem closed_self (runs : (s.stage e).runs = true) : ∀ a p, a = e → s.stage a = .embryo p → p = e := by
  rintro a p rfl embryo
  exact absurd embryo (not_embryo runs p)

section Views

theorem seen_born (born : ∀ p, s.stage x.1 ≠ .embryo p) : s.seen x = (x.2 != ucowPage) := by
  unfold State.seen
  cases stage : s.stage x.1 with
  | embryo p => exact absurd stage (born p)
  | _ => exact Bool.and_true _

theorem seen_embryo {p : EnvPtr} (stage : s.stage x.1 = .embryo p) :
    s.seen x = (x.2 != ucowPage && (s.stage p).passed x.1 x.2) := by
  unfold State.seen
  rw [stage]

theorem seen_stage (same : t.stage = s.stage) (x : Slot) : t.seen x = s.seen x := by
  unfold State.seen
  rw [same]

theorem seen_goto (stage : t.stage = Function.update s.stage e st) (born : ∀ p, s.stage e ≠ .embryo p) (born' : ∀ p, st ≠ .embryo p)
    (passed : st.passed x.1 x.2 = (s.stage e).passed x.1 x.2) : t.seen x = s.seen x := by
  by_cases here : x.1 = e
  · rw [seen_born (s := t) fun p => by rw [stage, here, Function.update_self]; exact born' p, seen_born fun p => here ▸ born p]
  · have same : t.stage x.1 = s.stage x.1 := by rw [stage, Function.update_of_ne here]
    cases at_ : s.stage x.1 with
    | embryo p =>
      rw [seen_embryo (same.trans at_), seen_embryo at_, stage]
      by_cases parent : p = e
      · rw [parent, Function.update_self, passed]
      · rw [Function.update_of_ne parent]
    | _ =>
      rw [seen_born (s := t) fun p => by rw [same, at_]; nofun, seen_born fun p => by rw [at_]; nofun]

theorem passed_same {old : Stage} (child : st.child = old.child) (half : st.half = old.half) (c : EnvPtr) (v : Nat) :
    st.passed c v = old.passed c v := by
  rw [Stage.passed, Stage.passed, child, half]

theorem passed_whole (child : st.child = some c) (half : st.half = none) (a : EnvPtr) (v : Nat) : st.passed a v = (c == a) := by
  rw [Stage.passed, child, half]
  exact Bool.and_true _

theorem passed_half {a : EnvPtr} {k : Nat} (other : (a, k) ≠ (c, v)) : (Stage.mapSelf c v perm).passed a k = (c == a) := by
  show ((some c == some a) && (some v != some k)) = (c == a)
  by_cases same : a = c
  · have ne : (some v != some k) = true := bne_iff_ne.mpr fun eq => other (Prod.ext same (Option.some.inj eq).symm)
    rw [ne, Bool.and_true]
    rfl
  · have ne : (some c == some a) = false := beq_eq_false_iff_ne.mpr fun eq => same (Option.some.inj eq).symm
    rw [ne, beq_eq_false_iff_ne.mpr (Ne.symm same)]
    rfl

theorem view_same (seen : ∀ y, t.seen y = s.seen y) (vpt : ∀ y, s.seen y = true → t.vpt y = s.vpt y) : view t = view s := by
  funext y
  unfold view
  rw [seen y]
  split
  · rename_i shown
    rw [vpt y shown]
  · rfl

theorem view_update {o : Option Word} (seen : ∀ y, t.seen y = s.seen y) (here : s.seen x = true)
    (vpt : t.vpt = Function.update s.vpt x o) : view t = Function.update (view s) x (o.map entryOf) := by
  funext y
  unfold view
  rw [seen y, vpt]
  by_cases same : y = x
  · subst same
    rw [Function.update_self, Function.update_self, if_pos here]
  · rw [Function.update_of_ne same, Function.update_of_ne same]

theorem view_set (s t : State) (stage : t.stage = s.stage) (here : s.seen x = true) (vpt : t.vpt = Function.update s.vpt x (some w)) :
    view t = Function.update (view s) x (some (entryOf w)) := view_update (seen_stage stage) here vpt

end Views

section Envs

theorem Local.plain (handler : t.handler e = none) (bare : t.vpt (e, ucowPage) = none)
    (legal : ∀ v w, t.vpt (e, v) = some w → cow w = true → writable w = false ∧ library w = false)
    (empty : t.stage e = .free → ∀ v, t.vpt (e, v) = none) (child : (t.stage e).child = none)
    (entry : t.stage e = .exofork → t.tlbModEntry e = true)
    (catches : (t.stage e).runs = true → ∀ v w, t.vpt (e, v) = some w → cow w = true → t.tlbModEntry e = true) : Local t e := by
  have todo : (t.stage e).todo = none := by
    cases at_ : t.stage e <;> rw [at_] at child <;> first | rfl | cases child
  refine ⟨legal, empty, fun _ => handler, fun c kid => ?_, fun c n left => ?_, fun forks => ?_, catches, ?_, ?_,
    fun c v perm h _ busy => ?_, fun u new => ?_⟩
  · rw [child] at kid
    cases kid
  · rw [todo] at left
    cases left
  · rw [Stage.forks, child] at forks
    exact entry (by simpa using forks)
  · cases at_ : t.stage e <;> rw [at_] at child <;> trivial
  · rw [handler]
    exact bare
  · rw [handler] at busy
    cases busy
  · rw [bare] at new
    cases new

theorem Local.forking (handler : t.handler e = none) (bare : t.vpt (e, ucowPage) = none)
    (legal : ∀ v w, t.vpt (e, v) = some w → cow w = true → writable w = false ∧ library w = false)
    (child : (t.stage e).child = some c) (embryo : t.stage c = .embryo e)
    (ahead : ∀ c n, (t.stage e).todo = some (c, n) → ∀ v, n ≤ v → t.vpt (c, v) = none) (entry : t.tlbModEntry e = true)
    (stage : (t.stage e).Ok t e) : Local t e := by
  refine ⟨legal, fun free => ?_, fun _ => handler, fun c' kid => ?_, ahead, fun _ => entry, fun _ _ _ _ _ => entry, stage, ?_,
    fun c v perm h _ busy => ?_, fun u new => ?_⟩
  · rw [free] at child
    cases child
  · rw [child] at kid
    cases kid
    exact embryo
  · rw [handler]
    exact bare
  · rw [handler] at busy
    cases busy
  · rw [bare] at new
    cases new

theorem Local.interrupted (env : Local s e) (stage : t.stage = s.stage) (entry : t.tlbModEntry = s.tlbModEntry)
    (vpt : ∀ x, x.1 ≠ e → t.vpt x = s.vpt x) (runs : (s.stage e).runs = true)
    (legal : ∀ v w, t.vpt (e, v) = some w → cow w = true →
      writable w = false ∧ library w = false ∧ ∃ v u, s.vpt (e, v) = some u ∧ cow u = true)
    (ok : (s.stage e).Ok t e) (handler : Handler.Ok t e (t.handler e))
    (busy : ∀ c v perm h, s.stage e = .mapChild c v perm → t.handler e = some h → h.page ≠ some v)
    (own : ∀ u, t.vpt (e, ucowPage) = some u → ∀ x w, t.vpt x = some w → ppn w = ppn u → x.1 = e) : Local t e := by
  have away : ∀ c, (s.stage e).child = some c → c ≠ e := by
    rintro c kid rfl
    exact not_embryo runs c (env.child c kid)
  refine ⟨fun v w found isCow => ⟨(legal v w found isCow).1, (legal v w found isCow).2.1⟩, fun free => ?_, fun stopped => ?_,
    fun c kid => ?_, fun c n left v more => ?_, fun forks => ?_, fun _ v w found isCow => ?_, ?_, handler,
    fun c v perm h at_ => busy c v perm h (stage ▸ at_), own⟩
  · rw [← stage, free] at runs
    cases runs
  · rw [stage, runs] at stopped
    cases stopped
  · rw [stage] at kid ⊢
    exact env.child c kid
  · rw [stage] at left
    have kid : (s.stage e).child = some c := by
      cases at_ : s.stage e <;> rw [at_] at left <;> cases left <;> rfl
    rw [vpt (c, v) (away c kid)]
    exact env.ahead c n left v more
  · rw [entry]
    exact env.entry (stage ▸ forks)
  · obtain ⟨-, -, v', u, found', isCow'⟩ := legal v w found isCow
    rw [entry]
    exact env.catches runs v' u found' isCow'
  · rw [stage]
    exact ok

theorem Local.bare (env : Local s e) (idle : s.handler e = none) : s.vpt (e, ucowPage) = none := by
  have ok := env.handler
  rwa [idle] at ok

theorem Local.away (env : Local s e) (runs : (s.stage e).runs = true) (kid : (s.stage e).child = some c) : c ≠ e := by
  rintro rfl
  exact not_embryo runs c (env.child c kid)

theorem runs_of_child (kid : st.child = some c) : st.runs = true := by
  cases st <;> first | rfl | cases kid

theorem forks_of_child (kid : st.child = some c) : st.forks = true := by
  rw [Stage.forks, kid]
  simp

end Envs

/-- A step of `fork` that changes neither pages nor entries. -/
theorem Inv.goto (inv : Inv s m) (idle : s.handler e = none) {old : Stage} (at_ : s.stage e = old) (kid : old.child = some c)
    (child : st.child = some c) (half : st.half = old.half)
    (todo : ∀ c n, st.todo = some (c, n) → ∃ k, old.todo = some (c, k) ∧ k ≤ n) (ok : st.Ok (s.goto e st) e) :
    Inv (s.goto e st) m := by
  subst at_
  have env := inv.env e
  have runs := runs_of_child kid
  have here : (s.goto e st).stage e = st := Function.update_self ..
  have touches : Touches s (s.goto e st) (· = e) :=
    ⟨fun b other => ⟨Function.update_of_ne other .., rfl, rfl⟩, fun x => .inl rfl, fun p => .inl rfl⟩
  refine inv.next touches (closed_self runs) ?_ ?_ inv.below
  · rintro b rfl
    refine .forking (c := c) idle (env.bare idle) env.legal (here.symm ▸ child) ?_ (fun c' n left v more => ?_)
      (env.entry (forks_of_child kid)) (here.symm ▸ ok)
    · exact (Function.update_of_ne (env.away runs kid) ..).trans (env.child c kid)
    · rw [here] at left
      obtain ⟨k, before, less⟩ := todo c' n left
      exact env.ahead c' k before v (less.trans more)
  · have seen : ∀ y, (s.goto e st).seen y = s.seen y := fun y =>
      seen_goto rfl (not_embryo runs) (not_embryo (runs_of_child child)) (passed_same (child.trans kid.symm) half y.1 y.2)
    rw [view_same seen fun _ _ => rfl]
    exact inv.shows

theorem nextPage_child : (nextPage c v).child = some c := by
  unfold nextPage
  split <;> rfl

theorem nextPage_half : (nextPage c v).half = none := by
  unfold nextPage
  split <;> rfl

theorem nextPage_todo : (nextPage c v).todo = some (c, v + 1) := by
  unfold nextPage
  split
  · rename_i last
    show some (c, 1024 * ((v + 1) / 1024)) = _
    rw [Nat.mul_div_cancel' (Nat.dvd_of_mod_eq_zero last)]
  · rfl

theorem nextPage_ok (s : State) (e : EnvPtr) : (nextPage c v).Ok s e := by
  unfold nextPage
  split <;> trivial

theorem Inv.scans (inv : Inv s m) (idle : s.handler e = none) (h : forkStep e s = some t)
    (scan : (∃ c i, s.stage e = .region c i) ∨ (∃ c v, s.stage e = .page c v) ∨ ∃ c v, s.stage e = .duppage c v) : Inv t m := by
  have env := inv.env e
  unfold forkStep at h
  rcases scan with ⟨c, i, at_⟩ | ⟨c, v, at_⟩ | ⟨c, v, at_⟩
  · rw [at_] at h
    dsimp only at h
    split at h
    · cases h
      exact inv.goto idle at_ rfl rfl rfl nofun trivial
    · split at h
      · cases h
        exact inv.goto idle at_ rfl rfl rfl (fun c' n left => ⟨n, left, le_refl n⟩) trivial
      · cases h
        refine inv.goto idle at_ rfl rfl rfl (fun c' n left => ⟨1024 * i, ?_⟩) trivial
        cases left
        exact ⟨rfl, by omega⟩
  · rw [at_] at h
    dsimp only at h
    split at h
    · cases h
      refine inv.goto idle at_ rfl rfl rfl (fun c' n left => ⟨v, ?_⟩) trivial
      cases left
      exact ⟨rfl, by omega⟩
    · split at h
      · rename_i _ mapped
        cases h
        obtain ⟨w, found⟩ := Option.isSome_iff_exists.mp mapped
        refine inv.goto idle at_ rfl rfl rfl (fun c' n left => ⟨n, left, le_refl n⟩) ⟨?_, w, found⟩
        rintro rfl
        rw [env.bare idle] at found
        cases found
      · cases h
        refine inv.goto idle at_ rfl nextPage_child nextPage_half (fun c' n left => ⟨v, ?_⟩) (nextPage_ok _ e)
        rw [nextPage_todo] at left
        cases left
        exact ⟨rfl, by omega⟩
  · rw [at_] at h
    cases h
    have ok := env.stage
    rw [at_] at ok
    obtain ⟨page, w, found⟩ := ok
    refine inv.goto idle at_ rfl rfl rfl (fun c' n left => ⟨n, left, le_refl n⟩) ⟨page, w, found, ?_⟩
    rw [State.perm, found]
    rfl

theorem Inv.maps (inv : Inv s m) (idle : s.handler e = none) {old : Stage} (at_ : s.stage e = old) (kid : old.child = some c)
    (child : st.child = some c) (mine : b = e ∨ b = c) (page : v ≠ ucowPage) (found : s.vpt (e, v) = some w)
    (frame : ppn u = ppn w) (legal : cow u = true → writable u = false ∧ library u = false)
    (stage : t.stage = Function.update s.stage e st) (handler : t.handler = s.handler) (entry : t.tlbModEntry = s.tlbModEntry)
    (vpt : t.vpt = Function.update s.vpt (b, v) (some u)) (mem : t.mem = s.mem)
    (ahead : ∀ c n, st.todo = some (c, n) → ∀ v', n ≤ v' → t.vpt (c, v') = none) (ok : st.Ok t e)
    (shows : CopyOnWrite.Shows (view t) s.mem m'.cell m'.data) (below : ∀ x c, m'.cell x = some c → c < m'.next) : Inv t m' := by
  subst at_
  have env := inv.env e
  have runs := runs_of_child kid
  have away := env.away runs kid
  have embryo := env.child c kid
  have here : t.stage e = st := by rw [stage, Function.update_self]
  have there : t.stage c = .embryo e := by rw [stage, Function.update_of_ne away, embryo]
  have pte : ∀ a v' w', t.vpt (a, v') = some w' → w' = u ∨ s.vpt (a, v') = some w' := by
    intro a v' w' now
    rw [vpt] at now
    by_cases same : (a, v') = (b, v)
    · rw [same, Function.update_self] at now
      exact .inl (Option.some.inj now).symm
    · rw [Function.update_of_ne same] at now
      exact .inr now
  have bare : ∀ a, s.vpt (a, ucowPage) = none → t.vpt (a, ucowPage) = none := by
    intro a none
    rw [vpt, Function.update_of_ne fun eq => page (Prod.mk.inj eq).2.symm]
    exact none
  have legal' : ∀ a v' w', t.vpt (a, v') = some w' → cow w' = true → writable w' = false ∧ library w' = false := by
    intro a v' w' now
    rcases pte a v' w' now with rfl | before
    · exact legal
    · exact (inv.env a).legal v' w' before
  have touches : Touches s t fun a => a = e ∨ a = c := by
    refine ⟨fun a other => ⟨?_, by rw [handler], by rw [entry]⟩, fun x => ?_, fun p => .inl (by rw [mem])⟩
    · rw [stage, Function.update_of_ne fun eq => other (.inl eq)]
    · rw [vpt]
      by_cases same : x = (b, v)
      · subst same
        refine .inr ⟨mine, fun w' now => .inl ⟨(e, v), w, .inl rfl, found, ?_⟩⟩
        rw [Function.update_self] at now
        rw [← Option.some.inj now, frame]
      · exact .inl (Function.update_of_ne same ..)
  refine inv.next touches (fun a p act parent => ?_) (fun a act => ?_) (mem ▸ shows) below
  · rcases act with rfl | rfl
    · exact absurd parent (not_embryo runs p)
    · rw [embryo] at parent
      exact .inl (Stage.embryo.inj parent).symm
  · rcases act with rfl | rfl
    · exact .forking (c := c) (handler ▸ idle) (bare a (env.bare idle)) (legal' a) (here.symm ▸ child) there (here.symm ▸ ahead)
        (entry ▸ env.entry (forks_of_child kid)) (here.symm ▸ ok)
    · have waits : s.handler a = none := (inv.env a).idle (by rw [embryo]; rfl)
      refine .plain (handler ▸ waits) (bare a ((inv.env a).bare waits)) (legal' a) (fun free => ?_) (by rw [there]; rfl)
        (fun at_ => ?_) fun runs => ?_
      · rw [there] at free
        cases free
      · rw [there] at at_
        cases at_
      · rw [there] at runs
        cases runs

theorem below_update {k : Nat} (below : ∀ x c, m.cell x = some c → c < k) (small : i < k) :
    ∀ y c, Function.update m.cell x (some i) y = some c → c < k := by
  intro y c found
  by_cases same : y = x
  · rw [same, Function.update_self] at found
    rw [← Option.some.inj found]
    exact small
  · rw [Function.update_of_ne same] at found
    exact below y c found

theorem below_create {page : Contents} (below : ∀ x c, m.cell x = some c → c < m.next) :
    ∀ y c, (m.create x page).cell y = some c → c < (m.create x page).next :=
  below_update (fun y c found => (below y c found).trans (Nat.lt_succ_self _)) (Nat.lt_succ_self _)

theorem Inv.new_cell (inv : Inv s m) (x : Slot) : m.cell x ≠ some m.next := fun found =>
  absurd (inv.below x m.next found) (Nat.lt_irrefl _)

/-- What `duppage` knows of the page that it maps. -/
structure Passing (s : State) (m : Copies) (e c : EnvPtr) (v : Nat) (perm w : Word) (d : Nat) : Prop where
  page : v ≠ ucowPage
  found : s.vpt (e, v) = some w
  flags : perm = pteFlags w
  embryo : s.stage c = .embryo e
  away : c ≠ e
  cell : CopyOnWrite.At (view s) m.cell (e, v) (entryOf w) d

namespace Passing

variable {d : Nat} (passing : Passing s m e c v perm w d)
include passing

theorem bits : library perm = library w ∧ cow perm = cow w ∧ writable perm = writable w := by
  rw [passing.flags, library_pteFlags, cow_pteFlags, writable_pteFlags]
  exact ⟨rfl, rfl, rfl⟩

theorem flagBits : FlagBits perm := passing.flags ▸ flagBits_pteFlags w

theorem copied (inv : Inv s m) (own : library w = false) (shows : CopyOnWrite.Shows (Function.update (view s) (e, v) (some
    ⟨ppn w, false, library w⟩)) s.mem m.cell m.data) (frame : ppn u = ppn w) (sealed : writable u = false) (alone : library u = false) :
    CopyOnWrite.Shows (Function.update (Function.update (view s) (e, v) (some ⟨ppn w, false, library w⟩)) (c, v) (some (entryOf u)))
      s.mem (m.copy (e, v) (c, v)).cell (m.copy (e, v) (c, v)).data := by
  unfold Copies.copy
  rw [passing.cell.2]
  have here : CopyOnWrite.At (Function.update (view s) (e, v) (some ⟨ppn w, false, library w⟩)) m.cell (e, v)
      ⟨ppn w, false, library w⟩ d := ⟨Function.update_self .., passing.cell.2⟩
  refine (shows.unused inv.new_cell (m.data d)).copy here own rfl frame sealed alone (fun eq => passing.away (Prod.mk.inj eq).1)
    inv.new_cell ?_
  rw [Function.update_self, Function.update_of_ne fun eq => inv.new_cell (e, v) (passing.cell.2.trans (congrArg some eq))]

theorem below_copy (inv : Inv s m) : ∀ y k, (m.copy (e, v) (c, v)).cell y = some k → k < (m.copy (e, v) (c, v)).next := by
  unfold Copies.copy
  rw [passing.cell.2]
  exact below_create inv.below

end Passing

theorem Inv.passing (inv : Inv s m) (page : v ≠ ucowPage) (found : s.vpt (e, v) = some w) (flags : perm = pteFlags w)
    (kid : (s.stage e).child = some c) : ∃ d, Passing s m e c v perm w d := by
  have env := inv.env e
  have runs := runs_of_child kid
  have here : s.seen (e, v) = true := (seen_born (not_embryo runs)).trans (bne_iff_ne.mpr page)
  obtain ⟨d, cell⟩ := inv.shows.cell_of (view_of here found)
  exact ⟨d, page, found, flags, env.child c kid, env.away runs kid, cell⟩

theorem ahead_next (env : Local s e) {old : Stage} (at_ : s.stage e = old) (todo : old.todo = some (c, i)) (less : i ≤ v + 1)
    (left : st.todo = some (c, v + 1)) (vpt : ∀ v', v < v' → t.vpt (c, v') = s.vpt (c, v')) :
    ∀ c n, st.todo = some (c, n) → ∀ v', n ≤ v' → t.vpt (c, v') = none := by
  intro c' n now v' more
  rw [left] at now
  cases now
  rw [vpt v' more]
  exact env.ahead c i (at_.symm ▸ todo) v' (less.trans more)

theorem Inv.passOn {d : Nat} (inv : Inv s m) (idle : s.handler e = none) (at_ : s.stage e = .mapChild c v perm)
    (passing : Passing s m e c v perm w d) (passes : passedOn perm) :
    Inv ((s.setPte (c, v) (pteOf (ppn w) perm)).goto e (nextPage c v)) (forkMeaning e s m) := by
  have env := inv.env e
  have runs : (s.stage e).runs = true := by rw [at_]; rfl
  obtain ⟨lib, isCow, writes⟩ := passing.bits
  have frame : ppn (pteOf (ppn w) perm) = ppn w := ppn_pteOf (ppn_small w) passing.flagBits
  have entry : entryOf (pteOf (ppn w) perm) = entryOf w := by
    rw [entryOf, entryOf, frame, writable_pteOf, library_pteOf, writes, lib]
  have legal := env.legal v w passing.found
  have there : s.seen (c, v) = true := by
    rw [seen_embryo passing.embryo, Stage.passed, at_]
    simpa [Stage.child, Stage.half] using passing.page
  have shown : view ((s.setPte (c, v) (pteOf (ppn w) perm)).goto e (nextPage c v)) =
      Function.update (view s) (c, v) (some (entryOf w)) := by
    refine (view_update (fun y => ?_) there rfl).trans (by rw [Option.map_some, entry])
    refine seen_goto rfl (not_embryo runs) (not_embryo (runs_of_child nextPage_child)) (passed_same ?_ ?_ y.1 y.2)
    · rw [nextPage_child, at_]
      rfl
    · rw [nextPage_half, at_]
      rfl
  refine inv.maps idle at_ rfl nextPage_child (.inr rfl) passing.page passing.found frame ?_ rfl rfl rfl rfl rfl
    (ahead_next env at_ rfl (Nat.le_succ v) nextPage_todo fun v' more => ?_) (nextPage_ok _ e) ?_ ?_
  · rw [cow_pteOf, writable_pteOf, library_pteOf, isCow, writes, lib]
    exact legal
  · exact Function.update_of_ne (fun eq => (Nat.ne_of_gt more) (Prod.mk.inj eq).2) ..
  · rw [shown]
    unfold forkMeaning
    rw [at_]
    dsimp only
    split
    · rename_i common
      have common : library w = true := by
        rw [← lib]
        exact bne_iff_ne.mpr common
      unfold Copies.share
      rw [passing.cell.2]
      exact inv.shows.share passing.cell common rfl common
    · rename_i none
      have own : library w = false := by
        rw [← lib, library, bne_eq_false_iff_eq]
        exact not_not.mp none
      have closed : writable w = false := by
        rcases passedOn_iff.mp passes with dry | shared | copied
        · exact writes.symm.trans dry
        · rw [lib, own] at shared
          cases shared
        · exact (legal (isCow.symm.trans copied)).1
      have same : Function.update (view s) (e, v) (some ⟨ppn w, false, library w⟩) = view s := by
        rw [← closed]
        exact (congrArg _ passing.cell.1.symm).trans (Function.update_eq_self ..)
      have copied := passing.copied inv own (same.symm ▸ inv.shows) rfl closed own
      rwa [same] at copied
  · unfold forkMeaning
    rw [at_]
    dsimp only
    split
    · unfold Copies.share
      rw [passing.cell.2]
      exact below_update inv.below (inv.below _ _ passing.cell.2)
    · exact passing.below_copy inv

theorem Inv.mapFirst {d : Nat} (inv : Inv s m) (idle : s.handler e = none) (at_ : s.stage e = .mapChild c v perm)
    (passing : Passing s m e c v perm w d) (keeps : ¬ passedOn perm) :
    Inv ((s.setPte (c, v) (pteOf (ppn w) (cowPerm perm))).goto e (.mapSelf c v perm)) (forkMeaning e s m) := by
  have env := inv.env e
  have runs : (s.stage e).runs = true := by rw [at_]; rfl
  have absent : s.vpt (c, v) = none := env.ahead c v (by rw [at_]; rfl) v (le_refl v)
  obtain ⟨lib, -, -⟩ := passing.bits
  have common : library perm = false := by
    rw [passedOn_iff, not_or, not_or] at keeps
    simpa using keeps.2.1
  have none : ¬ perm &&& pteLibrary ≠ 0 := by
    rw [library, bne_eq_false_iff_eq] at common
    exact not_not.mpr common
  have meant : forkMeaning e s m = m := by
    unfold forkMeaning
    rw [at_]
    exact (if_neg none).trans (if_neg keeps)
  rw [meant]
  refine inv.maps idle at_ rfl rfl (.inr rfl) passing.page passing.found
    (ppn_pteOf (ppn_small w) (flagBits_cowPerm passing.flagBits)) (fun _ => ?_) rfl rfl rfl rfl rfl
    (ahead_next env at_ rfl (Nat.le_succ v) rfl fun v' more => ?_) ⟨passing.page, w, ?_, passing.flags, keeps, ?_⟩ ?_ inv.below
  · rw [writable_pteOf, library_pteOf, writable_cowPerm, library_cowPerm]
    exact ⟨rfl, common⟩
  · exact Function.update_of_ne (fun eq => (Nat.ne_of_gt more) (Prod.mk.inj eq).2) ..
  · exact (Function.update_of_ne (fun eq => passing.away (Prod.mk.inj eq).1.symm) ..).trans passing.found
  · exact Function.update_self ..
  · refine Eq.subst ?_ inv.shows (motive := fun a => CopyOnWrite.Shows a s.mem m.cell m.data)
    funext y
    by_cases same : y = (c, v)
    · subst same
      have hidden : ((s.setPte (c, v) (pteOf (ppn w) (cowPerm perm))).goto e (.mapSelf c v perm)).seen (c, v) = false := by
        rw [seen_embryo (p := e) ((Function.update_of_ne passing.away ..).trans passing.embryo)]
        show (_ && (Function.update s.stage e (Stage.mapSelf c v perm) e).passed c v) = false
        rw [Function.update_self]
        simp [Stage.passed, Stage.half]
      unfold view
      rw [hidden, absent, Option.map_none, ite_self]
      rfl
    · have seen : ((s.setPte (c, v) (pteOf (ppn w) (cowPerm perm))).goto e (.mapSelf c v perm)).seen y = s.seen y := by
        refine seen_goto rfl (not_embryo runs) (not_embryo rfl) ?_
        rw [at_, passed_half same]
        exact (passed_whole rfl rfl y.1 y.2).symm
      have vpt : ((s.setPte (c, v) (pteOf (ppn w) (cowPerm perm))).goto e (.mapSelf c v perm)).vpt y = s.vpt y :=
        Function.update_of_ne same ..
      unfold view
      rw [seen, vpt]

theorem Inv.mapAgain {d : Nat} (inv : Inv s m) (idle : s.handler e = none) (at_ : s.stage e = .mapSelf c v perm)
    (passing : Passing s m e c v perm w d) (keeps : ¬ passedOn perm)
    (there : s.vpt (c, v) = some (pteOf (ppn w) (cowPerm perm))) :
    Inv ((s.setPte (e, v) (pteOf (ppn w) (cowPerm perm))).goto e (nextPage c v)) (forkMeaning e s m) := by
  have env := inv.env e
  have runs : (s.stage e).runs = true := by rw [at_]; rfl
  have frame : ppn (pteOf (ppn w) (cowPerm perm)) = ppn w := ppn_pteOf (ppn_small w) (flagBits_cowPerm passing.flagBits)
  obtain ⟨lib, -, -⟩ := passing.bits
  have common : library w = false := by
    rw [passedOn_iff, not_or, not_or, lib] at keeps
    simpa using keeps.2.1
  have meant : forkMeaning e s m = m.copy (e, v) (c, v) := by
    unfold forkMeaning
    rw [at_]
  have entry : entryOf (pteOf (ppn w) (cowPerm perm)) = ⟨ppn w, false, library w⟩ := by
    rw [entryOf, frame, writable_pteOf, writable_cowPerm, library_pteOf, library_cowPerm, lib]
  have alone : library (pteOf (ppn w) (cowPerm perm)) = false := by
    rw [library_pteOf, library_cowPerm, lib, common]
  have dry : writable (pteOf (ppn w) (cowPerm perm)) = false := by
    rw [writable_pteOf, writable_cowPerm]
  rw [meant]
  refine inv.maps idle at_ rfl nextPage_child (.inl rfl) passing.page passing.found frame (fun _ => ⟨dry, alone⟩) rfl rfl rfl rfl rfl
    (ahead_next env at_ rfl (le_refl (v + 1)) nextPage_todo fun v' more => ?_) (nextPage_ok _ e) ?_ (passing.below_copy inv)
  · exact Function.update_of_ne (fun eq => passing.away (Prod.mk.inj eq).1) ..
  · have closed := inv.shows.close passing.cell (b := ⟨ppn w, false, library w⟩) rfl rfl rfl
    refine Eq.subst ?_ (passing.copied inv common closed frame dry alone)
      (motive := fun a => CopyOnWrite.Shows a s.mem (m.copy (e, v) (c, v)).cell (m.copy (e, v) (c, v)).data)
    funext y
    have seen : y ≠ (c, v) → ((s.setPte (e, v) (pteOf (ppn w) (cowPerm perm))).goto e (nextPage c v)).seen y = s.seen y := by
      intro ne
      refine seen_goto rfl (not_embryo runs) (not_embryo (runs_of_child nextPage_child)) ?_
      rw [at_, passed_half ne]
      exact passed_whole nextPage_child nextPage_half y.1 y.2
    by_cases child : y = (c, v)
    · subst child
      have shown : ((s.setPte (e, v) (pteOf (ppn w) (cowPerm perm))).goto e (nextPage c v)).seen (c, v) = true := by
        rw [seen_embryo (p := e) ((Function.update_of_ne passing.away ..).trans passing.embryo)]
        show (_ && (Function.update s.stage e (nextPage c v) e).passed c v) = true
        rw [Function.update_self, Stage.passed, nextPage_child, nextPage_half]
        simpa using passing.page
      rw [Function.update_self]
      refine (view_of shown ?_).symm
      exact (Function.update_of_ne (fun eq => passing.away (Prod.mk.inj eq).1) ..).trans there
    · rw [Function.update_of_ne child]
      unfold view
      rw [seen child]
      by_cases mine : y = (e, v)
      · subst mine
        have here : s.seen (e, v) = true := (seen_born (not_embryo runs)).trans (bne_iff_ne.mpr passing.page)
        have now : ((s.setPte (e, v) (pteOf (ppn w) (cowPerm perm))).goto e (nextPage c v)).vpt (e, v) =
            some (pteOf (ppn w) (cowPerm perm)) := Function.update_self ..
        rw [Function.update_self, now, if_pos here, Option.map_some, entry]
      · have vpt : ((s.setPte (e, v) (pteOf (ppn w) (cowPerm perm))).goto e (nextPage c v)).vpt y = s.vpt y :=
          Function.update_of_ne mine ..
        rw [Function.update_of_ne mine, vpt]

theorem Inv.duppage (inv : Inv s m) (idle : s.handler e = none) (h : forkStep e s = some t)
    (at_ : (∃ c v perm, s.stage e = .mapChild c v perm) ∨ ∃ c v perm, s.stage e = .mapSelf c v perm) : Inv t (forkMeaning e s m) := by
  have ok := (inv.env e).stage
  rcases at_ with ⟨c, v, perm, at_⟩ | ⟨c, v, perm, at_⟩
  · rw [at_] at ok
    obtain ⟨page, w, found, flags⟩ := ok
    obtain ⟨d, passing⟩ := inv.passing page found flags (c := c) (by rw [at_]; rfl)
    unfold forkStep at h
    rw [at_] at h
    dsimp only [State.sysMemMap] at h
    rw [found, Option.map_some, Option.map_some] at h
    split at h
    · rename_i passes
      cases h
      exact inv.passOn idle at_ passing passes
    · rename_i keeps
      cases h
      exact inv.mapFirst idle at_ passing keeps
  · rw [at_] at ok
    obtain ⟨page, w, found, flags, keeps, there⟩ := ok
    obtain ⟨d, passing⟩ := inv.passing page found flags (c := c) (by rw [at_]; rfl)
    unfold forkStep at h
    rw [at_] at h
    dsimp only [State.sysMemMap] at h
    rw [found, Option.map_some] at h
    cases h
    exact inv.mapAgain idle at_ passing keeps there

theorem Inv.setsEntry (inv : Inv s m) (idle : s.handler e = none) (at_ : s.stage e = .setEntry c) :
    Inv ((s.setEntry c true).goto e (.setStatus c)) m := by
  have env := inv.env e
  have kid : (s.stage e).child = some c := by rw [at_]; rfl
  have runs := runs_of_child kid
  have away := env.away runs kid
  have embryo := env.child c kid
  have waits : s.handler c = none := (inv.env c).idle (by rw [embryo]; rfl)
  let t := (s.setEntry c true).goto e (.setStatus c)
  have here : t.stage e = .setStatus c := Function.update_self ..
  have there : t.stage c = .embryo e := (Function.update_of_ne away ..).trans embryo
  have touches : Touches s t fun a => a = e ∨ a = c :=
    ⟨fun a other => ⟨Function.update_of_ne (fun eq => other (.inl eq)) .., rfl, Function.update_of_ne (fun eq => other (.inr eq)) ..⟩,
      fun x => .inl rfl, fun p => .inl rfl⟩
  refine inv.next touches (fun a p act parent => ?_) (fun a act => ?_) ?_ inv.below
  · rcases act with rfl | rfl
    · exact absurd parent (not_embryo runs p)
    · rw [embryo] at parent
      exact .inl (Stage.embryo.inj parent).symm
  · rcases act with rfl | rfl
    · refine .forking (c := c) idle (env.bare idle) env.legal (by rw [here]; rfl) there (by rw [here]; nofun) ?_ ?_
      · exact (Function.update_of_ne (Ne.symm away) ..).trans (env.entry (forks_of_child kid))
      · rw [here]
        exact Function.update_self ..
    · refine .plain waits ((inv.env a).bare waits) (inv.env a).legal ?_ (by rw [there]; rfl) ?_ ?_
      · rw [there]
        nofun
      · rw [there]
        nofun
      · rw [there]
        nofun
  · have seen : ∀ y, t.seen y = s.seen y := fun y => by
      refine seen_goto rfl (not_embryo runs) nofun (passed_same ?_ ?_ y.1 y.2)
      · rw [at_]
        rfl
      · rw [at_]
        rfl
    rw [view_same seen fun _ _ => rfl]
    exact inv.shows

theorem Inv.setsStatus (inv : Inv s m) (idle : s.handler e = none) (at_ : s.stage e = .setStatus c) :
    Inv ((s.goto c .user).goto e .user) m := by
  have env := inv.env e
  have kid : (s.stage e).child = some c := by rw [at_]; rfl
  have runs := runs_of_child kid
  have away := env.away runs kid
  have embryo := env.child c kid
  have waits : s.handler c = none := (inv.env c).idle (by rw [embryo]; rfl)
  have set : s.tlbModEntry c = true := by
    have ok := env.stage
    rwa [at_] at ok
  let t := (s.goto c .user).goto e .user
  have here : t.stage e = .user := Function.update_self ..
  have there : t.stage c = .user := (Function.update_of_ne away ..).trans (Function.update_self ..)
  have others : ∀ a, a ≠ e → a ≠ c → t.stage a = s.stage a := fun a first second =>
    (Function.update_of_ne first ..).trans (Function.update_of_ne second ..)
  have touches : Touches s t fun a => a = e ∨ a = c :=
    ⟨fun a other => ⟨others a (fun eq => other (.inl eq)) fun eq => other (.inr eq), rfl, rfl⟩, fun x => .inl rfl, fun p => .inl rfl⟩
  refine inv.next touches (fun a p act parent => ?_) (fun a act => ?_) ?_ inv.below
  · rcases act with rfl | rfl
    · exact absurd parent (not_embryo runs p)
    · rw [embryo] at parent
      exact .inl (Stage.embryo.inj parent).symm
  · have plain : ∀ a, s.handler a = none → t.stage a = .user → s.tlbModEntry a = true → Local t a := by
      intro a quiet user entry
      refine .plain quiet ((inv.env a).bare quiet) (inv.env a).legal ?_ (by rw [user]; rfl) ?_ fun _ _ _ _ _ => entry
      · rw [user]
        nofun
      · rw [user]
        nofun
    rcases act with rfl | rfl
    · exact plain a idle here (env.entry (forks_of_child kid))
    · exact plain a waits there set
  · refine Eq.subst ?_ inv.shows (motive := fun a => CopyOnWrite.Shows a s.mem m.cell m.data)
    symm
    refine view_same (fun y => ?_) fun _ _ => rfl
    by_cases child : y.1 = c
    · rw [seen_born (s := t) fun p => by rw [child, there]; nofun, seen_embryo (p := e) (child ▸ embryo), at_,
        passed_whole (c := c) rfl rfl, child, beq_self_eq_true, Bool.and_true]
    · by_cases mine : y.1 = e
      · rw [seen_born (s := t) fun p => by rw [mine, here]; nofun, seen_born fun p => mine ▸ not_embryo runs p]
      · have same := others y.1 mine child
        cases stage : s.stage y.1 with
        | embryo p =>
          rw [seen_embryo (same.trans stage), seen_embryo stage]
          -- the child is nobody's parent, and `e` is the parent of `c` alone
          by_cases first : p = e
          · have gone : (Stage.setStatus c).passed y.1 y.2 = false :=
              (passed_whole rfl rfl y.1 y.2).trans (beq_eq_false_iff_ne.mpr fun eq => child eq.symm)
            rw [first, here, at_, gone]
            rfl
          · by_cases second : p = c
            · rw [second, there, embryo]
              rfl
            · rw [others p first second]
        | _ =>
          rw [seen_born (s := t) fun p => by rw [same, stage]; nofun, seen_born fun p => by rw [stage]; nofun]

theorem Inv.forkStep (inv : Inv s m) (idle : s.handler e = none) (h : forkStep e s = some t) : Inv t (forkMeaning e s m) := by
  have quiet : (∀ c v perm, s.stage e ≠ .mapChild c v perm) → (∀ c v perm, s.stage e ≠ .mapSelf c v perm) → forkMeaning e s m = m := by
    intro first second
    unfold forkMeaning
    cases at_ : s.stage e with
    | mapChild c v perm => exact absurd at_ (first c v perm)
    | mapSelf c v perm => exact absurd at_ (second c v perm)
    | _ => rfl
  cases at_ : s.stage e with
  | region c i =>
    rw [quiet (by rw [at_]; nofun) (by rw [at_]; nofun)]
    exact inv.scans idle h (.inl ⟨c, i, at_⟩)
  | page c v =>
    rw [quiet (by rw [at_]; nofun) (by rw [at_]; nofun)]
    exact inv.scans idle h (.inr (.inl ⟨c, v, at_⟩))
  | duppage c v =>
    rw [quiet (by rw [at_]; nofun) (by rw [at_]; nofun)]
    exact inv.scans idle h (.inr (.inr ⟨c, v, at_⟩))
  | mapChild c v perm => exact inv.duppage idle h (.inl ⟨c, v, perm, at_⟩)
  | mapSelf c v perm => exact inv.duppage idle h (.inr ⟨c, v, perm, at_⟩)
  | setEntry c =>
    rw [quiet (by rw [at_]; nofun) (by rw [at_]; nofun)]
    unfold Cow.forkStep at h
    rw [at_] at h
    cases h
    exact inv.setsEntry idle at_
  | setStatus c =>
    rw [quiet (by rw [at_]; nofun) (by rw [at_]; nofun)]
    unfold Cow.forkStep at h
    rw [at_] at h
    cases h
    exact inv.setsStatus idle at_
  | _ =>
    unfold Cow.forkStep at h
    rw [at_] at h
    cases h

end Mos.Cow
