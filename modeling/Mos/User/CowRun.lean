import Mos.User.CowFault
import Mos.User.CowPass

namespace Mos.Cow

variable {s t : State} {m : Copies} {e c : EnvPtr} {x y : Slot} {w u : Word} {v : Nat}

/-- What a step needs of the kernel and of the env's own code. A page that `page_alloc` gives is mapped nowhere. Nobody else
    uses the page at `UCOW`, makes a page copy-on-write or maps one twice that is not meant to be shared. Between the reading
    of a page's flags and its first mapping in `duppage`, no store of the env faults in this page. -/
def Guard (s : State) : Op → Prop
  | .store e v _ _ => v ≠ ucowPage ∧ ∀ c perm w, s.stage e = .mapChild c v perm → s.vpt (e, v) = some w → writable w = true
  | .refill _ v pp => v ≠ ucowPage ∧ pp < 2 ^ 20 ∧ Unmapped s pp
  | .memAlloc _ v perm pp => v ≠ ucowPage ∧ FlagBits perm ∧ cow perm = false ∧ pp < 2 ^ 20 ∧ Unmapped s pp
  | .memMap e v v' perm => v ≠ ucowPage ∧ v' ≠ ucowPage ∧ FlagBits perm ∧ cow perm = false ∧ library perm = true ∧
      ∀ w, s.vpt (e, v) = some w → library w = true
  | .memUnmap _ v => v ≠ ucowPage
  | .cowEntry e pp => ∀ v perm, s.handler e = some (.alloc v perm) → pp < 2 ^ 20 ∧ Unmapped s pp
  | _ => True

theorem Inv.store {i : Fin 4096} {b : BitVec 8} (inv : Inv s m) (meets : Guard s (.store e v i b)) (h : step s (.store e v i b) = some t) :
    Inv t (meaning s m (.store e v i b)) := by
  obtain ⟨page, calm⟩ := meets
  simp only [step] at h
  split at h
  · rename_i runs
    unfold Cow.store at h
    cases found : s.vpt (e, v) with
    | none =>
      rw [found] at h
      cases h
    | some w =>
      have meant : meaning s m (.store e v i b) = if w &&& pteD ≠ 0 then m.store (e, v) i b else m := by
        simp only [meaning, found, Option.getD_some]
      rw [found] at h
      rw [meant]
      dsimp only at h
      split at h
      · rename_i dirty
        cases h
        rw [if_pos dirty]
        exact inv.write runs page found (bne_iff_ne.mpr dirty)
      · rename_i dry
        rw [if_neg dry]
        have dry : writable w = false := by
          rw [writable, bne_eq_false_iff_eq]
          exact not_not.mp dry
        split at h
        · rename_i free
          cases h
          refine inv.fault runs free.1 page found dry fun c perm at_ => ?_
          have wet := calm c perm w at_ found
          rw [dry] at wet
          cases wet
        · cases h
  · cases h

theorem Inv.becomes {st : Stage} (inv : Inv s m) (born : ∀ p, s.stage e ≠ .embryo p) (born' : ∀ p, st ≠ .embryo p)
    (childless : (s.stage e).child = none) (child : st.child = none) (idle : s.handler e = none)
    (stage : t.stage = Function.update s.stage e st) (handler : t.handler = s.handler)
    (entry : ∀ b, b ≠ e → t.tlbModEntry b = s.tlbModEntry b) (vpt : t.vpt = s.vpt) (mem : t.mem = s.mem) (used : st ≠ .free)
    (forks : st = .exofork → t.tlbModEntry e = true)
    (catches : st.runs = true → ∀ v w, s.vpt (e, v) = some w → cow w = true → t.tlbModEntry e = true) : Inv t m := by
  have env := inv.env e
  have here : t.stage e = st := by rw [stage, Function.update_self]
  have touches : Touches s t (· = e) := by
    refine ⟨fun b other => ⟨?_, by rw [handler], entry b other⟩, fun x => .inl (by rw [vpt]), fun p => .inl (by rw [mem])⟩
    rw [stage, Function.update_of_ne other]
  have half : ∀ {st : Stage}, st.child = none → st.half = none := by
    intro st none
    cases st <;> first | rfl | cases none
  refine inv.next touches (closed_alone born) ?_ ?_ inv.below
  · rintro b rfl
    refine .plain (handler ▸ idle) (vpt ▸ env.bare idle) (vpt ▸ env.legal) (fun free => absurd (here.symm.trans free) used)
      (here.symm ▸ child) (here.symm ▸ forks) ?_
    rw [here, vpt]
    exact catches
  · have seen : ∀ y, t.seen y = s.seen y := fun y =>
      seen_goto stage born born' (passed_same (child.trans childless.symm) ((half child).trans (half childless).symm) y.1 y.2)
    rw [view_same seen fun _ _ => by rw [vpt], mem]
    exact inv.shows

theorem Inv.exofork (inv : Inv s m) (at_ : s.stage e = .exofork) (idle : s.handler e = none) (free : s.stage c = .free) :
    Inv (((s.setEntry c false).goto c (.embryo e)).goto e (.region c 0)) m := by
  have env := inv.env e
  have away : c ≠ e := by
    rintro rfl
    rw [at_] at free
    cases free
  have born : ∀ a, a = e ∨ a = c → ∀ p, s.stage a ≠ .embryo p := by
    rintro a (rfl | rfl) p
    · rw [at_]
      nofun
    · rw [free]
      nofun
  let t := ((s.setEntry c false).goto c (.embryo e)).goto e (.region c 0)
  have here : t.stage e = .region c 0 := Function.update_self ..
  have there : t.stage c = .embryo e := (Function.update_of_ne away ..).trans (Function.update_self ..)
  have others : ∀ a, a ≠ e → a ≠ c → t.stage a = s.stage a := fun a first second =>
    (Function.update_of_ne first ..).trans (Function.update_of_ne second ..)
  have bare := (inv.env c).empty free
  have waits : s.handler c = none := (inv.env c).idle (by rw [free]; rfl)
  have touches : Touches s t fun a => a = e ∨ a = c :=
    ⟨fun a other => ⟨others a (fun eq => other (.inl eq)) fun eq => other (.inr eq), rfl,
      Function.update_of_ne (fun eq => other (.inr eq)) ..⟩, fun x => .inl rfl, fun p => .inl rfl⟩
  refine inv.next touches (fun a p act embryo => absurd embryo (born a act p)) (fun a act => ?_) ?_ inv.below
  · rcases act with rfl | rfl
    · refine .forking (c := c) idle (env.bare idle) env.legal (by rw [here]; rfl) there (fun c' n left v _ => ?_) ?_ ?_
      · rw [here] at left
        cases left
        exact bare v
      · exact (Function.update_of_ne (Ne.symm away) ..).trans (env.entry (by rw [at_]; rfl))
      · rw [here]
        trivial
    · refine .plain waits (bare ucowPage) (inv.env a).legal (fun _ => bare) (by rw [there]; rfl) ?_ ?_
      · rw [there]
        nofun
      · rw [there]
        nofun
  · refine inv.shows.drop fun y => .inl ⟨?_, rfl⟩
    by_cases child : y.1 = c
    · -- there are no pages of the child yet
      have empty : s.vpt y = none := by
        rw [show y = (c, y.2) from Prod.ext child rfl]
        exact bare y.2
      unfold view
      rw [empty, show t.vpt y = none from empty, Option.map_none, ite_self, ite_self]
    · have same : t.seen y = s.seen y := by
        by_cases mine : y.1 = e
        · rw [seen_born (s := t) fun p => by rw [mine, here]; nofun, seen_born fun p => mine ▸ born e (.inl rfl) p]
        · have same := others y.1 mine child
          cases stage : s.stage y.1 with
          | embryo p =>
            rw [seen_embryo (same.trans stage), seen_embryo stage]
            by_cases first : p = e
            · have gone : (Stage.region c 0).passed y.1 y.2 = false :=
                (passed_whole rfl rfl y.1 y.2).trans (beq_eq_false_iff_ne.mpr fun eq => child eq.symm)
              rw [first, here, at_, gone]
              rfl
            · by_cases second : p = c
              · rw [second, there, free]
                rfl
              · rw [others p first second]
          | _ =>
            rw [seen_born (s := t) fun p => by rw [same, stage]; nofun, seen_born fun p => by rw [stage]; nofun]
      unfold view
      rw [same]
      rfl

theorem Inv.reap (inv : Inv s m) (at_ : s.stage e = .dead) (h : step s (.reap e) = some t) : Inv t (m.dropEnv e) := by
  simp only [step] at h
  rw [if_pos at_] at h
  cases h
  have born : ∀ p, s.stage e ≠ .embryo p := by simp [at_]
  let t : State := { (s.goto e .free).setEntry e false with
    vpt := fun x => if x.1 = e then none else s.vpt x, vpd := fun x => if x.1 = e then false else s.vpd x }
  have here : t.stage e = .free := Function.update_self ..
  have gone : ∀ v, t.vpt (e, v) = none := fun v => if_pos rfl
  have touches : Touches s t (· = e) := by
    refine ⟨fun b other => ⟨Function.update_of_ne other .., rfl, Function.update_of_ne other ..⟩, fun x => ?_, fun p => .inl rfl⟩
    by_cases mine : x.1 = e
    · refine .inr ⟨mine, fun w now => ?_⟩
      rw [show t.vpt x = none from if_pos mine] at now
      cases now
    · exact .inl (if_neg mine)
  refine inv.next touches (closed_alone born) ?_ ?_ fun y k found => ?_
  · rintro b rfl
    refine .plain ((inv.env b).idle (by rw [at_]; rfl)) (gone ucowPage) (fun v w now => ?_) (fun _ => gone) (by rw [here]; rfl) ?_ ?_
    · rw [gone v] at now
      cases now
    · intro now
      cases here.symm.trans now
    · rw [here]
      exact fun no => absurd no Bool.false_ne_true
  · refine inv.shows.drop fun y => ?_
    by_cases mine : y.1 = e
    · refine .inr ⟨?_, if_pos mine⟩
      unfold view
      rw [show t.vpt y = none from if_pos mine, Option.map_none, ite_self]
    · refine .inl ⟨?_, if_neg mine⟩
      have seen : t.seen y = s.seen y := by
        refine seen_goto rfl born (by simp) ?_
        rw [at_]
        rfl
      unfold view
      rw [seen, show t.vpt y = s.vpt y from if_neg mine]
  · have found : (if y.1 = e then none else m.cell y) = some k := found
    split at found
    · cases found
    · exact inv.below y k found

theorem Inv.step {op : Op} (inv : Inv s m) (meets : Guard s op) (h : step s op = some t) : Inv t (meaning s m op) := by
  cases op with
  | store e v i b => exact inv.store meets h
  | refill e v pp =>
    obtain ⟨page, small, unmapped⟩ := meets
    simp only [Cow.step] at h
    split at h
    · rename_i free
      cases h
      exact inv.refill free.1 page free.2 small unmapped
    · cases h
  | memAlloc e v perm pp =>
    obtain ⟨page, flags, plain, small, unmapped⟩ := meets
    simp only [Cow.step] at h
    split at h
    · rename_i home
      cases h
      exact inv.memAlloc home page flags plain small unmapped
    · cases h
  | memMap e v v' perm =>
    obtain ⟨page, page', flags, plain, shared, common⟩ := meets
    simp only [Cow.step, State.sysMemMap] at h
    split at h
    · rename_i home
      obtain ⟨w, found, rfl⟩ := Option.map_eq_some_iff.mp h
      exact inv.memMap home page page' flags plain shared found (common w found)
    · cases h
  | memUnmap e v =>
    simp only [Cow.step] at h
    split at h
    · rename_i home
      cases h
      exact inv.memUnmap home meets
    · cases h
  | fork e =>
    simp only [Cow.step] at h
    split at h
    · rename_i home
      obtain ⟨user, idle⟩ := home
      cases h
      exact inv.becomes (by simp [user]) (show ∀ p, Stage.exofork ≠ .embryo p by simp) (by rw [user]; rfl) rfl idle rfl rfl
        (fun b other => Function.update_of_ne other ..) rfl rfl (by simp) (fun _ => Function.update_self ..)
        fun _ _ _ _ _ => Function.update_self ..
    · cases h
  | exofork e c =>
    simp only [Cow.step] at h
    split at h
    · rename_i ready
      obtain ⟨at_, idle, free⟩ := ready
      cases h
      exact inv.exofork at_ idle free
    · cases h
  | forkStep e =>
    simp only [Cow.step] at h
    split at h
    · rename_i idle
      exact inv.forkStep idle h
    · cases h
  | cowEntry e pp => exact inv.cowEntry meets h
  | refuse e =>
    simp only [Cow.step] at h
    split at h
    · rename_i c v perm at_
      split at h
      · rename_i idle
        cases h
        exact inv.panic (by rw [at_]; rfl) ((inv.env e).bare idle)
      · cases h
    · cases h
  | exit e =>
    simp only [Cow.step] at h
    split at h
    · rename_i home
      obtain ⟨user, idle⟩ := home
      cases h
      exact inv.becomes (by simp [user]) (show ∀ p, Stage.dead ≠ .embryo p by simp) (by rw [user]; rfl) rfl idle rfl rfl
        (fun _ _ => rfl) rfl rfl (by simp) (by simp) fun no => absurd no Bool.false_ne_true
    · cases h
  | reap e =>
    have at_ : s.stage e = .dead := by
      by_contra other
      simp only [Cow.step] at h
      rw [if_neg other] at h
      cases h
    exact inv.reap at_ h

/-- Before the first `fork`: no frame is mapped twice, and the page at `UCOW` is not in use. -/
structure Started (s : State) : Prop where
  stage : ∀ e, s.stage e = .user ∨ s.stage e = .free ∧ ∀ v, s.vpt (e, v) = none
  handler : ∀ e, s.handler e = none
  bare : ∀ e, s.vpt (e, ucowPage) = none
  plain : ∀ x w, s.vpt x = some w → cow w = false
  once : ∀ x y w u, s.vpt x = some w → s.vpt y = some u → ppn w = ppn u → x = y
  tabled : Tabled s

def copiesOf (s : State) : Copies where
  cell x := (s.vpt x).map ppn
  data := s.mem
  next := 2 ^ 20

theorem Started.inv (started : Started s) : Inv s (copiesOf s) := by
  have born : ∀ e p, s.stage e ≠ .embryo p := by
    intro e p
    rcases started.stage e with user | ⟨free, -⟩
    · rw [user]
      nofun
    · rw [free]
      nofun
  have found : ∀ x a k, CopyOnWrite.At (view s) (copiesOf s).cell x a k → ∃ w, s.vpt x = some w ∧ entryOf w = a ∧ ppn w = k := by
    rintro x a k ⟨shown, cell⟩
    obtain ⟨_, w, found, rfl⟩ := view_some.mp shown
    obtain ⟨w', found', rfl⟩ := Option.map_eq_some_iff.mp cell
    obtain rfl := Option.some.inj (found.symm.trans found')
    exact ⟨w, found, rfl, rfl⟩
  refine ⟨⟨fun x => ?_, fun x a k here => ?_, fun x y a a' k k' here there frame ne => ?_, fun x y a a' k here there ne => ?_⟩,
    fun x k cell => ?_, fun e => ?_⟩
  · show view s x = none ↔ (s.vpt x).map ppn = none
    unfold view
    rw [seen_born (born x.1)]
    by_cases page : x.2 = ucowPage
    · have bare : s.vpt x = none := by
        rw [show x = (x.1, ucowPage) from Prod.ext rfl page]
        exact started.bare x.1
      rw [bare, Option.map_none, Option.map_none, ite_self]
      exact iff_of_true rfl rfl
    · rw [if_pos (bne_iff_ne.mpr page), Option.map_eq_none_iff, Option.map_eq_none_iff]
  · obtain ⟨w, -, rfl, rfl⟩ := found x a k here
    rfl
  · obtain ⟨w, -, rfl, rfl⟩ := found x a k here
    obtain ⟨w', -, rfl, rfl⟩ := found y a' k' there
    exact absurd frame ne
  · obtain ⟨w, first, rfl, rfl⟩ := found x a k here
    obtain ⟨w', second, rfl, same⟩ := found y a' _ there
    exact absurd (started.once x y w w' first second same.symm) ne
  · obtain ⟨w, -, rfl⟩ := Option.map_eq_some_iff.mp cell
    exact ppn_small w
  · have childless : (s.stage e).child = none := by
      rcases started.stage e with user | ⟨free, -⟩
      · rw [user]
        rfl
      · rw [free]
        rfl
    refine .plain (started.handler e) (started.bare e) (fun v w found isCow => ?_) (fun free => ?_) childless (fun at_ => ?_)
      fun _ v w found isCow => ?_
    · rw [started.plain _ w found] at isCow
      cases isCow
    · rcases started.stage e with user | ⟨-, none⟩
      · rw [user] at free
        cases free
      · exact none
    · rcases started.stage e with user | ⟨free, -⟩
      · rw [user] at at_
        cases at_
      · rw [free] at at_
        cases at_
    · rw [started.plain _ w found] at isCow
      cases isCow

theorem run_inv {ops : List Op} (started : Started s) (run : Run both (fun s op => Guard s.1 op) (s, copiesOf s) ops (t, m)) : Inv t m := by
  refine run.invariant (fun s => Inv s.1 s.2) started.inv fun s op t inv meets h => ?_
  obtain ⟨next, stepped, rfl⟩ := Option.map_eq_some_iff.mp h
  exact inv.step meets stepped

def State.reads (s : State) (x : Slot) : Option Contents := (s.vpt x).map fun w => s.mem (ppn w)

def Copies.reads (m : Copies) (x : Slot) : Option Contents := (m.cell x).map m.data

theorem Inv.reads (inv : Inv s m) (seen : s.seen x = true) : s.reads x = m.reads x := by
  unfold State.reads Copies.reads
  cases found : s.vpt x with
  | none =>
    have none : view s x = .none := by
      unfold view
      rw [found, Option.map_none, ite_self]
    rw [(inv.shows.mapped x).mp none]
    rfl
  | some w =>
    obtain ⟨d, cell⟩ := inv.shows.cell_of (view_of seen found)
    rw [cell.2, Option.map_some, Option.map_some]
    exact congrArg some (inv.shows.content x _ d cell)

/-- Whatever the envs of a tree of forks do, in any order, each of them finds in its pages what it would find there
    if `fork` had copied each page. -/
theorem fork_isolates {ops : List Op} (started : Started s)
    (run : Run both (fun s op => Guard s.1 op) (s, copiesOf s) ops (t, m)) (runs : (t.stage e).runs = true) (page : v ≠ ucowPage) :
    t.reads (e, v) = m.reads (e, v) :=
  (run_inv started run).reads ((seen_born (not_embryo runs)).trans (bne_iff_ne.mpr page))

/-- Envs that can run do not share a frame of a page without `PTE_LIBRARY` that one of them may write. -/
theorem private_unwritable {ops : List Op} {e' : EnvPtr} {v' : Nat} (started : Started s)
    (run : Run both (fun s op => Guard s.1 op) (s, copiesOf s) ops (t, m)) (runs : (t.stage e).runs = true)
    (runs' : (t.stage e').runs = true) (ne : e ≠ e') (found : t.vpt (e, v) = some w) (found' : t.vpt (e', v') = some u)
    (frame : ppn w = ppn u) (own : w &&& pteLibrary = 0) : w &&& pteD = 0 ∧ u &&& pteD = 0 ∧ u &&& pteLibrary = 0 := by
  have inv := run_inv started run
  have page : v ≠ ucowPage := by
    rintro rfl
    exact ne ((inv.env e).own w found (e', v') u found' frame.symm).symm
  have page' : v' ≠ ucowPage := by
    rintro rfl
    exact ne ((inv.env e').own u found' (e, v) w found frame)
  have seen := (seen_born (x := (e, v)) (not_embryo runs)).trans (bne_iff_ne.mpr page)
  have seen' := (seen_born (x := (e', v')) (not_embryo runs')).trans (bne_iff_ne.mpr page')
  obtain ⟨dry, dry', own'⟩ := inv.unwritable seen found seen' found' (fun eq => ne (Prod.mk.inj eq).1) frame
    (bne_eq_false_iff_eq.mpr own)
  exact ⟨bne_eq_false_iff_eq.mp dry, bne_eq_false_iff_eq.mp dry', bne_eq_false_iff_eq.mp own'⟩

theorem fork_runs (home : s.atHome e) (free : s.stage c = .free) (empty : ∀ v, s.vpt (c, v) = none) (tabled : Tabled s) :
    ∃ n t, Run step (fun _ _ => True) s ([.fork e, .exofork e c] ++ List.replicate n (.forkStep e)) t ∧
      t.stage = Function.update (Function.update s.stage c .user) e .user ∧ t.handler = s.handler ∧ t.mem = s.mem ∧
      (∀ i, t.vpd (e, i) = s.vpd (e, i)) ∧
      (∀ v, t.vpt (c, v) = if v < vpn ustacktop then (s.vpt (e, v)).map childPte else none) ∧
      (∀ v, t.vpt (e, v) = if v < vpn ustacktop then (s.vpt (e, v)).map selfPte else s.vpt (e, v)) ∧
      ∀ x, x.1 ≠ e → x.1 ≠ c → t.vpt x = s.vpt x := by
  obtain ⟨user, idle⟩ := home
  have apart : c ≠ e := by
    rintro rfl
    rw [user] at free
    cases free
  -- up to the loops
  let s1 := (s.setEntry e true).goto e .exofork
  let s2 := ((s1.setEntry c false).goto c (.embryo e)).goto e (.region c 0)
  have calls : step s (.fork e) = some s1 := if_pos ⟨user, idle⟩
  have gone : s1.stage e = .exofork := Function.update_self ..
  have makes : step s1 (.exofork e c) = some s2 := if_pos ⟨gone, idle, (Function.update_of_ne apart ..).trans free⟩
  obtain ⟨t, ⟨n, loops⟩, stage, handler, -, mem, dirs, child, self, others⟩ :=
    fork_passes (s := s2) (Function.update_self ..) apart idle empty tabled
  refine ⟨n, t, ((Run.nil.snoc trivial calls).snoc trivial makes).append loops, ?_, handler, mem, dirs, child, self, others⟩
  rw [stage]
  funext a
  by_cases mine : a = e
  · rw [mine, Function.update_self, Function.update_self]
  · rw [Function.update_of_ne mine, Function.update_of_ne mine]
    by_cases kid : a = c
    · rw [kid, Function.update_self, Function.update_self]
    · rw [Function.update_of_ne kid, Function.update_of_ne kid]
      show Function.update (Function.update (Function.update s.stage e _) c _) e _ a = _
      rw [Function.update_of_ne mine, Function.update_of_ne kid, Function.update_of_ne mine]

/-- In every state that the envs come to, `fork` can be called, and when nothing else happens it returns with a child that has
    each page of the env below `USTACKTOP`. -/
theorem fork_completes {ops : List Op} (started : Started s)
    (run : Run both (fun s op => Guard s.1 op) (s, copiesOf s) ops (t, m)) (home : t.atHome e) (free : t.stage c = .free) :
    ∃ n u, Run step (fun _ _ => True) t ([.fork e, .exofork e c] ++ List.replicate n (.forkStep e)) u ∧
      u.stage = Function.update (Function.update t.stage c .user) e .user ∧ u.handler = t.handler ∧ u.mem = t.mem ∧
      (∀ v, u.vpt (c, v) = if v < vpn ustacktop then (t.vpt (e, v)).map childPte else none) ∧
      (∀ v, u.vpt (e, v) = if v < vpn ustacktop then (t.vpt (e, v)).map selfPte else t.vpt (e, v)) ∧
      ∀ x, x.1 ≠ e → x.1 ≠ c → u.vpt x = t.vpt x := by
  have tabled : Tabled t := by
    refine run.invariant (fun s => Tabled s.1) started.tabled fun s op t tabled _ h => ?_
    obtain ⟨next, stepped, rfl⟩ := Option.map_eq_some_iff.mp h
    exact tabled.step stepped
  obtain ⟨n, u, runs, stage, handler, mem, -, rest⟩ := fork_runs home free (((run_inv started run).env c).empty free) tabled
  exact ⟨n, u, runs, stage, handler, mem, rest⟩

theorem lifts {ops : List Op} (run : Run step (fun _ _ => True) s ops t) (free : ∀ op ∈ ops, ∀ s, Guard s op) (m : Copies) :
    ∃ m', Run both (fun s op => Guard s.1 op) (s, m) ops (t, m') := by
  induction run with
  | nil => exact ⟨m, .nil⟩
  | @snoc t u ops op run _ next ih =>
    obtain ⟨m', before⟩ := ih fun op inside => free op (List.mem_append_left _ inside)
    refine ⟨meaning t m' op, before.snoc (free op (by simp) t) ?_⟩
    rw [both, next, Option.map_some]

def lone : State where
  stage e := if e = 0 then .user else .free
  handler _ := none
  tlbModEntry _ := false
  vpd _ := false
  vpt _ := none
  mem _ _ := 0

theorem lone_started : Started lone := by
  refine ⟨fun e => ?_, fun _ => rfl, fun _ => rfl, nofun, nofun, nofun⟩
  by_cases first : e = 0
  · exact .inl (if_pos first)
  · exact .inr ⟨if_neg first, fun _ => rfl⟩

def loneWritten : State × Copies :=
  let s := lone.sysMemAlloc (0, 1024) pteD 5
  let m := (copiesOf lone).create (0, 1024) fun _ => 0
  ({ s with mem := Function.update s.mem 5 (Function.update (s.mem 5) 0 7) }, m.store (0, 1024) 0 7)

theorem lone_writes : Run both (fun s op => Guard s.1 op) (lone, copiesOf lone) [.memAlloc 0 1024 pteD 5, .store 0 1024 0 7] loneWritten := by
  have page : (1024 : Nat) ≠ ucowPage := by decide
  have first : Run both (fun s op => Guard s.1 op) (lone, copiesOf lone) [.memAlloc 0 1024 pteD 5]
      (lone.sysMemAlloc (0, 1024) pteD 5, (copiesOf lone).create (0, 1024) fun _ => 0) :=
    .snoc .nil ⟨page, by decide, by decide, by decide, nofun⟩ rfl
  exact first.snoc ⟨page, fun c perm w at_ => by cases at_⟩ rfl

theorem lone_home : loneWritten.1.atHome 0 ∧ loneWritten.1.stage 1 = .free := ⟨⟨rfl, rfl⟩, rfl⟩

theorem fork_completes_lone : ∃ n u, Run step (fun _ _ => True) loneWritten.1 ([.fork 0, .exofork 0 1] ++ List.replicate n (.forkStep 0)) u ∧
    u.vpt (1, 1024) = some (pteOf 5 (cowPerm (pteFlags (pteOf 5 pteD)))) := by
  obtain ⟨n, u, run, -, -, -, child, -⟩ := fork_completes lone_started lone_writes lone_home.1 lone_home.2
  exact ⟨n, u, run, (child 1024).trans rfl⟩

theorem lone_pages {x : Slot} (other : x ≠ (0, 1024)) : loneWritten.1.vpt x = none := Function.update_of_ne other ..

structure LoneForked (s : State) : Prop where
  parent : s.stage 0 = .user
  child : s.stage 1 = .user
  free : s.stage 2 = .free
  idle : s.handler = fun _ => none
  dirs : s.vpd (0, 0) = false ∧ s.vpd (0, 1) = true
  frames : ∀ x w, s.vpt x = some w → ppn w = 5
  mine : s.vpt (0, 1024) = some (pteOf 5 (cowPerm (pteFlags (pteOf 5 pteD))))
  kid : s.vpt (1, 1024) = some (pteOf 5 (cowPerm (pteFlags (pteOf 5 pteD))))

theorem lone_forks : ∃ (ops : List Op) (s : State) (m : Copies), Run both (fun s op => Guard s.1 op) (lone, copiesOf lone) ops (s, m) ∧
    LoneForked s := by
  obtain ⟨n, s, run, stage, handler, -, dirs, child, self, others⟩ := fork_runs lone_home.1 lone_home.2 (fun v => lone_pages nofun)
    (lone_started.tabled.setPte (0, 1024) (pteOf 5 pteD))
  have free : ∀ op ∈ [.fork 0, .exofork 0 1] ++ List.replicate n (Op.forkStep 0), ∀ s, Guard s op := by
    intro op inside s
    simp only [List.cons_append, List.nil_append, List.mem_cons, List.mem_replicate] at inside
    rcases inside with rfl | rfl | ⟨-, rfl⟩ <;> trivial
  obtain ⟨m, run⟩ := lifts run free loneWritten.2
  have mine := (self 1024).trans rfl
  have kid := (child 1024).trans rfl
  refine ⟨_, s, m, lone_writes.append run, by rw [stage]; rfl, by rw [stage]; rfl, by rw [stage]; rfl, by rw [handler]; rfl,
    ⟨(dirs 0).trans rfl, (dirs 1).trans rfl⟩, ?_, mine, kid⟩
  rintro ⟨a, v⟩ w found
  have frame : ppn (pteOf 5 (cowPerm (pteFlags (pteOf 5 pteD)))) = 5 := by decide
  have bare : ∀ v, v ≠ 1024 → loneWritten.1.vpt (0, v) = none := fun v other => lone_pages fun eq => other (Prod.mk.inj eq).2
  by_cases first : a = 0
  · subst first
    by_cases page : v = 1024
    · subst page
      exact Option.some.inj (mine.symm.trans found) ▸ frame
    · rw [self v, bare v page, Option.map_none, ite_self] at found
      cases found
  · by_cases second : a = 1
    · subst second
      by_cases page : v = 1024
      · subst page
        exact Option.some.inj (kid.symm.trans found) ▸ frame
      · rw [child v, bare v page, Option.map_none, ite_self] at found
        cases found
    · rw [others (a, v) first second, lone_pages fun eq => first (Prod.mk.inj eq).1] at found
      cases found

/-- The two envs read the byte. -/
theorem fork_isolates_lone : ∃ (ops : List Op) (s : State) (m : Copies), Run both (fun s op => Guard s.1 op) (lone, copiesOf lone) ops (s, m) ∧
    s.reads (0, 1024) = m.reads (0, 1024) ∧ s.reads (1, 1024) = m.reads (1, 1024) := by
  obtain ⟨ops, s, m, run, forked⟩ := lone_forks
  have page : (1024 : Nat) ≠ ucowPage := by decide
  exact ⟨ops, s, m, run, fork_isolates lone_started run (by rw [forked.parent]; rfl) page,
    fork_isolates lone_started run (by rw [forked.child]; rfl) page⟩

theorem private_unwritable_lone : ∃ (ops : List Op) (s : State) (m : Copies) (w u : Word),
    Run both (fun s op => Guard s.1 op) (lone, copiesOf lone) ops (s, m) ∧ s.vpt (0, 1024) = some w ∧ s.vpt (1, 1024) = some u ∧
    w &&& pteD = 0 ∧ u &&& pteD = 0 ∧ u &&& pteLibrary = 0 := by
  obtain ⟨ops, s, m, run, forked⟩ := lone_forks
  exact ⟨ops, s, m, _, _, run, forked.mine, forked.kid, private_unwritable lone_started run
    (by rw [forked.parent]; rfl) (by rw [forked.child]; rfl) (by decide) forked.mine forked.kid rfl (by decide)⟩

end Mos.Cow
