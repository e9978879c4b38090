import Mos.User.CowFork

namespace Mos.Cow

variable {s t : State} {m m' : Copies} {e b c : EnvPtr} {x y : Slot} {w u perm : Word} {v pp : Nat} {i : Fin 4096} {byte : BitVec 8}

theorem closed_alone (born : ∀ p, s.stage e ≠ .embryo p) : ∀ a p, a = e → s.stage a = .embryo p → p = e := by
  rintro a p rfl embryo
  exact absurd embryo (born p)

/-- What `fork` knows stays true when the page that it is at stays mapped, and as it is once its flags are read. -/
theorem Stage.Ok.change (ok : (s.stage e).Ok s e) (mapped : ∀ v w, v ≠ ucowPage → s.vpt (e, v) = some w → ∃ u, t.vpt (e, v) = some u)
    (held : ∀ c v perm w, v ≠ ucowPage → s.stage e = .mapChild c v perm ∨ s.stage e = .mapSelf c v perm ∧ ¬ passedOn perm →
      s.vpt (e, v) = some w → perm = pteFlags w → t.vpt (e, v) = some w)
    (kid : ∀ c, (s.stage e).child = some c → ∀ v, t.vpt (c, v) = s.vpt (c, v)) (entry : t.tlbModEntry = s.tlbModEntry) :
    (s.stage e).Ok t e := by
  cases at_ : s.stage e with
  | duppage c v =>
    rw [at_] at ok
    obtain ⟨page, w, found⟩ := ok
    exact ⟨page, mapped v w page found⟩
  | mapChild c v perm =>
    rw [at_] at ok
    obtain ⟨page, w, found, flags⟩ := ok
    exact ⟨page, w, held c v perm w page (.inl at_) found flags, flags⟩
  | mapSelf c v perm =>
    rw [at_] at ok
    obtain ⟨page, w, found, flags, keeps, there⟩ := ok
    exact ⟨page, w, held c v perm w page (.inr ⟨at_, keeps⟩) found flags, flags, keeps, (kid c (by rw [at_]; rfl) v).trans there⟩
  | setStatus c =>
    rw [at_] at ok
    exact (congrFun entry c).trans ok
  | _ => trivial

theorem Stage.Ok.keep (ok : (s.stage e).Ok s e) (pages : ∀ v w, v ≠ ucowPage → s.vpt (e, v) = some w → t.vpt (e, v) = some w)
    (kid : ∀ c, (s.stage e).child = some c → ∀ v, t.vpt (c, v) = s.vpt (c, v)) (entry : t.tlbModEntry = s.tlbModEntry) :
    (s.stage e).Ok t e :=
  ok.change (fun v w page found => ⟨w, pages v w page found⟩) (fun _ v _ w page _ found _ => pages v w page found) kid entry

theorem Handler.Ok.keep {h : Option Handler} (ok : Handler.Ok s e h) (pages : ∀ v w, s.vpt (e, v) = some w → t.vpt (e, v) = some w)
    (bare : s.vpt (e, ucowPage) = none → t.vpt (e, ucowPage) = none)
    (alone : ∀ u x w, s.vpt (e, ucowPage) = some u → t.vpt x = some w → ppn w = ppn u → s.vpt x = some w)
    (mem : ∀ v w, s.vpt (e, v) = some w → cow w = true ∧ v ≠ ucowPage ∨
      v = ucowPage ∧ (∀ x u, s.vpt x = some u → ppn u = ppn w → x = (e, ucowPage)) → t.mem (ppn w) = s.mem (ppn w)) :
    Handler.Ok t e h := by
  have copying : ∀ {v perm i}, v ≠ ucowPage → (∃ w u, Copying s e v perm i w u) → ∃ w u, Copying t e v perm i w u := by
    rintro v perm i page ⟨w, u, copying⟩
    refine ⟨w, u, pages v w copying.found, copying.cow, copying.perm, pages _ u copying.new, fun x w' found frame => ?_, fun j low => ?_⟩
    · exact copying.alone x w' (alone u x w' copying.new found frame) frame
    · rw [mem v w copying.found (.inl ⟨copying.cow, page⟩), mem _ u copying.new (.inr ⟨rfl, copying.alone⟩)]
      exact copying.bytes j low
  cases h with
  | none => exact bare ok
  | some h =>
    cases h with
    | entered v => exact ⟨ok.1, bare ok.2.1, ok.2.2.imp fun w found => ⟨pages v w found.1, found.2⟩⟩
    | alloc v perm => exact ⟨ok.1, bare ok.2.1, ok.2.2.imp fun w found => ⟨pages v w found.1, found.2⟩⟩
    | copy v perm i => exact ⟨ok.1, ok.2.1, copying ok.1 ok.2.2⟩
    | map v perm => exact ⟨ok.1, copying ok.1 ok.2⟩
    | unmap v => trivial

theorem Inv.write (inv : Inv s m) (runs : (s.stage e).runs = true) (page : v ≠ ucowPage) (found : s.vpt (e, v) = some w)
    (dirty : writable w = true) :
    Inv { s with mem := Function.update s.mem (ppn w) (Function.update (s.mem (ppn w)) i byte) } (m.store (e, v) i byte) := by
  have env := inv.env e
  have here : s.seen (e, v) = true := (seen_born (not_embryo runs)).trans (bne_iff_ne.mpr page)
  obtain ⟨d, cell⟩ := inv.shows.cell_of (view_of here found)
  have touches : Touches s { s with mem := Function.update s.mem (ppn w) (Function.update (s.mem (ppn w)) i byte) } (· = e) := by
    refine ⟨fun b _ => ⟨rfl, rfl, rfl⟩, fun x => .inl rfl, fun p => ?_⟩
    by_cases same : p = ppn w
    · exact .inr (.inr ⟨(e, v), w, rfl, found, same.symm, .inr ⟨dirty, here⟩⟩)
    · exact .inl (Function.update_of_ne same ..)
  have apart : ∀ v' w', s.vpt (e, v') = some w' → cow w' = true ∧ v' ≠ ucowPage ∨ v' = ucowPage ∧
      (∀ x u, s.vpt x = some u → ppn u = ppn w' → x = (e, ucowPage)) → ppn w' ≠ ppn w := by
    rintro v' w' found' (⟨isCow, other⟩ | ⟨rfl, alone⟩) frame
    · obtain ⟨dry, own⟩ := env.legal v' w' found' isCow
      have ne : (e, v') ≠ (e, v) := by
        intro eq
        rw [eq, found] at found'
        cases found'
        rw [dirty] at dry
        cases dry
      have there : s.seen (e, v') = true := (seen_born (not_embryo runs)).trans (bne_iff_ne.mpr other)
      rw [(inv.unwritable there found' here found ne frame own).2.1] at dirty
      cases dirty
    · exact page (Prod.mk.inj (alone (e, v) w found frame.symm)).2
  unfold Copies.store
  rw [cell.2]
  refine inv.next touches (closed_self runs) ?_ ?_ inv.below
  · rintro b rfl
    refine env.interrupted rfl rfl (fun _ _ => rfl) runs
      (fun v' w' found' isCow => ⟨(env.legal v' w' found' isCow).1, (env.legal v' w' found' isCow).2, v', w', found', isCow⟩)
      (env.stage.keep (fun _ _ _ => id) (fun _ _ _ => rfl) rfl)
      (env.handler.keep (fun _ _ => id) id (fun _ _ _ _ found _ => found) fun v' w' found' how => ?_) env.busy env.own
    exact Function.update_of_ne (apart v' w' found' how) ..
  · have content : s.mem (ppn w) = m.data d := inv.shows.content _ _ _ cell
    show CopyOnWrite.Shows (view s) (Function.update s.mem (ppn w) (Function.update (s.mem (ppn w)) i byte)) m.cell
      (Function.update m.data d (Function.update (m.data d) i byte))
    rw [content]
    exact inv.shows.write cell dirty _

theorem Inv.fault (inv : Inv s m) (runs : (s.stage e).runs = true) (idle : s.handler e = none) (page : v ≠ ucowPage)
    (found : s.vpt (e, v) = some w) (dry : writable w = false) (calm : ∀ c perm, s.stage e ≠ .mapChild c v perm) :
    Inv (s.handling e (some (.entered v))) m := by
  have env := inv.env e
  have touches : Touches s (s.handling e (some (.entered v))) (· = e) :=
    ⟨fun b other => ⟨rfl, Function.update_of_ne other .., rfl⟩, fun x => .inl rfl, fun p => .inl rfl⟩
  have here : (s.handling e (some (.entered v))).handler e = some (.entered v) := Function.update_self ..
  refine inv.next touches (closed_self runs) ?_ ?_ inv.below
  · rintro b rfl
    refine env.interrupted rfl rfl (fun _ _ => rfl) runs
      (fun v' w' found' isCow => ⟨(env.legal v' w' found' isCow).1, (env.legal v' w' found' isCow).2, v', w', found', isCow⟩)
      (env.stage.keep (fun _ _ _ => id) (fun _ _ _ => rfl) rfl) ?_ (fun c v' perm h at_ busy same => ?_) env.own
    · rw [here]
      exact ⟨page, env.bare idle, w, found, dry⟩
    · rw [here] at busy
      cases busy
      cases same
      exact calm c perm at_
  · rw [view_same (seen_stage rfl) fun _ _ => rfl]
    exact inv.shows

theorem Inv.fills (inv : Inv s m) (runs : (s.stage e).runs = true) (page : v ≠ ucowPage) (flags : FlagBits perm)
    (small : pp < 2 ^ 20) (unmapped : Unmapped s pp) (mine : Local (s.sysMemAlloc (e, v) perm pp) e) :
    Inv (s.sysMemAlloc (e, v) perm pp) (m.create (e, v) fun _ => 0) := by
  have frame : ppn (pteOf pp perm) = pp := ppn_pteOf small flags
  have here : s.seen (e, v) = true := (seen_born (not_embryo runs)).trans (bne_iff_ne.mpr page)
  have touches : Touches s (s.sysMemAlloc (e, v) perm pp) (· = e) := by
    refine ⟨fun b _ => ⟨rfl, rfl, rfl⟩, fun x => ?_, fun p => ?_⟩
    · by_cases same : x = (e, v)
      · subst same
        refine .inr ⟨rfl, fun u now => .inr ?_⟩
        have now : Function.update s.vpt (e, v) (some (pteOf pp perm)) (e, v) = some u := now
        rw [Function.update_self] at now
        rw [← Option.some.inj now, frame]
        exact unmapped
      · exact .inl (Function.update_of_ne same ..)
    · by_cases same : p = pp
      · exact .inr (.inl (same ▸ unmapped))
      · exact .inl (Function.update_of_ne same ..)
  refine inv.next touches (closed_self runs) (fun b act => act ▸ mine) ?_ (below_create inv.below)
  have shown : view (s.sysMemAlloc (e, v) perm pp) = Function.update (view s) (e, v) (some (entryOf (pteOf pp perm))) :=
    view_set s _ rfl here rfl
  have apart : ∀ y a, view s y = some a → a.frame ≠ pp := by
    intro y a found
    obtain ⟨_, w, mapped, rfl⟩ := view_some.mp found
    exact unmapped y w mapped
  rw [shown]
  refine ((inv.shows.hidden apart fun _ => 0).unused inv.new_cell fun _ => 0).put (fun y a _ found => ?_)
    (fun y _ => inv.new_cell y) ?_
  · show a.frame ≠ ppn (pteOf pp perm)
    rw [frame]
    exact apart y a found
  · show Function.update s.mem pp (fun _ => 0) (ppn (pteOf pp perm)) = _
    rw [frame, Function.update_self, Function.update_self]

theorem alloc_vpt (other : x ≠ y) (pp : Nat) : (s.sysMemAlloc y perm pp).vpt x = s.vpt x := Function.update_of_ne other ..

theorem alloc_here (pp : Nat) : (s.sysMemAlloc y perm pp).vpt y = some (pteOf pp perm) := Function.update_self ..

theorem Inv.refill (inv : Inv s m) (runs : (s.stage e).runs = true) (page : v ≠ ucowPage) (none : s.vpt (e, v) = .none)
    (small : pp < 2 ^ 20) (unmapped : Unmapped s pp) : Inv (s.sysMemAlloc (e, v) pteD pp) (m.create (e, v) fun _ => 0) := by
  have env := inv.env e
  have frame : ppn (pteOf pp pteD) = pp := ppn_pteOf small (by decide)
  have pages : ∀ v' w', s.vpt (e, v') = some w' → (s.sysMemAlloc (e, v) pteD pp).vpt (e, v') = some w' := by
    intro v' w' found
    have other : (e, v') ≠ (e, v) := by
      intro eq
      rw [eq, none] at found
      cases found
    rw [alloc_vpt other]
    exact found
  have ucow : (s.sysMemAlloc (e, v) pteD pp).vpt (e, ucowPage) = s.vpt (e, ucowPage) :=
    alloc_vpt (fun eq => page (Prod.mk.inj eq).2.symm) pp
  have old : ∀ x w, (s.sysMemAlloc (e, v) pteD pp).vpt x = some w → ppn w ≠ pp → s.vpt x = some w := by
    intro x w now other
    by_cases same : x = (e, v)
    · subst same
      rw [alloc_here] at now
      rw [← Option.some.inj now, frame] at other
      exact absurd rfl other
    · rwa [alloc_vpt same] at now
  have others : ∀ x w u, s.vpt (e, ucowPage) = some u → (s.sysMemAlloc (e, v) pteD pp).vpt x = some w → ppn w = ppn u →
      s.vpt x = some w := fun x w u new now same => old x w now (same.symm ▸ unmapped _ u new)
  refine inv.fills runs page (by decide) small unmapped ?_
  refine env.interrupted rfl rfl (fun x other => alloc_vpt (fun eq => other (congrArg Prod.fst eq)) pp) runs (fun v' w' now isCow => ?_)
    (env.stage.keep (fun v w _ => pages v w) (fun c kid v' => alloc_vpt (fun eq => env.away runs kid (Prod.mk.inj eq).1) pp) rfl)
    (env.handler.keep pages (fun bare => ucow.trans bare) (fun u x w => others x w u) fun v' w' found _ => ?_) env.busy
    fun u new x w now same => ?_
  · by_cases same : (e, v') = (e, v)
    · rw [same, alloc_here] at now
      rw [← Option.some.inj now, cow_pteOf] at isCow
      cases isCow
    · rw [alloc_vpt same] at now
      exact ⟨(env.legal v' w' now isCow).1, (env.legal v' w' now isCow).2, v', w', now, isCow⟩
  · exact Function.update_of_ne (unmapped _ w' found) ..
  · rw [ucow] at new
    exact env.own u new x w (others x w u new now same) same

theorem Inv.home (inv : Inv s m) (home : s.atHome e) (stage : t.stage = s.stage) (handler : t.handler = s.handler)
    (entry : t.tlbModEntry = s.tlbModEntry) (bare : t.vpt (e, ucowPage) = s.vpt (e, ucowPage))
    (pages : ∀ v w, t.vpt (e, v) = some w → cow w = true → s.vpt (e, v) = some w) : Local t e := by
  obtain ⟨user, idle⟩ := home
  have env := inv.env e
  refine .plain (by rw [handler, idle]) (bare.trans (env.bare idle)) (fun v w now isCow => env.legal v w (pages v w now isCow) isCow)
    ?_ (by rw [stage, user]; rfl) ?_ fun runs v w now isCow => ?_
  · rw [stage, user]
    nofun
  · rw [stage, user]
    nofun
  · rw [entry]
    exact env.catches (stage ▸ runs) v w (pages v w now isCow) isCow

theorem home_runs (home : s.atHome e) : (s.stage e).runs = true := by rw [home.1]; rfl

theorem Inv.memAlloc (inv : Inv s m) (home : s.atHome e) (page : v ≠ ucowPage) (flags : FlagBits perm) (plain : cow perm = false)
    (small : pp < 2 ^ 20) (unmapped : Unmapped s pp) : Inv (s.sysMemAlloc (e, v) perm pp) (m.create (e, v) fun _ => 0) := by
  refine inv.fills (home_runs home) page flags small unmapped (inv.home home rfl rfl rfl ?_ fun v' w now isCow => ?_)
  · exact alloc_vpt (fun eq => page (Prod.mk.inj eq).2.symm) pp
  · by_cases same : (e, v') = (e, v)
    · rw [same, alloc_here] at now
      rw [← Option.some.inj now, cow_pteOf, plain] at isCow
      cases isCow
    · rwa [alloc_vpt same] at now

theorem Inv.memMap (inv : Inv s m) (home : s.atHome e) {v' : Nat} (page : v ≠ ucowPage) (page' : v' ≠ ucowPage) (flags : FlagBits perm)
    (plain : cow perm = false) (shared : library perm = true) (found : s.vpt (e, v) = some w) (common : library w = true) :
    Inv (s.setPte (e, v') (pteOf (ppn w) perm)) (m.share (e, v) (e, v')) := by
  have runs := home_runs home
  have frame : ppn (pteOf (ppn w) perm) = ppn w := ppn_pteOf (ppn_small w) flags
  have here : ∀ {v}, v ≠ ucowPage → s.seen (e, v) = true := fun page => (seen_born (not_embryo runs)).trans (bne_iff_ne.mpr page)
  obtain ⟨d, cell⟩ := inv.shows.cell_of (view_of (here page) found)
  have touches : Touches s (s.setPte (e, v') (pteOf (ppn w) perm)) (· = e) := by
    refine ⟨fun b _ => ⟨rfl, rfl, rfl⟩, fun x => ?_, fun p => .inl rfl⟩
    by_cases same : x = (e, v')
    · subst same
      refine .inr ⟨rfl, fun u now => .inl ⟨(e, v), w, rfl, found, ?_⟩⟩
      have now : Function.update s.vpt (e, v') (some (pteOf (ppn w) perm)) (e, v') = some u := now
      rw [Function.update_self] at now
      rw [← Option.some.inj now, frame]
    · exact .inl (Function.update_of_ne same ..)
  unfold Copies.share
  rw [cell.2]
  refine inv.next touches (closed_self runs) ?_ ?_ (below_update inv.below (inv.below _ _ cell.2))
  · rintro b rfl
    refine inv.home home rfl rfl rfl (Function.update_of_ne (fun eq => page' (Prod.mk.inj eq).2.symm) ..) fun k u now isCow => ?_
    have now : Function.update s.vpt (b, v') (some (pteOf (ppn w) perm)) (b, k) = some u := now
    by_cases same : (b, k) = (b, v')
    · rw [same, Function.update_self] at now
      rw [← Option.some.inj now, cow_pteOf, plain] at isCow
      cases isCow
    · rwa [Function.update_of_ne same] at now
  · have shown : view (s.setPte (e, v') (pteOf (ppn w) perm)) = Function.update (view s) (e, v') (some (entryOf (pteOf (ppn w) perm))) :=
      view_set s _ rfl (here page') rfl
    rw [shown]
    exact inv.shows.share cell common frame ((library_pteOf (ppn w)).trans shared)

theorem Inv.memUnmap (inv : Inv s m) (home : s.atHome e) (page : v ≠ ucowPage) : Inv (s.sysMemUnmap (e, v)) (m.drop (e, v)) := by
  have runs := home_runs home
  have gone : ∀ y w, (s.sysMemUnmap (e, v)).vpt y = some w → y ≠ (e, v) ∧ s.vpt y = some w := by
    intro y w now
    have now : Function.update s.vpt (e, v) none y = some w := now
    by_cases same : y = (e, v)
    · rw [same, Function.update_self] at now
      cases now
    · exact ⟨same, by rwa [Function.update_of_ne same] at now⟩
  have touches : Touches s (s.sysMemUnmap (e, v)) (· = e) := by
    refine ⟨fun b _ => ⟨rfl, rfl, rfl⟩, fun x => ?_, fun p => .inl rfl⟩
    by_cases same : x = (e, v)
    · subst same
      exact .inr ⟨rfl, fun u now => absurd rfl (gone (e, v) u now).1⟩
    · exact .inl (Function.update_of_ne same ..)
  refine inv.next touches (closed_self runs) ?_ ?_ fun y k found => ?_
  · rintro b rfl
    exact inv.home home rfl rfl rfl (Function.update_of_ne (fun eq => page (Prod.mk.inj eq).2.symm) ..)
      fun k u now _ => (gone (b, k) u now).2
  · have here : s.seen (e, v) = true := (seen_born (not_embryo runs)).trans (bne_iff_ne.mpr page)
    have shown : view (s.sysMemUnmap (e, v)) = Function.update (view s) (e, v) none :=
      view_update (s := s) (o := none) (seen_stage rfl) here rfl
    rw [shown]
    refine inv.shows.drop fun y => ?_
    by_cases same : y = (e, v)
    · subst same
      exact .inr ⟨Function.update_self .., Function.update_self ..⟩
    · exact .inl ⟨Function.update_of_ne same .., Function.update_of_ne same ..⟩
  · have found : Function.update m.cell (e, v) none y = some k := found
    by_cases same : y = (e, v)
    · rw [same, Function.update_self] at found
      cases found
    · rw [Function.update_of_ne same] at found
      exact inv.below y k found

theorem Inv.handles {h : Option Handler} (inv : Inv s m) (busy : s.handler e ≠ none) (touches : Touches s t (· = e))
    (stage : t.stage = s.stage) (entry : t.tlbModEntry = s.tlbModEntry) (handler : t.handler e = h)
    (vpt : ∀ x, x.1 ≠ e → t.vpt x = s.vpt x)
    (legal : ∀ v w, t.vpt (e, v) = some w → cow w = true → s.vpt (e, v) = some w)
    (ok : (s.stage e).Ok t e) (known : Handler.Ok t e h)
    (page : ∀ k, h = some k → k.page = none ∨ ∃ old, s.handler e = some old ∧ k.page = old.page)
    (own : ∀ u, t.vpt (e, ucowPage) = some u → ∀ x w, t.vpt x = some w → ppn w = ppn u → x.1 = e)
    (shows : CopyOnWrite.Shows (view t) t.mem m.cell m.data) : Inv t m := by
  have env := inv.env e
  have runs : (s.stage e).runs = true := by
    by_contra stopped
    exact busy (env.idle (Bool.not_eq_true _ ▸ stopped))
  refine inv.next touches (closed_self runs) ?_ shows inv.below
  rintro b rfl
  refine env.interrupted stage entry vpt runs (fun v w now isCow => ?_) ok (handler.symm ▸ known) (fun c v perm k at_ now same => ?_) own
  · have before := legal v w now isCow
    exact ⟨(env.legal v w before isCow).1, (env.legal v w before isCow).2, v, w, before, isCow⟩
  · rw [handler] at now
    rcases page k now with none | ⟨old, was, eq⟩
    · rw [none] at same
      cases same
    · exact env.busy c v perm old at_ was (eq.symm.trans same)

theorem touches_handling (h : Option Handler) : Touches s (s.handling e h) (· = e) :=
  ⟨fun _ other => ⟨rfl, Function.update_of_ne other .., rfl⟩, fun _ => .inl rfl, fun _ => .inl rfl⟩

theorem Inv.turns {old new : Handler} (inv : Inv s m) (was : s.handler e = some old) (known : Handler.Ok s e (some new))
    (page : new.page = old.page) : Inv (s.handling e (some new)) m := by
  have env := inv.env e
  have ok : Handler.Ok (s.handling e (some new)) e (some new) :=
    known.keep (fun _ _ => id) id (fun _ _ _ _ found _ => found) fun _ _ _ _ => rfl
  refine inv.handles (by rw [was]; nofun) (touches_handling _) rfl rfl (Function.update_self ..) (fun _ _ => rfl) (fun _ _ now _ => now)
    (env.stage.keep (fun _ _ _ => id) (fun _ _ _ => rfl) rfl) ok (fun k eq => ?_) env.own ?_
  · cases eq
    exact .inr ⟨old, was, page⟩
  · rw [view_same (seen_stage rfl) fun _ _ => rfl]
    exact inv.shows

theorem Inv.allocs (inv : Inv s m) (was : s.handler e = some (.alloc v perm)) (small : pp < 2 ^ 20) (unmapped : Unmapped s pp) :
    Inv ((s.sysMemAlloc (e, ucowPage) perm pp).handling e (some (.copy v perm 0))) m := by
  have env := inv.env e
  have ok := env.handler
  rw [was] at ok
  obtain ⟨page, bare, w, found, isCow, rfl⟩ := ok
  have frame : ppn (pteOf pp (ownPerm (pteFlags w))) = pp := ppn_pteOf small (flagBits_ownPerm (flagBits_pteFlags w))
  let t := (s.sysMemAlloc (e, ucowPage) (ownPerm (pteFlags w)) pp).handling e (some (.copy v (ownPerm (pteFlags w)) 0))
  have here : t.vpt (e, ucowPage) = some (pteOf pp (ownPerm (pteFlags w))) := alloc_here pp
  have away : ∀ x, x ≠ (e, ucowPage) → t.vpt x = s.vpt x := fun x other => alloc_vpt other pp
  have alone : ∀ x w', t.vpt x = some w' → ppn w' = pp → x = (e, ucowPage) := by
    intro x w' now same
    by_contra other
    rw [away x other] at now
    exact unmapped x w' now same
  have pages : ∀ v' w', s.vpt (e, v') = some w' → t.vpt (e, v') = some w' := by
    intro v' w' before
    have other : (e, v') ≠ (e, ucowPage) := by
      intro eq
      rw [eq, bare] at before
      cases before
    rw [away _ other, before]
  have touches : Touches s t (· = e) := by
    refine ⟨fun b other => ⟨rfl, Function.update_of_ne other .., rfl⟩, fun x => ?_, fun p => ?_⟩
    · by_cases same : x = (e, ucowPage)
      · subst same
        refine .inr ⟨rfl, fun u now => .inr ?_⟩
        rw [here] at now
        rw [← Option.some.inj now, frame]
        exact unmapped
      · exact .inl (away x same)
    · by_cases same : p = pp
      · exact .inr (.inl (same ▸ unmapped))
      · exact .inl (Function.update_of_ne same ..)
  refine inv.handles (by rw [was]; nofun) touches rfl rfl (Function.update_self ..) (fun x other => away x fun eq => other (eq ▸ rfl))
    (fun v' w' now copied => ?_) (env.stage.keep (fun v w _ => pages v w) (fun c kid v' => away _ fun eq => ?_) rfl)
    ⟨page, Nat.zero_le _, w, _, pages v w found, isCow, rfl, here, fun x w' now same => alone x w' now (same.trans frame), nofun⟩
    (fun k eq => ?_) (fun u new x w' now same => ?_) ?_
  · by_cases same : (e, v') = (e, ucowPage)
    · rw [same, here] at now
      rw [← Option.some.inj now, cow_pteOf, cow_ownPerm] at copied
      cases copied
    · rwa [away _ same] at now
  · have runs := runs_of_child kid
    exact env.away runs kid (Prod.mk.inj eq).1
  · cases eq
    exact .inr ⟨_, was, rfl⟩
  · rw [here] at new
    rw [← Option.some.inj new, frame] at same
    rw [alone x w' now same]
  · have shown : view t = view s := view_same (seen_stage rfl) fun y seen => away y fun eq => by
      rw [eq] at seen
      simp [State.seen] at seen
    rw [shown]
    refine inv.shows.hidden (fun y a mapped => ?_) _
    obtain ⟨_, w', before, rfl⟩ := view_some.mp mapped
    exact unmapped y w' before

theorem Inv.copies {k : Nat} (inv : Inv s m) (was : s.handler e = some (.copy v perm k)) (low : k < 4096) (found : s.vpt (e, v) = some w)
    (new : s.vpt (e, ucowPage) = some u) :
    Inv ({ s with mem := Function.update s.mem (ppn u) (Function.update (s.mem (ppn u)) ⟨k, low⟩ (s.mem (ppn w) ⟨k, low⟩)) }.handling e
      (some (.copy v perm (k + 1)))) m := by
  have env := inv.env e
  have ok := env.handler
  rw [was] at ok
  obtain ⟨page, -, w', u', copying⟩ := ok
  obtain rfl := Option.some.inj (found.symm.trans copying.found)
  obtain rfl := Option.some.inj (new.symm.trans copying.new)
  have ne : ppn w ≠ ppn u := fun eq => page (Prod.mk.inj (copying.alone (e, v) w found eq)).2
  have touches : Touches s ({ s with mem := Function.update s.mem (ppn u) (Function.update (s.mem (ppn u)) ⟨k, low⟩
      (s.mem (ppn w) ⟨k, low⟩)) }.handling e (some (.copy v perm (k + 1)))) (· = e) := by
    refine ⟨fun b other => ⟨rfl, Function.update_of_ne other .., rfl⟩, fun x => .inl rfl, fun p => ?_⟩
    by_cases same : p = ppn u
    · exact .inr (.inr ⟨(e, ucowPage), u, rfl, new, same.symm, .inl rfl⟩)
    · exact .inl (Function.update_of_ne same ..)
  refine inv.handles (by rw [was]; nofun) touches rfl rfl (Function.update_self ..) (fun _ _ => rfl) (fun _ _ now _ => now)
    (env.stage.keep (fun _ _ _ => id) (fun _ _ _ => rfl) rfl)
    ⟨page, low, w, u, found, copying.cow, copying.perm, new, copying.alone, fun j less => ?_⟩ (fun k' eq => ?_) env.own ?_
  · show Function.update s.mem (ppn u) _ (ppn u) j = Function.update s.mem (ppn u) _ (ppn w) j
    rw [Function.update_self, Function.update_of_ne ne]
    by_cases same : j = ⟨k, low⟩
    · rw [same, Function.update_self]
    · rw [Function.update_of_ne same]
      have other : j.val ≠ k := fun eq => same (Fin.ext eq)
      exact copying.bytes j (by omega)
  · cases eq
    exact .inr ⟨_, was, rfl⟩
  · rw [view_same (seen_stage rfl) fun _ _ => rfl]
    refine inv.shows.hidden (fun y a mapped => ?_) _
    obtain ⟨seen, w', before, rfl⟩ := view_some.mp mapped
    intro eq
    rw [copying.alone y w' before eq] at seen
    simp [State.seen] at seen

theorem Inv.replaces (inv : Inv s m) (was : s.handler e = some (.map v perm)) (new : s.vpt (e, ucowPage) = some u) :
    Inv ((s.setPte (e, v) (pteOf (ppn u) perm)).handling e (some (.unmap v))) m := by
  have env := inv.env e
  have ok := env.handler
  rw [was] at ok
  obtain ⟨page, w, u', copying⟩ := ok
  obtain rfl := Option.some.inj (new.symm.trans copying.new)
  have flags : FlagBits perm := copying.perm ▸ flagBits_ownPerm (flagBits_pteFlags w)
  have frame : ppn (pteOf (ppn u) perm) = ppn u := ppn_pteOf (ppn_small u) flags
  obtain ⟨dry, own⟩ := env.legal v w copying.found copying.cow
  have runs : (s.stage e).runs = true := by
    by_contra stopped
    have idle := env.idle (Bool.not_eq_true _ ▸ stopped)
    rw [was] at idle
    cases idle
  let t := (s.setPte (e, v) (pteOf (ppn u) perm)).handling e (some (.unmap v))
  have here : t.vpt (e, v) = some (pteOf (ppn u) perm) := Function.update_self ..
  have away : ∀ x, x ≠ (e, v) → t.vpt x = s.vpt x := fun x other => Function.update_of_ne other ..
  have same : t.vpt (e, ucowPage) = some u := (away _ fun eq => page (Prod.mk.inj eq).2.symm).trans new
  have touches : Touches s t (· = e) := by
    refine ⟨fun b other => ⟨rfl, Function.update_of_ne other .., rfl⟩, fun x => ?_, fun p => .inl rfl⟩
    by_cases eq : x = (e, v)
    · subst eq
      refine .inr ⟨rfl, fun w' now => .inl ⟨(e, ucowPage), u, rfl, new, ?_⟩⟩
      rw [here] at now
      rw [← Option.some.inj now, frame]
    · exact .inl (away x eq)
  refine inv.handles (by rw [was]; nofun) touches rfl rfl (Function.update_self ..) (fun x other => away x fun eq => other (eq ▸ rfl))
    (fun v' w' now copied => ?_) (env.stage.change (fun v' w' _ found => ?_) (fun c k p w' _ at_ found eq => ?_) (fun c kid v' => ?_) rfl)
    trivial (fun k eq => ?_) (fun u' new' x w' now frame' => ?_) ?_
  · by_cases eq : (e, v') = (e, v)
    · rw [eq, here] at now
      rw [← Option.some.inj now, cow_pteOf, copying.perm, cow_ownPerm] at copied
      cases copied
    · rwa [away _ eq] at now
  · by_cases eq : (e, v') = (e, v)
    · exact ⟨_, eq ▸ here⟩
    · exact ⟨w', (away _ eq).trans found⟩
  · -- `fork` is not at the page of the fault
    refine (away _ fun same => ?_).trans found
    obtain rfl := (Prod.mk.inj same).2
    rcases at_ with at_ | ⟨-, keeps⟩
    · exact env.busy c k p _ at_ was rfl
    · obtain rfl := Option.some.inj (found.symm.trans copying.found)
      rw [passedOn_iff, eq, writable_pteFlags, dry] at keeps
      exact keeps (.inl rfl)
  · exact away _ fun eq => env.away runs kid (Prod.mk.inj eq).1
  · cases eq
    exact .inl rfl
  · rw [same] at new'
    rw [← Option.some.inj new'] at frame'
    by_cases eq : x = (e, v)
    · rw [eq]
    · rw [away x eq] at now
      rw [copying.alone x w' now frame']
  · have shown : s.seen (e, v) = true := (seen_born (not_embryo runs)).trans (bne_iff_ne.mpr page)
    obtain ⟨d, cell⟩ := inv.shows.cell_of (view_of shown copying.found)
    have moved : view t = Function.update (view s) (e, v) (some (entryOf (pteOf (ppn u) perm))) := view_set s t rfl shown rfl
    rw [moved]
    refine inv.shows.move cell own (fun y a _ mapped eq => ?_) ?_
    · obtain ⟨seen, w', before, rfl⟩ := view_some.mp mapped
      rw [copying.alone y w' before (eq.trans frame)] at seen
      simp [State.seen] at seen
    · show s.mem (ppn (pteOf (ppn u) perm)) = s.mem (ppn w)
      rw [frame]
      funext j
      exact copying.bytes j j.isLt

theorem Inv.finishes (inv : Inv s m) (was : s.handler e = some (.unmap v)) :
    Inv ((s.sysMemUnmap (e, ucowPage)).handling e none) m := by
  have env := inv.env e
  let t := (s.sysMemUnmap (e, ucowPage)).handling e none
  have here : t.vpt (e, ucowPage) = none := Function.update_self ..
  have away : ∀ x, x ≠ (e, ucowPage) → t.vpt x = s.vpt x := fun x other => Function.update_of_ne other ..
  have runs : (s.stage e).runs = true := by
    by_contra stopped
    have idle := env.idle (Bool.not_eq_true _ ▸ stopped)
    rw [was] at idle
    cases idle
  have touches : Touches s t (· = e) := by
    refine ⟨fun b other => ⟨rfl, Function.update_of_ne other .., rfl⟩, fun x => ?_, fun p => .inl rfl⟩
    by_cases eq : x = (e, ucowPage)
    · subst eq
      exact .inr ⟨rfl, fun w now => by rw [here] at now; cases now⟩
    · exact .inl (away x eq)
  refine inv.handles (by rw [was]; nofun) touches rfl rfl (Function.update_self ..) (fun x other => away x fun eq => other (eq ▸ rfl))
    (fun v' w' now _ => ?_) (env.stage.keep (fun v' w' page found => (away _ fun eq => page (Prod.mk.inj eq).2).trans found)
      (fun c kid v' => away _ fun eq => env.away runs kid (Prod.mk.inj eq).1) rfl) here nofun (fun u new => ?_) ?_
  · by_cases eq : (e, v') = (e, ucowPage)
    · rw [eq, here] at now
      cases now
    · rwa [away _ eq] at now
  · rw [here] at new
    cases new
  · have shown : view t = view s := view_same (seen_stage rfl) fun y seen => away y fun eq => by
      rw [eq] at seen
      simp [State.seen] at seen
    rw [shown]
    exact inv.shows

theorem dropChild_eq (m : Copies) (st : Stage) : (m.dropChild st).data = m.data ∧ (m.dropChild st).next = m.next ∧
    ∀ y, (m.dropChild st).cell y = if st.child = some y.1 then none else m.cell y := by
  unfold Copies.dropChild
  cases st.child with
  | none => exact ⟨rfl, rfl, fun y => (if_neg nofun).symm⟩
  | some c =>
    refine ⟨rfl, rfl, fun y => ?_⟩
    exact if_congr (eq_comm.trans Option.some_inj.symm) rfl rfl

/-- The env ends, and its child never runs. -/
theorem Inv.panic (inv : Inv s m) (runs : (s.stage e).runs = true) (bare : s.vpt (e, ucowPage) = none) :
    Inv (s.userPanic e) (m.dropChild (s.stage e)) := by
  have env := inv.env e
  have here : (s.userPanic e).stage e = .dead := Function.update_self ..
  have quiet : (s.userPanic e).handler e = none := Function.update_self ..
  have touches : Touches s (s.userPanic e) (· = e) :=
    ⟨fun _ other => ⟨Function.update_of_ne other .., Function.update_of_ne other .., rfl⟩, fun _ => .inl rfl, fun _ => .inl rfl⟩
  have seen : ∀ y, (s.userPanic e).seen y = s.seen y ∧ (s.stage e).child ≠ some y.1 ∨
      (s.userPanic e).seen y = false ∧ (s.stage e).child = some y.1 := by
    intro y
    by_cases mine : y.1 = e
    · refine .inl ⟨?_, fun kid => env.away runs kid mine⟩
      rw [seen_born (s := s.userPanic e) fun p => by simp [mine, here], seen_born fun p => mine ▸ not_embryo runs p]
    · have same : (s.userPanic e).stage y.1 = s.stage y.1 := Function.update_of_ne mine ..
      by_cases kid : (s.stage e).child = some y.1
      · refine .inr ⟨?_, kid⟩
        rw [seen_embryo (same.trans (env.child _ kid)), here]
        exact Bool.and_false _
      · refine .inl ⟨?_, kid⟩
        cases stage : s.stage y.1 with
        | embryo p =>
          rw [seen_embryo (same.trans stage), seen_embryo stage]
          by_cases parent : p = e
          · have gone : (s.stage e).passed y.1 y.2 = false := by
              rw [Stage.passed, beq_eq_false_iff_ne.mpr kid]
              rfl
            rw [parent, here, gone]
            rfl
          · rw [show (s.userPanic e).stage p = s.stage p from Function.update_of_ne parent ..]
        | _ =>
          rw [seen_born (s := s.userPanic e) fun p => by simp [same, stage], seen_born fun p => by simp [stage]]
  refine inv.next touches (closed_self runs) ?_ ?_ ?_
  · rintro b rfl
    refine .plain quiet bare env.legal ?_ (by rw [here]; rfl) ?_ ?_
    · simp [here]
    · simp [here]
    · rw [here]
      exact fun no => absurd no Bool.false_ne_true
  · obtain ⟨data, -, cell⟩ := dropChild_eq m (s.stage e)
    rw [data]
    refine inv.shows.drop fun y => ?_
    rw [cell y]
    unfold view
    rcases seen y with ⟨same, other⟩ | ⟨hidden, kid⟩
    · rw [same]
      exact .inl ⟨rfl, if_neg other⟩
    · rw [hidden]
      exact .inr ⟨rfl, if_pos kid⟩
  · obtain ⟨-, next, cell⟩ := dropChild_eq m (s.stage e)
    intro y k found
    rw [cell y] at found
    rw [next]
    split at found
    · cases found
    · exact inv.below y k found

theorem Inv.cowEntry (inv : Inv s m) (fresh : ∀ v perm, s.handler e = some (.alloc v perm) → pp < 2 ^ 20 ∧ Unmapped s pp)
    (h : cowEntry e pp s = some t) : Inv t (cowMeaning e s m) := by
  have env := inv.env e
  have ok := env.handler
  unfold Cow.cowEntry at h
  unfold cowMeaning
  cases was : s.handler e with
  | none =>
    rw [was] at h
    cases h
  | some old =>
    rw [was] at h ok
    cases old with
    | entered v =>
      obtain ⟨page, bare, w, found, -⟩ := ok
      have flags : s.perm (e, v) = pteFlags w := by
        rw [State.perm, found]
        rfl
      dsimp only at h ⊢
      split at h
      · rename_i plain
        cases h
        rw [if_pos plain]
        refine inv.panic ?_ bare
        by_contra stopped
        have idle := env.idle (Bool.not_eq_true _ ▸ stopped)
        rw [was] at idle
        cases idle
      · rename_i isCow
        cases h
        rw [if_neg isCow]
        refine inv.turns was ⟨page, bare, w, found, ?_, by rw [flags]⟩ rfl
        rw [flags] at isCow
        rw [← cow_pteFlags]
        exact bne_iff_ne.mpr isCow
    | alloc v perm =>
      cases h
      obtain ⟨small, unmapped⟩ := fresh v perm was
      exact inv.allocs was small unmapped
    | copy v perm i =>
      obtain ⟨page, le, w, u, copying⟩ := ok
      dsimp only at h
      split at h
      · rename_i low
        rw [copying.found, copying.new] at h
        cases h
        exact inv.copies was low copying.found copying.new
      · rename_i done
        cases h
        obtain rfl : i = 4096 := by omega
        exact inv.turns was ⟨page, w, u, copying⟩ rfl
    | map v perm =>
      obtain ⟨page, w, u, copying⟩ := ok
      dsimp only [State.sysMemMap] at h
      rw [copying.new] at h
      cases h
      exact inv.replaces was copying.new
    | unmap v =>
      cases h
      exact inv.finishes was

end Mos.Cow
