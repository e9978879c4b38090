import Mos.User.CowInv

namespace Mos.Cow

def childPte (w : Word) : Word := pteOf (ppn w) (if passedOn (pteFlags w) then pteFlags w else cowPerm (pteFlags w))

def selfPte (w : Word) : Word := if passedOn (pteFlags w) then w else pteOf (ppn w) (cowPerm (pteFlags w))

/-- In `t`, `fork` has passed on the pages of `s` below `n`, and changed nothing else in the memories. -/
structure Passed (s t : State) (e c : EnvPtr) (n : Nat) : Prop where
  stage : ∀ a, a ≠ e → t.stage a = s.stage a
  handler : t.handler = s.handler
  entry : t.tlbModEntry = s.tlbModEntry
  mem : t.mem = s.mem
  dirs : ∀ i, t.vpd (e, i) = s.vpd (e, i)
  child : ∀ v, t.vpt (c, v) = if v < n then (s.vpt (e, v)).map childPte else none
  self : ∀ v, t.vpt (e, v) = if v < n then (s.vpt (e, v)).map selfPte else s.vpt (e, v)
  others : ∀ x, x.1 ≠ e → x.1 ≠ c → t.vpt x = s.vpt x

/-- The env goes on in `fork`, and nobody else does anything. -/
def Goes (e : EnvPtr) (s t : State) : Prop := ∃ k, Run step (fun _ _ => True) s (List.replicate k (.forkStep e)) t

variable {s t u : State} {e c : EnvPtr} {st : Stage} {i n n' v : Nat} {w : Word}

theorem Goes.refl (e : EnvPtr) (s : State) : Goes e s s := ⟨0, .nil⟩

theorem Goes.trans (first : Goes e s t) (rest : Goes e t u) : Goes e s u := by
  obtain ⟨k, run⟩ := first
  obtain ⟨k', run'⟩ := rest
  exact ⟨k + k', List.replicate_add .. ▸ run.append run'⟩

theorem Goes.step (idle : s.handler e = none) (h : forkStep e s = some t) (rest : Goes e t u) : Goes e s u := by
  have first : Cow.step s (.forkStep e) = some t := by
    simp only [Cow.step]
    rw [if_pos idle, h]
  exact Goes.trans ⟨1, Run.nil.snoc trivial first⟩ rest

namespace Passed

theorem goto (passed : Passed s t e c n) (st : Stage) : Passed s (t.goto e st) e c n :=
  ⟨fun a other => (Function.update_of_ne other ..).trans (passed.stage a other), passed.handler, passed.entry, passed.mem, passed.dirs,
    passed.child, passed.self, passed.others⟩

theorem skip (passed : Passed s t e c n) (empty : ∀ v, n ≤ v → v < n' → s.vpt (e, v) = none) (less : n ≤ n') : Passed s t e c n' := by
  refine ⟨passed.stage, passed.handler, passed.entry, passed.mem, passed.dirs, fun v => ?_, fun v => ?_, passed.others⟩
  · rw [passed.child v]
    by_cases before : v < n
    · rw [if_pos before, if_pos (Nat.lt_of_lt_of_le before less)]
    · rw [if_neg before]
      split
      · rename_i low
        rw [empty v (Nat.le_of_not_lt before) low, Option.map_none]
      · rfl
  · rw [passed.self v]
    by_cases before : v < n
    · rw [if_pos before, if_pos (Nat.lt_of_lt_of_le before less)]
    · rw [if_neg before]
      split
      · rename_i low
        rw [empty v (Nat.le_of_not_lt before) low, Option.map_none]
      · rfl

theorem next (passed : Passed s t e c n) (apart : c ≠ e) (found : s.vpt (e, n) = some w) (stage : ∀ a, a ≠ e → u.stage a = t.stage a)
    (handler : u.handler = t.handler) (entry : u.tlbModEntry = t.tlbModEntry) (mem : u.mem = t.mem)
    (dirs : ∀ i, u.vpd (e, i) = t.vpd (e, i)) (child : u.vpt (c, n) = some (childPte w)) (self : u.vpt (e, n) = some (selfPte w))
    (others : ∀ x, x ≠ (c, n) → x ≠ (e, n) → u.vpt x = t.vpt x) : Passed s u e c (n + 1) := by
  refine ⟨fun a other => (stage a other).trans (passed.stage a other), handler.trans passed.handler, entry.trans passed.entry,
    mem.trans passed.mem, fun i => (dirs i).trans (passed.dirs i), fun v => ?_, fun v => ?_, fun x mine kid => ?_⟩
  · by_cases here : v = n
    · subst here
      rw [child, if_pos (Nat.lt_succ_self v), found, Option.map_some]
    · rw [others (c, v) (fun eq => here (Prod.mk.inj eq).2) (fun eq => apart (Prod.mk.inj eq).1), passed.child v]
      exact if_congr (by omega) rfl rfl
  · by_cases here : v = n
    · subst here
      rw [self, if_pos (Nat.lt_succ_self v), found, Option.map_some]
    · rw [others (e, v) (fun eq => apart (Prod.mk.inj eq).1.symm) (fun eq => here (Prod.mk.inj eq).2), passed.self v]
      exact if_congr (by omega) rfl rfl
  · rw [others x (fun eq => kid (congrArg Prod.fst eq)) (fun eq => mine (congrArg Prod.fst eq))]
    exact passed.others x mine kid

theorem page (passed : Passed s t e c n) (apart : c ≠ e) (idle : s.handler e = none)
    (tables : ∀ v w, s.vpt (e, v) = some w → s.vpd (e, v / 1024) = true) (at_ : t.stage e = .page c n) (low : n < vpn ustacktop) :
    ∃ u, Goes e t u ∧ Passed s u e c (n + 1) ∧ u.stage e = nextPage c n := by
  have calm : ∀ {t : State}, t.handler = s.handler → t.handler e = none := fun same => same ▸ idle
  have here : t.vpt (e, n) = s.vpt (e, n) := by rw [passed.self n, if_neg (Nat.lt_irrefl n)]
  have gone : ∀ (t : State) st, (t.goto e st).stage e = st := fun t st => Function.update_self ..
  cases found : s.vpt (e, n) with
  | none =>
    refine ⟨t.goto e (nextPage c n), .step (calm passed.handler) ?_ (.refl e _), (passed.goto _).skip (fun v more less => ?_) (Nat.le_succ n),
      gone ..⟩
    · unfold forkStep
      rw [at_]
      dsimp only
      rw [if_neg (Nat.not_le.mpr low), here, found, if_neg nofun]
    · obtain rfl : v = n := by omega
      exact found
  | some w =>
    have there := here.trans found
    let t1 := t.goto e (.duppage c n)
    let t2 := t1.goto e (.mapChild c n (pteFlags w))
    have starts : forkStep e t = some t1 := by
      unfold forkStep
      rw [at_]
      dsimp only
      rw [if_neg (Nat.not_le.mpr low), there, if_pos Option.isSome_some]
    have asks : forkStep e t1 = some t2 := by
      unfold forkStep
      rw [gone]
      show some (t1.goto e (.mapChild c n (pteFlags ((t.vpt (e, n)).getD 0)))) = _
      rw [there, Option.getD_some]
    have away : (e, n) ≠ (c, n) := fun eq => apart (Prod.mk.inj eq).1.symm
    by_cases shared : passedOn (pteFlags w)
    · let t3 := (t2.setPte (c, n) (pteOf (ppn w) (pteFlags w))).goto e (nextPage c n)
      have maps : forkStep e t2 = some t3 := by
        unfold forkStep
        rw [gone]
        dsimp only
        rw [if_pos shared, State.sysMemMap, show t2.vpt (e, n) = some w from there, Option.map_some]
      refine ⟨t3, .step (calm passed.handler) starts (.step (calm passed.handler) asks (.step (calm passed.handler) maps (.refl e _))),
        passed.next apart found (fun a other => ?_) rfl rfl rfl (fun i => ?_) ?_ ?_ (fun x kid mine => ?_), gone ..⟩
      · simp only [t3, t2, t1, State.goto, State.setPte, Function.update_of_ne other]
      · exact Function.update_of_ne (fun eq => apart (Prod.mk.inj eq).1.symm) ..
      · exact (Function.update_self ..).trans (by rw [childPte, if_pos shared])
      · exact (Function.update_of_ne away ..).trans (there.trans (by rw [selfPte, if_pos shared]))
      · exact Function.update_of_ne kid ..
    · let pte := pteOf (ppn w) (cowPerm (pteFlags w))
      let t3 := (t2.setPte (c, n) pte).goto e (.mapSelf c n (pteFlags w))
      let t4 := (t3.setPte (e, n) pte).goto e (nextPage c n)
      have maps : forkStep e t2 = some t3 := by
        unfold forkStep
        rw [gone]
        dsimp only
        rw [if_neg shared, State.sysMemMap, show t2.vpt (e, n) = some w from there, Option.map_some]
      have still : t3.vpt (e, n) = some w := (Function.update_of_ne away ..).trans there
      have remaps : forkStep e t3 = some t4 := by
        unfold forkStep
        rw [gone]
        dsimp only
        rw [State.sysMemMap, still, Option.map_some]
      refine ⟨t4, .step (calm passed.handler) starts (.step (calm passed.handler) asks (.step (calm passed.handler) maps
        (.step (calm passed.handler) remaps (.refl e _)))),
        passed.next apart found (fun a other => ?_) rfl rfl rfl (fun i => ?_) ?_ ?_ (fun x kid mine => ?_), gone ..⟩
      · simp only [t4, t3, t2, t1, State.goto, State.setPte, Function.update_of_ne other]
      · show Function.update (Function.update t.vpd (c, n / 1024) true) (e, n / 1024) true (e, i) = _
        by_cases region : i = n / 1024
        · rw [region, Function.update_self, passed.dirs]
          exact (tables n w found).symm
        · rw [Function.update_of_ne fun eq => region (Prod.mk.inj eq).2, Function.update_of_ne fun eq => region (Prod.mk.inj eq).2]
      · refine (Function.update_of_ne away.symm ..).trans ((Function.update_self ..).trans ?_)
        rw [childPte, if_neg shared]
      · exact (Function.update_self ..).trans (by rw [selfPte, if_neg shared])
      · exact (Function.update_of_ne mine ..).trans (Function.update_of_ne kid ..)

section Loops

variable (apart : c ≠ e) (idle : s.handler e = none) (tables : ∀ v w, s.vpt (e, v) = some w → s.vpd (e, v / 1024) = true)
include apart idle tables

theorem table (passed : Passed s t e c n) (at_ : t.stage e = .page c n) (low : n ≤ vpn ustacktop) (region : n / 1024 = i) :
    ∃ u, Goes e t u ∧ Passed s u e c (min (1024 * (i + 1)) (vpn ustacktop)) ∧ u.stage e = .region c (i + 1) := by
  have top : vpn ustacktop = 521214 := by decide
  obtain ⟨left, eq⟩ := Nat.exists_eq_add_of_le low
  induction left generalizing t n with
  | zero =>
    have full : n = min (1024 * (i + 1)) (vpn ustacktop) := by omega
    refine ⟨t.goto e (.region c (n / 1024 + 1)), .step (passed.handler ▸ idle) ?_ (.refl e _), full ▸ passed.goto _, ?_⟩
    · unfold forkStep
      rw [at_]
      dsimp only
      rw [if_pos (by omega)]
    · rw [← region]
      exact Function.update_self ..
  | succ left ih =>
    obtain ⟨u, goes, passed', at_'⟩ := passed.page apart idle tables at_ (by omega)
    unfold nextPage at at_'
    split at at_'
    · have full : n + 1 = min (1024 * (i + 1)) (vpn ustacktop) := by omega
      have upper : (n + 1) / 1024 = i + 1 := by omega
      exact ⟨u, goes, full ▸ passed', upper ▸ at_'⟩
    · obtain ⟨last, goes', done⟩ := ih passed' at_' (by omega) (by omega) (by omega)
      exact ⟨last, goes.trans goes', done⟩

theorem whole (passed : Passed s t e c (min (1024 * i) (vpn ustacktop))) (at_ : t.stage e = .region c i) (low : i ≤ pdx uxstacktop) :
    ∃ u, Goes e t u ∧ Passed s u e c (vpn ustacktop) ∧ u.stage e = .setEntry c := by
  have top : vpn ustacktop = 521214 := by decide
  have regions : pdx uxstacktop = 509 := by decide
  have calm := passed.handler ▸ idle
  obtain ⟨left, eq⟩ := Nat.exists_eq_add_of_le low
  induction left generalizing t i with
  | zero =>
    have full : min (1024 * i) (vpn ustacktop) = vpn ustacktop := by omega
    refine ⟨t.goto e (.setEntry c), .step calm ?_ (.refl e _), full ▸ passed.goto _, Function.update_self ..⟩
    unfold forkStep
    rw [at_]
    dsimp only
    rw [if_pos (by omega)]
  | succ left ih =>
    have start : min (1024 * i) (vpn ustacktop) = 1024 * i := by omega
    cases valid : t.vpd (e, i) with
    | true =>
      have enters : forkStep e t = some (t.goto e (.page c (1024 * i))) := by
        unfold forkStep
        rw [at_]
        dsimp only
        rw [if_neg (by omega), if_pos valid]
      obtain ⟨u, goes, passed', at_'⟩ := Passed.table apart idle tables (start ▸ passed.goto (.page c (1024 * i)))
        (Function.update_self ..) (by omega) (Nat.mul_div_cancel_left i (by decide))
      obtain ⟨last, goes', done⟩ := ih passed' at_' (by omega) (passed'.handler ▸ idle) (by omega)
      exact ⟨last, .step calm enters (goes.trans goes'), done⟩
    | false =>
      have empty : ∀ v, min (1024 * i) (vpn ustacktop) ≤ v → v < min (1024 * (i + 1)) (vpn ustacktop) → s.vpt (e, v) = none := by
        intro v more less
        by_contra some
        obtain ⟨w, found⟩ := Option.ne_none_iff_exists'.mp some
        have set := tables v w found
        rw [show v / 1024 = i by omega, ← passed.dirs, valid] at set
        cases set
      have skips : forkStep e t = some (t.goto e (.region c (i + 1))) := by
        unfold forkStep
        rw [at_]
        dsimp only
        rw [if_neg (by omega), if_neg (by rw [valid]; nofun)]
      obtain ⟨last, goes', done⟩ := ih ((passed.skip empty (by omega)).goto (.region c (i + 1))) (Function.update_self ..) (by omega)
        calm (by omega)
      exact ⟨last, .step calm skips goes', done⟩

end Loops

end Passed

def Tabled (s : State) : Prop := ∀ x w, s.vpt x = some w → s.vpd (x.1, x.2 / 1024) = true

namespace Tabled

variable {x : Slot}

theorem setPte (tabled : Tabled s) (x : Slot) (w : Word) : Tabled (s.setPte x w) := by
  intro y u found
  show Function.update s.vpd _ true _ = true
  by_cases region : (y.1, y.2 / 1024) = (x.1, x.2 / 1024)
  · rw [region, Function.update_self]
  · rw [Function.update_of_ne region]
    refine tabled y u ?_
    rw [← found]
    exact (Function.update_of_ne (fun eq => region (by rw [eq])) ..).symm

theorem sysMemMap {src dst : Slot} {perm : Word} (tabled : Tabled s) (h : s.sysMemMap src dst perm = some t) : Tabled t := by
  obtain ⟨w, -, rfl⟩ := Option.map_eq_some_iff.mp h
  exact tabled.setPte dst _

theorem sysMemUnmap (tabled : Tabled s) (x : Slot) : Tabled (s.sysMemUnmap x) := by
  intro y u found
  by_cases here : y = x
  · rw [here, show (s.sysMemUnmap x).vpt x = none from Function.update_self ..] at found
    cases found
  · exact tabled y u ((Function.update_of_ne here ..).symm.trans found)

theorem forkStep (tabled : Tabled s) (h : forkStep e s = some t) : Tabled t := by
  unfold Cow.forkStep at h
  split at h
  · split_ifs at h <;> cases h <;> exact tabled
  · split_ifs at h <;> cases h <;> exact tabled
  · cases h
    exact tabled
  · split_ifs at h
    · split at h
      · rename_i mapped
        cases h
        exact fun x w found => tabled.sysMemMap mapped x w found
      · cases h
        exact tabled
    · split at h
      · rename_i mapped
        cases h
        exact fun x w found => tabled.sysMemMap mapped x w found
      · cases h
        exact tabled
  · split at h
    · rename_i mapped
      cases h
      exact fun x w found => tabled.sysMemMap mapped x w found
    · cases h
      exact tabled
  · cases h
    exact tabled
  · cases h
    exact tabled
  · cases h

theorem cowEntry {pp : Nat} (tabled : Tabled s) (h : cowEntry e pp s = some t) : Tabled t := by
  unfold Cow.cowEntry at h
  split at h
  · cases h
  · split_ifs at h <;> cases h <;> exact tabled
  · cases h
    exact tabled.setPte _ _
  · split at h
    · split at h
      · cases h
        exact tabled
      · cases h
    · cases h
      exact tabled
  · obtain ⟨u, mapped, rfl⟩ := Option.map_eq_some_iff.mp h
    exact fun x w found => tabled.sysMemMap mapped x w found
  · cases h
    exact tabled.sysMemUnmap _

theorem step {op : Op} (tabled : Tabled s) (h : step s op = some t) : Tabled t := by
  cases op with
  | store a v i b =>
    simp only [Cow.step, Cow.store] at h
    split at h
    · split at h
      · cases h
      · split_ifs at h <;> cases h <;> exact tabled
    · cases h
  | refill a v pp =>
    simp only [Cow.step] at h
    split_ifs at h
    cases h
    exact tabled.setPte _ _
  | memAlloc a v perm pp =>
    simp only [Cow.step] at h
    split_ifs at h
    cases h
    exact tabled.setPte _ _
  | memMap a v v' perm =>
    simp only [Cow.step] at h
    split_ifs at h
    exact tabled.sysMemMap h
  | memUnmap a v =>
    simp only [Cow.step] at h
    split_ifs at h
    cases h
    exact tabled.sysMemUnmap _
  | forkStep a =>
    simp only [Cow.step] at h
    split_ifs at h
    exact tabled.forkStep h
  | cowEntry a pp => exact tabled.cowEntry h
  | refuse a =>
    simp only [Cow.step] at h
    split at h
    · split_ifs at h
      cases h
      exact tabled
    · cases h
  | reap a =>
    simp only [Cow.step] at h
    split_ifs at h
    cases h
    intro x w found
    have found : (if x.1 = a then none else s.vpt x) = some w := found
    by_cases mine : x.1 = a
    · rw [if_pos mine] at found
      cases found
    · rw [if_neg mine] at found
      exact (if_neg mine).trans (tabled x w found)
  | fork a | exofork a b | exit a =>
    simp only [Cow.step] at h
    split_ifs at h
    cases h
    exact tabled

end Tabled

/-- From where `fork` has made the child, it comes to its end, and the child has each page of the env below `USTACKTOP`:
    a writable page that is not to be shared is a copy-on-write page in both then, and each other page is as it was. -/
theorem fork_passes (at_ : s.stage e = .region c 0) (apart : c ≠ e) (idle : s.handler e = none) (empty : ∀ v, s.vpt (c, v) = none)
    (tabled : Tabled s) : ∃ t, Goes e s t ∧ t.stage = Function.update (Function.update s.stage c .user) e .user ∧ t.handler = s.handler ∧
      t.tlbModEntry = Function.update s.tlbModEntry c true ∧ t.mem = s.mem ∧ (∀ i, t.vpd (e, i) = s.vpd (e, i)) ∧
      (∀ v, t.vpt (c, v) = if v < vpn ustacktop then (s.vpt (e, v)).map childPte else none) ∧
      (∀ v, t.vpt (e, v) = if v < vpn ustacktop then (s.vpt (e, v)).map selfPte else s.vpt (e, v)) ∧
      ∀ x, x.1 ≠ e → x.1 ≠ c → t.vpt x = s.vpt x := by
  have start : Passed s s e c (min (1024 * 0) (vpn ustacktop)) := by
    refine ⟨fun _ _ => rfl, rfl, rfl, rfl, fun _ => rfl, fun v => ?_, fun v => ?_, fun _ _ _ => rfl⟩
    · rw [if_neg (by omega)]
      exact empty v
    · rw [if_neg (by omega)]
  obtain ⟨u, goes, passed, at_'⟩ := Passed.whole apart idle (fun v w => tabled (e, v) w) start at_ (Nat.zero_le _)
  have sets : forkStep e u = some ((u.setEntry c true).goto e (.setStatus c)) := by
    unfold forkStep
    rw [at_']
  let u' := (u.setEntry c true).goto e (.setStatus c)
  have starts : forkStep e u' = some ((u'.goto c .user).goto e .user) := by
    unfold forkStep
    rw [show u'.stage e = .setStatus c from Function.update_self ..]
  have calm : u.handler e = none := passed.handler ▸ idle
  refine ⟨(u'.goto c .user).goto e .user, goes.trans (.step calm sets (.step calm starts (.refl e _))), ?_, passed.handler, ?_,
    passed.mem, passed.dirs, passed.child, passed.self, passed.others⟩
  · funext a
    show Function.update (Function.update (Function.update u.stage e _) c _) e _ a = _
    by_cases mine : a = e
    · rw [mine, Function.update_self, Function.update_self]
    · by_cases kid : a = c
      · rw [kid, Function.update_of_ne apart, Function.update_of_ne apart, Function.update_self, Function.update_self]
      · rw [Function.update_of_ne mine, Function.update_of_ne mine, Function.update_of_ne kid, Function.update_of_ne kid,
          Function.update_of_ne mine]
        exact passed.stage a mine
  · show Function.update u.tlbModEntry c true = _
    rw [passed.entry]

end Mos.Cow
