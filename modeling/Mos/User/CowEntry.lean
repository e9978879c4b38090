import Mos.User.CowRun

namespace Mos.Cow

variable {s t : State} {m : Copies} {e c : EnvPtr} {x : Slot} {w perm : Word} {v pp : Nat}

def copying (s : State) (e : EnvPtr) (v : Nat) (perm : Word) (pp : Nat) (w : Word) (i : Nat) : State :=
  let s := s.sysMemAlloc (e, ucowPage) perm pp
  { s with mem := Function.update s.mem pp fun j => if j.val < i then s.mem (ppn w) j else 0 }.handling e (some (.copy v perm i))

theorem copying_step {i : Nat} (page : v ≠ ucowPage) (found : s.vpt (e, v) = some w) (small : pp < 2 ^ 20) (flags : FlagBits perm)
    (fresh : ppn w ≠ pp) (low : i < 4096) : step (copying s e v perm pp w i) (.cowEntry e pp) = some (copying s e v perm pp w (i + 1)) := by
  let s' := s.sysMemAlloc (e, ucowPage) perm pp
  have away : (e, v) ≠ (e, ucowPage) := fun eq => page (Prod.mk.inj eq).2
  have old : (copying s e v perm pp w i).vpt (e, v) = some w := (Function.update_of_ne away ..).trans found
  have new : (copying s e v perm pp w i).vpt (e, ucowPage) = some (pteOf pp perm) := Function.update_self ..
  have at_ : (copying s e v perm pp w i).handler e = some (.copy v perm i) := Function.update_self ..
  have source : (copying s e v perm pp w i).mem (ppn w) = s'.mem (ppn w) := Function.update_of_ne fresh ..
  have target : (copying s e v perm pp w i).mem pp = fun j => if j.val < i then s'.mem (ppn w) j else 0 := Function.update_self ..
  simp only [Cow.step, Cow.cowEntry]
  rw [at_]
  dsimp only
  rw [dif_pos low, old, new]
  dsimp only
  rw [ppn_pteOf small flags, source, target]
  have bytes : Function.update (fun j : Fin 4096 => if j.val < i then s'.mem (ppn w) j else 0) ⟨i, low⟩ (s'.mem (ppn w) ⟨i, low⟩) =
      fun j => if j.val < i + 1 then s'.mem (ppn w) j else 0 := by
    funext j
    by_cases here : j = ⟨i, low⟩
    · subst here
      rw [Function.update_self, if_pos (Nat.lt_succ_self i)]
    · have other : j.val ≠ i := fun eq => here (Fin.ext eq)
      rw [Function.update_of_ne here]
      exact if_congr (by omega) rfl rfl
  rw [bytes]
  simp only [copying, State.handling, Function.update_idem]
  rfl

theorem copying_run {n : Nat} (page : v ≠ ucowPage) (found : s.vpt (e, v) = some w) (small : pp < 2 ^ 20) (flags : FlagBits perm)
    (fresh : ppn w ≠ pp) (within : n ≤ 4096) : Run step (fun _ _ => True) (copying s e v perm pp w 0)
      (List.replicate n (.cowEntry e pp)) (copying s e v perm pp w n) := by
  induction n with
  | zero => exact .nil
  | succ n ih =>
    rw [List.replicate_succ']
    exact (ih (Nat.le_of_succ_le within)).snoc trivial (copying_step page found small flags fresh within)

/-- From the fault on, `cow_entry` maps a private copy of the page that the env may write, and changes nothing else. -/
theorem cowEntry_run (at_ : s.handler e = some (.entered v)) (page : v ≠ ucowPage) (bare : s.vpt (e, ucowPage) = none)
    (found : s.vpt (e, v) = some w) (isCow : cow w = true) (small : pp < 2 ^ 20) (fresh : ppn w ≠ pp) :
    ∃ t, Run step (fun _ _ => True) s (List.replicate 4101 (.cowEntry e pp)) t ∧ t.stage = s.stage ∧
      t.handler = Function.update s.handler e none ∧ t.tlbModEntry = s.tlbModEntry ∧
      t.vpt = Function.update s.vpt (e, v) (some (pteOf pp (ownPerm (pteFlags w)))) ∧
      t.mem = Function.update s.mem pp (s.mem (ppn w)) := by
  let perm := ownPerm (pteFlags w)
  have flags : FlagBits perm := flagBits_ownPerm (flagBits_pteFlags w)
  have away : (e, v) ≠ (e, ucowPage) := fun eq => page (Prod.mk.inj eq).2
  -- the flags of the page
  have known : s.perm (e, v) = pteFlags w := by rw [State.perm, found, Option.getD_some]
  have checked : step s (.cowEntry e pp) = some (s.handling e (some (.alloc v perm))) := by
    simp only [Cow.step, Cow.cowEntry]
    rw [at_]
    dsimp only
    rw [known, if_neg (bne_iff_ne.mp ((cow_pteFlags (w := w)).trans isCow))]
  -- a new page at `UCOW`
  have allocated : step (s.handling e (some (.alloc v perm))) (.cowEntry e pp) = some (copying s e v perm pp w 0) := by
    have here : (s.handling e (some (.alloc v perm))).handler e = some (.alloc v perm) := Function.update_self ..
    simp only [Cow.step, Cow.cowEntry]
    rw [here]
    simp only [copying, State.handling, State.sysMemAlloc, State.setPte, Function.update_idem]
    rfl
  have copied := copying_run (n := 4096) page found small flags fresh (Nat.le_refl _)
  have before : Run step (fun _ _ => True) s [.cowEntry e pp, .cowEntry e pp] (copying s e v perm pp w 0) :=
    (Run.nil.snoc trivial checked).snoc trivial allocated
  let done := copying s e v perm pp w 4096
  have here : done.handler e = some (.copy v perm 4096) := Function.update_self ..
  have stops : step done (.cowEntry e pp) = some (done.handling e (some (.map v perm))) := by
    simp only [Cow.step, Cow.cowEntry]
    rw [here]
    rfl
  have new : done.vpt (e, ucowPage) = some (pteOf pp perm) := Function.update_self ..
  have maps : step (done.handling e (some (.map v perm))) (.cowEntry e pp) =
      some (((done.handling e (some (.map v perm))).setPte (e, v) (pteOf pp perm)).handling e (some (.unmap v))) := by
    have turned : (done.handling e (some (.map v perm))).handler e = some (.map v perm) := Function.update_self ..
    simp only [Cow.step, Cow.cowEntry]
    rw [turned]
    simp only [State.sysMemMap]
    rw [show (done.handling e (some (.map v perm))).vpt (e, ucowPage) = _ from new, Option.map_some, Option.map_some, ppn_pteOf small flags]
  let mapped := ((done.handling e (some (.map v perm))).setPte (e, v) (pteOf pp perm)).handling e (some (.unmap v))
  have unmaps : step mapped (.cowEntry e pp) = some ((mapped.sysMemUnmap (e, ucowPage)).handling e none) := by
    have turned : mapped.handler e = some (.unmap v) := Function.update_self ..
    simp only [Cow.step, Cow.cowEntry]
    rw [turned]
  have whole : List.replicate 4101 (Op.cowEntry e pp) = [.cowEntry e pp, .cowEntry e pp] ++ List.replicate 4096 (.cowEntry e pp) ++
      [.cowEntry e pp] ++ [.cowEntry e pp] ++ [.cowEntry e pp] := by
    have split (a b : Nat) : List.replicate (a + b) (Op.cowEntry e pp) = _ := List.replicate_add ..
    rw [show 4101 = 2 + 4096 + 1 + 1 + 1 from rfl, split, split, split, split]
    rfl
  refine ⟨(mapped.sysMemUnmap (e, ucowPage)).handling e none, ?_, rfl, ?_, rfl, ?_, ?_⟩
  · rw [whole]
    exact (((before.append copied).snoc trivial stops).snoc trivial maps).snoc trivial unmaps
  · simp only [State.handling, State.sysMemUnmap, State.setPte, mapped, done, copying, State.sysMemAlloc, Function.update_idem]
  · show Function.update (Function.update (Function.update s.vpt (e, ucowPage) (some (pteOf pp perm))) (e, v)
      (some (pteOf pp perm))) (e, ucowPage) none = _
    rw [Function.update_comm away.symm, Function.update_idem, Function.update_comm away, ← bare, Function.update_eq_self]
  · show Function.update (Function.update s.mem pp fun _ => 0) pp _ = _
    rw [Function.update_idem]
    refine congrArg (Function.update s.mem pp) (funext fun j => ?_)
    rw [if_pos j.isLt]
    exact congrFun (Function.update_of_ne fresh ..) j

theorem store_through {i : Fin 4096} {b : BitVec 8} (runs : (s.stage e).runs = true) (idle : s.handler e = none)
    (entry : s.tlbModEntry e = true) (page : v ≠ ucowPage) (bare : s.vpt (e, ucowPage) = none) (found : s.vpt (e, v) = some w)
    (isCow : cow w = true) (dry : writable w = false) (small : pp < 2 ^ 20) (fresh : ppn w ≠ pp) :
    ∃ t, Run step (fun _ _ => True) s ([.store e v i b] ++ List.replicate 4101 (.cowEntry e pp) ++ [.store e v i b]) t ∧
      t.stage = s.stage ∧ t.handler = s.handler ∧ t.vpt = Function.update s.vpt (e, v) (some (pteOf pp (ownPerm (pteFlags w)))) ∧
      t.mem = Function.update s.mem pp (Function.update (s.mem (ppn w)) i b) := by
  let faulted := s.handling e (some (.entered v))
  have faults : step s (.store e v i b) = some faulted := by
    simp only [Cow.step, store]
    rw [if_pos runs, found]
    dsimp only
    rw [if_neg (not_not.mpr (bne_eq_false_iff_eq.mp dry)), if_pos ⟨idle, entry⟩]
  have entered : faulted.handler e = some (.entered v) := Function.update_self ..
  obtain ⟨mid, handled, stage, handler, -, vpt, mem⟩ := cowEntry_run entered page bare found isCow small fresh
  -- the store is made again
  have frame : ppn (pteOf pp (ownPerm (pteFlags w))) = pp := ppn_pteOf small (flagBits_ownPerm (flagBits_pteFlags w))
  have mine : mid.vpt (e, v) = some (pteOf pp (ownPerm (pteFlags w))) := by rw [vpt, Function.update_self]
  have dirty : writable (pteOf pp (ownPerm (pteFlags w))) = true := by rw [writable_pteOf, writable_ownPerm]
  let t : State := { mid with mem := Function.update mid.mem pp (Function.update (mid.mem pp) i b) }
  have stores : step mid (.store e v i b) = some t := by
    simp only [Cow.step, store]
    rw [if_pos (stage ▸ runs), mine]
    dsimp only
    rw [if_pos (bne_iff_ne.mp dirty), frame]
  refine ⟨t, ((Run.nil.snoc trivial faults).append handled).snoc trivial stores, stage, ?_, vpt, ?_⟩
  · show mid.handler = _
    rw [handler]
    show Function.update (Function.update s.handler e _) e none = _
    rw [Function.update_idem, ← idle, Function.update_eq_self]
  · show Function.update mid.mem pp _ = _
    rw [mem, Function.update_idem, Function.update_self]
    rfl

/-- Whatever the envs have done before, a store of an env to a copy-on-write page goes through, by way of `cow_entry`. It
    changes this byte of this page of this env, and nothing else that an env can read. -/
theorem cow_store {ops : List Op} {i : Fin 4096} {b : BitVec 8} (started : Started s)
    (run : Run both (fun s op => Guard s.1 op) (s, copiesOf s) ops (t, m)) (runs : (t.stage e).runs = true)
    (idle : t.handler e = none) (page : v ≠ ucowPage) (found : t.vpt (e, v) = some w) (isCow : w &&& pteCow ≠ 0)
    (small : pp < 2 ^ 20) (unmapped : Unmapped t pp) :
    ∃ u, Run step (fun _ _ => True) t ([.store e v i b] ++ List.replicate 4101 (.cowEntry e pp) ++ [.store e v i b]) u ∧
      u.reads (e, v) = some (Function.update (t.mem (ppn w)) i b) ∧ (∀ x, x ≠ (e, v) → u.reads x = t.reads x) ∧
      u.stage = t.stage ∧ u.handler = t.handler := by
  have env := (run_inv started run).env e
  have isCow : cow w = true := bne_iff_ne.mpr isCow
  obtain ⟨u, stored, stage, handler, vpt, mem⟩ := store_through (i := i) (b := b) runs idle (env.catches runs v w found isCow) page
    (env.bare idle) found isCow (env.legal v w found isCow).1 small (unmapped (e, v) w found)
  refine ⟨u, stored, ?_, fun x other => ?_, stage, handler⟩
  · have frame : ppn (pteOf pp (ownPerm (pteFlags w))) = pp := ppn_pteOf small (flagBits_ownPerm (flagBits_pteFlags w))
    rw [State.reads, vpt, Function.update_self, Option.map_some, frame, mem, Function.update_self]
  · rw [State.reads, State.reads, vpt, Function.update_of_ne other, mem]
    refine Option.map_congr fun w' found' => ?_
    exact Function.update_of_ne (unmapped x w' found') ..

/-- The child of `lone` stores another byte in the page that it has from its parent. -/
theorem cow_store_lone : ∃ (ops : List Op) (t : State) (m : Copies) (u : State),
    Run both (fun s op => Guard s.1 op) (lone, copiesOf lone) ops (t, m) ∧
    Run step (fun _ _ => True) t ([.store 1 1024 0 9] ++ List.replicate 4101 (.cowEntry 1 6) ++ [.store 1 1024 0 9]) u ∧
    u.reads (1, 1024) = some (Function.update (t.mem 5) 0 9) ∧ u.reads (0, 1024) = t.reads (0, 1024) := by
  obtain ⟨ops, t, m, run, forked⟩ := lone_forks
  have page : (1024 : Nat) ≠ ucowPage := by decide
  have unmapped : Unmapped t 6 := fun x w found => by
    rw [forked.frames x w found]
    decide
  obtain ⟨u, stored, reads, others, -⟩ := cow_store (i := 0) (b := 9) lone_started run (by rw [forked.child]; rfl)
    (congrFun forked.idle 1) page forked.kid (by decide)
    (by decide) unmapped
  exact ⟨ops, t, m, u, run, stored, forked.frames _ _ forked.kid ▸ reads, others (0, 1024) (by decide)⟩

/-- The last condition of `Guard` is needed: when a store of an env in `fork` faults in a page between the reading of its flags and
    its mapping in the child, the child gets the new page of the env, which the env goes on writing to. -/
theorem stale_flags_share {ops : List Op} {i : Fin 4096} {b : BitVec 8} (started : Started s)
    (run : Run both (fun s op => Guard s.1 op) (s, copiesOf s) ops (t, m)) (at_ : t.stage e = .mapChild c v perm)
    (idle : t.handler e = none) (found : t.vpt (e, v) = some w) (isCow : w &&& pteCow ≠ 0) (small : pp < 2 ^ 20)
    (unmapped : Unmapped t pp) : ∃ u w' w'', Run step (fun _ _ => True) t ([.store e v i b] ++ List.replicate 4101 (.cowEntry e pp) ++
      [.store e v i b] ++ [.forkStep e]) u ∧ u.vpt (e, v) = some w' ∧ u.vpt (c, v) = some w'' ∧ ppn w' = ppn w'' ∧
      w' &&& pteD ≠ 0 ∧ w' &&& pteLibrary = 0 := by
  have env := (run_inv started run).env e
  have runs : (t.stage e).runs = true := by
    rw [at_]
    rfl
  have apart : c ≠ e := env.away runs (by rw [at_]; rfl)
  have isCow : cow w = true := bne_iff_ne.mpr isCow
  obtain ⟨page, w', same, flags⟩ : v ≠ ucowPage ∧ ∃ w, t.vpt (e, v) = some w ∧ perm = pteFlags w := by
    have ok := env.stage
    rw [at_] at ok
    exact ok
  obtain rfl := Option.some.inj (same.symm.trans found)
  obtain ⟨dry, own⟩ := env.legal v w' found isCow
  obtain ⟨mid, stored, stage, handler, vpt, mem⟩ := store_through (i := i) (b := b) runs idle (env.catches runs v w' found isCow) page
    (env.bare idle) found isCow dry small (unmapped (e, v) w' found)
  let mine := pteOf pp (ownPerm (pteFlags w'))
  have frame : ppn mine = pp := ppn_pteOf small (flagBits_ownPerm (flagBits_pteFlags w'))
  have here : mid.vpt (e, v) = some mine := by rw [vpt, Function.update_self]
  have shares : passedOn perm := passedOn_iff.mpr (.inr (.inr (by rw [flags, cow_pteFlags, isCow])))
  let u := (mid.setPte (c, v) (pteOf pp perm)).goto e (nextPage c v)
  have maps : step mid (.forkStep e) = some u := by
    simp only [Cow.step, forkStep]
    rw [if_pos (handler ▸ idle), stage, at_]
    dsimp only
    rw [if_pos shares, State.sysMemMap, here, Option.map_some, frame]
  have away : (e, v) ≠ (c, v) := fun eq => apart (Prod.mk.inj eq).1.symm
  refine ⟨u, mine, pteOf pp perm, stored.snoc trivial maps, (Function.update_of_ne away ..).trans here, Function.update_self .., ?_, ?_, ?_⟩
  · rw [frame, ppn_pteOf small (flags ▸ flagBits_pteFlags w')]
  · have dirty : writable mine = true := by rw [writable_pteOf, writable_ownPerm]
    exact bne_iff_ne.mp dirty
  · have private' : library mine = false := by rw [library_pteOf, library_ownPerm, library_pteFlags, own]
    exact bne_eq_false_iff_eq.mp private'

theorem lone_reforks : ∃ (ops : List Op) (t : State) (m : Copies), Run both (fun s op => Guard s.1 op) (lone, copiesOf lone) ops (t, m) ∧
    t.stage 0 = .mapChild 2 1024 (cowPerm (pteFlags (pteOf 5 pteD))) ∧ t.handler 0 = none ∧ (∀ x w, t.vpt x = some w → ppn w = 5) ∧
    t.vpt (0, 1024) = some (pteOf 5 (cowPerm (pteFlags (pteOf 5 pteD)))) := by
  obtain ⟨ops, s, m, run, forked⟩ := lone_forks
  have idle := congrFun forked.idle 0
  let t1 := (s.setEntry 0 true).goto 0 .exofork
  let t2 := ((t1.setEntry 2 false).goto 2 (.embryo 0)).goto 0 (.region 2 0)
  let t3 := t2.goto 0 (.region 2 1)
  let t4 := t3.goto 0 (.page 2 1024)
  let t5 := t4.goto 0 (.duppage 2 1024)
  let t6 := t5.goto 0 (.mapChild 2 1024 (cowPerm (pteFlags (pteOf 5 pteD))))
  have calls : step s (.fork 0) = some t1 := if_pos ⟨forked.parent, idle⟩
  have makes : step t1 (.exofork 0 2) = some t2 :=
    if_pos ⟨rfl, idle, forked.free⟩
  have goes : ∀ {t t' : State}, t.handler = s.handler → forkStep 0 t = some t' → step t (.forkStep 0) = some t' := by
    intro t t' same next
    simp only [Cow.step]
    rw [if_pos (same ▸ idle), next]
  have stage : ∀ (t : State) st, (t.goto 0 st).stage 0 = st := fun _ _ => rfl
  have first : forkStep 0 t2 = some t3 := by
    unfold forkStep
    rw [stage]
    dsimp only
    rw [if_neg (by decide), show t2.vpd (0, 0) = false from forked.dirs.1, if_neg (by decide)]
  have second : forkStep 0 t3 = some t4 := by
    unfold forkStep
    rw [stage]
    dsimp only
    rw [if_neg (by decide), show t3.vpd (0, 1) = true from forked.dirs.2, if_pos rfl]
  have third : forkStep 0 t4 = some t5 := by
    unfold forkStep
    rw [stage]
    dsimp only
    rw [if_neg (by decide), show t4.vpt (0, 1024) = _ from forked.mine, if_pos Option.isSome_some]
  have fourth : forkStep 0 t5 = some t6 := by
    unfold forkStep
    rw [stage]
    dsimp only
    rw [State.perm, show t5.vpt (0, 1024) = _ from forked.mine]
    rfl
  have more : Run step (fun _ _ => True) s [.fork 0, .exofork 0 2, .forkStep 0, .forkStep 0, .forkStep 0, .forkStep 0] t6 :=
    (((((Run.nil.snoc trivial calls).snoc trivial makes).snoc trivial (goes rfl first)).snoc trivial (goes rfl second)).snoc trivial
      (goes rfl third)).snoc trivial (goes rfl fourth)
  have free : ∀ op ∈ [Op.fork 0, .exofork 0 2, .forkStep 0, .forkStep 0, .forkStep 0, .forkStep 0], ∀ s, Guard s op := by
    intro op inside s
    simp only [List.mem_cons, List.not_mem_nil, or_false] at inside
    rcases inside with rfl | rfl | rfl | rfl | rfl | rfl <;> trivial
  obtain ⟨m', more⟩ := lifts more free m
  exact ⟨_, t6, m', run.append more, rfl, idle, forked.frames, forked.mine⟩

theorem stale_flags_share_lone : ∃ (ops : List Op) (t : State) (m : Copies) (u : State) (w' w'' : Word),
    Run both (fun s op => Guard s.1 op) (lone, copiesOf lone) ops (t, m) ∧
    Run step (fun _ _ => True) t ([.store 0 1024 0 9] ++ List.replicate 4101 (.cowEntry 0 6) ++ [.store 0 1024 0 9] ++ [.forkStep 0]) u ∧
    u.vpt (0, 1024) = some w' ∧ u.vpt (2, 1024) = some w'' ∧ ppn w' = ppn w'' ∧ w' &&& pteD ≠ 0 := by
  obtain ⟨ops, t, m, run, at_, idle, frames, mine⟩ := lone_reforks
  have unmapped : Unmapped t 6 := fun x w found => by
    rw [frames x w found]
    decide
  obtain ⟨u, w', w'', shared, first, second, same, dirty, -⟩ := stale_flags_share (i := 0) (b := 9) lone_started run at_ idle mine
    (by decide) (by decide) unmapped
  exact ⟨ops, t, m, u, w', w'', run, shared, first, second, same, dirty⟩

end Mos.Cow
