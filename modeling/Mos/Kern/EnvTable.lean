import Mos.Kern.Table

namespace Mos

/-- `env_free_list` holds each free env once and no other, envs in use have different ASIDs, exactly theirs are
    marked in the bitmap, and `ENVX` of an id in use is the index of its env. -/
structure Table.WellFormed (t : Table) : Prop where
  once : t.freeList.Nodup
  listed : ∀ e, e ∈ t.freeList ↔ (t.slots e).status = .free
  distinct : ∀ e b, (t.slots e).status ≠ .free → (t.slots b).status ≠ .free → (t.slots e).asid = (t.slots b).asid → e = b
  bitmap : ∀ a, t.asids a = true ↔ ∃ e, (t.slots e).status ≠ .free ∧ (t.slots e).asid = a
  index : ∀ e, (t.slots e).status ≠ .free → envx (t.slots e).id = e

namespace Table

structure Kept (a b : Slot) : Prop where
  id : b.id = a.id
  asid : b.asid = a.asid
  free : b.status = .free ↔ a.status = .free

theorem Kept.refl (a : Slot) : Kept a a := ⟨rfl, rfl, Iff.rfl⟩

theorem kept_set {t : Table} {e : EnvPtr} {s : Slot} (kept : Kept (t.slots e) s) (b : EnvPtr) :
    Kept (t.slots b) ((t.set e s).slots b) := by
  by_cases same : b = e
  · rw [same, set_self]
    exact kept
  · rw [set_other t s same]
    exact .refl _

theorem WellFormed.keep {t t' : Table} (wf : t.WellFormed) (list : t'.freeList = t.freeList) (asids : t'.asids = t.asids)
    (kept : ∀ b, Kept (t.slots b) (t'.slots b)) : t'.WellFormed := by
  have used : ∀ b, (t'.slots b).status ≠ .free ↔ (t.slots b).status ≠ .free := fun b => not_congr (kept b).free
  refine ⟨list ▸ wf.once, fun e => ?_, fun e b usedE usedB same => ?_, fun a => ?_, fun e usedE => ?_⟩
  · rw [list, wf.listed, (kept e).free]
  · rw [(kept e).asid, (kept b).asid] at same
    exact wf.distinct e b ((used e).mp usedE) ((used b).mp usedB) same
  · rw [asids, wf.bitmap]
    exact exists_congr fun e => by rw [used e, (kept e).asid]
  · rw [(kept e).id]
    exact wf.index e ((used e).mp usedE)

theorem WellFormed.create {t : Table} {e : EnvPtr} {rest : List EnvPtr} {s : Slot} (wf : t.WellFormed)
    (list : t.freeList = e :: rest) (index : envx s.id = e) (unused : t.asids s.asid = false) (used : s.status ≠ .free) :
    { t.set e s with freeList := rest, asids := Function.update t.asids s.asid true }.WellFormed := by
  have once := wf.once
  rw [list, List.nodup_cons] at once
  have taken : ∀ b, (t.slots b).status ≠ .free → (t.slots b).asid ≠ s.asid := by
    intro b usedB same
    have marked := (wf.bitmap s.asid).mpr ⟨b, usedB, same⟩
    exact Bool.false_ne_true (unused.symm.trans marked)
  have fresh : (t.slots e).status = .free := (wf.listed e).mp (by simp [list])
  refine ⟨once.2, fun b => ?_, fun b c usedB usedC same => ?_, fun a => ?_, fun b usedB => ?_⟩
  · by_cases here : b = e
    · subst here
      exact iff_of_false once.1 (by simpa using used)
    · have inside := wf.listed b
      rw [list, List.mem_cons] at inside
      simpa [set_other t s here, here] using inside
  · by_cases hereB : b = e <;> by_cases hereC : c = e
    · rw [hereB, hereC]
    · simp only [hereB, set_self, set_other t s hereC] at same usedC
      exact absurd same.symm (taken c usedC)
    · simp only [hereC, set_self, set_other t s hereB] at same usedB
      exact absurd same (taken b usedB)
    · simp only [set_other t s hereB, set_other t s hereC] at same usedB usedC
      exact wf.distinct b c usedB usedC same
  · by_cases mine : a = s.asid
    · subst mine
      exact iff_of_true (Function.update_self _ _ _) ⟨e, by simpa using used, by simp⟩
    · simp only [Function.update_of_ne mine, wf.bitmap]
      constructor
      · rintro ⟨b, usedB, same⟩
        have other : b ≠ e := fun here => usedB (here ▸ fresh)
        exact ⟨b, by simpa [set_other t s other] using usedB, by simpa [set_other t s other] using same⟩
      · rintro ⟨b, usedB, same⟩
        have other : b ≠ e := by
          rintro rfl
          simp only [set_self] at same
          exact mine same.symm
        exact ⟨b, by simpa [set_other t s other] using usedB, by simpa [set_other t s other] using same⟩
  · by_cases here : b = e
    · simpa [here] using index
    · simp only [set_other t s here] at usedB ⊢
      exact wf.index b usedB

theorem WellFormed.reap {t : Table} {e : EnvPtr} (wf : t.WellFormed) (used : (t.slots e).status ≠ .free) :
    { t.set e { t.slots e with status := .free } with
      freeList := e :: t.freeList, asids := Function.update t.asids (t.slots e).asid false }.WellFormed := by
  have others : ∀ {b : EnvPtr}, b ≠ e → (t.set e { t.slots e with status := .free }).slots b = t.slots b :=
    fun ne => set_other t _ ne
  have still : ∀ {b : EnvPtr}, ((t.set e { t.slots e with status := .free }).slots b).status ≠ .free → b ≠ e := by
    rintro b usedB rfl
    exact usedB (by simp)
  refine ⟨?_, fun b => ?_, fun b c usedB usedC same => ?_, fun a => ?_, fun b usedB => ?_⟩
  · exact List.nodup_cons.mpr ⟨fun inside => used ((wf.listed e).mp inside), wf.once⟩
  · by_cases here : b = e
    · subst here
      exact iff_of_true List.mem_cons_self (by simp)
    · simp only [List.mem_cons, here, false_or, others here]
      exact wf.listed b
  · simp only [others (still usedB), others (still usedC)] at same usedB usedC
    exact wf.distinct b c usedB usedC same
  · by_cases mine : a = (t.slots e).asid
    · subst mine
      refine iff_of_false (by simp) ?_
      rintro ⟨b, usedB, same⟩
      have other := still usedB
      simp only [others other] at usedB same
      exact other (wf.distinct b e usedB used same)
    · simp only [Function.update_of_ne mine, wf.bitmap]
      constructor
      · rintro ⟨b, usedB, same⟩
        have other : b ≠ e := fun here => mine (by rw [← same, here])
        exact ⟨b, by simpa [others other] using usedB, by simpa [others other] using same⟩
      · rintro ⟨b, usedB, same⟩
        have other := still usedB
        simp only [others other] at usedB same
        exact ⟨b, usedB, same⟩
  · have other := still usedB
    simp only [others other] at usedB ⊢
    exact wf.index b usedB

theorem WellFormed.step {t t' : Table} {ev : Event} (wf : t.WellFormed)
    (running : ∀ e, t.current = some e → t.Runnable e) (next : Step t ev t') : t'.WellFormed := by
  have busy : ∀ e, t.current = some e → (t.slots e).status ≠ .free := by
    intro e current free
    cases free.symm.trans (running e current)
  cases next with
  | quiet resumes => exact wf.keep rfl rfl fun b => .refl _
  | create list index unused used alive caller => exact wf.create list index unused used
  | exit current runs =>
    refine wf.keep rfl rfl (kept_set ⟨rfl, rfl, ?_⟩)
    exact iff_of_false (fun free => by cases free) (busy _ current)
  | reap current other child zombie =>
    refine wf.reap ?_
    rw [zombie]
    exact fun free => by cases free
  | setStatus current controls used target resumes =>
    refine wf.keep rfl rfl (kept_set ⟨rfl, rfl, iff_of_false ?_ used⟩)
    rcases target with rfl | rfl <;> exact fun free => by cases free
  | deliver used recving =>
    refine wf.keep rfl rfl (kept_set ⟨rfl, rfl, iff_of_false ?_ used⟩)
    exact fun free => by cases free
  | receive current runs =>
    refine wf.keep rfl rfl (kept_set ⟨rfl, rfl, ?_⟩)
    exact iff_of_false (fun free => by cases free) (busy _ current)

end Table

theorem boot_wellFormed {npage : Nat} {mem : Nat → Nat → Word} {k : Kernel} (booted : boot npage mem = some k) :
    k.table.WellFormed := by
  obtain ⟨p, vm, _, _, rfl⟩ := boot_init booted
  have free : ∀ e, ((initKernel p vm).table.slots e).status = .free := fun e => rfl
  have all : ∀ e, e ∈ (initKernel p vm).table.freeList := by
    intro e
    simp only [initKernel, Kernel.table]
    exact List.mem_finRange e
  refine ⟨?_, fun e => iff_of_true (all e) (free e), fun e b used => absurd (free e) used,
    fun a => iff_of_false Bool.false_ne_true ?_, fun e used => absurd (free e) used⟩
  · simp only [initKernel, Kernel.table]
    exact List.nodup_finRange 1024
  · rintro ⟨e, used, _⟩
    exact used (free e)

theorem step_wellFormed {op : Op} {k k' : Kernel} (inv : EnvInv k) (wf : k.table.WellFormed) (h : step k op = some k') :
    k'.table.WellFormed := wf.step inv.current (step_table inv h)

/-- The env table is well formed in every state that a run from boot reaches. -/
theorem envTable_wellFormed {npage : Nat} {mem : Nat → Nat → Word} {k0 k : Kernel} {ops : List Op}
    (booted : boot npage mem = some k0) (run : Run step (fun _ _ => True) k0 ops k) : k.table.WellFormed :=
  (run.invariant (fun k => EnvInv k ∧ k.table.WellFormed) ⟨boot_envInv booted, boot_wellFormed booted⟩
    fun _ _ _ inv _ next => ⟨step_envInv inv.1 next, step_wellFormed inv.1 inv.2 next⟩).2

/-- The child 4097 exits with status 7 and its parent reaps it. -/
def exitRun : List Op :=
  [.envCreate emptyBinary 1, .timer zeroFrame, .call .exofork, .call (.setEnvStatus 4097 1), .call .yield,
    .call (.envDestroy 0 7), .call (.envDestroy 4097 0)]

set_option maxRecDepth 100000 in
theorem envTable_wellFormed_exitRun : ∃ k0 k, clearBoot = some k0 ∧ Run step (fun _ _ => True) k0 exitRun k ∧
    k.table.WellFormed := by
  have check : (clearBoot.bind fun k0 => Run.exec step k0 exitRun).isSome = true := by
    rw [clearBoot_eq]
    decide +kernel
  obtain ⟨k, check⟩ := Option.isSome_iff_exists.mp check
  obtain ⟨k0, booted, exec⟩ := Option.bind_eq_some_iff.mp check
  have run := Run.of_exec (fun _ _ _ => trivial) exec
  exact ⟨k0, k, booted, run, envTable_wellFormed booted run⟩

end Mos
