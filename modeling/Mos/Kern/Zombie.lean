import Mos.Kern.EnvTable

namespace Mos

/-- The machine with a record of the envs that `env_create` made. -/
structure Family where
  k : Kernel
  root : EnvPtr → Bool

def recordRoot (root : EnvPtr → Bool) : Event → EnvPtr → Bool
  | .create e none => Function.update root e true
  | .create e (some _) => Function.update root e false
  | _ => root

def Family.step (f : Family) (op : Op) : Option Family :=
  (Mos.step f.k op).map fun k => { k := k, root := recordRoot f.root (event f.k op) }

def Family.start (k : Kernel) : Family := { k := k, root := fun _ => false }

/-- A process that can still call `wait`. -/
def Table.Alive (t : Table) (e : EnvPtr) : Prop := (t.slots e).status = .runnable ∨ (t.slots e).status = .notRunnable

theorem Table.Alive.used {t : Table} {e : EnvPtr} (alive : t.Alive e) : (t.slots e).status ≠ .free := by
  rcases alive with on | off
  · rw [on]
    exact fun free => by cases free
  · rw [off]
    exact fun free => by cases free

/-- `c` is in use, was forked, and has the id of `e` as its `env_parent_id`. -/
structure Child (t : Table) (root : EnvPtr → Bool) (e c : EnvPtr) : Prop where
  used : (t.slots c).status ≠ .free
  forked : root c = false
  parent : (t.slots c).parent = (t.slots e).id

/-- Every zombie that was forked has a live parent. -/
def Reapable (t : Table) (root : EnvPtr → Bool) : Prop :=
  ∀ c, (t.slots c).status = .zombie → root c = false → ∃ e, Child t root e c ∧ t.Alive e

/-- Every forked env has a live parent. -/
def Fostered (t : Table) (root : EnvPtr → Bool) : Prop :=
  ∀ c, (t.slots c).status ≠ .free → root c = false → ∃ e, Child t root e c ∧ t.Alive e

def ExitGuard (f : Family) (op : Op) : Prop :=
  ∀ e status, event f.k op = .exit e status → ∀ c, ¬ Child f.k.table f.root e c

theorem Fostered.reapable {t : Table} {root : EnvPtr → Bool} (fostered : Fostered t root) : Reapable t root :=
  fun c zombie => fostered c (by rw [zombie]; exact fun free => by cases free)

theorem Fostered.keep {t t' : Table} {root : EnvPtr → Bool} (fostered : Fostered t root)
    (kept : ∀ c, (t'.slots c).status ≠ .free → (t.slots c).status ≠ .free ∧ (t'.slots c).parent = (t.slots c).parent)
    (parents : ∀ e c, Child t root e c → (t'.slots c).status ≠ .free → t.Alive e →
      t'.Alive e ∧ (t'.slots e).id = (t.slots e).id) : Fostered t' root := by
  intro c used forked
  obtain ⟨before, parent⟩ := kept c used
  obtain ⟨e, child, alive⟩ := fostered c before forked
  obtain ⟨alive', id⟩ := parents e c child used alive
  exact ⟨e, ⟨used, forked, by rw [parent, id, child.parent]⟩, alive'⟩

namespace Table

variable {t : Table} {root : EnvPtr → Bool} {e : EnvPtr} {s : Slot}

/-- A slot that stays in use under the same id and parent, of an env that stays alive or has no children. -/
theorem fostered_set {t' : Table} (fostered : Fostered t root) (slots : t'.slots = (t.set e s).slots)
    (used : (t.slots e).status ≠ .free) (id : s.id = (t.slots e).id) (parent : s.parent = (t.slots e).parent)
    (alive : (s.status = .runnable ∨ s.status = .notRunnable) ∨ ∀ c, ¬ Child t root e c) : Fostered t' root := by
  refine fostered.keep (fun c usedC => ?_) fun b c child _ aliveB => ?_
  · rw [slots] at usedC ⊢
    by_cases same : c = e
    · subst same
      rw [set_self]
      exact ⟨used, parent⟩
    · rw [set_other t s same] at usedC ⊢
      exact ⟨usedC, rfl⟩
  · rw [Alive, slots]
    by_cases same : b = e
    · subst same
      rw [set_self]
      exact ⟨alive.resolve_right fun none => none c child, id⟩
    · rw [set_other t s same]
      exact ⟨aliveB, rfl⟩

theorem fostered_step {t' : Table} {ev : Event} (running : ∀ e, t.current = some e → t.Runnable e)
    (wf : t.WellFormed) (fostered : Fostered t root) (next : Step t ev t')
    (last : ∀ e status, ev = .exit e status → ∀ c, ¬ Child t root e c) : Fostered t' (recordRoot root ev) := by
  have busy : ∀ e, t.current = some e → (t.slots e).status ≠ .free := by
    intro e current free
    cases free.symm.trans (running e current)
  cases next with
  | quiet resumes => exact fostered.keep (fun _ used => ⟨used, rfl⟩) fun _ _ _ _ alive => ⟨alive, rfl⟩
  | @create e parent rest id asid status list index unused used alive caller =>
    have fresh : (t.slots e).status = .free := (wf.listed e).mp (by simp [list])
    have others : ∀ {b : EnvPtr} {s : Slot}, t.Alive b → (t.set e s).slots b = t.slots b := by
      intro b s aliveB
      refine set_other t s ?_
      rintro rfl
      rcases aliveB with on | off
      · cases fresh.symm.trans on
      · cases fresh.symm.trans off
    intro c usedC forked
    by_cases same : c = e
    · subst same
      cases parent with
      | none => simp [recordRoot] at forked
      | some p =>
        have current := caller p rfl
        have aliveP : t.Alive p := Or.inl (running p current)
        refine ⟨p, ⟨usedC, forked, ?_⟩, ?_⟩
        · simp [others aliveP]
        · show (_ ∨ _)
          simp only [others aliveP]
          exact aliveP
    · have forked' : root c = false := by
        cases parent <;> simpa [recordRoot, same] using forked
      simp only [set_other t _ same] at usedC
      obtain ⟨b, child, aliveB⟩ := fostered c usedC forked'
      refine ⟨b, ⟨?_, forked, ?_⟩, ?_⟩
      · simpa only [set_other t _ same] using usedC
      · simpa only [set_other t _ same, others aliveB] using child.parent
      · show (_ ∨ _)
        simp only [others aliveB]
        exact aliveB
  | @exit e next status current runs =>
    exact fostered_set fostered rfl (busy e current) rfl rfl (Or.inr (last e status rfl))
  | @reap parent e current other child zombie =>
    refine fostered.keep (fun c usedC => ?_) fun b c child _ aliveB => ?_
    · have ne : c ≠ e := by
        rintro rfl
        simp at usedC
      simp only [set_other t _ ne] at usedC ⊢
      exact ⟨usedC, trivial⟩
    · have ne : b ≠ e := by
        rintro rfl
        rcases aliveB with on | off
        · cases zombie.symm.trans on
        · cases zombie.symm.trans off
      rw [Alive]
      simp only [set_other t _ ne]
      exact ⟨aliveB, trivial⟩
  | setStatus current controls used target resumes =>
    exact fostered_set fostered rfl used rfl rfl (Or.inl target)
  | deliver used recving => exact fostered_set fostered rfl used rfl rfl (Or.inl (Or.inl rfl))
  | receive current runs => exact fostered_set fostered rfl (busy _ current) rfl rfl (Or.inl (Or.inr rfl))

theorem fostered_exit {t' : Table} {status : Word} {c : EnvPtr} (wf : t.WellFormed)
    (running : ∀ e, t.current = some e → t.Runnable e) (next : Step t (.exit e status) t')
    (child : Child t root e c) : ¬ Fostered t' root := by
  cases next with
  | @exit _ next _ current runs =>
    intro fostered
    have zombie : ((t.set e { t.slots e with exitStatus := status, status := .zombie }).slots e).status = .zombie := by
      simp
    have usedE : (t.slots e).status ≠ .free := by
      rw [running e current]
      exact fun free => by cases free
    have moved : Step t (.exit e status) _ := .exit current runs
    have wf' := wf.step running moved
    have usedC : ((t.set e { t.slots e with exitStatus := status, status := .zombie }).slots c).status ≠ .free := by
      by_cases same : c = e
      · rw [same, zombie]
        exact fun free => by cases free
      · rw [set_other t _ same]
        exact child.used
    obtain ⟨b, child', alive⟩ := fostered c usedC child.forked
    have parent : ((t.set e { t.slots e with exitStatus := status, status := .zombie }).slots c).parent =
        (t.slots e).id := by
      by_cases same : c = e
      · subst same
        simpa using child.parent
      · rw [set_other t _ same]
        exact child.parent
    have here : b = e := by
      have index := wf'.index b alive.used
      rw [← child'.parent, parent, wf.index e usedE] at index
      exact index.symm
    subst here
    rcases alive with on | off
    · cases zombie.symm.trans on
    · cases zombie.symm.trans off

end Table

structure Family.Inv (f : Family) : Prop where
  env : EnvInv f.k
  wf : f.k.table.WellFormed
  fostered : Fostered f.k.table f.root

theorem Family.step_some {f f' : Family} {op : Op} (h : f.step op = some f') :
    Mos.step f.k op = some f'.k ∧ f'.root = recordRoot f.root (event f.k op) := by
  obtain ⟨k, next, rfl⟩ := Option.map_eq_some_iff.mp h
  exact ⟨next, rfl⟩

theorem Family.step_inv {f f' : Family} {op : Op} (inv : f.Inv) (meets : ExitGuard f op) (h : f.step op = some f') :
    f'.Inv := by
  obtain ⟨next, root⟩ := Family.step_some h
  have moved := step_table inv.env next
  refine ⟨step_envInv inv.env next, inv.wf.step inv.env.current moved, ?_⟩
  rw [root]
  exact Table.fostered_step inv.env.current inv.wf inv.fostered moved meets

theorem family_start {npage : Nat} {mem : Nat → Nat → Word} {k : Kernel} (booted : boot npage mem = some k) :
    (Family.start k).Inv := by
  refine ⟨boot_envInv booted, boot_wellFormed booted, fun c used _ => absurd ?_ used⟩
  obtain ⟨p, vm, _, _, rfl⟩ := boot_init booted
  rfl

/-- Every forked env has a live parent throughout a run if and only if no env of the run exits before its
    children are reaped. -/
theorem fostered_iff {npage : Nat} {mem : Nat → Nat → Word} {k0 : Kernel} {f : Family} {ops : List Op}
    (booted : boot npage mem = some k0) (run : Run Family.step (fun _ _ => True) (.start k0) ops f) :
    Run Family.step ExitGuard (.start k0) ops f ↔
      ∀ pre mid, pre <+: ops → Run Family.step (fun _ _ => True) (.start k0) pre mid → Fostered mid.k.table mid.root := by
  refine run.guarded_iff Family.Inv (family_start booted) (fun _ inv => inv.fostered)
    (fun _ _ _ inv meets next => Family.step_inv inv meets next) fun f op f' inv next good e status exits c child => ?_
  obtain ⟨moved, root⟩ := Family.step_some next
  have left := step_table inv.env moved
  rw [exits] at left root
  rw [root] at good
  exact Table.fostered_exit inv.wf inv.env.current left child good

/-- When no env exits before its children are reaped, every zombie that was forked has a parent that can reap it. -/
theorem zombies_reapable {npage : Nat} {mem : Nat → Nat → Word} {k0 : Kernel} {f : Family} {ops : List Op}
    (booted : boot npage mem = some k0) (run : Run Family.step ExitGuard (.start k0) ops f) :
    Reapable f.k.table f.root := by
  have free := run.weaken fun _ _ _ => trivial
  exact ((fostered_iff booted free).mp run ops f (List.prefix_refl _) free).reapable

instance (t : Table) (root : EnvPtr → Bool) (e c : EnvPtr) : Decidable (Child t root e c) :=
  decidable_of_iff ((t.slots c).status ≠ .free ∧ root c = false ∧ (t.slots c).parent = (t.slots e).id)
    ⟨fun child => ⟨child.1, child.2.1, child.2.2⟩, fun child => ⟨child.used, child.forked, child.parent⟩⟩

def Event.exiting : Event → Option EnvPtr
  | .exit e _ => some e
  | _ => none

instance (f : Family) (op : Op) : Decidable (ExitGuard f op) :=
  decidable_of_iff (∀ e ∈ (event f.k op).exiting, ∀ c, ¬ Child f.k.table f.root e c)
    ⟨fun none e status exits c => none e (by rw [exits]; rfl) c, fun none e exits c => by
      cases exited : event f.k op with
      | exit b status =>
        rw [exited] at exits
        cases exits
        exact none e status exited c
      | _ => rw [exited] at exits; cases exits⟩

/-- The child 6146 of env 4097 exits and is reaped. -/
def reapedRun : List Op :=
  [.envCreate emptyBinary 1, .envCreate emptyBinary 1, .timer zeroFrame, .call .exofork, .call (.setEnvStatus 6146 1),
    .call .yield, .call .yield, .call (.envDestroy 0 0), .call (.envDestroy 6146 0)]

set_option maxRecDepth 100000 in
theorem zombies_reapable_reapedRun : ∃ k0 f, clearBoot = some k0 ∧ Run Family.step ExitGuard (.start k0) reapedRun f ∧
    Reapable f.k.table f.root := by
  have check : (clearBoot.bind fun k0 => Run.exec (Run.checked Family.step ExitGuard) (.start k0) reapedRun).isSome =
      true := by
    rw [clearBoot_eq]
    decide +kernel
  obtain ⟨f, check⟩ := Option.isSome_iff_exists.mp check
  obtain ⟨k0, booted, exec⟩ := Option.bind_eq_some_iff.mp check
  have run := Run.of_checked exec
  exact ⟨k0, f, booted, run, zombies_reapable booted run⟩

/-- Env 4097 exits before its child 6146, which then exits too. -/
def orphanRun : List Op :=
  [.envCreate emptyBinary 1, .envCreate emptyBinary 1, .timer zeroFrame, .call .exofork, .call (.setEnvStatus 6146 1),
    .call (.envDestroy 0 0), .call .yield, .call (.envDestroy 0 0)]

theorem family_wellFormed {npage : Nat} {mem : Nat → Nat → Word} {k0 : Kernel} {f : Family} {ops : List Op}
    (booted : boot npage mem = some k0) (run : Run Family.step (fun _ _ => True) (.start k0) ops f) :
    f.k.table.WellFormed :=
  (run.invariant (fun f => EnvInv f.k ∧ f.k.table.WellFormed) ⟨boot_envInv booted, boot_wellFormed booted⟩
    fun _ _ _ inv _ next => ⟨step_envInv inv.1 (Family.step_some next).1,
      step_wellFormed inv.1 inv.2 (Family.step_some next).1⟩).2

set_option maxRecDepth 100000 in
theorem orphan_unreapable : ∃ k0 f, clearBoot = some k0 ∧ Run Family.step (fun _ _ => True) (.start k0) orphanRun f ∧
    ¬ Reapable f.k.table f.root := by
  have check : (clearBoot.bind fun k0 => (Run.exec Family.step (.start k0) orphanRun).map fun f =>
      ((f.k.envs 2).envStatus, f.root 2, (f.k.envs 2).envParentId, (f.k.envs 1).envStatus)) =
      some (.zombie, false, 4097, .zombie) := by
    rw [clearBoot_eq]
    decide +kernel
  obtain ⟨k0, booted, check⟩ := Option.bind_eq_some_iff.mp check
  obtain ⟨f, exec, check⟩ := Option.map_eq_some_iff.mp check
  simp only [Prod.mk.injEq] at check
  obtain ⟨zombie, forked, parent, dead⟩ := check
  have run := Run.of_exec (fun _ _ _ => trivial) exec
  refine ⟨k0, f, booted, run, fun reapable => ?_⟩
  obtain ⟨e, child, alive⟩ := reapable 2 zombie forked
  -- the id 4097 can only be that of slot 1
  have index := (family_wellFormed booted run).index e alive.used
  rw [← child.parent, show (f.k.table.slots 2).parent = 4097 from parent] at index
  have here : e = 1 := index.symm.trans (by decide)
  rw [here] at alive
  rcases alive with on | off
  · cases dead.symm.trans on
  · cases dead.symm.trans off

end Mos
