import Mos.Kern.Mappings
import Mos.Kern.Overwrite
import Mos.Kern.EnvId
import Mos.Kern.Alloc

namespace Mos

def Kernel.varWords (k : Kernel) (b : EnvPtr) : Option (Nat → Word) := (target (rootsOf k) k.vm (.vars b)).map k.vm.mem

variable {managed : Nat → Prop} {k k' mid : Kernel} {cur e b : EnvPtr} {load : Load} {tf : Trapframe} {v : Nat}
variable {stores : List Store} {r : Word}

section Words

theorem varMaps_words (k : Kernel) (b : EnvPtr) : k.varMaps b = (k.varWords b).map varMap := by
  rw [Kernel.varMaps, Kernel.varWords, target, rootsOf]
  by_cases free : (k.envs b).envStatus = .free
  · rw [if_pos free, if_pos free]
    rfl
  · rw [if_neg free, if_neg free]
    cases (k.envs b).envVars <;> rfl

theorem varWords_some {words : Nat → Word} (h : k.varWords b = some words) :
    (k.envs b).envStatus ≠ .free ∧ ∃ v, (k.envs b).envVars = some v ∧ k.vm.mem v = words := by
  obtain ⟨v, full, rfl⟩ := Option.map_eq_some_iff.mp h
  rw [target, rootsOf] at full
  by_cases free : (k.envs b).envStatus = .free
  · rw [if_pos free] at full
    cases full
  · rw [if_neg free] at full
    exact ⟨free, v, full, rfl⟩

theorem target_vars (used : (k.envs b).envStatus ≠ .free) : target (rootsOf k) k.vm (.vars b) = (k.envs b).envVars := by
  rw [target, rootsOf_used used]
  rfl

theorem varWords_used (used : (k.envs b).envStatus ≠ .free) (has : (k.envs b).envVars = some v) :
    k.varWords b = some (k.vm.mem v) := by
  rw [Kernel.varWords, target_vars used, has]
  rfl

theorem VarStep.words (step : VarStep k k') (all : VarPages k) (same : rootsOf k' b = rootsOf k b) :
    k'.varWords b = k.varWords b := by
  have targets : target (rootsOf k') k'.vm (.vars b) = target (rootsOf k) k.vm (.vars b) := by
    simp only [target, same]
  rw [Kernel.varWords, Kernel.varWords, targets]
  cases full : target (rootsOf k) k.vm (.vars b) with
  | none => rfl
  | some v => exact congrArg some (step.keeps b v (all b v full) same).mem

theorem VarSame.words (same : VarSame k k') (all : VarPages k) : k'.varWords = k.varWords :=
  funext fun b => VarStep.words (.same same) all (congrFun same.roots b)

theorem putPage_words {ref : Ref} (words : Nat → Word) (inv : MachineInv k) (there : target (rootsOf k) k.vm ref = some v)
    (other : ∀ b, ref ≠ .vars b) : (putVars k v words).varWords = k.varWords := by
  obtain ⟨managed, pages, _⟩ := inv.pages
  funext b
  show (target (rootsOf k) k.vm (.vars b)).map _ = (target (rootsOf k) k.vm (.vars b)).map _
  cases full : target (rootsOf k) k.vm (.vars b) with
  | none => rfl
  | some w => exact congrArg some (Function.update_of_ne ((inv.vars b w full).ne pages.pages there other) _ _)

theorem putVars_words (words : Nat → Word) (inv : MachineInv k) (there : target (rootsOf k) k.vm (.vars cur) = some v) :
    (putVars k v words).varWords = Function.update k.varWords cur (some words) := by
  obtain ⟨managed, pages, _⟩ := inv.pages
  funext b
  show (target (rootsOf k) k.vm (.vars b)).map _ = _
  by_cases same : b = cur
  · rw [same, there, Function.update_self]
    exact congrArg some (Function.update_self _ _ _)
  · rw [Function.update_of_ne same, Kernel.varWords]
    cases full : target (rootsOf k) k.vm (.vars b) with
    | none => rfl
    | some w =>
      refine congrArg some (Function.update_of_ne ?_ _ _)
      rintro rfl
      cases (inv.vars b w full).sole pages.pages there
      exact same rfl

theorem storeBytes_words (inv : MachineInv k) (current : k.curenv = some cur) (user : ∀ s ∈ stores, s.1 < utop)
    (h : storeBytes cur stores k = some k') : k'.varWords = k.varWords := by
  induction stores generalizing k with
  | nil =>
    cases h
    rfl
  | cons store rest ih =>
    obtain ⟨va, byte⟩ := store
    obtain ⟨pte, seen, h⟩ := Option.bind_eq_some_iff.mp h
    split at h
    · cases h
    · have full := translate_target inv current (user (va, byte) List.mem_cons_self) seen
      have serve : Serve cur k (putVars k (ppn pte) (setByte (k.vm.mem (ppn pte)) (va.toNat % 4096) byte)) :=
        .write (r := .pte cur _ _) _ rfl full
      have later := ih (serve.inv inv) current (fun s inside => user s (List.mem_cons_of_mem _ inside)) h
      exact later.trans (putPage_words _ inv full fun b eq => by cases eq)

theorem storesUntilMod_words (inv : MachineInv k) (current : k.curenv = some cur) (user : ∀ s ∈ stores, s.1 < utop)
    (h : storesUntilMod cur stores k = some k') : k'.varWords = k.varWords := by
  induction stores generalizing k with
  | nil => cases h
  | cons s rest ih =>
    obtain ⟨pte, -, h⟩ := Option.bind_eq_some_iff.mp h
    split at h
    · cases h
      rfl
    · obtain ⟨mid, stored, h⟩ := Option.bind_eq_some_iff.mp h
      have first : ∀ t ∈ [s], t.1 < utop := fun t inside => List.mem_singleton.mp inside ▸ user s List.mem_cons_self
      obtain ⟨invMid, same⟩ := (storeBytes_serves inv current first stored).inv inv
      have later := ih invMid (same.trans current) (fun t inside => user t (List.mem_cons_of_mem _ inside)) h
      exact later.trans (storeBytes_words inv current first stored)

theorem doTlbMod_words (inv : MachineInv k) (current : k.curenv = some cur) (h : doTlbMod cur tf k = some k') :
    k'.varWords = k.varWords := by
  dsimp only [doTlbMod] at h
  split at h
  · cases h
  · obtain ⟨mid, stored, rfl⟩ := Option.map_eq_some_iff.mp h
    have same := storeBytes_words inv current (fun s inside => frameStores_user tf inside) stored
    exact same

theorem userTable_words {call : UserCall} (other : ¬ call.ChangesVars) (h : (userTable cur load call k).state = some k') :
    k'.varWords = k.varWords := by
  have tuned {e : EnvPtr} {f : Env → Env} (fields : ∀ env, ((f env).envStatus = env.envStatus) ∧
      (f env).envPgdir = env.envPgdir ∧ (f env).envVars = env.envVars) : (k.updateEnv e f).varWords = k.varWords := by
    have roots : rootsOf (k.updateEnv e f) = rootsOf k := by
      refine rootsOf_congr fun b => ?_
      by_cases same : b = e
      · subst same
        simp [Kernel.updateEnv, fields]
      · simp [Kernel.updateEnv, same]
    funext b
    rw [Kernel.varWords, Kernel.varWords, roots]
    rfl
  cases userTable_served h with
  | same => rfl
  | own envid tf => rfl
  | given tf found => exact tuned fun _ => ⟨rfl, rfl, rfl⟩
  | entry func found => exact tuned fun _ => ⟨rfl, rfl, rfl⟩
  | cwd userPath path => exact tuned fun _ => ⟨rfl, rfl, rfl⟩
  | vars changes words has => exact absurd changes other

theorem changesVars_stores {call : UserCall} (changes : call.ChangesVars)
    (h : userTable cur load call k = .ok (r, stores) k') : stores = [] := by
  cases call with
  | setVar userName userValue flags =>
    dsimp only [userTable, sysSetVar, tryCopy] at h
    split at h
    · split at h
      · obtain ⟨vars, h⟩ := withVars_ok h
        split at h <;> split at h <;> cases h <;> rfl
      · cases h
    · cases h
  | unsetVar userName =>
    dsimp only [userTable, sysUnsetVar, tryCopy] at h
    split at h
    · obtain ⟨vars, h⟩ := withVars_ok h
      split at h
      · cases h
        rfl
      · split at h <;> cases h
        rfl
    · cases h
  | _ => exact absurd changes id

theorem kernelMod_words {out : Option Outside} {inner : Trapframe} (inv : MachineInv k) (current : k.curenv = some cur)
    (h : kernelMod cur tf out inner k = some k') : k'.varWords = k.varWords := by
  unfold kernelMod at h
  split at h
  · cases h
  · obtain ⟨⟨stores, mid⟩, pending, h⟩ := Option.bind_eq_some_iff.mp h
    obtain ⟨fault, stored, h⟩ := Option.bind_eq_some_iff.mp h
    have first : mid.varWords = k.varWords := by
      rcases pendingStores_some pending with ⟨rfl, _⟩ | ⟨load, call, r, ran⟩
      · rfl
      · by_cases changes : call.ChangesVars
        · rw [changesVars_stores changes ran] at stored
          cases stored
        · have same := userTable_words changes (congrArg Result.state ran)
          exact same
    obtain ⟨invMid, same⟩ := (pendingStores_serves inv current pending).inv inv
    have second := storesUntilMod_words invMid (same.trans current) (pendingStores_user pending) stored
    obtain ⟨invFault, same'⟩ := (storesUntilMod_serves invMid (same.trans current) (pendingStores_user pending) stored).inv invMid
    exact (doTlbMod_words invFault (same'.trans (same.trans current)) h).trans (second.trans first)

end Words

section Births

theorem pageAlloc_blank {vm vm' : Vm} {pp : Nat} (h : pageAlloc vm = .ok pp vm') : vm'.mem pp = fun _ => 0 := by
  obtain ⟨rest, _, _, rfl⟩ := pageAlloc_ok h
  exact Function.update_self _ _ _

theorem envInherit_parent {vars from_ : Nat} {who : EnvPtr} {id : Word} {u : Unit} (nonzero : id ≠ 0) (index : envx id = who)
    (used : (k.envs who).envStatus ≠ .free) (named : (k.envs who).envId = id) (has : (k.envs who).envVars = some from_)
    (h : envInherit e id vars k = .ok u k') : k'.vm.mem vars = inheritVars (k.vm.mem from_) (k.vm.mem vars) := by
  have found : envid2env k e id false = .ok who := by
    unfold envid2env
    rw [if_neg nonzero, index, if_neg]
    · simp
    · rintro (free | other)
      · exact used free
      · exact other named
  rw [envInherit, if_neg nonzero, found] at h
  dsimp only at h
  rw [has] at h
  cases h
  exact Function.update_self _ _ _

theorem envAlloc_blank (alloc : envAlloc 0 k = .ok e k') : ∃ v, (k'.envs e).envVars = some v ∧ k'.vm.mem v = fun _ => 0 := by
  obtain ⟨k1, k2, vars, vm, asid, ran⟩ := envAlloc_runs alloc
  refine ⟨vars, ran.root.2, ?_⟩
  have inherited := ran.inherited
  rw [envInherit, if_pos rfl] at inherited
  cases inherited
  rw [ran.last]
  have blank := pageAlloc_blank ran.alloc
  exact blank

theorem envAlloc_inherits {who : EnvPtr} {from_ : Nat} (pages : Pages managed k.basePgdir (rootsOf k) k.vm)
    (page : VarPage (rootsOf k) k.vm who from_) (nonzero : (k.envs who).envId ≠ 0) (index : envx (k.envs who).envId = who)
    (used : (k.envs who).envStatus ≠ .free) (other : who ≠ e) (alloc : envAlloc (k.envs who).envId k = .ok e k') :
    ∃ v, (k'.envs e).envVars = some v ∧ k'.vm.mem v = inheritVars (k.vm.mem from_) fun _ => 0 := by
  obtain ⟨k1, k2, vars, vm, asid, ran⟩ := envAlloc_runs alloc
  refine ⟨vars, ran.root.2, ?_⟩
  have has : (k.envs who).envVars = some from_ := (target_vars used).symm.trans page.full
  obtain ⟨kept, out⟩ := envSetupVm_keeps pages page ran.setup
  obtain ⟨given, _⟩ := giveVars_keeps out ran.alloc
  have same : ((k1.giveVars e vars vm).giveId e asid (k.envs who).envId).envs who = k.envs who := by
    simpa [Kernel.giveVars, Kernel.giveId, Kernel.updateEnv, Kernel.putVm, other] using (envSetupVm_ok ran.setup).1.others who other
  have inherits := envInherit_parent nonzero index (by rwa [same]) (by rw [same]) (by rw [same]; exact has) ran.inherited
  rw [ran.last]
  refine inherits.trans ?_
  have parent : vm.mem from_ = k.vm.mem from_ := given.mem.trans kept.mem
  rw [← parent, ← pageAlloc_blank ran.alloc]
  rfl

theorem reap_words (inv : MachineInv k) (used : (k.envs e).envStatus ≠ .free) (free : envFree e k = .ok () k') :
    k'.varWords = Function.update k.varWords e none := by
  obtain ⟨managed, pages, _⟩ := inv.pages
  have freed := envFree_ok free
  have gone : rootsOf k' = Function.update (rootsOf k) e none := rootsOf_drop (by rw [freed.env]) freed.others
  funext b
  by_cases same : b = e
  · rw [same, Function.update_self, Kernel.varWords, target, gone, Function.update_self]
    rfl
  · rw [Function.update_of_ne same]
    exact VarStep.words (.free pages.pages used free) inv.vars (by rw [gone, Function.update_of_ne same])

theorem fork_words {words : Nat → Word} (inv : MachineInv k) (current : k.curenv = some cur) (has : k.varWords cur = some words)
    (nonzero : (k.envs cur).envId ≠ 0) (alloc : envAlloc (k.envs cur).envId k = .ok e mid) :
    k.varWords e = none ∧ (forked cur e mid).varWords = Function.update k.varWords e (some (inheritVars words fun _ => 0)) := by
  obtain ⟨managed, pages, _⟩ := inv.pages
  have used := inv.env.current_used current
  obtain ⟨setup, list⟩ := envAlloc_ok alloc
  have fresh := setup.taken inv.env list
  have absent : rootsOf k e = none := inv.env.absent e (by simp [list])
  have other : cur ≠ e := by
    rintro rfl
    exact fresh.other (setup.curenv.trans current)
  obtain ⟨from_, full, rfl⟩ := Option.map_eq_some_iff.mp has
  obtain ⟨v, here, page⟩ := envAlloc_inherits pages.pages (inv.vars cur from_ full) nonzero (inv.table.index cur used) used other alloc
  have others : ∀ b, b ≠ e → (forked cur e mid).envs b = k.envs b := fun b ne => (forked_others ne).trans (setup.others b ne)
  have roots : rootsOf (forked cur e mid) = Function.update (rootsOf k) e
      (some ⟨((forked cur e mid).envs e).envPgdir, ((forked cur e mid).envs e).envVars⟩) := rootsOf_update forked_used others
  refine ⟨by rw [Kernel.varWords, target, absent]; rfl, funext fun b => ?_⟩
  by_cases same : b = e
  · have hasVars : ((forked cur e mid).envs e).envVars = some v := by
      rw [← here]
      simp [forked, Kernel.updateEnv]
    rw [same, Function.update_self, varWords_used forked_used hasVars, ← page]
    rfl
  · rw [Function.update_of_ne same]
    have step : VarStep k (forked cur e mid) :=
      .taken pages inv.env alloc forked_used (fun b ne => forked_others ne) (by simp [forked, Kernel.updateEnv])
    exact step.words inv.vars (by rw [roots, Function.update_of_ne same])

theorem create_words (inv : MachineInv k) (run : CreateRun e k k' mid) :
    k.varWords e = none ∧ k'.varWords = Function.update k.varWords e (some fun _ => 0) := by
  obtain ⟨setup, list⟩ := envAlloc_ok run.alloc
  have absent : rootsOf k e = none := inv.env.absent e (by simp [list])
  obtain ⟨v, here, page⟩ := envAlloc_blank run.alloc
  have used : (k'.envs e).envStatus ≠ .free := by
    rw [run.created.env]
    exact fun free => by cases free
  have hasVars : (k'.envs e).envVars = some v := by rw [run.created.env, ← here]
  have others : ∀ b, b ≠ e → k'.envs b = k.envs b := fun b ne => (run.created.others b ne).trans (setup.others b ne)
  have roots : rootsOf k' = Function.update (rootsOf k) e (some ⟨(k'.envs e).envPgdir, (k'.envs e).envVars⟩) :=
    rootsOf_update used others
  have all : VarPages (k'.putVm mid.vm) := run.taken.pages inv.vars
  refine ⟨by rw [Kernel.varWords, target, absent]; rfl, funext fun b => ?_⟩
  by_cases same : b = e
  · have full : target (rootsOf (k'.putVm mid.vm)) mid.vm (.vars e) = some v := (target_vars (k := k'.putVm mid.vm) used).trans hasVars
    rw [same, Function.update_self, varWords_used used hasVars, (run.loads e v (all e v full)).mem, page]
  · rw [Function.update_of_ne same]
    exact VarStep.words (run.taken.andThen rfl run.loads inv.vars) inv.vars (by rw [roots, Function.update_of_ne same])

end Births

section First

/-- What the first env is like, which has no parent. -/
structure Slot.First (s : Slot) : Prop where
  used : s.status ≠ .free
  orphan : s.parent = 0
  named : s.id ≠ 0

variable {t t' : Table} {ev : Event}

theorem first_set {s : Slot} (first : (t.slots 0).First) (kept : (t.slots e).First → s.First) : ((t.set e s).slots 0).First := by
  by_cases same : e = 0
  · subst same
    rw [Table.set_self]
    exact kept first
  · rw [Table.set_other t s (Ne.symm same)]
    exact first

theorem id_nonzero (wf : t.WellFormed) (first : (t.slots 0).First) (used : (t.slots e).status ≠ .free) : (t.slots e).id ≠ 0 := by
  intro zero
  have index := wf.index e used
  rw [zero, show envx 0 = 0 from rfl] at index
  subst index
  exact first.named zero

/-- The first env is never reaped: no id is 0. -/
theorem first_step (wf : t.WellFormed) (running : ∀ e, t.current = some e → t.Runnable e) (first : (t.slots 0).First)
    (next : Table.Step t ev t') : (t'.slots 0).First := by
  cases next with
  | quiet resumes => exact first
  | create list index unused used alive caller =>
    exact first_set first fun taken => absurd ((wf.listed _).mp (by simp [list])) taken.used
  | exit current runs => exact first_set first fun taken => ⟨fun free => (by cases free), taken.orphan, taken.named⟩
  | @reap p b current other child zombie =>
    refine first_set first fun taken => ?_
    have used : (t.slots p).status ≠ .free := by
      rw [running p current]
      exact fun free => by cases free
    exact absurd (child.symm.trans taken.orphan) (id_nonzero wf first used)
  | setStatus current controls used target resumes =>
    refine first_set first fun taken => ⟨?_, taken.orphan, taken.named⟩
    rcases target with rfl | rfl
    · exact fun free => by cases free
    · exact fun free => by cases free
  | deliver used recving => exact first_set first fun taken => ⟨fun free => (by cases free), taken.orphan, taken.named⟩
  | receive current runs => exact first_set first fun taken => ⟨fun free => (by cases free), taken.orphan, taken.named⟩

/-- The first env is there, or no env has been created. -/
inductive Founded (k : Kernel) : Prop where
  | first (first : (k.table.slots 0).First) : Founded k
  | empty (free : ∀ e, (k.envs e).envStatus = .free) (counter : k.mkenvidI = 0) (list : ∃ rest, k.envFreeList = 0 :: rest) :
      Founded k

theorem Founded.id_nonzero (founded : Founded k) (wf : k.table.WellFormed) (used : (k.envs e).envStatus ≠ .free) :
    (k.envs e).envId ≠ 0 := by
  cases founded with
  | first first => exact Mos.id_nonzero (t := k.table) wf first used
  | empty free _ _ => exact absurd (free e) used

theorem Founded.step {op : Op} (founded : Founded k) (env : EnvInv k) (wf : k.table.WellFormed) (h : Mos.step k op = some k') :
    Founded k' := by
  cases founded with
  | first first => exact .first (first_step wf env.current first (step_table env h))
  | empty free counter list =>
    have idle : k.curenv = none := by
      cases current : k.curenv with
      | none => rfl
      | some cur => exact absurd (free cur) (env.current_used current)
    cases op with
    | syscall tf call =>
      rw [Mos.step, idle] at h
      cases h
    | tlbRefill va victim =>
      rw [Mos.step, idle] at h
      cases h
    | timer tf =>
      obtain ⟨b, _, runs⟩ := schedule_table (schedule_state h)
      have runnable : (k.envs b).envStatus = .runnable := runs
      rw [free b] at runnable
      cases runnable
    | envCreate binary priority =>
      obtain ⟨e, mid, alloc, created, _⟩ := envCreate_state h
      obtain ⟨rest, list⟩ := list
      obtain rfl : e = 0 := by
        have head := (envAlloc_ok alloc).2
        rw [list] at head
        exact (List.cons.inj head).1.symm
      have id : (k'.envs 0).envId = 2048 := by
        have number := (envAlloc_counter alloc).2
        rw [counter] at number
        rw [created.env]
        exact number
      have parent : (k'.envs 0).envParentId = 0 := by
        rw [created.env]
        exact (envAlloc_allots alloc).parent
      have used : (k'.envs 0).envStatus = .runnable := by rw [created.env]
      refine .first ⟨?_, parent, ?_⟩
      · show (k'.envs 0).envStatus ≠ .free
        rw [used]
        exact fun free => by cases free
      · show (k'.envs 0).envId ≠ 0
        rw [id]
        decide

theorem Serves.founded (serves : Serves cur k k') (founded : Founded k) : Founded k' := by
  induction serves with
  | refl => exact founded
  | @tail mid last _ serve ih =>
    have same := serve.table
    have counter : last.mkenvidI = mid.mkenvidI := by cases serve <;> rfl
    cases ih with
    | first first => exact .first (same ▸ first)
    | empty free zero list =>
      refine .empty (fun e => ?_) (counter.trans zero) ?_
      · exact (congrArg Slot.status (serve.slots e)).trans (free e)
      · obtain ⟨rest, list⟩ := list
        exact ⟨rest, (congrArg Table.freeList same).trans list⟩

end First

section Steps

def MachineOp.userCall : MachineOp → Option (Load × UserCall)
  | .syscall tf out =>
    ((syscallAt (Args.of tf out.load) out (tf.regs 4).toNat).bind Sum.getRight?).map fun call => (out.load, call)
  | _ => none

def UserCall.OnVars : UserCall → Prop
  | .setVar .. => True
  | .getVar .. => True
  | .unsetVar .. => True
  | .getVarByIndex .. => True
  | _ => False

/-- The call on variables as the user table has it. -/
inductive VarCall.Is (load : Load) : VarCall → UserCall → Prop where
  | set {name value : UserString load} {flags : Word} {legal : flags &&& ~~~varAttrs = 0} :
      Is load (.set load name value flags legal) (.setVar name.va value.va flags)
  | get {name : UserString load} {buf : Word} : Is load (.get load name buf) (.getVar name.va buf)
  | unset {name : UserString load} : Is load (.unset load name) (.unsetVar name.va)
  | getByIndex {index buf : Word} : Is load (.getByIndex index buf) (.getVarByIndex index buf)

/-- The condition on a step: that of `MachineGuard`, and the strings of a call on variables are readable and its flags legal. -/
def VarGuard (k : Kernel) (op : MachineOp) : Prop :=
  MachineGuard k op ∧ ∀ load call, op.userCall = some (load, call) → call.OnVars → ∃ c, VarCall.Is load c call

/-- What a step does to the variables. -/
inductive Tells (k k' : Kernel) : MachineOp → VarEvent → Prop where
  | call {op : MachineOp} {tf : Trapframe} {out : Outside} {cur : EnvPtr} {load : Load} {call : UserCall} {c : VarCall}
      {r : Word × List Store} {mid last : Kernel} : op = .syscall tf out → k.curenv = some cur →
      op.userCall = some (load, call) → VarCall.Is load c call → answered (c.run cur (k.trap tf)) = some (r, mid) →
      storeBytes cur r.2 mid = some last → k' = { last with tf := last.tf.setReg 2 r.1 } → Tells k k' op (.call cur c r)
  | fork {op : MachineOp} {tf : Trapframe} {out : Outside} {cur e : EnvPtr} {mid : Kernel} : op = .syscall tf out →
      k.curenv = some cur → op.call = some .exofork → envAlloc (k.envs cur).envId (k.trap tf) = .ok e mid →
      Tells k k' op (.fork cur e)
  | create {binary : Binary} {priority : Word} {e : EnvPtr} {mid : Kernel} : envAlloc 0 k = .ok e mid →
      Tells k k' (.envCreate binary priority) (.create e)
  | reap {op : MachineOp} {tf : Trapframe} {out : Outside} {cur e : EnvPtr} {envid status : Word} : op = .syscall tf out →
      k.curenv = some cur → op.call = some (.envDestroy envid status) → Reaps (k.trap tf) cur envid e → Tells k k' op (.reap e)
  | quiet {op : MachineOp} : (∀ b, (k'.envs b).envStatus = .free ↔ (k.envs b).envStatus = .free) →
      (∀ load call, op.userCall = some (load, call) → ¬ call.OnVars) → Tells k k' op .quiet

/-- A run of the machine with what it does to the variables. -/
inductive VarRun (k0 : Kernel) : List MachineOp → List VarEvent → Kernel → Prop where
  | nil : VarRun k0 [] [] k0
  | snoc {ops : List MachineOp} {events : List VarEvent} {op : MachineOp} {ev : VarEvent} {k k' : Kernel} :
      VarRun k0 ops events k → machineStep k op = some k' → Tells k k' op ev → VarRun k0 (ops ++ [op]) (events ++ [ev]) k'

/-- The state of the variables in the runs of the machine. -/
structure VarInv (k : Kernel) : Prop where
  machine : MachineInv k
  filled : VarsInv k
  founded : Founded k
  tables : ∀ b words, k.varWords b = some words → VarTable words

theorem VarCall.Is.run {call : UserCall} {c : VarCall} (is : VarCall.Is load c call) (cur : EnvPtr) (k : Kernel) :
    userTable cur load call k = c.run cur k := by
  cases is <;> rfl

theorem Serves.roots (serves : Serves cur k k') : rootsOf k' = rootsOf k := by
  induction serves with
  | refl => rfl
  | tail _ serve ih => exact serve.roots.trans ih

theorem alive_of_roots (same : rootsOf k' = rootsOf k) (b : EnvPtr) :
    (k'.envs b).envStatus = .free ↔ (k.envs b).envStatus = .free := by
  have free (k : Kernel) : rootsOf k b = none ↔ (k.envs b).envStatus = .free := by
    rw [rootsOf]
    split
    · exact iff_of_true rfl ‹_›
    · exact iff_of_false (fun eq => by cases eq) ‹_›
  rw [← free, ← free, same]

theorem Serves.filled (serves : Serves cur k k') (filled : VarsInv k) : VarsInv k' := by
  induction serves with
  | refl => exact filled
  | tail _ serve ih =>
    refine ih.same fun b used => ?_
    rw [serve.envs b] at used ⊢
    exact ⟨used, rfl⟩

theorem answered_cases {res : CallRes} {r : Word × List Store} (h : answered res = some (r, mid)) :
    res = .ok r mid ∨ res = .err r.1 mid ∧ r.2 = [] := by
  cases res <;> cases h
  · exact .inl rfl
  · exact .inr ⟨rfl, rfl⟩

theorem answered_some {c : VarCall} (has : (k.envs cur).envVars = some v) : ∃ r k', answered (c.run cur k) = some (r, k') := by
  cases c with
  | set load name value flags legal =>
    simp only [VarCall.run, sysSetVar, copyIn_string name.readable, copyIn_string value.readable, tryCopy, withVars, has]
    split <;> split <;> exact ⟨_, _, rfl⟩
  | get load name buf =>
    simp only [VarCall.run, sysGetVar, copyIn_string name.readable, tryCopy, withVars, has]
    split
    · exact ⟨_, _, rfl⟩
    · split <;> exact ⟨_, _, rfl⟩
  | unset load name =>
    simp only [VarCall.run, sysUnsetVar, copyIn_string name.readable, tryCopy, withVars, has]
    split
    · exact ⟨_, _, rfl⟩
    · split <;> exact ⟨_, _, rfl⟩
  | getByIndex index buf =>
    simp only [VarCall.run, sysGetVarByIndex, withVars, has]
    split
    · exact ⟨_, _, rfl⟩
    · split
      · exact ⟨_, _, rfl⟩
      · split <;> exact ⟨_, _, rfl⟩

/-- What happens to the maps is what the step tells, and the tables stay tables. -/
def Accounted (k : Kernel) (op : MachineOp) (k' : Kernel) : Prop :=
  ∃ ev, Tells k k' op ev ∧ MapStep k.varMaps ev k'.varMaps ∧ ∀ b words, k'.varWords b = some words → VarTable words

variable {op : MachineOp} {out : Outside}

theorem varMaps_update {words : Option (Nat → Word)} (h : k'.varWords = Function.update k.varWords e words) :
    k'.varMaps = Function.update k.varMaps e (words.map varMap) := by
  funext b
  rw [varMaps_words, h]
  by_cases same : b = e
  · rw [same, Function.update_self, Function.update_self]
  · rw [Function.update_of_ne same, Function.update_of_ne same, varMaps_words]

theorem VarInv.tables_update {words : Option (Nat → Word)} (inv : VarInv k) (h : k'.varWords = Function.update k.varWords e words)
    (table : ∀ w, words = some w → VarTable w) (b : EnvPtr) (w : Nat → Word) (has : k'.varWords b = some w) : VarTable w := by
  rw [h] at has
  by_cases same : b = e
  · rw [same, Function.update_self] at has
    exact table w has
  · rw [Function.update_of_ne same] at has
    exact inv.tables b w has

theorem VarInv.quiet (inv : VarInv k) (roots : rootsOf k' = rootsOf k) (words : k'.varWords = k.varWords)
    (other : ∀ load call, op.userCall = some (load, call) → ¬ call.OnVars) : Accounted k op k' := by
  have maps : k'.varMaps = k.varMaps := by
    funext b
    rw [varMaps_words, varMaps_words, words]
  exact ⟨.quiet, .quiet (alive_of_roots roots) other, maps ▸ .quiet, fun b w has => inv.tables b w (words ▸ has)⟩

theorem VarInv.current (inv : VarInv k) (current : k.curenv = some cur) : ∃ words, k.varWords cur = some words ∧
    k.varMaps cur = some (varMap words) ∧ VarTable words := by
  have used := inv.machine.env.current_used current
  obtain ⟨v, has⟩ := Option.ne_none_iff_exists'.mp (inv.filled cur used)
  have words := varWords_used used has
  exact ⟨_, words, by rw [varMaps_words, words]; rfl, inv.tables cur _ words⟩

theorem VarInv.trap (inv : VarInv k) (tf : Trapframe) : VarInv (k.trap tf) := by
  have trapped : Serve 0 k (k.trap tf) := .frame _
  exact ⟨trapped.inv inv.machine, inv.filled, Serves.founded (.single trapped) inv.founded, inv.tables⟩

theorem VarInv.call {call : Call} {after : Trapframe} (inv : VarInv k) (current : k.curenv = some cur)
    (entry : (MachineOp.syscall tf out).call = some call) (called : (syscallTable cur call (k.trap tf)).state = some mid) :
    Accounted k (.syscall tf out) { mid with tf := after } := by
  have other : ∀ load call, (MachineOp.syscall tf out).userCall = some (load, call) → ¬ call.OnVars := by
    intro load user found
    obtain ⟨which, at_, left⟩ := Option.bind_eq_some_iff.mp entry
    simp only [MachineOp.userCall, at_, Option.bind_some] at found
    cases which with
    | inl c => cases found
    | inr c => cases left
  obtain ⟨managed, pages, _⟩ := (inv.trap tf).machine.pages
  cases syscall_varCase pages (inv.trap tf).machine.env current called with
  | same same => exact inv.quiet same.roots (same.words (inv.trap tf).machine.vars) other
  | @fork e last alloc =>
    obtain ⟨words, has, maps, table⟩ := inv.current current
    obtain ⟨absent, forks⟩ := fork_words (inv.trap tf).machine current has
      (inv.founded.id_nonzero inv.machine.table (inv.machine.env.current_used current)) alloc
    obtain ⟨child, exported⟩ := inheritVars_table table
    have none : k.varMaps e = none := by
      rw [varMaps_words, show k.varWords e = .none from absent]
      rfl
    have step : MapStep k.varMaps (.fork cur e) (forked cur e last).varMaps := by
      rw [varMaps_update (k := k) forks, Option.map_some, exported]
      exact .fork maps none
    exact ⟨.fork cur e, .fork rfl current entry alloc, step, inv.tables_update forks fun w eq => by cases eq; exact child⟩
  | @reap e envid status _ reaps free =>
    have words := reap_words (inv.trap tf).machine ((inv.trap tf).machine.env.target_used current reaps.env) free
    have step : MapStep k.varMaps (.reap e) mid.varMaps := by
      rw [varMaps_update (k := k) words]
      exact .reap
    exact ⟨.reap e, .reap rfl current entry reaps, step, inv.tables_update words fun w eq => by cases eq⟩

theorem syscallAt_invalid (a : Args) {n : Word} (invalid : n.toInt < 0 ∨ maxSysno ≤ n.toInt) : syscallAt a out n.toNat = none := by
  have large : 24 ≤ n.toNat := by
    rw [BitVec.toInt_eq_toNat_cond] at invalid
    have small := n.isLt
    simp only [maxSysno] at invalid
    split at invalid <;> omega
  unfold syscallAt
  split
  all_goals first
    | omega
    | rfl

theorem userCall_answered {call : UserCall} (entry : syscallAt (Args.of tf out.load) out (tf.regs 4).toNat = some (.inr call))
    (h : doAnySyscall cur tf out k = some k') : ∃ r mid last, answered (userTable cur out.load call (k.trap tf)) = some (r, mid) ∧
      storeBytes cur r.2 mid = some last ∧ k' = { last with tf := last.tf.setReg 2 r.1 } := by
  have valid : ¬ ((tf.regs 4).toInt < 0 ∨ maxSysno ≤ (tf.regs 4).toInt) := by
    intro invalid
    cases (syscallAt_invalid _ invalid).symm.trans entry
  unfold doAnySyscall at h
  rw [if_neg valid, entry] at h
  dsimp only at h
  split at h
  · rename_i r stores mid ran
    obtain ⟨last, stored, rfl⟩ := Option.map_eq_some_iff.mp h
    exact ⟨(r, stores), mid, last, by rw [ran]; rfl, stored, rfl⟩
  · rename_i code mid ran
    cases h
    exact ⟨(code, []), mid, mid, by rw [ran]; rfl, rfl, rfl⟩
  · cases h

theorem VarInv.userCall {call : UserCall} (inv : VarInv k) (current : k.curenv = some cur)
    (entry : syscallAt (Args.of tf out.load) out (tf.regs 4).toNat = some (.inr call))
    (domain : call.OnVars → ∃ c, VarCall.Is out.load c call) (h : doAnySyscall cur tf out k = some k') :
    Accounted k (.syscall tf out) k' := by
  have found : (MachineOp.syscall tf out).userCall = some (out.load, call) := by
    simp only [MachineOp.userCall, entry, Option.bind_some]
    rfl
  obtain ⟨r, mid, last, ran, stored, rfl⟩ := userCall_answered entry h
  have used : ((k.trap tf).envs cur).envStatus ≠ .free := inv.machine.env.current_used current
  have state : (userTable cur out.load call (k.trap tf)).state = some mid := by
    rcases answered_cases ran with ok | ⟨err, _⟩
    · rw [ok]; rfl
    · rw [err]; rfl
  have user : ∀ s ∈ r.2, s.1 < utop := by
    rcases answered_cases ran with ok | ⟨_, none⟩
    · exact fun s inside => userTable_user ok inside
    · exact fun s inside => by rw [none] at inside; cases inside
  have serves : Serves cur (k.trap tf) mid := userTable_serves used state
  obtain ⟨invMid, same⟩ := serves.inv (inv.trap tf).machine
  have stays := storeBytes_words invMid (same.trans current) user stored
  have roots := (storeBytes_serves invMid (same.trans current) user stored).roots.trans serves.roots
  by_cases on : call.OnVars
  · obtain ⟨c, is⟩ := domain on
    obtain ⟨v, has⟩ := Option.ne_none_iff_exists'.mp (inv.filled cur used)
    have full : target (rootsOf (k.trap tf)) (k.trap tf).vm (.vars cur) = some v := (target_vars used).trans has
    obtain ⟨words, here, table⟩ := inv.current current
    cases here.symm.trans (varWords_used used has)
    rw [is.run] at ran
    obtain ⟨words', rfl, table', answers⟩ := call_answers (k := k.trap tf) has table.2 ran
    have words : last.varWords = Function.update k.varWords cur (some words') :=
      stays.trans (putVars_words words' (inv.trap tf).machine full)
    have step : MapStep k.varMaps (.call cur c r) last.varMaps := by
      rw [varMaps_update words]
      exact .call table.1 table.2.enumerates answers
    exact ⟨.call cur c r, .call rfl current found is ran stored rfl, step, inv.tables_update words fun w eq => by cases eq; exact table'⟩
  · have keeps : ¬ call.ChangesVars := by
      cases call <;> first | exact id | exact fun _ => on trivial
    have words := stays.trans (userTable_words keeps state)
    exact inv.quiet roots words fun load call' found' => by cases found.symm.trans found'; exact on

theorem machineStep_accounted (inv : VarInv k) (meets : VarGuard k op) (h : machineStep k op = some k') : Accounted k op k' := by
  obtain ⟨managed, pages, tlb⟩ := inv.machine.pages
  cases op with
  | timer tf =>
    have same := timer_varSame h
    exact inv.quiet same.roots (same.words inv.machine.vars) fun _ _ found => by cases found
  | tlbRefill va victim =>
    have same := tlbRefill_varSame pages inv.machine.env h
    exact inv.quiet same.roots (same.words inv.machine.vars) fun _ _ found => by cases found
  | envCreate binary priority =>
    obtain ⟨e, mid, run⟩ := envCreate_runs pages tlb inv.machine.env inv.machine.table meets.1 h
    obtain ⟨absent, words⟩ := create_words inv.machine run
    have none : k.varMaps e = none := by
      rw [varMaps_words, absent]
      rfl
    have step : MapStep k.varMaps (.create e) k'.varMaps := by
      rw [varMaps_update words, Option.map_some, emptyMap]
      exact .create none
    exact ⟨.create e, .create run.alloc, step, inv.tables_update words fun w eq => by cases eq; exact emptyTable⟩
  | store va byte =>
    obtain ⟨cur, current, h⟩ := Option.bind_eq_some_iff.mp h
    have user : ∀ s ∈ [(va, byte)], s.1 < utop := by
      intro s inside
      rw [List.mem_singleton.mp inside]
      exact meets.1
    exact inv.quiet (storeBytes_serves inv.machine current user h).roots (storeBytes_words inv.machine current user h)
      fun _ _ found => by cases found
  | tlbMod tf =>
    obtain ⟨cur, current, h⟩ := Option.bind_eq_some_iff.mp h
    exact inv.quiet (doTlbMod_serves inv.machine current h).roots (doTlbMod_words inv.machine current h) fun _ _ found => by cases found
  | kernelMod tf out inner =>
    obtain ⟨cur, current, h⟩ := Option.bind_eq_some_iff.mp h
    exact inv.quiet (kernelMod_serves inv.machine current h).roots (kernelMod_words inv.machine current h) fun _ _ found => by cases found
  | syscall tf out =>
    obtain ⟨cur, current, ⟨call, mid, after, entry, called, rfl⟩ | ⟨none, serves⟩⟩ := machineStep_calls inv.machine h
    · exact inv.call current entry called
    · rw [machineStep, current, Option.bind_some] at h
      cases entry : syscallAt (Args.of tf out.load) out (tf.regs 4).toNat with
      | none =>
        have other : ∀ load call, (MachineOp.syscall tf out).userCall = some (load, call) → ¬ call.OnVars := by
          intro load call found
          simp only [MachineOp.userCall, entry, Option.bind_none] at found
          cases found
        rw [doAnySyscall, entry] at h
        split at h <;> cases h
        exact inv.quiet rfl rfl other
      | some which =>
        cases which with
        | inl call =>
          rw [MachineOp.call, entry] at none
          cases none
        | inr call =>
          refine inv.userCall current entry (fun on => meets.2 out.load call ?_ on) h
          simp only [MachineOp.userCall, entry, Option.bind_some]
          rfl

end Steps

theorem machineStep_varInv {op : MachineOp} (inv : VarInv k) (meets : VarGuard k op) (h : machineStep k op = some k') : VarInv k' := by
  obtain ⟨_, _, _, tables⟩ := machineStep_accounted inv meets h
  have machine := machineStep_inv inv.machine meets.1 h
  rcases machineStep_cases inv.machine meets.1 h with ⟨op, _, h⟩ | ⟨cur, serves⟩
  · exact ⟨machine, step_vars inv.machine.env inv.filled h, inv.founded.step inv.machine.env inv.machine.table h, tables⟩
  · exact ⟨machine, serves.filled inv.filled, serves.founded inv.founded, tables⟩

theorem boot_varInv {npage : Nat} {mem : Nat → Nat → Word} (small : npage ≤ 2^20) (booted : boot npage mem = some k) : VarInv k := by
  refine ⟨boot_machineInv small booted, boot_vars booted, ?_, fun b words has => ?_⟩
  · obtain ⟨p, vm, _, _, rfl⟩ := boot_init booted
    have list : List.finRange 1024 = 0 :: (List.finRange 1024).tail := by decide +kernel
    exact .empty (fun _ => rfl) rfl ⟨(List.finRange 1024).tail, by simpa only [initKernel] using list⟩
  · obtain ⟨used, _⟩ := varWords_some has
    obtain ⟨p, vm, _, _, rfl⟩ := boot_init booted
    exact absurd rfl used

theorem VarInv.run {ops : List MachineOp} (inv : VarInv k) (run : Run machineStep VarGuard k ops k') :
    VarInv k' ∧ ∃ events, VarRun k ops events k' ∧ MapRun k.varMaps events k'.varMaps := by
  induction run with
  | nil => exact ⟨inv, [], .nil, .nil⟩
  | snoc run meets next ih =>
    obtain ⟨inv', events, told, maps⟩ := ih
    obtain ⟨ev, tells, step, _⟩ := machineStep_accounted inv' meets next
    exact ⟨machineStep_varInv inv' meets next, events ++ [ev], .snoc told next tells, .snoc maps step⟩

/-- In every run the variable tables are bounded maps with attributes: what the steps do to them is what the maps allow,
    the calls return, and a child starts with what its parent exports. -/
theorem vars_refine {npage : Nat} {mem : Nat → Nat → Word} {k0 : Kernel} {ops : List MachineOp} (small : npage ≤ 2^20)
    (booted : boot npage mem = some k0) (run : Run machineStep VarGuard k0 ops k) :
    (∀ more k', Run machineStep VarGuard k more k' →
      ∃ events, VarRun k more events k' ∧ MapRun k.varMaps events k'.varMaps) ∧
    (∀ cur tf (c : VarCall), k.curenv = some cur → ∃ r k', answered (c.run cur (k.trap tf)) = some (r, k')) ∧
    (∀ e m, k.varMaps e = some m → (SlotTable.domain m).Finite ∧ (SlotTable.domain m).ncard ≤ maxVars) ∧
    (∀ maps events maps', MapRun maps events maps' → ∀ env m name entry, VarEvent.reap env ∉ events → maps env = some m →
      m name = some entry → entry.readonly → ∃ m', maps' env = some m' ∧ m' name = some entry) ∧
    (∀ slots m c r m', Answers slots m c r m' → r.1 ≠ 0 → m' = m) ∧
    ∀ slots m load name value flags legal r m', Answers slots m (.set load name value flags legal) r m' →
      (r.1 = -eNoMem ↔ m name.key = none ∧ maxVars ≤ (SlotTable.domain m).ncard) := by
  obtain ⟨inv, _⟩ := (boot_varInv small booted).run run
  refine ⟨fun more k' later => (inv.run later).2, fun cur tf c current => ?_, fun e m has => ?_,
    fun _ _ _ maps _ _ _ _ stays => maps.readonly stays, fun _ _ _ _ _ answers => answers.failed,
    fun _ _ _ _ _ _ _ _ _ answers => answers.noMem_iff⟩
  · obtain ⟨v, has⟩ := Option.ne_none_iff_exists'.mp (inv.filled cur (inv.machine.env.current_used current))
    exact answered_some (k := k.trap tf) has
  · rw [varMaps_words] at has
    obtain ⟨words, here, rfl⟩ := Option.map_eq_some_iff.mp has
    have table := inv.tables e words here
    exact ⟨SlotTable.finite_domain table.distinct, SlotTable.ncard_le table.distinct⟩

/-- The user's memory has the strings "a" and "b". -/
def letters : Load := fun va => if va = 0x400000 then 97 else if va = 0x400002 then 98 else 0

def stringA : UserString letters where
  va := 0x400000
  text := [97]
  readable := .cons (by decide) (by decide) (.nil (by decide) (by decide))

def stringB : UserString letters where
  va := 0x400002
  text := [98]
  readable := .cons (by decide) (by decide) (.nil (by decide) (by decide))

def writing : Outside := { silence with load := letters }

/-- `a` is set to "b" for export and read-only, `b` to "a", `a` again in vain, and the child gets `a` only. -/
def varOps : List MachineOp :=
  [.syscall (mapCall 20 0x400000 0x400002 6) writing, .syscall (mapCall 20 0x400002 0x400000 0) writing,
    .syscall (mapCall 20 0x400000 0x400000 0) writing, .syscall (mapCall 9 0 0 0) writing]

theorem setVar_guard (name value : UserString letters) (flags : Word) (legal : flags &&& ~~~varAttrs = 0) (k : Kernel) :
    VarGuard k (.syscall (mapCall 20 name.va value.va flags) writing) := by
  refine ⟨fun call entry => (by cases entry), fun load call found _ => ?_⟩
  cases found
  exact ⟨.set letters name value flags legal, .set⟩

set_option maxRecDepth 100000 in
theorem vars_refine_varOps : ∃ k0 k k' events, clearBoot = some k0 ∧ Run machineStep VarGuard k0 startRun k ∧
    Run machineStep VarGuard k varOps k' ∧ VarRun k varOps events k' ∧ MapRun k.varMaps events k'.varMaps ∧
    ((k'.varMaps 0).bind (· [97]) = some ⟨[98], 6⟩ ∧ (k'.varMaps 0).bind (· [98]) = some ⟨[97], 0⟩) ∧
    (k'.varMaps 1).bind (· [97]) = some ⟨[98], 6⟩ ∧ (k'.varMaps 1).bind (· [98]) = none := by
  have check : (clearBoot.bind fun k0 => (Run.exec machineStep k0 startRun).bind fun k =>
      (Run.exec machineStep k varOps).map fun k' =>
        (((k'.varMaps 0).bind (· [97]), (k'.varMaps 0).bind (· [98])), (k'.varMaps 1).bind (· [97]), (k'.varMaps 1).bind (· [98]))) =
      some ((some ⟨[98], 6⟩, some ⟨[97], 0⟩), some ⟨[98], 6⟩, none) := by
    rw [clearBoot_eq]
    decide +kernel
  obtain ⟨k0, booted, check⟩ := Option.bind_eq_some_iff.mp check
  obtain ⟨k, first, check⟩ := Option.bind_eq_some_iff.mp check
  obtain ⟨k', second, check⟩ := Option.map_eq_some_iff.mp check
  simp only [Prod.mk.injEq] at check
  have started : Run machineStep VarGuard k0 startRun k := by
    refine Run.of_exec (fun op mem t => ?_) first
    simp only [startRun, List.mem_cons, List.not_mem_nil, or_false] at mem
    rcases mem with rfl | rfl
    · exact ⟨fun page inside => (by cases inside), fun _ _ found => by cases found⟩
    · exact ⟨trivial, fun _ _ found => by cases found⟩
  have went : Run machineStep VarGuard k varOps k' := by
    refine Run.of_exec (fun op mem t => ?_) second
    simp only [varOps, List.mem_cons, List.not_mem_nil, or_false] at mem
    rcases mem with rfl | rfl | rfl | rfl
    · exact setVar_guard stringA stringB 6 (by decide) t
    · exact setVar_guard stringB stringA 0 (by decide) t
    · exact setVar_guard stringA stringA 0 (by decide) t
    · exact ⟨fun call entry => (by cases entry; trivial), fun _ _ found => by cases found⟩
  obtain ⟨events, told, maps⟩ := (vars_refine (by decide) booted started).1 varOps k' went
  exact ⟨k0, k, k', events, booted, started, went, told, maps, check.1, check.2⟩

theorem schedule_first (idle : k.curenv = none) (first : k.envSchedList.first = some e) (runnable : (k.envs e).envStatus = .runnable) :
    ∃ k', schedule false k = .ok () k' ∧ k'.curenv = some e ∧ (k'.envs e).envVars = (k.envs e).envVars := by
  have none : k.curRunnable = .none := by rw [Kernel.curRunnable, idle]; rfl
  have picked : schedule false k = envRun e { k with count := (k.envs e).envPri - 1 } := by
    unfold schedule
    rw [none]
    split
    · rename_i found
      cases found
    · simp only [Result.ok_bind, first]
  rw [picked, envRun, if_neg (not_not.mpr runnable)]
  simp only [idle]
  exact ⟨_, rfl, rfl, by simp [Kernel.updateEnv]⟩

/-- The page of `envs` that held `env_vars` of env 3 belongs to its program now. -/
theorem setVar_stops : ∃ k0 k k1 k2, clearBoot = some k0 ∧ Run step (fun _ _ => True) k0 threePrograms k ∧
    envCreateBss bigBss 0 1 k = .ok 3 k1 ∧ step k1 (.timer zeroFrame) = some k2 ∧ k2.curenv = some 3 ∧
    ∀ tf load (name value : UserString load) flags legal,
      answered ((VarCall.set load name value flags legal).run 3 (k2.trap tf)) = none := by
  obtain ⟨k0, k, k1, booted, run, created, _, used, lost, idle, first⟩ := bigBss_created
  obtain ⟨k2, scheduled, current, vars⟩ := schedule_first (k := { k1 with tf := zeroFrame }) idle first (used 3)
  refine ⟨k0, k, k1, k2, booted, run, created, by rw [step, scheduled]; rfl, current, fun tf load name value flags legal => ?_⟩
  have null : ((k2.trap tf).envs 3).envVars = none := vars.trans lost
  simp only [VarCall.run, sysSetVar, copyIn_string name.readable, copyIn_string value.readable, tryCopy, withVars, null]
  rfl

end Mos
