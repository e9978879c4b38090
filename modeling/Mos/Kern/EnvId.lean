import Mos.Kern.Alloc
import Mos.Kern.Refs

open TailQueue

namespace Mos

/-- The value of `mkenvid` at its `generation`-th call. -/
def envIdAt (generation : Nat) (e : EnvPtr) : Word := BitVec.ofNat 32 generation <<< 11 ||| BitVec.ofNat 32 e.val

theorem envIdAt_toNat (generation : Nat) (e : EnvPtr) :
    (envIdAt generation e).toNat = generation % 2^21 * 2048 + e.val := by
  have slot : e.val < 2^11 := lt_trans e.isLt (by decide)
  have low : (BitVec.ofNat 32 e.val).toNat = e.val := by
    rw [BitVec.toNat_ofNat]
    omega
  have high : (BitVec.ofNat 32 generation <<< 11).toNat = (generation % 2^21) <<< 11 := by
    rw [BitVec.toNat_shiftLeft, BitVec.toNat_ofNat, Nat.shiftLeft_eq, Nat.shiftLeft_eq]
    omega
  rw [envIdAt, BitVec.toNat_or, high, low, ← Nat.shiftLeft_add_eq_or_of_lt slot, Nat.shiftLeft_eq]

/-- What callers of `fork`, `sys_exofork` and `envid2env` take for granted of the ids they were given:
    0 is the caller, a negative result is an error, and no two envs of a run have one id. -/
structure Unambiguous (ids : List Word) : Prop where
  nonzero : ∀ id ∈ ids, id ≠ 0
  nonnegative : ∀ id ∈ ids, 0 ≤ id.toInt
  distinct : ids.Nodup

/-- The ids in the order in which `mkenvid` returned them. -/
def Counted (ids : List Word) : Prop := ∀ j id, ids[j]? = some id → ∃ e, id = envIdAt (j + 1) e

theorem Counted.snoc {ids : List Word} (counted : Counted ids) (e : EnvPtr) :
    Counted (ids ++ [envIdAt (ids.length + 1) e]) := by
  intro j id got
  rw [List.getElem?_append] at got
  split at got
  · exact counted j id got
  · rename_i beyond
    obtain ⟨here, rfl⟩ := List.getElem?_eq_some_iff.mp got
    simp only [List.length_singleton] at here
    have last : j = ids.length := by omega
    subst last
    exact ⟨e, by simp⟩

theorem Counted.mem {ids : List Word} (counted : Counted ids) {id : Word} (issued : id ∈ ids) :
    ∃ j e, j < ids.length ∧ id = envIdAt (j + 1) e := by
  obtain ⟨j, got⟩ := List.mem_iff_getElem?.mp issued
  obtain ⟨e, eq⟩ := counted j id got
  exact ⟨j, e, (List.getElem?_eq_some_iff.mp got).1, eq⟩

theorem Counted.unambiguous_iff {ids : List Word} (counted : Counted ids) : Unambiguous ids ↔ ids.length < 2^20 := by
  constructor
  · intro fine
    by_contra many
    have inside : 2^20 - 1 < ids.length := by omega
    obtain ⟨e, eq⟩ := counted (2^20 - 1) _ (List.getElem?_eq_getElem inside)
    have nonnegative := fine.nonnegative _ (List.getElem_mem inside)
    rw [eq, BitVec.toInt_eq_toNat_cond, envIdAt_toNat] at nonnegative
    have slot := e.isLt
    split at nonnegative <;> omega
  · intro few
    have small : ∀ id ∈ ids, 2048 ≤ id.toNat ∧ id.toNat < 2^31 := by
      intro id issued
      obtain ⟨j, e, less, rfl⟩ := counted.mem issued
      have slot := e.isLt
      rw [envIdAt_toNat]
      omega
    refine ⟨fun id issued zero => ?_, fun id issued => ?_, ?_⟩
    · have large := (small id issued).1
      rw [zero] at large
      exact absurd large (by decide)
    · have bound := (small id issued).2
      rw [BitVec.toInt_eq_toNat_cond]
      split <;> omega
    · rw [List.nodup_iff_getElem?_ne_getElem?]
      intro i j before inside same
      obtain ⟨a, first⟩ := counted i _ (List.getElem?_eq_getElem (before.trans inside))
      obtain ⟨b, second⟩ := counted j _ (List.getElem?_eq_getElem inside)
      rw [List.getElem?_eq_getElem (before.trans inside), List.getElem?_eq_getElem inside, Option.some.injEq,
        first, second] at same
      have values := congrArg BitVec.toNat same
      rw [envIdAt_toNat, envIdAt_toNat] at values
      have slotA := a.isLt
      have slotB := b.isLt
      omega

def newId (k : Kernel) (op : Op) (k' : Kernel) : List Word :=
  match event k op with
  | .create e _ => [(k'.envs e).envId]
  | _ => []

def issuing (s : Kernel × List Word) (op : Op) : Option (Kernel × List Word) :=
  (step s.1 op).map fun k => (k, s.2 ++ newId s.1 op k)

variable {k k' : Kernel} {op : Op}

theorem envAlloc_counter {parentId : Word} {e : EnvPtr} (h : envAlloc parentId k = .ok e k') :
    k'.mkenvidI = k.mkenvidI + 1 ∧ (k'.envs e).envId = (k.mkenvidI + 1) <<< 11 ||| BitVec.ofNat 32 e.val := by
  obtain ⟨_, _, _, _, _, ran⟩ := envAlloc_runs h
  exact ran.number

theorem envAlloc_err_counter {parentId code : Word} (h : envAlloc parentId k = .err code k') :
    k'.mkenvidI = k.mkenvidI := by
  cases envAlloc_refuses h with
  | envs => rfl
  | pgdir => rfl
  | vars _ setup => exact (envSetupVm_table setup).2
  | asid _ setup => exact (envSetupVm_table setup).2

theorem schedule_counter {yield : Bool} (h : (schedule yield k).state = some k') : k'.mkenvidI = k.mkenvidI := by
  obtain ⟨_, _, resumed⟩ := schedule_ok (schedule_state h)
  exact resumed.mkenvidI

theorem leave_counter {cur : EnvPtr} (last : Kernel → Kernel) (same : ∀ k, (last k).mkenvidI = k.mkenvidI)
    (h : ((k.tailqRemove cur).bind fun _ k => schedule true (last k)).state = some k') : k'.mkenvidI = k.mkenvidI := by
  rcases Result.bind_state h with ⟨_, h⟩ | ⟨_, mid, unlink, h⟩
  · exact absurd h (tailqRemove_noErr _ _ _ _)
  · obtain ⟨q, _, rfl⟩ := tailqRemove_ok unlink
    exact (schedule_counter h).trans (same _)

theorem envFree_counter {e : EnvPtr} {u : Unit} (h : envFree e k = .ok u k') : k'.mkenvidI = k.mkenvidI := by
  obtain ⟨_, _, _, ran⟩ := envFree_runs h
  exact ran.counter

theorem sysEnvDestroy_counter {cur : EnvPtr} {envid status : Word} (current : k.curenv = some cur)
    (h : (sysEnvDestroy cur envid status k).state = some k') : k'.mkenvidI = k.mkenvidI := by
  unfold sysEnvDestroy at h
  split at h
  · cases h
    rfl
  · split at h
    · dsimp only at h
      have left := leave_counter id (fun _ => rfl) (switch_state h)
      exact left
    · rename_i other
      split at h
      · cases h
        rfl
      · exact envFree_counter (envDestroy_state (fun cur' => other (Option.some.inj (cur'.symm.trans current))) (ret_state h))

theorem envCreate_counter {binary : Binary} {priority : Word} {e : EnvPtr} {mid : Kernel} (alloc : envAlloc 0 k = .ok e mid)
    (h : (envCreate binary priority k).state = some k') : k'.mkenvidI = mid.mkenvidI := by
  unfold envCreate at h
  simp only [alloc, panicOn, Result.ok_bind] at h
  rcases Result.bind_state h with ⟨_, h⟩ | ⟨_, last, load, h⟩
  · rcases Result.bind_err h with h | ⟨_, _, _, h⟩
    · exact absurd h (panicOn_noErr _ _ _)
    · cases h
  · cases h
    obtain ⟨_, loaded, pages, load⟩ := Result.bind_ok load
    obtain ⟨vm, _, rfl⟩ := withVm_ok (panicOn_ok pages)
    cases load
    rfl

theorem sysIpcRecv_counter {cur : EnvPtr} {dstva : Word} (h : (sysIpcRecv cur dstva k).state = some k') :
    k'.mkenvidI = k.mkenvidI := by
  unfold sysIpcRecv at h
  split at h
  · cases h
    rfl
  · dsimp only at h
    have left := leave_counter (fun k => { k with tf := k.tf.setReg 2 0 }) (fun _ => rfl) (switch_state h)
    exact left

theorem sysSetEnvStatus_counter {cur : EnvPtr} {envid status : Word}
    (h : (sysSetEnvStatus cur envid status k).state = some k') : k'.mkenvidI = k.mkenvidI := by
  rcases sysSetEnvStatus_state h with ⟨rfl, _⟩ | ⟨e, q, _, _, h⟩
  · rfl
  · split at h
    · obtain ⟨_, _, resumed⟩ := schedule_ok h
      exact resumed.mkenvidI
    · rw [h]
      rfl

theorem callEvent_create {cur e : EnvPtr} {parent : Option EnvPtr} {call : Call}
    (made : callEvent k cur call = .create e parent) : call = .exofork := by
  cases call with
  | exofork => rfl
  | envDestroy envid status =>
    unfold callEvent at made
    dsimp only at made
    split at made
    · split at made
      · cases made
      · split at made <;> cases made
    · cases made
  | setEnvStatus envid status =>
    unfold callEvent at made
    dsimp only at made
    split at made
    · split at made <;> cases made
    · cases made
  | ipcTrySend envid value srcva perm =>
    unfold callEvent at made
    dsimp only at made
    split at made
    · split at made <;> cases made
    · cases made
  | ipcRecv dstva =>
    unfold callEvent at made
    dsimp only at made
    split at made <;> cases made
  | yield => cases made
  | memAlloc envid va perm => cases made
  | memMap srcid srcva dstid dstva perm => cases made
  | memUnmap envid va => cases made

theorem syscall_counter {cur : EnvPtr} {call : Call} (current : k.curenv = some cur) (other : call ≠ .exofork)
    (h : (syscallTable cur call k).state = some k') : k'.mkenvidI = k.mkenvidI := by
  cases call with
  | yield => exact schedule_counter (switch_state h)
  | memAlloc envid va perm =>
    obtain ⟨vm, rfl⟩ := sysMemAlloc_state h
    rfl
  | memMap srcid srcva dstid dstva perm =>
    obtain ⟨vm, rfl⟩ := sysMemMap_state h
    rfl
  | memUnmap envid va =>
    obtain ⟨vm, rfl⟩ := sysMemUnmap_state h
    rfl
  | exofork => exact absurd rfl other
  | envDestroy envid status => exact sysEnvDestroy_counter current h
  | setEnvStatus envid status => exact sysSetEnvStatus_counter h
  | ipcRecv dstva => exact sysIpcRecv_counter h
  | ipcTrySend envid value srcva perm =>
    rcases sysIpcTrySend_state h with ⟨rfl, _⟩ | ⟨e, vm, _, rfl⟩
    · rfl
    · rfl

theorem newId_call {call : Call} (other : call ≠ .exofork) : newId k (.call call) k' = [] := by
  unfold newId
  split
  · rename_i e parent made
    simp only [Op.call, event] at made
    split at made
    · exact absurd (callEvent_create made) other
    · cases made
  · rfl

theorem step_newId (h : step k op = some k') :
    (k'.mkenvidI = k.mkenvidI ∧ newId k op k' = []) ∨
      ∃ e : EnvPtr, k'.mkenvidI = k.mkenvidI + 1 ∧
        newId k op k' = [(k.mkenvidI + 1) <<< 11 ||| BitVec.ofNat 32 e.val] := by
  cases op with
  | syscall tf call =>
    obtain ⟨cur, current, h⟩ := Option.bind_eq_some_iff.mp h
    obtain ⟨after, mid, called, rfl⟩ := doSyscall_state h
    have trapped : (k.trap tf).curenv = some cur := current
    by_cases fork : call = .exofork
    · subst fork
      have made : event k (.syscall tf .exofork) = callEvent (k.trap tf) cur .exofork := by simp only [event, current]
      unfold newId
      rw [made]
      unfold callEvent
      rcases sysExofork_state called with ⟨code, alloc⟩ | ⟨e, last, alloc, rfl⟩
      · rw [alloc]
        have same := envAlloc_err_counter alloc
        exact Or.inl ⟨same, rfl⟩
      · rw [alloc]
        obtain ⟨next, id⟩ := envAlloc_counter alloc
        refine Or.inr ⟨e, next, congrArg (fun w => [w]) ?_⟩
        show ((forked cur e last).envs e).envId = _
        rw [forked_self]
        exact id
    · have quiet : ∀ e parent, callEvent (k.trap tf) cur call ≠ .create e parent :=
        fun e parent made => fork (callEvent_create made)
      have same := syscall_counter trapped fork called
      refine Or.inl ⟨same, ?_⟩
      simp only [newId, event, current]
  | timer tf =>
    have same := schedule_counter (k := { k with tf := tf }) h
    exact Or.inl ⟨same, rfl⟩
  | tlbRefill va victim =>
    obtain ⟨cur, _, h⟩ := Option.bind_eq_some_iff.mp h
    obtain ⟨vm, rfl⟩ := withVm_state h
    exact Or.inl ⟨rfl, rfl⟩
  | envCreate binary priority =>
    obtain ⟨e, mid, alloc, created, _⟩ := envCreate_state h
    obtain ⟨next, id⟩ := envAlloc_counter alloc
    refine Or.inr ⟨e, (envCreate_counter alloc h).trans next, ?_⟩
    have same : (k'.envs e).envId = (mid.envs e).envId := by rw [created.env]
    simp only [newId, event, alloc, same, id]

/-- The counter of `mkenvid` is the number of ids handed out. -/
structure IdInv (s : Kernel × List Word) : Prop where
  counter : s.1.mkenvidI = BitVec.ofNat 32 s.2.length
  counted : Counted s.2

theorem IdInv.next {s s' : Kernel × List Word} (inv : IdInv s) (h : issuing s op = some s') : IdInv s' := by
  obtain ⟨k, next, rfl⟩ := Option.map_eq_some_iff.mp h
  have count : s.1.mkenvidI + 1 = BitVec.ofNat 32 (s.2.length + 1) := by
    rw [inv.counter, BitVec.ofNat_add]
    rfl
  rcases step_newId next with ⟨same, none⟩ | ⟨e, up, one⟩
  · rw [none, List.append_nil]
    exact ⟨same.trans inv.counter, inv.counted⟩
  · rw [one, count]
    refine ⟨?_, inv.counted.snoc e⟩
    rw [up, count, List.length_append]
    rfl

theorem boot_counter {npage : Nat} {mem : Nat → Nat → Word} (booted : boot npage mem = some k) : IdInv (k, []) := by
  refine ⟨?_, fun j id got => by cases got⟩
  obtain ⟨p, vm, _, _, rfl⟩ := boot_init booted
  rfl

/-- The ids handed out in a run are unambiguous exactly as long as there are fewer than 2^20 of them. -/
theorem envIds_unambiguous_iff {npage : Nat} {mem : Nat → Nat → Word} {k0 : Kernel} {ops : List Op}
    {s : Kernel × List Word} (booted : boot npage mem = some k0)
    (run : Run issuing (fun _ _ => True) (k0, []) ops s) : Unambiguous s.2 ↔ s.2.length < 2^20 :=
  (run.invariant IdInv (boot_counter booted) fun _ _ _ inv _ next => inv.next next).counted.unambiguous_iff

/-- The pages that `env_alloc` took for the env. -/
structure Holds (e : EnvPtr) (p v : Nat) (k : Kernel) : Prop where
  pgdir : (k.envs e).envPgdir = p
  vars : (k.envs e).envVars = some v
  pgdirRef : k.vm.ppRef p = 1
  varsRef : k.vm.ppRef v = 1
  unmapped : ∀ i < pdx utop, k.vm.mem p i = 0

theorem setupPgdir_unmapped (mem : Nat → Nat → Word) (base p : Nat) {i : Nat} (less : i < pdx utop) :
    setupPgdir mem base p i = mem p i := by
  have below : pdx utop < pdx uvpt := by decide
  unfold setupPgdir
  rw [if_neg (by omega), if_neg (by omega)]

theorem envSetupVm_pages {e : EnvPtr} {p : Nat} {rest : List Nat} {u : Unit} (stock : k.vm.pageFreeList = p :: rest)
    (h : envSetupVm e k = .ok u k') :
    (k'.envs e).envPgdir = p ∧ k'.vm.pageFreeList = rest ∧ k'.vm.ppRef = (k.vm.incRef p).ppRef ∧
      ∀ i < pdx utop, k'.vm.mem p i = 0 := by
  obtain ⟨_, vm, alloc, rfl⟩ := envSetupVm_runs h
  obtain ⟨_, first, _, rfl⟩ := pageAlloc_ok alloc
  cases stock.symm.trans first
  refine ⟨by simp [Kernel.putVm, Kernel.updateEnv], rfl, rfl, fun i less => ?_⟩
  simp only [Kernel.putVm, Kernel.updateEnv, Vm.incRef, Vm.setRef, Function.update_self]
  rw [setupPgdir_unmapped _ _ _ less, Function.update_self]

theorem envAlloc_holds {parentId : Word} {e : EnvPtr} {p v : Nat} {pages : List Nat} (apart : p ≠ v)
    (stock : k.vm.pageFreeList = p :: v :: pages) (unusedP : k.vm.ppRef p = 0) (unusedV : k.vm.ppRef v = 0)
    (h : envAlloc parentId k = .ok e k') : Holds e p v k' := by
  obtain ⟨k1, k2, vars, vm, asid, ran⟩ := envAlloc_runs h
  obtain ⟨pgdir, left, refs, unmapped⟩ := envSetupVm_pages stock ran.setup
  obtain ⟨_, second, _, rfl⟩ := pageAlloc_ok ran.alloc
  cases left.symm.trans second
  obtain ⟨page, eq⟩ := ran.vm_eq
  refine ⟨ran.root.1.trans pgdir, ran.root.2, ?_, ?_, fun i less => ?_⟩
  · rw [eq]
    show Function.update k1.vm.ppRef v (k1.vm.ppRef v + 1) p = 1
    rw [Function.update_of_ne apart, refs]
    show Function.update k.vm.ppRef p (k.vm.ppRef p + 1) p = 1
    rw [Function.update_self, unusedP]
    rfl
  · rw [eq]
    show Function.update k1.vm.ppRef v (k1.vm.ppRef v + 1) v = 1
    rw [Function.update_self, refs]
    show Function.update k.vm.ppRef p (k.vm.ppRef p + 1) v + 1 = 1
    rw [Function.update_of_ne apart.symm, unusedV]
    rfl
  · rw [eq]
    show Function.update (Function.update k1.vm.mem v fun _ => 0) v page p i = 0
    rw [Function.update_of_ne apart, Function.update_of_ne apart]
    exact unmapped i less

theorem envFreePde_unmapped {pgdir pdeno : Nat} {asid : Word} {vm : Vm} (unmapped : vm.mem pgdir pdeno = 0) :
    envFreePde pgdir asid pdeno vm = .ok () vm := by
  simp [envFreePde, unmapped]

theorem pageDecref_last {vm : Vm} {pp : Nat} (last : vm.ppRef pp = 1) :
    pageDecref vm pp = .ok () { vm.setRef pp 0 with pageFreeList := pp :: vm.pageFreeList } := by
  simp [pageDecref, last, Vm.setRef, pageFree]

theorem envFree_empty {e : EnvPtr} {p v : Nat} {q : TailQueue.Links EnvPtr} (apart : p ≠ v) (holds : Holds e p v k)
    (unlinked : k.envSchedList.remove e = some q) :
    ∃ k', envFree e k = .ok () k' ∧ k'.vm.pageFreeList = p :: v :: k.vm.pageFreeList ∧ k'.vm.ppRef p = 0 ∧
      k'.vm.ppRef v = 0 ∧ k'.vm.envsBase = k.vm.envsBase := by
  have vars := pageDecref_last holds.varsRef
  have tables : Result.forRange (pdx utop) (envFreePde p (asidWord (k.envs e).envAsid))
      { k.vm.setRef v 0 with pageFreeList := v :: k.vm.pageFreeList } =
        .ok () { k.vm.setRef v 0 with pageFreeList := v :: k.vm.pageFreeList } :=
    Result.forRange_idle fun i less => envFreePde_unmapped (holds.unmapped i less)
  have dir : pageDecref { k.vm.setRef v 0 with pageFreeList := v :: k.vm.pageFreeList } p = _ :=
    pageDecref_last ((Function.update_of_ne apart _ _).trans holds.pgdirRef)
  unfold envFree
  simp only [holds.vars, holds.pgdir, vars, Kernel.withVm, Result.ok_lift, Result.ok_bind, Kernel.putVm,
    Kernel.updateEnv, tables, dir, Kernel.tailqRemove, asidFree, unlinked]
  refine ⟨_, rfl, rfl, ?_, ?_, rfl⟩
  · simp [tlbInvalidate, Vm.setRef]
  · simp [tlbInvalidate, Vm.setRef, apart.symm]

theorem queue_turn {q : Links EnvPtr} {p c : EnvPtr} (queue : Repr q [p]) (other : c ≠ p) :
    ∃ q1 q2 q3, (q.insertTail c).remove p = some q1 ∧ (q1.insertTail p).first = some c ∧
      (q1.insertTail p).remove c = some q2 ∧ q2.first = some p ∧ q2.remove c = some q3 ∧ Repr q3 [p] := by
  have both := queue.insertTail (a := c) (by simpa using other)
  obtain ⟨q1, first, one⟩ := both.remove (a := p) (by simp)
  have alone : [p, c].erase p = [c] := by simp
  rw [List.singleton_append, alone] at one
  have back := one.insertTail (a := p) (by simpa using other.symm)
  obtain ⟨q2, second, two⟩ := back.remove (a := c) (by simp)
  obtain ⟨q3, again, last⟩ := back.remove_again (by simp) second
  have left : ([c] ++ [p]).erase c = [p] := by simp
  rw [left] at two last
  exact ⟨q1, q2, q3, first, back.first_eq, second, two.first_eq, again, last⟩
/-- `p` runs alone and can fork into the slot `c` with the pages `pgdir` and `vars`. -/
structure Forker (k : Kernel) (p c : EnvPtr) (pgdir vars : Nat) : Prop where
  current : k.curenv = some p
  runnable : k.Runnable p
  index : envx (k.envs p).envId = p
  named : (k.envs p).envId ≠ 0
  table : (k.envs p).envVars ≠ none
  other : c ≠ p
  free : (k.envs c).envStatus = .free
  list : ∃ rest, k.envFreeList = c :: rest
  stock : ∃ pages, k.vm.pageFreeList = pgdir :: vars :: pages
  apart : pgdir ≠ vars
  ownPgdir : k.vm.holdsEnvs pgdir = false
  ownVars : k.vm.holdsEnvs vars = false
  unusedPgdir : k.vm.ppRef pgdir = 0
  unusedVars : k.vm.ppRef vars = 0
  asid : ∃ a, k.asidBitmap a = false
  queue : Repr k.envSchedList [p]

/-- The child that `p` has forked from `k0`, up to its reaping. -/
structure Offspring (k0 : Kernel) (p c : EnvPtr) (pgdir vars : Nat) (id : Word) (k : Kernel) : Prop where
  parent : (k0.envs p).Resumed (k.envs p)
  id : (k.envs c).envId = id
  parentId : (k.envs c).envParentId = (k0.envs p).envId
  holds : Holds c pgdir vars k
  stock : k0.vm.pageFreeList = pgdir :: vars :: k.vm.pageFreeList
  envsBase : k.vm.envsBase = k0.vm.envsBase
  asids : k.asidBitmap = Function.update k0.asidBitmap (k.envs c).envAsid true

variable {k0 : Kernel} {p c : EnvPtr} {pgdir vars : Nat} {id : Word}

theorem Offspring.same (child : Offspring k0 p c pgdir vars id k) (vm : k'.vm = k.vm) (asids : k'.asidBitmap = k.asidBitmap)
    (parent : (k.envs p).Resumed (k'.envs p))
    (self : ∃ tf runs status exit, k'.envs c =
      { k.envs c with envTf := tf, envRuns := runs, envStatus := status, envExitStatus := exit }) :
    Offspring k0 p c pgdir vars id k' := by
  obtain ⟨tf, runs, status, exit, self⟩ := self
  refine ⟨child.parent.trans parent, ?_, ?_, ⟨?_, ?_, ?_, ?_, ?_⟩, ?_, ?_, ?_⟩
  · rw [self]
    exact child.id
  · rw [self]
    exact child.parentId
  · rw [self]
    exact child.holds.pgdir
  · rw [self]
    exact child.holds.vars
  · rw [vm]
    exact child.holds.pgdirRef
  · rw [vm]
    exact child.holds.varsRef
  · rw [vm]
    exact child.holds.unmapped
  · rw [vm]
    exact child.stock
  · rw [vm]
    exact child.envsBase
  · rw [asids, self]
    exact child.asids

theorem Offspring.resumed {e : EnvPtr} (child : Offspring k0 p c pgdir vars id k) (resumed : Resumption e k k') :
    Offspring k0 p c pgdir vars id k' :=
  child.same resumed.vm resumed.asidBitmap (resumed.envs p) ⟨_, _, (k.envs c).envStatus, (k.envs c).envExitStatus, resumed.envs c⟩

theorem Offspring.setFrame (child : Offspring k0 p c pgdir vars id k) (tf : Trapframe) : Offspring k0 p c pgdir vars id { k with tf := tf } :=
  child.same rfl rfl (.refl _) ⟨_, _, _, _, rfl⟩

theorem Offspring.marked (child : Offspring k0 p c pgdir vars id k) (other : c ≠ p) (status : EnvStatus)
    (q : TailQueue.Links EnvPtr) : Offspring k0 p c pgdir vars id (setStatus k c status q) := by
  refine child.same rfl rfl ?_ ⟨_, _, status, _, setStatus_self k c status q⟩
  rw [setStatus_others other.symm]
  exact .refl _

theorem step_return {cur : EnvPtr} {call : Call} {r : Word} (current : k.curenv = some cur)
    (called : syscallTable cur call (k.trap zeroFrame) = .ok (some r) k') :
    step k (.call call) = some { k' with tf := k'.tf.setReg 2 r } := by
  show (k.curenv.bind _) = _
  rw [current, Option.bind_some, doSyscall, called]

theorem step_switch {cur : EnvPtr} {call : Call} (current : k.curenv = some cur)
    (called : syscallTable cur call (k.trap zeroFrame) = .ok none k') : step k (.call call) = some k' := by
  show (k.curenv.bind _) = _
  rw [current, Option.bind_some, doSyscall, called]

theorem Offspring.found (child : Offspring k0 p c pgdir vars id k) (nonzero : id ≠ 0) (index : envx id = c)
    (used : (k.envs c).envStatus ≠ .free) : envid2env k p id true = .ok c := by
  have mine : (k.envs c).envParentId = (k.envs p).envId := by
    rw [child.parentId, child.parent]
  unfold envid2env
  rw [if_neg nonzero]
  simp [index, used, child.id, mine]

theorem Forker.fork (forker : Forker k p c pgdir vars) (inv : VarsInv k) :
    ∃ k', step k (.call .exofork) = some k' ∧
      Offspring k p c pgdir vars ((k.mkenvidI + 1) <<< 11 ||| BitVec.ofNat 32 c.val) k' ∧
      (k'.envs c).envStatus = .notRunnable ∧ k'.curenv = some p ∧ k'.envSchedList = k.envSchedList ∧
      newId k (.call .exofork) k' = [(k.mkenvidI + 1) <<< 11 ||| BitVec.ofNat 32 c.val] := by
  obtain ⟨rest, list⟩ := forker.list
  obtain ⟨pages, stock⟩ := forker.stock
  obtain ⟨a, unused⟩ := forker.asid
  obtain ⟨mid, alloc, left, base⟩ := envAlloc_fits (k := k.trap zeroFrame) (k.envs p).envId inv forker.free list stock
    forker.ownPgdir forker.ownVars unused
  obtain ⟨setup, _⟩ := envAlloc_ok alloc
  have allots := envAlloc_allots alloc
  have holds := envAlloc_holds (k := k.trap zeroFrame) forker.apart stock forker.unusedPgdir forker.unusedVars alloc
  obtain ⟨tf, next⟩ := step_exofork forker.current alloc
  have self := forked_self p c mid
  refine ⟨_, next, ⟨?_, ?_, ?_, ⟨?_, ?_, holds.pgdirRef, holds.varsRef, holds.unmapped⟩, ?_, base, ?_⟩, ?_,
    setup.curenv.trans forker.current, setup.sched, ?_⟩
  · show (k.envs p).Resumed ((forked p c mid).envs p)
    rw [forked_others forker.other.symm, setup.others p forker.other.symm]
    exact .refl _
  · show ((forked p c mid).envs c).envId = _
    rw [self]
    exact (envAlloc_counter alloc).2
  · show ((forked p c mid).envs c).envParentId = _
    rw [self]
    exact allots.parent
  · show ((forked p c mid).envs c).envPgdir = _
    rw [self]
    exact holds.pgdir
  · show ((forked p c mid).envs c).envVars = _
    rw [self]
    exact holds.vars
  · show k.vm.pageFreeList = pgdir :: vars :: mid.vm.pageFreeList
    rw [left, stock]
  · show mid.asidBitmap = Function.update k.asidBitmap ((forked p c mid).envs c).envAsid true
    rw [self]
    exact allots.asids
  · show ((forked p c mid).envs c).envStatus = _
    rw [self]
  · have made : event k (.call .exofork) = .create c (some p) := by
      have called : callEvent (k.trap zeroFrame) p .exofork = .create c (some p) := by
        unfold callEvent
        rw [show ((k.trap zeroFrame).envs p).envId = (k.envs p).envId from rfl, alloc]
      simp only [Op.call, event, forker.current, called]
    simp only [newId, made]
    show [((forked p c mid).envs c).envId] = _
    rw [self]
    exact congrArg (fun w => [w]) (envAlloc_counter alloc).2

theorem envRun_runs {e : EnvPtr} (runs : k.Runnable e) :
    ∃ k', envRun e k = .ok () k' ∧ Resumption e k k' ∧ k'.envSchedList = k.envSchedList := by
  have run : ∃ k', envRun e k = .ok () k' := by
    unfold envRun
    rw [if_neg fun stopped => stopped runs]
    exact ⟨_, rfl⟩
  obtain ⟨k', run⟩ := run
  exact ⟨k', run, envRun_ok run⟩

theorem schedule_rotates {cur e : EnvPtr} {q : TailQueue.Links EnvPtr} (current : k.curRunnable = some cur)
    (removed : k.envSchedList.remove cur = some q) (head : (q.insertTail cur).first = some e) (runs : k.Runnable e) :
    ∃ k', schedule true k = .ok () k' ∧ Resumption e k k' ∧ k'.envSchedList = q.insertTail cur := by
  have rotated : ∀ count, Kernel.Runnable { k with envSchedList := q.insertTail cur, count := count } e := fun _ => runs
  obtain ⟨k', run, resumed, queue⟩ := envRun_runs (rotated ((k.envs e).envPri - 1))
  refine ⟨k', ?_, resumed.recount rfl, queue⟩
  simp only [schedule, current, Kernel.tailqRemove, removed, Result.ok_bind, Kernel.tailqInsertTail, head, Bool.true_or]
  exact run

theorem schedule_head {e : EnvPtr} (current : k.curRunnable = none) (head : k.envSchedList.first = some e)
    (runs : k.Runnable e) :
    ∃ k', schedule true k = .ok () k' ∧ Resumption e k k' ∧ k'.envSchedList = k.envSchedList := by
  have counted : ∀ count, Kernel.Runnable { k with count := count } e := fun _ => runs
  obtain ⟨k', run, resumed, queue⟩ := envRun_runs (counted ((k.envs e).envPri - 1))
  refine ⟨k', ?_, resumed.recount rfl, queue⟩
  simp only [schedule, current, Result.ok_bind, head, Bool.true_or]
  exact run

theorem Offspring.wake (child : Offspring k0 p c pgdir vars id k) (current : k.curenv = some p) (other : c ≠ p) (nonzero : id ≠ 0)
    (index : envx id = c) (status : (k.envs c).envStatus = .notRunnable) :
    ∃ k', step k (.call (.setEnvStatus id 1)) = some k' ∧ Offspring k0 p c pgdir vars id k' ∧
      (k'.envs c).envStatus = .runnable ∧ k'.curenv = some p ∧ k'.envSchedList = k.envSchedList.insertTail c := by
  have trapped : Offspring k0 p c pgdir vars id (k.trap zeroFrame) := child.setFrame _
  have found := trapped.found nonzero index (by
    show (k.envs c).envStatus ≠ .free
    rw [status]
    exact fun free => by cases free)
  have stopped : ((k.trap zeroFrame).envs c).envStatus = .notRunnable := status
  have called : syscallTable p (.setEnvStatus id 1) (k.trap zeroFrame) =
      .ok (some 0) (setStatus (k.trap zeroFrame) c .runnable (k.envSchedList.insertTail c)) := by
    simp only [syscallTable, sysSetEnvStatus, found, tryEnv, setEnvStatus, EnvStatus.code, stopped, other]
    rfl
  refine ⟨_, step_return current called, (trapped.marked other _ _).setFrame _, ?_, current, rfl⟩
  exact congrArg Env.envStatus (setStatus_self (k.trap zeroFrame) c .runnable _)

theorem Offspring.enter (child : Offspring k0 p c pgdir vars id k) (current : k.curenv = some p) (runs : k.Runnable p)
    (status : (k.envs c).envStatus = .runnable) {q : TailQueue.Links EnvPtr} (removed : k.envSchedList.remove p = some q)
    (first : (q.insertTail p).first = some c) :
    ∃ k', step k (.call .yield) = some k' ∧ Offspring k0 p c pgdir vars id k' ∧
      (k'.envs c).envStatus = .runnable ∧ k'.curenv = some c ∧ k'.envSchedList = q.insertTail p := by
  have running : (k.trap zeroFrame).curRunnable = some p := by
    have mine : decide ((k.envs p).envStatus = .runnable) = true := decide_eq_true runs
    show Option.filter _ k.curenv = _
    rw [current]
    exact Option.filter_some_pos mine
  have ready : (k.trap zeroFrame).Runnable c := status
  obtain ⟨k', schedules, resumed, queue⟩ := schedule_rotates (k := k.trap zeroFrame) running removed first ready
  have called : syscallTable p .yield (k.trap zeroFrame) = .ok none k' := by
    simp only [syscallTable, sysYield, schedules]
    rfl
  have entered : Offspring k0 p c pgdir vars id k' := Offspring.resumed (child.setFrame _) resumed
  exact ⟨k', step_switch current called, entered, (resumed.envs c).status.trans status, resumed.curenv, queue⟩

theorem Offspring.exit (child : Offspring k0 p c pgdir vars id k) (current : k.curenv = some c) (other : c ≠ p)
    (runs : k.Runnable p) {q : TailQueue.Links EnvPtr} (removed : k.envSchedList.remove c = some q) (first : q.first = some p) :
    ∃ k', step k (.call (.envDestroy 0 0)) = some k' ∧ Offspring k0 p c pgdir vars id k' ∧
      (k'.envs c).envStatus = .zombie ∧ k'.curenv = some p ∧ k'.envSchedList = q := by
  have dead : Offspring k0 p c pgdir vars id { (k.trap zeroFrame).updateEnv c fun env =>
      { env with envExitStatus := 0, envStatus := .zombie } with envSchedList := q } := by
    refine child.same rfl rfl ?_ ⟨(k.envs c).envTf, (k.envs c).envRuns, .zombie, 0, ?_⟩
    · show (k.envs p).Resumed (Function.update k.envs c _ p)
      rw [Function.update_of_ne other.symm]
      exact .refl _
    · simp [Kernel.updateEnv, Kernel.trap]
  have stopped : Kernel.curRunnable { (k.trap zeroFrame).updateEnv c fun env =>
      { env with envExitStatus := 0, envStatus := .zombie } with envSchedList := q } = none := by
    show Option.filter _ k.curenv = none
    rw [current]
    simp [Kernel.updateEnv]
  have ready : Kernel.Runnable { (k.trap zeroFrame).updateEnv c fun env =>
      { env with envExitStatus := 0, envStatus := .zombie } with envSchedList := q } p := by
    show (Function.update k.envs c _ p).envStatus = .runnable
    rw [Function.update_of_ne other.symm]
    exact runs
  obtain ⟨k', schedules, resumed, queue⟩ := schedule_head stopped first ready
  have called : syscallTable c (.envDestroy 0 0) (k.trap zeroFrame) = .ok none k' := by
    have unlinked : ∀ f, ((k.trap zeroFrame).updateEnv c f).envSchedList.remove c = some q := fun _ => removed
    simp only [syscallTable, sysEnvDestroy, envid2env, if_true, Kernel.tailqRemove, unlinked, Result.ok_bind, schedules]
    rfl
  refine ⟨k', step_switch current called, dead.resumed resumed, ?_, resumed.curenv, queue⟩
  rw [(resumed.envs c).status]
  simp [Kernel.updateEnv]

theorem Offspring.reap (child : Offspring k0 p c pgdir vars id k) (forker : Forker k0 p c pgdir vars) (current : k.curenv = some p)
    (nonzero : id ≠ 0) (index : envx id = c) (status : (k.envs c).envStatus = .zombie) (runs : k.Runnable p)
    {q : TailQueue.Links EnvPtr} (removed : k.envSchedList.remove c = some q) (alone : Repr q [p]) :
    ∃ k', step k (.call (.envDestroy id 0)) = some k' ∧ Forker k' p c pgdir vars := by
  have trapped : Offspring k0 p c pgdir vars id (k.trap zeroFrame) := child.setFrame _
  have found := trapped.found nonzero index (by
    show (k.envs c).envStatus ≠ .free
    rw [status]
    exact fun free => by cases free)
  obtain ⟨k', free, pages, unusedPgdir, unusedVars, base⟩ := envFree_empty (k := k.trap zeroFrame) forker.apart trapped.holds removed
  have freed := envFree_ok free
  have mine : (k.envs c).envParentId = (k.envs p).envId := by
    rw [child.parentId, child.parent]
  have called : syscallTable p (.envDestroy id 0) (k.trap zeroFrame) = .ok (some 0) k' := by
    have zombie : ((k.trap zeroFrame).envs c).envStatus = .zombie := status
    have parent : ((k.trap zeroFrame).envs c).envParentId = ((k.trap zeroFrame).envs p).envId := mine
    have stays : k'.curenv ≠ some c := by
      rw [freed.curenv]
      show k.curenv ≠ some c
      rw [current]
      exact fun same => forker.other (Option.some.inj same).symm
    simp only [syscallTable, sysEnvDestroy, found, forker.other, zombie, parent, envDestroy, free, Result.ok_bind, stays,
      if_false, ne_eq, not_true_eq_false, or_self, ret]
  have self : k'.envs p = k.envs p := freed.others p forker.other.symm
  have named : (k.envs p).envId = (k0.envs p).envId := by rw [child.parent]
  refine ⟨_, step_return current called, ⟨freed.curenv.trans current, ?_, ?_, ?_, ?_, forker.other, ?_, ⟨_, freed.freeList⟩,
    ⟨_, pages⟩, forker.apart, ?_, ?_, unusedPgdir, unusedVars, ?_, ?_⟩⟩
  · show (k'.envs p).envStatus = .runnable
    rw [self]
    exact runs
  · show envx (k'.envs p).envId = p
    rw [self, named]
    exact forker.index
  · show (k'.envs p).envId ≠ 0
    rw [self, named]
    exact forker.named
  · show (k'.envs p).envVars ≠ none
    rw [self, child.parent]
    exact forker.table
  · show (k'.envs c).envStatus = .free
    rw [freed.env]
  · show k'.vm.holdsEnvs pgdir = false
    rw [Vm.holdsEnvs, base]
    show Vm.holdsEnvs k.vm pgdir = false
    rw [Vm.holdsEnvs, child.envsBase]
    exact forker.ownPgdir
  · show k'.vm.holdsEnvs vars = false
    rw [Vm.holdsEnvs, base]
    show Vm.holdsEnvs k.vm vars = false
    rw [Vm.holdsEnvs, child.envsBase]
    exact forker.ownVars
  · refine ⟨(k.envs c).envAsid, ?_⟩
    show k'.asidBitmap (k.envs c).envAsid = false
    rw [freed.asidBitmap]
    exact Function.update_self ..
  · show Repr k'.envSchedList [p]
    obtain rfl := Option.some.inj (removed.symm.trans freed.unlinked)
    exact alone

/-- A fork, the child's whole life and its reaping, where the child gets `id`. -/
def turn (id : Word) : List Op :=
  [.call .exofork, .call (.setEnvStatus id 1), .call .yield, .call (.envDestroy 0 0), .call (.envDestroy id 0)]

theorem issuing_call {ids : List Word} {call : Call} (other : call ≠ .exofork) (next : step k (.call call) = some k') :
    issuing (k, ids) (.call call) = some (k', ids) := by
  unfold issuing
  dsimp only
  rw [next, Option.map_some, newId_call other, List.append_nil]

theorem Forker.again {ids : List Word} (forker : Forker k p c pgdir vars) (tables : VarsInv k) (inv : IdInv (k, ids))
    (second : c ≠ 0) :
    ∃ k', Run issuing (fun _ _ => True) (k, ids) (turn (envIdAt (ids.length + 1) c)) (k', ids ++ [envIdAt (ids.length + 1) c]) ∧
      Forker k' p c pgdir vars := by
  have id : (k.mkenvidI + 1) <<< 11 ||| BitVec.ofNat 32 c.val = envIdAt (ids.length + 1) c := by
    rw [inv.counter, envIdAt, BitVec.ofNat_add]
    rfl
  have index : envx (envIdAt (ids.length + 1) c) = c := id ▸ envx_mkenvid k c
  have nonzero : envIdAt (ids.length + 1) c ≠ 0 := by
    intro zero
    rw [zero] at index
    exact second index.symm
  obtain ⟨k1, fork, child1, status1, cur1, queue1, one⟩ := forker.fork tables
  rw [id] at child1
  obtain ⟨q1, q2, q3, rotate, first, exit, back, again, alone⟩ := queue_turn forker.queue forker.other
  obtain ⟨k2, wake, child2, status2, cur2, queue2⟩ := child1.wake cur1 forker.other nonzero index status1
  rw [queue1] at queue2
  have runs : ∀ {mid}, Offspring k p c pgdir vars (envIdAt (ids.length + 1) c) mid → mid.Runnable p :=
    fun child => child.parent.status.trans forker.runnable
  obtain ⟨k3, enter, child3, status3, cur3, queue3⟩ :=
    child2.enter cur2 (runs child2) status2 (queue2 ▸ rotate) first
  obtain ⟨k4, leave, child4, status4, cur4, queue4⟩ := child3.exit cur3 forker.other (runs child3) (queue3 ▸ exit) back
  obtain ⟨k5, reap, forker5⟩ := child4.reap forker cur4 nonzero index status4 (runs child4) (queue4 ▸ again) alone
  have issued : issuing (k, ids) (.call .exofork) = some (k1, ids ++ [envIdAt (ids.length + 1) c]) := by
    unfold issuing
    dsimp only
    rw [fork, Option.map_some]
    rw [one, id]
  refine ⟨k5, ?_, forker5⟩
  have start : Run issuing (fun _ _ => True) (k, ids) [.call .exofork] _ := .snoc .nil trivial issued
  have woken := start.snoc trivial (issuing_call (by simp) wake)
  have entered := woken.snoc trivial (issuing_call (by simp) enter)
  have left := entered.snoc trivial (issuing_call (by simp) leave)
  exact left.snoc trivial (issuing_call (by simp) reap)

/-- What holds throughout a run that records its ids. -/
structure Issued (s : Kernel × List Word) : Prop where
  env : EnvInv s.1
  tables : VarsInv s.1
  ids : IdInv s

theorem Issued.run {ops : List Op} {s s' : Kernel × List Word} (inv : Issued s)
    (run : Run issuing (fun _ _ => True) s ops s') : Issued s' := by
  refine run.invariant Issued inv fun s op s' inv _ next => ?_
  obtain ⟨k, taken, rfl⟩ := Option.map_eq_some_iff.mp next
  exact ⟨step_envInv inv.env taken, step_vars inv.env inv.tables taken, inv.ids.next next⟩

theorem boot_issued {npage : Nat} {mem : Nat → Nat → Word} (booted : boot npage mem = some k) : Issued (k, []) :=
  ⟨boot_envInv booted, boot_vars booted, boot_counter booted⟩

/-- `n` turns, of which the first hands out the id with the number `i`. -/
def turns (c : EnvPtr) : Nat → Nat → List Op
  | _, 0 => []
  | i, n + 1 => turn (envIdAt i c) ++ turns c (i + 1) n

theorem Forker.turns {ids : List Word} (n : Nat) (forker : Forker k p c pgdir vars) (inv : Issued (k, ids)) (second : c ≠ 0) :
    ∃ s, Run issuing (fun _ _ => True) (k, ids) (turns c (ids.length + 1) n) s ∧ s.2.length = ids.length + n := by
  induction n generalizing k ids with
  | zero => exact ⟨_, .nil, rfl⟩
  | succ n ih =>
    obtain ⟨k', first, forker'⟩ := forker.again inv.tables inv.ids second
    obtain ⟨s, rest, length⟩ := ih forker' (inv.run first)
    rw [List.length_append, List.length_singleton] at rest length
    exact ⟨s, first.append rest, by omega⟩

/-- The first env forks and reaps children until 2^20 ids have been handed out. -/
def wrapRun : List Op := allocRun ++ turns 1 2 (2^20 - 1)

def readyToFork (s : Kernel × List Word) : Bool :=
  s.2.length == 1 && s.1.curenv == some 0 && (s.1.envs 0).envStatus == .runnable && envx (s.1.envs 0).envId == 0 &&
    (s.1.envs 0).envId != 0 && (s.1.envs 0).envVars.isSome && (s.1.envs 1).envStatus == .free &&
    s.1.envFreeList.head? == some 1 && (s.1.vm.pageFreeList.take 2).length == 2 && (s.1.vm.pageFreeList.take 2).Nodup &&
    ((s.1.vm.pageFreeList.take 2).all fun p => !s.1.vm.holdsEnvs p && s.1.vm.ppRef p == 0) && !s.1.asidBitmap 1 &&
    s.1.envSchedList.first == some 0 && s.1.envSchedList.prev 0 == some .first && s.1.envSchedList.next 0 == none &&
    s.1.envSchedList.last == .next 0

theorem readyToFork_forker {s : Kernel × List Word} (check : readyToFork s = true) :
    s.2.length = 1 ∧ ∃ pgdir vars, Forker s.1 0 1 pgdir vars := by
  obtain ⟨k, ids⟩ := s
  simp only [readyToFork, Bool.and_eq_true, beq_iff_eq, bne_iff_ne, decide_eq_true_eq, List.all_eq_true,
    Bool.not_eq_true', Option.isSome_iff_ne_none] at check
  obtain ⟨⟨⟨⟨⟨⟨⟨⟨⟨⟨⟨⟨⟨⟨⟨one, current⟩, runs⟩, index⟩, named⟩, table⟩, free⟩, list⟩, two⟩, nodup⟩, pages⟩, asid⟩, first⟩,
    prev⟩, next⟩, last⟩ := check
  obtain ⟨pgdir, vars, taken⟩ := List.length_eq_two.mp two
  rw [taken] at nodup pages
  have apart : pgdir ≠ vars := by simpa using nodup
  obtain ⟨rest, head⟩ := List.head?_eq_some_iff.mp list
  have stock : k.vm.pageFreeList = pgdir :: vars :: k.vm.pageFreeList.drop 2 := by
    conv_lhs => rw [← List.take_append_drop 2 k.vm.pageFreeList, taken]
    rfl
  obtain ⟨ownPgdir, unusedPgdir⟩ := pages pgdir (by simp)
  obtain ⟨ownVars, unusedVars⟩ := pages vars (by simp)
  exact ⟨one, pgdir, vars, current, runs, index, named, table, by decide, free, ⟨rest, head⟩, ⟨_, stock⟩, apart, ownPgdir,
    ownVars, unusedPgdir, unusedVars, ⟨1, asid⟩, ⟨⟨first, prev, next, last⟩, by simp⟩⟩

set_option maxRecDepth 100000 in
theorem allocRun_forker : ∃ k0 s, clearBoot = some k0 ∧ Run issuing (fun _ _ => True) (k0, []) allocRun s ∧
    s.2.length = 1 ∧ ∃ pgdir vars, Forker s.1 0 1 pgdir vars := by
  have check : (clearBoot.bind fun k0 => (Run.exec issuing (k0, []) allocRun).map readyToFork) = some true := by
    rw [clearBoot_eq]
    decide +kernel
  obtain ⟨k0, booted, check⟩ := Option.bind_eq_some_iff.mp check
  obtain ⟨s, exec, check⟩ := Option.map_eq_some_iff.mp check
  exact ⟨k0, s, booted, Run.of_exec (fun _ _ _ => trivial) exec, readyToFork_forker check⟩

theorem envIds_unambiguous_iff_allocRun : ∃ k0 s, clearBoot = some k0 ∧
    Run issuing (fun _ _ => True) (k0, []) allocRun s ∧ Unambiguous s.2 := by
  obtain ⟨k0, s, booted, run, one, _⟩ := allocRun_forker
  exact ⟨k0, s, booted, run, (envIds_unambiguous_iff booted run).mpr (by omega)⟩

/-- The run hands out 2^20 ids, and the last of them is negative. -/
theorem envIds_ambiguous : ∃ k0 s, clearBoot = some k0 ∧ Run issuing (fun _ _ => True) (k0, []) wrapRun s ∧
    ¬ Unambiguous s.2 := by
  obtain ⟨k0, ⟨k, ids⟩, booted, start, one, pgdir, vars, forker⟩ := allocRun_forker
  have first : ids.length = 1 := one
  obtain ⟨s, more, length⟩ := forker.turns (2^20 - 1) ((boot_issued booted).run start) (by decide)
  rw [first] at more length
  have run := start.append more
  have ids' := ((boot_issued booted).run run).ids.counted
  exact ⟨k0, s, booted, run, fun fine => by
    have few := ids'.unambiguous_iff.mp fine
    omega⟩

end Mos
