import Mos.Kern.EnvTable

namespace Mos

def VarsInv (k : Kernel) : Prop := ∀ e, (k.envs e).envStatus ≠ .free → (k.envs e).envVars ≠ none

theorem VarsInv.same {k k' : Kernel} (inv : VarsInv k)
    (same : ∀ e, (k'.envs e).envStatus ≠ .free → (k.envs e).envStatus ≠ .free ∧ (k'.envs e).envVars = (k.envs e).envVars) :
    VarsInv k' := by
  intro e used
  obtain ⟨before, vars⟩ := same e used
  rw [vars]
  exact inv e before

theorem envAlloc_vars {parentId : Word} {e : EnvPtr} {k k' : Kernel} (h : envAlloc parentId k = .ok e k') :
    (k'.envs e).envVars ≠ none := by
  obtain ⟨_, _, vars, _, _, ran⟩ := envAlloc_runs h
  rw [ran.root.2]
  exact Option.some_ne_none vars

theorem schedule_vars {yield : Bool} {k k' : Kernel} (inv : VarsInv k) (h : schedule yield k = .ok () k') :
    VarsInv k' := by
  obtain ⟨_, _, resumed⟩ := schedule_ok h
  refine inv.same fun e used => ?_
  rw [resumed.envs e] at used ⊢
  exact ⟨used, rfl⟩

theorem VarsInv.change {e : EnvPtr} {k k' : Kernel} (inv : VarsInv k) (others : ∀ b, b ≠ e → k'.envs b = k.envs b)
    (used : (k.envs e).envStatus ≠ .free) (vars : (k'.envs e).envVars = (k.envs e).envVars) : VarsInv k' := by
  refine inv.same fun b usedB => ?_
  by_cases here : b = e
  · subst here
    exact ⟨used, vars⟩
  · rw [others b here] at usedB ⊢
    exact ⟨usedB, rfl⟩

theorem VarsInv.take {e : EnvPtr} {parentId : Word} {k mid k' : Kernel} (inv : VarsInv k)
    (alloc : envAlloc parentId k = .ok e mid) (others : ∀ b, b ≠ e → k'.envs b = mid.envs b)
    (vars : (k'.envs e).envVars = (mid.envs e).envVars) : VarsInv k' := by
  intro b used
  by_cases here : b = e
  · rw [here, vars]
    exact envAlloc_vars alloc
  · rw [others b here, (envAlloc_ok alloc).1.others b here] at used ⊢
    exact inv b used

theorem syscall_vars {cur : EnvPtr} {call : Call} {k k' : Kernel} (env : EnvInv k) (inv : VarsInv k)
    (current : k.curenv = some cur) (h : (syscallTable cur call k).state = some k') : VarsInv k' := by
  have running := env.current_used current
  cases call with
  | yield => exact schedule_vars inv (schedule_state (switch_state h))
  | memAlloc envid va perm =>
    obtain ⟨vm, rfl⟩ := sysMemAlloc_state h
    exact inv
  | memMap srcid srcva dstid dstva perm =>
    obtain ⟨vm, rfl⟩ := sysMemMap_state h
    exact inv
  | memUnmap envid va =>
    obtain ⟨vm, rfl⟩ := sysMemUnmap_state h
    exact inv
  | exofork =>
    rcases sysExofork_state h with ⟨code, alloc⟩ | ⟨e, mid, alloc, rfl⟩
    · obtain ⟨e, listed, setup, _⟩ := envAlloc_err alloc
      refine inv.same fun b used => ?_
      by_cases here : b = e
      · subst here
        rw [setup.status] at used
        rcases listed with none | inside
        · unfold envAlloc at alloc
          rw [none] at alloc
          cases alloc
          exact ⟨used, rfl⟩
        · exact absurd (env.free b inside) used
      · rw [setup.others b here] at used ⊢
        exact ⟨used, rfl⟩
    · exact inv.take alloc (fun b ne => forked_others ne) (by rw [forked_self])
  | ipcRecv dstva =>
    rcases sysIpcRecv_state h with ⟨_, rfl⟩ | ⟨_, mid, left, blocked, h⟩
    · exact inv
    · exact schedule_vars (inv.change left.others running (by rw [blocked])) h
  | envDestroy envid status =>
    rcases sysEnvDestroy_state current h with ⟨rfl, _⟩ | ⟨mid, left, zombie, h, _⟩ | ⟨e, reaps, free⟩
    · exact inv
    · exact schedule_vars (inv.change left.others running (by rw [zombie])) h
    · have freed := envFree_ok free
      refine inv.same fun b used => ?_
      have ne : b ≠ e := by
        rintro rfl
        exact used (by rw [freed.env])
      rw [freed.others b ne] at used ⊢
      exact ⟨used, rfl⟩
  | setEnvStatus envid status =>
    rcases sysSetEnvStatus_state h with ⟨rfl, _⟩ | ⟨e, q, sets, _, h⟩
    · exact inv
    · have others : ∀ b, b ≠ e → (setStatus k e (statusOf status) q).envs b = k.envs b := fun b ne => setStatus_others ne
      have set := inv.change others (env.target_used current sets.env) (by rw [setStatus_self])
      split at h
      · exact schedule_vars set h
      · rw [h]
        exact set
  | ipcTrySend envid value srcva perm =>
    rcases sysIpcTrySend_state h with ⟨rfl, _⟩ | ⟨e, vm, accepts, rfl⟩
    · exact inv
    · have delivered : VarsInv (ipcDeliver cur e value perm k) :=
        inv.change (fun b ne => ipcDeliver_others ne) (env.target_used current accepts.env) (by rw [ipcDeliver_self])
      exact delivered

theorem step_vars {op : Op} {k k' : Kernel} (env : EnvInv k) (inv : VarsInv k) (h : step k op = some k') : VarsInv k' := by
  cases op with
  | syscall tf call =>
    obtain ⟨cur, current, h⟩ := Option.bind_eq_some_iff.mp h
    obtain ⟨after, mid, called, rfl⟩ := doSyscall_state h
    have trapped : EnvInv (k.trap tf) := env.setFrame _
    have kept : VarsInv (k.trap tf) := inv
    have after : VarsInv mid := syscall_vars trapped kept current called
    exact after
  | timer tf =>
    have kept : VarsInv { k with tf := tf } := inv
    exact schedule_vars kept (schedule_state h)
  | tlbRefill va victim =>
    obtain ⟨cur, _, h⟩ := Option.bind_eq_some_iff.mp h
    obtain ⟨vm, rfl⟩ := withVm_state h
    exact inv
  | envCreate binary priority =>
    obtain ⟨e, mid, alloc, created, _⟩ := envCreate_state h
    exact inv.take alloc created.others (by rw [created.env])

theorem boot_vars {npage : Nat} {mem : Nat → Nat → Word} {k : Kernel} (booted : boot npage mem = some k) : VarsInv k := by
  intro e used
  refine absurd ?_ used
  obtain ⟨p, vm, _, _, rfl⟩ := boot_init booted
  rfl

theorem pageAlloc_cons {vm : Vm} {p : Nat} {rest : List Nat} (list : vm.pageFreeList = p :: rest)
    (own : vm.holdsEnvs p = false) : pageAlloc vm =
      .ok p { vm with pageFreeList := rest, mem := Function.update vm.mem p fun _ => 0 } := by
  simp [pageAlloc, list, own]

theorem pageAlloc_envs {vm : Vm} {p : Nat} {rest : List Nat} (list : vm.pageFreeList = p :: rest)
    (held : vm.holdsEnvs p = true) : pageAlloc vm = .stop .envsOverwritten := by
  simp [pageAlloc, list, held]

/-- `env_setup_vm` when there is a page. -/
structure SetUp (e : EnvPtr) (p : Nat) (k k' : Kernel) : Prop where
  setup : Setup e k k'
  pgdir : (k'.envs e).envPgdir = p
  ppRef : k'.vm.ppRef = (k.vm.incRef p).ppRef
  envsBase : k'.vm.envsBase = k.vm.envsBase
  asidBitmap : k'.asidBitmap = k.asidBitmap

theorem envSetupVm_cons {e : EnvPtr} {k : Kernel} {p : Nat} {rest : List Nat} (list : k.vm.pageFreeList = p :: rest)
    (own : k.vm.holdsEnvs p = false) : ∃ k', envSetupVm e k = .ok () k' ∧ SetUp e p k k' ∧ k'.vm.pageFreeList = rest := by
  have setup : ∃ k', envSetupVm e k = .ok () k' ∧ (k'.envs e).envPgdir = p ∧ k'.vm.ppRef = (k.vm.incRef p).ppRef ∧
      k'.vm.envsBase = k.vm.envsBase ∧ k'.asidBitmap = k.asidBitmap ∧ k'.vm.pageFreeList = rest := by
    simp only [envSetupVm, pageAlloc_cons list own, Kernel.withVm, Result.ok_lift, Result.ok_bind]
    refine ⟨_, rfl, ?_, rfl, rfl, rfl, rfl⟩
    simp [Kernel.updateEnv, Kernel.putVm]
  obtain ⟨k', ok, pgdir, ppRef, envsBase, asids, left⟩ := setup
  exact ⟨k', ok, ⟨(envSetupVm_ok ok).1, pgdir, ppRef, envsBase, asids⟩, left⟩

theorem envid2env_used {k : Kernel} {cur e : EnvPtr} {envid : Word} {checkperm : Bool} (nonzero : envid ≠ 0)
    (h : envid2env k cur envid checkperm = .ok e) : (k.envs e).envStatus ≠ .free := by
  unfold envid2env at h
  rw [if_neg nonzero] at h
  dsimp only at h
  split at h
  · cases h
  · rename_i found
    split at h
    · cases h
    · cases h
      exact fun free => found (Or.inl free)

theorem envInherit_total {k : Kernel} (e : EnvPtr) (parentId : Word) (vars : Nat) (inv : VarsInv k) :
    ∃ k', envInherit e parentId vars k = .ok () k' ∧ k'.vm.pageFreeList = k.vm.pageFreeList ∧
      k'.vm.envsBase = k.vm.envsBase := by
  unfold envInherit
  split
  · exact ⟨_, rfl, rfl, rfl⟩
  · rename_i nonzero
    split
    · rename_i parent found
      split
      · rename_i none
        exact absurd none (inv parent (envid2env_used nonzero found))
      · exact ⟨_, rfl, rfl, rfl⟩
    · exact ⟨_, rfl, rfl, rfl⟩

theorem asidAlloc_unused {k : Kernel} {a : Fin 256} (unused : k.asidBitmap a = false) :
    ∃ asid, asidAlloc k = .ok asid { k with asidBitmap := Function.update k.asidBitmap asid true } := by
  unfold asidAlloc
  cases found : (List.finRange 256).find? fun i => !k.asidBitmap i with
  | some asid => exact ⟨asid, rfl⟩
  | none =>
    rw [List.find?_eq_none] at found
    have taken := found a (List.mem_finRange a)
    rw [unused] at taken
    exact absurd rfl taken

theorem asidAlloc_full {k : Kernel} (full : ∀ a, k.asidBitmap a = true) : asidAlloc k = .err (-eNoFreeEnv) k := by
  unfold asidAlloc
  rw [List.find?_eq_none.mpr fun a _ => by rw [full a]; decide]

variable {e : EnvPtr} {parentId : Word} {k : Kernel} {p v : Nat} {rest : List EnvPtr} {pages : List Nat}

theorem envInherit_finish {mid : Kernel} {last : Kernel → Kernel} (inv : VarsInv mid)
    (same : ∀ k, (last k).vm = k.vm) : ∃ k', ((envInherit e parentId v mid).bind fun _ k => .ok e (last k)) = .ok e k' ∧
      k'.vm.pageFreeList = mid.vm.pageFreeList ∧ k'.vm.envsBase = mid.vm.envsBase := by
  obtain ⟨k', ok, stock, base⟩ := envInherit_total e parentId v inv
  exact ⟨last k', by rw [ok]; rfl, by rw [same, stock], by rw [same, base]⟩

theorem envAlloc_fits {a : Fin 256} (parentId : Word) (inv : VarsInv k) (free : (k.envs e).envStatus = .free)
    (list : k.envFreeList = e :: rest) (stock : k.vm.pageFreeList = p :: v :: pages) (ownP : k.vm.holdsEnvs p = false)
    (ownV : k.vm.holdsEnvs v = false) (unused : k.asidBitmap a = false) :
    ∃ k', envAlloc parentId k = .ok e k' ∧ k'.vm.pageFreeList = pages ∧ k'.vm.envsBase = k.vm.envsBase := by
  obtain ⟨k1, setup, done, stock1⟩ := envSetupVm_cons (e := e) stock ownP
  have ownV1 : k1.vm.holdsEnvs v = false := by rw [Vm.holdsEnvs, done.envsBase]; exact ownV
  have second := pageAlloc_cons stock1 ownV1
  unfold envAlloc
  rw [list]
  simp only [setup, second, Result.ok_bind]
  have unused2 : ∀ vm f, ((k1.putVm vm).updateEnv e f).asidBitmap a = false := by
    intro vm f
    rw [← unused, ← done.asidBitmap]
    rfl
  obtain ⟨asid, alloc⟩ := asidAlloc_unused (unused2 _ _)
  rw [alloc]
  simp only [Result.ok_bind]
  have kept : ∀ b, b ≠ e → k1.envs b = k.envs b := done.setup.others
  have fine : ∀ mid : Kernel, (∀ b, b ≠ e → mid.envs b = k.envs b) → (mid.envs e).envStatus = (k1.envs e).envStatus →
      VarsInv mid := by
    intro mid others status b used
    have ne : b ≠ e := by
      rintro rfl
      exact used (by rw [status, done.setup.status, free])
    rw [others b ne] at used ⊢
    exact inv b used
  have finish : ∀ (mid : Kernel) (last : Kernel → Kernel), (∀ b, b ≠ e → mid.envs b = k.envs b) →
      (mid.envs e).envStatus = (k1.envs e).envStatus → (∀ k, (last k).vm = k.vm) → mid.vm.pageFreeList = pages →
      mid.vm.envsBase = k1.vm.envsBase → ∃ k', ((envInherit e parentId v mid).bind fun _ k => .ok e (last k)) = .ok e k' ∧
        k'.vm.pageFreeList = pages ∧ k'.vm.envsBase = k.vm.envsBase := by
    intro mid last others status same left base
    obtain ⟨k', ok, stock', base'⟩ := envInherit_finish (e := e) (v := v) (fine mid others status) same
    exact ⟨k', ok, stock'.trans left, base'.trans (base.trans done.envsBase)⟩
  refine finish _ _ (fun b ne => ?_) ?_ (fun k => rfl) rfl rfl
  · rw [← kept b ne]
    simp [Kernel.updateEnv, Kernel.putVm, mkenvid, ne]
  · simp [Kernel.updateEnv, Kernel.putVm, mkenvid]

theorem envAlloc_full (parentId : Word) (list : k.envFreeList = e :: rest) (stock : k.vm.pageFreeList = p :: v :: pages)
    (ownP : k.vm.holdsEnvs p = false) (ownV : k.vm.holdsEnvs v = false) (full : ∀ a, k.asidBitmap a = true) :
    ∃ k', envAlloc parentId k = .err (-eNoFreeEnv) k' ∧ k'.vm.pageFreeList = pages := by
  obtain ⟨k1, setup, done, stock1⟩ := envSetupVm_cons (e := e) stock ownP
  have ownV1 : k1.vm.holdsEnvs v = false := by rw [Vm.holdsEnvs, done.envsBase]; exact ownV
  have second := pageAlloc_cons stock1 ownV1
  unfold envAlloc
  rw [list]
  simp only [setup, second, Result.ok_bind]
  have full2 : ∀ vm f a, ((k1.putVm vm).updateEnv e f).asidBitmap a = true := by
    intro vm f a
    rw [← full a, ← done.asidBitmap]
    rfl
  rw [asidAlloc_full (full2 _ _)]
  exact ⟨_, rfl, rfl⟩

/-- With one page `page_free` is called on the page directory, whose `pp_ref` is already 1. -/
theorem envAlloc_onePage (parentId : Word) (list : k.envFreeList = e :: rest) (stock : k.vm.pageFreeList = [p])
    (own : k.vm.holdsEnvs p = false) :
    (k.vm.ppRef p ≠ 65535 ∧ envAlloc parentId k = .stop .panic) ∨
      (k.vm.ppRef p = 65535 ∧ ∃ k', envAlloc parentId k = .err (-eNoMem) k' ∧ k'.vm.pageFreeList = [p] ∧ Setup e k k' ∧
        k'.asidBitmap = k.asidBitmap ∧ k'.envFreeList = k.envFreeList) := by
  obtain ⟨k1, setup, done, stock1⟩ := envSetupVm_cons (e := e) stock own
  have none : pageAlloc k1.vm = .err (-eNoMem) k1.vm := by simp [pageAlloc, stock1]
  have count : k1.vm.ppRef p = k.vm.ppRef p + 1 := by simp [done.ppRef, Vm.incRef, Vm.setRef]
  have unfolded : envAlloc parentId k =
      (k1.withVm (pageFree k1.vm p)).bind fun _ k => .err (-eNoMem) k := by
    unfold envAlloc
    rw [list]
    simp only [setup, none, Result.ok_bind, done.pgdir]
  rw [unfolded, pageFree, count]
  by_cases last : k.vm.ppRef p = 65535
  · rw [if_neg (by rw [last]; decide)]
    refine Or.inr ⟨last, _, rfl, ?_, done.setup.trans (.putVm e _ _), done.asidBitmap, (envSetupVm_ok setup).2⟩
    simp [Kernel.putVm, stock1]
  · have some : k.vm.ppRef p + 1 ≠ 0 := by
      intro wrapped
      refine last (BitVec.eq_of_toNat_eq ?_)
      have sum := congrArg BitVec.toNat wrapped
      rw [BitVec.toNat_add] at sum
      have small := (k.vm.ppRef p).isLt
      have one : (1 : BitVec 16).toNat = 1 := rfl
      have zero : (0 : BitVec 16).toNat = 0 := rfl
      have top : (65535 : BitVec 16).toNat = 65535 := rfl
      omega
    rw [if_pos some]
    exact Or.inl ⟨last, rfl⟩

/-- What a failing `env_alloc` has to leave alone. -/
structure Intact (k k' : Kernel) : Prop where
  pages : k'.vm.pageFreeList = k.vm.pageFreeList
  freeList : k'.envFreeList = k.envFreeList
  asids : k'.asidBitmap = k.asidBitmap
  sched : k'.envSchedList = k.envSchedList
  envs : ∀ e, (k.envs e).envStatus ≠ .free → k'.envs e = k.envs e

/-- `env_alloc` never stops the kernel, and when it fails it returns a negative code and has changed nothing. -/
def FailsClean (parentId : Word) (k : Kernel) : Prop :=
  match envAlloc parentId k with
  | .ok _ _ => True
  | .err code k' => code.slt 0 ∧ Intact k k'
  | .stop _ => False

/-- Two pages outside `envs` and an ASID are left. -/
def Fits (k : Kernel) : Prop :=
  (∃ p v pages, k.vm.pageFreeList = p :: v :: pages ∧ k.vm.holdsEnvs p = false ∧ k.vm.holdsEnvs v = false) ∧
    ∃ a, k.asidBitmap a = false

def Wrapped (k : Kernel) : Prop :=
  ∃ p, k.vm.pageFreeList = [p] ∧ k.vm.holdsEnvs p = false ∧ k.vm.ppRef p = 65535

theorem failsClean_iff (env : EnvInv k) (vars : VarsInv k) :
    FailsClean parentId k ↔ k.envFreeList = [] ∨ k.vm.pageFreeList = [] ∨ Fits k ∨ Wrapped k := by
  have same : Intact k k := ⟨rfl, rfl, rfl, rfl, fun _ _ => rfl⟩
  unfold FailsClean
  cases list : k.envFreeList with
  | nil =>
    refine iff_of_true ?_ (Or.inl rfl)
    unfold envAlloc
    rw [list]
    exact ⟨by decide, same⟩
  | cons e rest =>
    have stopped : ∀ cause, envSetupVm e k = .stop cause → envAlloc parentId k = .stop cause := by
      intro cause stop
      unfold envAlloc
      rw [list]
      simp only [stop, Result.stop_bind]
    cases stock : k.vm.pageFreeList with
    | nil =>
      refine iff_of_true ?_ (Or.inr (Or.inl rfl))
      have none : envAlloc parentId k = .err (-eNoMem) k := by
        unfold envAlloc
        rw [list]
        simp only [envSetupVm, pageAlloc, stock, Kernel.withVm, Result.err_lift, Result.err_bind]
        rfl
      rw [none]
      exact ⟨by decide, same⟩
    | cons p others =>
      have notEmpty : ¬ (e :: rest = ([] : List EnvPtr) ∨ p :: others = ([] : List Nat)) := by simp
      rw [← or_assoc, or_iff_right notEmpty]
      cases ownP : k.vm.holdsEnvs p with
      | true =>
        have stop := stopped .envsOverwritten (by
          simp only [envSetupVm, pageAlloc_envs stock ownP, Kernel.withVm, Result.stop_lift, Result.stop_bind])
        rw [stop]
        refine iff_of_false id ?_
        rintro (⟨⟨q, v, pages, eq, ownQ, _⟩, _⟩ | ⟨q, eq, ownQ, _⟩)
        · cases stock.symm.trans eq
          exact Bool.false_ne_true (ownQ.symm.trans ownP)
        · cases stock.symm.trans eq
          exact Bool.false_ne_true (ownQ.symm.trans ownP)
      | false =>
        have free : (k.envs e).envStatus = .free := env.free e (by simp [list])
        cases others with
        | nil =>
          have noFit : ¬ Fits k := by
            rintro ⟨⟨q, v, pages, eq, _⟩, _⟩
            cases stock.symm.trans eq
          rw [or_iff_right noFit]
          rcases envAlloc_onePage parentId list stock ownP with ⟨count, stop⟩ | ⟨count, k', err, left, setup, asids, envs⟩
          · rw [stop]
            refine iff_of_false id ?_
            rintro ⟨q, eq, _, wrapped⟩
            cases stock.symm.trans eq
            exact count wrapped
          · rw [err]
            refine iff_of_true ⟨by decide, left.trans stock.symm, envs, asids, setup.sched, fun b used => ?_⟩ ⟨p, stock, ownP, count⟩
            exact setup.others b fun here => used (here ▸ free)
        | cons v pages =>
          have noWrap : ¬ Wrapped k := by
            rintro ⟨q, eq, _⟩
            cases stock.symm.trans eq
          rw [or_iff_left noWrap]
          cases ownV : k.vm.holdsEnvs v with
          | true =>
            obtain ⟨k1, setup, done, stock1⟩ := envSetupVm_cons (e := e) stock ownP
            have held : k1.vm.holdsEnvs v = true := by rw [Vm.holdsEnvs, done.envsBase]; exact ownV
            have stop : envAlloc parentId k = .stop .envsOverwritten := by
              unfold envAlloc
              rw [list]
              simp only [setup, Result.ok_bind, pageAlloc_envs stock1 held]
            rw [stop]
            refine iff_of_false id ?_
            rintro ⟨⟨q, w, _, eq, _, ownW⟩, _⟩
            cases stock.symm.trans eq
            exact Bool.false_ne_true (ownW.symm.trans ownV)
          | false =>
            by_cases left : ∃ a, k.asidBitmap a = false
            · obtain ⟨a, unused⟩ := left
              obtain ⟨k', ok, _⟩ := envAlloc_fits parentId vars free list stock ownP ownV unused
              rw [ok]
              exact iff_of_true trivial ⟨⟨p, v, pages, stock, ownP, ownV⟩, a, unused⟩
            · have full : ∀ a, k.asidBitmap a = true := fun a => by
                by_contra unused
                exact left ⟨a, Bool.eq_false_iff.mpr unused⟩
              obtain ⟨k', err, lost⟩ := envAlloc_full parentId list stock ownP ownV full
              rw [err]
              refine iff_of_false (fun clean => ?_) fun fits => left fits.2
              have kept := clean.2.pages
              rw [lost, stock] at kept
              have size := congrArg List.length kept
              simp only [List.length_cons] at size
              omega

theorem run_vars {npage : Nat} {mem : Nat → Nat → Word} {k0 : Kernel} {ops : List Op} (booted : boot npage mem = some k0)
    (run : Run step (fun _ _ => True) k0 ops k) : EnvInv k ∧ VarsInv k :=
  run.invariant (fun k => EnvInv k ∧ VarsInv k) ⟨boot_envInv booted, boot_vars booted⟩
    fun _ _ _ inv _ next => ⟨step_envInv inv.1 next, step_vars inv.1 inv.2 next⟩

/-- In every state that a run from boot reaches, `env_alloc` is atomic on failure except when it gets one page
    and no second one, or two pages and no ASID. -/
theorem envAlloc_atomic_iff {npage : Nat} {mem : Nat → Nat → Word} {k0 : Kernel} {ops : List Op}
    (booted : boot npage mem = some k0) (run : Run step (fun _ _ => True) k0 ops k) :
    FailsClean parentId k ↔ k.envFreeList = [] ∨ k.vm.pageFreeList = [] ∨ Fits k ∨ Wrapped k :=
  failsClean_iff (run_vars booted run).1 (run_vars booted run).2

/-- `n` more envs can be made, and then the ASIDs are used up before the envs and the pages. -/
structure Room (n : Nat) (k : Kernel) : Prop where
  running : k.curenv ≠ none
  envs : n < k.envFreeList.length
  pages : ∃ first more, k.vm.pageFreeList = first ++ more ∧ first.length = 2 * n + 2 ∧
    ∀ p ∈ first, k.vm.holdsEnvs p = false
  asids : (Finset.univ.filter fun a => k.asidBitmap a = false).card = n

theorem card_unmark {f : Fin 256 → Bool} {a : Fin 256} {n : Nat} (unused : f a = false)
    (count : (Finset.univ.filter fun b => f b = false).card = n + 1) :
    (Finset.univ.filter fun b => Function.update f a true b = false).card = n := by
  have erased : (Finset.univ.filter fun b => Function.update f a true b = false) =
      (Finset.univ.filter fun b => f b = false).erase a := by
    ext b
    by_cases same : b = a
    · simp [same]
    · simp [same]
  rw [erased, Finset.card_erase_of_mem (by simp [unused]), count]
  rfl

theorem step_exofork {cur : EnvPtr} {mid : Kernel} (current : k.curenv = some cur)
    (alloc : envAlloc (k.envs cur).envId (k.trap zeroFrame) = .ok e mid) :
    ∃ tf, step k (.call .exofork) = some { forked cur e mid with tf := tf } := by
  have called : sysExofork cur (k.trap zeroFrame) = .ok (some ((forked cur e mid).envs e).envId) (forked cur e mid) := by
    unfold sysExofork
    rw [show ((k.trap zeroFrame).envs cur).envId = (k.envs cur).envId from rfl, alloc]
    rfl
  refine ⟨(forked cur e mid).tf.setReg 2 ((forked cur e mid).envs e).envId, ?_⟩
  show (k.curenv.bind _) = _
  rw [current]
  simp only [Option.bind_some, doSyscall, syscallTable, called]

theorem Room.fork {n : Nat} (room : Room (n + 1) k) (env : EnvInv k) (vars : VarsInv k) :
    ∃ k', step k (.call .exofork) = some k' ∧ Room n k' := by
  obtain ⟨cur, current⟩ := Option.ne_none_iff_exists'.mp room.running
  obtain ⟨first, more, stock, length, own⟩ := room.pages
  obtain ⟨p, v, left, rfl⟩ : ∃ p v left, first = p :: v :: left := by
    match first, length with
    | p :: v :: left, _ => exact ⟨p, v, left, rfl⟩
  obtain ⟨e, rest, list⟩ : ∃ e rest, k.envFreeList = e :: rest := by
    cases list : k.envFreeList with
    | nil =>
      have none := room.envs
      rw [list] at none
      exact absurd none (Nat.not_lt_zero _)
    | cons e rest => exact ⟨e, rest, rfl⟩
  have some : 0 < (Finset.univ.filter fun a => k.asidBitmap a = false).card := by
    rw [room.asids]
    exact Nat.succ_pos n
  obtain ⟨a, unused⟩ := Finset.card_pos.mp some
  have unused' : k.asidBitmap a = false := by simpa using unused
  have inv : VarsInv (k.trap zeroFrame) := vars
  obtain ⟨mid, alloc, pages, base⟩ := envAlloc_fits (k := k.trap zeroFrame) (k.envs cur).envId inv
    (env.free e (by simp [list])) list stock (own p (by simp)) (own v (by simp)) unused'
  have allots := envAlloc_allots alloc
  obtain ⟨setup, rest'⟩ := envAlloc_ok alloc
  obtain ⟨tf, next⟩ := step_exofork current alloc
  refine ⟨_, next, ?_, ?_, ?_, ?_⟩
  · show mid.curenv ≠ none
    rw [setup.curenv]
    exact room.running
  · show n < mid.envFreeList.length
    have size := congrArg List.length rest'
    have more := room.envs
    rw [show (k.trap zeroFrame).envFreeList = k.envFreeList from rfl, List.length_cons] at size
    omega
  · refine ⟨left, more, pages, ?_, fun q inside => ?_⟩
    · simp only [List.length_cons] at length
      omega
    · show mid.vm.holdsEnvs q = false
      rw [Vm.holdsEnvs, base]
      exact own q (by simp [inside])
  · show (Finset.univ.filter fun a => mid.asidBitmap a = false).card = n
    rw [allots.asids]
    exact card_unmark allots.unused room.asids

theorem Room.exhaust {n : Nat} (room : Room n k) (env : EnvInv k) (vars : VarsInv k) :
    ∃ k', Run step (fun _ _ => True) k (List.replicate n (.call .exofork)) k' ∧ Room 0 k' := by
  induction n generalizing k with
  | zero => exact ⟨k, .nil, room⟩
  | succ n ih =>
    obtain ⟨mid, next, less⟩ := room.fork env vars
    obtain ⟨k', run, done⟩ := ih less (step_envInv env next) (step_vars env vars next)
    have first : Run step (fun _ _ => True) k [.call .exofork] mid := .snoc .nil trivial next
    exact ⟨k', first.append run, done⟩

theorem Room.not_failsClean (room : Room 0 k) (env : EnvInv k) (vars : VarsInv k) : ¬ FailsClean parentId k := by
  obtain ⟨first, more, stock, length, _⟩ := room.pages
  obtain ⟨p, v, rfl⟩ := List.length_eq_two.mp length
  rw [failsClean_iff env vars]
  rintro (noEnv | noPage | ⟨_, a, unused⟩ | ⟨q, one, _⟩)
  · have some := room.envs
    rw [noEnv] at some
    exact absurd some (Nat.lt_irrefl 0)
  · rw [stock] at noPage
    cases noPage
  · have none := Finset.card_eq_zero.mp room.asids
    rw [Finset.filter_eq_empty_iff] at none
    exact none (Finset.mem_univ a) unused
  · rw [stock] at one
    cases one

/-- The first env runs. -/
def allocRun : List Op := [.envCreate emptyBinary 1, .timer zeroFrame]

def roomy (n : Nat) (k : Kernel) : Bool :=
  k.curenv.isSome && decide (n < k.envFreeList.length) && (k.vm.pageFreeList.take (2 * n + 2)).length == 2 * n + 2 &&
    ((k.vm.pageFreeList.take (2 * n + 2)).all fun p => !k.vm.holdsEnvs p) &&
    (Finset.univ.filter fun a => k.asidBitmap a = false).card == n

theorem roomy_room {n : Nat} (check : roomy n k = true) : Room n k := by
  simp only [roomy, Bool.and_eq_true, decide_eq_true_eq, beq_iff_eq, List.all_eq_true, Bool.not_eq_true'] at check
  obtain ⟨⟨⟨⟨running, envs⟩, length⟩, own⟩, asids⟩ := check
  refine ⟨Option.isSome_iff_ne_none.mp running, envs, ⟨_, _, (List.take_append_drop (2 * n + 2) _).symm, length, own⟩, asids⟩

theorem Room.fits {n : Nat} (room : Room (n + 1) k) : Fits k := by
  obtain ⟨first, more, stock, length, own⟩ := room.pages
  obtain ⟨p, v, left, rfl⟩ : ∃ p v left, first = p :: v :: left := by
    match first, length with
    | p :: v :: left, _ => exact ⟨p, v, left, rfl⟩
  have some : 0 < (Finset.univ.filter fun a => k.asidBitmap a = false).card := by
    rw [room.asids]
    exact Nat.succ_pos n
  obtain ⟨a, unused⟩ := Finset.card_pos.mp some
  exact ⟨⟨p, v, left ++ more, stock, own p (by simp), own v (by simp)⟩, a, by simpa using unused⟩

set_option maxRecDepth 100000 in
theorem allocRun_room : ∃ k0 k, clearBoot = some k0 ∧ Run step (fun _ _ => True) k0 allocRun k ∧ Room 255 k := by
  have check : (clearBoot.bind fun k0 => (Run.exec step k0 allocRun).map (roomy 255)) = some true := by
    rw [clearBoot_eq]
    decide +kernel
  obtain ⟨k0, booted, check⟩ := Option.bind_eq_some_iff.mp check
  obtain ⟨k, exec, check⟩ := Option.map_eq_some_iff.mp check
  exact ⟨k0, k, booted, Run.of_exec (fun _ _ _ => trivial) exec, roomy_room check⟩

theorem envAlloc_atomic_iff_allocRun : ∃ k0 k, clearBoot = some k0 ∧ Run step (fun _ _ => True) k0 allocRun k ∧
    FailsClean 0 k := by
  obtain ⟨k0, k, booted, run, room⟩ := allocRun_room
  exact ⟨k0, k, booted, run, (envAlloc_atomic_iff booted run).mpr (Or.inr (Or.inr (Or.inl room.fits)))⟩

/-- An env forks until the ASIDs are used up. -/
def forksRun : List Op := allocRun ++ List.replicate 255 (.call .exofork)

theorem envAlloc_not_atomic : ∃ k0 k, clearBoot = some k0 ∧ Run step (fun _ _ => True) k0 forksRun k ∧
    ∀ parentId, ¬ FailsClean parentId k := by
  obtain ⟨k0, mid, booted, start, room⟩ := allocRun_room
  obtain ⟨env, vars⟩ := run_vars booted start
  obtain ⟨k, forks, full⟩ := room.exhaust env vars
  have run := start.append forks
  obtain ⟨env', vars'⟩ := run_vars booted run
  exact ⟨k0, k, booted, run, fun parentId => full.not_failsClean env' vars'⟩

end Mos
