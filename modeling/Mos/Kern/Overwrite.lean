import Mos.Kern.VarRun
import Mos.Kern.EnvTable
import Mos.Kern.Template
import Mathlib.Data.List.TakeWhile

namespace Mos

/-- `sizeof(struct Env)` in words -/
def envWords : Nat := 313

/-- Word `w` of env `e` lies in page `pp`. -/
def Vm.holdsWord (vm : Vm) (pp : Nat) (e : EnvPtr) (w : Nat) : Bool :=
  w < envWords && vm.envsBase + (envWords * e.val + w) / 1024 == pp

/-- The env when the words that `lost` names are zero. `env_link` are the words 38 and 39, `env_sched_link` 45 and 46. A page
    directory is a page number here, and what becomes of it is not modelled. -/
def Env.zeroed (lost : Nat → Bool) (env : Env) : Env :=
  let word (w : Nat) (value : Word) : Word := if lost w then 0 else value
  { envTf :=
      { regs := fun r => if r < 32 then word r (env.envTf.regs r) else env.envTf.regs r
        cp0Status := word 32 env.envTf.cp0Status
        hi := word 33 env.envTf.hi
        lo := word 34 env.envTf.lo
        cp0Badvaddr := word 35 env.envTf.cp0Badvaddr
        cp0Cause := word 36 env.envTf.cp0Cause
        cp0Epc := word 37 env.envTf.cp0Epc }
    envId := word 40 env.envId
    envAsid := if lost 41 then 0 else env.envAsid
    envParentId := word 42 env.envParentId
    envStatus := if lost 43 then .free else env.envStatus
    envPgdir := env.envPgdir
    envPri := word 47 env.envPri
    envIpcValue := word 48 env.envIpcValue
    envIpcFrom := word 49 env.envIpcFrom
    envIpcRecving := word 50 env.envIpcRecving
    envIpcDstva := word 51 env.envIpcDstva
    envIpcPerm := word 52 env.envIpcPerm
    envUserTlbModEntry := word 53 env.envUserTlbModEntry
    envRuns := word 54 env.envRuns
    -- the string ends at its first zero byte
    envCwd := env.envCwd.take ((List.range env.envCwd.length).takeWhile fun b => !lost (55 + b / 4)).length
    envExitStatus := word 311 env.envExitStatus
    envVars := if lost 312 then none else env.envVars }

/-- A list of envs when the links of those that `lost` names are null. -/
def cutList (lost : EnvPtr → Bool) : List EnvPtr → List EnvPtr
  | [] => []
  | e :: rest => if lost e then [e] else e :: cutList lost rest

/-- The envs when page `pp` is zero. -/
def Kernel.zeroEnvs (pp : Nat) (k : Kernel) : Kernel :=
  { k with envs := fun e => (k.envs e).zeroed (k.vm.holdsWord pp e)
           envFreeList := cutList (fun e => k.vm.holdsWord pp e 38) k.envFreeList
           envSchedList := { k.envSchedList with
             next := fun e => if k.vm.holdsWord pp e 45 then none else k.envSchedList.next e
             prev := fun e => if k.vm.holdsWord pp e 46 then none else k.envSchedList.prev e } }

/-- A word before `env_cwd` of an env in use lies in page `pp`. -/
def Kernel.LosesCore (pp : Nat) (k : Kernel) : Prop :=
  ∃ e, (k.envs e).envStatus ≠ .free ∧ ∃ w < 55, k.vm.holdsWord pp e w = true

instance (pp : Nat) (k : Kernel) : Decidable (k.LosesCore pp) := inferInstanceAs (Decidable (∃ _, _))

/-- `page_alloc`, which goes on with a page of the `envs` array. The model stops when the page directory, the status or a
    link of an env in use is lost. -/
def pageAllocOn (k : Kernel) : Res Kernel Nat :=
  match k.vm.pageFreeList with
  | [] => .err (-eNoMem) k
  | pp :: rest =>
    if k.LosesCore pp then .stop .envsOverwritten
    else .ok pp ((k.zeroEnvs pp).putVm { k.vm with pageFreeList := rest, mem := Function.update k.vm.mem pp fun _ => 0 })

/-- `load_icode_mapper` for a page of `.bss`, which copies nothing. -/
def loadBssMapper (e : EnvPtr) (va : Word) (k : Kernel) : Res Kernel Unit :=
  (pageAllocOn k).bind fun p k =>
    k.withVm (pageInsert k.vm (k.envs e).envPgdir (asidWord (k.envs e).envAsid) p va pteD)

def loadBss (e : EnvPtr) : List Word → Kernel → Res Kernel Unit
  | [], k => .ok () k
  | va :: rest, k => (loadBssMapper e va k).bind fun _ k => loadBss e rest k

/-- `env_create` of a program of `.bss` pages. -/
def envCreateBss (vas : List Word) (entry priority : Word) (k : Kernel) : Res Kernel EnvPtr :=
  (panicOn (envAlloc 0 k)).bind fun e k =>
    (panicOn (loadBss e vas (k.updateEnv e fun env => { env with envPri := priority, envStatus := .runnable }))).bind fun _ k =>
      .ok e ((k.updateEnv e fun env => { env with envTf := { env.envTf with cp0Epc := entry } }).tailqInsertHead e)

/-- The program as `env_create` gets it. -/
def bssBinary (vas : List Word) (entry : Word) : Binary := { pages := vas.map fun va => ⟨va, pteD, fun _ => 0⟩, entry := entry }

variable {k k' : Kernel} {e b : EnvPtr} {pp : Nat} {va : Word} {vas : List Word}

section Agrees

theorem holdsWord_none {vm : Vm} (own : vm.holdsEnvs pp = false) : vm.holdsWord pp e = fun _ => false := by
  funext w
  by_contra held
  rw [Bool.not_eq_false, Vm.holdsWord, Bool.and_eq_true, decide_eq_true_eq, beq_iff_eq, envWords] at held
  have last := e.isLt
  have inPages : (313 * e.val + w) / 1024 < 313 := by omega
  have inside : vm.holdsEnvs pp = true := by
    rw [Vm.holdsEnvs, Bool.and_eq_true, decide_eq_true_eq, decide_eq_true_eq, envsPages]
    omega
  cases own.symm.trans inside

theorem zeroed_none (env : Env) : env.zeroed (fun _ => false) = env := by
  have whole : ((List.range env.envCwd.length).takeWhile fun _ => !false).length = env.envCwd.length := by
    exact (congrArg List.length (List.takeWhile_eq_self_iff.mpr fun _ _ => rfl)).trans List.length_range
  simp only [Env.zeroed, whole, List.take_length, Bool.false_eq_true, if_false, ite_self]

theorem cutList_none (l : List EnvPtr) : cutList (fun _ => false) l = l := by
  induction l with
  | nil => rfl
  | cons e rest ih => rw [cutList, if_neg Bool.false_ne_true, ih]

theorem zeroEnvs_none (own : k.vm.holdsEnvs pp = false) : k.zeroEnvs pp = k := by
  simp only [Kernel.zeroEnvs, holdsWord_none own, zeroed_none, cutList_none, Bool.false_eq_true, if_false]

theorem pageAllocOn_own {p : Nat} {vm : Vm} (h : pageAlloc k.vm = .ok p vm) : pageAllocOn k = .ok p (k.putVm vm) := by
  cases list : k.vm.pageFreeList with
  | nil =>
    rw [pageAlloc, list] at h
    cases h
  | cons pp rest =>
    rw [pageAlloc, list] at h
    dsimp only at h
    split at h
    · cases h
    · rename_i own
      have own := Bool.not_eq_true _ ▸ own
      have core : ¬ k.LosesCore pp := by
        rintro ⟨e, _, w, _, held⟩
        rw [holdsWord_none own] at held
        cases held
      cases h
      rw [pageAllocOn, list]
      dsimp only
      rw [if_neg core, zeroEnvs_none own]

theorem loadBss_agrees {mid : Kernel} (h : k.withVm (loadPages (k.envs e).envPgdir (asidWord (k.envs e).envAsid)
    (bssBinary vas 0).pages k.vm) = .ok () mid) : loadBss e vas k = .ok () mid := by
  induction vas generalizing k with
  | nil => exact h
  | cons va rest ih =>
    obtain ⟨vm', loaded, rfl⟩ := Result.lift_ok h
    obtain ⟨_, vm, first, later⟩ := Result.bind_ok loaded
    obtain ⟨p, vm1, alloc, insert⟩ := Result.bind_ok first
    have same : { vm1 with mem := Function.update vm1.mem p fun _ => 0 } = vm1 := by
      have zero : vm1.mem p = fun _ => 0 := by
        unfold pageAlloc at alloc
        split at alloc
        · cases alloc
        · split at alloc
          · cases alloc
          · cases alloc
            exact Function.update_self _ _ _
      rw [← zero, Function.update_eq_self]
    rw [loadBss, loadBssMapper, pageAllocOn_own alloc, Result.ok_bind]
    dsimp only [Kernel.putVm, Kernel.withVm] at insert ⊢
    rw [same] at insert
    rw [insert, Result.ok_lift, Result.ok_bind]
    exact ih (k := k.putVm vm) (by rw [Kernel.withVm]; exact congrArg (Result.lift · _) later)

theorem envCreateBss_agrees {entry priority : Word} (h : envCreate (bssBinary vas entry) priority k = .ok e k') :
    envCreateBss vas entry priority k = .ok e k' := by
  obtain ⟨e', k1, alloc, h⟩ := Result.bind_ok h
  obtain ⟨_, k3, load, h⟩ := Result.bind_ok h
  cases h
  obtain ⟨_, k2, loaded, finish⟩ := Result.bind_ok load
  cases finish
  rw [envCreateBss, alloc, Result.ok_bind, loadBss_agrees (panicOn_ok loaded)]
  rfl

end Agrees

section Loading

/-- `n` pages have been loaded into env 3, and the free list is what lies below page `base + m`. The page table `t` of the
    addresses has room for more. -/
structure Loading (t n m : Nat) (k : Kernel) : Prop where
  list : k.vm.pageFreeList = (List.range' k.vm.envsBase m).reverse
  bound : t < k.vm.npage
  table : ∃ pde : Word, k.vm.mem (k.envs 3).envPgdir 1 = pde ∧ pde ≠ 0 ∧ ppn pde = t
  apart : k.vm.envsBase + m ≤ t ∧ k.vm.envsBase + m ≤ (k.envs 3).envPgdir ∧ (k.envs 3).envPgdir ≠ t
  empty : ∀ j, n ≤ j → j < 1024 → k.vm.mem t j &&& pteV = 0
  used : ∀ b, (k.envs b).envStatus = if b < 4 then .runnable else .free
  links : ∃ rest, k.envFreeList = 4 :: rest
  idle : k.curenv = none

def bssVa (i : Nat) : Word := BitVec.ofNat 32 (0x400000 + 4096 * i)

theorem bssVa_place {i : Nat} (small : i < 1024) : pdx (bssVa i) = 1 ∧ ptx (bssVa i) = i := by
  rw [pdx_eq, ptx_eq, bssVa, BitVec.toNat_ofNat]
  omega

theorem cutList_cons (lost : EnvPtr → Bool) (e : EnvPtr) (rest : List EnvPtr) :
    ∃ rest', cutList lost (e :: rest) = e :: rest' ∧ (lost e = true → rest' = []) := by
  rw [cutList]
  split
  · exact ⟨[], rfl, fun _ => rfl⟩
  · rename_i kept
    exact ⟨_, rfl, fun lost => absurd lost kept⟩

theorem holdsWord_first {vm : Vm} {m w : Nat} (low : b < 4) (core : w < 55) (later : 0 < m) :
    vm.holdsWord (vm.envsBase + m) b w = false := by
  have first : b.val < 4 := low
  have place : (313 * b.val + w) / 1024 = 0 := by omega
  rw [Vm.holdsWord, envWords, place, Bool.and_eq_false_iff, beq_eq_false_iff_ne]
  exact .inr (by omega)

theorem pageInsert_table {vm : Vm} {pgdir : Nat} {asid perm : Word} (table : pdeOf vm pgdir va ≠ 0)
    (bound : ppn (pdeOf vm pgdir va) < vm.npage) (invalid : pteAt vm pgdir va &&& pteV = 0) :
    pageInsert vm pgdir asid pp va perm =
      .ok () (((tlbInvalidate vm asid va).write ⟨ppn (pdeOf vm pgdir va), ptx va⟩ (pteOf pp perm)).incRef pp) := by
  have walk : pgdirWalk (tlbInvalidate vm asid va) pgdir va true =
      .ok (some ⟨ppn (pdeOf vm pgdir va), ptx va⟩) (tlbInvalidate vm asid va) := by
    unfold pgdirWalk
    rw [if_neg (show (tlbInvalidate vm asid va).mem pgdir (pdx va) ≠ 0 from table), pteIn]
    exact if_neg (not_le.mpr bound)
  rw [pageInsert, pageLookup_none (.inr ⟨bound, invalid⟩), Result.ok_bind]
  dsimp only
  rw [pageInsertNew, walk, Result.ok_bind]

theorem Loading.step {t n m : Nat} (loading : Loading t n (m + 1) k) (later : 0 < m) (room : n < 1024) :
    ∃ k', loadBssMapper 3 (bssVa n) k = .ok () k' ∧ Loading t (n + 1) m k' ∧
      k'.envFreeList = cutList (fun e => k.vm.holdsWord (k.vm.envsBase + m) e 38) k.envFreeList ∧
      (k'.envs 3).envVars = if k.vm.holdsWord (k.vm.envsBase + m) 3 312 then none else (k.envs 3).envVars := by
  obtain ⟨list, bound, ⟨pde, here, present, named⟩, ⟨lowT, lowDir, other⟩, empty, used, ⟨rest, links⟩, idle⟩ := loading
  obtain ⟨dirOf, indexOf⟩ := bssVa_place room
  generalize head : k.vm.envsBase + m = pp at *
  have list : k.vm.pageFreeList = pp :: (List.range' k.vm.envsBase m).reverse := by
    rw [list, List.range'_concat, List.reverse_append, List.reverse_singleton, List.singleton_append, Nat.one_mul, head]
  have core : ¬ k.LosesCore pp := by
    rintro ⟨b, inUse, w, small, held⟩
    rw [used b] at inUse
    have low : b < 4 := by
      by_contra high
      exact inUse (if_neg high)
    rw [← head, holdsWord_first low small later] at held
    cases held
  let taken : Vm := { k.vm with
    pageFreeList := (List.range' k.vm.envsBase m).reverse, mem := Function.update k.vm.mem pp fun _ => 0 }
  have alloc : pageAllocOn k = .ok pp ((k.zeroEnvs pp).putVm taken) := by
    rw [pageAllocOn, list]
    exact if_neg core
  have apartT : t ≠ pp := by omega
  have apartDir : (k.envs 3).envPgdir ≠ pp := by omega
  have pdeThere : pdeOf taken (k.envs 3).envPgdir (bssVa n) = pde := by
    rw [pdeOf, dirOf, ← here]
    exact congrFun (Function.update_of_ne apartDir _ _) 1
  have free : pteAt taken (k.envs 3).envPgdir (bssVa n) &&& pteV = 0 := by
    rw [pteAt, pdeThere, named, indexOf]
    exact (congrArg (· &&& pteV) (congrFun (Function.update_of_ne apartT _ _) n)).trans (empty n (le_refl n) room)
  have insert (asid : Word) : pageInsert taken (k.envs 3).envPgdir asid pp (bssVa n) pteD =
      .ok () (((tlbInvalidate taken asid (bssVa n)).write ⟨t, n⟩ (pteOf pp pteD)).incRef pp) := by
    rw [pageInsert_table (by rw [pdeThere]; exact present) (by rw [pdeThere, named]; exact bound) free, pdeThere, named, indexOf]
  obtain ⟨rest', cut, _⟩ := cutList_cons (fun e => k.vm.holdsWord pp e 38) 4 rest
  have status (b : EnvPtr) : ((k.zeroEnvs pp).envs b).envStatus = (k.envs b).envStatus := by
    show (if k.vm.holdsWord pp b 43 then EnvStatus.free else (k.envs b).envStatus) = _
    split
    · rename_i held
      rw [used b]
      split
      · rename_i low
        rw [← head, holdsWord_first low (by decide) later] at held
        cases held
      · rfl
    · rfl
  have loaded : loadBssMapper 3 (bssVa n) k = .ok () ((k.zeroEnvs pp).putVm
      (((tlbInvalidate taken (asidWord ((k.zeroEnvs pp).envs 3).envAsid) (bssVa n)).write ⟨t, n⟩ (pteOf pp pteD)).incRef pp)) := by
    rw [loadBssMapper, alloc, Result.ok_bind]
    exact congrArg (Result.lift · _) (insert _)
  refine ⟨_, loaded, ⟨?_, bound, ⟨pde, ?_, present, named⟩, ⟨?_, ?_, other⟩, ?_, fun b => (status b).trans (used b), ⟨rest', ?_⟩, idle⟩,
    ?_, ?_⟩
  · rfl
  · refine Eq.trans (congrFun (Function.update_of_ne other _ _) 1) ?_
    exact (congrFun (Function.update_of_ne apartDir _ _) 1).trans here
  · show k.vm.envsBase + m ≤ t
    omega
  · show k.vm.envsBase + m ≤ (k.envs 3).envPgdir
    omega
  · intro j above small
    have later : j ≠ n := by omega
    refine Eq.trans (congrArg (· &&& pteV) ?_) (empty j (by omega) small)
    refine (congrFun (Function.update_self t _ _) j).trans ?_
    exact (Function.update_of_ne later _ _).trans (congrFun (Function.update_of_ne apartT _ _) j)
  · rw [← cut, ← links]
    rfl
  · simp only [Kernel.putVm, Kernel.zeroEnvs]
  · simp only [Kernel.putVm, Kernel.zeroEnvs, Env.zeroed]

theorem loadBss_append (vas more : List Word) (k : Kernel) :
    loadBss e (vas ++ more) k = (loadBss e vas k).bind fun _ k => loadBss e more k := by
  induction vas generalizing k with
  | nil => rfl
  | cons va rest ih =>
    rw [List.cons_append, loadBss, loadBss]
    cases loadBssMapper e va k with
    | ok _ mid => exact ih mid
    | err code mid => rfl
    | stop cause => rfl

theorem Loading.run {t n m c : Nat} (loading : Loading t n (m + c) k) (later : 0 < m) (room : n + c ≤ 1024) :
    ∃ k', loadBss 3 ((List.range' n c).map bssVa) k = .ok () k' ∧ Loading t (n + c) m k' := by
  induction c generalizing n k with
  | zero => exact ⟨k, rfl, loading⟩
  | succ c ih =>
    have first : 0 < m + c := by omega
    obtain ⟨mid, loaded, after, _⟩ := loading.step first (by omega)
    obtain ⟨k', rest, done⟩ := ih (n := n + 1) after (by omega)
    refine ⟨k', ?_, by rwa [Nat.add_right_comm, Nat.add_assoc] at done⟩
    rw [List.range'_succ, List.map_cons, loadBss, loaded]
    exact rest

theorem Loading.last {t n : Nat} (loading : Loading t n 2 k) (room : n < 1024) :
    ∃ k', loadBssMapper 3 (bssVa n) k = .ok () k' ∧ Loading t (n + 1) 1 k' ∧ k'.envFreeList = [4] ∧ (k'.envs 3).envVars = none := by
  obtain ⟨k', loaded, after, list, vars⟩ := loading.step Nat.one_pos room
  obtain ⟨rest, links⟩ := loading.links
  have second (b : EnvPtr) (w : Nat) (small : w < 313) (place : (313 * b.val + w) / 1024 = 1) :
      k.vm.holdsWord (k.vm.envsBase + 1) b w = true := by
    rw [Vm.holdsWord, envWords, place, beq_self_eq_true, Bool.and_true]
    exact decide_eq_true small
  obtain ⟨rest', cut, none⟩ := cutList_cons (fun e => k.vm.holdsWord (k.vm.envsBase + 1) e 38) 4 rest
  refine ⟨k', loaded, after, ?_, ?_⟩
  · rw [list, links, cut, none (second 4 38 (by decide) (by decide))]
  · rw [vars, second 3 312 (by decide) (by decide), if_pos rfl]

end Loading

def threePrograms : List Op := [.envCreate emptyBinary 1, .envCreate emptyBinary 1, .envCreate emptyBinary 1]

def bigBss : List Word := (List.range 1005).map bssVa

def firstPage (k : Kernel) : Option (EnvPtr × Kernel) :=
  match envAlloc 0 k with
  | .ok e mid =>
    match loadBssMapper e (bssVa 0) (mid.updateEnv e fun env => { env with envPri := 1, envStatus := .runnable }) with
    | .ok _ k => some (e, k)
    | _ => none
  | _ => none

instance (t n m : Nat) (k : Kernel) : Decidable (Loading t n m k) :=
  decidable_of_iff (k.vm.pageFreeList = (List.range' k.vm.envsBase m).reverse ∧ t < k.vm.npage ∧
      (k.vm.mem (k.envs 3).envPgdir 1 ≠ 0 ∧ ppn (k.vm.mem (k.envs 3).envPgdir 1) = t) ∧
      (k.vm.envsBase + m ≤ t ∧ k.vm.envsBase + m ≤ (k.envs 3).envPgdir ∧ (k.envs 3).envPgdir ≠ t) ∧
      (∀ j < 1024, n ≤ j → k.vm.mem t j &&& pteV = 0) ∧
      (∀ b, (k.envs b).envStatus = if b < 4 then .runnable else .free) ∧ k.envFreeList.head? = some 4 ∧ k.curenv = none)
    ⟨fun ⟨list, bound, table, apart, empty, used, links, idle⟩ =>
        ⟨list, bound, ⟨_, rfl, table⟩, apart, fun j above small => empty j small above, used,
          ⟨_, (List.cons_head?_tail (Option.mem_def.mpr links)).symm⟩, idle⟩,
      fun ⟨list, bound, ⟨pde, here, table⟩, apart, empty, used, ⟨rest, links⟩, idle⟩ =>
        ⟨list, bound, here ▸ table, apart, fun j small above => empty j above small, used, by rw [links]; rfl, idle⟩⟩

set_option maxRecDepth 100000 in
theorem firstPage_loading : ∃ k0 k k', clearBoot = some k0 ∧ Run step (fun _ _ => True) k0 threePrograms k ∧
    firstPage k = some (3, k') ∧ Loading 2035 1 1005 k' := by
  have check : (clearBoot.bind fun k0 => (Run.exec step k0 threePrograms).bind fun k =>
      (firstPage k).map fun pair => (pair.1, decide (Loading 2035 1 1005 pair.2))) = some (3, true) := by
    rw [clearBoot_eq]
    decide +kernel
  obtain ⟨k0, booted, check⟩ := Option.bind_eq_some_iff.mp check
  obtain ⟨k, exec, check⟩ := Option.bind_eq_some_iff.mp check
  obtain ⟨⟨e, k'⟩, first, check⟩ := Option.map_eq_some_iff.mp check
  simp only [Prod.mk.injEq, decide_eq_true_eq] at check
  obtain ⟨rfl, loading⟩ := check
  exact ⟨k0, k, k', booted, Run.of_exec (fun _ _ _ => trivial) exec, first, loading⟩

theorem firstPage_some {first : EnvPtr × Kernel} (h : firstPage k = some first) : ∃ mid, envAlloc 0 k = .ok first.1 mid ∧
    loadBssMapper first.1 (bssVa 0) (mid.updateEnv first.1 fun env => { env with envPri := 1, envStatus := .runnable }) =
      .ok () first.2 := by
  unfold firstPage at h
  split at h
  · rename_i e mid alloc
    split at h
    · rename_i u k' loaded
      cases h
      exact ⟨mid, alloc, loaded⟩
    · cases h
  · cases h

theorem bigBss_created : ∃ k0 k k', clearBoot = some k0 ∧ Run step (fun _ _ => True) k0 threePrograms k ∧
    envCreateBss bigBss 0 1 k = .ok 3 k' ∧ k'.envFreeList = [4] ∧ (∀ b, (k'.envs b).envStatus = if b < 4 then .runnable else .free) ∧
    (k'.envs 3).envVars = none ∧ k'.curenv = none ∧ k'.envSchedList.first = some 3 := by
  obtain ⟨k0, k, k1, booted, run, first, loading⟩ := firstPage_loading
  obtain ⟨mid, alloc, loaded⟩ := firstPage_some first
  obtain ⟨k2, most, loading⟩ := loading.run (m := 2) (c := 1003) Nat.two_pos (by decide)
  obtain ⟨k3, last, loading, list, vars⟩ := loading.last (by decide)
  have split : bigBss = bssVa 0 :: ((List.range' 1 1003).map bssVa ++ [bssVa 1004]) := by
    have numbers : List.range 1005 = 0 :: (List.range' 1 1003 ++ [1004]) := by
      rw [List.range_eq_range', show 1005 = 1003 + 1 + 1 from rfl, List.range'_succ, List.range'_concat]
    rw [bigBss, numbers, List.map_cons, List.map_append]
    rfl
  have all : loadBss 3 bigBss (mid.updateEnv 3 fun env => { env with envPri := 1, envStatus := .runnable }) = .ok () k3 := by
    rw [split, loadBss, loaded, Result.ok_bind, loadBss_append, most, Result.ok_bind, loadBss, last]
    rfl
  refine ⟨k0, k, (k3.updateEnv 3 fun env => { env with envTf := { env.envTf with cp0Epc := 0 } }).tailqInsertHead 3, booted, run,
    ?_, list, fun b => ?_, ?_, loading.idle, rfl⟩
  · rw [envCreateBss, alloc, panicOn, Result.ok_bind, all, panicOn, Result.ok_bind]
  · rw [← loading.used b]
    by_cases same : b = 3
    · subst same
      simp [Kernel.tailqInsertHead, Kernel.updateEnv]
    · simp [Kernel.tailqInsertHead, Kernel.updateEnv, same]
  · simp [Kernel.tailqInsertHead, Kernel.updateEnv, vars]

/-- `env_free_list` ends at env 4, whose link is lost. -/
theorem envTable_cut : ∃ k0 k k', clearBoot = some k0 ∧ Run step (fun _ _ => True) k0 threePrograms k ∧
    envCreateBss bigBss 0 1 k = .ok 3 k' ∧ ¬ k'.table.WellFormed := by
  obtain ⟨k0, k, k', booted, run, created, list, status, _⟩ := bigBss_created
  refine ⟨k0, k, k', booted, run, created, fun whole => ?_⟩
  have free : (k'.table.slots 5).status = .free := status 5
  have listed := (whole.listed 5).mpr free
  rw [show k'.table.freeList = [4] from list] at listed
  exact absurd (List.mem_singleton.mp listed) (by decide)

end Mos
