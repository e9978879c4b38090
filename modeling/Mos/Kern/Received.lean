import Mos.Kern.LeafStep
import Mos.Kern.Mappings
import Mos.Kern.Rendezvous
import Mos.Kern.Translate

namespace Mos

/-- What the last successful `sys_ipc_try_send` to an env has transferred, a page or nothing, as long as the env has made
    no system call since. -/
abbrev Sent := EnvPtr → Option (Option Nat)

/-- What a call of `cur` that succeeds leaves of it. -/
def callSent (k : Kernel) (cur : EnvPtr) (sent : Sent) : Call → Sent
  | .ipcTrySend envid _ srcva _ =>
    match envid2env k cur envid false with
    | .ok e => Function.update sent e (some (if srcva = 0 then none else (lookupPage k cur srcva).join))
    | .error _ => sent
  | .envDestroy envid _ =>
    match envid2env k cur envid true with
    | .ok e => Function.update sent e none
    | .error _ => sent
  | _ => sent

def stepSent (k : Kernel) (sent : Sent) : Op → Sent
  | .syscall tf call =>
    match k.curenv with
    | some cur =>
      match syscallTable cur call (k.trap tf) with
      | .ok _ _ => callSent (k.trap tf) cur (Function.update sent cur none) call
      | _ => Function.update sent cur none
    | none => sent
  | _ => sent

def sending (s : Kernel × Sent) (op : Op) : Option (Kernel × Sent) := (step s.1 op).map fun k => (k, stepSent s.1 s.2 op)

/-- The test of `serve`: a request without an argument page is left alone. -/
def hasArgument (perm : Word) : Bool := perm &&& pteV ≠ 0

/-- An env that goes on after a successful send sees `PTE_V` if and only if the send has transferred a page, which is mapped
    where the env has asked for it. -/
def PermTells (k : Kernel) (sent : Sent) : Prop :=
  ∀ r page, k.curenv = some r → sent r = some page →
    (hasArgument (k.envs r).envIpcPerm = true ↔
      ∃ pp, page = some pp ∧ lookupPage k r (k.envs r).envIpcDstva = some (some pp))

def MemoryCall : Op → Prop
  | .syscall _ (.memAlloc _ _ _) | .syscall _ (.memMap _ _ _ _ _) | .syscall _ (.memUnmap _ _) => True
  | _ => False

/-- Each message that is accepted comes with a page, and nobody else touches the page before the receiver goes on. -/
structure SendsPages (s : Kernel × Sent) (op : Op) : Prop where
  tlb : TlbGuard s.1 op
  page : ∀ tf envid value perm, op = .syscall tf (.ipcTrySend envid value 0 perm) → ∀ cur e, s.1.curenv = some cur →
    ¬ Accepts s.1 cur envid 0 e
  alone : MemoryCall op → ∀ cur r page, s.1.curenv = some cur → r ≠ cur → s.2 r = some page →
    ¬ Clears s.1 op r (vpageOf (s.1.envs r).envIpcDstva)

theorem SendsPages.other {s : Kernel × Sent} {op : Op} (tlb : TlbGuard s.1 op)
    (page : ∀ tf envid value perm, op ≠ .syscall tf (.ipcTrySend envid value 0 perm)) (memory : ¬ MemoryCall op) :
    SendsPages s op :=
  ⟨tlb, fun tf envid value perm eq => absurd eq (page tf envid value perm), fun touches => absurd touches memory⟩

/-- The page that has come is where the receiver wants it. -/
structure HoldsPage (k : Kernel) (r : EnvPtr) (page : Option Nat) : Prop where
  settled : (k.envs r).envIpcRecving ≠ 1
  flag : (k.envs r).envIpcPerm &&& pteV ≠ 0
  here : ∃ pp w, page = some pp ∧ leaf (rootsOf k) k.vm r (vpageOf (k.envs r).envIpcDstva) = some w ∧ ppn w = pp

variable {managed : Nat → Prop} {k k' : Kernel} {sent : Sent} {cur e r : EnvPtr} {page : Option Nat} {op : Op}
variable {srcva perm : Word}

def keepRel (r : EnvPtr) (s : VPage) : LeafRel := fun b s' before after =>
  b = r → s' = s → ∀ w, before = some w → after = some w

theorem keepRel_order (r : EnvPtr) (s : VPage) : (keepRel r s).Order :=
  ⟨fun _ _ _ _ _ _ there => there, fun first second same place w there => second same place w (first same place w there)⟩

theorem Maps.clears {s : VPage} {e : EnvPtr} (maps : Maps k op e s perm) :
    Clears k op e s ∨ (k.envs e).envStatus = .free := by
  cases maps with
  | memAlloc current env => exact Or.inl (.memAlloc current env)
  | memMap current env => exact Or.inl (.memMap current env)
  | ipcTrySend current accepts sends => exact Or.inl (.ipcTrySend current accepts sends)
  | envCreate free mem => exact Or.inr free

theorem step_keeps {s : VPage} {w : Word} (own : ¬ Shared s.1) (used : (k.envs r).envStatus ≠ .free)
    (stays : ¬ Clears k op r s) (pages : PageInv managed k) (inv : TlbInv managed k) (env : EnvInv k)
    (wf : k.table.WellFormed) (meets : TlbGuard k op) (h : step k op = some k')
    (there : leaf (rootsOf k) k.vm r s = some w) : leaf (rootsOf k') k'.vm r s = some w := by
  have kept : StepLeaves (keepRel r s) k k' := by
    refine step_leaves (keepRel_order r s) (fun b s' pp _ _ w none => by cases none) (fun e s' x clears => ?_)
      (fun e s' x pp perm maps => ?_) pages inv env wf meets h
    · rintro rfl rfl
      exact absurd clears stays
    · rintro rfl rfl
      rcases maps.clears with clears | free
      · exact absurd clears stays
      · exact absurd free used
  exact kept r s own rfl rfl w there

theorem leaf_used {s : VPage} {w : Word} (there : leaf (rootsOf k) k.vm r s = some w) : (k.envs r).envStatus ≠ .free := by
  intro free
  have absent : rootsOf k r = none := if_pos free
  have empty : tableOf (rootsOf k) k.vm r s.1 = none := by
    rw [tableOf, absent]
    rfl
  cases (leaf_none (j := s.2) empty).symm.trans there

theorem HoldsPage.used (holds : HoldsPage k r page) : (k.envs r).envStatus ≠ .free := by
  obtain ⟨_, _, _, there, _⟩ := holds.here
  exact leaf_used there

theorem HoldsPage.tells (holds : HoldsPage k r page) (pages : PageInv managed k) :
    hasArgument (k.envs r).envIpcPerm = true ↔
      ∃ pp, page = some pp ∧ lookupPage k r (k.envs r).envIpcDstva = some (some pp) := by
  obtain ⟨pp, w, rfl, there, rfl⟩ := holds.here
  have user := pages.dst r
  have owned : target (rootsOf k) k.vm (.pte r (pdxFin (k.envs r).envIpcDstva) (ptxFin (k.envs r).envIpcDstva)) =
      some (ppn w) := by
    rw [target_leaf (pdx_user user), show leaf (rootsOf k) k.vm r (pdxFin _, ptxFin _) = _ from there]
    rfl
  have bound := pages.pages.bound _ (pages.pages.owned _ _ owned)
  have found : lookupPage k r (k.envs r).envIpcDstva = some (some (ppn w)) := by
    rw [lookupPage_eq pages.pages.tables holds.used user, there]
    exact seen_page.mpr ⟨rfl, bound⟩
  exact iff_of_true (by simpa [hasArgument] using holds.flag) ⟨_, rfl, found⟩

theorem HoldsPage.step (holds : HoldsPage k r page) (same : (k'.envs r).ipc = (k.envs r).ipc)
    (stays : ¬ Clears k op r (vpageOf (k.envs r).envIpcDstva)) (pages : PageInv managed k) (inv : TlbInv managed k)
    (env : EnvInv k) (wf : k.table.WellFormed) (meets : TlbGuard k op) (h : step k op = some k') : HoldsPage k' r page := by
  obtain ⟨pp, w, eq, there, number⟩ := holds.here
  simp only [Env.ipc, Prod.mk.injEq] at same
  obtain ⟨-, -, perm, recving, dstva⟩ := same
  refine ⟨by rw [recving]; exact holds.settled, by rw [perm]; exact holds.flag, pp, w, eq, ?_, number⟩
  rw [dstva]
  exact step_keeps (pdx_user (pages.dst r)) holds.used stays pages inv env wf meets h there

def Records (k : Kernel) (sent : Sent) : Prop := ∀ r page, sent r = some page → HoldsPage k r page

theorem sysIpcTrySend_ok {envid value : Word} {result : Option Word} (sends : srcva ≠ 0)
    (h : sysIpcTrySend cur envid value srcva perm k = .ok result k') :
    ∃ e vm', Accepts k cur envid srcva e ∧ HasPage k.vm (k.envs cur).envPgdir srcva ∧
      pageInsert k.vm (k.envs e).envPgdir (asidWord (k.envs e).envAsid) (ppn (pteAt k.vm (k.envs cur).envPgdir srcva))
        (k.envs e).envIpcDstva perm = .ok () vm' ∧ k' = (ipcDeliver cur e value perm k).putVm vm' := by
  rcases sysIpcTrySend_cases cur envid value srcva perm k with ⟨_, _, failed, _⟩ | ⟨e, accepts, eq⟩
  · cases failed.symm.trans h
  · rw [eq, ipcMap, if_pos sends] at h
    obtain ⟨found, mid, lookup, h⟩ := Result.bind_ok h
    obtain ⟨vm, looked, rfl⟩ := withVm_ok lookup
    rw [ipcDeliver_pgdir] at looked
    obtain ⟨rfl, ⟨_, rfl⟩ | ⟨has, rfl⟩⟩ := pageLookup_ok looked
    · cases h
    · obtain ⟨_, last, insert, h⟩ := Result.bind_ok h
      obtain ⟨vm', inserted, rfl⟩ := withVm_ok insert
      cases h
      simp only [Kernel.putVm, ipcDeliver_self] at inserted
      exact ⟨e, vm', accepts, has, inserted, rfl⟩

theorem flag_set (perm : Word) : (pteV ||| perm) &&& pteV ≠ 0 := by
  intro none
  have bit := congrArg (fun w : Word => w.getLsbD 7) none
  simp [pteV] at bit

theorem HoldsPage.delivered {value : Word} {pp : Nat} {vm' : Vm} (pages : PageInv managed k)
    (template : Template managed k.basePgdir (rootsOf k) k.vm)
    (used : (k.envs e).envStatus ≠ .free) (bound : pp < k.vm.npage) (flags : FlagBits perm)
    (insert : pageInsert k.vm (k.envs e).envPgdir (asidWord (k.envs e).envAsid) pp (k.envs e).envIpcDstva perm = .ok () vm') :
    HoldsPage ((ipcDeliver cur e value perm k).putVm vm') e (some pp) := by
  have here : leaf (rootsOf k) vm' e (vpageOf (k.envs e).envIpcDstva) = some (pteOf pp perm) :=
    (pageInsert_moves pages.pages template (rootsOf_used used) (pdx_user (pages.dst e)) (fun _ near => near) insert).2
  have small : pp < 2^20 := lt_of_lt_of_le bound pages.pages.small
  have roots : rootsOf ((ipcDeliver cur e value perm k).putVm vm') = rootsOf k := ipcDeliver_roots used
  have now : (((ipcDeliver cur e value perm k).putVm vm').envs e) = _ := ipcDeliver_self cur e value perm k
  refine ⟨?_, ?_, pp, pteOf pp perm, rfl, ?_, ppn_pteOf small flags⟩
  · rw [now]
    exact (by decide : (0 : Word) ≠ 1)
  · rw [now]
    exact flag_set perm
  · rw [roots, now]
    exact here

theorem sysEnvDestroy_reaps {envid status code : Word} (reaps : Reaps k cur envid e) :
    sysEnvDestroy cur envid status k ≠ .err code k' := by
  intro failed
  have asked : ¬ ((k.envs e).envParentId ≠ (k.envs cur).envId ∨ (k.envs e).envStatus ≠ .zombie) := by
    rw [not_or, not_not, not_not]
    exact ⟨reaps.child, reaps.zombie⟩
  simp only [sysEnvDestroy, reaps.env, if_neg reaps.other, if_neg asked] at failed
  rcases Result.bind_err failed with h | ⟨_, mid, free, h⟩
  · rcases Result.bind_err h with h | ⟨_, mid, free, h⟩
    · exact envFree_noErr _ _ _ _ h
    · split at h
      · exact schedule_noErr _ _ _ _ h
      · cases h
  · cases h

theorem syscall_holds {tf : Trapframe} {call : Call} (holds : HoldsPage k r page) (current : k.curenv = some cur)
    (other : r ≠ cur)
    (alone : MemoryCall (.syscall tf call) → ¬ Clears k (.syscall tf call) r (vpageOf (k.envs r).envIpcDstva))
    (lives : ∀ envid status, call = .envDestroy envid status → ¬ Reaps k cur envid r)
    (pages : PageInv managed k) (inv : TlbInv managed k) (env : EnvInv k) (wf : k.table.WellFormed)
    (meets : TlbGuard k (.syscall tf call)) (h : step k (.syscall tf call) = some k') : HoldsPage k' r page := by
  have refuses : ∀ envid srcva, ¬ Accepts k cur envid srcva r := fun _ _ accepts => holds.settled accepts.recving
  have stays : ¬ Clears k (.syscall tf call) r (vpageOf (k.envs r).envIpcDstva) := by
    generalize vpageOf (k.envs r).envIpcDstva = place at alone ⊢
    intro clears
    cases clears with
    | memAlloc running env => exact alone trivial (.memAlloc running env)
    | memMap running env => exact alone trivial (.memMap running env)
    | memUnmap running env => exact alone trivial (.memUnmap running env)
    | ipcTrySend running accepts sends =>
      cases current.symm.trans running
      exact refuses _ _ accepts
    | envDestroy s running reaps =>
      cases current.symm.trans running
      exact lives _ _ rfl reaps
  refine holds.step ?_ stays pages inv env wf meets h
  obtain ⟨_, ran, h⟩ := Option.bind_eq_some_iff.mp h
  cases current.symm.trans ran
  obtain ⟨after, mid, called, rfl⟩ := doSyscall_state h
  show (mid.envs r).ipc = ((k.trap tf).envs r).ipc
  have trapped : (k.trap tf).curenv = some cur := current
  by_cases recv : ∃ dstva, call = .ipcRecv dstva
  · obtain ⟨dstva, rfl⟩ := recv
    rcases sysIpcRecv_state called with ⟨_, rfl⟩ | ⟨_, waiting, left, _, h⟩
    · rfl
    · rw [schedule_ipc h, left.others r other]
  by_cases send : ∃ envid value srcva perm, call = .ipcTrySend envid value srcva perm
  · obtain ⟨envid, value, srcva, perm, rfl⟩ := send
    rcases sysIpcTrySend_state called with ⟨rfl, _⟩ | ⟨e, vm, accepts, rfl⟩
    · rfl
    · have ne : r ≠ e := by
        rintro rfl
        exact refuses envid srcva ⟨accepts.va, accepts.env, accepts.recving⟩
      exact congrArg Env.ipc (ipcDeliver_others ne)
  refine syscall_ipc trapped called (fun dstva eq => recv ⟨dstva, eq⟩) (fun envid value srcva perm eq => ?_) r
  exact send ⟨envid, value, srcva, perm, eq⟩

theorem callSent_cases {call : Call} (record : callSent k cur sent call r = some page) :
    (sent r = some page ∧ ∀ envid status, call = .envDestroy envid status → ¬ Reaps k cur envid r) ∨
      ∃ envid value srcva perm, call = .ipcTrySend envid value srcva perm ∧ envid2env k cur envid false = .ok r ∧
        page = if srcva = 0 then none else (lookupPage k cur srcva).join := by
  cases call with
  | envDestroy envid status =>
    cases target : envid2env k cur envid true with
    | error code =>
      simp only [callSent, target] at record
      refine Or.inl ⟨record, fun envid' status' eq reaps => ?_⟩
      cases eq
      cases target.symm.trans reaps.env
    | ok e =>
      simp only [callSent, target] at record
      have ne : r ≠ e := by
        rintro rfl
        rw [Function.update_self] at record
        cases record
      rw [Function.update_of_ne ne] at record
      refine Or.inl ⟨record, fun envid' status' eq reaps => ?_⟩
      cases eq
      exact ne (Except.ok.inj (reaps.env.symm.trans target))
  | ipcTrySend envid value srcva perm =>
    cases target : envid2env k cur envid false with
    | error code =>
      simp only [callSent, target] at record
      exact Or.inl ⟨record, fun _ _ eq => by cases eq⟩
    | ok e =>
      simp only [callSent, target] at record
      by_cases here : r = e
      · subst here
        rw [Function.update_self] at record
        exact Or.inr ⟨envid, value, srcva, perm, rfl, target, (Option.some.inj record).symm⟩
      · rw [Function.update_of_ne here] at record
        exact Or.inl ⟨record, fun _ _ eq => by cases eq⟩
  | yield => exact Or.inl ⟨record, fun _ _ eq => by cases eq⟩
  | memAlloc envid va perm => exact Or.inl ⟨record, fun _ _ eq => by cases eq⟩
  | memMap srcid srcva dstid dstva perm => exact Or.inl ⟨record, fun _ _ eq => by cases eq⟩
  | memUnmap envid va => exact Or.inl ⟨record, fun _ _ eq => by cases eq⟩
  | exofork => exact Or.inl ⟨record, fun _ _ eq => by cases eq⟩
  | setEnvStatus envid status => exact Or.inl ⟨record, fun _ _ eq => by cases eq⟩
  | ipcRecv dstva => exact Or.inl ⟨record, fun _ _ eq => by cases eq⟩

theorem syscall_records {tf : Trapframe} {call : Call} (records : Records k sent) (current : k.curenv = some cur)
    (meets : SendsPages (k, sent) (.syscall tf call)) (pages : PageInv managed k) (inv : TlbInv managed k) (env : EnvInv k)
    (wf : k.table.WellFormed) (h : step k (.syscall tf call) = some k') : Records k' (stepSent k sent (.syscall tf call)) := by
  intro r page record
  simp only [stepSent, current] at record
  have old : Function.update sent cur none r = some page →
      (∀ envid status, call = .envDestroy envid status → ¬ Reaps k cur envid r) → HoldsPage k' r page := by
    intro record lives
    have other : r ≠ cur := by
      rintro rfl
      rw [Function.update_self] at record
      cases record
    rw [Function.update_of_ne other] at record
    exact syscall_holds (records r page record) current other (fun memory => meets.alone memory cur r page current other record)
      lives pages inv env wf meets.tlb h
  obtain ⟨_, ran, called⟩ := Option.bind_eq_some_iff.mp h
  cases current.symm.trans ran
  cases result : syscallTable cur call (k.trap tf) with
  | stop cause =>
    rw [doSyscall, result] at called
    cases called
  | err code mid =>
    rw [result] at record
    refine old record fun envid status eq reaps => ?_
    subst eq
    exact sysEnvDestroy_reaps (k := k.trap tf) ⟨reaps.env, reaps.other, reaps.child, reaps.zombie⟩ result
  | ok value mid =>
    rw [result] at record
    obtain ⟨after, _, state, rfl⟩ := doSyscall_state called
    rw [result] at state
    cases state
    rcases callSent_cases record with ⟨record, lives⟩ | ⟨envid, value, srcva, perm, rfl, target, rfl⟩
    · refine old record fun envid status eq reaps => ?_
      exact lives envid status eq ⟨reaps.env, reaps.other, reaps.child, reaps.zombie⟩
    · have sends : srcva ≠ 0 := by
        rintro rfl
        rcases sysIpcTrySend_cases cur envid value 0 perm (k.trap tf) with ⟨_, _, failed, _⟩ | ⟨e, accepts, _⟩
        · cases failed.symm.trans result
        · exact meets.page tf envid value perm rfl cur e current ⟨accepts.va, accepts.env, accepts.recving⟩
      obtain ⟨e, vm', accepts, has, insert, rfl⟩ := sysIpcTrySend_ok sends result
      obtain rfl := Except.ok.inj (target.symm.trans accepts.env)
      have used : (k.envs r).envStatus ≠ .free := env.target_used current accepts.env
      have come : HoldsPage ((ipcDeliver cur r value perm (k.trap tf)).putVm vm') r
          (some (ppn (pteAt (k.trap tf).vm ((k.trap tf).envs cur).envPgdir srcva))) :=
        .delivered (pages.trap tf) inv.template used has.bound meets.tlb.1 insert
      rw [if_neg sends, lookupPage_hasPage has]
      exact ⟨come.settled, come.flag, come.here⟩

/-- Right after a message is accepted, its permission tells the truth if and only if it comes with a page. -/
theorem ipcTrySend_tells {tf : Trapframe} {envid value : Word} {result : Option Word} (current : k.curenv = some cur)
    (pages : PageInv managed k) (inv : TlbInv managed k) (env : EnvInv k) (wf : k.table.WellFormed)
    (meets : TlbGuard k (.syscall tf (.ipcTrySend envid value srcva perm))) (accepts : Accepts k cur envid srcva e)
    (called : syscallTable cur (.ipcTrySend envid value srcva perm) (k.trap tf) = .ok result k') :
    (hasArgument (k'.envs e).envIpcPerm = true ↔ ∃ pp,
      callSent (k.trap tf) cur sent (.ipcTrySend envid value srcva perm) e = some (some pp) ∧
        lookupPage k' e (k'.envs e).envIpcDstva = some (some pp)) ↔ srcva ≠ 0 := by
  have target : envid2env (k.trap tf) cur envid false = .ok e := accepts.env
  simp only [callSent, target, Function.update_self, Option.some.injEq]
  by_cases sends : srcva = 0
  · rcases sysIpcTrySend_cases cur envid value srcva perm (k.trap tf) with ⟨_, _, failed, _⟩ | ⟨e', accepts', eq⟩
    · cases failed.symm.trans called
    · obtain rfl := Except.ok.inj (target.symm.trans accepts'.env)
      have done := eq.symm.trans called
      rw [ipcMap, if_neg (not_not.mpr sends)] at done
      cases done
      have flag : hasArgument ((ipcDeliver cur e value perm (k.trap tf)).envs e).envIpcPerm = true := by
        rw [ipcDeliver_self, hasArgument]
        exact decide_eq_true (flag_set perm)
      rw [if_pos sends]
      refine iff_of_false (fun tells => ?_) (not_not.mpr sends)
      obtain ⟨pp, page, _⟩ := tells.mp flag
      cases page
  · obtain ⟨e', vm', accepts', has, insert, rfl⟩ := sysIpcTrySend_ok sends called
    obtain rfl := Except.ok.inj (target.symm.trans accepts'.env)
    have used : (k.envs e).envStatus ≠ .free := env.target_used current accepts.env
    have come : HoldsPage ((ipcDeliver cur e value perm (k.trap tf)).putVm vm') e
        (some (ppn (pteAt (k.trap tf).vm ((k.trap tf).envs cur).envPgdir srcva))) :=
      .delivered (pages.trap tf) inv.template used has.bound meets.1 insert
    obtain ⟨managed', pages', _⟩ := syscall_tlb inv pages env wf current meets (by rw [called]; rfl)
    have tells := come.tells pages'
    rw [if_neg sends, lookupPage_hasPage has]
    refine iff_of_true ?_ sends
    simpa only [Option.join_some, Option.some.injEq] using tells

theorem step_records (records : Records k sent) (meets : SendsPages (k, sent) op) (pages : PageInv managed k)
    (inv : TlbInv managed k) (env : EnvInv k) (wf : k.table.WellFormed) (h : step k op = some k') :
    Records k' (stepSent k sent op) := by
  cases op with
  | syscall tf call =>
    obtain ⟨cur, current, _⟩ := Option.bind_eq_some_iff.mp h
    exact syscall_records records current meets pages inv env wf h
  | timer tf =>
    intro r page record
    have resumed : schedule false { k with tf := tf } = .ok () k' := schedule_state h
    exact (records r page record).step (schedule_ipc resumed r) (fun clears => by cases clears) pages inv env wf meets.tlb h
  | tlbRefill va victim =>
    intro r page record
    obtain ⟨cur, _, refill⟩ := Option.bind_eq_some_iff.mp h
    obtain ⟨vm, rfl⟩ := withVm_state refill
    exact (records r page record).step rfl (fun clears => by cases clears) pages inv env wf meets.tlb h
  | envCreate binary priority =>
    intro r page record
    exact (records r page record).step (envCreate_ipc h r) (fun clears => by cases clears) pages inv env wf meets.tlb h

/-- In every run from boot whose steps meet `SendsPages`, an env that goes on after a successful send sees `PTE_V` if and only
    if a page has come. -/
theorem ipcPerm_tells {npage : Nat} {mem : Nat → Nat → Word} {k0 : Kernel} {ops : List Op} {s : Kernel × Sent}
    (small : npage ≤ 2^20) (booted : boot npage mem = some k0) (run : Run sending SendsPages (k0, fun _ => none) ops s) :
    PermTells s.1 s.2 := by
  have start : Records k0 fun _ => none := fun r page none => by cases none
  obtain ⟨_, _, records, managed, pages, _⟩ := run.invariant
    (fun s => EnvInv s.1 ∧ s.1.table.WellFormed ∧ Records s.1 s.2 ∧ ∃ managed, PageInv managed s.1 ∧ TlbInv managed s.1)
    ⟨boot_envInv booted, boot_wellFormed booted, start, Managed k0, boot_pages small booted, boot_tlb small booted⟩
    fun s op s' inv meets next => by
      obtain ⟨env, wf, records, managed, pages, inv⟩ := inv
      obtain ⟨k, taken, rfl⟩ := Option.map_eq_some_iff.mp next
      exact ⟨step_envInv env taken, step_wellFormed env wf taken, step_records records meets pages inv env wf taken,
        step_tlb inv pages env wf meets.tlb taken⟩
  exact fun r page _ record => (records r page record).tells pages

def sendPage : Op := .call (.ipcTrySend 2048 7 0x400000 pteD)

/-- Env 0 waits, and env 1 touches a page. -/
def touchedRun : List Op :=
  [.envCreate emptyBinary 1, .envCreate emptyBinary 1, .timer zeroFrame, .call .yield, .call (.ipcRecv 0x500000),
    .tlbRefill 0x400000 0]

set_option maxRecDepth 100000 in
theorem ipcPerm_tells_touchedRun : ∃ k0 s, clearBoot = some k0 ∧
    Run sending SendsPages (k0, fun _ => none) (touchedRun ++ [sendPage, .call .yield]) s ∧
    s.1.curenv = some 0 ∧ (s.2 0).join.isSome = true ∧ PermTells s.1 s.2 := by
  have check : (clearBoot.bind fun k0 => (Run.exec sending (k0, fun _ => none) touchedRun).bind fun s =>
      (Run.exec sending s [sendPage, .call .yield]).map fun s' => (s.1.curenv,
        s.1.vm.ppRef (ppn (pteAt s.1.vm (s.1.envs 1).envPgdir 0x400000)), s'.1.curenv, (s'.2 0).join.isSome)) =
      some (some 1, 1, some 0, true) := by
    rw [clearBoot_eq]
    decide +kernel
  obtain ⟨k0, booted, check⟩ := Option.bind_eq_some_iff.mp check
  obtain ⟨s, exec, check⟩ := Option.bind_eq_some_iff.mp check
  obtain ⟨s', last, check⟩ := Option.map_eq_some_iff.mp check
  simp only [Prod.mk.injEq] at check
  obtain ⟨current, refs, next, came⟩ := check
  have start : Run sending SendsPages (k0, fun _ => none) touchedRun s := by
    refine Run.of_exec (fun op mem t => ?_) exec
    simp only [touchedRun, List.mem_cons, List.not_mem_nil, or_false] at mem
    rcases mem with rfl | rfl | rfl | rfl | rfl | rfl
    · exact .other (fun page inside => by cases inside) (fun _ _ _ _ eq => by cases eq) fun memory => memory
    · exact .other (fun page inside => by cases inside) (fun _ _ _ _ eq => by cases eq) fun memory => memory
    · exact .other trivial (fun _ _ _ _ eq => by cases eq) fun memory => memory
    · exact .other trivial (fun _ _ _ _ eq => by cases eq) fun memory => memory
    · exact .other trivial (fun _ _ _ _ eq => by cases eq) fun memory => memory
    · exact .other trivial (fun _ _ _ _ eq => by cases eq) fun memory => memory
  have room : TlbGuard s.1 sendPage := by
    refine ⟨(by decide : FlagBits pteD), fun cur e running accepts _ _ _ => ?_⟩
    obtain rfl := Option.some.inj (current.symm.trans running)
    rw [refs]
    decide
  obtain ⟨mid, sent, last⟩ := Option.bind_eq_some_iff.mp last
  obtain ⟨_, yielded, last⟩ := Option.bind_eq_some_iff.mp last
  cases last
  have sends : SendsPages s sendPage := .other room (fun _ _ _ _ eq => by cases eq) fun memory => memory
  have yields : SendsPages mid (.call .yield) := .other trivial (fun _ _ _ _ eq => by cases eq) fun memory => memory
  have run := (start.snoc sends sent).snoc yields yielded
  rw [List.append_assoc] at run
  exact ⟨k0, s', booted, run, next, came, ipcPerm_tells (by decide) booted run⟩

set_option maxRecDepth 100000 in
theorem ipcPerm_set_without_page : ∃ k0 s, clearBoot = some k0 ∧
    Run sending (fun _ _ => True) (k0, fun _ => none) sendRun s ∧
    s.1.curenv = some 0 ∧ s.2 0 = some none ∧ hasArgument (s.1.envs 0).envIpcPerm = true ∧ ¬ PermTells s.1 s.2 := by
  have check : (clearBoot.bind fun k0 => (Run.exec sending (k0, fun _ => none) sendRun).map fun s =>
      (s.1.curenv, s.2 0, hasArgument (s.1.envs 0).envIpcPerm)) = some (some 0, some none, true) := by
    rw [clearBoot_eq]
    decide +kernel
  obtain ⟨k0, booted, check⟩ := Option.bind_eq_some_iff.mp check
  obtain ⟨s, exec, check⟩ := Option.map_eq_some_iff.mp check
  simp only [Prod.mk.injEq] at check
  obtain ⟨current, sent, flag⟩ := check
  refine ⟨k0, s, booted, Run.of_exec (fun _ _ _ => trivial) exec, current, sent, flag, fun tells => ?_⟩
  obtain ⟨pp, page, _⟩ := (tells 0 none current sent).mp flag
  cases page

end Mos
