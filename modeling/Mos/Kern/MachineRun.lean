import Mos.Kern.VarPage
import Mos.Kern.Writable
import Mos.Kern.Resume

namespace Mos

/-- The references to the pages that the kernel writes to for `e`: those mapped in it and its variables. -/
def Ref.Of (e : EnvPtr) : Ref → Prop
  | .pte b _ _ => b = e
  | .vars b => b = e
  | _ => False

def Env.Tuned (a b : Env) : Prop :=
  b = { a with envTf := b.envTf, envUserTlbModEntry := b.envUserTlbModEntry, envCwd := b.envCwd }

/-- What the calls of the user table and the stores are made of: a frame to go on with, fields of an env that the current
    one controls, and new contents of a page of the current env. -/
inductive Serve (cur : EnvPtr) (k : Kernel) : Kernel → Prop where
  | frame (tf : Trapframe) : Serve cur k { k with tf := tf }
  | tune {e : EnvPtr} {f : Env → Env} (controls : k.table.Controls cur e) (fields : (k.envs e).Tuned (f (k.envs e))) :
      Serve cur k (k.updateEnv e f)
  | write {r : Ref} {q : Nat} (words : Nat → Word) (mine : r.Of cur) (full : target (rootsOf k) k.vm r = some q) :
      Serve cur k (putVars k q words)

abbrev Serves (cur : EnvPtr) : Kernel → Kernel → Prop := Relation.ReflTransGen (Serve cur)

/-- The state of the machine in its runs: the env table, the page tables and the pages of variables. -/
structure MachineInv (k : Kernel) : Prop where
  env : EnvInv k
  table : k.table.WellFormed
  vars : VarPages k
  pages : ∃ managed, PageInv managed k ∧ TlbInv managed k

variable {managed : Nat → Prop} {k k' mid : Kernel} {cur e b : EnvPtr} {load : Load} {tf : Trapframe} {out : Outside}

theorem Env.Tuned.refl (a : Env) : a.Tuned a := rfl

namespace Serve

theorem envs (serve : Serve cur k k') (b : EnvPtr) : (k.envs b).Tuned (k'.envs b) := by
  cases serve with
  | frame tf => exact .refl _
  | @tune e f _ fields =>
    by_cases same : b = e
    · subst same
      simpa [Kernel.updateEnv] using fields
    · simpa [Kernel.updateEnv, same] using Env.Tuned.refl (k.envs b)
  | write words mine full => exact .refl _

theorem curenv (serve : Serve cur k k') : k'.curenv = k.curenv := by cases serve <;> rfl

theorem space (serve : Serve cur k k') : k'.curPgdir = k.curPgdir ∧ k'.basePgdir = k.basePgdir := by
  cases serve <;> exact ⟨rfl, rfl⟩

theorem slots (serve : Serve cur k k') (b : EnvPtr) : (k'.envs b).slot = (k.envs b).slot := by
  rw [serve.envs b]
  rfl

theorem table (serve : Serve cur k k') : k'.table = k.table := by
  have slots := funext serve.slots
  cases serve <;> simp only [Kernel.table, Table.mk.injEq] <;> exact ⟨slots, rfl, rfl, rfl⟩

theorem roots (serve : Serve cur k k') : rootsOf k' = rootsOf k := by
  refine rootsOf_congr fun b => ?_
  rw [serve.envs b]
  exact ⟨Iff.rfl, rfl, rfl⟩

theorem vm (serve : Serve cur k k') : k'.vm = k.vm ∨ ∃ (r : Ref) (q : Nat) (words : Nat → Word), r.Of cur ∧
    target (rootsOf k) k.vm r = some q ∧ k'.vm = { k.vm with mem := Function.update k.vm.mem q words } := by
  cases serve with
  | frame tf => exact .inl rfl
  | tune controls fields => exact .inl rfl
  | @write r q words mine full => exact .inr ⟨r, q, words, mine, full, rfl⟩

end Serve

theorem Ref.Of.notTable {r : Ref} {q : Nat} {base : Nat} {roots : Roots} {vm : Vm} (mine : r.Of cur)
    (pages : Pages managed base roots vm) (full : target roots vm r = some q) :
    ∀ r', r'.Table → target roots vm r' ≠ some q := by
  intro r' kind there
  obtain rfl := pages.sole r' r q kind there full
  cases r with
  | pgdir e => exact mine
  | pde e i => exact mine
  | pte e i j => exact kind
  | vars e => exact kind

theorem Serve.pages (serve : Serve cur k k') (pages : PageInv managed k) (inv : TlbInv managed k) :
    PageInv managed k' ∧ TlbInv managed k' := by
  obtain ⟨pgdir, base⟩ := serve.space
  have dirs : ∀ b, k'.curenv = some b → k'.curPgdir = (k'.envs b).envPgdir := by
    intro b current
    rw [pgdir, serve.envs b]
    exact pages.space b (serve.curenv ▸ current)
  have dst : ∀ b, (k'.envs b).envIpcDstva < utop := by
    intro b
    rw [serve.envs b]
    exact pages.dst b
  have asids : ∀ b, (k'.envs b).envAsid = (k.envs b).envAsid := fun b => congrArg Slot.asid (serve.slots b)
  rcases serve.vm with vm | ⟨r, q, words, mine, full, vm⟩
  · refine ⟨⟨?_, dirs, dst⟩, inv.keep vm serve.roots asids base⟩
    rw [base, serve.roots, vm]
    exact pages.pages
  · have notTable := mine.notTable pages.pages full
    have owned := pages.pages.owned r q full
    have moves : Moves managed (rootsOf k) cur (asidWord (k.envs cur).envAsid) (fun _ => False) k.vm k'.vm :=
      .contents pages.pages inv.template owned notTable (by rw [vm]) fun t there => by rwa [vm] at there
    refine ⟨⟨?_, dirs, dst⟩, inv.moves pages.pages moves serve.roots asids base⟩
    rw [base, serve.roots, vm]
    exact pages.pages.setContents owned notTable

theorem Serve.target (serve : Serve cur k k') (pages : PageInv managed k) :
    target (rootsOf k') k'.vm = target (rootsOf k) k.vm := by
  rw [serve.roots]
  rcases serve.vm with vm | ⟨r, q, words, mine, full, vm⟩
  · rw [vm]
  · refine target_congr fun r' p kind there => ?_
    have other : p ≠ q := fun eq => mine.notTable pages.pages full r' kind (eq ▸ there)
    rw [vm]
    exact Function.update_of_ne other _ _

theorem Serve.inv (serve : Serve cur k k') (inv : MachineInv k) : MachineInv k' := by
  obtain ⟨managed, pages, tlb⟩ := inv.pages
  have list : k'.envFreeList = k.envFreeList := congrArg Table.freeList serve.table
  refine ⟨inv.env.same serve.curenv list fun e => congrArg Slot.status (serve.slots e), serve.table ▸ inv.table,
    fun b v full => ?_, managed, serve.pages pages tlb⟩
  rw [serve.target pages] at full
  have page := inv.vars b v full
  refine ⟨by rwa [serve.target pages], ?_⟩
  rcases serve.vm with vm | ⟨_, _, _, _, _, vm⟩ <;> rw [vm] <;> exact page.once

theorem Serves.inv (serves : Serves cur k k') (inv : MachineInv k) : MachineInv k' ∧ k'.curenv = k.curenv := by
  induction serves with
  | refl => exact ⟨inv, rfl⟩
  | tail _ serve ih => exact ⟨serve.inv ih.1, serve.curenv.trans ih.2⟩

section Calls

theorem userTable_serves {call : UserCall} (used : (k.envs cur).envStatus ≠ .free)
    (h : (userTable cur load call k).state = some k') : Serves cur k k' := by
  cases userTable_served h with
  | same => exact .refl
  | own envid tf => exact .single (.frame _)
  | given tf found => exact .single (.tune (envid2env_self found rfl) rfl)
  | entry func found => exact .single (.tune (envid2env_self found rfl) rfl)
  | cwd userPath path => exact .single (.tune (.inl rfl) rfl)
  | @vars _ changes v words has =>
    have full : target (rootsOf k) k.vm (.vars cur) = some v := by simp [target, rootsOf_used used, has]
    exact .single (.write (r := .vars cur) words rfl full)

theorem userTable_user {call : UserCall} {r : Word} {stores : List Store} {s : Store}
    (h : userTable cur load call k = .ok (r, stores) k') (inside : s ∈ stores) : s.1 < utop := by
  cases call with
  | readDev va pa len data => exact (fills_user (.readDev va pa len data) h inside).2
  | getcwd buf len => exact (fills_user (.getcwd buf len) h inside).2
  | getVar userName userBuf => exact (fills_user (.getVar userName userBuf) h inside).2
  | getVarByIndex index userBuf => exact (fills_user (.getVarByIndex index userBuf) h inside).2
  | putchar c v0 => cases h; cases inside
  | getenvid => cases h; cases inside
  | panic msg => cases h
  | cgetc ch => cases h; cases inside
  | printCons s num =>
    dsimp only [userTable, sysPrintCons] at h
    split at h <;> cases h
    cases inside
  | setTlbModEntry envid func =>
    dsimp only [userTable, sysSetTlbModEntry, tryTarget] at h
    split at h <;> cases h
    cases inside
  | setTrapframe envid frame =>
    rcases sysSetTrapframe_cases cur load envid frame k with ⟨code, same⟩ | ⟨_, _, same⟩ | ⟨e, _, _, _, same⟩
    all_goals cases (show sysSetTrapframe cur load envid frame k = _ from h).symm.trans same
    all_goals cases inside
  | writeDev va pa len =>
    dsimp only [userTable, sysWriteDev, devAccess] at h
    split_ifs at h
    cases h
    cases inside
  | chdir userPath =>
    dsimp only [userTable, sysChdir, tryCopy] at h
    split at h
    · split at h <;> cases h
      cases inside
    · cases h
  | setVar userName userValue flags =>
    dsimp only [userTable, sysSetVar, tryCopy] at h
    split at h
    · split at h
      · obtain ⟨vars, h⟩ := withVars_ok h
        split at h <;> split at h <;> cases h <;> cases inside
      · cases h
    · cases h
  | unsetVar userName =>
    dsimp only [userTable, sysUnsetVar, tryCopy] at h
    split at h
    · obtain ⟨vars, h⟩ := withVars_ok h
      split at h
      · cases h
        cases inside
      · split at h <;> cases h
        cases inside
    · cases h

end Calls

section Stores

variable {stores : List Store} {va pte : Word}

theorem translate_leaf (inv : MachineInv k) (current : k.curenv = some cur) (user : va < utop)
    (seen : translate k.vm (k.envs cur).envPgdir va = some pte) : leaf (rootsOf k) k.vm cur (vpageOf va) = some pte := by
  obtain ⟨managed, pages, _⟩ := inv.pages
  have own := pdx_user user
  have found := rootsOf_used (inv.env.current_used current)
  unfold translate at seen
  split at seen
  · cases seen
  · rename_i mapped
    cases seen
    obtain ⟨present, valid⟩ := not_or.mp mapped
    have table : tableOf (rootsOf k) k.vm cur (pdxFin va) = some (ppn (pdeOf k.vm (k.envs cur).envPgdir va)) := by
      rw [tableOf_found found, entry, pageOf_some]
      exact ⟨(pages.pages.whole cur _ (pdxFin va) found own).resolve_left present, rfl⟩
    rw [vpageOf, leaf_table table]
    exact leafOf_some.mpr valid

theorem translate_target (inv : MachineInv k) (current : k.curenv = some cur) (user : va < utop)
    (seen : translate k.vm (k.envs cur).envPgdir va = some pte) :
    target (rootsOf k) k.vm (.pte cur (pdxFin va) (ptxFin va)) = some (ppn pte) := by
  rw [target_leaf (pdx_user user), Option.map_eq_some_iff]
  exact ⟨pte, translate_leaf inv current user seen, rfl⟩

theorem storeBytes_serves (inv : MachineInv k) (current : k.curenv = some cur) (user : ∀ s ∈ stores, s.1 < utop)
    (h : storeBytes cur stores k = some k') : Serves cur k k' := by
  induction stores generalizing k with
  | nil =>
    cases h
    exact .refl
  | cons store rest ih =>
    obtain ⟨va, byte⟩ := store
    obtain ⟨pte, seen, h⟩ := Option.bind_eq_some_iff.mp h
    split at h
    · cases h
    · have full := translate_target inv current (user (va, byte) List.mem_cons_self) seen
      have serve : Serve cur k (putVars k (ppn pte) (setByte (k.vm.mem (ppn pte)) (va.toNat % 4096) byte)) :=
        .write (r := .pte cur _ _) _ rfl full
      exact .head serve (ih (serve.inv inv) current (fun s inside => user s (List.mem_cons_of_mem _ inside)) h)

theorem exceptionStack_user (top : Word) {s : Store} {bytes : List (BitVec 8)} (short : bytes.length ≤ trapframeSize)
    (inside : s ∈ copyOut ((if top < ustacktop ∨ uxstacktop ≤ top then uxstacktop else top) -
      BitVec.ofNat 32 trapframeSize) bytes) : s.1 < utop := by
  obtain ⟨i, small, address⟩ := copyOut_address inside
  have size : trapframeSize = 152 := rfl
  have limits : ustacktop.toNat = 0x7f3fe000 ∧ uxstacktop.toNat = 0x7f400000 ∧ utop.toNat = 0x7f400000 := by decide
  have fits : i < 152 := lt_of_lt_of_le small short
  rw [address, BitVec.lt_def, BitVec.toNat_add, BitVec.toNat_sub, BitVec.toNat_ofNat, BitVec.toNat_ofNat, size]
  split
  · omega
  · rename_i inside
    simp only [BitVec.lt_def, BitVec.le_def, not_or, not_lt, not_le] at inside
    omega

theorem words_length (tf : Trapframe) : (tf.words.flatMap wordBytes).length ≤ trapframeSize := by
  have each : ∀ w ∈ tf.words, (wordBytes w).length = 4 := fun w _ => rfl
  rw [List.length_flatMap, List.map_congr_left each, List.map_const', List.sum_replicate]
  simp [Trapframe.words, trapframeSize]

theorem frameStores_user (tf : Trapframe) {s : Store} (inside : s ∈ frameStores tf) : s.1 < utop :=
  exceptionStack_user (tf.regs 29) (words_length tf) inside

theorem storesUntilMod_serves (inv : MachineInv k) (current : k.curenv = some cur) (user : ∀ s ∈ stores, s.1 < utop)
    (h : storesUntilMod cur stores k = some k') : Serves cur k k' := by
  induction stores generalizing k with
  | nil => cases h
  | cons s rest ih =>
    obtain ⟨pte, -, h⟩ := Option.bind_eq_some_iff.mp h
    split at h
    · cases h
      exact .refl
    · obtain ⟨mid, stored, h⟩ := Option.bind_eq_some_iff.mp h
      have first : Serves cur k mid := storeBytes_serves inv current
        (fun t inside => List.mem_singleton.mp inside ▸ user s List.mem_cons_self) stored
      obtain ⟨invMid, same⟩ := first.inv inv
      exact first.trans (ih invMid (same.trans current) (fun t inside => user t (List.mem_cons_of_mem _ inside)) h)

theorem doTlbMod_serves (inv : MachineInv k) (current : k.curenv = some cur) (h : doTlbMod cur tf k = some k') :
    Serves cur k k' := by
  dsimp only [doTlbMod] at h
  split at h
  · cases h
  · obtain ⟨mid, stored, rfl⟩ := Option.map_eq_some_iff.mp h
    exact .tail (storeBytes_serves inv current (fun s inside => frameStores_user tf inside) stored) (.frame _)

theorem pendingStores_some {out : Option Outside} (h : pendingStores cur tf k out = some (stores, mid)) :
    (mid = k ∧ stores = frameStores tf) ∨ ∃ load call r, userTable cur load call (k.trap tf) = .ok (r, stores) mid := by
  cases out with
  | none =>
    simp only [pendingStores] at h
    split at h
    · cases h
    · cases h
      exact .inl ⟨rfl, rfl⟩
  | some out =>
    simp only [pendingStores] at h
    split at h
    · cases h
    · split at h
      · split at h
        · rename_i ran
          cases h
          exact .inr ⟨_, _, _, ran⟩
        · cases h
      · cases h

theorem pendingStores_user {out : Option Outside} (h : pendingStores cur tf k out = some (stores, mid)) :
    ∀ s ∈ stores, s.1 < utop := by
  rcases pendingStores_some h with ⟨_, rfl⟩ | ⟨_, _, _, ran⟩
  · exact fun s inside => frameStores_user tf inside
  · exact fun s inside => userTable_user ran inside

theorem pendingStores_serves {out : Option Outside} (inv : MachineInv k) (current : k.curenv = some cur)
    (h : pendingStores cur tf k out = some (stores, mid)) : Serves cur k mid := by
  rcases pendingStores_some h with ⟨rfl, _⟩ | ⟨_, _, _, ran⟩
  · exact .refl
  · have used : ((k.trap tf).envs cur).envStatus ≠ .free := inv.env.current_used current
    exact .head (.frame _) (userTable_serves used (congrArg Result.state ran))

theorem kernelMod_serves {out : Option Outside} {inner : Trapframe} (inv : MachineInv k) (current : k.curenv = some cur)
    (h : kernelMod cur tf out inner k = some k') : Serves cur k k' := by
  unfold kernelMod at h
  split at h
  · cases h
  · obtain ⟨⟨stores, mid⟩, pending, h⟩ := Option.bind_eq_some_iff.mp h
    obtain ⟨fault, stored, h⟩ := Option.bind_eq_some_iff.mp h
    have first := pendingStores_serves inv current pending
    obtain ⟨invMid, same⟩ := first.inv inv
    have second := storesUntilMod_serves invMid (same.trans current) (pendingStores_user pending) stored
    obtain ⟨invFault, same'⟩ := second.inv invMid
    exact first.trans (second.trans (doTlbMod_serves invFault (same'.trans (same.trans current)) h))

theorem userCall_serves {call : UserCall} (inv : MachineInv k) (current : k.curenv = some cur)
    (entry : syscallAt (Args.of tf out.load) out (tf.regs 4).toNat = some (.inr call))
    (valid : ¬ ((tf.regs 4).toInt < 0 ∨ maxSysno ≤ (tf.regs 4).toInt)) (h : doAnySyscall cur tf out k = some k') :
    Serves cur k k' := by
  unfold doAnySyscall at h
  rw [if_neg valid, entry] at h
  dsimp only at h
  have trapped : Serve cur k (k.trap tf) := .frame _
  have used : ((k.trap tf).envs cur).envStatus ≠ .free := inv.env.current_used current
  split at h
  · rename_i r stores mid ran
    obtain ⟨last, stored, rfl⟩ := Option.map_eq_some_iff.mp h
    have served : Serves cur k mid := .head trapped (userTable_serves used (congrArg Result.state ran))
    obtain ⟨invMid, same⟩ := served.inv inv
    exact (served.trans (storeBytes_serves invMid (same.trans current) (fun s inside => userTable_user ran inside)
      stored)).tail (.frame _)
  · rename_i r mid ran
    cases h
    exact (Relation.ReflTransGen.head trapped (userTable_serves used (congrArg Result.state ran))).tail (.frame _)
  · cases h

theorem doAnySyscall_cases (inv : MachineInv k) (current : k.curenv = some cur) (h : doAnySyscall cur tf out k = some k') :
    (∃ call, syscallAt (Args.of tf out.load) out (tf.regs 4).toNat = some (.inl call) ∧ doSyscall cur tf call k = some k') ∨
      Serves cur k k' := by
  by_cases valid : (tf.regs 4).toInt < 0 ∨ maxSysno ≤ (tf.regs 4).toInt
  · rw [doAnySyscall, if_pos valid] at h
    cases h
    exact .inr (.single (.frame _))
  · cases entry : syscallAt (Args.of tf out.load) out (tf.regs 4).toNat with
    | none =>
      rw [doAnySyscall, if_neg valid, entry] at h
      cases h
    | some call =>
      cases call with
      | inl call =>
        rw [doAnySyscall, if_neg valid, entry] at h
        exact .inl ⟨call, rfl, h⟩
      | inr call => exact .inr (userCall_serves inv current entry valid h)

end Stores

/-- The condition on a step: that of `TlbGuard` for the calls of `Call` and `env_create`, and an env stores below `UTOP`,
    where its pages are. -/
def MachineGuard (k : Kernel) : MachineOp → Prop
  | .syscall tf out => ∀ call, syscallAt (Args.of tf out.load) out (tf.regs 4).toNat = some (.inl call) →
      TlbGuard k (.syscall tf call)
  | .store va _ => va < utop
  | .envCreate binary priority => TlbGuard k (.envCreate binary priority)
  | _ => True

theorem MachineInv.step {op : Op} (inv : MachineInv k) (meets : TlbGuard k op) (h : step k op = some k') : MachineInv k' := by
  obtain ⟨managed, pages, tlb⟩ := inv.pages
  exact ⟨step_envInv inv.env h, step_wellFormed inv.env inv.table h,
    (step_varStep pages tlb inv.env inv.table inv.vars meets h).pages inv.vars, step_tlb tlb pages inv.env inv.table meets h⟩

theorem machineStep_cases {op : MachineOp} (inv : MachineInv k) (meets : MachineGuard k op) (h : machineStep k op = some k') :
    (∃ op, TlbGuard k op ∧ step k op = some k') ∨ ∃ cur, Serves cur k k' := by
  cases op with
  | timer tf => exact .inl ⟨.timer tf, trivial, h⟩
  | tlbRefill va victim => exact .inl ⟨.tlbRefill va victim, trivial, h⟩
  | envCreate binary priority => exact .inl ⟨.envCreate binary priority, meets, h⟩
  | store va byte =>
    obtain ⟨cur, current, h⟩ := Option.bind_eq_some_iff.mp h
    have user : ∀ s ∈ [(va, byte)], s.1 < utop := by
      intro s inside
      rw [List.mem_singleton.mp inside]
      exact meets
    exact .inr ⟨cur, storeBytes_serves inv current user h⟩
  | tlbMod tf =>
    obtain ⟨cur, current, h⟩ := Option.bind_eq_some_iff.mp h
    exact .inr ⟨cur, doTlbMod_serves inv current h⟩
  | kernelMod tf out inner =>
    obtain ⟨cur, current, h⟩ := Option.bind_eq_some_iff.mp h
    exact .inr ⟨cur, kernelMod_serves inv current h⟩
  | syscall tf out =>
    obtain ⟨cur, current, h⟩ := Option.bind_eq_some_iff.mp h
    rcases doAnySyscall_cases inv current h with ⟨call, entry, h⟩ | serves
    · refine .inl ⟨.syscall tf call, meets call entry, ?_⟩
      rw [Mos.step, current]
      exact h
    · exact .inr ⟨cur, serves⟩

theorem machineStep_inv {op : MachineOp} (inv : MachineInv k) (meets : MachineGuard k op)
    (h : machineStep k op = some k') : MachineInv k' := by
  rcases machineStep_cases inv meets h with ⟨op, meets, h⟩ | ⟨cur, serves⟩
  · exact inv.step meets h
  · exact (serves.inv inv).1

theorem boot_machineInv {npage : Nat} {mem : Nat → Nat → Word} (small : npage ≤ 2^20) (booted : boot npage mem = some k) :
    MachineInv k :=
  ⟨boot_envInv booted, boot_wellFormed booted, boot_varPages booted, Managed k, boot_pages small booted,
    boot_tlb small booted⟩

theorem machineRun_inv {npage : Nat} {mem : Nat → Nat → Word} {k0 : Kernel} {ops : List MachineOp} (small : npage ≤ 2^20)
    (booted : boot npage mem = some k0) (run : Run machineStep MachineGuard k0 ops k) : MachineInv k :=
  run.invariant MachineInv (boot_machineInv small booted) fun _ _ _ inv meets next => machineStep_inv inv meets next

end Mos
