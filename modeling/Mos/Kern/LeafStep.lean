import Mos.Kern.TlbRun

namespace Mos

abbrev LeafRel := EnvPtr → VPage → Option Word → Option Word → Prop

structure LeafRel.Order (R : LeafRel) : Prop where
  refl : ∀ b s x, R b s x x
  trans : ∀ {b s x y z}, R b s x y → R b s y z → R b s x z

/-- The user translations of all envs change as `R` says. -/
def Leaves (R : LeafRel) (before after : EnvPtr → VPage → Option Word) : Prop :=
  ∀ b s, ¬ Shared s.1 → R b s (before b s) (after b s)

/-- The places that a step may leave without a translation: `page_insert` removes what it finds. -/
inductive Clears (k : Kernel) : Op → EnvPtr → VPage → Prop where
  | memAlloc {tf : Trapframe} {cur e : EnvPtr} {envid va perm : Word} (current : k.curenv = some cur)
      (env : envid2env k cur envid true = .ok e) : Clears k (.syscall tf (.memAlloc envid va perm)) e (vpageOf va)
  | memMap {tf : Trapframe} {cur e : EnvPtr} {srcid srcva dstid dstva perm : Word} (current : k.curenv = some cur)
      (env : envid2env k cur dstid true = .ok e) : Clears k (.syscall tf (.memMap srcid srcva dstid dstva perm)) e (vpageOf dstva)
  | memUnmap {tf : Trapframe} {cur e : EnvPtr} {envid va : Word} (current : k.curenv = some cur)
      (env : envid2env k cur envid true = .ok e) : Clears k (.syscall tf (.memUnmap envid va)) e (vpageOf va)
  | ipcTrySend {tf : Trapframe} {cur e : EnvPtr} {envid value srcva perm : Word} (current : k.curenv = some cur)
      (accepts : Accepts k cur envid srcva e) (sends : srcva ≠ 0) :
      Clears k (.syscall tf (.ipcTrySend envid value srcva perm)) e (vpageOf (k.envs e).envIpcDstva)
  | envDestroy {tf : Trapframe} {cur e : EnvPtr} {envid status : Word} (s : VPage) (current : k.curenv = some cur)
      (reaps : Reaps k cur envid e) : Clears k (.syscall tf (.envDestroy envid status)) e s

/-- The places that a step may give a translation by its arguments. -/
inductive Maps (k : Kernel) : Op → EnvPtr → VPage → Word → Prop where
  | memAlloc {tf : Trapframe} {cur e : EnvPtr} {envid va perm : Word} (current : k.curenv = some cur)
      (env : envid2env k cur envid true = .ok e) : Maps k (.syscall tf (.memAlloc envid va perm)) e (vpageOf va) perm
  | memMap {tf : Trapframe} {cur e : EnvPtr} {srcid srcva dstid dstva perm : Word} (current : k.curenv = some cur)
      (env : envid2env k cur dstid true = .ok e) :
      Maps k (.syscall tf (.memMap srcid srcva dstid dstva perm)) e (vpageOf dstva) perm
  | ipcTrySend {tf : Trapframe} {cur e : EnvPtr} {envid value srcva perm : Word} (current : k.curenv = some cur)
      (accepts : Accepts k cur envid srcva e) (sends : srcva ≠ 0) :
      Maps k (.syscall tf (.ipcTrySend envid value srcva perm)) e (vpageOf (k.envs e).envIpcDstva) perm
  | envCreate {binary : Binary} {priority : Word} {e : EnvPtr} {page : IcodePage} (free : (k.envs e).envStatus = .free)
      (mem : page ∈ binary.pages) : Maps k (.envCreate binary priority) e (vpageOf page.va) page.perm

variable {R : LeafRel} {before mid after : EnvPtr → VPage → Option Word}
variable {managed : Nat → Prop} {base : Nat} {roots : Roots} {vm vm' : Vm} {k k' kmid : Kernel}
variable {e b cur : EnvPtr} {root : Root} {pp : Nat} {asid va perm : Word} {may : VPage → Prop} {u : Unit}

theorem Leaves.refl (order : R.Order) (table : EnvPtr → VPage → Option Word) : Leaves R table table :=
  fun b s _ => order.refl b s _

theorem Leaves.trans (order : R.Order) (first : Leaves R before mid) (second : Leaves R mid after) : Leaves R before after :=
  fun b s own => order.trans (first b s own) (second b s own)

theorem shared_window : Shared windowFin := ⟨by decide, le_refl _⟩

theorem Moves.leaves (order : R.Order) (moves : Moves managed roots e asid may vm vm')
    (inside : ∀ s, ¬ Shared s.1 → may s → R e s (leaf roots vm e s) (leaf roots vm' e s)) :
    Leaves R (leaf roots vm) (leaf roots vm') := by
  intro b s own
  by_cases same : b = e
  · subst same
    by_cases changes : may s
    · exact inside s own changes
    · rw [moves.own.outside changes]
      exact order.refl b s _
  · rw [moves.others b same]
    exact order.refl b s _

theorem Moves.leaves_none (order : R.Order) (moves : Moves managed roots e asid (fun _ => False) vm vm') :
    Leaves R (leaf roots vm) (leaf roots vm') := moves.leaves order fun _ _ none => none.elim

theorem Moves.leaves_near (order : R.Order) (moves : Moves managed roots e asid (Near va) vm vm')
    (here : R e (vpageOf va) (leaf roots vm e (vpageOf va)) (leaf roots vm' e (vpageOf va))) :
    Leaves R (leaf roots vm) (leaf roots vm') := by
  refine moves.leaves order fun s own near => ?_
  rcases near with rfl | rfl
  · exact here
  · exact absurd shared_window own

theorem pageRemove_leaves (order : R.Order) (pages : Pages managed base roots vm) (template : Template managed base roots vm)
    (found : roots e = some root) (own : ¬ Shared (pdxFin va)) (clears : ∀ x, R e (vpageOf va) x none)
    (h : pageRemove vm root.pgdir asid va = .ok u vm') : Leaves R (leaf roots vm) (leaf roots vm') := by
  obtain ⟨moves, gone⟩ : Moves managed roots e asid (Near va) vm vm' ∧ leaf roots vm' e (vpageOf va) = none :=
    pageRemove_moves pages template found own (Or.inl rfl) h
  refine moves.leaves_near order ?_
  rw [gone]
  exact clears _

theorem pageInsert_leaves (order : R.Order) (pages : Pages managed base roots vm) (template : Template managed base roots vm)
    (found : roots e = some root) (own : ¬ Shared (pdxFin va))
    (maps : R e (vpageOf va) (leaf roots vm e (vpageOf va)) (some (pteOf pp perm)))
    (h : pageInsert vm root.pgdir asid pp va perm = .ok u vm') : Leaves R (leaf roots vm) (leaf roots vm') := by
  obtain ⟨moves, here⟩ := pageInsert_moves pages template found own (fun _ near => near) h
  refine moves.leaves_near order ?_
  rw [here]
  exact maps

theorem pageInsert_state_leaves (order : R.Order) (pages : Pages managed base roots vm)
    (template : Template managed base roots vm) (found : roots e = some root) (own : ¬ Shared (pdxFin va))
    (clears : ∀ x, R e (vpageOf va) x none) (maps : ∀ x, R e (vpageOf va) x (some (pteOf pp perm)))
    (h : (pageInsert vm root.pgdir asid pp va perm).state = some vm') : Leaves R (leaf roots vm) (leaf roots vm') := by
  rcases pageInsert_state_cases h with inserted | ⟨mid, before, rfl⟩
  · exact pageInsert_leaves order pages template found own (maps _) inserted
  · have flushed : leaf roots (tlbInvalidate mid asid va) = leaf roots mid := leaf_of_mem rfl
    rw [flushed]
    rcases before with rfl | remove
    · exact .refl order _
    · exact pageRemove_leaves order pages template found own clears remove

theorem passiveAlloc_leaves (order : R.Order) (refills : ∀ s pp, R e s none (some (pteOf pp pteD)))
    (pages : Pages managed base roots vm) (template : Template managed base roots vm) (found : roots e = some root)
    (no : NoPage vm root.pgdir va) (h : passiveAlloc va root.pgdir asid vm = .ok u vm') :
    Leaves R (leaf roots vm) (leaf roots vm') := by
  obtain ⟨pp, mid, alloc, insert⟩ := passiveAlloc_ok h
  obtain ⟨pagesMid, _, fresh, zero, _⟩ := pages.alloc alloc
  have taken : Moves managed roots e asid (fun _ => False) vm mid := pageAlloc_moves pages template alloc
  have first := taken.leaves_none order
  have template' := taken.template pages template
  rcases insert with ⟨window, insert⟩ | ⟨user, insert⟩
  · obtain ⟨index, none⟩ := pages.passive_window found no alloc window
    have moves : Moves managed roots e asid (fun s => s.1 = windowFin) mid vm' :=
      insertTable_moves pagesMid template' found index fresh zero none rfl insert
    refine first.trans order (moves.leaves order fun s own window => absurd ?_ own)
    rw [window]
    exact shared_window
  · have own : ¬ Shared (pdxFin va) := pdx_user user
    have place : vpageOf (pteAddr va) = vpageOf va := Prod.ext (pdxFin_pteAddr va) (Fin.ext (ptx_pteAddr va))
    have empty := pages.noPage found own no
    rw [target_leaf own, Option.map_eq_none_iff] at empty
    have still : leaf roots mid e (vpageOf (pteAddr va)) = none := by
      rw [place, taken.own.outside (fun none => none)]
      exact empty
    refine first.trans order (pageInsert_leaves order pagesMid template' found ?_ ?_ insert)
    · rwa [pdxFin_pteAddr]
    · rw [still]
      exact refills _ pp

theorem refillLookup_leaves (order : R.Order) (refills : ∀ s pp, R e s none (some (pteOf pp pteD))) {pte : PtePtr}
    {fuel : Nat} (pages : Pages managed base roots vm) (template : Template managed base roots vm) (found : roots e = some root)
    (h : refillLookup va root.pgdir asid fuel vm = .ok pte vm') : Leaves R (leaf roots vm) (leaf roots vm') := by
  induction fuel generalizing vm with
  | zero => cases h
  | succ fuel ih =>
    obtain ⟨at_, mid, lookup, h⟩ := Result.bind_ok h
    obtain ⟨rfl, ⟨no, rfl⟩ | ⟨has, rfl⟩⟩ := pageLookup_ok lookup
    · obtain ⟨_, left, passive, h⟩ := Result.bind_ok h
      have kept := (passiveAlloc_moves pages template found no passive).template pages template
      exact (passiveAlloc_leaves order refills pages template found no passive).trans order
        (ih (pages.passive found no passive) kept h)
    · cases h
      exact .refl order _

theorem doTlbRefill_leaves (order : R.Order) (refills : ∀ s pp, R e s none (some (pteOf pp pteD))) {victim : Nat}
    (pages : Pages managed base roots vm) (template : Template managed base roots vm)
    (found : roots e = some root) (h : doTlbRefill va root.pgdir asid victim vm = .ok u vm') :
    Leaves R (leaf roots vm) (leaf roots vm') := by
  obtain ⟨pte, mid, lookup, h⟩ := Result.bind_ok h
  cases h
  have start : Moves managed roots e asid (fun _ => False) vm (tlbInvalidate vm asid va) := .flush vm va
  have walked := refillLookup_leaves order refills (pages.tlb asid va) (start.template pages template) found lookup
  exact (start.leaves_none order).trans order walked

theorem loadPages_leaves (order : R.Order) {list : List IcodePage} (pages : Pages managed base roots vm)
    (template : Template managed base roots vm) (found : roots e = some root)
    (legal : ∀ page ∈ list, page.va < utop ∧ FlagBits page.perm)
    (maps : ∀ page ∈ list, ∀ x pp, R e (vpageOf page.va) x (some (pteOf pp page.perm)))
    (h : loadPages root.pgdir asid list vm = .ok u vm') : Leaves R (leaf roots vm) (leaf roots vm') := by
  induction list generalizing vm with
  | nil =>
    cases h
    exact .refl order _
  | cons page rest ih =>
    obtain ⟨_, mid, first, h⟩ := Result.bind_ok h
    obtain ⟨user, flags⟩ := legal page List.mem_cons_self
    obtain ⟨p, filled, pagesMid, moves, _, insert⟩ :=
      loadIcodeMapper_insert (e := e) (fun _ => False) pages template first
    have step := (moves.leaves_none order).trans order (pageInsert_leaves order pagesMid (moves.template pages template) found
      (pdx_user user) (maps page List.mem_cons_self _ p) insert)
    have kept := (loadIcodeMapper_moves pages template found user first).template pages template
    exact step.trans order (ih (pages.loadIcodeMapper found user flags first) kept
      (fun q inside => legal q (List.mem_cons_of_mem page inside))
      (fun q inside => maps q (List.mem_cons_of_mem page inside)) h)

abbrev StepLeaves (R : LeafRel) (k k' : Kernel) : Prop := Leaves R (leaf (rootsOf k) k.vm) (leaf (rootsOf k') k'.vm)

namespace StepLeaves

theorem same (order : R.Order) (roots : rootsOf k' = rootsOf k) (vm : k'.vm = k.vm) : StepLeaves R k k' := by
  rw [StepLeaves, roots, vm]
  exact .refl order _

theorem scheduled (order : R.Order) {yield : Bool} (h : schedule yield k = .ok () k') : StepLeaves R k k' := by
  obtain ⟨e, _, resumed⟩ := schedule_ok h
  refine same order (rootsOf_congr fun b => ?_) resumed.vm
  rw [resumed.envs b]
  exact ⟨Iff.rfl, rfl, rfl⟩

theorem create (order : R.Order) {p v : Nat} {vars : Option Nat}
    (pages : Pages managed k.basePgdir (rootsOf k) k.vm) (template : Template managed k.basePgdir (rootsOf k) k.vm)
    (absent : rootsOf k e = none) (space : NewSpace managed (rootsOf k) k kmid e p v) (vm : k'.vm = kmid.vm)
    (roots : rootsOf k' = Function.update (rootsOf k) e (some ⟨p, vars⟩)) : StepLeaves R k k' := by
  have outside : ∀ q, ¬ managed q → k'.vm.mem q = k.vm.mem q := by
    intro q out
    rw [vm, space.mem q (fun eq => out (eq ▸ space.mine.1)) fun eq => out (eq ▸ space.mine.2)]
  have tables : ∀ r q, r.Table → target (rootsOf k) k.vm r = some q → k'.vm.mem q = k.vm.mem q := by
    intro r q _ full
    rw [vm, space.mem q (fun eq => (space.unused r).1 (eq ▸ full)) fun eq => (space.unused r).2 (eq ▸ full)]
  rintro b ⟨i, j⟩ own
  by_cases same : b = e
  · subst same
    have found : rootsOf k' b = some ⟨p, vars⟩ := by rw [roots, Function.update_self]
    have empty : tableOf (rootsOf k') k'.vm b i = none := by
      rw [tableOf_found found, entry, vm, space.own i own]
      rfl
    have before : tableOf (rootsOf k) k.vm b i = none := by
      rw [tableOf, absent]
      rfl
    rw [leaf_none empty, leaf_none before]
    exact order.refl b _ _
  · have used : leaf (rootsOf k') k'.vm b = leaf (rootsOf k) k'.vm b := leaf_root (by rw [roots, Function.update_of_ne same])
    rw [used, leaf_congr pages template tables outside]
    exact order.refl b _ _

theorem taken (order : R.Order) {parentId : Word} (pages : Pages managed k.basePgdir (rootsOf k) k.vm)
    (template : Template managed k.basePgdir (rootsOf k) k.vm) (env : EnvInv k) (alloc : envAlloc parentId k = .ok e kmid)
    (now : (k'.envs e).envStatus ≠ .free) (others : ∀ b, b ≠ e → k'.envs b = kmid.envs b)
    (pgdir : (k'.envs e).envPgdir = (kmid.envs e).envPgdir) : StepLeaves R k (k'.putVm kmid.vm) := by
  obtain ⟨setup, list⟩ := envAlloc_ok alloc
  obtain ⟨p, v, space⟩ := envAlloc_space pages alloc
  have absent : rootsOf k e = none := env.absent e (by rw [list]; exact List.mem_cons_self)
  have others' : ∀ b, b ≠ e → k'.envs b = k.envs b := fun b ne => (others b ne).trans (setup.others b ne)
  have roots : rootsOf (k'.putVm kmid.vm) = Function.update (rootsOf k) e (some ⟨p, (k'.envs e).envVars⟩) := by
    rw [← space.dir, ← pgdir]
    exact @rootsOf_update e k (k'.putVm kmid.vm) now others'
  exact create order pages template absent space rfl roots

theorem leaks (order : R.Order) {managed' : Nat → Prop} (pages : Pages managed k.basePgdir (rootsOf k) k.vm)
    (template : Template managed k.basePgdir (rootsOf k) k.vm)
    (leaks : Leaks managed k.basePgdir (rootsOf k) k.vm k'.vm managed') (roots : rootsOf k' = rootsOf k) : StepLeaves R k k' := by
  rintro b ⟨i, j⟩ own
  rw [roots, leaf_congr pages template leaks.tables leaks.outside]
  exact order.refl b _ _

theorem free (order : R.Order) (pages : Pages managed k.basePgdir (rootsOf k) k.vm)
    (template : Template managed k.basePgdir (rootsOf k) k.vm) (used : (k.envs e).envStatus ≠ .free)
    (clears : ∀ s x, R e s x none) (h : envFree e k = .ok u k') : StepLeaves R k k' := by
  have found := rootsOf_used used
  have freed := envFree_ok h
  obtain ⟨vm1, vm2, vm3, down⟩ := envFree_teardown pages found h
  obtain ⟨_, _, others⟩ := down.others template found
  have roots : rootsOf k' = Function.update (rootsOf k) e none := rootsOf_drop (by rw [freed.env]) freed.others
  rintro b ⟨i, j⟩ own
  by_cases same : b = e
  · subst same
    have absent : tableOf (rootsOf k') k'.vm b i = none := by
      rw [tableOf, roots, Function.update_self]
      rfl
    rw [leaf_none absent]
    exact clears _ _
  · have left : leaf (rootsOf k') k'.vm b = leaf (rootsOf k) k'.vm b := leaf_root (by rw [roots, Function.update_of_ne same])
    rw [left, others b same]
    exact order.refl b _ _

end StepLeaves

section calls

variable {envid : Word}

theorem sysMemAlloc_leaves (order : R.Order) (pages : PageInv managed k)
    (template : Template managed k.basePgdir (rootsOf k) k.vm) (env : EnvInv k) (current : k.curenv = some cur)
    (clears : ∀ e, envid2env k cur envid true = .ok e → ∀ x, R e (vpageOf va) x none)
    (maps : ∀ e, envid2env k cur envid true = .ok e → ∀ x pp, R e (vpageOf va) x (some (pteOf pp perm)))
    (h : (sysMemAlloc cur envid va perm k).state = some k') : StepLeaves R k k' := by
  rcases sysMemAlloc_runs h with rfl | ⟨e, pp, vm, vm', legal, found, alloc, insert, rfl⟩
  · exact .refl order _
  · have taken : Moves managed (rootsOf k) e (asidWord (k.envs e).envAsid) (fun _ => False) k.vm vm :=
      pageAlloc_moves pages.pages template alloc
    exact (taken.leaves_none order).trans order (pageInsert_state_leaves order (pages.pages.alloc alloc).1
      (taken.template pages.pages template) (rootsOf_used (env.target_used current found)) (pdx_user (legal_user legal))
      (clears e found) (fun x => maps e found x pp) insert)

theorem sysMemMap_leaves (order : R.Order) {srcid srcva dstid dstva : Word} (pages : PageInv managed k)
    (template : Template managed k.basePgdir (rootsOf k) k.vm) (env : EnvInv k) (current : k.curenv = some cur)
    (clears : ∀ e, envid2env k cur dstid true = .ok e → ∀ x, R e (vpageOf dstva) x none)
    (maps : ∀ e, envid2env k cur dstid true = .ok e → ∀ x pp, R e (vpageOf dstva) x (some (pteOf pp perm)))
    (h : (sysMemMap cur srcid srcva dstid dstva perm k).state = some k') : StepLeaves R k k' := by
  rcases sysMemMap_runs h with rfl | ⟨_, dst, vm', _, legal, _, found, _, insert, rfl⟩
  · exact .refl order _
  · exact pageInsert_state_leaves order pages.pages template (rootsOf_used (env.target_used current found))
      (pdx_user (legal_user legal)) (clears dst found) (fun x => maps dst found x _) insert

theorem sysMemUnmap_leaves (order : R.Order) (pages : PageInv managed k)
    (template : Template managed k.basePgdir (rootsOf k) k.vm) (env : EnvInv k) (current : k.curenv = some cur)
    (clears : ∀ e, envid2env k cur envid true = .ok e → ∀ x, R e (vpageOf va) x none)
    (h : (sysMemUnmap cur envid va k).state = some k') : StepLeaves R k k' := by
  rcases sysMemUnmap_runs h with rfl | ⟨e, vm', legal, found, remove, rfl⟩
  · exact .refl order _
  · exact pageRemove_leaves order pages.pages template (rootsOf_used (env.target_used current found))
      (pdx_user (legal_user legal)) (clears e found) remove

theorem sysExofork_leaves (order : R.Order) (pages : PageInv managed k)
    (template : Template managed k.basePgdir (rootsOf k) k.vm) (env : EnvInv k)
    (h : (sysExofork cur k).state = some k') : StepLeaves R k k' := by
  rcases sysExofork_state h with ⟨code, alloc⟩ | ⟨e, mid, alloc, rfl⟩
  · obtain ⟨managed', leaks, _, roots⟩ := pages.leaks env alloc
    exact StepLeaves.leaks order pages.pages template leaks roots
  · have dir : ((forked cur e mid).envs e).envPgdir = (mid.envs e).envPgdir := by simp [forked, Kernel.updateEnv]
    exact StepLeaves.taken order pages.pages template env alloc forked_used (fun b ne => forked_others ne) dir

theorem envCreate_leaves (order : R.Order) {binary : Binary} {priority : Word} (pages : PageInv managed k)
    (inv : TlbInv managed k) (env : EnvInv k) (wf : k.table.WellFormed)
    (legal : ∀ page ∈ binary.pages, page.va < utop ∧ FlagBits page.perm)
    (maps : ∀ e, (k.envs e).envStatus = .free → ∀ page ∈ binary.pages, ∀ x pp,
      R e (vpageOf page.va) x (some (pteOf pp page.perm)))
    (h : (envCreate binary priority k).state = some k') : StepLeaves R k k' := by
  obtain ⟨e, mid, alloc, created, load⟩ := envCreate_state h
  obtain ⟨start, before⟩ := created.tlb inv pages env wf alloc
  have used : (k'.envs e).envStatus ≠ .free := by
    rw [created.env]
    exact fun free => by cases free
  have dir : (k'.envs e).envPgdir = (mid.envs e).envPgdir := by rw [created.env]
  have free : (k.envs e).envStatus = .free := env.free e (by rw [(envAlloc_ok alloc).2]; exact List.mem_cons_self)
  have taken := StepLeaves.taken order pages.pages inv.template env alloc used created.others dir
  rw [← dir] at load
  have found := rootsOf_used (k := k'.putVm mid.vm) used
  exact taken.trans order (loadPages_leaves order start.pages before.template found legal (maps e free) load)

theorem sysEnvDestroy_leaves (order : R.Order) {status : Word} (pages : PageInv managed k)
    (template : Template managed k.basePgdir (rootsOf k) k.vm) (env : EnvInv k) (current : k.curenv = some cur)
    (clears : ∀ e, Reaps k cur envid e → ∀ s x, R e s x none)
    (h : (sysEnvDestroy cur envid status k).state = some k') : StepLeaves R k k' := by
  rcases sysEnvDestroy_state current h with ⟨rfl, _⟩ | ⟨mid, left, now, h, _⟩ | ⟨e, reaps, free⟩
  · exact .refl order _
  · have kept : rootsOf mid = rootsOf k := by
      refine rootsOf_kept (e := cur) (env.current_used current) ?_ left.others ?_ ?_
      · rw [now]
        exact fun free => by cases free
      · rw [now]
      · rw [now]
    exact (StepLeaves.same order kept left.vm).trans order (StepLeaves.scheduled order h)
  · exact StepLeaves.free order pages.pages template (env.target_used current reaps.env) (clears e reaps) free

theorem sysSetEnvStatus_leaves (order : R.Order) {status : Word} (env : EnvInv k) (current : k.curenv = some cur)
    (h : (sysSetEnvStatus cur envid status k).state = some k') : StepLeaves R k k' := by
  rcases sysSetEnvStatus_state h with ⟨rfl, _⟩ | ⟨e, q, sets, _, h⟩
  · exact .refl order _
  · have set : StepLeaves R k (setStatus k e (statusOf status) q) := by
      refine StepLeaves.same order (rootsOf_kept (e := e) (env.target_used current sets.env) ?_
        (fun b ne => setStatus_others ne) ?_ ?_) rfl
      · rw [setStatus_self]
        unfold statusOf
        split
        · exact fun free => by cases free
        · exact fun free => by cases free
      · rw [setStatus_self]
      · rw [setStatus_self]
    split at h
    · exact set.trans order (StepLeaves.scheduled order h)
    · subst h
      exact set

theorem sysIpcTrySend_leaves (order : R.Order) {value srcva : Word} (pages : PageInv managed k)
    (template : Template managed k.basePgdir (rootsOf k) k.vm) (env : EnvInv k) (current : k.curenv = some cur)
    (clears : ∀ e, Accepts k cur envid srcva e → srcva ≠ 0 → ∀ x, R e (vpageOf (k.envs e).envIpcDstva) x none)
    (maps : ∀ e, Accepts k cur envid srcva e → srcva ≠ 0 → ∀ x pp,
      R e (vpageOf (k.envs e).envIpcDstva) x (some (pteOf pp perm)))
    (h : (sysIpcTrySend cur envid value srcva perm k).state = some k') : StepLeaves R k k' := by
  rcases sysIpcTrySend_runs h with rfl | ⟨e, vm, accepts, rfl, moved⟩
  · exact .refl order _
  · have used := env.target_used current accepts.env
    have roots : rootsOf ((ipcDeliver cur e value perm k).putVm vm) = rootsOf k := ipcDeliver_roots used
    rw [StepLeaves, roots]
    rcases moved with rfl | ⟨sends, _, insert⟩
    · exact .refl order _
    · exact pageInsert_state_leaves order pages.pages template (rootsOf_used used) (pdx_user (pages.dst e))
        (clears e accepts sends) (fun x => maps e accepts sends x _) insert

theorem sysIpcRecv_leaves (order : R.Order) {dstva : Word} (env : EnvInv k) (current : k.curenv = some cur)
    (h : (sysIpcRecv cur dstva k).state = some k') : StepLeaves R k k' := by
  rcases sysIpcRecv_state h with ⟨_, rfl⟩ | ⟨_, mid, left, now, h⟩
  · exact .refl order _
  · have kept : rootsOf mid = rootsOf k := by
      refine rootsOf_kept (e := cur) (env.current_used current) ?_ left.others ?_ ?_
      · rw [now]
        exact fun free => by cases free
      · rw [now]
      · rw [now]
    exact (StepLeaves.same order kept left.vm).trans order (StepLeaves.scheduled order h)

theorem syscall_leaves (order : R.Order) {tf : Trapframe} {call : Call} (pages : PageInv managed k)
    (template : Template managed k.basePgdir (rootsOf k) k.vm) (env : EnvInv k) (current : k.curenv = some cur)
    (clears : ∀ e s x, Clears k (.syscall tf call) e s → R e s x none)
    (maps : ∀ e s x pp perm, Maps k (.syscall tf call) e s perm → R e s x (some (pteOf pp perm)))
    (h : (syscallTable cur call (k.trap tf)).state = some k') : StepLeaves R k k' := by
  have pages' := pages.trap tf
  have env' : EnvInv (k.trap tf) := env.setFrame _
  show StepLeaves R (k.trap tf) k'
  cases call with
  | yield => exact StepLeaves.scheduled order (schedule_state (switch_state h))
  | envDestroy envid status =>
    exact sysEnvDestroy_leaves order pages' template env' current
      (fun e reaps s x => clears e s x (.envDestroy s current ⟨reaps.env, reaps.other, reaps.child, reaps.zombie⟩)) h
  | memAlloc envid va perm =>
    exact sysMemAlloc_leaves order pages' template env' current (fun e env x => clears e _ x (.memAlloc current env))
      (fun e env x pp => maps e _ x pp perm (.memAlloc current env)) h
  | memMap srcid srcva dstid dstva perm =>
    exact sysMemMap_leaves order pages' template env' current (fun e env x => clears e _ x (.memMap current env))
      (fun e env x pp => maps e _ x pp perm (.memMap current env)) h
  | memUnmap envid va =>
    exact sysMemUnmap_leaves order pages' template env' current (fun e env x => clears e _ x (.memUnmap current env)) h
  | exofork => exact sysExofork_leaves order pages' template env' h
  | setEnvStatus envid status => exact sysSetEnvStatus_leaves order env' current h
  | ipcTrySend envid value srcva perm =>
    exact sysIpcTrySend_leaves order pages' template env' current
      (fun e accepts sends x => clears e _ x (.ipcTrySend current ⟨accepts.va, accepts.env, accepts.recving⟩ sends))
      (fun e accepts sends x pp =>
        maps e _ x pp perm (.ipcTrySend current ⟨accepts.va, accepts.env, accepts.recving⟩ sends)) h
  | ipcRecv dstva => exact sysIpcRecv_leaves order env' current h

end calls

/-- What a step may do to the user translations: those that a refill finds missing are added, and others change only where
    `Clears` and `Maps` say. -/
theorem step_leaves (order : R.Order) {op : Op} (refills : ∀ b s pp, R b s none (some (pteOf pp pteD)))
    (clears : ∀ e s x, Clears k op e s → R e s x none)
    (maps : ∀ e s x pp perm, Maps k op e s perm → R e s x (some (pteOf pp perm)))
    (pages : PageInv managed k) (inv : TlbInv managed k) (env : EnvInv k) (wf : k.table.WellFormed) (meets : TlbGuard k op)
    (h : step k op = some k') : StepLeaves R k k' := by
  cases op with
  | syscall tf call =>
    obtain ⟨cur, current, h⟩ := Option.bind_eq_some_iff.mp h
    obtain ⟨after, mid, called, rfl⟩ := doSyscall_state h
    show StepLeaves R k mid
    exact syscall_leaves order pages inv.template env current clears maps called
  | timer tf =>
    show StepLeaves R { k with tf := tf } k'
    exact StepLeaves.scheduled order (schedule_state h)
  | tlbRefill va victim =>
    obtain ⟨cur, current, h⟩ := Option.bind_eq_some_iff.mp h
    rw [pages.space cur current] at h
    cases result : doTlbRefill va (k.envs cur).envPgdir (asidWord (k.envs cur).envAsid) victim k.vm with
    | ok u vm =>
      rw [result] at h
      cases h
      exact doTlbRefill_leaves order (refills cur) pages.pages inv.template (rootsOf_used (env.current_used current)) result
    | err code vm => exact absurd result (doTlbRefill_noErr _ _ _ _ _ _ _)
    | stop cause =>
      rw [result] at h
      cases h
  | envCreate binary priority =>
    exact envCreate_leaves order pages inv env wf meets
      (fun e free page mem x pp => maps e _ x pp page.perm (.envCreate free mem)) h

end Mos
