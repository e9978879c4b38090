import Mos.Kern.Leak

namespace Mos

def Cleared (vm vm' : Vm) : Prop := ∀ p i, vm'.mem p i = vm.mem p i ∨ vm'.mem p i = 0

variable {vm vm' vm'' : Vm} {pgdir pp : Nat} {asid va : Word} {u : Unit}

theorem Cleared.refl (vm : Vm) : Cleared vm vm := fun _ _ => Or.inl rfl

theorem Cleared.trans (first : Cleared vm vm') (second : Cleared vm' vm'') : Cleared vm vm'' := by
  intro p i
  rcases second p i with same | zero
  · rw [same]
    exact first p i
  · exact Or.inr zero

theorem cleared_of_mem (same : vm'.mem = vm.mem) : Cleared vm vm' := fun p i => Or.inl (by rw [same])

theorem cleared_write (vm : Vm) (pte : PtePtr) : Cleared vm (vm.write pte 0) := by
  intro p i
  by_cases page : p = pte.page
  · subst page
    by_cases here : i = pte.index
    · rw [here]
      exact Or.inr (by simp [Vm.write])
    · exact Or.inl (by simp [Vm.write, here])
  · exact Or.inl (by simp [Vm.write, page])

theorem pageDecref_mem (h : pageDecref vm pp = .ok u vm') : vm'.mem = vm.mem := by
  rcases pageDecref_cases vm pp with ⟨_, eq⟩ | ⟨_, eq⟩ | ⟨_, eq⟩ <;> rw [eq] at h <;> cases h <;> rfl

theorem pageRemove_cleared (h : pageRemove vm pgdir asid va = .ok u vm') : Cleared vm vm' := by
  rcases pageLookup_cases vm pgdir va with no | has | stop
  · rw [pageRemove_none no] at h
    cases h
    exact .refl vm
  · rw [pageRemove_some has] at h
    obtain ⟨_, mid, decref, h⟩ := Result.bind_ok h
    cases h
    have cleared : Cleared mid (mid.write ⟨ppn (pdeOf vm pgdir va), ptx va⟩ 0) := cleared_write mid _
    exact (cleared_of_mem (pageDecref_mem decref)).trans cleared
  · rw [pageRemove, stop] at h
    cases h

theorem envFreePde_cleared {pdeno : Nat} (h : envFreePde pgdir asid pdeno vm = .ok u vm') : Cleared vm vm' := by
  unfold envFreePde at h
  dsimp only at h
  split at h
  · cases h
    exact .refl _
  · split at h
    · cases h
    · obtain ⟨_, mid, loop, h⟩ := Result.bind_ok h
      obtain ⟨_, last, decref, h⟩ := Result.bind_ok h
      cases h
      have slots : Cleared vm mid := by
        refine Result.forRange_ok (fun _ s => Cleared vm s) (.refl vm) (fun i s t _ so body => ?_) loop
        split at body
        · exact so.trans (pageRemove_cleared body)
        · cases body
          exact so
      have table : Cleared (mid.write ⟨pgdir, pdeno⟩ 0) last := cleared_of_mem (pageDecref_mem decref)
      exact slots.trans ((cleared_write mid _).trans table)

theorem envFree_cleared {e : EnvPtr} {k k' : Kernel} (h : envFree e k = .ok u k') : Cleared k.vm k'.vm := by
  obtain ⟨vm1, vm2, vm3, ran⟩ := envFree_runs h
  have start : Cleared k.vm vm1 := by
    rcases ran.vars with ⟨_, rfl⟩ | ⟨_, _, dropped⟩
    · exact .refl _
    · exact cleared_of_mem (pageDecref_mem dropped)
  have middle : Cleared vm1 vm2 :=
    Result.forRange_ok (fun _ s => Cleared vm1 s) (.refl _) (fun i s t _ so body => so.trans (envFreePde_cleared body))
      ran.loop
  have last : Cleared vm2 vm3 := cleared_of_mem (pageDecref_mem ran.release)
  rw [ran.last]
  exact start.trans (middle.trans last)

theorem pageOf_cleared {w w' : Word} (cleared : w' = w ∨ w' = 0) {t : Nat} (full : pageOf w' = some t) :
    pageOf w = some t := by
  rcases cleared with rfl | rfl
  · exact full
  · cases full

theorem Cleared.target {roots roots' : Roots} (cleared : Cleared vm vm')
    (fewer : ∀ b root, roots' b = some root → roots b = some root) {r : Ref} (full : target roots' vm' r = some pp) :
    target roots vm r = some pp := by
  have entries : ∀ d i t, entry vm' d i = some t → entry vm d i = some t :=
    fun d i t => pageOf_cleared (cleared d i.val)
  have pdes : ∀ b i t, Mos.target roots' vm' (.pde b i) = some t → Mos.target roots vm (.pde b i) = some t := by
    intro b i t full
    obtain ⟨root, found, full⟩ := Option.bind_eq_some_iff.mp full
    split at full
    · cases full
    · rename_i own
      rw [target_pde (fewer b root found) own]
      exact entries root.pgdir i t full
  cases r with
  | pgdir b =>
    obtain ⟨root, found, rfl⟩ := Option.map_eq_some_iff.mp full
    exact target_pgdir (fewer b root found)
  | vars b =>
    obtain ⟨root, found, vars⟩ := Option.bind_eq_some_iff.mp full
    simp only [Mos.target, fewer b root found, Option.bind_some]
    exact vars
  | pde b i => exact pdes b i pp full
  | pte b i j =>
    cases table : Mos.target roots' vm' (.pde b i) with
    | none => cases (target_pte_none table).symm.trans full
    | some t =>
      rw [target_pte table] at full
      rw [target_pte (pdes b i t table)]
      exact entries t j pp full

/-- The pages of `k` on a machine that booted into `k0`: no page is lost, and when `sys_env_destroy` reaps an env
    the pages that only it referred to are free again. -/
structure PagesKept (k0 k : Kernel) : Prop where
  kept : ∀ pp, Managed k0 pp → pp ∈ k.vm.pageFreeList ∨ ∃ r, target (rootsOf k) k.vm r = some pp
  reclaimed : ∀ tf envid status cur e k', k.curenv = some cur → Reaps k cur envid e →
    LeakGuard k (.syscall tf (.envDestroy envid status)) → step k (.syscall tf (.envDestroy envid status)) = some k' →
    ∀ pp, Managed k0 pp → (∃ r, target (rootsOf k) k.vm r = some pp) →
      (∀ r, target (rootsOf k) k.vm r = some pp → r.env = e) → pp ∈ k'.vm.pageFreeList

structure LeakInv (k0 k : Kernel) : Prop where
  env : EnvInv k
  pages : PageInv (Managed k0) k
  held : ∀ pp, Managed k0 pp → Held k.vm pp

variable {k0 k k' : Kernel}

theorem LeakInv.next {op : Op} (inv : LeakInv k0 k) (meets : LeakGuard k op) (h : step k op = some k') : LeakInv k0 k' :=
  ⟨step_envInv inv.env h, step_pages inv.pages inv.env meets.1 h,
    fun pp mine => step_conserves inv.pages inv.env meets h pp (inv.held pp mine)⟩

theorem LeakInv.kept (inv : LeakInv k0 k) {pp : Nat} (mine : Managed k0 pp) :
    pp ∈ k.vm.pageFreeList ∨ ∃ r, target (rootsOf k) k.vm r = some pp := by
  rcases inv.held pp mine with inside | counted
  · exact Or.inl inside
  · refine Or.inr ?_
    by_contra lost
    push Not at lost
    have zero := RefCount.refs_eq_zero.mpr lost
    rw [← inv.pages.pages.accounts.counted pp mine] at zero
    exact counted (BitVec.eq_of_toNat_eq zero)

theorem LeakInv.reclaimed (inv : LeakInv k0 k) {tf : Trapframe} {envid status : Word} {cur e : EnvPtr}
    (current : k.curenv = some cur) (reaps : Reaps k cur envid e) (meets : LeakGuard k (.syscall tf (.envDestroy envid status)))
    (h : step k (.syscall tf (.envDestroy envid status)) = some k') {pp : Nat} (mine : Managed k0 pp)
    (only : ∀ r, target (rootsOf k) k.vm r = some pp → r.env = e) : pp ∈ k'.vm.pageFreeList := by
  refine ((inv.next meets h).kept mine).resolve_right fun ⟨r, full⟩ => ?_
  obtain ⟨cur', current', h⟩ := Option.bind_eq_some_iff.mp h
  cases current.symm.trans current'
  obtain ⟨after, mid, called, rfl⟩ := doSyscall_state h
  have destroyed : (sysEnvDestroy cur envid status (k.trap tf)).state = some mid := called
  have start : (k.trap tf).curenv = some cur := current
  have reaps' : Reaps (k.trap tf) cur envid e := ⟨reaps.env, reaps.other, reaps.child, reaps.zombie⟩
  rcases sysEnvDestroy_state start destroyed with ⟨_, not⟩ | ⟨_, _, _, _, not⟩ | ⟨b, reaps'', free⟩
  · exact not e reaps'
  · exact not e reaps'
  · cases reaps'.env.symm.trans reaps''.env
    have freed := envFree_ok free
    have free' : (mid.envs e).envStatus = .free := by rw [freed.env]
    have dropped := rootsOf_drop free' freed.others
    have roots : ∀ b root, rootsOf mid b = some root → b ≠ e ∧ rootsOf k b = some root := by
      intro b root found
      have ne : b ≠ e := by
        rintro rfl
        rw [dropped, Function.update_self] at found
        cases found
      rw [dropped, Function.update_of_ne ne] at found
      exact ⟨ne, found⟩
    have full' : target (rootsOf mid) mid.vm r = some pp := full
    have before : target (rootsOf k) k.vm r = some pp :=
      Cleared.target (envFree_cleared free) (fun b root found => (roots b root found).2) full'
    have owner := only r before
    have gone : rootsOf mid e = none := by rw [dropped, Function.update_self]
    cases r <;> simp only [Ref.env] at owner <;> subst owner <;> simp [target, gone] at full'

/-- In every run whose steps meet `LeakGuard` no page is lost. -/
theorem pages_kept {npage : Nat} {mem : Nat → Nat → Word} {ops : List Op} (small : npage ≤ 2^20)
    (booted : boot npage mem = some k0) (run : Run step LeakGuard k0 ops k) : PagesKept k0 k := by
  have initial : LeakInv k0 k0 := ⟨boot_envInv booted, boot_pages small booted, fun pp mine => Or.inl mine.1⟩
  have inv := run.invariant (LeakInv k0) initial fun _ _ _ inv meets next => inv.next meets next
  refine ⟨fun pp mine => inv.kept mine, ?_⟩
  intro tf envid status cur e k' current reaps meets next pp mine _ only
  exact inv.reclaimed current reaps meets next mine only

/-- An env touches a page and unmaps it. -/
def dropRun : List Op :=
  [.envCreate emptyBinary 1, .timer zeroFrame, .tlbRefill 0x500000 0, .call (.memUnmap 0 0x500000)]

set_option maxRecDepth 100000 in
theorem pages_kept_dropRun : ∃ k0 k, clearBoot = some k0 ∧ Run step LeakGuard k0 dropRun k ∧ PagesKept k0 k := by
  have check : (clearBoot.bind fun k0 => Run.exec step k0 dropRun).isSome = true := by
    rw [clearBoot_eq]
    decide +kernel
  obtain ⟨k, check⟩ := Option.isSome_iff_exists.mp check
  obtain ⟨k0, booted, exec⟩ := Option.bind_eq_some_iff.mp check
  have guarded : Run step LeakGuard k0 dropRun k := by
    refine Run.of_exec (fun op mem t => ?_) exec
    simp only [dropRun, List.mem_cons, List.not_mem_nil, or_false] at mem
    rcases mem with rfl | rfl | rfl | rfl
    · refine ⟨fun page inside => ?_, fun _ _ _ _ same => by cases same⟩
      cases inside
    · exact ⟨trivial, fun _ _ _ _ same => by cases same⟩
    · exact ⟨trivial, fun _ _ _ _ same => by cases same⟩
    · exact ⟨trivial, fun _ _ _ _ same => by cases same⟩
  exact ⟨k0, k, booted, guarded, pages_kept (by decide) booted guarded⟩

/-- `pp` is not free, and the only env in use does not refer to it. -/
def lost (k0 k : Kernel) (pp : Nat) : Bool := leaked k0 k pp && !k.vm.pageFreeList.contains pp

theorem lost_unreferred {k0 k : Kernel} {pp : Nat} (gone : lost k0 k pp = true) : ¬ PagesKept k0 k := by
  simp only [lost, leaked, Bool.and_eq_true, List.all_eq_true, List.mem_finRange, forall_const, Bool.or_eq_true,
    decide_eq_true_eq, bne_iff_ne, List.contains_iff_mem, Bool.not_eq_true'] at gone
  obtain ⟨⟨⟨⟨⟨⟨⟨stock, envs⟩, _⟩, dir⟩, vars⟩, lone⟩, bare⟩, out⟩ := gone
  intro all
  have busy : pp ∉ k.vm.pageFreeList := fun inside => by
    rw [List.contains_iff_mem.mpr inside] at out
    cases out
  obtain ⟨r, full⟩ := (all.kept pp ⟨stock, envs⟩).resolve_left busy
  rcases target_lone (e := 0) (fun b ne => (lone b).resolve_left ne) (fun i own => (bare i).resolve_left own) full with
    same | same
  · exact dir same.symm
  · exact vars same

set_option maxRecDepth 100000 in
theorem envFree_loses_page : ∃ k0 k, clearBoot = some k0 ∧ Run step (fun _ _ => True) k0 leakRun k ∧
    ¬ PagesKept k0 k := by
  have check : (clearBoot.bind fun k0 => (Run.exec step k0 leakRun).map fun k => lost k0 k 2040) = some true := by
    rw [clearBoot_eq]
    decide +kernel
  obtain ⟨k0, booted, check⟩ := Option.bind_eq_some_iff.mp check
  obtain ⟨k, exec, gone⟩ := Option.map_eq_some_iff.mp check
  exact ⟨k0, k, booted, Run.of_exec (fun _ _ _ => trivial) exec, lost_unreferred gone⟩

end Mos
