import Mos.Kern.PageWalk
import Mos.Kern.EnvInv

namespace Mos

/-- The transfer of the page at `srcva` fails: `curenv` has no page there, or the receiver `e` needs a
    page table for its `env_ipc_dstva` and no page is free. -/
def TransferFails (k : Kernel) (cur e : EnvPtr) (srcva : Word) : Prop :=
  let src := (k.envs cur).envPgdir
  srcva ≠ 0 ∧ (NoPage k.vm src srcva ∨
    HasPage k.vm src srcva ∧ NoTable k.vm (k.envs e).envPgdir (ppn (pteAt k.vm src srcva)) (k.envs e).envIpcDstva)

theorem ipcMap_err_iff {cur e : EnvPtr} {srcva perm : Word} {k : Kernel} :
    (∃ code k', ipcMap cur e srcva perm k = .err code k') ↔ TransferFails k cur e srcva := by
  unfold ipcMap TransferFails
  split
  · rename_i page
    simp only [page, ne_eq, not_false_eq_true, true_and, Kernel.withVm]
    rcases pageLookup_cases k.vm (k.envs cur).envPgdir srcva with none | has | stop
    · rw [pageLookup_none none]
      exact iff_of_true ⟨_, _, rfl⟩ (Or.inl none)
    · rw [pageLookup_some has]
      simp only [Result.ok_lift, Result.ok_bind]
      refine Iff.trans ?_ (or_iff_right fun none => none.not_hasPage has).symm
      rw [and_iff_right has, ← pageInsert_err_iff]
      constructor
      · rintro ⟨code, k', h⟩
        rcases Result.bind_err h with h | ⟨_, _, _, h⟩
        · obtain ⟨vm', h, _⟩ := withVm_err h
          exact ⟨code, vm', h⟩
        · cases h
      · rintro ⟨code, vm', h⟩
        exact ⟨code, _, congrArg (fun r => ret 0 (Result.lift r (k.putVm k.vm).putVm)) h⟩
    · rw [stop]
      refine ⟨?_, ?_⟩
      · rintro ⟨_, _, h⟩
        cases h
      rintro (none | ⟨has, _⟩)
      · cases stop.symm.trans (pageLookup_none none)
      · cases stop.symm.trans (pageLookup_some has)
  · rename_i page
    refine ⟨?_, fun fails => absurd fails.1 page⟩
    rintro ⟨_, _, h⟩
    cases h

theorem ipcMap_err_code {cur e : EnvPtr} {srcva perm code : Word} {k k' : Kernel}
    (h : ipcMap cur e srcva perm k = .err code k') : code ≠ 0 := by
  unfold ipcMap at h
  split at h
  · rcases Result.bind_err h with h | ⟨found, mid, _, h⟩
    · obtain ⟨vm, h, _⟩ := withVm_err h
      exact absurd h (pageLookup_noErr _ _ _ _ _)
    · cases found with
      | none => cases h; decide
      | some found =>
        rcases Result.bind_err h with h | ⟨_, _, _, h⟩
        · obtain ⟨vm, h, _⟩ := withVm_err h
          rw [pageInsert_err_code h]
          decide
        · cases h
  · cases h

theorem ipcDeliver_transferFails {cur e : EnvPtr} {value perm srcva : Word} {k : Kernel} :
    TransferFails (ipcDeliver cur e value perm k) cur e srcva ↔ TransferFails k cur e srcva := by
  have dir : ∀ b, ((ipcDeliver cur e value perm k).envs b).envPgdir = (k.envs b).envPgdir :=
    fun b => ipcDeliver_pgdir cur e b value perm k
  have dst : ((ipcDeliver cur e value perm k).envs e).envIpcDstva = (k.envs e).envIpcDstva := by rw [ipcDeliver_self]
  unfold TransferFails
  rw [dir cur, dir e, dst]
  rfl

/-- What `page_lookup` would read for `va`, as a word. -/
def translate (vm : Vm) (pgdir : Nat) (va : Word) : Option Word :=
  if pdeOf vm pgdir va = 0 ∨ pteAt vm pgdir va &&& pteV = 0 then none else some (pteAt vm pgdir va)

/-- The env `e` is in `k'` as it was in `k`: all its fields, its place among the queued envs and its
    address space. -/
structure Untouched (e : EnvPtr) (k k' : Kernel) : Prop where
  env : k'.envs e = k.envs e
  queue : TailQueue.Member k'.envSchedList e ↔ TailQueue.Member k.envSchedList e
  space : ∀ va, translate k'.vm (k'.envs e).envPgdir va = translate k.vm (k.envs e).envPgdir va

/-- A failing `sys_ipc_try_send` leaves its target alone, in every state and for all arguments, exactly
    when it does not fail in the page transfer. -/
theorem ipcTrySend_untouched_iff (cur : EnvPtr) (envid value srcva perm : Word) (k : Kernel) :
    (∀ code k', sysIpcTrySend cur envid value srcva perm k = .err code k' → code ≠ 0 →
      ∀ e, envid2env k cur envid false = .ok e → Untouched e k k') ↔
    ∀ e, Accepts k cur envid srcva e → ¬ TransferFails k cur e srcva := by
  rcases sysIpcTrySend_cases cur envid value srcva perm k with ⟨code, _, eq, refused⟩ | ⟨e, accepts, eq⟩
  · refine iff_of_true ?_ fun e accepts => absurd accepts (refused e)
    intro code' k' h _ e _
    cases eq.symm.trans h
    exact ⟨rfl, Iff.rfl, fun _ => rfl⟩
  · constructor
    · intro untouched b accepts' fails
      cases accepts.env.symm.trans accepts'.env
      obtain ⟨code, k', failed⟩ := ipcMap_err_iff.mpr (ipcDeliver_transferFails.mpr fails)
      have same := (untouched code k' (eq.trans failed) (ipcMap_err_code failed) e accepts.env).env
      rcases ipcMap_cases cur e srcva perm (ipcDeliver cur e value perm k) with ⟨_, ok⟩ | ⟨_, vm, err⟩ | ⟨_, stop⟩
      · cases failed.symm.trans ok
      · cases failed.symm.trans err
        have delivered : (k.envs e).envIpcRecving = 0 := by
          rw [← same]
          exact congrArg Env.envIpcRecving (ipcDeliver_self cur e value perm k)
        cases delivered.symm.trans accepts.recving
      · cases failed.symm.trans stop
    · intro fine code k' h
      exact absurd (ipcDeliver_transferFails.mp (ipcMap_err_iff.mp ⟨code, k', eq ▸ h⟩)) (fine e accepts)

/-- Env 0 waits for a message and env 1 runs. -/
def waitRun : List Op :=
  [.envCreate emptyBinary 1, .envCreate emptyBinary 1, .timer zeroFrame, .call .yield, .call (.ipcRecv 0)]

set_option maxRecDepth 100000 in
theorem ipcTrySend_wakes_on_error : ∃ k0 k code k', clearBoot = some k0 ∧ Run step (fun _ _ => True) k0 waitRun k ∧
    k.curenv = some 1 ∧ sysIpcTrySend 1 2048 7 0x400000 0 k = .err code k' ∧ code ≠ 0 ∧
    envid2env k 1 2048 false = .ok 0 ∧ ¬ Untouched 0 k k' := by
  have check : (clearBoot.bind fun k0 => (Run.exec step k0 waitRun).bind fun k =>
      (envid2env k 1 2048 false).toOption.bind fun e => (sysIpcTrySend 1 2048 7 0x400000 0 k).failed.map fun f =>
        (k.curenv, e, f.1, (k.envs 0).envIpcRecving, (f.2.envs 0).envIpcRecving)) =
      some (some 1, 0, -eInval, 1, 0) := by
    rw [clearBoot_eq]
    decide +kernel
  obtain ⟨k0, booted, check⟩ := Option.bind_eq_some_iff.mp check
  obtain ⟨k, exec, check⟩ := Option.bind_eq_some_iff.mp check
  obtain ⟨e, target, check⟩ := Option.bind_eq_some_iff.mp check
  obtain ⟨⟨code, k'⟩, failed, check⟩ := Option.map_eq_some_iff.mp check
  simp only [Prod.mk.injEq] at check
  obtain ⟨current, rfl, rfl, before, after⟩ := check
  refine ⟨k0, k, -eInval, k', booted, Run.of_exec (fun _ _ _ => trivial) exec, current, Result.failed_some failed, by decide,
    toOption_ok target, ?_⟩
  intro same
  rw [same.env, before] at after
  cases after

end Mos
