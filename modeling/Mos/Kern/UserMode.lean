import Mos.Kern.Resume
import Mos.Kern.EnvId

namespace Mos

/-- `eret` goes to user mode from this frame and takes interrupts there. -/
structure Trapframe.UserMode (tf : Trapframe) : Prop where
  um : tf.cp0Status &&& statusUm ≠ 0
  ie : tf.cp0Status &&& statusIe ≠ 0
  exl : tf.cp0Status &&& statusExl ≠ 0

def MachineOp.frame : MachineOp → Option Trapframe
  | .syscall tf _ | .timer tf | .tlbMod tf | .kernelMod tf _ _ => some tf
  | _ => none

section Opens

variable {t t' : Table} {e : EnvPtr}

theorem Table.Step.opens {ev : Event} (next : Table.Step t ev t')
    (busy : ∀ b, t.current = some b → (t.slots b).status ≠ .free) (free : (t.slots e).status = .free)
    (used : (t'.slots e).status ≠ .free) : ∃ parent, ev = .create e parent := by
  have still {b : EnvPtr} {s : Slot} (usedB : (t.slots b).status ≠ .free) : ((t.set b s).slots e).status = .free := by
    have ne : e ≠ b := by
      rintro rfl
      exact usedB free
    rw [Table.set_other t s ne]
    exact free
  cases next with
  | quiet => exact absurd free used
  | @create b parent =>
    by_cases same : e = b
    · exact ⟨parent, by rw [same]⟩
    · refine absurd ?_ used
      show ((t.set b _).slots e).status = .free
      rw [Table.set_other t _ same]
      exact free
  | exit current => exact absurd (still (busy _ current)) used
  | reap _ _ _ zombie => exact absurd (still (by rw [zombie]; exact fun eq => by cases eq)) used
  | setStatus _ _ usedB => exact absurd (still usedB) used
  | deliver usedB => exact absurd (still usedB) used
  | receive current => exact absurd (still (busy _ current)) used

end Opens

section Steps

variable {k k' : Kernel} {cur e : EnvPtr} {load : Load} {tf : Trapframe} {out : Outside} {op : MachineOp}

theorem doTlbMod_frame (h : doTlbMod cur tf k = some k') :
    k'.curenv = k.curenv ∧ k'.tf.cp0Status = tf.cp0Status := by
  dsimp only [doTlbMod] at h
  split at h
  · cases h
  · obtain ⟨mid, stored, rfl⟩ := Option.map_eq_some_iff.mp h
    exact ⟨(storeBytes_calm stored).curenv, rfl⟩

theorem kernelMod_runs {o : Option Outside} {inner : Trapframe} (h : kernelMod cur tf o inner k = some k') :
    ∃ stores mid fault, pendingStores cur tf k o = some (stores, mid) ∧ storesUntilMod cur stores mid = some fault ∧
      doTlbMod cur { inner with cp0Status := nestedStatus tf } fault = some k' := by
  unfold kernelMod at h
  split at h
  · cases h
  · obtain ⟨⟨stores, mid⟩, pending, h⟩ := Option.bind_eq_some_iff.mp h
    obtain ⟨fault, stored, h⟩ := Option.bind_eq_some_iff.mp h
    exact ⟨stores, mid, fault, pending, stored, h⟩

end Steps

theorem kernelMod_status {o : Option Outside} {inner : Trapframe} (h : kernelMod cur tf o inner k = some k') :
    k'.tf.cp0Status = nestedStatus tf ∧ ¬ k'.tf.UserMode := by
  obtain ⟨stores, mid, fault, -, -, h⟩ := kernelMod_runs h
  have status : k'.tf.cp0Status = nestedStatus tf := (doTlbMod_frame h).2
  refine ⟨status, fun user => user.um ?_⟩
  rw [status, nestedStatus, BitVec.and_or_distrib_right, BitVec.and_assoc,
    show ~~~(statusUm ||| statusExl ||| statusIe) &&& statusUm = 0 by decide, show statusExl &&& statusUm = 0 by decide]
  exact BitVec.or_zero.trans BitVec.and_zero

end Mos
