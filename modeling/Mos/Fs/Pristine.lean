import Mos.Fs.Exclusive

namespace Mos.Fs

variable {t0 t v : Server} {disk : Image} {memory : Nat → Bool} {ops : List ServeOp} {path : List Byte} {omode : Word} {i : Nat}

/-- From a disk whose free slots are blank, after requests that meet the guard, the `File` that `serve_open` makes has
    nothing of an earlier one. -/
theorem created_pristine (sound : Sound True disk) (booted : serverInit disk memory = some t0)
    (run : Run serveStep (OwnGuard True) t0 ops t) (guard : OwnGuard True t (.fsreqOpen path omode))
    (creat : omode &&& oCreat ≠ 0) (opened : serveOpen path omode t = .ok (.opened i) v) (clean : CleanMeta v.fs) :
    ∃ f, (v.opentab i).file = some f ∧ Pristine omode f v.fs.content := by
  have next : serveStep t (.fsreqOpen path omode) = some v := by
    show (serveOpen path omode t).state = some v
    rw [opened]
    rfl
  have before : CleanMeta t.fs := by
    by_contra spoiled
    exact serveStep_kept spoiled_kept trivial (.fsreqOpen path omode) spoiled next clean
  have whole : Whole True t := run_whole sound booted run before
  have spec := serveOpen_spec whole guard
  rw [opened] at spec
  exact spec.2 i rfl trivial creat clean

/-- The entry that `serve_open` returns, and the server after it. -/
def opened (r : SRes Reply) : Option (Nat × Server) :=
  match r with
  | .ok (.opened i) v => some (i, v)
  | _ => none

theorem opened_some {r : SRes Reply} {i : Nat} {v : Server} (h : opened r = some (i, v)) : r = .ok (.opened i) v := by
  unfold opened at h
  split at h
  · cases h
    rfl
  · cases h

/-- A client creates `/a`; then `/b` is created in the next slot. -/
def nextRun : List ServeOp := [.fsreqOpen [0x2f, 0x61] oCreat]

set_option maxRecDepth 100000 in
theorem created_pristine_nextRun : ∃ t0 t v, emptyServer = some t0 ∧ Run serveStep (OwnGuard True) t0 nextRun t ∧
    serveOpen [0x2f, 0x62] oCreat t = .ok (.opened 1) v ∧
    ∃ f, (v.opentab 1).file = some f ∧ Pristine oCreat f v.fs.content := by
  have check : (emptyServer.any fun t0 =>
      createCheck [0x2f, 0x61] t0 &&
      (serveStep t0 (.fsreqOpen [0x2f, 0x61] oCreat)).any fun t =>
        createCheck [0x2f, 0x62] t && (opened (serveOpen [0x2f, 0x62] oCreat t)).any fun o =>
          o.1 = 1 && o.2.fs.given.all fun g => g.old.isNone) = true := by decide +kernel
  simp only [Option.any_eq_true, Bool.and_eq_true] at check
  obtain ⟨t0, booted, create, t, first, next, ⟨i, v⟩, done, one, fresh⟩ := check
  have run : Run serveStep (OwnGuard True) t0 nextRun t := Run.nil.snoc (ownGuard_create (by decide) create) first
  obtain rfl := of_decide_eq_true one
  have given := opened_some done
  refine ⟨t0, t, v, booted, run, given, created_pristine emptyImage_sound booted run
    (ownGuard_create (by decide) next) (by decide) given fun g mem _ p old => ?_⟩
  have none := List.all_eq_true.mp fresh g mem
  rw [old] at none
  cases none

/-- A client creates and removes the directory `/d`. -/
def reuseRun : List ServeOp := [.fsreqOpen [0x2f, 0x64] (oCreat ||| oMkdir), .fsreqRemove [0x2f, 0x64]]

set_option maxRecDepth 100000 in
/-- The file `/f` gets the slot of `/d` and its type. -/
theorem created_directory : Sound True emptyImage ∧ ∃ t0 t i v, emptyServer = some t0 ∧
    Run serveStep (fun _ _ => True) t0 reuseRun t ∧ serveOpen [0x2f, 0x66] oCreat t = .ok (.opened i) v ∧
    ¬ ∃ f, (v.opentab i).file = some f ∧ Pristine oCreat f v.fs.content := by
  refine ⟨emptyImage_sound, ?_⟩
  have check : (emptyServer.any fun t0 => (Run.exec serveStep t0 reuseRun).any fun t =>
      (opened (serveOpen [0x2f, 0x66] oCreat t)).any fun o => (o.2.opentab o.1).file.any fun f =>
        o.2.fs.content.field f 33 = ftypeDir) = true := by decide +kernel
  simp only [Option.any_eq_true] at check
  obtain ⟨t0, booted, t, exec, ⟨i, v⟩, done, f, file, type⟩ := check
  refine ⟨t0, t, i, v, booted, Run.of_exec (fun _ _ _ => trivial) exec, opened_some done, ?_⟩
  rintro ⟨g, file', pristine⟩
  cases file.symm.trans file'
  have plain : oCreat &&& oMkdir = 0 := by decide
  have regular := pristine.type
  rw [if_neg (not_not.mpr plain), of_decide_eq_true type] at regular
  cases regular

end Mos.Fs
