import Mos.Fs.Requests

namespace Mos.Fs

variable {strict : Prop} {t0 t : Server} {disk : Image} {memory : Nat → Bool} {ops : List ServeOp}

theorem Sound.whole (sound : Sound strict disk) (booted : serverInit disk memory = some t) : Whole strict t where
  super := (serverInit_booted booted).1.super
  sound := ((serverInit_booted booted).1.consistent sound.consistent).sound
  opened i f file := by
    rw [(serverInit_booted booted).2 i] at file
    cases file

theorem run_whole (sound : Sound strict disk) (booted : serverInit disk memory = some t0)
    (run : Run serveStep (OwnGuard strict) t0 ops t) : WholeUnless strict t :=
  run.invariant (WholeUnless strict) (fun _ => sound.whole booted) fun _ _ _ before meets next =>
    serveStep_whole before meets next

/-- From a disk on which the pointers of the tree own their blocks, they do so in every state that the server
    reaches by requests that meet the guard, if the blocks that became indirect blocks or blocks of directories were
    not in the cache, or cached with zeros. -/
theorem blocks_exclusive (exclusive : Exclusive disk) (booted : serverInit disk memory = some t0)
    (run : Run serveStep (OwnGuard False) t0 ops t) (clean : CleanMeta t.fs) : Exclusive t.fs.content :=
  (run_whole ⟨exclusive, False.elim⟩ booted run clean).sound.toExclusive

theorem emptyImage_target (p : Option Nat) : Image.target emptyImage root p = 0 := by
  have words : ∀ k, k < 64 → 34 ≤ k → Image.field emptyImage root k = 0 := by decide
  have indirect : Image.indirect emptyImage root = 0 := congrArg BitVec.toNat (words 44 (by decide) (by decide))
  cases p with
  | none => exact indirect
  | some i =>
    by_cases low : i < ndirect
    · unfold Image.target
      simp only [if_pos low]
      exact congrArg BitVec.toNat (words _ (by unfold ndirect at low; omega) (Nat.le_add_right _ _))
    · exact Image.target_of_no_indirect indirect (Nat.le_of_not_lt low)

theorem emptyImage_system (b : Nat) (_ : b < Image.nblocks emptyImage) (low : b ≤ Image.bitmapEnd emptyImage) :
    ¬ Image.Free emptyImage b := by
  have last : Image.bitmapEnd emptyImage = 2 := by decide
  have used : ∀ b, b < 3 → ¬ Image.Free emptyImage b := by
    unfold Image.Free
    decide
  exact used b (by omega)

theorem emptyImage_sound : Sound strict emptyImage where
  toExclusive := exclusive_bare emptyImage_target emptyImage_system
  blank _ _ reach notRoot := absurd (reach_bare emptyImage_target reach) notRoot

theorem emptyImage_exclusive : Exclusive emptyImage :=
  (emptyImage_sound : Sound False emptyImage).toExclusive

/-- The computable form of `Extends`. -/
def extendsCheck (path : List Byte) (s : Store) : Bool :=
  match walkPath path s with
  | .ok w t => w.code ≠ -eNotFound ||
      w.dir.all fun d => t.content.target d (some ((t.content.field d 32).toNat / 4096)) = 0
  | _ => true

theorem extends_of_check {path : List Byte} {s : Store} (check : extendsCheck path s = true) : Extends path s := by
  intro w t d walked code dir
  unfold extendsCheck at check
  simpa [walked, code, dir] using check

/-- `extendsCheck` where `serve_open` looks up the path. -/
def createCheck (path : List Byte) (t : Server) : Bool :=
  match openAlloc t with
  | .ok _ u => extendsCheck path u.fs
  | _ => true

theorem ownGuard_create {path : List Byte} {omode : Word} (plain : omode &&& oMkdir = 0)
    (check : createCheck path t = true) : OwnGuard strict t (.fsreqOpen path omode) := by
  intro _ i u alloc
  rw [createCheck, alloc] at check
  exact ⟨extends_of_check check, fun mkdir => absurd plain mkdir⟩

def firstSlot (c : Image) : Bool :=
  c.field root 33 = ftypeDir && (c.field root 32).toNat = 4096 && c.target root (some 0) = 3

theorem reach_firstSlot {c : Image} (check : firstSlot c = true) {j : Nat} (small : j < file2blk) : Reach c (fileOf 3 j) := by
  simp only [firstSlot, Bool.and_eq_true, decide_eq_true_eq] at check
  obtain ⟨⟨type, size⟩, block⟩ := check
  have slot := Reach.ofSlot (c := c) (i := 0) .ofRoot ⟨type, by rw [size]; decide⟩ (by rw [block]; decide) small
  rw [block] at slot
  exact slot

theorem ownGuard_first {fileid offset : Word} (check : firstSlot t.fs.content = true)
    (file : (t.opentab fileid.toNat).file = some (fileOf 3 0)) (live : Live strict (fileOf 3 0) t.fs.content) :
    OwnGuard strict t (.fsreqMap fileid offset) := by
  intro f opened
  cases file.symm.trans opened.file
  exact ⟨reach_firstSlot check (by decide), live⟩

/-- A client creates `/a` and maps its first block. -/
def ownRun : List ServeOp := [.fsreqOpen [0x2f, 0x61] oCreat, .fsreqMap 0 0]

set_option maxRecDepth 100000 in
theorem blocks_exclusive_ownRun : ∃ t0 t, emptyServer = some t0 ∧ Run serveStep (OwnGuard False) t0 ownRun t ∧
    Exclusive t.fs.content := by
  have check : (emptyServer.any fun t0 =>
      createCheck [0x2f, 0x61] t0 &&
      (serveStep t0 (.fsreqOpen [0x2f, 0x61] oCreat)).any fun t1 =>
        firstSlot t1.fs.content && (t1.opentab 0).file = some (fileOf 3 0) &&
        (serveStep t1 (.fsreqMap 0 0)).any fun t2 => t2.fs.given.all fun g => g.old.isNone) = true := by decide +kernel
  simp only [Option.any_eq_true, Bool.and_eq_true, decide_eq_true_eq] at check
  obtain ⟨t0, booted, create, t1, first, ⟨slot, file⟩, t2, second, fresh⟩ := check
  have run : Run serveStep (OwnGuard False) t0 ownRun t2 :=
    (Run.nil.snoc (ownGuard_create (by decide) create) first).snoc (ownGuard_first slot file False.elim) second
  refine ⟨t0, t2, booted, run, blocks_exclusive emptyImage_exclusive booted run fun g mem _ p old => ?_⟩
  have none := List.all_eq_true.mp fresh g mem
  rw [old] at none
  cases none

/-- A client fills a block of `/a` with the number of the root directory's block and cuts it off; it comes back as
    the indirect block of `/a`. -/
def aliasRun : List ServeOp :=
  [.fsreqOpen [0x2f, 0x61] oCreat, .fsreqMap 0 0, .store 4 10 3, .fsreqSetSize 0 4096, .fsreqSetSize 0 0, .fsreqMap 0 40960]

set_option maxRecDepth 100000 in
theorem blocks_shared : Exclusive emptyImage ∧ ∃ t0 t, emptyServer = some t0 ∧
    Run serveStep (fun _ _ => True) t0 aliasRun t ∧ ¬ Exclusive t.fs.content := by
  refine ⟨emptyImage_exclusive, ?_⟩
  have check : (emptyServer.any fun t0 => (Run.exec serveStep t0 aliasRun).any fun t =>
      firstSlot t.fs.content && t.fs.content.target (fileOf 3 0) (some 10) = 3) = true := by decide +kernel
  simp only [Option.any_eq_true, Bool.and_eq_true, decide_eq_true_eq] at check
  obtain ⟨t0, booted, t, exec, slot, entry⟩ := check
  refine ⟨t0, t, booted, Run.of_exec (fun _ _ _ => trivial) exec, fun exclusive => ?_⟩
  have block : t.fs.content.target root (some 0) = 3 := by
    simp only [firstSlot, Bool.and_eq_true, decide_eq_true_eq] at slot
    exact slot.2
  have same := exclusive.once root (fileOf 3 0) (some 0) (some 10) .ofRoot (reach_firstSlot slot (by decide))
    (by rw [block]; decide) (block.trans entry.symm)
  cases same.2

end Mos.Fs
