import Mos.Fs.Serve

namespace Mos.Fs

/-- A property of the store that loads of blocks in use, dirty marks and writes to the disk keep. `S` holds of the
    causes for which a call never returns. -/
structure KeptByRead (E : Store → Prop) (S : Stop → Prop) : Prop where
  panic : S .panic
  wild : S .wild
  asked : ∀ s, E s → E { s with asked := s.asked + 1 }
  loaded : ∀ s b, E s → s.cache b = none → blockIsFree s b = false →
    E { s with cache := Function.update s.cache b (some (s.disk b)), dirty := Function.update s.dirty b false,
               asked := s.asked + 1 }
  marked : ∀ s b, E s → E { s with dirty := Function.update s.dirty b true }
  written : ∀ s b p, E s → s.cache b = some p → E { s with disk := Function.update s.disk b p }

/-- A property that every change of the store keeps. -/
structure KeptByWrite (E : Store → Prop) (S : Stop → Prop) : Prop extends KeptByRead E S where
  mapped : ∀ s b, E s → s.cache b = none →
    E { s with cache := Function.update s.cache b (some zeroPage), dirty := Function.update s.dirty b false,
               asked := s.asked + 1 }
  set : ∀ s b i v, E s → E (s.setWord b i v)
  given : ∀ s t f index b, allocBlock s = .ok b t → E t → E (t.give s f index b)

variable {E : Store → Prop} {S : Stop → Prop} {s : Store} {f dir : FilePtr}

theorem loadBlock_leaves (b : Nat) (h : E s) (asked : E { s with asked := s.asked + 1 })
    (loaded : s.cache b = none →
      E { s with cache := Function.update s.cache b (some (s.disk b)), dirty := Function.update s.dirty b false,
                 asked := s.asked + 1 }) : (loadBlock b s).Leaves E S := by
  unfold loadBlock sysMemAlloc
  split
  · exact h
  · split
    · have done := loaded ‹_›
      simpa [Result.Leaves, Result.Meets] using done
    · exact asked

section Reads

variable (kept : KeptByRead E S)
include kept

theorem writeBlock_kept (b : Nat) (h : E s) : (writeBlock b s).Leaves E S := by
  unfold writeBlock
  split
  · exact kept.panic
  · exact kept.written s b _ h ‹_›

theorem dirtyBlock_kept (b : Nat) (h : E s) : (dirtyBlock b s).Leaves E S := by
  unfold dirtyBlock
  split
  · exact h
  · exact kept.marked s b h

theorem readBlock_kept (b : Nat) (h : E s) : (readBlock b s).Leaves E S := by
  unfold readBlock
  split
  · exact kept.panic
  · split
    · exact kept.panic
    · rename_i used
      exact loadBlock_leaves b h (kept.asked s h) fun hole => kept.loaded s b h hole (Bool.eq_false_iff.mpr used)

theorem fileBlockWalk_read (filebno : Nat) (h : E s) : (fileBlockWalk f filebno false s).Leaves E S := by
  unfold fileBlockWalk
  split
  · exact h
  · split
    · refine Result.Meets.bind (P := fun _ => E) ?_ fun _ t h => ?_
      · split
        · exact h
        · exact h
      · exact (readBlock_kept kept _ h).bind fun _ _ h => h
    · exact h

theorem fileMapBlock_read (filebno : Nat) (h : E s) : (fileMapBlock f filebno false s).Leaves E S := by
  refine (fileBlockWalk_read kept filebno h).bind fun ptr t h => ?_
  refine Result.Meets.bind (P := fun _ => E) ?_ fun _ _ h => h
  split
  · exact h
  · exact h

theorem fileFlush_kept (h : E s) : (fileFlush f s).Leaves E S := by
  refine Result.Leaves.forRange h fun i t h => ?_
  refine (fileMapBlock_read kept i h).tested.bind fun r t h => ?_
  cases r with
  | ok b =>
    dsimp only
    split
    · exact writeBlock_kept kept b h
    · exact h
  | error r => exact h

theorem flushDir_kept (h : E s) : (flushDir f s).Leaves E S := by
  unfold flushDir
  split
  · exact h
  · split
    · exact fileFlush_kept kept h
    · exact kept.wild

theorem fileDirty_kept (offset : Word) (h : E s) : (fileDirty f offset s).Leaves E S :=
  (fileMapBlock_read kept _ h).bind fun b _ h => dirtyBlock_kept kept b h

theorem closeScan_kept (n i : Nat) (h : E s) : (closeScan dir f n i s).Leaves E S := by
  induction n generalizing i s with
  | zero => exact h
  | succ n ih =>
    refine (fileMapBlock_read kept i h).tested.bind fun r t h => ?_
    cases r with
    | error r => exact h
    | ok b =>
      refine (readBlock_kept kept b h).tested.bind fun r t h => ?_
      cases r with
      | error r => exact h
      | ok u =>
        dsimp only
        split
        · exact (dirtyBlock_kept kept b h).tested.bind fun _ _ h => h
        · exact ih (i + 1) h

theorem fileClose_kept (h : E s) : (fileClose f s).Leaves E S := by
  refine (fileFlush_kept kept h).bind fun _ t h => ?_
  split
  · exact h
  · split
    · exact (closeScan_kept kept _ _ h).bind fun _ _ h => flushDir_kept kept h
    · exact kept.wild

theorem fsSync_kept (h : E s) : (fsSync s).Leaves E S := by
  refine Result.Leaves.forRange h fun i t h => ?_
  split
  · exact writeBlock_kept kept i h
  · exact h

end Reads

section Writes

variable (kept : KeptByWrite E S)
include kept

theorem freeBlock_kept (b : Nat) (h : E s) : E (freeBlock b s) := by
  unfold freeBlock
  split
  · exact h
  · exact kept.set s _ _ _ h

theorem mapBlock_kept (b : Nat) (h : E s) : (mapBlock b s).Leaves E S := by
  unfold mapBlock sysMemAlloc
  split
  · exact h
  · split
    · exact kept.mapped s b h ‹_›
    · exact kept.asked s h

theorem allocBlock_kept (h : E s) : (allocBlock s).Leaves E S := by
  have found : (allocBlockNum s).Leaves E S := by
    unfold allocBlockNum
    split
    · exact h
    · exact (writeBlock_kept kept.toKeptByRead _ (kept.set s _ _ _ h)).bind fun _ _ h => h
  refine found.bind fun b t h => ?_
  refine (mapBlock_kept kept b h).tested.bind fun r t h => ?_
  cases r with
  | ok u => exact h
  | error r => exact freeBlock_kept kept b h

theorem allocGive_kept {alloc : Bool} {index : Option Nat} {code : Word} (place : Store → Nat × Nat) (h : E s) :
    Result.Leaves (if alloc then (allocBlock s).bind fun b t =>
        (.ok () ((t.give s f index b).setWord (place t).1 (place t).2 (BitVec.ofNat 32 b)) : Res Unit)
      else .err code s) E S := by
  split
  · have after := allocBlock_kept kept h
    cases run : allocBlock s with
    | ok b t =>
      rw [run] at after
      exact kept.set _ _ _ _ (kept.given s t f index b run after)
    | err r t =>
      rw [run] at after
      exact after
    | stop cause =>
      rw [run] at after
      exact after
  · exact h

theorem fileBlockWalk_kept (filebno : Nat) (alloc : Bool) (h : E s) : (fileBlockWalk f filebno alloc s).Leaves E S := by
  unfold fileBlockWalk
  split
  · exact h
  · split
    · refine Result.Meets.bind (P := fun _ => E) ?_ fun _ t h => ?_
      · split
        · exact allocGive_kept kept (fun _ => (f.block, f.word + 44)) h
        · exact h
      · exact (readBlock_kept kept.toKeptByRead _ h).bind fun _ _ h => h
    · exact h

theorem fileMapBlock_kept (filebno : Nat) (alloc : Bool) (h : E s) : (fileMapBlock f filebno alloc s).Leaves E S := by
  refine (fileBlockWalk_kept kept filebno alloc h).bind fun ptr t h => ?_
  refine Result.Meets.bind (P := fun _ => E) ?_ fun _ _ h => h
  split
  · exact allocGive_kept kept (fun _ => ptr) h
  · exact h

theorem fileClearBlock_kept (filebno : Nat) (h : E s) : (fileClearBlock f filebno s).Leaves E S := by
  refine (fileBlockWalk_read kept.toKeptByRead filebno h).bind fun ptr t h => ?_
  split
  · exact kept.set _ _ _ _ (freeBlock_kept kept _ h)
  · exact h

theorem fileGetBlock_kept (filebno : Nat) (h : E s) : (fileGetBlock f filebno s).Leaves E S :=
  (fileMapBlock_kept kept filebno true h).bind fun b _ h => (readBlock_kept kept.toKeptByRead b h).bind fun _ _ h => h

theorem dirScan_kept (name : List Byte) (n i : Nat) (h : E s) : (dirScan dir name n i s).Leaves E S := by
  induction n generalizing i s with
  | zero => exact h
  | succ n ih =>
    refine (fileGetBlock_kept kept i h).bind fun b t h => ?_
    split
    · exact kept.set t _ _ _ h
    · exact ih (i + 1) h

theorem dirAllocScan_kept (n i : Nat) (h : E s) : (dirAllocScan dir n i s).Leaves E S := by
  induction n generalizing i s with
  | zero => exact (fileGetBlock_kept kept i (kept.set s _ _ _ h)).bind fun _ _ h => h
  | succ n ih =>
    refine (fileGetBlock_kept kept i h).bind fun b t h => ?_
    split
    · exact h
    · exact ih (i + 1) h

theorem walkElements_kept (names : List (List Byte)) (dir : Option FilePtr) (h : E s) :
    (walkElements dir f names s).Leaves E S := by
  induction names generalizing dir f s with
  | nil => exact h
  | cons name rest ih =>
    unfold walkElements
    split
    · exact h
    · split
      · exact h
      · have scanned : (dirLookup f name s).Leaves E S := dirScan_kept kept name _ _ h
        refine scanned.tested.bind fun r t h => ?_
        cases r with
        | ok g => exact ih _ h
        | error r => exact h

theorem walkPath_kept (path : List Byte) (h : E s) : (walkPath path s).Leaves E S := walkElements_kept kept _ _ h

theorem fileOpen_kept (path : List Byte) (h : E s) : (fileOpen path s).Leaves E S := by
  refine (walkPath_kept kept path h).bind fun w t h => ?_
  split
  · exact h
  · exact h

theorem setName_kept (name : List Byte) (h : E s) : E (s.setName f name) := by
  unfold Store.setName
  induction List.range (name.length + 1) generalizing s with
  | nil => exact h
  | cons k rest ih => exact ih (kept.set s _ _ _ h)

theorem fileCreate_kept (path : List Byte) (h : E s) : (fileCreate path s).Leaves E S := by
  refine (walkPath_kept kept path h).bind fun w t h => ?_
  split
  · exact h
  · split
    · exact h
    · split
      · exact h
      · exact (dirAllocScan_kept kept _ _ h).bind fun _ _ h => setName_kept kept _ h

theorem openFind_kept (path : List Byte) (omode : Word) (h : E s) : (openFind path omode s).Leaves E S := by
  unfold openFind
  split
  · refine (fileCreate_kept kept path h).bind fun f t h => ?_
    show E _
    split
    · exact kept.set t _ _ _ h
    · exact h
  · exact fileOpen_kept kept path h

theorem dropIndirect_kept (h : E s) : E (dropIndirect f s) := by
  unfold dropIndirect
  split
  · exact kept.set _ _ _ _ (freeBlock_kept kept _ h)
  · exact h

variable (truncate : S .truncate)
include truncate

theorem fileTruncate_kept (newsize : Word) (h : E s) : (fileTruncate f newsize s).Leaves E S := by
  refine Result.Meets.bind (P := fun _ => E) ?_ fun _ t h => kept.set _ _ _ _ ?_
  · refine Result.Leaves.forRange h fun k t h => ?_
    have cleared := fileClearBlock_kept kept (f := f) (newBlocks newsize + k) h
    cases run : fileClearBlock f (newBlocks newsize + k) t with
    | ok u t' => rw [run] at cleared; exact cleared
    | err e t' => exact truncate
    | stop cause => rw [run] at cleared; exact cleared
  · split
    · exact dropIndirect_kept kept h
    · exact h

theorem fileSetSize_kept (newsize : Word) (h : E s) : (fileSetSize f newsize s).Leaves E S := by
  refine Result.Meets.bind (P := fun _ => E) ?_ fun _ t h => flushDir_kept kept.toKeptByRead (kept.set t _ _ _ h)
  split
  · exact fileTruncate_kept kept truncate newsize h
  · exact h

theorem fileRemove_kept (path : List Byte) (h : E s) : (fileRemove path s).Leaves E S := by
  refine (walkPath_kept kept path h).bind fun w t h => ?_
  split
  · exact h
  · refine (fileTruncate_kept kept truncate 0 h).bind fun _ t h => ?_
    exact (fileFlush_kept kept.toKeptByRead (kept.set t _ _ _ h)).bind fun _ _ h => flushDir_kept kept.toKeptByRead h

end Writes

variable {t t' : Server}

theorem openAlloc_kept (kept : KeptByRead E S) (h : E t.fs) : (openAlloc t).Leaves (fun t => E t.fs) S := by
  unfold openAlloc
  split
  · exact h
  · split
    · dsimp only
      split
      · exact kept.asked t.fs h
      · exact kept.asked t.fs h
    · exact h

theorem withFs_kept {α : Type} {r : Res α} (h : r.Leaves E S) : (t.withFs r).Leaves (fun t => E t.fs) S := by
  cases r with
  | ok a s => exact h
  | err e s => exact h
  | stop cause => exact h

theorem onOpen_kept {fileid : Word} {body : FilePtr → Store → Res Reply} (wild : S .wild) (h : E t.fs)
    (keep : ∀ f, (body f t.fs).Leaves E S) : (onOpen fileid body t).Leaves (fun t => E t.fs) S := by
  unfold onOpen openLookup
  split
  · exact h
  · split
    · exact h
    · rw [Result.ok_bind]
      split
      · exact withFs_kept (keep _)
      · exact wild

theorem reply_kept {α : Type} {r : Res α} (h : r.Leaves E S) (reply : α → Reply) :
    (r.bind fun a s => (.ok (reply a) s : Res Reply)).Leaves E S := Result.Meets.bind h fun _ _ h => h

section Requests

variable (kept : KeptByWrite E S)
include kept

theorem serveMap_kept (fileid offset : Word) (h : E t.fs) : (serveMap fileid offset t).Leaves (fun t => E t.fs) S := by
  refine Result.Meets.bind (P := fun _ t => E t.fs) ?_ fun r u h => ?_
  · exact onOpen_kept kept.wild h fun f => reply_kept (fileGetBlock_kept kept _ h) fun b => Reply.block b
  · split
    · exact h
    · exact h

variable (truncate : S .truncate)
include truncate

theorem serveOpen_kept (path : List Byte) (omode : Word) (h : E t.fs) :
    (serveOpen path omode t).Leaves (fun t => E t.fs) S := by
  unfold serveOpen
  have found : (openAlloc t).Leaves (fun t => E t.fs) S := openAlloc_kept kept.toKeptByRead h
  refine Result.Meets.bind found fun i u h => ?_
  have find : (openFind path omode u.fs).Leaves E S := openFind_kept kept path omode h
  refine (withFs_kept find).bind fun f v h => ?_
  split
  · exact h
  · refine (withFs_kept (E := E) ?_).bind fun _ _ h => h
    split
    · exact fileSetSize_kept kept truncate 0 h
    · exact h

theorem serveStep_kept (op : ServeOp) (h : E t.fs) (next : serveStep t op = some t') : E t'.fs := by
  cases op <;> simp only [serveStep] at next
  case fsreqOpen path omode => exact (serveOpen_kept kept truncate path omode h).state next
  case fsreqMap fileid offset => exact (serveMap_kept kept fileid offset h).state next
  case fsreqSetSize fileid size =>
    have left : (serveSetSize fileid size t).Leaves (fun t => E t.fs) S :=
      onOpen_kept (E := E) kept.wild h fun f => reply_kept (fileSetSize_kept kept truncate size h) fun _ => Reply.code 0
    exact left.state next
  case fsreqClose fileid =>
    have left : (serveClose fileid t).Leaves (fun t => E t.fs) S :=
      onOpen_kept (E := E) kept.wild h fun f => reply_kept (fileClose_kept kept.toKeptByRead h) fun _ => Reply.code 0
    exact left.state next
  case fsreqDirty fileid offset =>
    have left : (serveDirty fileid offset t).Leaves (fun t => E t.fs) S :=
      onOpen_kept (E := E) kept.wild h fun f => reply_kept (fileDirty_kept kept.toKeptByRead offset h) fun _ => Reply.code 0
    exact left.state next
  case fsreqRemove path =>
    have left : (serveRemove path t).Leaves (fun t => E t.fs) S :=
      withFs_kept (reply_kept (fileRemove_kept kept truncate path h) fun _ => Reply.code 0)
    exact left.state next
  case fsreqSync =>
    have left : (serveSync t).Leaves (fun t => E t.fs) S :=
      withFs_kept (reply_kept (fsSync_kept kept.toKeptByRead h) fun _ => Reply.code 0)
    exact left.state next
  case shareFd i =>
    split at next <;> cases next
    exact h
  case dropFd i =>
    split at next <;> cases next
    exact h
  case store b i v =>
    split at next <;> cases next
    exact kept.set _ b i v h

end Requests

theorem memory_kept (memory : Nat → Bool) : KeptByWrite (fun s => s.memory = memory) fun _ => True where
  panic := trivial
  wild := trivial
  asked _ h := h
  loaded _ _ h _ _ := h
  marked _ _ h := h
  written _ _ _ h _ := h
  mapped _ _ h _ := h
  set _ _ _ _ h := h
  given _ _ _ _ _ _ h := h

section Codes

variable {C : Word → Prop} {s : Store} {f : FilePtr} {i : Nat}

theorem writeBlock_codes (b : Nat) (s : Store) : (writeBlock b s).Codes C := by
  unfold writeBlock
  split <;> trivial

variable (mem : C (-eNoMem))
include mem

theorem sysMemAlloc_codes (b : Nat) (s : Store) : (sysMemAlloc b s).Codes C := by
  unfold sysMemAlloc
  split
  · trivial
  · exact mem

theorem readBlock_codes (b : Nat) (s : Store) : (readBlock b s).Codes C := by
  unfold readBlock loadBlock
  split
  · trivial
  · split
    · trivial
    · split
      · trivial
      · exact (sysMemAlloc_codes mem b s).bind fun _ _ => trivial

theorem mapBlock_codes (b : Nat) (s : Store) : (mapBlock b s).Codes C := by
  unfold mapBlock
  split
  · trivial
  · exact sysMemAlloc_codes mem b s

variable (disk : C (-eNoDisk))
include disk

theorem allocBlock_codes (s : Store) : (allocBlock s).Codes C := by
  have number : (allocBlockNum s).Codes C := by
    unfold allocBlockNum
    split
    · exact disk
    · exact (writeBlock_codes _ _).bind fun _ _ => trivial
  refine number.bind fun b t => ?_
  cases ran : mapBlock b t with
  | ok _ _ => trivial
  | err r u => exact (mapBlock_codes mem b t).err ran
  | stop _ => trivial

variable {alloc : Bool} (absent : alloc = false → C (-eNotFound)) (beyond : nindirect ≤ i → C (-eInval))
include absent beyond

theorem fileBlockWalk_codes (f : FilePtr) (s : Store) : (fileBlockWalk f i alloc s).Codes C := by
  unfold fileBlockWalk
  split
  · trivial
  · split
    · refine Result.Codes.bind ?_ fun _ t => (readBlock_codes mem _ t).bind fun _ _ => trivial
      split
      · split
        · exact (allocBlock_codes mem disk s).bind fun _ _ => trivial
        · rename_i no
          exact absent (Bool.not_eq_true _ ▸ no)
      · trivial
    · rename_i high
      exact beyond (Nat.le_of_not_lt high)

theorem fileMapBlock_codes (f : FilePtr) (s : Store) : (fileMapBlock f i alloc s).Codes C := by
  refine (fileBlockWalk_codes mem disk absent beyond f s).bind fun ptr t => Result.Codes.bind ?_ fun _ _ => trivial
  split
  · split
    · exact (allocBlock_codes mem disk t).bind fun _ _ => trivial
    · rename_i no
      exact absent (Bool.not_eq_true _ ▸ no)
  · trivial

end Codes

end Mos.Fs
