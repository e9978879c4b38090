import Mos.Fs.Clients

namespace Mos.Fs

inductive FileRequest where
  | map (offset : Word)
  | setSize (size : Word)
  | close
  | dirty (offset : Word)

/-- `open_lookup` is given the env that asks but does not look at it. -/
def FileRequest.serve (r : FileRequest) (_envid fileid : Word) : Server → SRes Reply :=
  match r with
  | .map offset => serveMap fileid offset
  | .setSize size => serveSetSize fileid size
  | .close => serveClose fileid
  | .dirty offset => serveDirty fileid offset

def FileRequest.Beyond : FileRequest → Prop
  | .map offset => nindirect ≤ offset.toNat / 4096
  | .dirty offset => nindirect ≤ offset.toNat / 4096
  | _ => False

/-- The answer is `-E_INVAL`, and no file is changed. -/
def Denied (r : SRes Reply) (s : Server) : Prop := ∃ u, r = .err (-eInval) u ∧ u.fs = s.fs

def Valid (r : Word) : Prop := r ≠ -eInval

section Codes

variable {s : Store} {f : FilePtr} {i : Nat} {C : Word → Prop}

theorem dirtyBlock_valid (b : Nat) (s : Store) : (dirtyBlock b s).Codes Valid := by
  unfold dirtyBlock
  split
  · exact (by decide : -eNotFound ≠ -eInval)
  · trivial

theorem fileMapBlock_valid (inside : i < nindirect) (alloc : Bool) (s : Store) : (fileMapBlock f i alloc s).Codes Valid :=
  fileMapBlock_codes (by decide : -eNoMem ≠ -eInval) (by decide : -eNoDisk ≠ -eInval) (fun _ => (by decide : -eNotFound ≠ -eInval))
    (fun high => absurd inside (Nat.not_lt.mpr high)) f s

theorem fileFlush_codes (f : FilePtr) (s : Store) : (fileFlush f s).Codes C := by
  refine Result.Codes.forRange fun i t => Result.Codes.tested.bind fun r u => ?_
  split
  · split
    · exact writeBlock_codes _ u
    · trivial
  · trivial

theorem flushDir_codes (f : FilePtr) (s : Store) : (flushDir f s).Codes C := by
  unfold flushDir
  split
  · trivial
  · split
    · exact fileFlush_codes _ s
    · trivial

theorem fileTruncate_codes (newsize : Word) : (fileTruncate f newsize s).Codes C := by
  refine Result.Codes.bind (Result.Codes.forRange fun k t => ?_) fun _ _ => trivial
  unfold panicOnClear
  split
  · trivial
  · rename_i notErr
    cases ran : fileClearBlock f (newBlocks newsize + k) t with
    | err r u => exact absurd ran (notErr r u)
    | _ => trivial

theorem fileSetSize_codes (size : Word) : (fileSetSize f size s).Codes C := by
  refine Result.Codes.bind ?_ fun _ t => flushDir_codes f _
  split
  · exact fileTruncate_codes size
  · trivial

theorem closeScan_valid (dir f : FilePtr) (n i : Nat) (s : Store) : (closeScan dir f n i s).Codes Valid := by
  induction n generalizing i s with
  | zero => trivial
  | succ n ih =>
    refine Result.Codes.tested.bind fun r t => ?_
    split
    · trivial
    · refine Result.Codes.tested.bind fun r u => ?_
      split
      · trivial
      · split
        · exact Result.Codes.tested.bind fun _ _ => trivial
        · exact ih (i + 1) u

theorem fileClose_valid : (fileClose f s).Codes Valid := by
  refine (fileFlush_codes f s).bind fun _ t => ?_
  split
  · trivial
  · split
    · exact (closeScan_valid _ f _ 0 t).bind fun _ u => flushDir_codes f u
    · trivial

theorem fileMapBlock_beyond (beyond : nindirect ≤ i) (alloc : Bool) : fileMapBlock f i alloc s = .err (-eInval) s := by
  have direct : ¬ i < ndirect := by
    have less : ndirect < nindirect := by decide
    omega
  rw [fileMapBlock, fileBlockWalk, if_neg direct, if_neg (Nat.not_lt.mpr beyond)]
  rfl

end Codes

section Lookup

variable {s : Server} {fileid : Word} {body : FilePtr → Store → Res Reply}

theorem onOpen_closed (shut : maxOpen ≤ fileid.toNat ∨ (s.opentab fileid.toNat).refs ≤ 1) :
    onOpen fileid body s = .err (-eInval) s := by
  have refused : openLookup fileid s = .err (-eInval) s := by
    unfold openLookup
    split
    · rfl
    · rename_i inside
      rw [if_pos (shut.resolve_left inside)]
  rw [onOpen, refused]
  rfl

theorem onOpen_open {f : FilePtr} (inside : fileid.toNat < maxOpen) (many : 1 < (s.opentab fileid.toNat).refs)
    (file : (s.opentab fileid.toNat).file = some f) : onOpen fileid body s = s.withFs (body f s.fs) := by
  rw [onOpen, openLookup, if_neg (Nat.not_le_of_lt inside), if_neg (Nat.not_le_of_lt many), Result.ok_bind, file]

theorem Denied.of_valid {r : SRes Reply} (codes : r.Codes Valid) : ¬ Denied r s := by
  rintro ⟨u, same, -⟩
  exact codes.err same rfl

theorem serveMap_err {r : Word} {offset : Word} {t : Server}
    (failed : onOpen fileid (fun f fs => (fileGetBlock f (offset.toNat / 4096) fs).bind fun b fs => .ok (.block b) fs) s = .err r t) :
    serveMap fileid offset s = .err r t := by
  rw [serveMap, failed]
  rfl

theorem refused_open {f : FilePtr} (inside : fileid.toNat < maxOpen) (many : 1 < (s.opentab fileid.toNat).refs)
    (file : (s.opentab fileid.toNat).file = some f) (who : Word) (r : FileRequest) :
    Denied (r.serve who fileid s) s ↔ r.Beyond := by
  cases r with
  | map offset =>
    by_cases beyond : nindirect ≤ offset.toNat / 4096
    · refine iff_of_true ⟨s, serveMap_err ?_, rfl⟩ beyond
      rw [onOpen_open inside many file, fileGetBlock, fileMapBlock_beyond beyond]
      rfl
    · refine iff_of_false (Denied.of_valid ?_) beyond
      refine Result.Codes.bind ?_ fun r t => ?_
      · rw [onOpen_open inside many file]
        refine Result.Codes.lift (Result.Codes.bind ?_ fun _ _ => trivial)
        exact (fileMapBlock_valid (Nat.lt_of_not_le beyond) true s.fs).bind fun b t =>
          (readBlock_codes (by decide : -eNoMem ≠ -eInval) b t).bind fun _ _ => trivial
      · split <;> trivial
  | setSize size =>
    refine iff_of_false (Denied.of_valid ?_) False.elim
    show (serveSetSize fileid size s).Codes Valid
    rw [serveSetSize, onOpen_open inside many file]
    exact Result.Codes.lift ((fileSetSize_codes size).bind fun _ _ => trivial)
  | close =>
    refine iff_of_false (Denied.of_valid ?_) False.elim
    show (serveClose fileid s).Codes Valid
    rw [serveClose, onOpen_open inside many file]
    exact Result.Codes.lift (fileClose_valid.bind fun _ _ => trivial)
  | dirty offset =>
    show Denied (serveDirty fileid offset s) s ↔ nindirect ≤ offset.toNat / 4096
    rw [serveDirty, onOpen_open inside many file, fileDirty]
    by_cases beyond : nindirect ≤ offset.toNat / 4096
    · refine iff_of_true ⟨s, ?_, rfl⟩ beyond
      rw [fileMapBlock_beyond beyond]
      rfl
    · refine iff_of_false (Denied.of_valid ?_) beyond
      refine Result.Codes.lift (Result.Codes.bind ?_ fun _ _ => trivial)
      exact (fileMapBlock_valid (Nat.lt_of_not_le beyond) false s.fs).bind fun b t => dirtyBlock_valid b t

end Lookup

theorem refused_closed {s : Server} {fileid : Word} (shut : maxOpen ≤ fileid.toNat ∨ (s.opentab fileid.toNat).refs ≤ 1) (who : Word)
    (r : FileRequest) : Denied (r.serve who fileid s) s := by
  refine ⟨s, ?_, rfl⟩
  cases r with
  | map offset => exact serveMap_err (onOpen_closed shut)
  | setSize size => exact (onOpen_closed shut : serveSetSize fileid size s = _)
  | close => exact (onOpen_closed shut : serveClose fileid s = _)
  | dirty offset => exact (onOpen_closed shut : serveDirty fileid offset s = _)

/-- An env without the descriptor page is refused if and only if no env at all has it, or it asks for a block that no
    file can have. -/
theorem fileid_capability_iff {disk : Nat → Page} {memory : Nat → Bool} {t : Server} {c : Clients}
    (booted : serverInit disk memory = some t) {ops : List ClientOp} (ran : Run clientStep Roomy (.start t) ops c)
    (who fileid : Word) (_ : who ∉ c.mappings fileid.toNat) (r : FileRequest) :
    Denied (r.serve who fileid c.server) c.server ↔
      maxOpen ≤ fileid.toNat ∨ ¬ IsMapped c fileid.toNat ∨ r.Beyond := by
  have tracked := clientRun_tracked (Tracked.start disk memory booted) ran
  by_cases shut : maxOpen ≤ fileid.toNat ∨ (c.server.opentab fileid.toNat).refs ≤ 1
  · refine iff_of_true (refused_closed shut who r) ?_
    rcases shut with outside | low
    · exact .inl outside
    · exact .inr (.inl ((tracked.low _).mp low))
  · obtain ⟨inside, many⟩ := not_or.mp shut
    have mapped : IsMapped c fileid.toNat := not_not.mp fun free => many ((tracked.low _).mpr free)
    obtain ⟨f, file⟩ := Option.ne_none_iff_exists'.mp (tracked.file _ mapped)
    rw [refused_open (Nat.lt_of_not_le inside) (Nat.lt_of_not_le many) file who r]
    constructor
    · exact fun beyond => .inr (.inr beyond)
    · rintro (outside | free | beyond)
      · exact absurd outside inside
      · exact absurd mapped free
      · exact beyond

set_option maxRecDepth 100000 in
theorem fileid_capability_iff_clientRun : ∃ t c, emptyServer = some t ∧ Run clientStep Roomy (.start t) clientRun c ∧
    (2 : Word) ∉ c.mappings 7 ∧ Denied ((FileRequest.setSize 4096).serve 2 7 c.server) c.server := by
  have check : (emptyServer.any fun t => (Run.exec clientStep (.start t) clientRun).any fun c =>
      decide (c.mappings 7 = [])) = true := by decide +kernel
  simp only [Option.any_eq_true, decide_eq_true_eq] at check
  obtain ⟨t, booted, c, exec, free⟩ := check
  have ran := Run.of_exec clientRun_roomy exec
  have foreign : (2 : Word) ∉ c.mappings (7 : Word).toNat := by
    rw [show (7 : Word).toNat = 7 from rfl, free]
    exact List.not_mem_nil
  exact ⟨t, c, booted, ran, foreign, (fileid_capability_iff booted ran 2 7 foreign (.setSize 4096)).mpr
    (.inr (.inl (not_not.mpr free)))⟩

set_option maxRecDepth 100000 in
/-- The env 2, which has never opened anything, sets the size of the file that the env 1 has open. -/
theorem fileid_no_capability : ∃ t c u, emptyServer = some t ∧ Run clientStep Roomy (.start t) clientRun c ∧
    (2 : Word) ∉ c.mappings 0 ∧ ((FileRequest.setSize 4096).serve 2 0 c.server).state = some u ∧
    u.fs.fSize (fileOf 3 0) ≠ c.server.fs.fSize (fileOf 3 0) ∧ ¬ Denied ((FileRequest.setSize 4096).serve 2 0 c.server) c.server := by
  have check : (emptyServer.any fun t => (Run.exec clientStep (.start t) clientRun).any fun c =>
      decide ((2 : Word) ∉ c.mappings 0) && ((FileRequest.setSize 4096).serve 2 0 c.server).state.any fun u =>
        decide (u.fs.fSize (fileOf 3 0) ≠ c.server.fs.fSize (fileOf 3 0))) = true := by decide +kernel
  simp only [Option.any_eq_true, Bool.and_eq_true, decide_eq_true_eq] at check
  obtain ⟨t, booted, c, exec, foreign, u, served, changed⟩ := check
  refine ⟨t, c, u, booted, Run.of_exec clientRun_roomy exec, foreign, served, changed, ?_⟩
  rintro ⟨v, denied, same⟩
  rw [denied] at served
  cases served
  exact changed (by rw [same])

end Mos.Fs
