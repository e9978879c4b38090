import Mos.User.Pipe

namespace Mos

/-- The positions stand for the totals `lo` of bytes read and `hi` of bytes written, and the ring holds the bytes
    between them. -/
structure Session.Inv (s : Session) (lo hi : Nat) : Prop where
  rpos : s.pipe.pRpos = BitVec.ofNat 32 lo
  wpos : s.pipe.pWpos = BitVec.ofNat 32 hi
  read : s.bytesRead.length = lo + s.reader.pending
  written : s.bytesWritten.length = hi + s.writer.pending
  ring : Ring.Holds s.pipe.pBuf s.bytesWritten lo hi
  inOrder : s.bytesRead <+: s.bytesWritten
  nonempty : s.reader.pc = .copy ∨ s.reader.pc = .advance → lo < hi
  room : s.writer.pc = .copy ∨ s.writer.pc = .advance → hi < lo + pipeSize
  placed : s.writer.pc = .advance → s.bytesWritten[hi]? = some (s.pipe.pBuf (Fin.ofNat pipeSize hi))
  readCounts : s.reader.Counts s.readBefore lo
  writeCounts : s.writer.Counts s.writtenBefore hi

variable {s t : Session} {lo hi : Nat}

theorem slot_ofNat (k : Nat) : Pipe.slot (BitVec.ofNat 32 k) = Fin.ofNat pipeSize k :=
  Ring.ofNat_counter (by decide) k

theorem Session.Inv.near (inv : s.Inv lo hi) : hi - lo ≤ pipeSize := by
  have room := inv.ring.room
  omega

theorem Session.Inv.empty_iff (inv : s.Inv lo hi) : s.pipe.pRpos = s.pipe.pWpos ↔ lo = hi := by
  have near := inv.near
  unfold pipeSize at near
  rw [inv.rpos, inv.wpos]
  exact Ring.counter_eq_iff inv.ring.order (by omega)

theorem Session.Inv.full_iff (inv : s.Inv lo hi) :
    s.pipe.pWpos - s.pipe.pRpos = BitVec.ofNat 32 pipeSize ↔ hi = lo + pipeSize := by
  have near := inv.near
  have order := inv.ring.order
  unfold pipeSize at *
  rw [inv.rpos, inv.wpos, Ring.counter_sub order]
  constructor
  · intro same
    have size := congrArg BitVec.toNat same
    simp only [BitVec.toNat_ofNat] at size
    omega
  · rintro rfl
    rw [Nat.add_sub_cancel_left]

theorem init_inv : Session.init.Inv 0 0 := by
  have counts : Frame.Counts ⟨0, 0, 0, .done 0⟩ 0 0 := by
    refine ⟨fun idle => ?_, fun r done => ?_, fun idle => ?_, fun idle => ?_, fun at_ => ?_⟩
    · cases idle
    · cases done
      exact ⟨rfl, by decide⟩
    · cases idle
    · cases idle
    · cases at_
  refine ⟨rfl, rfl, rfl, rfl, ⟨Nat.le_refl 0, by decide, fun k _ high => absurd high (Nat.not_lt_zero k)⟩,
    List.nil_prefix, fun at_ => ?_, fun _ => by decide, fun at_ => ?_, counts, counts⟩
  · rcases at_ with at_ | at_ <;> cases at_
  · cases at_

theorem Session.Inv.readerGoto (inv : s.Inv lo hi) {f : Frame} (was : s.reader.pending = 0) (now : f.pending = 0)
    (some : f.pc = .copy → lo < hi) (counts : f.Counts s.readBefore lo) : Session.Inv { s with reader := f } lo hi := by
  have stay : f.pc ≠ .advance := fun at_ => by simp [Frame.pending, at_] at now
  refine ⟨inv.rpos, inv.wpos, ?_, inv.written, inv.ring, inv.inOrder, fun at_ => ?_, inv.room, inv.placed, counts,
    inv.writeCounts⟩
  · rw [now, ← was]
    exact inv.read
  · exact some (at_.resolve_right stay)

theorem Session.Inv.writerGoto (inv : s.Inv lo hi) {f : Frame} (was : s.writer.pending = 0) (now : f.pending = 0)
    (room : f.pc = .copy → hi < lo + pipeSize) (counts : f.Counts s.writtenBefore hi) :
    Session.Inv { s with writer := f } lo hi := by
  have stay : f.pc ≠ .advance := fun at_ => by simp [Frame.pending, at_] at now
  refine ⟨inv.rpos, inv.wpos, inv.read, ?_, inv.ring, inv.inOrder, inv.nonempty, fun at_ => ?_, fun at_ => absurd at_ stay,
    inv.readCounts, counts⟩
  · rw [now, ← was]
    exact inv.written
  · exact room (at_.resolve_right stay)

theorem pipeRead_inv {closed : Bool} (inv : s.Inv lo hi) (h : pipeRead closed s = some t) : ∃ lo, t.Inv lo hi := by
  have counts := inv.readCounts
  cases at_ : s.reader.pc with
  | loop =>
    simp only [pipeRead, at_] at h
    have running : s.reader.idle = false := by simp [Frame.idle, at_]
    have was : s.reader.pending = 0 := by simp [Frame.pending, at_]
    cases h
    refine ⟨lo, ?_⟩
    by_cases less : s.reader.i < s.reader.n
    · simp only [less, if_true]
      exact inv.readerGoto was rfl (fun at_ => by cases at_)
        (counts.goto running (fun at_ => by cases at_) less fun r done => by cases done)
    · simp only [less, if_false]
      exact inv.readerGoto was rfl (fun at_ => by cases at_) (counts.leave running less)
  | test =>
    simp only [pipeRead, at_] at h
    have running : s.reader.idle = false := by simp [Frame.idle, at_]
    have was : s.reader.pending = 0 := by simp [Frame.pending, at_]
    have less := (counts.within running).2 (by simp [at_])
    cases h
    refine ⟨lo, ?_⟩
    by_cases empty : s.pipe.pRpos = s.pipe.pWpos
    · simp only [empty, if_true]
      exact inv.readerGoto was rfl (fun at_ => by cases at_)
        (counts.goto running (fun at_ => by cases at_) less fun r done => by cases done)
    · simp only [empty, if_false]
      refine inv.readerGoto was rfl (fun _ => ?_)
        (counts.goto running (fun at_ => by cases at_) less fun r done => by cases done)
      exact Nat.lt_of_le_of_ne inv.ring.order fun same => empty (inv.empty_iff.mpr same)
  | wait =>
    simp only [pipeRead, at_] at h
    have running : s.reader.idle = false := by simp [Frame.idle, at_]
    have was : s.reader.pending = 0 := by simp [Frame.pending, at_]
    have less := (counts.within running).2 (by simp [at_])
    cases h
    refine ⟨lo, ?_⟩
    by_cases stop : (closed || decide (0 < s.reader.i.toInt)) = true
    · simp only [stop, if_true]
      exact inv.readerGoto was rfl (fun at_ => by cases at_)
        (counts.goto running (fun at_ => by cases at_) less fun r done => by cases done; rfl)
    · simp only [stop, Bool.false_eq_true, if_false]
      exact inv.readerGoto was rfl (fun at_ => by cases at_)
        (counts.goto running (fun at_ => by cases at_) less fun r done => by cases done)
  | copy =>
    simp only [pipeRead, at_] at h
    split at h
    · rename_i user
      cases h
      have length : s.bytesRead.length = lo := by simpa [Frame.pending, at_] using inv.read
      have next := inv.ring.read (inv.nonempty (Or.inl at_))
      have slot : Pipe.slot s.pipe.pRpos = Fin.ofNat pipeSize lo := by rw [inv.rpos, slot_ofNat]
      refine ⟨lo, ⟨inv.rpos, inv.wpos, ?_, inv.written, inv.ring, ?_, fun _ => inv.nonempty (Or.inl at_), inv.room,
        inv.placed, counts.transfer at_ user, inv.writeCounts⟩⟩
      · simp [Frame.pending, length]
      · rw [slot]
        exact Ring.append_prefix inv.inOrder (length.symm ▸ next)
    · cases h
  | advance =>
    simp only [pipeRead, at_] at h
    cases h
    have length : s.bytesRead.length = lo + 1 := by simpa [Frame.pending, at_] using inv.read
    have less := inv.nonempty (Or.inr at_)
    refine ⟨lo + 1, ⟨?_, inv.wpos, ?_, inv.written, inv.ring.pop less, inv.inOrder, fun at_ => ?_, fun at_ => ?_,
      inv.placed, counts.next at_, inv.writeCounts⟩⟩
    · rw [inv.rpos, BitVec.ofNat_add]
      rfl
    · simpa [Frame.pending] using length
    · rcases at_ with at_ | at_ <;> cases at_
    · have room := inv.room at_
      omega
  | done r =>
    simp only [pipeRead, at_] at h
    cases h

theorem pipeWrite_inv {closed : Bool} (inv : s.Inv lo hi) (h : pipeWrite closed s = some t) : ∃ hi, t.Inv lo hi := by
  have counts := inv.writeCounts
  cases at_ : s.writer.pc with
  | loop =>
    simp only [pipeWrite, at_] at h
    have running : s.writer.idle = false := by simp [Frame.idle, at_]
    have was : s.writer.pending = 0 := by simp [Frame.pending, at_]
    cases h
    refine ⟨hi, ?_⟩
    by_cases less : s.writer.i < s.writer.n
    · simp only [less, if_true]
      exact inv.writerGoto was rfl (fun at_ => by cases at_)
        (counts.goto running (fun at_ => by cases at_) less fun r done => by cases done)
    · simp only [less, if_false]
      exact inv.writerGoto was rfl (fun at_ => by cases at_) (counts.leave running less)
  | test =>
    simp only [pipeWrite, at_] at h
    have running : s.writer.idle = false := by simp [Frame.idle, at_]
    have was : s.writer.pending = 0 := by simp [Frame.pending, at_]
    have less := (counts.within running).2 (by simp [at_])
    cases h
    refine ⟨hi, ?_⟩
    by_cases full : s.pipe.pWpos - s.pipe.pRpos = BitVec.ofNat 32 pipeSize
    · simp only [full, if_true]
      exact inv.writerGoto was rfl (fun at_ => by cases at_)
        (counts.goto running (fun at_ => by cases at_) less fun r done => by cases done)
    · simp only [full, if_false]
      refine inv.writerGoto was rfl (fun _ => ?_)
        (counts.goto running (fun at_ => by cases at_) less fun r done => by cases done)
      exact Nat.lt_of_le_of_ne inv.ring.room fun same => full (inv.full_iff.mpr same)
  | wait =>
    simp only [pipeWrite, at_] at h
    have running : s.writer.idle = false := by simp [Frame.idle, at_]
    have was : s.writer.pending = 0 := by simp [Frame.pending, at_]
    have less := (counts.within running).2 (by simp [at_])
    cases h
    refine ⟨hi, ?_⟩
    cases closed
    · exact inv.writerGoto was rfl (fun at_ => by cases at_)
        (counts.goto running (fun at_ => by cases at_) less fun r done => by cases done)
    · exact inv.writerGoto was rfl (fun at_ => by cases at_)
        (counts.goto running (fun at_ => by cases at_) less fun r done => by cases done; rfl)
  | copy =>
    simp only [pipeWrite, at_] at h
    split at h
    · rename_i user
      cases h
      have length : s.bytesWritten.length = hi := by simpa [Frame.pending, at_] using inv.written
      have slot : Pipe.slot s.pipe.pWpos = Fin.ofNat pipeSize hi := by rw [inv.wpos, slot_ofNat]
      have room := inv.room (Or.inl at_)
      refine ⟨hi, ⟨inv.rpos, inv.wpos, inv.read, ?_, ?_, inv.inOrder.trans (List.prefix_append _ _), inv.nonempty,
        fun _ => room, fun _ => ?_, inv.readCounts, counts.transfer at_ user⟩⟩
      · simp [Frame.pending, length]
      · rw [slot]
        exact (inv.ring.write room _).append _
      · rw [slot, ← length]
        simp
    · cases h
  | advance =>
    simp only [pipeWrite, at_] at h
    cases h
    have length : s.bytesWritten.length = hi + 1 := by simpa [Frame.pending, at_] using inv.written
    refine ⟨hi + 1, ⟨inv.rpos, ?_, inv.read, ?_, inv.ring.push (inv.room (Or.inr at_)) (inv.placed at_), inv.inOrder,
      fun at_ => Nat.lt_succ_of_lt (inv.nonempty at_), fun at_ => ?_, fun at_ => ?_, inv.readCounts, counts.next at_⟩⟩
    · rw [inv.wpos, BitVec.ofNat_add]
      rfl
    · simpa [Frame.pending] using length
    · rcases at_ with at_ | at_ <;> cases at_
    · cases at_
  | done r =>
    simp only [pipeWrite, at_] at h
    cases h

theorem idle_pending {f : Frame} (idle : f.idle = true) : f.pending = 0 := by
  unfold Frame.idle at idle
  split at idle
  · rename_i r at_
    simp [Frame.pending, at_]
  · cases idle

theorem step_inv {op : PipeOp} (inv : ∃ lo hi, s.Inv lo hi) (h : s.step op = some t) : ∃ lo hi, t.Inv lo hi := by
  obtain ⟨lo, hi, inv⟩ := inv
  cases op with
  | readCall vbuf n =>
    simp only [Session.step] at h
    split at h
    · rename_i idle
      cases h
      have was := idle_pending idle
      have length : s.bytesRead.length = lo := by simpa [was] using inv.read
      refine ⟨lo, hi, ⟨inv.rpos, inv.wpos, length, inv.written, inv.ring, inv.inOrder, fun at_ => ?_, inv.room,
        inv.placed, length.symm ▸ .start, inv.writeCounts⟩⟩
      rcases at_ with at_ | at_ <;> cases at_
    · cases h
  | writeCall mem vbuf n =>
    simp only [Session.step] at h
    split at h
    · rename_i idle
      cases h
      have was := idle_pending idle
      have length : s.bytesWritten.length = hi := by simpa [was] using inv.written
      refine ⟨lo, hi, ⟨inv.rpos, inv.wpos, inv.read, length, inv.ring, inv.inOrder, inv.nonempty, fun at_ => ?_,
        fun at_ => ?_, inv.readCounts, length.symm ▸ .start⟩⟩
      · rcases at_ with at_ | at_ <;> cases at_
      · cases at_
    · cases h
  | reader closed =>
    obtain ⟨lo, inv⟩ := pipeRead_inv inv h
    exact ⟨lo, hi, inv⟩
  | writer closed =>
    obtain ⟨hi, inv⟩ := pipeWrite_inv inv h
    exact ⟨lo, hi, inv⟩

/-- What a reader and a writer see of the pipe: the bytes come out in order, at most `PIPE_SIZE` of them are in
    the pipe, and a call that has returned `r` has transferred `r` bytes. -/
structure Session.Fifo (s : Session) : Prop where
  inOrder : s.bytesRead <+: s.bytesWritten
  held : (s.pipe.pWpos - s.pipe.pRpos).toNat ≤ pipeSize
  readReturns : ∀ r, s.reader.pc = .done r → r.toInt = s.bytesRead.length - s.readBefore
  writeReturns : ∀ r, s.writer.pc = .done r → r.toInt = s.bytesWritten.length - s.writtenBefore

theorem toInt_small {r : Word} (small : r.toNat < 2^31) : r.toInt = r.toNat := by
  rw [BitVec.toInt_eq_toNat_cond, if_pos (by omega)]

theorem Session.Inv.fifo (inv : s.Inv lo hi) : s.Fifo := by
  refine ⟨inv.inOrder, ?_, fun r done => ?_, fun r done => ?_⟩
  · have near := inv.near
    rw [inv.rpos, inv.wpos, Ring.counter_sub inv.ring.order, BitVec.toNat_ofNat]
    exact Nat.le_trans (Nat.mod_le _ _) near
  · obtain ⟨pos, small⟩ := inv.readCounts.returned r done
    have length : s.bytesRead.length = lo := by simpa [Frame.pending, done] using inv.read
    rw [toInt_small small]
    omega
  · obtain ⟨pos, small⟩ := inv.writeCounts.returned r done
    have length : s.bytesWritten.length = hi := by simpa [Frame.pending, done] using inv.written
    rw [toInt_small small]
    omega

/-- From a new pipe, in every interleaving of the steps of one reader and one writer, through any calls. -/
theorem pipe_fifo {ops : List PipeOp} (run : Run Session.step (fun _ _ => True) .init ops s) : s.Fifo := by
  obtain ⟨lo, hi, inv⟩ := run.invariant (fun s => ∃ lo hi, s.Inv lo hi) ⟨0, 0, init_inv⟩
    fun _ _ _ inv _ next => step_inv inv next
  exact inv.fifo

/-- The writer puts one byte in the pipe while the reader waits, and both calls return. -/
def turnRun : List PipeOp :=
  [.readCall 0x400000 2, .reader false, .reader false, .writeCall (fun _ => 7) 0x400000 1, .writer false, .writer false,
    .writer false, .reader false, .writer false, .reader false, .reader false, .reader false, .reader false,
    .reader false, .reader false, .writer false]

theorem pipe_fifo_turnRun : ∃ s, Run.exec Session.step .init turnRun = some s ∧ s.Fifo ∧ s.bytesRead = [7] := by
  have check : ((Run.exec Session.step .init turnRun).map Session.bytesRead) = some [7] := by decide
  obtain ⟨s, exec, bytes⟩ := Option.map_eq_some_iff.mp check
  exact ⟨s, exec, pipe_fifo (Run.of_exec (fun _ _ _ => trivial) exec), bytes⟩

end Mos
