import Mos.User.File
import Mos.Fs.Capability

namespace Mos.FileLib

open Fs FdLib

/-- No page is newly mapped and no entry of `opentab` newly referenced. -/
structure Unopened (w w' : World) : Prop where
  pages : ∀ v, (w'.maps v).isSome → (w.maps v).isSome
  entries : ∀ e, 2 ≤ (w'.server.opentab e).refs → 2 ≤ (w.server.opentab e).refs

/-- The size of the file that the server keeps for `fileid`. -/
def World.serverSize (w : World) (fileid : Word) : Option Word :=
  (w.server.opentab fileid.toNat).file.map w.server.fs.fSize

/-- Both sizes of the file of descriptor `fdnum` and its mapped window pages are as in `w`. -/
structure Restored (fdnum : Int) (w w' : World) : Prop where
  size : ∀ e, w.fdLookup fdnum = some e → w'.fSize e = w.fSize e
  server : ∀ e, w.fdLookup fdnum = some e → w'.serverSize (w.filefd e).fileid = w.serverSize (w.filefd e).fileid
  window : ∀ j < 1024, (w'.maps (FdLib.window fdnum j)).isSome = (w.maps (FdLib.window fdnum j)).isSome

/-- Of the requests to map `n` pages from page `k` on the server grants some, then refuses one and leaves `w'`. -/
def Refuses (room : Nat → Bool) (fileid : Word) (fdnum : Int) (n k : Nat) (w w' : World) : Prop :=
  ∃ j < n, ∃ w₁ r, mapLoop room fileid fdnum j k w = .ok () w₁ ∧
    fsipcMap room fileid (k + j) (FdLib.window fdnum (k + j)) w₁ = .err r w'

/-- The server opens the path, then refuses a request to map the file. -/
def OpenRefused (room : Nat → Bool) (resolve : List Byte → Option (List Byte)) (path : List Byte) (mode : Word) (w : World) :
    Prop :=
  ∃ full i e w₁ w₂, resolve path = some full ∧ w.fdAlloc = some i ∧ full.length < maxPathLen ∧
    w.ask (serveOpen full (mode &&& ~~~oAppend)) = .ok (.opened e) w₁ ∧ room (FdLib.index2Fd i) ∧
    Refuses room ((w₁.map (FdLib.index2Fd i) (.fd e)).filefd e).fileid i
      ((((w₁.map (FdLib.index2Fd i) (.fd e)).fSize e).toNat + 4095) / 4096) 0 (w₁.map (FdLib.index2Fd i) (.fd e)) w₂

/-- The server does not know the file of entry `e` and the size would change, or it sets the size, then refuses a
    request to map the file and answers the request to set the old size. -/
def TruncateRefused (room : Nat → Bool) (fdnum : Int) (size : Word) (w : World) : Prop :=
  ¬ maxFileSize < size ∧ ∃ e, w.fdLookup fdnum = some e ∧
    ((maxOpen ≤ (w.filefd e).fileid.toNat ∨ (w.server.opentab (w.filefd e).fileid.toNat).refs ≤ 1) ∧ size ≠ w.fSize e ∨
      ∃ r w₁ w₂ s, (w.setSize e size).ask (serveSetSize (w.filefd e).fileid size) = .ok r w₁ ∧
        Refuses room (w.filefd e).fileid fdnum (roundPages size - roundPages (w.fSize e)) (roundPages (w.fSize e)) w₁ w₂ ∧
        (serveSetSize (w.filefd e).fileid (w.fSize e) w₂.server).state = some s)

section Requests

variable {room : Nat → Bool} {fileid : Word} {fdnum : Int} {w w' : World} {r : Word}

theorem ask_ok {request : Server → SRes Reply} {a : Reply} (h : w.ask request = .ok a w') :
    ∃ s, request w.server = .ok a s ∧ w' = { w with server := s } := Result.lift_ok h

theorem ask_err {request : Server → SRes Reply} (h : w.ask request = .err r w') :
    ∃ s, request w.server = .err r s ∧ w' = { w with server := s } := Result.lift_err h

theorem withFs_opentab {α : Type} (s : Server) (r : Fs.Res α) :
    (s.withFs r).Meets (fun _ t => t.opentab = s.opentab) (fun t => t.opentab = s.opentab) fun _ => True := by
  cases r with
  | ok a fs => exact rfl
  | err e fs => exact rfl
  | stop c => trivial

theorem onOpen_opentab {body : FilePtr → Fs.Store → Fs.Res Reply} (s : Server) :
    (onOpen fileid body s).Meets (fun _ t => t.opentab = s.opentab) (fun t => t.opentab = s.opentab) fun _ => True := by
  unfold onOpen openLookup
  split
  · exact rfl
  · split
    · exact rfl
    · rw [Result.ok_bind]
      split
      · exact withFs_opentab s _
      · trivial

theorem serveMap_opentab (fileid offset : Word) (s : Server) :
    (serveMap fileid offset s).Meets (fun _ t => t.opentab = s.opentab) (fun t => t.opentab = s.opentab) fun _ => True := by
  refine (onOpen_opentab s).bind fun r t same => ?_
  cases r with
  | block b => exact same
  | code c => exact same
  | opened i => exact same

theorem filefd_setOpen {s : Server} {e i : Nat} {o : Open} (same : o.ff = (s.opentab i).ff) :
    ((s.setOpen i o).opentab e).ff = (s.opentab e).ff := by
  by_cases here : e = i
  · subst here
    simpa [Server.setOpen] using same
  · simp [Server.setOpen, here]

@[simp] theorem filefd_unmap (w : World) (v e : Nat) : (w.unmap v).filefd e = w.filefd e := by
  unfold World.unmap World.filefd
  split
  · exact filefd_setOpen rfl
  · rfl

@[simp] theorem filefd_map (w : World) (v e : Nat) (m : Mapped) : (w.map v m).filefd e = w.filefd e := filefd_unmap w v e

theorem map_maps (w : World) (v : Nat) (m : Mapped) : (w.map v m).maps = Function.update w.maps v (some m) := rfl

theorem fsipcMap_ok {k v : Nat} (inside : k < 2 ^ 20) (h : fsipcMap room fileid k v w = .ok () w') :
    (∀ e, w'.filefd e = w.filefd e) ∧ k < 1024 ∧ ∃ b, w'.maps = Function.update w.maps v (some (.block b)) := by
  obtain ⟨a, w₁, asked, rest⟩ := Result.bind_ok h
  obtain ⟨s, served, rfl⟩ := ask_ok asked
  have table : s.opentab = w.server.opentab := by
    have kept := serveMap_opentab fileid (BitVec.ofNat 32 (4096 * k)) w.server
    rw [served] at kept
    exact kept
  have below : k < 1024 ∧ ∃ b, a = .block b := by
    obtain ⟨a', s', opened, last⟩ := Result.bind_ok served
    obtain ⟨i, t, -, body⟩ := Result.bind_ok opened
    split at body
    · obtain ⟨fs, got, -⟩ := Result.lift_ok body
      obtain ⟨b, fs', block, same⟩ := Result.bind_ok got
      constructor
      · by_contra high
        have number : (BitVec.ofNat 32 (4096 * k)).toNat / 4096 = k := by
          rw [BitVec.toNat_ofNat]
          omega
        rw [number, fileGetBlock, fileMapBlock_beyond (Nat.le_of_not_lt high)] at block
        cases block
      · cases same
        cases last
        exact ⟨b, rfl⟩
    · cases body
  obtain ⟨below, b, rfl⟩ := below
  have same : ∀ e, World.filefd { w with server := s } e = w.filefd e := fun e => congrArg (fun t => (t e).ff) table
  dsimp only at rest
  split at rest
  · cases rest
    exact ⟨fun e => (filefd_map _ v e _).trans (same e), below, b, rfl⟩
  · cases rest

theorem fsipcMap_err {k v : Nat} (h : fsipcMap room fileid k v w = .err r w') :
    (∀ e, w'.filefd e = w.filefd e) ∧ w'.maps = w.maps := by
  rcases Result.bind_err h with asked | ⟨a, w₁, asked, rest⟩
  · obtain ⟨s, served, rfl⟩ := ask_err asked
    have kept := serveMap_opentab fileid (BitVec.ofNat 32 (4096 * k)) w.server
    rw [served] at kept
    exact ⟨fun e => congrArg (fun t => (t e).ff) kept, rfl⟩
  · split at rest
    · split at rest <;> cases rest
    · cases rest

theorem mapLoop_err (n k : Nat) (w w' : World) : (∃ r, mapLoop room fileid fdnum n k w = .err r w') ↔
    Refuses room fileid fdnum n k w w' := by
  induction n generalizing k w with
  | zero => exact iff_of_false (fun ⟨r, h⟩ => nomatch h) fun ⟨j, below, _⟩ => absurd below (Nat.not_lt_zero j)
  | succ n ih =>
    constructor
    · rintro ⟨r, h⟩
      rcases Result.bind_err h with refused | ⟨⟨⟩, w₁, granted, rest⟩
      · exact ⟨0, n.succ_pos, w, r, rfl, refused⟩
      · obtain ⟨j, below, w₂, r', before, refused⟩ := (ih (k + 1) w₁).mp ⟨r, rest⟩
        refine ⟨j + 1, Nat.succ_lt_succ below, w₂, r', ?_, ?_⟩
        · rw [mapLoop, granted]
          exact before
        · rw [show k + (j + 1) = k + 1 + j by omega]
          exact refused
    · rintro ⟨j, below, w₁, r, before, refused⟩
      cases j with
      | zero =>
        cases before
        refine ⟨r, ?_⟩
        rw [mapLoop, show fsipcMap room fileid k (FdLib.window fdnum k) w = .err r w' from refused]
        rfl
      | succ j =>
        obtain ⟨⟨⟩, w₂, granted, rest⟩ := Result.bind_ok before
        have later : Refuses room fileid fdnum n (k + 1) w₂ w' := by
          refine ⟨j, Nat.lt_of_succ_lt_succ below, w₁, r, rest, ?_⟩
          rw [show k + 1 + j = k + (j + 1) by omega]
          exact refused
        obtain ⟨r', h⟩ := (ih (k + 1) w₂).mpr later
        refine ⟨r', ?_⟩
        rw [mapLoop, granted]
        exact h

theorem mapLoop_ok {n k : Nat} (inside : k + n ≤ 2 ^ 20) (h : mapLoop room fileid fdnum n k w = .ok () w') :
    (∀ e, w'.filefd e = w.filefd e) ∧ (n = 0 ∨ k + n ≤ 1024) ∧
      ∀ v, (∀ j, j < 1024 → v ≠ FdLib.window fdnum j) → w'.maps v = w.maps v := by
  induction n generalizing k w with
  | zero =>
    cases h
    exact ⟨fun _ => rfl, .inl rfl, fun _ _ => rfl⟩
  | succ n ih =>
    obtain ⟨⟨⟩, w₁, granted, rest⟩ := Result.bind_ok h
    obtain ⟨words, below, b, maps⟩ := fsipcMap_ok (by omega) granted
    obtain ⟨words', end', frame⟩ := ih (by omega) rest
    refine ⟨fun e => (words' e).trans (words e), .inr (by omega), fun v outside => ?_⟩
    rw [frame v outside, maps, Function.update_of_ne (outside k below)]

theorem Refuses.keep {n k : Nat} (inside : k + n ≤ 2 ^ 20) (h : Refuses room fileid fdnum n k w w') :
    (∀ e, w'.filefd e = w.filefd e) ∧ ∀ v, (∀ j, j < 1024 → v ≠ FdLib.window fdnum j) → w'.maps v = w.maps v := by
  obtain ⟨j, below, w₁, r, before, refused⟩ := h
  obtain ⟨words, -, frame⟩ := mapLoop_ok (by omega) before
  obtain ⟨words', maps⟩ := fsipcMap_err refused
  refine ⟨fun e => (words' e).trans (words e), fun v outside => ?_⟩
  rw [maps]
  exact frame v outside

theorem openAlloc_entries (s : Server) :
    (openAlloc s).Meets (fun _ t => ∀ e, 2 ≤ (t.opentab e).refs → 2 ≤ (s.opentab e).refs)
      (fun t => ∀ e, 2 ≤ (t.opentab e).refs → 2 ≤ (s.opentab e).refs) fun _ => True := by
  have few : ∀ (t : Server) i (o : Open), t.opentab = s.opentab → o.refs ≤ 1 →
      ∀ e, 2 ≤ ((t.setOpen i o).opentab e).refs → 2 ≤ (s.opentab e).refs := by
    intro t i o same low e many
    by_cases here : e = i
    · subst here
      dsimp only [Server.setOpen] at many
      rw [Function.update_self] at many
      omega
    · dsimp only [Server.setOpen] at many
      rwa [Function.update_of_ne here, same] at many
  unfold openAlloc
  split
  · exact fun _ many => many
  · rename_i i found
    have low : (s.opentab i).refs ≤ 1 := by simpa using List.find?_some found
    split
    · dsimp only
      split
      · exact few (s.putFs _) i _ rfl (Nat.le_refl 1)
      · exact fun _ many => many
    · exact few s i _ rfl low

theorem serveOpen_err {path : List Byte} {omode : Word} {s t : Server} (h : serveOpen path omode s = .err r t) :
    ∀ e, 2 ≤ (t.opentab e).refs → 2 ≤ (s.opentab e).refs := by
  have start := openAlloc_entries s
  rcases Result.bind_err h with refused | ⟨i, s₁, taken, h⟩
  · rw [refused] at start
    exact start
  rw [taken] at start
  have find := withFs_opentab s₁ (openFind path omode s₁.fs)
  rcases Result.bind_err h with refused | ⟨f, s₂, found, h⟩
  · rw [refused] at find
    intro e many
    rw [show t.opentab = s₁.opentab from find] at many
    exact start e many
  rw [found] at find
  have same : s₂.opentab = s₁.opentab := find
  split at h
  · cases h
    intro e many
    rw [same] at many
    exact start e many
  · have trunc := withFs_opentab (s₂.setOpen i { s₂.opentab i with file := some f })
      (if omode &&& oTrunc ≠ 0 then fileSetSize f 0 s₂.fs else .ok () s₂.fs)
    rcases Result.bind_err h with refused | ⟨-, s₃, -, h⟩
    · have refused' := refused
      dsimp only [Server.setOpen] at refused' trunc
      rw [refused'] at trunc
      intro e many
      rw [show t.opentab = Function.update s₂.opentab i { s₂.opentab i with file := some f } from trunc] at many
      apply start e
      by_cases here : e = i
      · subst here
        rw [Function.update_self, same] at many
        exact many
      · rwa [Function.update_of_ne here, same] at many
    · cases h

theorem fdAlloc_free {i : Nat} (h : w.fdAlloc = some i) : i < 31 ∧ w.maps (FdLib.index2Fd i) = none := by
  have free := List.find?_some h
  have mem := List.mem_of_find?_eq_some h
  exact ⟨List.mem_range.mp mem, by simpa using free⟩

theorem index2Fd_outside {i : Nat} (low : i < 32) (j : Nat) (inside : j < 1024) :
    FdLib.index2Fd i ≠ FdLib.window i j := by
  have table : ((fdTable : Int) + i) % 2 ^ 20 = 0x5fc00 + i := by
    unfold fdTable
    omega
  have data : ((fileBase : Int) + 1024 * i + j) % 2 ^ 20 = 0x60000 + 1024 * i + j := by
    unfold fileBase
    omega
  rw [FdLib.index2Fd, FdLib.window, table, data]
  omega

/-- A call of `open` fails before the descriptor page is mapped, or when a request to map the file is refused. -/
theorem openFile_err {resolve : List Byte → Option (List Byte)} {path : List Byte} {mode : Word}
    (h : openFile room resolve path mode w = .err r w') : Unopened w w' ∨ OpenRefused room resolve path mode w := by
  unfold openFile at h
  split at h
  · cases h
    exact .inl ⟨fun _ mapped => mapped, fun _ many => many⟩
  rename_i full resolved
  split at h
  · cases h
    exact .inl ⟨fun _ mapped => mapped, fun _ many => many⟩
  rename_i i free
  split at h
  · cases h
    exact .inl ⟨fun _ mapped => mapped, fun _ many => many⟩
  rename_i short
  rcases Result.bind_err h with refused | ⟨a, w₁, opened, h⟩
  · obtain ⟨s, served, rfl⟩ := ask_err refused
    exact .inl ⟨fun _ mapped => mapped, serveOpen_err served⟩
  · split at h
    · rename_i e
      split at h
      · rename_i roomy
        rcases Result.bind_err h with refused | ⟨-, w₂, -, h⟩
        · exact .inr ⟨full, i, e, w₁, w', resolved, free, Nat.lt_of_not_le short, opened, roomy,
            (mapLoop_err _ _ _ _).mp ⟨r, refused⟩⟩
        · cases h
      · cases h
    · cases h

theorem openFile_refused {resolve : List Byte → Option (List Byte)} {path : List Byte} {mode : Word}
    (h : OpenRefused room resolve path mode w) :
    ∃ r w', openFile room resolve path mode w = .err r w' ∧ ¬ Unopened w w' := by
  obtain ⟨full, i, e, w₁, w₂, resolved, free, short, opened, roomy, refuses⟩ := h
  obtain ⟨low, unmapped⟩ := fdAlloc_free free
  obtain ⟨r, failed⟩ := (mapLoop_err _ _ _ _).mpr refuses
  refine ⟨r, w₂, ?_, fun kept => ?_⟩
  · rw [openFile, resolved]
    dsimp only
    rw [free]
    dsimp only
    rw [if_neg (Nat.not_le_of_lt short), opened]
    dsimp only [Result.ok_bind]
    rw [if_pos roomy, failed]
    rfl
  · obtain ⟨-, frame⟩ := refuses.keep (by omega)
    have still := kept.pages (FdLib.index2Fd i)
    rw [frame _ (index2Fd_outside (by omega)), map_maps, Function.update_self, unmapped] at still
    cases still rfl

theorem serveSetSize_opentab (fileid size : Word) (s : Server) : (serveSetSize fileid size s).Meets
    (fun _ t => t.opentab = s.opentab) (fun t => t.opentab = s.opentab) fun _ => True := onOpen_opentab s

theorem serveSetSize_err {size : Word} {s t : Server} (h : serveSetSize fileid size s = .err r t) :
    (maxOpen ≤ fileid.toNat ∨ (s.opentab fileid.toNat).refs ≤ 1) ∧ t = s := by
  by_cases shut : maxOpen ≤ fileid.toNat ∨ (s.opentab fileid.toNat).refs ≤ 1
  · rw [serveSetSize, onOpen_closed shut] at h
    cases h
    exact ⟨shut, rfl⟩
  · obtain ⟨inside, many⟩ := not_or.mp shut
    rcases Result.bind_err h with refused | ⟨i, s₁, found, h⟩
    · rw [openLookup, if_neg inside, if_neg many] at refused
      cases refused
    · split at h
      · rename_i f _
        obtain ⟨fs, refused, -⟩ := Result.lift_err h
        have never : ((fileSetSize f size s₁.fs).bind fun _ fs => (.ok (.code 0) fs : Fs.Res Reply)).Codes fun _ => False :=
          (fileSetSize_codes size).bind fun _ _ => trivial
        exact (never.err refused).elim
      · cases h

@[simp] theorem setSize_fSize (w : World) (e : Nat) (size : Word) : (w.setSize e size).fSize e = size := by
  simp [World.setSize, World.setFilefd, World.fSize, World.filefd, Server.setOpen]

@[simp] theorem setSize_fileid (w : World) (e i : Nat) (size : Word) :
    ((w.setSize e size).filefd i).fileid = (w.filefd i).fileid := by
  by_cases here : i = e
  · subst here
    simp [World.setSize, World.setFilefd, World.filefd, Server.setOpen]
  · simp [World.setSize, World.setFilefd, World.filefd, Server.setOpen, here]

@[simp] theorem setSize_refs (w : World) (e i : Nat) (size : Word) :
    ((w.setSize e size).server.opentab i).refs = (w.server.opentab i).refs := by
  by_cases here : i = e
  · subst here
    simp [World.setSize, World.setFilefd, Server.setOpen]
  · simp [World.setSize, World.setFilefd, Server.setOpen, here]

@[simp] theorem setSize_serverSize (w : World) (e : Nat) (size : Word) (fileid : Word) :
    (w.setSize e size).serverSize fileid = w.serverSize fileid := by
  by_cases here : fileid.toNat = e
  · subst here
    simp [World.setSize, World.setFilefd, World.serverSize, Server.setOpen]
  · simp [World.setSize, World.setFilefd, World.serverSize, Server.setOpen, here]

/-- The call that sets the size and stops there restores the descriptor when it set the size it found. -/
theorem restored_setSize {e : Nat} {size : Word} (found : w.fdLookup fdnum = some e) :
    Restored fdnum w (w.setSize e size) ↔ size = w.fSize e := by
  constructor
  · intro kept
    rw [← kept.size e found, setSize_fSize]
  · rintro rfl
    refine ⟨fun i other => ?_, fun i _ => setSize_serverSize w e _ _, fun _ _ => rfl⟩
    cases found.symm.trans other
    exact setSize_fSize w e _

variable {size : Word}

theorem ftruncate_err (h : ftruncate room fdnum size w = .err r w') :
    Restored fdnum w w' ∨ TruncateRefused room fdnum size w := by
  unfold ftruncate at h
  split at h
  · cases h
    exact .inl ⟨fun _ _ => rfl, fun _ _ => rfl, fun _ _ => rfl⟩
  rename_i fits
  split at h
  · cases h
    exact .inl ⟨fun _ _ => rfl, fun _ _ => rfl, fun _ _ => rfl⟩
  rename_i e found
  rcases Result.bind_err h with refused | ⟨a, w₁, asked, h⟩
  · obtain ⟨s, served, rfl⟩ := ask_err refused
    obtain ⟨shut, rfl⟩ := serveSetSize_err served
    rw [setSize_refs] at shut
    by_cases same : size = w.fSize e
    · exact .inl ((restored_setSize found).mpr same)
    · exact .inr ⟨fits, e, found, .inl ⟨shut, same⟩⟩
  · rcases Result.bind_err h with none | ⟨out, w₂, mapped, h⟩
    · cases mapped : mapLoop room (w.filefd e).fileid fdnum (roundPages size - roundPages (w.fSize e))
        (roundPages (w.fSize e)) w₁ with
      | _ => rw [mapped] at none; cases none
    · cases out with
      | ok u =>
        exfalso
        have noErr : ∀ n k (w : World), unmapLoop fdnum n k w ≠ .err r w' := by
          intro n
          induction n with
          | zero =>
            intro k w h
            cases h
          | succ n ih =>
            intro k w h
            rw [unmapLoop] at h
            split at h
            · exact ih _ _ h
            · cases h
        exact noErr _ _ _ h
      | error c =>
        have refuses := (mapLoop_err _ _ _ _).mp ⟨c, Result.tested_error mapped⟩
        have answered : ∃ s, (serveSetSize (w.filefd e).fileid (w.fSize e) w₂.server).state = some s := by
          dsimp only at h
          rcases Result.bind_err h with refused | ⟨b, w₃, back, -⟩
          · obtain ⟨s, served, -⟩ := ask_err refused
            exact ⟨s, by rw [served]; rfl⟩
          · obtain ⟨s, served, -⟩ := ask_ok back
            exact ⟨s, by rw [served]; rfl⟩
        obtain ⟨s, answered⟩ := answered
        exact .inr ⟨fits, e, found, .inr ⟨a, w₁, w₂, s, asked, refuses, answered⟩⟩

theorem roundPages_small (fits : ¬ maxFileSize < size) : roundPages size ≤ 1024 := by
  unfold maxFileSize at fits
  unfold roundPages
  bv_omega

theorem ftruncate_refused (h : TruncateRefused room fdnum size w) :
    ∃ r w', ftruncate room fdnum size w = .err r w' ∧ ¬ Restored fdnum w w' := by
  obtain ⟨fits, e, found, ⟨shut, changed⟩ | ⟨a, w₁, w₂, s, asked, refuses, answered⟩⟩ := h
  · refine ⟨-eInval, w.setSize e size, ?_, fun kept => changed ((restored_setSize found).mp kept)⟩
    have refused : (w.setSize e size).ask (serveSetSize (w.filefd e).fileid size) = .err (-eInval) (w.setSize e size) := by
      rw [World.ask, serveSetSize, onOpen_closed (by rwa [setSize_refs])]
      rfl
    rw [ftruncate, if_neg fits, found]
    dsimp only
    rw [refused]
    rfl
  · obtain ⟨c, failed⟩ := (mapLoop_err _ _ _ _).mpr refuses
    have words : w₁.filefd e = (w.setSize e size).filefd e := by
      obtain ⟨t, served, rfl⟩ := ask_ok asked
      have kept := serveSetSize_opentab (w.filefd e).fileid size (w.setSize e size).server
      rw [served] at kept
      exact congrArg (fun tab => (tab e).ff) kept
    have inside : roundPages (w.fSize e) + (roundPages size - roundPages (w.fSize e)) ≤ 2 ^ 20 := by
      obtain ⟨j, below, -⟩ := refuses
      have small := roundPages_small fits
      omega
    obtain ⟨words', -⟩ := refuses.keep inside
    have kept := serveSetSize_opentab (w.filefd e).fileid (w.fSize e) w₂.server
    have last : ∃ c', ((w₂.ask (serveSetSize (w.filefd e).fileid (w.fSize e))).bind fun _ w => (.err c w : WRes Unit)) =
        .err c' { w₂ with server := s } ∧ s.opentab = w₂.server.opentab := by
      cases back : serveSetSize (w.filefd e).fileid (w.fSize e) w₂.server with
      | ok a t =>
        rw [back] at answered kept
        cases answered
        exact ⟨c, by rw [World.ask, back]; rfl, kept⟩
      | err c' t =>
        rw [back] at answered kept
        cases answered
        exact ⟨c', by rw [World.ask, back]; rfl, kept⟩
      | stop cause =>
        rw [back] at answered
        cases answered
    obtain ⟨c', last, table⟩ := last
    refine ⟨c', { w₂ with server := s }, ?_, fun restored => ?_⟩
    · rw [ftruncate, if_neg fits, found]
      dsimp only
      rw [asked, Result.ok_bind, failed]
      exact last
    · have size' : World.fSize { w₂ with server := s } e = size := by
        have same : World.filefd { w₂ with server := s } e = (w.setSize e size).filefd e :=
          (congrArg (fun tab => (tab e).ff) table).trans ((words' e).trans words)
        rw [World.fSize, same]
        exact setSize_fSize w e size
      have old := restored.size e found
      obtain ⟨j, below, -⟩ := refuses
      rw [size'] at old
      rw [old] at below
      omega

end Requests

/-- The calls that fail leave the caller and the server as they were, except where a request to map the file is
    refused, or the size is set of a file that the server does not know. -/
theorem file_calls_atomic (room : Nat → Bool) (resolve : List Byte → Option (List Byte)) (path : List Byte) (mode : Word)
    (fdnum : Int) (size : Word) (e : Nat) (buf n offset : Word) (w : World) :
    ((∀ r w', openFile room resolve path mode w = .err r w' → Unopened w w') ↔ ¬ OpenRefused room resolve path mode w) ∧
      ((∀ r w', ftruncate room fdnum size w = .err r w' → Restored fdnum w w') ↔ ¬ TruncateRefused room fdnum size w) ∧
      ((∀ r w', fileWrite room fdnum e buf n offset w = .err r w' → Restored (fd2num fdnum) w w') ↔
        ¬ (offset + n ≤ maxFileSize ∧ w.fSize e < offset + n ∧ TruncateRefused room (fd2num fdnum) (offset + n) w)) := by
  refine ⟨⟨fun atomic bad => ?_, fun good r w' h => (openFile_err h).resolve_right good⟩,
    ⟨fun atomic bad => ?_, fun good r w' h => (ftruncate_err h).resolve_right good⟩, fun atomic bad => ?_, fun good r w' h => ?_⟩
  · obtain ⟨r, w', failed, lost⟩ := openFile_refused bad
    exact lost (atomic r w' failed)
  · obtain ⟨r, w', failed, lost⟩ := ftruncate_refused bad
    exact lost (atomic r w' failed)
  · obtain ⟨fits, grows, bad⟩ := bad
    obtain ⟨r, w', failed, lost⟩ := ftruncate_refused bad
    refine lost (atomic r w' ?_)
    rw [fileWrite, if_neg (BitVec.not_lt.mpr fits), if_pos grows, failed]
    rfl
  · by_cases fits : maxFileSize < offset + n
    · rw [fileWrite, if_pos fits] at h
      cases h
      exact ⟨fun _ _ => rfl, fun _ _ => rfl, fun _ _ => rfl⟩
    rw [fileWrite, if_neg fits] at h
    rcases Result.bind_err h with refused | ⟨-, w₁, -, h⟩
    · split at refused
      · rename_i grows
        exact (ftruncate_err refused).resolve_right fun bad => good ⟨BitVec.not_lt.mp fits, grows, bad⟩
      · cases refused
    · split at h <;> cases h

/-- The server of an empty disk whose memory has run out, with the root directory open as descriptor 0. The root has
    `size` bytes and no blocks. -/
def fullWorld (size : Word) : World where
  server :=
    { fs := { bootStore emptyImage (fun _ => false) with
        cache := fun b => if b = 1 then some (Function.update (emptyImage 1) 34 size) else if b = 2 then some (emptyImage 2) else none }
      opentab := fun i => if i = 0 then
          { file := some root, mode := 2, refs := 2
            ff := { devId := devfileId, offset := 0, omode := 2, fileid := 0, file := fun k => if k = 32 then size else 0 } }
        else { file := none, mode := 0, ff := clearFilefd, refs := 1 }
      handed := fun _ => false }
  maps := fun v => if v = FdLib.index2Fd 0 then some (.fd 0) else none

/-- `ftruncate` leaves the new size in the descriptor, and `open` the page of the descriptor that it returns no number of. -/
theorem file_calls_lose :
    (∃ r w', ftruncate (fun _ => true) 0 4096 (fullWorld 0) = .err r w' ∧ ¬ Restored 0 (fullWorld 0) w') ∧
      ∃ r w', openFile (fun _ => true) some [0x2f] 0 (fullWorld 4096) = .err r w' ∧ ¬ Unopened (fullWorld 4096) w' := by
  constructor
  · have check : ((ftruncate (fun _ => true) 0 4096 (fullWorld 0)).failed.any fun f => f.2.fSize 0 = 4096) = true := by
      decide +kernel
    obtain ⟨⟨r, w'⟩, out, grown⟩ := (Option.any_eq_true ..).mp check
    refine ⟨r, w', Result.failed_some out, fun kept => ?_⟩
    have size := kept.size 0 rfl
    rw [of_decide_eq_true grown] at size
    exact absurd size (by decide)
  · have check : ((openFile (fun _ => true) some [0x2f] 0 (fullWorld 4096)).failed.any fun f =>
        (f.2.maps (FdLib.index2Fd 1)).isSome) = true := by decide +kernel
    obtain ⟨⟨r, w'⟩, out, left⟩ := (Option.any_eq_true ..).mp check
    refine ⟨r, w', Result.failed_some out, fun kept => ?_⟩
    have mapped := kept.pages (FdLib.index2Fd 1) left
    exact absurd mapped (by decide)

end Mos.FileLib
