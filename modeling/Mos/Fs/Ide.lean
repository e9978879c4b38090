import Mos.Lib.Block
import Mos.Kern.Device

namespace Mos.Ide

abbrev Byte := BitVec 8

def ideData : Word := 0x180001f0
def ideNsect : Word := 0x180001f2
def ideLbal : Word := 0x180001f3
def ideLbam : Word := 0x180001f4
def ideLbah : Word := 0x180001f5
def ideDevice : Word := 0x180001f6
def ideStatus : Word := 0x180001f7
def ideLba : Word := 0xe0
def ideBusy : Byte := 0x80
def cmdPioRead : Word := 0x20
def cmdPioWrite : Word := 0x30
def sectSize : Nat := 512

/-- The memory of the file server and what is behind the bus. -/
structure Server (σ : Type) where
  mem : Word → Byte
  dev : σ

/-- Where `temp` of `ide_read` and `ide_write` and `flag` of `wait_ide_ready` lie. -/
structure Frame where
  temp : Word
  flag : Word
  temp_user : utemp.toNat ≤ temp.toNat ∧ temp.toNat < utop.toNat
  flag_user : utemp.toNat ≤ flag.toNat ∧ flag.toNat < utop.toNat

def applyStores (mem : Word → Byte) (stores : List Store) : Word → Byte :=
  stores.foldl (fun mem store => Function.update mem store.1 store.2) mem

section Calls

variable {σ : Type} (bus : Bus σ) (yield : σ → σ) (patience : σ → Nat) (frame : Frame)

/-- `panic_on(syscall_write_dev(va, pa, len))`, or `none` when it panics. -/
def writeDev (va pa len : Word) (s : Server σ) : Option (Server σ) :=
  match Dev.sysWriteDev bus s.mem va pa len s.dev with
  | .ok r dev => if r = 0 then some { s with dev } else none
  | _ => none

/-- `panic_on(syscall_read_dev(va, pa, len))`, or `none` when it panics. -/
def readDev (va pa len : Word) (s : Server σ) : Option (Server σ) :=
  match Dev.sysReadDev bus va pa len s.dev with
  | .ok (r, stores) dev => if r = 0 then some { mem := applyStores s.mem stores, dev } else none
  | _ => none

def setTemp (value : Byte) (s : Server σ) : Server σ := { s with mem := Function.update s.mem frame.temp value }

/-- `temp = value; panic_on(syscall_write_dev(&temp, pa, 1));` -/
def putTemp (value pa : Word) (s : Server σ) : Option (Server σ) :=
  writeDev bus frame.temp pa 1 (setTemp frame (value.setWidth 8) s)

def waitLoop : Nat → Server σ → Option (Byte × Server σ)
  | 0, _ => none
  | fuel + 1, s =>
    (readDev bus frame.flag ideStatus 1 s).bind fun s =>
      if s.mem frame.flag &&& ideBusy = 0 then some (s.mem frame.flag, s) else waitLoop fuel { s with dev := yield s.dev }

/-- `wait_ide_ready`, for as many rounds as `patience` says. -/
def waitIdeReady (s : Server σ) : Option (Byte × Server σ) := waitLoop bus yield frame (patience s.dev) s

/-- The steps of `ide_read` and `ide_write` before the data. -/
def request (diskno secno command : Word) (s : Server σ) : Option (Server σ) :=
  (waitIdeReady bus yield patience frame s).bind fun (temp, s) =>
  (putTemp bus frame 1 ideNsect (setTemp frame temp s)).bind fun s =>
  (putTemp bus frame (secno &&& 0xff) ideLbal s).bind fun s =>
  (putTemp bus frame ((secno >>> 8) &&& 0xff) ideLbam s).bind fun s =>
  (putTemp bus frame ((secno >>> 16) &&& 0xff) ideLbah s).bind fun s =>
  (putTemp bus frame (((secno >>> 24) &&& (0x0f : Word)) ||| ideLba ||| (diskno <<< 4)) ideDevice s).bind fun s =>
  (putTemp bus frame command ideStatus s).bind fun s =>
  (waitIdeReady bus yield patience frame s).map fun (temp, s) => setTemp frame temp s

/-- `while (secno < max) { …; offset += SECT_SIZE; secno += 1; }` -/
def sectors (max : Word) (body : Word → Word → Server σ → Option (Server σ)) (secno offset : Word) (s : Server σ) :
    Option (Server σ) :=
  if secno < max then
    (body secno offset s).bind (sectors max body (secno + 1) (offset + BitVec.ofNat 32 sectSize))
  else some s
termination_by max.toNat - secno.toNat
decreasing_by
  rename_i less
  have bound := max.isLt
  rw [BitVec.lt_def] at less
  have one : (1 : Word).toNat = 1 := rfl
  rw [BitVec.toNat_add, one]
  omega

/-- `for (int i = 0; i < SECT_SIZE / 4; i++)` -/
def eachWord (body : Word → Server σ → Option (Server σ)) (s : Server σ) : Option (Server σ) :=
  (List.range (sectSize / 4)).foldlM (fun s i => body (BitVec.ofNat 32 (i * 4)) s) s

def ideRead (diskno secno dst nsecs : Word) (s : Server σ) : Option (Server σ) :=
  if 2 ≤ diskno then none
  else
    sectors (nsecs + secno) (fun secno offset s =>
      (request bus yield patience frame diskno secno cmdPioRead s).bind fun s =>
      (eachWord (fun i => readDev bus (dst + offset + i) ideData 4) s).bind fun s =>
      readDev bus frame.temp ideStatus 1 s) secno 0 s

def ideWrite (diskno secno src nsecs : Word) (s : Server σ) : Option (Server σ) :=
  if 2 ≤ diskno then none
  else
    sectors (nsecs + secno) (fun secno offset s =>
      (request bus yield patience frame diskno secno cmdPioWrite s).bind fun s =>
      (eachWord (fun i => writeDev bus (src + offset + i) ideData 4) s).bind fun s =>
      readDev bus frame.temp ideStatus 1 s) secno 0 s

end Calls

/-- What a drive is about to do: to give the `rest` of a sector, or to take the rest of one. -/
inductive Phase where
  | idle
  | reading (rest : List Byte)
  | writing (drive lba : Nat) (given : List Byte)

/-- The registers as they were last written, and the sectors of the disks. -/
structure Ata where
  nsect : Byte
  lbal : Byte
  lbam : Byte
  lbah : Byte
  device : Byte
  phase : Phase
  disk : Nat → Nat → List Byte

namespace Ata

def lba (a : Ata) : Nat := a.lbal.toNat + 2^8 * a.lbam.toNat + 2^16 * a.lbah.toNat + 2^24 * (a.device.toNat % 16)

def drive (a : Ata) : Nat := a.device.toNat / 16 % 2

/-- The registers ask for one sector, by its number. -/
structure OneSector (a : Ata) : Prop where
  count : a.nsect = 1
  mode : a.device.toNat / 64 % 2 = 1

def put (a : Ata) (pa : Word) (v : Byte) : Ata :=
  if pa = ideNsect then { a with nsect := v }
  else if pa = ideLbal then { a with lbal := v }
  else if pa = ideLbam then { a with lbam := v }
  else if pa = ideLbah then { a with lbah := v }
  else { a with device := v }

def setSector (disk : Nat → Nat → List Byte) (drive lba : Nat) (bytes : List Byte) : Nat → Nat → List Byte := fun d n =>
  if d = drive ∧ n = lba then bytes else disk d n

end Ata

/-- The device performs one-sector LBA28 PIO transfers: `view` is its state as the driver can tell, and a register or
    the data port is used only when the status has shown that it is not busy. -/
structure PioDevice {σ : Type} (bus : Bus σ) (yield : σ → σ) (view : σ → Ata) (ready : σ → Prop) : Prop where
  status : ∀ s, view (ioread8 bus ideStatus s).2 = view s ∧
    ((ioread8 bus ideStatus s).1 &&& ideBusy = 0 → ready (ioread8 bus ideStatus s).2)
  yields : ∀ s, view (yield s) = view s
  completes : ∀ s, ∃ n : Nat, (ioread8 bus ideStatus ((fun s => yield (ioread8 bus ideStatus s).2)^[n] s)).1 &&& ideBusy = 0
  register : ∀ s v, ∀ pa ∈ [ideNsect, ideLbal, ideLbam, ideLbah, ideDevice], ready s → (view s).phase = .idle →
    view (iowrite8 bus v pa s) = (view s).put pa v ∧ ready (iowrite8 bus v pa s)
  readCommand : ∀ s, ready s → (view s).phase = .idle → (view s).OneSector →
    (view (iowrite8 bus (cmdPioRead.setWidth 8) ideStatus s)).phase = .reading ((view s).disk (view s).drive (view s).lba) ∧
      (view (iowrite8 bus (cmdPioRead.setWidth 8) ideStatus s)).disk = (view s).disk
  writeCommand : ∀ s, ready s → (view s).phase = .idle → (view s).OneSector →
    (view (iowrite8 bus (cmdPioWrite.setWidth 8) ideStatus s)).phase = .writing (view s).drive (view s).lba [] ∧
      (view (iowrite8 bus (cmdPioWrite.setWidth 8) ideStatus s)).disk = (view s).disk
  dataIn : ∀ s rest, ready s → (view s).phase = .reading rest → 4 < rest.length →
    wordBytes (ioread32 bus ideData s).1 = rest.take 4 ∧ (view (ioread32 bus ideData s).2).phase = .reading (rest.drop 4) ∧
      (view (ioread32 bus ideData s).2).disk = (view s).disk ∧ ready (ioread32 bus ideData s).2
  dataInLast : ∀ s rest, ready s → (view s).phase = .reading rest → rest.length = 4 →
    wordBytes (ioread32 bus ideData s).1 = rest ∧ (view (ioread32 bus ideData s).2).phase = .idle ∧
      (view (ioread32 bus ideData s).2).disk = (view s).disk
  dataOut : ∀ s word drive lba given, ready s → (view s).phase = .writing drive lba given → given.length + 4 < sectSize →
    (view (iowrite32 bus word ideData s)).phase = .writing drive lba (given ++ wordBytes word) ∧
      (view (iowrite32 bus word ideData s)).disk = (view s).disk ∧ ready (iowrite32 bus word ideData s)
  dataOutLast : ∀ s word drive lba given, ready s → (view s).phase = .writing drive lba given →
    given.length + 4 = sectSize → (view (iowrite32 bus word ideData s)).phase = .idle ∧
      (view (iowrite32 bus word ideData s)).disk = Ata.setSector (view s).disk drive lba (given ++ wordBytes word)

/-- The user memory that a transfer of `nsecs` sectors uses. -/
structure Buffer (frame : Frame) (va nsecs : Word) : Prop where
  aligned : va.toNat % 4 = 0
  low : utemp.toNat ≤ va.toNat
  high : va.toNat + sectSize * nsecs.toNat ≤ utop.toNat
  temp_outside : ¬(va.toNat ≤ frame.temp.toNat ∧ frame.temp.toNat < va.toNat + sectSize * nsecs.toNat)
  flag_outside : ¬(va.toNat ≤ frame.flag.toNat ∧ frame.flag.toNat < va.toNat + sectSize * nsecs.toNat)

section Memory

variable {mem mem' : Word → Byte} {va a : Word} {frame : Frame}

theorem applyStores_copyOut {bytes : List Byte} (short : bytes.length ≤ 2^32) :
    applyStores mem (copyOut va bytes) = Block.store mem va (fun j => bytes.getD j 0) bytes.length := by
  induction bytes generalizing mem va with
  | nil => rfl
  | cons b rest ih =>
    rw [List.length_cons] at short
    have first : Function.update mem va b = Block.store mem va (fun j => (b :: rest).getD j 0) 1 := by
      funext x
      rw [Block.store]
      by_cases here : x = va
      · rw [here, sub_self, if_pos (by decide), Function.update_self]
        rfl
      · have apart : ¬(x - va).toNat < 1 := by
          intro less
          exact here (sub_eq_zero.mp (BitVec.eq_of_toNat_eq (Nat.lt_one_iff.mp less)))
        rw [Function.update_of_ne here, if_neg apart]
    have second : (fun j => rest.getD j 0) = fun j => (b :: rest).getD (1 + j) 0 := by
      funext j
      rw [Nat.add_comm, List.getD_cons_succ]
    show applyStores (Function.update mem va b) (copyOut (va + 1) rest) = _
    rw [ih (by omega), first, second, List.length_cons, Nat.add_comm rest.length]
    exact Block.store_append _ (by omega)

theorem applyStores_four (mem : Word → Byte) (va w : Word) :
    applyStores mem (copyOut va (wordBytes w)) = Block.store mem va (fun j => (wordBytes w).getD j 0) 4 :=
  applyStores_copyOut (show 4 ≤ 2^32 by decide)

/-- The bytes from `va` on. -/
def bytesAt (mem : Word → Byte) (va : Word) (n : Nat) : List Byte :=
  (List.range n).map fun j => mem (va + BitVec.ofNat 32 j)

theorem bytesAt_length (n : Nat) : (bytesAt mem va n).length = n := by rw [bytesAt, List.length_map, List.length_range]

theorem bytesAt_congr {n : Nat} (same : ∀ j < n, mem' (va + BitVec.ofNat 32 j) = mem (va + BitVec.ofNat 32 j)) :
    bytesAt mem' va n = bytesAt mem va n :=
  List.map_congr_left fun j inside => same j (List.mem_range.mp inside)

theorem bytesAt_word (mem : Word → Byte) (va : Word) (n : Nat) :
    bytesAt mem va n ++ wordBytes (loadWord mem (va + BitVec.ofNat 32 n)) = bytesAt mem va (n + 4) := by
  have byte (j : Nat) (below : j < 4) : (loadWord mem (va + BitVec.ofNat 32 n) >>> (8 * j)).setWidth 8 =
      mem (va + BitVec.ofNat 32 (n + j)) := by
    rw [loadWord_byte mem _ below, add_assoc, ← BitVec.ofNat_add]
  have word : wordBytes (loadWord mem (va + BitVec.ofNat 32 n)) = [mem (va + BitVec.ofNat 32 n),
      mem (va + BitVec.ofNat 32 (n + 1)), mem (va + BitVec.ofNat 32 (n + 2)), mem (va + BitVec.ofNat 32 (n + 3))] := by
    show [_, _, _, _] = _
    rw [← byte 1 (by decide), ← byte 2 (by decide), ← byte 3 (by decide)]
    exact congrArg (· :: _) (byte 0 (by decide))
  rw [word]
  simp only [bytesAt, List.range_succ, List.map_append, List.append_assoc, List.map_cons, List.map_nil]
  rfl

def SameOff (frame : Frame) (mem mem' : Word → Byte) : Prop := ∀ a, a ≠ frame.temp → a ≠ frame.flag → mem' a = mem a

theorem SameOff.refl (frame : Frame) (mem : Word → Byte) : SameOff frame mem mem := fun _ _ _ => rfl

theorem SameOff.trans {mem'' : Word → Byte} (first : SameOff frame mem mem') (second : SameOff frame mem' mem'') :
    SameOff frame mem mem'' := fun a temp flag => (second a temp flag).trans (first a temp flag)

theorem sameOff_temp (frame : Frame) (mem : Word → Byte) (v : Byte) : SameOff frame mem (Function.update mem frame.temp v) :=
  fun _ temp _ => Function.update_of_ne temp _ _

theorem sameOff_flag (frame : Frame) (mem : Word → Byte) (v : Byte) : SameOff frame mem (Function.update mem frame.flag v) :=
  fun _ _ flag => Function.update_of_ne flag _ _

end Memory

section Buffers

variable {frame : Frame} {va n : Word} {mem mem' : Word → Byte}

theorem Buffer.toNat_add (buffer : Buffer frame va n) {j : Nat} (inside : j < sectSize * n.toNat) :
    (va + BitVec.ofNat 32 j).toNat = va.toNat + j := by
  have high := buffer.high
  have top : utop.toNat < 2^32 := utop.isLt
  rw [BitVec.toNat_add, BitVec.toNat_ofNat, Nat.mod_eq_of_lt (show j < 2^32 by omega),
    Nat.mod_eq_of_lt (by omega)]

theorem Buffer.byte (buffer : Buffer frame va n) (same : SameOff frame mem mem') {j : Nat} (inside : j < sectSize * n.toNat) :
    mem' (va + BitVec.ofNat 32 j) = mem (va + BitVec.ofNat 32 j) := by
  have place := buffer.toNat_add inside
  refine same _ (fun eq => buffer.temp_outside ?_) fun eq => buffer.flag_outside ?_
  · rw [← eq, place]
    omega
  · rw [← eq, place]
    omega

theorem Buffer.word (buffer : Buffer frame va n) {j : Nat} (inside : j + 4 ≤ sectSize * n.toNat) (whole : j % 4 = 0) :
    DevOk (va + BitVec.ofNat 32 j) ideData 4 := by
  have place := buffer.toNat_add (show j < sectSize * n.toNat by omega)
  have aligned := buffer.aligned
  have low := buffer.low
  have high := buffer.high
  have four : (4 : Word).toNat = 4 := rfl
  refine ⟨⟨.inr (.inr rfl), ?_, ?_⟩, by decide, (0x180001f0, 0x180001f8), by decide, by decide, by decide⟩
  · rw [place, four]
    omega
  · rw [place, four]
    omega

theorem devOk_byte {pa : Word} (user : utemp.toNat ≤ va.toNat ∧ va.toNat < utop.toNat)
    (register : ideData.toNat ≤ pa.toNat ∧ pa.toNat ≤ ideStatus.toNat) : DevOk va pa 1 := by
  have one : (1 : Word).toNat = 1 := rfl
  have first : ideData.toNat = 0x180001f0 := rfl
  have last : ideStatus.toNat = 0x180001f7 := rfl
  refine ⟨⟨.inl rfl, Nat.mod_one _, user.1, ?_⟩, Nat.mod_one _, (0x180001f0, 0x180001f8), by decide, register.1, ?_⟩
  · rw [one]
    omega
  · show pa.toNat + 1 ≤ 0x180001f8
    omega

end Buffers

section Accesses

variable {σ : Type} {bus : Bus σ} {s : Server σ} {va pa : Word}

theorem writeDev_byte (ok : DevOk va pa 1) :
    writeDev bus va pa 1 s = some { s with dev := iowrite8 bus (s.mem va) pa s.dev } := by
  rw [writeDev, Dev.sysWriteDev, checked_passes ok.toDevBuffer ok.legal]
  rfl

theorem writeDev_word (ok : DevOk va pa 4) :
    writeDev bus va pa 4 s = some { s with dev := iowrite32 bus (loadWord s.mem va) pa s.dev } := by
  rw [writeDev, Dev.sysWriteDev, checked_passes ok.toDevBuffer ok.legal]
  rfl

theorem readDev_byte (ok : DevOk va pa 1) : readDev bus va pa 1 s =
    some { mem := Function.update s.mem va (ioread8 bus pa s.dev).1, dev := (ioread8 bus pa s.dev).2 } := by
  rw [readDev, Dev.sysReadDev, checked_passes ok.toDevBuffer ok.legal]
  rfl

theorem readDev_word (ok : DevOk va pa 4) : readDev bus va pa 4 s =
    some { mem := Block.store s.mem va (fun j => (wordBytes (ioread32 bus pa s.dev).1).getD j 0) 4,
           dev := (ioread32 bus pa s.dev).2 } := by
  have stores := applyStores_four s.mem va (ioread32 bus pa s.dev).1
  rw [readDev, Dev.sysReadDev, checked_passes ok.toDevBuffer ok.legal]
  exact congrArg (fun mem => some (Server.mk mem (ioread32 bus pa s.dev).2)) stores

end Accesses

section Registers

variable {σ : Type} {bus : Bus σ} {yield : σ → σ} {patience : σ → Nat} {view : σ → Ata} {ready : σ → Prop} {frame : Frame}
  {s s' : Server σ}

theorem putTemp_eq (bus : Bus σ) (frame : Frame) (s : Server σ) (value : Word) {pa : Word}
    (register : ideData.toNat ≤ pa.toNat ∧ pa.toNat ≤ ideStatus.toNat) :
    putTemp bus frame value pa s = some { mem := Function.update s.mem frame.temp (value.setWidth 8),
                                          dev := iowrite8 bus (value.setWidth 8) pa s.dev } := by
  rw [putTemp, writeDev_byte (devOk_byte frame.temp_user register)]
  simp [setTemp]

def Patient (bus : Bus σ) (yield : σ → σ) (patience : σ → Nat) : Prop := ∀ s, ∃ n < patience s,
  (ioread8 bus ideStatus ((fun s => yield (ioread8 bus ideStatus s).2)^[n] s)).1 &&& ideBusy = 0

/-- The device is as it was, but not busy, and the memory is as it was, but for the locals. -/
structure Waited (view : σ → Ata) (ready : σ → Prop) (frame : Frame) (s s' : Server σ) : Prop where
  ready : ready s'.dev
  view : view s'.dev = view s.dev
  mem : SameOff frame s.mem s'.mem

theorem waitLoop_ready (ata : PioDevice bus yield view ready) (frame : Frame) {n fuel : Nat} (enough : n < fuel)
    (idle : (ioread8 bus ideStatus ((fun s => yield (ioread8 bus ideStatus s).2)^[n] s.dev)).1 &&& ideBusy = 0) :
    ∃ flag s', waitLoop bus yield frame fuel s = some (flag, s') ∧ Waited view ready frame s s' := by
  induction fuel generalizing n s with
  | zero => exact absurd enough (Nat.not_lt_zero n)
  | succ fuel ih =>
    have read : readDev bus frame.flag ideStatus 1 s = _ := readDev_byte (devOk_byte frame.flag_user ⟨by decide, by decide⟩)
    have told := ata.status s.dev
    rw [waitLoop, read, Option.bind_some]
    simp only [Function.update_self]
    by_cases clear : (ioread8 bus ideStatus s.dev).1 &&& ideBusy = 0
    · exact ⟨_, _, if_pos clear, told.2 clear, told.1, sameOff_flag frame s.mem _⟩
    · rw [if_neg clear]
      cases n with
      | zero => exact absurd idle clear
      | succ n =>
        rw [Function.iterate_succ_apply] at idle
        obtain ⟨flag, last, waits, waited⟩ := @ih
          ⟨Function.update s.mem frame.flag (ioread8 bus ideStatus s.dev).1, yield (ioread8 bus ideStatus s.dev).2⟩
          n (by omega) idle
        have same : view (yield (ioread8 bus ideStatus s.dev).2) = view s.dev := (ata.yields _).trans told.1
        exact ⟨flag, last, waits, waited.ready, waited.view.trans same, (sameOff_flag frame s.mem _).trans waited.mem⟩

theorem waitIdeReady_ready (ata : PioDevice bus yield view ready) (frame : Frame) (patient : Patient bus yield patience) (s : Server σ) :
    ∃ temp s', waitIdeReady bus yield patience frame s = some (temp, s') ∧ Waited view ready frame s (setTemp frame temp s') := by
  obtain ⟨n, enough, idle⟩ := patient s.dev
  obtain ⟨temp, next, waits, waited⟩ := waitLoop_ready ata frame enough idle
  exact ⟨temp, next, waits, waited.ready, waited.view, waited.mem.trans (sameOff_temp frame next.mem temp)⟩

theorem putTemp_register (ata : PioDevice bus yield view ready) (frame : Frame) (value pa : Word)
    (register : pa ∈ [ideNsect, ideLbal, ideLbam, ideLbah, ideDevice]) (isReady : ready s.dev)
    (idle : (view s.dev).phase = .idle) : ∃ s', putTemp bus frame value pa s = some s' ∧ ready s'.dev ∧
      view s'.dev = (view s.dev).put pa (value.setWidth 8) ∧ SameOff frame s.mem s'.mem := by
  have place : ideData.toNat ≤ pa.toNat ∧ pa.toNat ≤ ideStatus.toNat := by
    simp only [List.mem_cons, List.not_mem_nil, or_false] at register
    rcases register with rfl | rfl | rfl | rfl | rfl <;> decide
  obtain ⟨seen, stays⟩ := ata.register s.dev (value.setWidth 8) pa register isReady idle
  exact ⟨_, putTemp_eq bus frame s value place, stays, seen, sameOff_temp frame s.mem _⟩

theorem put_phase (a : Ata) (pa : Word) (v : Byte) : (a.put pa v).phase = a.phase ∧ (a.put pa v).disk = a.disk := by
  unfold Ata.put
  split_ifs <;> exact ⟨rfl, rfl⟩

/-- The registers for sector `secno` of disk `diskno`. -/
def addressed (a : Ata) (diskno secno : Word) : Ata :=
  ((((a.put ideNsect ((1 : Word).setWidth 8)).put ideLbal ((secno &&& 0xff).setWidth 8)).put ideLbam
    (((secno >>> 8) &&& 0xff).setWidth 8)).put ideLbah (((secno >>> 16) &&& 0xff).setWidth 8)).put ideDevice
    ((((secno >>> 24) &&& (0x0f : Word)) ||| ideLba ||| (diskno <<< 4)).setWidth 8)

theorem device_toNat {high diskno : Word} (small : high.toNat < 16) (disk : diskno.toNat < 2) :
    ((high ||| ideLba ||| (diskno <<< 4)).setWidth 8).toNat = high.toNat + 0xe0 + 16 * diskno.toNat := by
  have all : ∀ h < 16, ∀ d < 2, ((BitVec.ofNat 32 h ||| ideLba ||| (BitVec.ofNat 32 d <<< 4)).setWidth 8).toNat =
    h + 0xe0 + 16 * d := by decide
  simpa using all high.toNat small diskno.toNat disk

theorem low_toNat (w : Word) : ((w &&& 0xff).setWidth 8).toNat = w.toNat % 256 := by
  have mask : (w &&& 0xff).toNat = w.toNat % 256 := by
    rw [BitVec.toNat_and]
    exact Nat.and_two_pow_sub_one_eq_mod w.toNat 8
  rw [BitVec.toNat_setWidth, mask, Nat.mod_mod]

theorem addressed_fields (a : Ata) {diskno secno : Word} (disk : diskno.toNat < 2) (small : secno.toNat < 2^28) :
    (addressed a diskno secno).OneSector ∧ (addressed a diskno secno).lba = secno.toNat ∧
      (addressed a diskno secno).drive = diskno.toNat := by
  have high : ((secno >>> 24) &&& (0x0f : Word)).toNat = secno.toNat / 2^24 % 16 := by
    rw [BitVec.toNat_and, BitVec.toNat_ushiftRight, Nat.shiftRight_eq_div_pow]
    exact Nat.and_two_pow_sub_one_eq_mod _ 4
  have device := device_toNat (show ((secno >>> 24) &&& (0x0f : Word)).toNat < 16 by omega) disk
  have mid : (((secno >>> 8) &&& 0xff).setWidth 8).toNat = secno.toNat / 2^8 % 256 := by
    rw [low_toNat, BitVec.toNat_ushiftRight, Nat.shiftRight_eq_div_pow]
  have upper : (((secno >>> 16) &&& 0xff).setWidth 8).toNat = secno.toNat / 2^16 % 256 := by
    rw [low_toNat, BitVec.toNat_ushiftRight, Nat.shiftRight_eq_div_pow]
  have low := low_toNat secno
  have fields : addressed a diskno secno = { a with
      nsect := (1 : Word).setWidth 8
      lbal := (secno &&& 0xff).setWidth 8
      lbam := ((secno >>> 8) &&& 0xff).setWidth 8
      lbah := ((secno >>> 16) &&& 0xff).setWidth 8
      device := (((secno >>> 24) &&& (0x0f : Word)) ||| ideLba ||| (diskno <<< 4)).setWidth 8 } := rfl
  rw [fields]
  refine ⟨⟨rfl, ?_⟩, ?_, ?_⟩
  · show BitVec.toNat _ / 64 % 2 = 1
    rw [device]
    omega
  · show BitVec.toNat _ + 2^8 * BitVec.toNat _ + 2^16 * BitVec.toNat _ + 2^24 * (BitVec.toNat _ % 16) = _
    rw [low, mid, upper, device, high]
    omega
  · show BitVec.toNat _ / 16 % 2 = _
    rw [device]
    omega

theorem addressed_phase (a : Ata) (diskno secno : Word) :
    (addressed a diskno secno).phase = a.phase ∧ (addressed a diskno secno).disk = a.disk := ⟨rfl, rfl⟩

theorem registers_written (ata : PioDevice bus yield view ready) (frame : Frame) (isReady : ready s.dev) (idle : (view s.dev).phase = .idle)
    (diskno secno : Word) (f : Server σ → Option (Server σ)) :
    ∃ s₁, ready s₁.dev ∧ view s₁.dev = addressed (view s.dev) diskno secno ∧ SameOff frame s.mem s₁.mem ∧
      ((putTemp bus frame 1 ideNsect s).bind fun s =>
        (putTemp bus frame (secno &&& 0xff) ideLbal s).bind fun s =>
        (putTemp bus frame ((secno >>> 8) &&& 0xff) ideLbam s).bind fun s =>
        (putTemp bus frame ((secno >>> 16) &&& 0xff) ideLbah s).bind fun s =>
        (putTemp bus frame (((secno >>> 24) &&& (0x0f : Word)) ||| ideLba ||| (diskno <<< 4)) ideDevice s).bind f) = f s₁ := by
  obtain ⟨s₁, put₁, ready₁, view₁, mem₁⟩ := putTemp_register ata frame 1 ideNsect (by decide) isReady idle
  have idle₁ : (view s₁.dev).phase = .idle := by rw [view₁, (put_phase _ _ _).1, idle]
  obtain ⟨s₂, put₂, ready₂, view₂, mem₂⟩ := putTemp_register ata frame (secno &&& 0xff) ideLbal (by decide)
    ready₁ idle₁
  have idle₂ : (view s₂.dev).phase = .idle := by rw [view₂, (put_phase _ _ _).1, idle₁]
  obtain ⟨s₃, put₃, ready₃, view₃, mem₃⟩ :=
    putTemp_register ata frame ((secno >>> 8) &&& 0xff) ideLbam (by decide) ready₂ idle₂
  have idle₃ : (view s₃.dev).phase = .idle := by rw [view₃, (put_phase _ _ _).1, idle₂]
  obtain ⟨s₄, put₄, ready₄, view₄, mem₄⟩ :=
    putTemp_register ata frame ((secno >>> 16) &&& 0xff) ideLbah (by decide) ready₃ idle₃
  have idle₄ : (view s₄.dev).phase = .idle := by rw [view₄, (put_phase _ _ _).1, idle₃]
  obtain ⟨s₅, put₅, ready₅, view₅, mem₅⟩ :=
    putTemp_register ata frame (((secno >>> 24) &&& (0x0f : Word)) ||| ideLba ||| (diskno <<< 4)) ideDevice (by decide)
      ready₄ idle₄
  refine ⟨s₅, ready₅, ?_, (((mem₁.trans mem₂).trans mem₃).trans mem₄).trans mem₅, ?_⟩
  · rw [view₅, view₄, view₃, view₂, view₁]
    rfl
  · rw [put₁, Option.bind_some, put₂, Option.bind_some, put₃, Option.bind_some, put₄, Option.bind_some, put₅, Option.bind_some]

theorem request_ready (ata : PioDevice bus yield view ready) (frame : Frame) (patient : Patient bus yield patience) {diskno secno command : Word}
    {phase : Phase} (idle : (view s.dev).phase = .idle)
    (starts : ∀ t, ready t → view t = addressed (view s.dev) diskno secno →
      (view (iowrite8 bus (command.setWidth 8) ideStatus t)).phase = phase ∧
        (view (iowrite8 bus (command.setWidth 8) ideStatus t)).disk = (view t).disk) :
    ∃ s', request bus yield patience frame diskno secno command s = some s' ∧ ready s'.dev ∧ (view s'.dev).phase = phase ∧
      (view s'.dev).disk = (view s.dev).disk ∧ SameOff frame s.mem s'.mem := by
  obtain ⟨temp, s₁, waits, waited⟩ := waitIdeReady_ready ata frame patient s
  have idle₁ : (view (setTemp frame temp s₁).dev).phase = .idle := by rw [waited.view, idle]
  obtain ⟨s₂, ready₂, view₂, mem₂, puts⟩ := registers_written ata frame waited.ready idle₁ diskno secno
    (fun s => (putTemp bus frame command ideStatus s).bind fun s =>
      (waitIdeReady bus yield patience frame s).map fun (temp, s) => setTemp frame temp s)
  rw [waited.view] at view₂
  obtain ⟨begun, kept⟩ := starts s₂.dev ready₂ view₂
  have put := putTemp_eq bus frame s₂ command (show ideData.toNat ≤ ideStatus.toNat ∧ _ from ⟨by decide, Nat.le_refl _⟩)
  obtain ⟨temp', s₃, waits', waited'⟩ := waitIdeReady_ready ata frame patient
    ⟨Function.update s₂.mem frame.temp (command.setWidth 8), iowrite8 bus (command.setWidth 8) ideStatus s₂.dev⟩
  refine ⟨setTemp frame temp' s₃, ?_, waited'.ready, ?_, ?_, ?_⟩
  · rw [request, waits]
    refine puts.trans ?_
    rw [put, Option.bind_some, waits']
    rfl
  · rw [waited'.view, begun]
  · rw [waited'.view, kept, view₂]
    exact (addressed_phase _ _ _).2
  · exact ((waited.mem.trans mem₂).trans (sameOff_temp frame s₂.mem _)).trans waited'.mem

end Registers

section Loops

variable {σ : Type} {s : Server σ}

theorem range_loop (body : Word → Server σ → Option (Server σ)) {n : Nat} (Inv : Nat → Server σ → Prop) (init : Inv 0 s)
    (step : ∀ k < n, ∀ t, Inv k t → ∃ t', body (BitVec.ofNat 32 (k * 4)) t = some t' ∧ Inv (k + 1) t') :
    ∃ s', (List.range n).foldlM (fun s i => body (BitVec.ofNat 32 (i * 4)) s) s = some s' ∧ Inv n s' := by
  induction n with
  | zero => exact ⟨s, rfl, init⟩
  | succ n ih =>
    obtain ⟨t, run, holds⟩ := ih fun k less => step k (by omega)
    obtain ⟨t', once, next⟩ := step n (Nat.lt_succ_self n) t holds
    refine ⟨t', ?_, next⟩
    rw [List.range_succ, List.foldlM_append, run]
    simp [once]

theorem sectors_rest {max secno : Word} {body : Word → Word → Server σ → Option (Server σ)} {n : Nat}
    (Inv : Nat → Server σ → Prop) (last : secno.toNat + n = max.toNat)
    (step : ∀ k < n, ∀ t, Inv k t →
      ∃ t', body (secno + BitVec.ofNat 32 k) (BitVec.ofNat 32 (sectSize * k)) t = some t' ∧ Inv (k + 1) t') :
    ∀ m k t, k + m = n → Inv k t →
      ∃ t', sectors max body (secno + BitVec.ofNat 32 k) (BitVec.ofNat 32 (sectSize * k)) t = some t' ∧ Inv n t' := by
  have bound := max.isLt
  intro m
  induction m with
  | zero =>
    intro k t all holds
    obtain rfl : k = n := all
    have stop : ¬ secno + BitVec.ofNat 32 k < max := by
      rw [BitVec.lt_def, BitVec.toNat_add, BitVec.toNat_ofNat]
      omega
    exact ⟨t, by rw [sectors, if_neg stop], holds⟩
  | succ m ih =>
    intro k t all holds
    obtain ⟨t', once, next⟩ := step k (by omega) t holds
    obtain ⟨last, run, ends⟩ := ih (k + 1) t' (by omega) next
    have more : secno + BitVec.ofNat 32 k < max := by
      rw [BitVec.lt_def, BitVec.toNat_add, BitVec.toNat_ofNat]
      omega
    refine ⟨last, ?_, ends⟩
    rw [sectors, if_pos more, once, Option.bind_some]
    rw [Nat.mul_succ, BitVec.ofNat_add, BitVec.ofNat_add, ← add_assoc] at run
    exact run

theorem sectors_loop {max secno : Word} {body : Word → Word → Server σ → Option (Server σ)} {n : Nat}
    (Inv : Nat → Server σ → Prop) (last : secno.toNat + n = max.toNat) (init : Inv 0 s)
    (step : ∀ k < n, ∀ t, Inv k t →
      ∃ t', body (secno + BitVec.ofNat 32 k) (BitVec.ofNat 32 (sectSize * k)) t = some t' ∧ Inv (k + 1) t') :
    ∃ s', sectors max body secno 0 s = some s' ∧ Inv n s' := by
  have zero : secno + BitVec.ofNat 32 0 = secno := BitVec.add_zero secno
  have run := sectors_rest Inv last step n 0 s (Nat.zero_add n) init
  rwa [zero] at run

end Loops

section Transfers

variable {σ : Type} {bus : Bus σ} {yield : σ → σ} {patience : σ → Nat} {view : σ → Ata} {ready : σ → Prop} {frame : Frame}
  {s : Server σ} {diskno secno va n : Word} {k : Nat}

theorem Buffer.place (buffer : Buffer frame va n) (inside : k < n.toNat) {i : Nat} (small : i < sectSize / 4) :
    va + BitVec.ofNat 32 (sectSize * k) + BitVec.ofNat 32 (i * 4) = va + BitVec.ofNat 32 (sectSize * k + i * 4) ∧
      DevOk (va + BitVec.ofNat 32 (sectSize * k) + BitVec.ofNat 32 (i * 4)) ideData 4 := by
  have place : va + BitVec.ofNat 32 (sectSize * k) + BitVec.ofNat 32 (i * 4) = va + BitVec.ofNat 32 (sectSize * k + i * 4) := by
    rw [BitVec.ofNat_add, add_assoc]
  have size : sectSize = 512 := rfl
  rw [size] at small
  refine ⟨place, ?_⟩
  rw [place]
  refine buffer.word ?_ ?_
  · rw [size]
    omega
  · rw [size]
    omega

/-- The first `i` words from `base` on are with the device. -/
structure WordsOut (view : σ → Ata) (ready : σ → Prop) (base : Word) (drive lba : Nat) (s : Server σ) (i : Nat)
    (t : Server σ) : Prop where
  mem : t.mem = s.mem
  before : i < 128 → ready t.dev ∧ (view t.dev).phase = .writing drive lba (bytesAt s.mem base (i * 4)) ∧
    (view t.dev).disk = (view s.dev).disk
  done : i = 128 → (view t.dev).phase = .idle ∧
    (view t.dev).disk = Ata.setSector (view s.dev).disk drive lba (bytesAt s.mem base sectSize)

theorem wordsOut_step (ata : PioDevice bus yield view ready) {base : Word} {drive lba i : Nat} {t : Server σ}
    (out : WordsOut view ready base drive lba s i t) (less : i < 128)
    (ok : DevOk (base + BitVec.ofNat 32 (i * 4)) ideData 4) :
    ∃ t', writeDev bus (base + BitVec.ofNat 32 (i * 4)) ideData 4 t = some t' ∧
      WordsOut view ready base drive lba s (i + 1) t' := by
  have size : sectSize = 512 := rfl
  obtain ⟨isReady, phase, disk⟩ := out.before less
  refine ⟨_, writeDev_word ok, out.mem, fun more => ?_, fun full => ?_⟩
  · have short : (bytesAt s.mem base (i * 4)).length + 4 < sectSize := by
      rw [bytesAt_length, size]
      omega
    obtain ⟨next, kept, stays⟩ := ata.dataOut t.dev (loadWord t.mem (base + BitVec.ofNat 32 (i * 4))) _ _ _ isReady phase short
    refine ⟨stays, ?_, kept.trans disk⟩
    rw [next, out.mem, bytesAt_word, Nat.succ_mul]
  · have last : (bytesAt s.mem base (i * 4)).length + 4 = sectSize := by
      rw [bytesAt_length, size]
      omega
    obtain ⟨next, changed⟩ := ata.dataOutLast t.dev (loadWord t.mem (base + BitVec.ofNat 32 (i * 4))) _ _ _ isReady phase last
    rw [bytesAt_length] at last
    refine ⟨next, ?_⟩
    rw [changed, out.mem, bytesAt_word, last, disk]

theorem words_written (ata : PioDevice bus yield view ready) (buffer : Buffer frame va n) (inside : k < n.toNat)
    {drive lba : Nat} (isReady : ready s.dev) (phase : (view s.dev).phase = .writing drive lba []) :
    ∃ s', eachWord (fun i => writeDev bus (va + BitVec.ofNat 32 (sectSize * k) + i) ideData 4) s = some s' ∧ s'.mem = s.mem ∧
      (view s'.dev).phase = .idle ∧ (view s'.dev).disk = Ata.setSector (view s.dev).disk drive lba
        (bytesAt s.mem (va + BitVec.ofNat 32 (sectSize * k)) sectSize) := by
  have start : WordsOut view ready (va + BitVec.ofNat 32 (sectSize * k)) drive lba s 0 s :=
    ⟨rfl, fun _ => ⟨isReady, phase, rfl⟩, fun full => absurd full (by decide)⟩
  obtain ⟨s', run, out⟩ := range_loop (fun i => writeDev bus (va + BitVec.ofNat 32 (sectSize * k) + i) ideData 4)
    (WordsOut view ready (va + BitVec.ofNat 32 (sectSize * k)) drive lba s) start
    fun i less t out => wordsOut_step ata out less (buffer.place inside less).2
  exact ⟨s', run, out.mem, out.done rfl⟩

/-- The first `i` words of a sector lie from `base` on. -/
structure WordsIn (view : σ → Ata) (ready : σ → Prop) (base : Word) (bytes : List Byte) (s : Server σ) (i : Nat)
    (t : Server σ) : Prop where
  mem : t.mem = Block.store s.mem base (fun j => bytes.getD j 0) (i * 4)
  disk : (view t.dev).disk = (view s.dev).disk
  before : i < 128 → ready t.dev ∧ (view t.dev).phase = .reading (bytes.drop (i * 4))
  done : i = 128 → (view t.dev).phase = .idle

theorem word_stored {mem : Word → Byte} {base word : Word} {bytes : List Byte} {i : Nat} (small : i < 128)
    (eq : wordBytes word = (bytes.drop (i * 4)).take 4) :
    Block.store (Block.store mem base (fun j => bytes.getD j 0) (i * 4)) (base + BitVec.ofNat 32 (i * 4))
      (fun j => (wordBytes word).getD j 0) 4 = Block.store mem base (fun j => bytes.getD j 0) ((i + 1) * 4) := by
  rw [Nat.succ_mul, ← Block.store_append (fun j => bytes.getD j 0) (by omega)]
  refine Block.store_congr fun j small => ?_
  rw [eq]
  simp [List.getD_eq_getElem?_getD, List.getElem?_take_of_lt small]

theorem wordsIn_step (ata : PioDevice bus yield view ready) {base : Word} {bytes : List Byte} (long : bytes.length = sectSize)
    {i : Nat} {t : Server σ} (come : WordsIn view ready base bytes s i t) (less : i < 128)
    (ok : DevOk (base + BitVec.ofNat 32 (i * 4)) ideData 4) :
    ∃ t', readDev bus (base + BitVec.ofNat 32 (i * 4)) ideData 4 t = some t' ∧ WordsIn view ready base bytes s (i + 1) t' := by
  have sector : bytes.length = 512 := long
  have rest : (bytes.drop (i * 4)).length = 512 - i * 4 := by rw [List.length_drop, sector]
  obtain ⟨isReady, phase⟩ := come.before less
  refine ⟨_, readDev_word ok, ?_⟩
  rw [come.mem]
  by_cases last : i = 127
  · obtain ⟨word, next, kept⟩ := ata.dataInLast t.dev _ isReady phase (by omega)
    refine ⟨word_stored less ?_, kept.trans come.disk, fun more => absurd more (by omega), fun _ => next⟩
    rw [word, List.take_of_length_le (by omega)]
  · obtain ⟨word, next, kept, stays⟩ := ata.dataIn t.dev _ isReady phase (by omega)
    refine ⟨word_stored less word, kept.trans come.disk, fun more => ⟨stays, ?_⟩, fun full => absurd full (by omega)⟩
    rw [next, List.drop_drop, Nat.succ_mul]

theorem words_read (ata : PioDevice bus yield view ready) (buffer : Buffer frame va n) (inside : k < n.toNat)
    {bytes : List Byte} (long : bytes.length = sectSize) (isReady : ready s.dev) (phase : (view s.dev).phase = .reading bytes) :
    ∃ s', eachWord (fun i => readDev bus (va + BitVec.ofNat 32 (sectSize * k) + i) ideData 4) s = some s' ∧
      s'.mem = Block.store s.mem (va + BitVec.ofNat 32 (sectSize * k)) (fun j => bytes.getD j 0) sectSize ∧
      (view s'.dev).phase = .idle ∧ (view s'.dev).disk = (view s.dev).disk := by
  have start : WordsIn view ready (va + BitVec.ofNat 32 (sectSize * k)) bytes s 0 s :=
    ⟨(Block.store_zero _).symm, rfl, fun _ => ⟨isReady, phase⟩, fun full => absurd full (by decide)⟩
  obtain ⟨s', run, come⟩ := range_loop (fun i => readDev bus (va + BitVec.ofNat 32 (sectSize * k) + i) ideData 4)
    (WordsIn view ready (va + BitVec.ofNat 32 (sectSize * k)) bytes s) start
    fun i less t come => wordsIn_step ata long come less (buffer.place inside less).2
  exact ⟨s', run, come.mem, come.done rfl, come.disk⟩

end Transfers

section Sectors

variable {σ : Type} {bus : Bus σ} {yield : σ → σ} {patience : σ → Nat} {view : σ → Ata} {ready : σ → Prop} {frame : Frame}
  {s t : Server σ} {diskno secno va n : Word} {k : Nat}

theorem secno_add (fits : secno.toNat + n.toNat ≤ 2^28) (inside : k < n.toNat) :
    (secno + BitVec.ofNat 32 k).toNat = secno.toNat + k := by
  rw [BitVec.toNat_add, BitVec.toNat_ofNat]
  omega

theorem status_read (ata : PioDevice bus yield view ready) (frame : Frame) (s : Server σ) :
    ∃ s', readDev bus frame.temp ideStatus 1 s = some s' ∧ view s'.dev = view s.dev ∧ SameOff frame s.mem s'.mem :=
  ⟨_, readDev_byte (devOk_byte frame.temp_user ⟨by decide, by decide⟩), (ata.status s.dev).1, sameOff_temp frame s.mem _⟩

/-- `k` sectors are on the disk. -/
structure Written (view : σ → Ata) (frame : Frame) (diskno secno src : Word) (s : Server σ) (k : Nat) (t : Server σ) : Prop where
  idle : (view t.dev).phase = .idle
  disk : ∀ drive lba, (view t.dev).disk drive lba =
    if drive = diskno.toNat ∧ secno.toNat ≤ lba ∧ lba < secno.toNat + k then
      bytesAt s.mem (src + BitVec.ofNat 32 (sectSize * (lba - secno.toNat))) sectSize
    else (view s.dev).disk drive lba
  mem : SameOff frame s.mem t.mem

theorem written_step (ata : PioDevice bus yield view ready) (patient : Patient bus yield patience) (disk : diskno.toNat < 2)
    (fits : secno.toNat + n.toNat ≤ 2^28) (buffer : Buffer frame va n) (inside : k < n.toNat)
    (written : Written view frame diskno secno va s k t) :
    ∃ t', ((request bus yield patience frame diskno (secno + BitVec.ofNat 32 k) cmdPioWrite t).bind fun s =>
        (eachWord (fun i => writeDev bus (va + BitVec.ofNat 32 (sectSize * k) + i) ideData 4) s).bind fun s =>
        readDev bus frame.temp ideStatus 1 s) = some t' ∧ Written view frame diskno secno va s (k + 1) t' := by
  have place := secno_add fits inside
  obtain ⟨one, lba, drive⟩ := addressed_fields (view t.dev) disk (show (secno + BitVec.ofNat 32 k).toNat < 2^28 by omega)
  have begins (u : σ) (isReady : ready u) (seen : view u = addressed (view t.dev) diskno (secno + BitVec.ofNat 32 k)) :
      (view (iowrite8 bus (cmdPioWrite.setWidth 8) ideStatus u)).phase = .writing diskno.toNat (secno.toNat + k) [] ∧
        (view (iowrite8 bus (cmdPioWrite.setWidth 8) ideStatus u)).disk = (view u).disk := by
    rw [← seen] at one lba drive
    have begun := ata.writeCommand u isReady (by rw [seen, (addressed_phase _ _ _).1, written.idle]) one
    rwa [lba, drive, place] at begun
  obtain ⟨t₁, asked, ready₁, phase₁, disk₁, mem₁⟩ := request_ready ata frame patient written.idle begins
  obtain ⟨t₂, wrote, mem₂, idle₂, disk₂⟩ := words_written ata buffer inside ready₁ phase₁
  obtain ⟨t₃, told, view₃, mem₃⟩ := status_read ata frame t₂
  have same : SameOff frame s.mem t₁.mem := written.mem.trans mem₁
  refine ⟨t₃, ?_, ?_, ?_, ?_⟩
  · rw [asked, Option.bind_some, wrote, Option.bind_some, told]
  · rw [view₃, idle₂]
  · intro d m
    have sector : bytesAt t₁.mem (va + BitVec.ofNat 32 (sectSize * k)) sectSize =
        bytesAt s.mem (va + BitVec.ofNat 32 (sectSize * k)) sectSize := by
      refine bytesAt_congr fun j small => ?_
      have inner : sectSize * k + j < sectSize * n.toNat := calc
        sectSize * k + j < sectSize * k + sectSize := Nat.add_lt_add_left small _
        _ = sectSize * (k + 1) := (Nat.mul_succ _ _).symm
        _ ≤ sectSize * n.toNat := Nat.mul_le_mul_left _ inside
      rw [add_assoc, ← BitVec.ofNat_add]
      exact buffer.byte same inner
    rw [view₃, disk₂, Ata.setSector, disk₁, written.disk, sector]
    by_cases here : d = diskno.toNat ∧ m = secno.toNat + k
    · obtain ⟨rfl, rfl⟩ := here
      rw [if_pos ⟨rfl, rfl⟩, if_pos ⟨rfl, by omega, by omega⟩, Nat.add_sub_cancel_left]
    · rw [if_neg here]
      exact if_congr (by omega) rfl rfl
  · rw [mem₂] at mem₃
    exact same.trans mem₃

theorem ideWrite_stores (ata : PioDevice bus yield view ready) (patient : Patient bus yield patience) (disk : diskno.toNat < 2)
    (fits : secno.toNat + n.toNat ≤ 2^28) (buffer : Buffer frame va n) (idle : (view s.dev).phase = .idle) :
    ∃ s', ideWrite bus yield patience frame diskno secno va n s = some s' ∧ Written view frame diskno secno va s n.toNat s' := by
  have few : ¬ (2 : Word) ≤ diskno := by
    rw [BitVec.le_def]
    exact Nat.not_le_of_lt disk
  have last : secno.toNat + n.toNat = (n + secno).toNat := by
    rw [BitVec.toNat_add]
    omega
  rw [ideWrite, if_neg few]
  refine sectors_loop (Written view frame diskno secno va s) last ⟨idle, fun drive lba => ?_, SameOff.refl frame s.mem⟩
    fun k inside t written => written_step ata patient disk fits buffer inside written
  exact (if_neg (by omega)).symm

/-- `k` sectors are in the memory. -/
structure Filled (view : σ → Ata) (diskno secno dst : Word) (s : Server σ) (k : Nat) (t : Server σ) : Prop where
  idle : (view t.dev).phase = .idle
  disk : (view t.dev).disk = (view s.dev).disk
  mem : ∀ j < sectSize * k, t.mem (dst + BitVec.ofNat 32 j) =
    ((view s.dev).disk diskno.toNat (secno.toNat + j / sectSize)).getD (j % sectSize) 0

theorem filled_step (ata : PioDevice bus yield view ready) (patient : Patient bus yield patience) (disk : diskno.toNat < 2)
    (fits : secno.toNat + n.toNat ≤ 2^28) (buffer : Buffer frame va n) (inside : k < n.toNat)
    (long : ((view s.dev).disk diskno.toNat (secno.toNat + k)).length = sectSize) (filled : Filled view diskno secno va s k t) :
    ∃ t', ((request bus yield patience frame diskno (secno + BitVec.ofNat 32 k) cmdPioRead t).bind fun s =>
        (eachWord (fun i => readDev bus (va + BitVec.ofNat 32 (sectSize * k) + i) ideData 4) s).bind fun s =>
        readDev bus frame.temp ideStatus 1 s) = some t' ∧ Filled view diskno secno va s (k + 1) t' := by
  have size : sectSize = 512 := rfl
  have place := secno_add fits inside
  obtain ⟨one, lba, drive⟩ := addressed_fields (view t.dev) disk (show (secno + BitVec.ofNat 32 k).toNat < 2^28 by omega)
  have begins (u : σ) (isReady : ready u) (seen : view u = addressed (view t.dev) diskno (secno + BitVec.ofNat 32 k)) :
      (view (iowrite8 bus (cmdPioRead.setWidth 8) ideStatus u)).phase =
          .reading ((view s.dev).disk diskno.toNat (secno.toNat + k)) ∧
        (view (iowrite8 bus (cmdPioRead.setWidth 8) ideStatus u)).disk = (view u).disk := by
    rw [← seen] at one lba drive
    have begun := ata.readCommand u isReady (by rw [seen, (addressed_phase _ _ _).1, filled.idle]) one
    have same : (view u).disk = (view s.dev).disk := by rw [seen, (addressed_phase _ _ _).2, filled.disk]
    rw [lba, drive, place, same] at begun
    rwa [same]
  obtain ⟨t₁, asked, ready₁, phase₁, disk₁, mem₁⟩ := request_ready ata frame patient filled.idle begins
  obtain ⟨t₂, read, mem₂, idle₂, disk₂⟩ := words_read ata buffer inside long ready₁ phase₁
  obtain ⟨t₃, told, view₃, mem₃⟩ := status_read ata frame t₂
  refine ⟨t₃, ?_, ?_, ?_, fun j small => ?_⟩
  · rw [asked, Option.bind_some, read, Option.bind_some, told]
  · rw [view₃, idle₂]
  · rw [view₃, disk₂, disk₁, filled.disk]
  · have high := buffer.high
    have top : utop.toNat < 2^32 := utop.isLt
    have all : j < sectSize * n.toNat := Nat.lt_of_lt_of_le small (Nat.mul_le_mul_left _ inside)
    have offset : (va + BitVec.ofNat 32 j - va).toNat = j := by
      rw [add_sub_cancel_left, BitVec.toNat_ofNat, Nat.mod_eq_of_lt (by omega)]
    rw [buffer.byte mem₃ all, mem₂, Block.store]
    rw [size] at small high ⊢
    by_cases new : 512 * k ≤ j
    · have behind : 512 * k ≤ (va + BitVec.ofNat 32 j - va).toNat := by rwa [offset]
      have sub := Block.offset_sub behind
      have quotient : j / 512 = k := by omega
      have rest : j % 512 = j - 512 * k := by omega
      rw [offset] at sub
      rw [if_pos (by rw [sub]; omega), sub, quotient, rest]
    · have before := filled.mem j (by rw [size]; omega)
      rw [size] at before
      rw [if_neg, buffer.byte mem₁ all, before]
      rw [Block.offset_behind (by omega), offset]
      omega

theorem ideRead_fills (ata : PioDevice bus yield view ready) (patient : Patient bus yield patience) (disk : diskno.toNat < 2)
    (fits : secno.toNat + n.toNat ≤ 2^28) (buffer : Buffer frame va n) (idle : (view s.dev).phase = .idle)
    (long : ∀ k < n.toNat, ((view s.dev).disk diskno.toNat (secno.toNat + k)).length = sectSize) :
    ∃ s', ideRead bus yield patience frame diskno secno va n s = some s' ∧ Filled view diskno secno va s n.toNat s' := by
  have few : ¬ (2 : Word) ≤ diskno := by
    rw [BitVec.le_def]
    exact Nat.not_le_of_lt disk
  have last : secno.toNat + n.toNat = (n + secno).toNat := by
    rw [BitVec.toNat_add]
    omega
  rw [ideRead, if_neg few]
  exact sectors_loop (Filled view diskno secno va s) last ⟨idle, rfl, fun j none => absurd none (by simp)⟩
    fun k inside t filled => filled_step ata patient disk fits buffer inside (long k inside) filled

end Sectors

section RoundTrip

variable {σ : Type} {bus : Bus σ} {yield : σ → σ} {view : σ → Ata} {ready : σ → Prop}

theorem patient_exists (ata : PioDevice bus yield view ready) : ∃ patience, Patient bus yield patience := by
  choose rounds done using ata.completes
  exact ⟨fun s => rounds s + 1, fun s => ⟨rounds s, Nat.lt_succ_self _, done s⟩⟩

/-- `ide_write` puts the sectors of `src` where they belong and nothing elsewhere, and `ide_read` gets them from there. -/
theorem ide_write_read (ata : PioDevice bus yield view ready) : ∃ patience : σ → Nat,
    ∀ (frame : Frame) (diskno secno src nsecs : Word) (s : Server σ), diskno.toNat < 2 → secno.toNat + nsecs.toNat ≤ 2^28 →
      Buffer frame src nsecs → (view s.dev).phase = .idle →
      ∃ s', ideWrite bus yield patience frame diskno secno src nsecs s = some s' ∧ (view s'.dev).phase = .idle ∧
        (∀ k < nsecs.toNat, (view s'.dev).disk diskno.toNat (secno.toNat + k) =
          bytesAt s.mem (src + BitVec.ofNat 32 (sectSize * k)) sectSize) ∧
        (∀ drive lba, ¬(drive = diskno.toNat ∧ secno.toNat ≤ lba ∧ lba < secno.toNat + nsecs.toNat) →
          (view s'.dev).disk drive lba = (view s.dev).disk drive lba) ∧
        ∀ (frame' : Frame) (dst : Word) (t : Server σ), Buffer frame' dst nsecs → (view t.dev).phase = .idle →
          (view t.dev).disk = (view s'.dev).disk →
          ∃ t', ideRead bus yield patience frame' diskno secno dst nsecs t = some t' ∧
            (view t'.dev).phase = .idle ∧ (view t'.dev).disk = (view s'.dev).disk ∧
            ∀ j < sectSize * nsecs.toNat, t'.mem (dst + BitVec.ofNat 32 j) = s.mem (src + BitVec.ofNat 32 j) := by
  obtain ⟨patience, patient⟩ := patient_exists ata
  refine ⟨patience, fun frame diskno secno src nsecs s disk fits buffer idle => ?_⟩
  obtain ⟨s', wrote, written⟩ := ideWrite_stores ata patient disk fits buffer idle
  have sector (k : Nat) (inside : k < nsecs.toNat) : (view s'.dev).disk diskno.toNat (secno.toNat + k) =
      bytesAt s.mem (src + BitVec.ofNat 32 (sectSize * k)) sectSize := by
    rw [written.disk, if_pos ⟨rfl, by omega, by omega⟩, Nat.add_sub_cancel_left]
  refine ⟨s', wrote, written.idle, sector, fun drive lba other => by rw [written.disk, if_neg other],
    fun frame' dst t room rest same => ?_⟩
  obtain ⟨t', read, filled⟩ := ideRead_fills ata patient disk fits room rest fun k inside => by
    rw [same, sector k inside, bytesAt_length]
  refine ⟨t', read, filled.idle, filled.disk.trans same, fun j small => ?_⟩
  have positive : 0 < sectSize := by decide
  have inside : j / sectSize < nsecs.toNat := (Nat.div_lt_iff_lt_mul positive).mpr (by rwa [Nat.mul_comm])
  have offset := Nat.mod_lt j positive
  rw [filled.mem j small, same, sector _ inside, bytesAt, List.getD_eq_getElem?_getD, List.getElem?_map,
    List.getElem?_range offset, Option.map_some, Option.getD_some, add_assoc, ← BitVec.ofNat_add, Nat.div_add_mod]

/-- A buffer that is not aligned is refused with the first word, whatever the device does. -/
theorem ideWrite_misaligned (patience : σ → Nat) (frame : Frame) (diskno src : Word) {secno nsecs : Word} (s : Server σ)
    (some_sector : secno < nsecs + secno) (odd : src % 4 ≠ 0) :
    ideWrite bus yield patience frame diskno secno src nsecs s = none := by
  have first (t : Server σ) : writeDev bus (src + 0 + BitVec.ofNat 32 (0 * 4)) ideData 4 t = none := by
    have place : src + 0 + BitVec.ofNat 32 (0 * 4) = src := by simp
    rw [place, writeDev, Dev.sysWriteDev, Dev.checked, if_neg (show (4 : Word) ≠ 0 by decide), if_pos odd]
    split
    · rename_i refused
      split at refused <;> cases refused
    · rfl
  have words (t : Server σ) : eachWord (fun i => writeDev bus (src + 0 + i) ideData 4) t = none := by
    have head : List.range (sectSize / 4) = 0 :: (List.range 127).map Nat.succ := List.range_succ_eq_map
    rw [eachWord, head, List.foldlM_cons, first]
    rfl
  rw [ideWrite, sectors, if_pos some_sector]
  split
  · rfl
  · cases request bus yield patience frame diskno secno cmdPioWrite s with
    | none => rfl
    | some t =>
      rw [Option.bind_some, words]
      rfl

end RoundTrip

section Drives

/-- A pair of drives that is busy once after each command. -/
structure Drives where
  ata : Ata
  busy : Bool

namespace Drives

def command (s : Drives) (data : Word) : Drives :=
  if data = cmdPioRead then ⟨{ s.ata with phase := .reading (s.ata.disk s.ata.drive s.ata.lba) }, true⟩
  else if data = cmdPioWrite then ⟨{ s.ata with phase := .writing s.ata.drive s.ata.lba [] }, true⟩
  else s

def take (s : Drives) (data : Word) : Drives :=
  match s.ata.phase with
  | .writing drive lba given =>
    if given.length + 4 < sectSize then { s with ata := { s.ata with phase := .writing drive lba (given ++ wordBytes data) } }
    else
      { s with ata := { s.ata with phase := .idle
                                   disk := Ata.setSector s.ata.disk drive lba (given ++ wordBytes data) } }
  | _ => s

def give (s : Drives) : Word × Drives :=
  match s.ata.phase with
  | .reading rest =>
    (loadWord (fun a => rest.getD a.toNat 0) 0,
      { s with ata := { s.ata with phase := if rest.length ≤ 4 then .idle else .reading (rest.drop 4) } })
  | _ => (0, s)

def bus : Bus Drives where
  store _ addr data s :=
    if addr = ideData ||| kseg1 then s.take data
    else if addr = ideStatus ||| kseg1 then s.command data
    else { s with ata := s.ata.put (addr &&& 0x1fffffff) (data.setWidth 8) }
  load _ addr s :=
    if addr = ideData ||| kseg1 then s.give
    else if addr = ideStatus ||| kseg1 then (if s.busy then 0x80 else 0x50, { s with busy := false })
    else (0, s)

theorem give_bytes {rest : List Byte} (long : 4 ≤ rest.length) :
    wordBytes (loadWord (fun a => rest.getD a.toNat 0) 0) = rest.take 4 := by
  have word := bytesAt_word (fun a => rest.getD a.toNat 0) 0 0
  obtain ⟨b₀, b₁, b₂, b₃, tail, rfl⟩ : ∃ b₀ b₁ b₂ b₃ tail, rest = b₀ :: b₁ :: b₂ :: b₃ :: tail := by
    match rest, long with
    | b₀ :: b₁ :: b₂ :: b₃ :: tail, _ => exact ⟨b₀, b₁, b₂, b₃, tail, rfl⟩
  exact word

theorem status_load (s : Drives) :
    ioread8 bus ideStatus s = (if s.busy then 0x80 else 0x50, { s with busy := false }) := by
  have loaded : ioread8 bus ideStatus s = ((if s.busy then 0x80 else 0x50 : Word).setWidth 8, { s with busy := false }) := rfl
  rw [loaded]
  cases s.busy <;> rfl

theorem register_store (s : Drives) (v : Byte) {pa : Word} (data : pa ||| kseg1 ≠ ideData ||| kseg1)
    (status : pa ||| kseg1 ≠ ideStatus ||| kseg1) (low : (pa ||| kseg1) &&& 0x1fffffff = pa) :
    iowrite8 bus v pa s = { s with ata := s.ata.put pa v } := by
  have same : (v.setWidth 32).setWidth 8 = v := by
    rw [BitVec.setWidth_setWidth_of_le _ (by decide), BitVec.setWidth_eq]
  show (if pa ||| kseg1 = ideData ||| kseg1 then _ else if pa ||| kseg1 = ideStatus ||| kseg1 then _ else _ : Drives) = _
  rw [if_neg data, if_neg status, low, same]

theorem pio : PioDevice bus id Drives.ata (fun s => s.busy = false) where
  status s := by
    rw [status_load]
    exact ⟨rfl, fun _ => rfl⟩
  yields s := rfl
  completes s := by
    refine ⟨1, ?_⟩
    rw [Function.iterate_one, id, status_load, status_load]
    show (0x50 : Byte) &&& ideBusy = 0
    decide
  register s v pa mem isReady idle := by
    simp only [List.mem_cons, List.not_mem_nil, or_false] at mem
    have stored : iowrite8 bus v pa s = { s with ata := s.ata.put pa v } := by
      rcases mem with rfl | rfl | rfl | rfl | rfl <;> exact register_store s v (by decide) (by decide) (by decide)
    rw [stored]
    exact ⟨rfl, isReady⟩
  readCommand s isReady idle one := ⟨rfl, rfl⟩
  writeCommand s isReady idle one := ⟨rfl, rfl⟩
  dataIn s rest isReady phase long := by
    have gives : ioread32 bus ideData s = s.give := rfl
    rw [gives, give, phase]
    exact ⟨give_bytes (Nat.le_of_lt long), if_neg (Nat.not_le_of_lt long), rfl, isReady⟩
  dataInLast s rest isReady phase last := by
    have gives : ioread32 bus ideData s = s.give := rfl
    rw [gives, give, phase]
    exact ⟨(give_bytes (Nat.le_of_eq last.symm)).trans (List.take_of_length_le (Nat.le_of_eq last)), if_pos (Nat.le_of_eq last), rfl⟩
  dataOut s word drive lba given isReady phase more := by
    have takes : iowrite32 bus word ideData s = s.take word := rfl
    have next : s.take word = { s with ata := { s.ata with phase := .writing drive lba (given ++ wordBytes word) } } := by
      rw [take, phase]
      exact if_pos more
    rw [takes, next]
    exact ⟨rfl, rfl, isReady⟩
  dataOutLast s word drive lba given isReady phase last := by
    have takes : iowrite32 bus word ideData s = s.take word := rfl
    have next : s.take word = { s with ata := { s.ata with
        phase := .idle
        disk := Ata.setSector s.ata.disk drive lba (given ++ wordBytes word) } } := by
      rw [take, phase]
      exact if_neg (Nat.not_lt_of_le (Nat.le_of_eq last.symm))
    rw [takes, next]
    exact ⟨rfl, rfl⟩

end Drives

def stackFrame : Frame := ⟨0x7f3fdff0, 0x7f3fdfe0, by decide, by decide⟩

/-- Two empty disks, and memory that holds the low byte of each address. -/
def server : Server Drives :=
  { mem := fun a => a.setWidth 8
    dev := ⟨⟨0, 0, 0, 0, 0, .idle, fun _ _ => List.replicate 512 0⟩, false⟩ }

theorem ide_write_read_last : ∃ (patience : Drives → Nat) (s' t' : Server Drives),
    ideWrite Drives.bus id patience stackFrame 1 0xfffffff 0x500000 1 server = some s' ∧
      s'.dev.ata.disk 1 0xfffffff = bytesAt server.mem 0x500000 sectSize ∧
      s'.dev.ata.disk 0 0xfffffff = List.replicate 512 0 ∧ s'.dev.ata.disk 1 0 = List.replicate 512 0 ∧
      ideRead Drives.bus id patience stackFrame 1 0xfffffff 0x600000 1 s' = some t' ∧ t'.mem 0x600005 = 5 := by
  obtain ⟨patience, transfers⟩ := ide_write_read Drives.pio
  obtain ⟨s', wrote, idle, sectors, others, reads⟩ := transfers stackFrame 1 0xfffffff 0x500000 1 server (by decide) (by decide)
    ⟨by decide, by decide, by decide, by decide, by decide⟩ rfl
  obtain ⟨t', read, -, -, bytes⟩ := reads stackFrame 0x600000 s' ⟨by decide, by decide, by decide, by decide, by decide⟩ idle rfl
  refine ⟨patience, s', t', wrote, sectors 0 (by decide), others 0 0xfffffff (by decide), others 1 0 (by decide), read, ?_⟩
  exact bytes 5 (by decide)

/-- The drives are idle, and a buffer of 512 bytes that is not aligned gets nowhere. -/
theorem ideWrite_odd : server.dev.ata.phase = .idle ∧
    ∀ patience : Drives → Nat, ideWrite Drives.bus id patience stackFrame 0 0 0x500001 1 server = none :=
  ⟨rfl, fun patience => ideWrite_misaligned patience stackFrame 0 0x500001 server (by decide) (by decide)⟩

end Drives

end Mos.Ide
