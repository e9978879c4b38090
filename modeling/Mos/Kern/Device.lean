import Mos.Kern.Machine

namespace Mos

def kseg1 : Word := 0xa0000000

/-- What is behind the uncached segment. An access has a length, an address and, for a store, the data. -/
structure Bus (σ : Type) where
  store : Nat → Word → Word → σ → σ
  load : Nat → Word → σ → Word × σ

section Io

variable {σ : Type} (bus : Bus σ)

def iowrite (len : Nat) (data pa : Word) (s : σ) : σ := bus.store len (pa ||| kseg1) data s
def ioread (len : Nat) (pa : Word) (s : σ) : Word × σ := bus.load len (pa ||| kseg1) s

def iowrite8 (data : BitVec 8) (pa : Word) : σ → σ := iowrite bus 1 (data.setWidth 32) pa
def iowrite16 (data : BitVec 16) (pa : Word) : σ → σ := iowrite bus 2 (data.setWidth 32) pa
def iowrite32 (data pa : Word) : σ → σ := iowrite bus 4 data pa

def ioread8 (pa : Word) (s : σ) : BitVec 8 × σ := ((ioread bus 1 pa s).1.setWidth 8, (ioread bus 1 pa s).2)
def ioread16 (pa : Word) (s : σ) : BitVec 16 × σ := ((ioread bus 2 pa s).1.setWidth 16, (ioread bus 2 pa s).2)
def ioread32 (pa : Word) (s : σ) : Word × σ := ioread bus 4 pa s

end Io

namespace Dev

variable {σ α : Type}

/-- The tests of `sys_write_dev` and `sys_read_dev` around the access of each length. The division by zero traps. -/
def checked (va pa len : Word) (s : σ) (four two one : α × σ) : Res σ α :=
  if isIllegalVaRange va len || isIllegalDevRange pa len then .err (-eInval) s
  else if len = 0 then .stop .panic
  else if va % len ≠ 0 then .err (-eInval) s
  else if len = 4 then .ok four.1 four.2
  else if len = 2 then .ok two.1 two.2
  else if len = 1 then .ok one.1 one.2
  else .err (-eInval) s

def loadHalf (load : Load) (va : Word) : BitVec 16 := (load va).setWidth 16 ||| (load (va + 1)).setWidth 16 <<< 8

def sysWriteDev (bus : Bus σ) (load : Load) (va pa len : Word) (s : σ) : Res σ Word :=
  checked va pa len s (0, iowrite32 bus (loadWord load va) pa s) (0, iowrite16 bus (loadHalf load va) pa s)
    (0, iowrite8 bus (load va) pa s)

/-- The result is 0 with the bytes that are stored from `va` on. -/
def sysReadDev (bus : Bus σ) (va pa len : Word) (s : σ) : Res σ (Word × List Store) :=
  let word := ioread32 bus pa s
  let half := ioread16 bus pa s
  let byte := ioread8 bus pa s
  checked va pa len s ((0, copyOut va (wordBytes word.1)), word.2)
    ((0, copyOut va ((wordBytes (half.1.setWidth 32)).take 2)), half.2) ((0, copyOut va [byte.1]), byte.2)

end Dev

/-- The length and the user address of an access are in order, in numbers without a bound. -/
structure DevBuffer (va len : Word) : Prop where
  length : len = 1 ∨ len = 2 ∨ len = 4
  aligned : va.toNat % len.toNat = 0
  user : utemp.toNat ≤ va.toNat ∧ va.toNat + len.toNat ≤ utop.toNat

structure DevOk (va pa len : Word) : Prop extends DevBuffer va len where
  device : pa.toNat % len.toNat = 0
  inside : ∃ range ∈ validAddr, range.1.toNat ≤ pa.toNat ∧ pa.toNat + len.toNat ≤ range.2.toNat

/-- The length is zero and the physical address passes the test for it. -/
structure DevDivides (pa len : Word) : Prop where
  zero : len = 0
  device : pa.toNat % 4 = 0
  inside : ∃ range ∈ validAddr, range.1.toNat ≤ pa.toNat ∧ pa.toNat ≤ range.2.toNat

/-- The physical range ends where the addresses end. -/
structure DevWraps (va pa len : Word) : Prop extends DevBuffer va len where
  top : pa.toNat + len.toNat = 2^32

section Checks

variable {va pa len : Word}

theorem vaRange_legal (nonzero : len ≠ 0) :
    isIllegalVaRange va len = false ↔ utemp.toNat ≤ va.toNat ∧ va.toNat + len.toNat ≤ utop.toNat := by
  have positive : 0 < len.toNat := Nat.pos_of_ne_zero fun zero => nonzero (BitVec.eq_of_toNat_eq zero)
  have top : utop.toNat < 2^32 := utop.isLt
  rw [isIllegalVaRange, if_neg nonzero]
  simp only [Bool.or_eq_false_iff, decide_eq_false_iff_not, BitVec.lt_def, BitVec.toNat_add]
  omega

theorem devRange_legal : isIllegalDevRange pa len = false ↔
    ((pa.toNat % 4 = 0 ∨ len = 1 ∨ len = 2) ∧ (pa.toNat % 2 = 0 ∨ len = 1)) ∧
      ∃ range ∈ validAddr, range.1.toNat ≤ pa.toNat ∧ (pa.toNat + len.toNat) % 2^32 ≤ range.2.toNat := by
  have four : pa % 4 = 0 ↔ pa.toNat % 4 = 0 := by
    rw [← BitVec.toNat_inj, BitVec.toNat_umod]
    rfl
  have two : pa % 2 = 0 ↔ pa.toNat % 2 = 0 := by
    rw [← BitVec.toNat_inj, BitVec.toNat_umod]
    rfl
  have ranges : (validAddr.any fun range => range.1 ≤ pa && pa + len ≤ range.2) = true ↔
      ∃ range ∈ validAddr, range.1.toNat ≤ pa.toNat ∧ (pa.toNat + len.toNat) % 2^32 ≤ range.2.toNat := by
    simp only [List.any_eq_true, Bool.and_eq_true, decide_eq_true_eq, BitVec.le_def, BitVec.toNat_add]
  rw [isIllegalDevRange, ← ranges, ← four, ← two]
  split
  · rename_i odd
    refine iff_of_false Bool.true_eq_false.mp ?_
    tauto
  · rename_i even
    rw [Bool.not_eq_false']
    tauto

theorem DevBuffer.legal (buffer : DevBuffer va len) : len ≠ 0 ∧ isIllegalVaRange va len = false ∧ va % len = 0 := by
  have nonzero : len ≠ 0 := by rcases buffer.length with rfl | rfl | rfl <;> decide
  refine ⟨nonzero, (vaRange_legal nonzero).mpr buffer.user, BitVec.eq_of_toNat_eq ?_⟩
  rw [BitVec.toNat_umod]
  exact buffer.aligned

theorem DevOk.legal (ok : DevOk va pa len) : isIllegalDevRange pa len = false := by
  obtain ⟨range, mem, low, high⟩ := ok.inside
  have device := ok.device
  refine devRange_legal.mpr ⟨?_, range, mem, low, ?_⟩
  · rcases ok.length with rfl | rfl | rfl <;> simp at device ⊢ <;> omega
  · rw [Nat.mod_eq_of_lt (Nat.lt_of_le_of_lt high range.2.isLt)]
    exact high

theorem DevWraps.legal (wraps : DevWraps va pa len) : isIllegalDevRange pa len = false := by
  have top := wraps.top
  refine devRange_legal.mpr ⟨?_, validAddr.head (by decide), List.head_mem _, ?_, ?_⟩
  · rcases wraps.length with rfl | rfl | rfl <;> simp at top ⊢ <;> omega
  · have high : (validAddr.head (by decide)).1.toNat < 2^32 - 4 := by decide
    rcases wraps.length with rfl | rfl | rfl <;> simp at top <;> omega
  · rw [top, Nat.mod_self]
    exact Nat.zero_le _

theorem DevBuffer.cases (buffer : DevBuffer va len) (legal : isIllegalDevRange pa len = false) :
    DevOk va pa len ∨ DevWraps va pa len := by
  obtain ⟨even, range, mem, low, high⟩ := devRange_legal.mp legal
  have device : pa.toNat % len.toNat = 0 := by
    rcases buffer.length with rfl | rfl | rfl <;> simp at even ⊢ <;> omega
  have bound := pa.isLt
  by_cases wraps : pa.toNat + len.toNat < 2^32
  · rw [Nat.mod_eq_of_lt wraps] at high
    exact .inl ⟨buffer, device, range, mem, low, high⟩
  · refine .inr ⟨buffer, ?_⟩
    rcases buffer.length with rfl | rfl | rfl <;> simp at device wraps ⊢ <;> omega

theorem checked_passes {σ α : Type} {s : σ} {four two one : α × σ} (buffer : DevBuffer va len)
    (legal : isIllegalDevRange pa len = false) : Dev.checked va pa len s four two one =
      if len = 4 then .ok four.1 four.2 else if len = 2 then .ok two.1 two.2 else .ok one.1 one.2 := by
  obtain ⟨nonzero, user, aligned⟩ := buffer.legal
  rw [Dev.checked, user, legal, if_neg (by decide), if_neg nonzero, if_neg (not_not.mpr aligned)]
  rcases buffer.length with rfl | rfl | rfl <;> rfl

theorem checked_not_refused {σ α : Type} {s : σ} {four two one : α × σ} {code : Word} (buffer : DevBuffer va len)
    (legal : isIllegalDevRange pa len = false) : Dev.checked va pa len s four two one ≠ .err code s := by
  rw [checked_passes buffer legal]
  rcases buffer.length with rfl | rfl | rfl <;> exact fun eq => by cases eq

theorem checked_divides {σ α : Type} {s : σ} {four two one : α × σ} (divides : DevDivides pa len) :
    Dev.checked va pa len s four two one = .stop .panic := by
  obtain ⟨zero, device, range, mem, low, high⟩ := divides
  have empty : len.toNat = 0 := congrArg BitVec.toNat zero
  have legal : isIllegalDevRange pa len = false := by
    refine devRange_legal.mpr ⟨⟨.inl device, .inl (by omega)⟩, range, mem, low, ?_⟩
    rw [empty, Nat.add_zero, Nat.mod_eq_of_lt pa.isLt]
    exact high
  have user : isIllegalVaRange va len = false := by rw [isIllegalVaRange, if_pos zero]
  rw [Dev.checked, user, legal, if_neg (by decide), if_pos zero]

theorem checked_refuses {σ α : Type} {s : σ} {four two one : α × σ} (bad : ¬ DevOk va pa len)
    (whole : ¬ DevDivides pa len) (inside : ¬ DevWraps va pa len) :
    Dev.checked va pa len s four two one = .err (-eInval) s := by
  unfold Dev.checked
  split
  · rfl
  · rename_i legal
    obtain ⟨user, device⟩ := Bool.or_eq_false_iff.mp (Bool.not_eq_true _ ▸ legal)
    split
    · rename_i zero
      obtain ⟨⟨even, -⟩, range, mem, low, high⟩ := devRange_legal.mp device
      refine absurd ⟨zero, even.resolve_right ?_, range, mem, low, ?_⟩ whole
      · rw [zero]
        decide
      · rwa [show len.toNat = 0 from congrArg BitVec.toNat zero, Nat.add_zero, Nat.mod_eq_of_lt pa.isLt] at high
    · rename_i nonzero
      split
      · rfl
      · rename_i aligned
        have none : ¬ (len = 1 ∨ len = 2 ∨ len = 4) := by
          intro length
          have zero := congrArg BitVec.toNat (not_not.mp aligned)
          rw [BitVec.toNat_umod] at zero
          exact (DevBuffer.cases ⟨length, zero, (vaRange_legal nonzero).mp user⟩ device).elim bad inside
        rw [not_or, not_or] at none
        rw [if_neg none.2.2, if_neg none.2.1, if_neg none.1]

theorem devAccess_checked {σ α : Type} {s : σ} {four two one : α × σ} (k : Kernel) (f : CallRes) :
    devAccess va pa len k f = match Dev.checked va pa len s four two one with
      | .ok _ _ => f
      | .err code _ => .err code k
      | .stop cause => .stop cause := by
  unfold devAccess Dev.checked
  by_cases illegal : (isIllegalVaRange va len || isIllegalDevRange pa len) = true
  · rw [if_pos illegal, if_pos illegal]
  · rw [if_neg illegal, if_neg illegal]
    by_cases zero : len = 0
    · rw [if_pos zero, if_pos zero]
    · rw [if_neg zero, if_neg zero]
      by_cases odd : va % len ≠ 0
      · rw [if_pos odd, if_pos odd]
      · rw [if_neg odd, if_neg odd]
        by_cases length : len = 4 ∨ len = 2 ∨ len = 1
        · rw [if_pos length]
          rcases length with rfl | rfl | rfl <;> rfl
        · obtain ⟨four, two, one⟩ : len ≠ 4 ∧ len ≠ 2 ∧ len ≠ 1 := by simpa only [not_or] using length
          rw [if_neg length, if_neg four, if_neg two, if_neg one]

end Checks

/-- `sys_write_dev` stores the `len` bytes from `va` on at `pa`, in one access, or does nothing but to refuse. -/
structure WriteChecked {σ : Type} (bus : Bus σ) (load : Load) (va pa len : Word) (s : σ) : Prop where
  performs : DevOk va pa len → ∃ data, Dev.sysWriteDev bus load va pa len s = .ok 0 (iowrite bus len.toNat data pa s) ∧
    ∀ j < len.toNat, (data >>> (8 * j)).setWidth 8 = load (va + BitVec.ofNat 32 j)
  refuses : ¬ DevOk va pa len → Dev.sysWriteDev bus load va pa len s = .err (-eInval) s

/-- `sys_read_dev` stores the `len` bytes that one access to `pa` gives from `va` on, or does nothing but to refuse. -/
structure ReadChecked {σ : Type} (bus : Bus σ) (va pa len : Word) (s : σ) : Prop where
  performs : DevOk va pa len → Dev.sysReadDev bus va pa len s =
    .ok (0, copyOut va ((wordBytes (ioread bus len.toNat pa s).1).take len.toNat)) (ioread bus len.toNat pa s).2
  refuses : ¬ DevOk va pa len → Dev.sysReadDev bus va pa len s = .err (-eInval) s

theorem loadWord_byte (load : Load) (va : Word) {j : Nat} (below : j < 4) :
    (loadWord load va >>> (8 * j)).setWidth 8 = load (va + BitVec.ofNat 32 j) := by
  have which : j = 0 ∨ j = 1 ∨ j = 2 ∨ j = 3 := by omega
  rcases which with rfl | rfl | rfl | rfl
  all_goals
    apply BitVec.eq_of_getLsbD_eq
    intro i inside
    simp only [loadWord, BitVec.getLsbD_setWidth, BitVec.getLsbD_ushiftRight, BitVec.getLsbD_or,
      BitVec.getLsbD_shiftLeft, BitVec.add_zero]
    grind

section Access

variable {σ : Type} {bus : Bus σ} {load : Load} {va pa len : Word} {s : σ}

theorem sysWriteDev_performs (ok : DevOk va pa len) : ∃ data, Dev.sysWriteDev bus load va pa len s =
    .ok 0 (iowrite bus len.toNat data pa s) ∧ ∀ j < len.toNat, (data >>> (8 * j)).setWidth 8 = load (va + BitVec.ofNat 32 j) := by
  unfold Dev.sysWriteDev
  rw [checked_passes ok.toDevBuffer ok.legal]
  rcases ok.length with rfl | rfl | rfl
  · refine ⟨_, rfl, fun j below => ?_⟩
    obtain rfl : j = 0 := by simpa using below
    simp
  · refine ⟨_, rfl, fun j below => ?_⟩
    have which : j = 0 ∨ j = 1 := by simp at below; omega
    rcases which with rfl | rfl
    all_goals
      apply BitVec.eq_of_getLsbD_eq
      intro i inside
      simp only [Dev.loadHalf, BitVec.getLsbD_setWidth, BitVec.getLsbD_ushiftRight, BitVec.getLsbD_or,
        BitVec.getLsbD_shiftLeft, BitVec.add_zero]
      grind
  · exact ⟨_, rfl, fun j below => loadWord_byte load va below⟩

theorem sysReadDev_performs (ok : DevOk va pa len) : Dev.sysReadDev bus va pa len s =
    .ok (0, copyOut va ((wordBytes (ioread bus len.toNat pa s).1).take len.toNat)) (ioread bus len.toNat pa s).2 := by
  unfold Dev.sysReadDev
  rw [checked_passes ok.toDevBuffer ok.legal]
  rcases ok.length with rfl | rfl | rfl
  · rfl
  · have first (w : Word) : ((w.setWidth 16).setWidth 32).setWidth 8 = w.setWidth 8 := by
      apply BitVec.eq_of_getLsbD_eq
      intro i inside
      simp only [BitVec.getLsbD_setWidth]
      grind
    have second (w : Word) : (((w.setWidth 16).setWidth 32) >>> 8).setWidth 8 = (w >>> 8).setWidth 8 := by
      apply BitVec.eq_of_getLsbD_eq
      intro i inside
      simp only [BitVec.getLsbD_setWidth, BitVec.getLsbD_ushiftRight]
      grind
    have low (w : Word) : (wordBytes ((w.setWidth 16).setWidth 32)).take 2 = (wordBytes w).take 2 := by
      show [_, _] = [_, _]
      rw [first, second]
    exact congrArg (fun bytes => Result.ok (0, copyOut va bytes) _) (low _)
  · rfl

theorem DevDivides.not_ok (divides : DevDivides pa len) : ¬ DevOk va pa len := by
  intro ok
  have nonzero := ok.toDevBuffer.legal.1
  exact nonzero divides.zero

theorem DevWraps.not_ok (wraps : DevWraps va pa len) : ¬ DevOk va pa len := by
  intro ok
  obtain ⟨range, mem, low, high⟩ := ok.inside
  have top := wraps.top
  have bound := range.2.isLt
  omega

/-- Both calls are checked as long as `len` is not 0 where the physical address passes the test, and as long as the
    physical range does not wrap around. -/
theorem devChecked_iff (bus : Bus σ) (load : Load) (va pa len : Word) (s : σ) :
    (WriteChecked bus load va pa len s ↔ ¬ DevDivides pa len ∧ ¬ DevWraps va pa len) ∧
      (ReadChecked bus va pa len s ↔ ¬ DevDivides pa len ∧ ¬ DevWraps va pa len) := by
  refine ⟨⟨fun checked => ⟨fun divides => ?_, fun wraps => ?_⟩, fun ⟨whole, inside⟩ => ⟨sysWriteDev_performs, fun bad => ?_⟩⟩,
    ⟨fun checked => ⟨fun divides => ?_, fun wraps => ?_⟩, fun ⟨whole, inside⟩ => ⟨sysReadDev_performs, fun bad => ?_⟩⟩⟩
  · cases (checked_divides divides).symm.trans (checked.refuses divides.not_ok)
  · exact checked_not_refused wraps.toDevBuffer wraps.legal (checked.refuses wraps.not_ok)
  · exact checked_refuses bad whole inside
  · cases (checked_divides divides).symm.trans (checked.refuses divides.not_ok)
  · exact checked_not_refused wraps.toDevBuffer wraps.legal (checked.refuses wraps.not_ok)
  · exact checked_refuses bad whole inside

end Access

def accessLog : Bus (List (Nat × Word)) where
  store len addr _ log := log ++ [(len, addr)]
  load len addr log := (0, log ++ [(len, addr)])

/-- A length of 0 at the start of the console divides by 0, and a word at the end of the addresses is accessed. -/
theorem devChecked_fails : Dev.sysWriteDev accessLog (fun _ => 0) 0x400000 0x180003f8 0 [] = .stop .panic ∧
    Dev.sysWriteDev accessLog (fun _ => 0) 0x400000 0xfffffffc 4 [] = .ok 0 [(4, 0xfffffffc)] ∧
    ¬ WriteChecked accessLog (fun _ => 0) 0x400000 0x180003f8 0 [] ∧
    ¬ WriteChecked accessLog (fun _ => 0) 0x400000 0xfffffffc 4 [] := by
  have divides : DevDivides 0x180003f8 0 := ⟨rfl, by decide, (0x180003f8, 0x180003f8 + 0x20), by decide, by decide, by decide⟩
  have wraps : DevWraps 0x400000 0xfffffffc 4 := ⟨⟨by decide, by decide, by decide⟩, by decide⟩
  refine ⟨by rfl, by rfl, fun checked => ?_, fun checked => ?_⟩
  · cases (checked_divides divides).symm.trans (checked.refuses divides.not_ok)
  · exact checked_not_refused wraps.toDevBuffer wraps.legal (checked.refuses wraps.not_ok)

end Mos
