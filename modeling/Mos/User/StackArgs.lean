import Mos.User.Stack

namespace Mos.Spawn

section Memory

variable {m m' : Mem} {a b w : Word} {bs : List Byte}

theorem gap_before {k l : Nat} (less : k < l) (small : l ≤ 2 ^ 32) :
    (a + BitVec.ofNat 32 k - (a + BitVec.ofNat 32 l)).toNat = 2 ^ 32 - (l - k) := by
  rw [BitVec.toNat_sub, BitVec.toNat_add, BitVec.toNat_add, BitVec.toNat_ofNat, BitVec.toNat_ofNat]
  omega

theorem gap_after {k l : Nat} (le : l ≤ k) (small : k < 2 ^ 32) :
    (a + BitVec.ofNat 32 k - (a + BitVec.ofNat 32 l)).toNat = k - l := by
  rw [BitVec.toNat_sub, BitVec.toNat_add, BitVec.toNat_add, BitVec.toNat_ofNat, BitVec.toNat_ofNat]
  omega

theorem storeBytes_off (far : bs.length ≤ (b - a).toNat) : storeBytes m a bs b = m b := by
  induction bs generalizing a m with
  | nil => rfl
  | cons c rest ih =>
    rw [List.length_cons] at far
    have away : b ≠ a := by
      rintro rfl
      rw [BitVec.sub_self] at far
      exact absurd far (Nat.not_succ_le_zero _)
    rw [storeBytes, ih (by bv_omega), Function.update_of_ne away]

theorem storeBytes_at {k : Nat} (inside : k < bs.length) (small : bs.length ≤ 2 ^ 32) :
    storeBytes m a bs (a + BitVec.ofNat 32 k) = bs.getD k 0 := by
  induction bs generalizing a m k with
  | nil => exact absurd inside (Nat.not_lt_zero k)
  | cons c rest ih =>
    rw [List.length_cons] at inside small
    rw [storeBytes]
    cases k with
    | zero =>
      have behind : (a + BitVec.ofNat 32 0 - (a + 1)).toNat = 2 ^ 32 - (1 - 0) := gap_before (by decide) (by decide)
      rw [storeBytes_off (by omega), BitVec.add_zero, Function.update_self]
      rfl
    | succ k =>
      have step : a + BitVec.ofNat 32 (k + 1) = a + 1 + BitVec.ofNat 32 k := by
        rw [Nat.add_comm k, BitVec.ofNat_add, BitVec.add_assoc]
        rfl
      rw [step, ih (by omega) (by omega)]
      rfl

theorem loadWord_congr (same : ∀ k < 4, m' (a + BitVec.ofNat 32 k) = m (a + BitVec.ofNat 32 k)) :
    loadWord m' a = loadWord m a := by
  have first := same 0 (by decide)
  rw [BitVec.add_zero] at first
  unfold loadWord
  rw [first]
  congr 1
  congr 1
  · exact congrArg₂ (· ++ ·) (same 3 (by decide)) (same 2 (by decide))
  · exact same 1 (by decide)

theorem loadWord_storeWord : loadWord (storeWord m a w) a = w := by
  have byte : ∀ k, k < 4 → storeWord m a w (a + BitVec.ofNat 32 k) = (leBytes w).getD k 0 :=
    fun k inside => storeBytes_at inside (show 4 ≤ 2 ^ 32 by decide)
  have first := byte 0 (by decide)
  rw [BitVec.add_zero] at first
  unfold loadWord
  rw [first, show a + 3 = a + BitVec.ofNat 32 3 from rfl, show a + 2 = a + BitVec.ofNat 32 2 from rfl,
    show a + 1 = a + BitVec.ofNat 32 1 from rfl, byte 3 (by decide), byte 2 (by decide), byte 1 (by decide)]
  show w.extractLsb' 24 8 ++ w.extractLsb' 16 8 ++ w.extractLsb' 8 8 ++ w.extractLsb' 0 8 = w
  have high : w.extractLsb' 24 8 ++ w.extractLsb' 16 8 = w.extractLsb' 16 16 :=
    BitVec.extractLsb'_append_extractLsb'_eq_extractLsb' rfl
  have upper : w.extractLsb' 16 16 ++ w.extractLsb' 8 8 = w.extractLsb' 8 24 :=
    BitVec.extractLsb'_append_extractLsb'_eq_extractLsb' rfl
  have whole : w.extractLsb' 8 24 ++ w.extractLsb' 0 8 = w.extractLsb' 0 32 :=
    BitVec.extractLsb'_append_extractLsb'_eq_extractLsb' rfl
  rw [high, upper, whole]
  simp

end Memory

section Loops

variable {argv : List (List Byte)} {m : Mem} {a c : Word}

/-- Where the string `i` begins, counted from the first. -/
def offset (argv : List (List Byte)) (i : Nat) : Nat := ((argv.take i).map fun s => s.length + 1).sum

def size (argv : List (List Byte)) : Nat := (argv.map fun s => s.length + 1).sum

@[simp] theorem offset_zero : offset argv 0 = 0 := rfl
@[simp] theorem offset_cons (s : List Byte) (i : Nat) : offset (s :: argv) (i + 1) = s.length + 1 + offset argv i := rfl
@[simp] theorem size_cons (s : List Byte) : size (s :: argv) = s.length + 1 + size argv := rfl

theorem copyStrings_off {x : Word} (small : size argv ≤ 2 ^ 32) (far : size argv ≤ (x - c).toNat) :
    copyStrings argv c m x = m x := by
  induction argv generalizing c m with
  | nil => rfl
  | cons s rest ih =>
    rw [size_cons] at small far
    rw [copyStrings, ih (by omega) (by bv_omega), storeBytes_off (by rw [List.length_append]; exact Nat.le_of_add_right_le far)]

theorem copyStrings_at {i k : Nat} {s : List Byte} (small : size argv ≤ 2 ^ 32) (here : argv[i]? = some s) (inside : k ≤ s.length) :
    copyStrings argv c m (c + BitVec.ofNat 32 (offset argv i + k)) = (s ++ [0]).getD k 0 := by
  induction argv generalizing c m i with
  | nil => cases here
  | cons t rest ih =>
    rw [size_cons] at small
    rw [copyStrings]
    cases i with
    | zero =>
      obtain rfl : t = s := Option.some.inj here
      rw [offset_zero, Nat.zero_add, copyStrings_off (by omega) ?_, storeBytes_at]
      · rw [List.length_append]
        exact Nat.lt_succ_of_le inside
      · rw [List.length_append, List.length_singleton]
        omega
      · rw [gap_before (by omega) (by omega)]
        omega
    | succ i =>
      have step : c + BitVec.ofNat 32 (offset (t :: rest) (i + 1) + k) =
          c + BitVec.ofNat 32 (t.length + 1) + BitVec.ofNat 32 (offset rest i + k) := by
        rw [offset_cons, BitVec.add_assoc, ← BitVec.ofNat_add, Nat.add_assoc]
      rw [step]
      exact ih (by omega) here

theorem setArgs_off {x : Word} (small : 4 * argv.length ≤ 2 ^ 32) (far : 4 * argv.length ≤ (x - a).toNat) :
    (setArgs argv a c m).2 x = m x := by
  induction argv generalizing a c m with
  | nil => rfl
  | cons s rest ih =>
    rw [List.length_cons] at small far
    rw [setArgs, ih (by omega) (by bv_omega), storeWord, storeBytes_off (by
      show 4 ≤ _
      omega)]

theorem setArgs_fst : (setArgs argv a c m).1 = c + BitVec.ofNat 32 (size argv) := by
  induction argv generalizing a c m with
  | nil => exact (BitVec.add_zero c).symm
  | cons s rest ih => rw [setArgs, ih, size_cons, BitVec.add_assoc, ← BitVec.ofNat_add]

theorem setArgs_at {i : Nat} (small : 4 * argv.length ≤ 2 ^ 32) (here : i < argv.length) :
    loadWord (setArgs argv a c m).2 (a + BitVec.ofNat 32 (4 * i)) = c + BitVec.ofNat 32 (offset argv i) := by
  induction argv generalizing a c m i with
  | nil => exact absurd here (Nat.not_lt_zero i)
  | cons s rest ih =>
    rw [List.length_cons] at small here
    rw [setArgs]
    cases i with
    | zero =>
      rw [offset_zero, Nat.mul_zero, BitVec.add_zero, BitVec.add_zero]
      refine (loadWord_congr (m := storeWord m a c) fun k inside => ?_).trans loadWord_storeWord
      apply setArgs_off (by omega)
      have behind : (a + BitVec.ofNat 32 k - (a + BitVec.ofNat 32 4)).toNat = 2 ^ 32 - (4 - k) :=
        gap_before inside (by decide)
      rw [show a + 4 = a + BitVec.ofNat 32 4 from rfl, behind]
      omega
    | succ i =>
      have step : a + BitVec.ofNat 32 (4 * (i + 1)) = a + 4 + BitVec.ofNat 32 (4 * i) := by
        rw [Nat.mul_succ, Nat.add_comm (4 * i), BitVec.ofNat_add, BitVec.add_assoc]
        rfl
      rw [step, ih (by omega) (by omega), offset_cons, BitVec.add_assoc, ← BitVec.ofNat_add]

end Loops

section Layout

variable {argv : List (List Byte)} {m : Mem} {calls : Calls}

/-- The address of byte `o` of the page at `UTEMP`. -/
def inPage (o : Nat) : Word := utemp + BitVec.ofNat 32 o

theorem inPage_add (o k : Nat) : inPage o + BitVec.ofNat 32 k = inPage (o + k) := by
  rw [inPage, inPage, BitVec.add_assoc, ← BitVec.ofNat_add]

theorem inPage_sub {o k : Nat} (le : k ≤ o) : inPage o - BitVec.ofNat 32 k = inPage (o - k) := by
  rw [BitVec.sub_eq_iff_eq_add, inPage_add, Nat.sub_add_cancel le]

theorem shift_inPage {o : Nat} (small : o ≤ 4096) : (shift + inPage o).toNat = ustacktop.toNat - 4096 + o := by
  have start : shift.toNat = 0x7efff000 := rfl
  have page : utemp.toNat = 0x3fe000 := rfl
  have top : ustacktop.toNat = 0x7f3fe000 := rfl
  rw [inPage, BitVec.toNat_add, BitVec.toNat_add, BitVec.toNat_ofNat]
  omega

theorem child_shift (m : Mem) (a : Word) : child m (shift + a) = m a := by
  rw [child, BitVec.add_comm, BitVec.add_sub_cancel]

theorem loadWord_child (m : Mem) (a : Word) : loadWord (child m) (shift + a) = loadWord m a := by
  unfold loadWord
  simp only [BitVec.add_assoc, child_shift]

theorem total_eq (argv : List (List Byte)) : total argv = BitVec.ofNat 32 (size argv) := by
  have from_ : ∀ (argv : List (List Byte)) (t : Word),
      argv.foldl (fun tot s => tot + BitVec.ofNat 32 (s.length + 1)) t = t + BitVec.ofNat 32 (size argv) := by
    intro argv
    induction argv with
    | nil => exact fun t => (BitVec.add_zero t).symm
    | cons s rest ih => exact fun t => by rw [List.foldl_cons, ih, size_cons, BitVec.add_assoc, ← BitVec.ofNat_add]
  rw [total, from_, show (0 : Word) = 0#32 from rfl, BitVec.zero_add]

/-- `ROUND(n, 4)` in the natural numbers. -/
def up4 (n : Nat) : Nat := 4 * ((n + 3) / 4)

theorem round4_eq {n : Nat} (small : n ≤ 4096) : round4 (BitVec.ofNat 32 n) = BitVec.ofNat 32 (up4 n) := by
  have mask : ∀ x : Word, x &&& ~~~(3 : Word) = (x >>> 2) <<< 2 := by
    intro x
    apply BitVec.eq_of_getLsbD_eq
    intro i inside
    have low : (3#32).getLsbD i = decide (i < 2) := by
      rw [BitVec.getLsbD_ofNat, show 3 = 2 ^ 2 - 1 from rfl, Nat.testBit_two_pow_sub_one]
      simp [inside]
    rw [BitVec.getLsbD_and, BitVec.getLsbD_not, show (3 : Word) = 3#32 from rfl, low, BitVec.getLsbD_shiftLeft,
      BitVec.getLsbD_ushiftRight]
    by_cases less : i < 2
    · simp [less]
    · rw [Nat.add_sub_cancel' (Nat.le_of_not_lt less)]
      simp [less, inside]
  apply BitVec.eq_of_toNat_eq
  rw [round4, mask, BitVec.toNat_shiftLeft, BitVec.toNat_ushiftRight, BitVec.toNat_add, BitVec.toNat_ofNat, BitVec.toNat_ofNat,
    Nat.shiftRight_eq_div_pow, Nat.shiftLeft_eq]
  show ((n % 2 ^ 32 + 3) % 2 ^ 32) / 2 ^ 2 * 2 ^ 2 % 2 ^ 32 = _
  unfold up4
  omega

theorem fits_accepted (fits : Fits argv) : tooBig argv = false := by
  have sum : size argv + 4 * (argv.length + 3) ≤ 4096 := fits
  have up : up4 (size argv) < size argv + 4 ∧ up4 (size argv) % 4 = 0 := by
    unfold up4
    omega
  unfold tooBig
  rw [total_eq, round4_eq (by omega), decide_eq_false_iff_not, BitVec.lt_def]
  have words : (4 * (BitVec.ofNat 32 argv.length + 3)).toNat = 4 * (argv.length + 3) := by
    rw [BitVec.toNat_mul, BitVec.toNat_add, BitVec.toNat_ofNat]
    show 4 * ((argv.length % 2 ^ 32 + 3) % 2 ^ 32) % 2 ^ 32 = _
    omega
  rw [BitVec.toNat_add, words, BitVec.toNat_ofNat]
  show ¬ 4096 < _
  omega

theorem storeWord_byte {o x : Nat} {w : Word} (small : o ≤ 4096) (small' : x ≤ 8192) (apart : x < o ∨ o + 4 ≤ x) :
    storeWord m (inPage o) w (inPage x) = m (inPage x) := by
  apply storeBytes_off
  show 4 ≤ _
  rcases apart with before | after
  · rw [inPage, inPage, gap_before before (by omega)]
    omega
  · rw [inPage, inPage, gap_after (by omega) (by omega)]
    omega

theorem storeWord_word {o x : Nat} {w : Word} (small : o ≤ 4096) (small' : x ≤ 4096) (apart : x + 4 ≤ o ∨ o + 4 ≤ x) :
    loadWord (storeWord m (inPage o) w) (inPage x) = loadWord m (inPage x) := by
  refine loadWord_congr fun k inside => ?_
  rw [inPage_add]
  exact storeWord_byte small (by omega) (by omega)

theorem setArgs_byte {o x : Nat} {c : Word} (small : o + 4 * argv.length ≤ 4096) (small' : x ≤ 8192)
    (apart : x < o ∨ o + 4 * argv.length ≤ x) : (setArgs argv (inPage o) c m).2 (inPage x) = m (inPage x) := by
  apply setArgs_off (by omega)
  rcases apart with before | after
  · rw [inPage, inPage, gap_before before (by omega)]
    omega
  · rw [inPage, inPage, gap_after (by omega) (by omega)]
    omega

def argsAt (argv : List (List Byte)) : Nat := 4096 - up4 (size argv) - 4 * (argv.length + 1)

theorem argsAt_spec (fits : Fits argv) :
    argsAt argv + 4 * (argv.length + 1) ≤ 4096 - size argv ∧ 8 ≤ argsAt argv ∧ size argv ≤ 4096 := by
  have sum : size argv + 4 * (argv.length + 3) ≤ 4096 := fits
  unfold argsAt up4
  omega

theorem offset_lt {i : Nat} {s : List Byte} (here : argv[i]? = some s) : offset argv i + (s.length + 1) ≤ size argv := by
  induction argv generalizing i with
  | nil => cases here
  | cons t rest ih =>
    cases i with
    | zero =>
      obtain rfl : t = s := Option.some.inj here
      rw [offset_zero, size_cons]
      omega
    | succ i =>
      rw [offset_cons, size_cons]
      have later := ih (i := i) here
      omega

theorem offset_mono {i j : Nat} {s : List Byte} (less : i < j) (here : argv[i]? = some s) (inside : j ≤ argv.length) :
    offset argv i + (s.length + 1) ≤ offset argv j := by
  induction argv generalizing i j with
  | nil => cases here
  | cons t rest ih =>
    obtain ⟨j, rfl⟩ : ∃ j', j = j' + 1 := Nat.exists_eq_succ_of_ne_zero (by omega)
    cases i with
    | zero =>
      obtain rfl : t = s := Option.some.inj here
      rw [offset_zero, offset_cons]
      omega
    | succ i =>
      rw [offset_cons, offset_cons]
      rw [List.length_cons] at inside
      have later := ih (i := i) (j := j) (by omega) here (by omega)
      omega

/-- No call of `init_stack` to the kernel fails. -/
structure Calls.Granted (calls : Calls) : Prop where
  alloc : calls.alloc.slt 0 = false
  map : calls.map.slt 0 = false
  unmap : calls.unmap.slt 0 = false

/-- What the page at `UTEMP` holds when `init_stack` returns. -/
structure Laid (m : Mem) (argv : List (List Byte)) : Prop where
  argc : loadWord m (inPage (argsAt argv - 8)) = BitVec.ofNat 32 argv.length
  array : loadWord m (inPage (argsAt argv - 4)) = shift + inPage (argsAt argv)
  pointers : ∀ i < argv.length,
    loadWord m (inPage (argsAt argv + 4 * i)) = shift + inPage (4096 - size argv + offset argv i)
  last : loadWord m (inPage (argsAt argv + 4 * argv.length)) = shift + inPage 4095
  copies : ∀ i s, argv[i]? = some s → ∀ k, k ≤ s.length →
    m (inPage (4096 - size argv + offset argv i + k)) = (s ++ [0]).getD k 0

/-- The page after the stores of `init_stack`. -/
def initPage (argv : List (List Byte)) (m : Mem) : Mem :=
  let strings := inPage (4096 - size argv)
  let pointers := (setArgs argv (inPage (argsAt argv)) (shift + strings) (copyStrings argv strings m)).2
  let args := storeWord pointers (inPage (argsAt argv + 4 * argv.length)) (shift + inPage 4095)
  storeWord (storeWord args (inPage (argsAt argv - 4)) (shift + inPage (argsAt argv))) (inPage (argsAt argv - 8))
    (BitVec.ofNat 32 argv.length)

theorem initStack_fits (fits : Fits argv) (granted : calls.Granted) :
    initStack calls argv m = .ok (shift + inPage (argsAt argv - 8), initPage argv m) := by
  obtain ⟨above, below, small⟩ := argsAt_spec fits
  have strings : utemp + 4096 - total argv = inPage (4096 - size argv) := by
    rw [total_eq, ← inPage_sub small]
    rfl
  have four : ∀ k, k ≤ 1024 → (4 : Word) * BitVec.ofNat 32 k = BitVec.ofNat 32 (4 * k) := by
    intro k _
    rw [show (4 : Word) = BitVec.ofNat 32 4 from rfl, ← BitVec.ofNat_mul]
  have args : utemp + 4096 - round4 (total argv) - 4 * (BitVec.ofNat 32 argv.length + 1) = inPage (argsAt argv) := by
    rw [total_eq, round4_eq small, show BitVec.ofNat 32 argv.length + 1 = BitVec.ofNat 32 (argv.length + 1) from
      (BitVec.ofNat_add _ _).symm, four _ (by omega), show utemp + 4096 = inPage 4096 from rfl,
      inPage_sub (by unfold up4; omega), inPage_sub (by unfold argsAt at below; omega)]
    rfl
  have lastAt : inPage (argsAt argv) + 4 * BitVec.ofNat 32 argv.length = inPage (argsAt argv + 4 * argv.length) := by
    rw [four _ (by omega), inPage_add]
  have arrayAt : inPage (argsAt argv) - 4 = inPage (argsAt argv - 4) := inPage_sub (k := 4) (by omega)
  have argcAt : inPage (argsAt argv) - 8 = inPage (argsAt argv - 8) := inPage_sub (k := 8) (by omega)
  have ctemp : shift + inPage (4096 - size argv) + BitVec.ofNat 32 (size argv) - 1 = shift + inPage 4095 := by
    rw [BitVec.add_assoc, inPage_add, Nat.sub_add_cancel small]
    rfl
  unfold initStack
  rw [fits_accepted fits, if_neg Bool.false_ne_true]
  dsimp only
  rw [granted.alloc, granted.map, granted.unmap, if_neg Bool.false_ne_true, if_neg Bool.false_ne_true, if_neg Bool.false_ne_true,
    strings, args, lastAt, arrayAt, argcAt, setArgs_fst, ctemp]
  rfl

theorem initPage_laid (fits : Fits argv) : Laid (initPage argv m) argv := by
  obtain ⟨above, below, small⟩ := argsAt_spec fits
  refine ⟨loadWord_storeWord, ?_, fun i inside => ?_, ?_, fun i s here k inside => ?_⟩
  · rw [initPage, storeWord_word (by omega) (by omega) (by omega)]
    exact loadWord_storeWord
  · rw [initPage, storeWord_word (by omega) (by omega) (by omega), storeWord_word (by omega) (by omega) (by omega),
      storeWord_word (by omega) (by omega) (by omega), ← inPage_add, setArgs_at (by omega) inside, BitVec.add_assoc, inPage_add]
  · rw [initPage, storeWord_word (by omega) (by omega) (by omega), storeWord_word (by omega) (by omega) (by omega)]
    exact loadWord_storeWord
  · have inside' := offset_lt here
    rw [initPage, storeWord_byte (by omega) (by omega) (by omega), storeWord_byte (by omega) (by omega) (by omega),
      storeWord_byte (by omega) (by omega) (by omega), setArgs_byte (by omega) (by omega) (by omega), Nat.add_assoc,
      ← inPage_add, copyStrings_at (by omega) here inside]

theorem shift_add (o k : Nat) : shift + inPage o + BitVec.ofNat 32 k = shift + inPage (o + k) := by
  rw [BitVec.add_assoc, inPage_add]

theorem inPage_range {o n : Nat} (inside : o + n ≤ 4096) : InPage (shift + inPage o) n := by
  have start := shift_inPage (show o ≤ 4096 by omega)
  have top : ustacktop.toNat = 0x7f3fe000 := rfl
  unfold InPage
  omega

theorem inPage_apart {o o' n n' : Nat} (before : o + n ≤ o') (inside : o' + n' ≤ 4096) :
    Apart (shift + inPage o) n (shift + inPage o') n' := by
  left
  rw [shift_inPage (by omega), shift_inPage (by omega)]
  omega

/-- The child finds all of the arguments, and the address of the last byte of its stack behind the pointers. -/
theorem Laid.seen (laid : Laid m argv) (fits : Fits argv) : Argv (child m) (shift + inPage (argsAt argv - 8)) argv ∧
    lastWord (child m) (shift + inPage (argsAt argv - 8)) argv = shift + inPage 4095 := by
  obtain ⟨above, below, small⟩ := argsAt_spec fits
  have second : shift + inPage (argsAt argv - 8) + 4 = shift + inPage (argsAt argv - 4) := by
    rw [show (4 : Word) = BitVec.ofNat 32 4 from rfl, shift_add, show argsAt argv - 8 + 4 = argsAt argv - 4 by omega]
  have array : loadWord (child m) (shift + inPage (argsAt argv - 8) + 4) = shift + inPage (argsAt argv) := by
    rw [second, loadWord_child, laid.array]
  have pointer : ∀ i < argv.length, loadWord (child m) (loadWord (child m) (shift + inPage (argsAt argv - 8) + 4) +
      BitVec.ofNat 32 (4 * i)) = shift + inPage (4096 - size argv + offset argv i) := by
    intro i inside
    rw [array, shift_add, loadWord_child, laid.pointers i inside]
  have bound : ∀ {i : Nat} {s : List Byte}, argv[i]? = some s → i < argv.length :=
    fun here => (List.getElem?_eq_some_iff.mp here).1
  refine ⟨{ argc := ?_, copies := ?_, words := ?_, array := ?_, arrayApart := ?_, strings := ?_, stringsApart := ?_ }, ?_⟩
  · rw [loadWord_child, laid.argc]
  · intro i s here k inside
    rw [pointer i (bound here), shift_add, child_shift, laid.copies i s here k inside]
  · exact inPage_range (by omega)
  · rw [array]
    exact inPage_range (by omega)
  · rw [array]
    exact inPage_apart (by omega) (by omega)
  · intro i s here
    have last := offset_lt here
    rw [pointer i (bound here), array]
    exact ⟨inPage_range (by omega), inPage_apart (by omega) (by omega), inPage_apart (by omega) (by omega)⟩
  · intro i j s t differ here here'
    have last := offset_lt here
    have last' := offset_lt here'
    rw [pointer i (bound here), pointer j (bound here')]
    rcases Nat.lt_or_gt_of_ne differ with less | more
    · have before := offset_mono less here (Nat.le_of_lt (bound here'))
      exact inPage_apart (by omega) (by omega)
    · have before := offset_mono more here' (Nat.le_of_lt (bound here))
      exact Or.symm (inPage_apart (by omega) (by omega))
  · rw [lastWord, array, shift_add, loadWord_child, laid.last]

end Layout

theorem initStack_last (argv : List (List Byte)) (m : Mem) (fits : Fits argv) :
    Argv (child (initPage argv m)) (shift + inPage (argsAt argv - 8)) argv ∧
      lastWord (child (initPage argv m)) (shift + inPage (argsAt argv - 8)) argv = ustacktop - 1 :=
  (initPage_laid fits).seen fits

theorem not_encodes {calls : Calls} (granted : calls.Granted) {argv : List (List Byte)} {m : Mem} (fits : Fits argv) :
    ¬ Encodes calls argv m := by
  intro encodes
  have null := (encodes.1 _ _ (initStack_fits fits granted)).2
  rw [(initStack_last argv m fits).2] at null
  exact absurd null (by decide)

/-- `init_stack` puts all the arguments into the stack page of the child, but never a null word behind the pointers: it
    does what it should just for the arguments that it refuses. -/
theorem init_stack_encodes {calls : Calls} (granted : calls.Granted) (argv : List (List Byte)) (m : Mem) :
    (Encodes calls argv m ↔ tooBig argv = true) ∧
      (Fits argv → ∃ sp m', initStack calls argv m = .ok (sp, m') ∧ Argv (child m') sp argv ∧
        lastWord (child m') sp argv = ustacktop - 1) := by
  refine ⟨⟨fun encodes => ?_, fun big => ⟨fun sp m' returned => ?_, iff_of_true ?_ fun fits => ?_⟩⟩,
    fun fits => ⟨_, _, initStack_fits fits granted, initStack_last argv m fits⟩⟩
  · by_contra accepted
    have refused : initStack calls argv m ≠ .error (-eNoMem) := by
      unfold initStack
      rw [if_neg accepted]
      dsimp only
      rw [granted.alloc, granted.map, granted.unmap]
      exact fun no => nomatch no
    exact not_encodes granted (by_contra fun no => refused (encodes.2.mpr no)) encodes
  · rw [initStack, if_pos big] at returned
    cases returned
  · rw [initStack, if_pos big]
  · rw [fits_accepted fits] at big
    cases big

theorem init_stack_encodes_a : ∃ sp m', initStack { alloc := 0, map := 0, unmap := 0 } [[0x61]] (fun _ => 0) = .ok (sp, m') ∧
    Argv (child m') sp [[0x61]] ∧ lastWord (child m') sp [[0x61]] = ustacktop - 1 :=
  (init_stack_encodes ⟨rfl, rfl, rfl⟩ [[0x61]] fun _ => 0).2 (by unfold Fits; decide)

/-- The array of one argument has no null word at its end. -/
theorem init_stack_not_null : ¬ Encodes { alloc := 0, map := 0, unmap := 0 } [[0x61]] fun _ => 0 :=
  not_encodes ⟨rfl, rfl, rfl⟩ (by unfold Fits; decide)

end Mos.Spawn
