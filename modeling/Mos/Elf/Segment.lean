import Mos.Elf.Loader

namespace Mos.Elf

variable {mapPage : Mapper} {legal : Word → Bool} {m m' : Memory} {ph : Phdr} {va perm : Word} {bin : Nat → Byte}
  {src : Option (Nat → Byte)} {size fuel i i' : Nat}

def Memory.view (m : Memory) (p : Nat) : Option (Nat → Byte) := (m.env p).map fun page => m.frame page.1

def Memory.Ok (m : Memory) : Prop := ∀ p page, m.env p = some page → page.1 < m.taken

def filled (offset : Nat) (src : Option (Nat → Byte)) (len o : Nat) : Byte :=
  match src with
  | some src => if offset ≤ o ∧ o < offset + len then src (o - offset) else 0
  | none => 0

/-- The mapper puts a page of zeros with the copy in it at a legal address, and refuses the others. -/
structure Places (mapPage : Mapper) (legal : Word → Bool) : Prop where
  total : ∀ {va offset perm src len m}, m.Ok → legal va = true → ∃ m', mapPage va offset perm src len m = .ok m'
  placed : ∀ {va offset perm src len m m'}, m.Ok → mapPage va offset perm src len m = .ok m' →
    legal va = true ∧ m'.Ok ∧ m'.view = Function.update m.view (pageNo va) (some (filled offset src len))
  pagewise : ∀ {va va'}, pageNo va = pageNo va' → legal va = legal va'

theorem pageInsert_ok (ok : m.Ok) {p : Nat} (taken : p < m.taken) : (m.pageInsert p va perm).Ok := by
  intro q page mapped
  by_cases here : q = pageNo va
  · subst here
    simp only [Memory.pageInsert, Function.update_self, Option.some.injEq] at mapped
    subst mapped
    exact taken
  · simp only [Memory.pageInsert, Function.update_of_ne here] at mapped
    exact ok q page mapped

theorem pageInsert_view (p : Nat) : (m.pageInsert p va perm).view = Function.update m.view (pageNo va) (some (m.frame p)) := by
  funext q
  unfold Memory.view Memory.pageInsert
  by_cases here : q = pageNo va
  · subst here
    simp only [Function.update_self, Option.map_some]
  · simp only [Function.update_of_ne here]

theorem view_frame (ok : m.Ok) {p : Nat} (fresh : m.taken ≤ p) (bytes : Nat → Byte) (taken : Nat) (utemp : Option Nat) :
    Memory.view { m with frame := Function.update m.frame p bytes, taken := taken, utemp := utemp } = m.view := by
  funext q
  unfold Memory.view
  cases mapped : m.env q with
  | none => rfl
  | some page =>
    have old := ok q page mapped
    simp only [Option.map_some]
    rw [Function.update_of_ne (by omega)]

theorem loadIcodeMapper_places : Places loadIcodeMapper fun _ => true where
  total _ _ := ⟨_, rfl⟩
  pagewise _ := rfl
  placed := by
    intro va offset perm src len m m' ok done
    cases done
    have grown : ∀ frame, Memory.Ok { m with frame := frame, taken := m.taken + 1 } := fun _ p page mapped =>
      Nat.lt_succ_of_lt (ok p page mapped)
    cases src with
    | none =>
      refine ⟨rfl, pageInsert_ok (grown _) (Nat.lt_succ_self _), ?_⟩
      refine (pageInsert_view _).trans ?_
      dsimp only
      rw [view_frame ok (Nat.le_refl _) _ _ m.utemp, Function.update_self]
      rfl
    | some src =>
      refine ⟨rfl, pageInsert_ok (grown _) (Nat.lt_succ_self _), ?_⟩
      refine (pageInsert_view _).trans ?_
      unfold Memory.copy
      simp only [Function.update_self, Function.update_idem]
      rw [view_frame ok (Nat.le_refl _) _ _ m.utemp]
      rfl

theorem spawnMapper_places : Places spawnMapper fun va => !isIllegalVa va where
  pagewise := by
    intro va va' same
    have utempNo : utemp.toNat = 4096 * 0x3fe := by decide
    have utopNo : utop.toNat = 4096 * 0x7f400 := by decide
    unfold pageNo at same
    have low : va < utemp ↔ va' < utemp := by
      rw [BitVec.lt_def, BitVec.lt_def]
      omega
    have high : utop ≤ va ↔ utop ≤ va' := by
      rw [BitVec.le_def, BitVec.le_def]
      omega
    simp only [isIllegalVa, low, high]
  total := by
    intro va offset perm src len m ok legal
    have legal : isIllegalVa va = false := by simpa using legal
    unfold spawnMapper sysMemAlloc
    rw [if_neg (by rw [legal]; nofun)]
    cases src with
    | none => exact ⟨_, rfl⟩
    | some src =>
      simp [Except.bind, sysMemMap, legal, Memory.pageInsert, Memory.pageAlloc]
  placed := by
    intro va offset perm src len m m' ok done
    have grown : ∀ frame, Memory.Ok { m with frame := frame, taken := m.taken + 1 } := fun _ p page mapped =>
      Nat.lt_succ_of_lt (ok p page mapped)
    unfold spawnMapper sysMemAlloc at done
    cases legal : isIllegalVa va with
    | true =>
      rw [legal] at done
      cases done
    | false =>
      rw [legal] at done
      refine ⟨rfl, ?_⟩
      cases src with
      | none =>
        cases done
        refine ⟨pageInsert_ok (grown _) (Nat.lt_succ_self _), (pageInsert_view _).trans ?_⟩
        dsimp only
        rw [view_frame ok (Nat.le_refl _) _ _ m.utemp, Function.update_self]
        rfl
      | some src =>
        simp only [Bool.false_eq_true, if_false, Except.bind, sysMemMap, legal, Memory.pageInsert, Memory.pageAlloc,
          Function.update_self, Except.ok.injEq] at done
        subst done
        refine ⟨fun q page mapped => ?_, ?_⟩
        · exact pageInsert_ok (grown m.frame) (Nat.lt_succ_self _) q page mapped
        · have inserted := @pageInsert_view
            { m with frame := Function.update m.frame m.taken (filled offset (some src) len), taken := m.taken + 1 } va perm m.taken
          rw [view_frame ok (Nat.le_refl _) _ _ m.utemp] at inserted
          simp only [Function.update_self] at inserted
          rw [← inserted]
          unfold Memory.copy Memory.view Memory.pageInsert filled
          simp only [Function.update_self, Function.update_idem]

/-- The rule for the loops. -/
theorem mapPages_inv (R : Nat → Memory → Prop)
    (step : ∀ i m m', i < size → R i m →
      mapPage (va + BitVec.ofNat 32 i) 0 perm (src.map fun bin k => bin (i + k)) (min (size - i) 4096) m = .ok m' →
        R ((i + 4096) % 2 ^ 32) m')
    (start : R i m) (done : mapPages mapPage va perm src size fuel i m = some (.ok (i', m'))) : R i' m' ∧ size ≤ i' := by
  induction fuel generalizing i m with
  | zero => cases done
  | succ fuel ih =>
    unfold mapPages at done
    split at done
    · rename_i below
      split at done
      · cases done
      · rename_i mid placed
        exact ih (step i m mid below start placed) done
    · rename_i reached
      cases done
      exact ⟨start, Nat.le_of_not_lt reached⟩

theorem mapPages_total (R : Nat → Memory → Prop)
    (step : ∀ i m, i < size → R i m → ∃ m',
      mapPage (va + BitVec.ofNat 32 i) 0 perm (src.map fun bin k => bin (i + k)) (min (size - i) 4096) m = .ok m' ∧
        (i + 4096) % 2 ^ 32 = i + 4096 ∧ R (i + 4096) m')
    (start : R i m) (long : size ≤ i + 4096 * fuel) :
    ∃ i' m', mapPages mapPage va perm src size (fuel + 1) i m = some (.ok (i', m')) := by
  induction fuel generalizing i m with
  | zero =>
    unfold mapPages
    rw [if_neg (by omega)]
    exact ⟨i, m, rfl⟩
  | succ fuel ih =>
    unfold mapPages
    by_cases below : i < size
    · obtain ⟨mid, placed, next, kept⟩ := step i m below start
      rw [if_pos below, placed]
      dsimp only
      rw [next]
      exact ih kept (by omega)
    · rw [if_neg below]
      exact ⟨i, m, rfl⟩

/-- The last address that the loop can reach is that of the page before the end of the address space. -/
theorem mapPages_bound (small : i < 2 ^ 32) (done : mapPages mapPage va perm src size fuel i m = some (.ok (i', m'))) :
    size + 4096 ≤ 2 ^ 32 + i % 4096 := by
  obtain ⟨⟨residue, small'⟩, reached⟩ := mapPages_inv (fun j _ => j % 4096 = i % 4096 ∧ j < 2 ^ 32)
    (fun j m m' _ inv _ => by omega) ⟨rfl, small⟩ done
  omega

/-- Byte `k` of the segment. -/
def segByte (ph : Phdr) (bin : Nat → Byte) (k : Nat) : Byte := if k < ph.filesz.toNat then bin k else 0

/-- The first `n` bytes of the segment are in place. -/
def Image (ph : Phdr) (bin : Nat → Byte) (m : Memory) (n : Nat) : Prop :=
  ∀ k, k < n → ∃ bytes, m.view ((ph.vaddr.toNat + k) / 4096) = some bytes ∧
    bytes ((ph.vaddr.toNat + k) % 4096) = segByte ph bin k

theorem Image.mono {n n' : Nat} (image : Image ph bin m n) (le : n' ≤ n) : Image ph bin m n' :=
  fun k below => image k (Nat.lt_of_lt_of_le below le)

theorem pageNo_add (small : va.toNat + i < 2 ^ 32) : pageNo (va + BitVec.ofNat 32 i) = (va.toNat + i) / 4096 := by
  unfold pageNo
  rw [BitVec.toNat_add, BitVec.toNat_ofNat, Nat.add_mod_mod, Nat.mod_eq_of_lt small]

theorem Image.step {page : Nat → Byte} (image : Image ph bin m i) (aligned : (ph.vaddr.toNat + i) % 4096 = 0)
    (small : ph.vaddr.toNat + i < 2 ^ 32)
    (view : m'.view = Function.update m.view (pageNo (ph.vaddr + BitVec.ofNat 32 i)) (some page))
    (bytes : ∀ o, o < 4096 → page o = segByte ph bin (i + o)) : Image ph bin m' (i + 4096) := by
  intro k below
  rw [view, pageNo_add small]
  by_cases before : k < i
  · rw [Function.update_of_ne (by omega)]
    exact image k before
  · have here : (ph.vaddr.toNat + k) / 4096 = (ph.vaddr.toNat + i) / 4096 := by omega
    rw [here, Function.update_self]
    refine ⟨page, rfl, ?_⟩
    have offset : (ph.vaddr.toNat + k) % 4096 = k - i := by omega
    rw [offset, bytes _ (by omega)]
    congr 1
    omega

/-- What holds while a loop fills the pages of the segment. -/
structure Filling (ph : Phdr) (bin : Nat → Byte) (start : Nat) (i : Nat) (m : Memory) : Prop where
  ok : m.Ok
  image : Image ph bin m i
  residue : i % 4096 = start % 4096
  low : start ≤ i

theorem filled_file {j o : Nat} (below : j < ph.filesz.toNat) (inside : o < 4096) :
    filled 0 ((some bin).map fun bin k => bin (j + k)) (min (ph.filesz.toNat - j) 4096) o = segByte ph bin (j + o) := by
  unfold filled segByte
  refine if_congr ?_ rfl rfl
  omega

theorem filled_zero {j o : Nat} (behind : ph.filesz.toNat ≤ j) :
    filled 0 ((none : Option (Nat → Byte)).map fun bin k => bin (j + k)) (min (size - j) 4096) o = segByte ph bin (j + o) := by
  unfold segByte
  rw [if_neg (by omega)]
  rfl

theorem emptyMemory_ok : emptyMemory.Ok := nofun

section Loader

variable (places : Places mapPage legal)
include places

theorem Filling.next {start : Nat} (filling : Filling ph bin start i m) (below : i < size)
    (aligned : (ph.vaddr.toNat + start) % 4096 = 0) (noWrap : ph.vaddr.toNat + size ≤ 2 ^ 32)
    (bytes : ∀ o, o < 4096 → filled 0 (src.map fun bin k => bin (i + k)) (min (size - i) 4096) o = segByte ph bin (i + o))
    (placed : mapPage (ph.vaddr + BitVec.ofNat 32 i) 0 perm (src.map fun bin k => bin (i + k)) (min (size - i) 4096) m = .ok m') :
    Filling ph bin start (i + 4096) m' := by
  obtain ⟨-, ok, view⟩ := places.placed filling.ok placed
  have residue := filling.residue
  have low := filling.low
  exact ⟨ok, filling.image.step (by omega) (by omega) view bytes, by omega, by omega⟩

theorem mapPages_fills (filling : Filling ph bin i i m) (aligned : i < size → (ph.vaddr.toNat + i) % 4096 = 0)
    (noWrap : ph.vaddr.toNat + size ≤ 2 ^ 32) (bound : size + 4096 ≤ 2 ^ 32 + i % 4096)
    (legalAll : ∀ k, i ≤ k → k < size → legal (ph.vaddr + BitVec.ofNat 32 k) = true)
    (bytes : ∀ j o, i ≤ j → j < size → o < 4096 →
      filled 0 (src.map fun bin k => bin (j + k)) (min (size - j) 4096) o = segByte ph bin (j + o))
    (long : size ≤ i + 4096 * fuel) :
    ∃ i' m', mapPages mapPage ph.vaddr perm src size (fuel + 1) i m = some (.ok (i', m')) ∧ Filling ph bin i i' m' ∧ size ≤ i' := by
  by_cases here : i < size
  · obtain ⟨i', m', done⟩ := mapPages_total (Filling ph bin i) (fun j u below inv => by
      obtain ⟨u', placed⟩ := @Places.total _ _ places _ 0 perm (src.map fun bin k => bin (j + k)) (min (size - j) 4096) _
        inv.ok (legalAll j inv.low below)
      have residue := inv.residue
      exact ⟨u', placed, by omega, inv.next places below (aligned here) noWrap (fun o => bytes j o inv.low below) placed⟩) filling long
    refine ⟨i', m', done, mapPages_inv (Filling ph bin i) (fun j u u' below inv placed => ?_) filling done⟩
    have residue := inv.residue
    rw [Nat.mod_eq_of_lt (by omega)]
    exact inv.next places below (aligned here) noWrap (fun o => bytes j o inv.low below) placed
  · refine ⟨i, m, ?_, filling, Nat.le_of_not_lt here⟩
    unfold mapPages
    rw [if_neg here]

/-- The file lies within the first page, which it does not start, and the segment is longer than the file. -/
def HeadShort (ph : Phdr) : Prop :=
  pageOffset ph.vaddr ≠ 0 ∧ ph.filesz.toNat < 4096 - pageOffset ph.vaddr ∧ ph.filesz.toNat < ph.memsz.toNat

def zeroPages (ph : Phdr) : Nat := (ph.memsz.toNat - ph.filesz.toNat + 4095) / 4096

open Classical in
def Built (ph : Phdr) (bin : Nat → Byte) : Prop :=
  if HeadShort ph then
    (∀ k, k < ph.filesz.toNat → bin k = 0) ∧ pageOffset ph.vaddr + ph.memsz.toNat ≤ 4096 * zeroPages ph ∧
      ph.memsz.toNat + 4096 ≤ 2 ^ 32 + ph.filesz.toNat
  else ph.vaddr = 0 → ph.memsz.toNat + 4096 ≤ 2 ^ 32

/-- The mapper takes the addresses of the segment, and `p_vaddr` when it is not at the start of a page. -/
def LegalSeg (legal : Word → Bool) (ph : Phdr) : Prop :=
  (pageOffset ph.vaddr ≠ 0 → legal ph.vaddr = true) ∧
    ∀ k, k < ph.memsz.toNat → legal (ph.vaddr + BitVec.ofNat 32 k) = true

def Loads (mapPage : Mapper) (ph : Phdr) (bin : Nat → Byte) : Prop :=
  ∃ fuel m, elfLoadSeg mapPage ph bin fuel emptyMemory = some (.ok m) ∧ Image ph bin m ph.memsz.toNat

structure Headed (legal : Word → Bool) (ph : Phdr) (bin : Nat → Byte) (m : Memory) : Prop where
  ok : m.Ok
  image : Image ph bin m (headSize ph)
  only : ∀ p, m.view p ≠ none → pageOffset ph.vaddr ≠ 0 ∧ p = pageNo ph.vaddr
  legal : pageOffset ph.vaddr ≠ 0 → legal ph.vaddr = true

theorem mapHead_spec (done : mapHead mapPage ph bin emptyMemory = .ok m) : Headed legal ph bin m := by
  unfold mapHead at done
  split at done
  · rename_i unaligned
    obtain ⟨isLegal, ok, view⟩ := places.placed emptyMemory_ok done
    refine ⟨ok, fun k below => ?_, fun p mapped => ⟨unaligned, ?_⟩, fun _ => isLegal⟩
    · have head : headSize ph = min ph.filesz.toNat (4096 - pageOffset ph.vaddr) := if_pos unaligned
      rw [head] at below
      unfold pageOffset at unaligned below
      have here : (ph.vaddr.toNat + k) / 4096 = pageNo ph.vaddr := by
        unfold pageNo
        omega
      have offset : (ph.vaddr.toNat + k) % 4096 = ph.vaddr.toNat % 4096 + k := by omega
      rw [view, here, Function.update_self]
      refine ⟨_, rfl, ?_⟩
      rw [offset, filled, segByte, head]
      unfold pageOffset
      rw [if_pos (⟨Nat.le_add_right _ _, by omega⟩ : _ ∧ _), if_pos (by omega : k < ph.filesz.toNat), Nat.add_sub_cancel_left]
    · by_contra other
      rw [view, Function.update_of_ne other] at mapped
      exact mapped rfl
  · rename_i aligned
    cases done
    refine ⟨emptyMemory_ok, fun k below => ?_, fun p mapped => absurd rfl mapped, fun unaligned => absurd unaligned aligned⟩
    unfold headSize at below
    rw [if_neg aligned] at below
    exact absurd below (Nat.not_lt_zero k)

omit places in
theorem elfLoadSeg_ok (done : elfLoadSeg mapPage ph bin fuel emptyMemory = some (.ok m')) :
    ∃ head i mid i', mapHead mapPage ph bin emptyMemory = .ok head ∧
      mapPages mapPage ph.vaddr (segPerm ph) (some bin) ph.filesz.toNat fuel (headSize ph) head = some (.ok (i, mid)) ∧
      mapPages mapPage ph.vaddr (segPerm ph) none ph.memsz.toNat fuel i mid = some (.ok (i', m')) := by
  unfold elfLoadSeg at done
  split at done
  · cases done
  · rename_i head first
    split at done
    · cases done
    · cases done
    · rename_i i mid second
      split at done
      · cases done
      · cases done
      · rename_i i' last third
        cases done
        exact ⟨head, i, mid, i', first, second, third⟩

omit places in
theorem elfLoadSeg_of {head mid : Memory} (first : mapHead mapPage ph bin emptyMemory = .ok head)
    (second : mapPages mapPage ph.vaddr (segPerm ph) (some bin) ph.filesz.toNat fuel (headSize ph) head = some (.ok (i, mid)))
    (third : mapPages mapPage ph.vaddr (segPerm ph) none ph.memsz.toNat fuel i mid = some (.ok (i', m'))) :
    elfLoadSeg mapPage ph bin fuel emptyMemory = some (.ok m') := by
  simp only [elfLoadSeg, first, second, third]

def LegalView (legal : Word → Bool) (m : Memory) : Prop := ∀ p, m.view p ≠ none → ∃ va, pageNo va = p ∧ legal va = true

theorem mapPages_legal (ok : m.Ok) (legalView : LegalView legal m)
    (done : mapPages mapPage va perm src size fuel i m = some (.ok (i', m'))) : m'.Ok ∧ LegalView legal m' := by
  refine (mapPages_inv (fun _ m => m.Ok ∧ LegalView legal m) (fun j u u' _ inv placed => ?_) ⟨ok, legalView⟩ done).1
  obtain ⟨isLegal, ok', view⟩ := places.placed inv.1 placed
  refine ⟨ok', fun p mapped => ?_⟩
  by_cases here : p = pageNo (va + BitVec.ofNat 32 j)
  · exact ⟨_, here.symm, isLegal⟩
  · rw [view, Function.update_of_ne here] at mapped
    exact inv.2 p mapped

theorem zeroPages_view (short : HeadShort ph) (noWrap : ph.vaddr.toNat + ph.memsz.toNat ≤ 2 ^ 32) (ok : m.Ok)
    (done : mapPages mapPage ph.vaddr perm none ph.memsz.toNat fuel ph.filesz.toNat m = some (.ok (i', m'))) (p : Nat) :
    m'.view p = if pageNo ph.vaddr ≤ p ∧ p < pageNo ph.vaddr + zeroPages ph then some (fun _ => 0) else m.view p := by
  obtain ⟨unaligned, inFirst, longer⟩ := short
  have bound := mapPages_bound ph.filesz.isLt done
  unfold pageOffset at unaligned inFirst
  obtain ⟨⟨-, residue, low, high, view⟩, reached⟩ := mapPages_inv (fun j u => u.Ok ∧ j % 4096 = ph.filesz.toNat % 4096 ∧
      ph.filesz.toNat ≤ j ∧ (j = ph.filesz.toNat ∨ j < ph.memsz.toNat + 4096) ∧
      ∀ p, u.view p = if pageNo ph.vaddr ≤ p ∧ p < pageNo ph.vaddr + (j - ph.filesz.toNat) / 4096 then some (fun _ => 0)
        else m.view p)
    (fun j u u' below inv placed => by
      obtain ⟨ok, residue, low, high, view⟩ := inv
      obtain ⟨-, ok', view'⟩ := places.placed ok placed
      have next : (j + 4096) % 2 ^ 32 = j + 4096 := Nat.mod_eq_of_lt (by omega)
      have page : pageNo (ph.vaddr + BitVec.ofNat 32 j) = pageNo ph.vaddr + (j - ph.filesz.toNat) / 4096 := by
        rw [pageNo_add (by omega), pageNo]
        omega
      rw [next]
      refine ⟨ok', by omega, by omega, .inr (by omega), fun p => ?_⟩
      rw [view', page]
      by_cases here : p = pageNo ph.vaddr + (j - ph.filesz.toNat) / 4096
      · rw [here, Function.update_self, if_pos (by omega)]
        rfl
      · rw [Function.update_of_ne here, view]
        refine if_congr ?_ rfl rfl
        omega)
    ⟨ok, rfl, Nat.le_refl _, .inl rfl, fun p => by rw [Nat.sub_self, if_neg (by omega)]⟩ done
  have count : (i' - ph.filesz.toNat) / 4096 = zeroPages ph := by
    unfold zeroPages
    omega
  rw [view, count]

theorem zeroPages_image (short : HeadShort ph) (noWrap : ph.vaddr.toNat + ph.memsz.toNat ≤ 2 ^ 32)
    (headed : Headed legal ph bin m)
    (done : mapPages mapPage ph.vaddr perm none ph.memsz.toNat fuel ph.filesz.toNat m = some (.ok (i', m'))) :
    Image ph bin m' ph.memsz.toNat ↔
      (∀ k, k < ph.filesz.toNat → bin k = 0) ∧ pageOffset ph.vaddr + ph.memsz.toNat ≤ 4096 * zeroPages ph := by
  have view := zeroPages_view places short noWrap headed.ok done
  obtain ⟨unaligned, inFirst, longer⟩ := short
  have some' : 1 ≤ zeroPages ph := by
    unfold zeroPages
    omega
  unfold pageOffset at unaligned inFirst ⊢
  constructor
  · intro image
    refine ⟨fun k below => ?_, ?_⟩
    · obtain ⟨bytes, mapped, byte⟩ := image k (by omega)
      rw [view, if_pos (by unfold pageNo; omega)] at mapped
      cases mapped
      rw [segByte, if_pos below] at byte
      exact byte.symm
    · obtain ⟨bytes, mapped, -⟩ := image (ph.memsz.toNat - 1) (by omega)
      rw [view] at mapped
      split at mapped
      · rename_i inside
        unfold pageNo at inside
        omega
      · rename_i outside
        have here := (headed.only _ (by rw [mapped]; nofun)).2
        exact absurd ⟨Nat.le_of_eq here.symm, by omega⟩ outside
  · rintro ⟨zero, covered⟩ k below
    rw [view, if_pos (by unfold pageNo; omega)]
    refine ⟨_, rfl, ?_⟩
    unfold segByte
    split
    · rename_i inFile
      exact (zero k inFile).symm
    · rfl

theorem Places.loads (built : Built ph bin) (legalSeg : LegalSeg legal ph) (fits : ph.filesz.toNat ≤ ph.memsz.toNat)
    (noWrap : ph.vaddr.toNat + ph.memsz.toNat ≤ 2 ^ 32) : Loads mapPage ph bin := by
  obtain ⟨head, first⟩ : ∃ head, mapHead mapPage ph bin emptyMemory = .ok head := by
    unfold mapHead
    split
    · rename_i unaligned
      exact places.total emptyMemory_ok (legalSeg.1 unaligned)
    · exact ⟨_, rfl⟩
  have headed := mapHead_spec places first
  by_cases short : HeadShort ph
  · obtain ⟨unaligned, inFirst, longer⟩ := short
    unfold Built at built
    rw [if_pos ⟨unaligned, inFirst, longer⟩] at built
    obtain ⟨zero, covered, bound⟩ := built
    have start : headSize ph = ph.filesz.toNat := by
      unfold headSize
      rw [if_pos unaligned]
      omega
    have second : mapPages mapPage ph.vaddr (segPerm ph) (some bin) ph.filesz.toNat (2 ^ 20 + 1) (headSize ph) head =
        some (.ok (ph.filesz.toNat, head)) := by
      unfold mapPages
      rw [start, if_neg (Nat.lt_irrefl _)]
    have third : ∃ i' m', mapPages mapPage ph.vaddr (segPerm ph) none ph.memsz.toNat (2 ^ 20 + 1) ph.filesz.toNat head =
        some (.ok (i', m')) := mapPages_total
      (fun j u => u.Ok ∧ j % 4096 = ph.filesz.toNat % 4096) (fun j u below inv => by
        obtain ⟨u', placed⟩ := @Places.total _ _ places _ 0 (segPerm ph) none (min (ph.memsz.toNat - j) 4096) _
          inv.1 (legalSeg.2 j below)
        exact ⟨u', placed, by omega, (places.placed inv.1 placed).2.1, by omega⟩)
      ⟨headed.ok, rfl⟩ (by omega)
    obtain ⟨i', m', third⟩ := third
    exact ⟨_, m', elfLoadSeg_of first second third,
      (zeroPages_image places ⟨unaligned, inFirst, longer⟩ noWrap headed third).mpr ⟨zero, covered⟩⟩
  · unfold Built at built
    rw [if_neg short] at built
    have notShort : pageOffset ph.vaddr ≠ 0 → ph.filesz.toNat < 4096 - pageOffset ph.vaddr → ph.memsz.toNat ≤ ph.filesz.toNat :=
      fun unaligned inFirst => Nat.le_of_not_lt fun longer => short ⟨unaligned, inFirst, longer⟩
    have origin : ph.vaddr.toNat = 0 → ph.memsz.toNat + 4096 ≤ 2 ^ 32 := fun zero => built (BitVec.eq_of_toNat_eq zero)
    have aligned : headSize ph < ph.memsz.toNat → (ph.vaddr.toNat + headSize ph) % 4096 = 0 := by
      unfold headSize pageOffset at *
      split <;> omega
    have bound : ph.memsz.toNat + 4096 ≤ 2 ^ 32 + headSize ph % 4096 ∨ ph.memsz.toNat ≤ headSize ph := by
      unfold headSize pageOffset at *
      split <;> omega
    have noPages : ph.memsz.toNat ≤ headSize ph → Loads mapPage ph bin := by
      intro all
      have none : ∀ {size : Nat} (src : Option (Nat → Byte)), size ≤ headSize ph →
          mapPages mapPage ph.vaddr (segPerm ph) src size 1 (headSize ph) head = some (.ok (headSize ph, head)) := by
        intro size src covered
        unfold mapPages
        rw [if_neg (by omega)]
      exact ⟨1, head, elfLoadSeg_of first (none _ (by omega)) (none _ all), headed.image.mono all⟩
    rcases bound with bound | all
    · have second : ∃ i mid, mapPages mapPage ph.vaddr (segPerm ph) (some bin) ph.filesz.toNat (2 ^ 20 + 1) (headSize ph) head =
          some (.ok (i, mid)) ∧ Filling ph bin (headSize ph) i mid ∧ ph.filesz.toNat ≤ i :=
        mapPages_fills places ⟨headed.ok, headed.image, rfl, Nat.le_refl _⟩
        (fun below => aligned (by omega)) (by omega) (by omega) (fun k _ below => legalSeg.2 k (by omega))
        (fun j o _ below inside => filled_file below inside) (by omega)
      obtain ⟨i, mid, second, filling, behind⟩ := second
      have residue := filling.residue
      have low := filling.low
      have third : ∃ i' m', mapPages mapPage ph.vaddr (segPerm ph) none ph.memsz.toNat (2 ^ 20 + 1) i mid =
          some (.ok (i', m')) ∧ Filling ph bin i i' m' ∧ ph.memsz.toNat ≤ i' :=
        mapPages_fills places ⟨filling.ok, filling.image, rfl, Nat.le_refl _⟩
        (fun below => by have := aligned (by omega); omega) (by omega) (by omega) (fun k _ below => legalSeg.2 k (by omega))
        (fun j o low _ _ => filled_zero (by omega)) (by omega)
      obtain ⟨i', m', third, filling', behind'⟩ := third
      exact ⟨_, m', elfLoadSeg_of first second third, filling'.image.mono behind'⟩
    · exact noPages all

theorem Places.built (loads : Loads mapPage ph bin) (noWrap : ph.vaddr.toNat + ph.memsz.toNat ≤ 2 ^ 32) :
    Built ph bin ∧ LegalSeg legal ph := by
  obtain ⟨fuel, m', done, image⟩ := loads
  obtain ⟨head, i, mid, i', first, second, third⟩ := elfLoadSeg_ok done
  have headed := mapHead_spec places first
  refine ⟨?_, headed.legal, fun k below => ?_⟩
  · unfold Built
    split
    · rename_i short
      have start : headSize ph = ph.filesz.toNat := by
        unfold headSize
        rw [if_pos short.1]
        have := short.2.1
        omega
      have same : i = ph.filesz.toNat ∧ mid = head := by
        cases fuel with
        | zero => cases second
        | succ fuel =>
          unfold mapPages at second
          rw [start, if_neg (Nat.lt_irrefl _)] at second
          cases second
          exact ⟨rfl, rfl⟩
      obtain ⟨rfl, rfl⟩ := same
      obtain ⟨zero, covered⟩ := (zeroPages_image places short noWrap headed third).mp image
      have bound := mapPages_bound ph.filesz.isLt third
      exact ⟨zero, covered, by omega⟩
    · rintro zero
      have start : headSize ph = 0 := by
        unfold headSize pageOffset
        rw [zero]
        rfl
      obtain ⟨⟨residue, small⟩, -⟩ := mapPages_inv (fun j _ => j % 4096 = 0 ∧ j < 2 ^ 32)
        (fun j u u' _ inv _ => by omega) (by rw [start]; decide) second
      have bound := mapPages_bound small third
      omega
  · have inHead : LegalView legal head := fun p mapped =>
      ⟨ph.vaddr, (headed.only p mapped).2.symm, headed.legal (headed.only p mapped).1⟩
    obtain ⟨ok, inMid⟩ := mapPages_legal places headed.ok inHead second
    obtain ⟨-, inLast⟩ := mapPages_legal places ok inMid third
    obtain ⟨bytes, mapped, -⟩ := image k below
    obtain ⟨va, page, isLegal⟩ := inLast _ (by rw [mapped]; nofun)
    rw [← isLegal]
    refine places.pagewise ?_
    rw [page, pageNo_add (by omega)]

end Loader

/-- `elf_load_seg` builds the segment, with the mapper of the kernel and with that of `spawn`, unless the file ends in
    a first page that it does not start: then the pages of zeros begin in that page and take its place. -/
theorem elfLoadSeg_builds (ph : Phdr) (bin : Nat → Byte) (fits : ph.filesz.toNat ≤ ph.memsz.toNat)
    (noWrap : ph.vaddr.toNat + ph.memsz.toNat ≤ 2 ^ 32) :
    (Loads loadIcodeMapper ph bin ↔ Built ph bin) ∧
      (Loads spawnMapper ph bin ↔ Built ph bin ∧ LegalSeg (fun va => !isIllegalVa va) ph) := by
  refine ⟨⟨fun loads => (loadIcodeMapper_places.built loads noWrap).1, fun built => ?_⟩,
    fun loads => spawnMapper_places.built loads noWrap, fun both => spawnMapper_places.loads both.1 both.2 fits noWrap⟩
  exact loadIcodeMapper_places.loads built ⟨fun _ => rfl, fun _ _ => rfl⟩ fits noWrap

def tailPhdr : Phdr := { vaddr := 0x400010, filesz := 4, memsz := 8, flags := pfW }

theorem elfLoadSeg_builds_page : Loads spawnMapper { vaddr := 0x400010, filesz := 4, memsz := 4, flags := pfW } fun _ => 1 := by
  refine (elfLoadSeg_builds _ _ (by decide) (by decide)).2.mpr ⟨?_, fun _ => by decide, by decide⟩
  unfold Built
  rw [if_neg]
  · intro zero
    exact absurd zero (by decide)
  · rintro ⟨-, -, longer⟩
    exact absurd longer (by decide)

theorem elfLoadSeg_loses_head : ¬ Loads loadIcodeMapper tailPhdr (fun _ => 1) ∧ ¬ Loads spawnMapper tailPhdr fun _ => 1 := by
  have lost : ¬ Built tailPhdr fun _ => 1 := by
    unfold Built
    rw [if_pos (by unfold HeadShort; decide)]
    exact fun built => absurd (built.1 0 (by decide)) (by decide)
  exact ⟨fun loads => lost (loadIcodeMapper_places.built loads (by decide)).1,
    fun loads => lost (spawnMapper_places.built loads (by decide)).1⟩

end Mos.Elf
