import Mos.Kern.PageWalk
import Mos.Kern.Boot

namespace Mos

/-- The page directory entry for the table `t`. -/
def tableEntry (t : Nat) : Word := page2pa t ||| pteCCacheable ||| pteV

/-- The first `n` words of a table that maps the pages from `pp` on. -/
def segmentTable (pp n : Nat) (perm : Word) (i : Nat) : Word := if i < n then pteOf (pp + i) perm else 0

/-- `vm` with a new table `t` below directory entry `d`, which maps `n` pages from `pp` on. -/
def segmentMapped (vm : Vm) (pgdir t d pp n : Nat) (perm : Word) (rest : List Nat) : Vm :=
  { vm with
    mem := fun q =>
      if q = t then segmentTable pp n perm
      else if q = pgdir then Function.update (vm.mem pgdir) d (tableEntry t)
      else vm.mem q
    ppRef := fun q => vm.ppRef q + (if q = t then 1 else 0) + if pp ≤ q ∧ q < pp + n then 1 else 0
    pageFreeList := rest }

variable {vm : Vm} {pgdir t d pp n : Nat} {perm va : Word} {rest : List Nat}

theorem tableEntry_present (t : Nat) : tableEntry t ≠ 0 := by
  intro zero
  have bit := congrArg (fun w : Word => w.getLsbD 7) zero
  simp [tableEntry, pteV] at bit

theorem ppn_tableEntry (small : t < 2^20) : ppn (tableEntry t) = t := by
  rw [tableEntry, ppn_or_flags _ pteV (by decide), ppn_or_flags _ pteCCacheable (by decide), ppn_page2pa small]

theorem segment_index {i : Nat} (start : va.toNat = d * 2^22) (small : i < 1024) :
    pdx (va + BitVec.ofNat 32 i <<< pgshift) = d ∧ ptx (va + BitVec.ofNat 32 i <<< pgshift) = i := by
  have sum : (va + BitVec.ofNat 32 i <<< pgshift).toNat = d * 2^22 + i * 4096 := by
    simp only [BitVec.toNat_add, start, pgshift, BitVec.toNat_shiftLeft, BitVec.toNat_ofNat, Nat.shiftLeft_eq]
    omega
  rw [pdx_eq, ptx_eq, sum]
  constructor
  · omega
  · omega

theorem Vm.same {vm vm' : Vm} (mem : vm'.mem = vm.mem) (ppRef : vm'.ppRef = vm.ppRef)
    (freeList : vm'.pageFreeList = vm.pageFreeList) (tlb : vm'.tlb = vm.tlb) (npage : vm'.npage = vm.npage)
    (envs : vm'.envsBase = vm.envsBase) : vm' = vm := by
  cases vm
  cases vm'
  cases mem
  cases ppRef
  cases freeList
  cases tlb
  cases npage
  cases envs
  rfl

theorem tlbInvalidate_empty (asid : Word) (tlb : vm.tlb = []) : tlbInvalidate vm asid va = vm :=
  Vm.same rfl rfl rfl (by rw [tlbInvalidate, tlb]; rfl) rfl rfl

theorem pageInsert_absent {at_ : PtePtr} {mid : Vm} {asid : Word} (tlb : vm.tlb = []) (no : NoPage vm pgdir va)
    (walk : pgdirWalk vm pgdir va true = .ok (some at_) mid) :
    pageInsert vm pgdir asid pp va perm = .ok () ((mid.write at_ (pteOf pp perm)).incRef pp) := by
  rw [pageInsert, pageLookup_none no, Result.ok_bind]
  dsimp only
  rw [pageInsertNew, tlbInvalidate_empty asid tlb, walk]
  rfl

theorem segmentMapped_insert (small : t < 2^20) (bound : t < vm.npage) (other : pgdir ≠ t) (tlb : vm.tlb = [])
    (index : pdx va = d ∧ ptx va = n) :
    pageInsert (segmentMapped vm pgdir t d pp n perm rest) pgdir 0 (pp + n) va perm =
      .ok () (segmentMapped vm pgdir t d pp (n + 1) perm rest) := by
  have entry : pdeOf (segmentMapped vm pgdir t d pp n perm rest) pgdir va = tableEntry t := by
    simp [pdeOf, segmentMapped, other, index.1]
  have table := ppn_tableEntry small
  have empty : pteAt (segmentMapped vm pgdir t d pp n perm rest) pgdir va = 0 := by
    rw [pteAt, entry, table]
    simp [segmentMapped, segmentTable, index.2]
  have no : NoPage (segmentMapped vm pgdir t d pp n perm rest) pgdir va := by
    refine Or.inr ⟨?_, ?_⟩
    · rw [entry, table]
      exact bound
    · rw [empty]
      rfl
  have walk : pgdirWalk (segmentMapped vm pgdir t d pp n perm rest) pgdir va true =
      .ok (some ⟨t, n⟩) (segmentMapped vm pgdir t d pp n perm rest) := by
    rw [pgdirWalk, show (segmentMapped vm pgdir t d pp n perm rest).mem pgdir (pdx va) = tableEntry t from entry,
      if_neg (tableEntry_present t), pteIn, table, index.2]
    exact if_neg (Nat.not_le.mpr bound)
  have tlb' : (segmentMapped vm pgdir t d pp n perm rest).tlb = [] := tlb
  refine (pageInsert_absent tlb' no walk).trans ?_
  refine congrArg (Result.ok ()) (Vm.same ?_ ?_ rfl rfl rfl rfl)
  · funext q i
    by_cases here : q = t
    · subst here
      by_cases last : i = n
      · subst last
        simp [Vm.incRef, Vm.setRef, Vm.write, segmentMapped, segmentTable]
      · have same : i < n ↔ i < n + 1 := by omega
        simp [Vm.incRef, Vm.setRef, Vm.write, segmentMapped, segmentTable, Function.update_of_ne last, same]
    · simp [Vm.incRef, Vm.setRef, Vm.write, segmentMapped, here]
  · funext q
    by_cases last : q = pp + n
    · subst last
      simp [Vm.incRef, Vm.setRef, Vm.write, segmentMapped]
    · have same : (pp ≤ q ∧ q < pp + n) ↔ (pp ≤ q ∧ q < pp + (n + 1)) := by omega
      simp only [Vm.incRef, Vm.setRef, Vm.write, segmentMapped, Function.update_of_ne last, same]

theorem segment_first (small : t < 2^20) (bound : t < vm.npage) (other : pgdir ≠ t) (tlb : vm.tlb = [])
    (list : vm.pageFreeList = t :: rest) (user : vm.holdsEnvs t = false) (absent : vm.mem pgdir d = 0)
    (index : pdx va = d ∧ ptx va = 0) :
    pageInsert vm pgdir 0 pp va perm = .ok () (segmentMapped vm pgdir t d pp 1 perm rest) := by
  have zero : vm.mem pgdir (pdx va) = 0 := by rw [index.1, absent]
  have walk : pgdirWalk vm pgdir va true = .ok (some ⟨t, 0⟩)
      ((({ vm with pageFreeList := rest, mem := Function.update vm.mem t fun _ => 0 } : Vm).write ⟨pgdir, d⟩
        (tableEntry t)).incRef t) := by
    rw [pgdirWalk, if_pos zero, if_pos rfl, pageAlloc, list]
    dsimp only
    rw [user, if_neg Bool.false_ne_true, Result.ok_bind, pteIn, index.1, index.2]
    rw [show ppn (page2pa t ||| pteCCacheable ||| pteV) = t from ppn_tableEntry small]
    exact if_neg (Nat.not_le.mpr bound)
  refine (pageInsert_absent tlb (Or.inl zero) walk).trans ?_
  refine congrArg (Result.ok ()) (Vm.same ?_ ?_ rfl rfl rfl rfl)
  · funext q i
    by_cases here : q = t
    · subst here
      by_cases first : i = 0
      · subst first
        simp [Vm.incRef, Vm.setRef, Vm.write, segmentMapped, segmentTable]
      · simp [Vm.incRef, Vm.setRef, Vm.write, segmentMapped, segmentTable, first, other.symm]
    · by_cases dir : q = pgdir
      · subst dir
        simp [Vm.incRef, Vm.setRef, Vm.write, segmentMapped, here]
      · simp [Vm.incRef, Vm.setRef, Vm.write, segmentMapped, here, dir]
  · funext q
    have one : (if pp ≤ q ∧ q < pp + 1 then (1 : BitVec 16) else 0) = if q = pp then 1 else 0 :=
      if_congr (by omega) rfl rfl
    show Function.update (Function.update vm.ppRef t (vm.ppRef t + 1)) pp _ q = vm.ppRef q + (if q = t then 1 else 0) + _
    rw [one]
    by_cases first : q = pp
    · subst first
      by_cases here : q = t
      · subst here
        simp [Vm.incRef, Vm.setRef, Vm.write]
      · simp [Vm.incRef, Vm.setRef, Vm.write, here]
    · by_cases here : q = t
      · subst here
        simp [first]
      · simp [first, here]

theorem mapSegment_eq (small : t < 2^20) (bound : t < vm.npage) (other : pgdir ≠ t) (tlb : vm.tlb = [])
    (list : vm.pageFreeList = t :: rest) (user : vm.holdsEnvs t = false) (absent : vm.mem pgdir d = 0)
    (start : va.toNat = d * 2^22) (some : 0 < n) (fits : n ≤ 1024) :
    mapSegment pgdir 0 pp va n perm vm = .ok () (segmentMapped vm pgdir t d pp n perm rest) := by
  unfold mapSegment
  induction n with
  | zero => exact absurd some (Nat.lt_irrefl 0)
  | succ n ih =>
    have index := segment_index start (Nat.lt_of_succ_le fits)
    rw [Result.forRange]
    by_cases first : n = 0
    · subst first
      rw [Result.forRange, Result.ok_bind, Nat.add_zero, segment_first small bound other tlb list user absent index]
      rfl
    · rw [ih (Nat.pos_of_ne_zero first) (Nat.le_of_succ_le fits), Result.ok_bind,
        segmentMapped_insert small bound other tlb index]
      rfl

/-- The memory after `page_alloc` of the template page directory, with `n` free pages below the two for its tables. -/
def templateTaken (npage n : Nat) (mem : Nat → Nat → Word) : Vm :=
  { pageInit npage mem with
    pageFreeList := (bootPages npage + n + 1) :: (bootPages npage + n) :: (List.range' (bootPages npage) n).reverse
    mem := Function.update mem (bootPages npage + n + 2) fun _ => 0 }

/-- The memory with `UPAGES` mapped. -/
def pagesMapped (npage n : Nat) (mem : Nat → Nat → Word) : Vm :=
  segmentMapped ((templateTaken npage n mem).incRef (bootPages npage + n + 2)) (bootPages npage + n + 2)
    (bootPages npage + n + 1) (pdx upages) pagesBase (pagesPages npage) pteG
    ((bootPages npage + n) :: (List.range' (bootPages npage) n).reverse)

/-- The memory with `UPAGES` and `UENVS` mapped. -/
def bootVm (npage n : Nat) (mem : Nat → Nat → Word) : Vm :=
  segmentMapped (pagesMapped npage n mem) (bootPages npage + n + 2) (bootPages npage + n) (pdx uenvs) (bootPages npage)
    envsPages pteG (List.range' (bootPages npage) n).reverse

theorem bootList (first n : Nat) : (List.range' first (n + 3)).reverse =
    (first + n + 2) :: (first + n + 1) :: (first + n) :: (List.range' first n).reverse := by
  rw [List.range'_concat, List.range'_concat, List.range'_concat]
  simp [Nat.add_assoc]

section boot

variable {npage : Nat} {mem : Nat → Nat → Word} (size : npage = bootPages npage + n + 3) (room : envsPages ≤ n)
  (small : npage ≤ 2^18)
include room

theorem boot_user {pp : Nat} (high : bootPages npage + n ≤ pp) : (pageInit npage mem).holdsEnvs pp = false := by
  have above : ¬ pp < bootPages npage + envsPages := by omega
  simp [Vm.holdsEnvs, pageInit, above]

include size

theorem template_alloc :
    pageAlloc (pageInit npage mem) = .ok (bootPages npage + n + 2) (templateTaken npage n mem) := by
  have list : (pageInit npage mem).pageFreeList = (bootPages npage + n + 2) :: (bootPages npage + n + 1) ::
      (bootPages npage + n) :: (List.range' (bootPages npage) n).reverse := by
    rw [← bootList]
    exact congrArg (fun m => (List.range' (bootPages npage) m).reverse) (by omega)
  rw [pageAlloc, list]
  dsimp only
  rw [boot_user room (by omega)]
  rfl

include small

theorem pages_mapped : mapSegment (bootPages npage + n + 2) 0 pagesBase upages (pagesPages npage) pteG
    ((templateTaken npage n mem).incRef (bootPages npage + n + 2)) = .ok () (pagesMapped npage n mem) := by
  have some : 0 < pagesPages npage := by
    unfold pagesPages
    omega
  have fits : pagesPages npage ≤ 1024 := by
    unfold pagesPages
    omega
  have bound : bootPages npage + n + 1 < npage := by omega
  have empty : ((templateTaken npage n mem).incRef (bootPages npage + n + 2)).mem (bootPages npage + n + 2) (pdx upages) =
      0 := by simp [templateTaken, Vm.incRef, Vm.setRef]
  have user : (pageInit npage mem).holdsEnvs (bootPages npage + n + 1) = false := boot_user room (by omega)
  exact mapSegment_eq (by omega) bound (by omega) rfl rfl user empty (by decide) some fits

theorem envs_mapped : mapSegment (bootPages npage + n + 2) 0 (bootPages npage) uenvs envsPages pteG (pagesMapped npage n mem) =
    .ok () (bootVm npage n mem) := by
  have bound : bootPages npage + n < npage := by omega
  have empty : (pagesMapped npage n mem).mem (bootPages npage + n + 2) (pdx uenvs) = 0 := by
    have apart : pdx uenvs ≠ pdx upages := by decide
    simp [pagesMapped, segmentMapped, templateTaken, Vm.incRef, Vm.setRef, apart]
  have user : (pageInit npage mem).holdsEnvs (bootPages npage + n) = false := boot_user room (Nat.le_refl _)
  exact mapSegment_eq (by omega) bound (by omega) rfl rfl user empty (by decide) (by decide) (by decide)

theorem boot_eq : boot npage mem = some (initKernel (bootPages npage + n + 2) (bootVm npage n mem)) := by
  have built : buildBasePgdir (pageInit npage mem) = .ok (bootPages npage + n + 2) (bootVm npage n mem) := by
    rw [buildBasePgdir, template_alloc size room, panicOn, Result.ok_bind]
    rw [show (templateTaken npage n mem).npage = npage from rfl, pages_mapped size room small, Result.ok_bind]
    rw [show (pagesMapped npage n mem).envsBase = bootPages npage from rfl, envs_mapped size room small, Result.ok_bind]
  have fits : ¬ npage ≤ bootPages npage + envsPages := by omega
  rw [boot, envInit, if_neg (show ¬ (pageInit npage mem).npage ≤ (pageInit npage mem).envsBase + envsPages from fits), built]

end boot

def clearKernel : Kernel := initKernel 2047 (bootVm 2048 1015 fun _ _ => 0)

theorem clearBoot_eq : clearBoot = some clearKernel := boot_eq (by decide) (by decide) (by decide)

end Mos
