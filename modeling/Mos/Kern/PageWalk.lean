import Mos.Kern.Frame

namespace Mos

def pdeOf (vm : Vm) (pgdir : Nat) (va : Word) : Word := vm.mem pgdir (pdx va)

/-- The page table word for `va`, when the page directory has a table for it. -/
def pteAt (vm : Vm) (pgdir : Nat) (va : Word) : Word := vm.mem (ppn (pdeOf vm pgdir va)) (ptx va)

/-- `page_lookup` finds no page at `va`. -/
def NoPage (vm : Vm) (pgdir : Nat) (va : Word) : Prop :=
  pdeOf vm pgdir va = 0 ∨ ppn (pdeOf vm pgdir va) < vm.npage ∧ pteAt vm pgdir va &&& pteV = 0

/-- `page_lookup` finds a page at `va`. -/
structure HasPage (vm : Vm) (pgdir : Nat) (va : Word) : Prop where
  table : pdeOf vm pgdir va ≠ 0
  tableBound : ppn (pdeOf vm pgdir va) < vm.npage
  valid : pteAt vm pgdir va &&& pteV ≠ 0
  bound : ppn (pteAt vm pgdir va) < vm.npage

theorem pageLookup_none {vm : Vm} {pgdir : Nat} {va : Word} (none : NoPage vm pgdir va) :
    pageLookup vm pgdir va = .ok .none vm := by
  unfold pageLookup pgdirWalk
  unfold NoPage pdeOf at none
  by_cases table : vm.mem pgdir (pdx va) = 0
  · simp [table]
  · obtain ⟨bound, invalid⟩ := none.resolve_left table
    simp only [table, if_false, pteIn, not_le.mpr bound, Result.ok_bind]
    exact if_pos invalid

theorem pageLookup_some {vm : Vm} {pgdir : Nat} {va : Word} (has : HasPage vm pgdir va) :
    pageLookup vm pgdir va =
      .ok (some (ppn (pteAt vm pgdir va), ⟨ppn (pdeOf vm pgdir va), ptx va⟩)) vm := by
  unfold pageLookup pgdirWalk
  obtain ⟨table, tableBound, valid, bound⟩ := has
  unfold pteAt pdeOf at *
  simp only [table, if_false, pteIn, not_le.mpr tableBound, Result.ok_bind, Vm.read, valid, not_le.mpr bound]

theorem pageLookup_cases (vm : Vm) (pgdir : Nat) (va : Word) :
    NoPage vm pgdir va ∨ HasPage vm pgdir va ∨ pageLookup vm pgdir va = .stop .panic := by
  by_cases table : pdeOf vm pgdir va = 0
  · exact Or.inl (Or.inl table)
  · by_cases tableBound : ppn (pdeOf vm pgdir va) < vm.npage
    · by_cases valid : pteAt vm pgdir va &&& pteV = 0
      · exact Or.inl (Or.inr ⟨tableBound, valid⟩)
      · by_cases bound : ppn (pteAt vm pgdir va) < vm.npage
        · exact Or.inr (Or.inl ⟨table, tableBound, valid, bound⟩)
        · refine Or.inr (Or.inr ?_)
          unfold pageLookup pgdirWalk
          unfold pteAt pdeOf at *
          simp only [table, if_false, pteIn, not_le.mpr tableBound, Result.ok_bind, Vm.read, valid, not_lt.mp bound,
            if_true]
    · refine Or.inr (Or.inr ?_)
      unfold pageLookup pgdirWalk
      unfold pdeOf at *
      simp only [table, if_false, pteIn, not_lt.mp tableBound, if_true, Result.stop_bind]

theorem NoPage.not_hasPage {vm : Vm} {pgdir : Nat} {va : Word} (none : NoPage vm pgdir va) : ¬ HasPage vm pgdir va :=
  fun has => none.elim has.table fun invalid => has.valid invalid.2

theorem pageLookup_ok {vm vm' : Vm} {pgdir : Nat} {va : Word} {found : Option (Nat × PtePtr)}
    (h : pageLookup vm pgdir va = .ok found vm') :
    vm' = vm ∧ ((NoPage vm pgdir va ∧ found = none) ∨
      (HasPage vm pgdir va ∧ found = some (ppn (pteAt vm pgdir va), ⟨ppn (pdeOf vm pgdir va), ptx va⟩))) := by
  rcases pageLookup_cases vm pgdir va with none | has | stop
  · rw [pageLookup_none none] at h
    cases h
    exact ⟨rfl, Or.inl ⟨none, rfl⟩⟩
  · rw [pageLookup_some has] at h
    cases h
    exact ⟨rfl, Or.inr ⟨has, rfl⟩⟩
  · rw [stop] at h
    cases h

theorem pageInsertNew_err_iff {vm : Vm} {pgdir : Nat} {asid : Word} {pp : Nat} {va perm : Word} :
    (∃ code vm', pageInsertNew vm pgdir asid pp va perm = .err code vm') ↔
      pdeOf vm pgdir va = 0 ∧ vm.pageFreeList = [] := by
  have start : ∀ code vm', (pgdirWalk (tlbInvalidate vm asid va) pgdir va true = .err code vm') →
      pdeOf vm pgdir va = 0 ∧ vm.pageFreeList = [] := by
    intro code vm' h
    unfold pgdirWalk at h
    split at h
    · rename_i absent
      simp only [if_true] at h
      rcases Result.bind_err h with h | ⟨pp', mid, _, h⟩
      · exact ⟨absent, (pageAlloc_err h).2.2⟩
      · unfold pteIn at h
        split at h <;> cases h
    · unfold pteIn at h
      split at h <;> cases h
  constructor
  · rintro ⟨code, vm', h⟩
    rcases Result.bind_err h with h | ⟨pte, mid, _, h⟩
    · exact start code vm' h
    · cases pte <;> cases h
  · rintro ⟨absent, empty⟩
    refine ⟨-eNoMem, tlbInvalidate vm asid va, ?_⟩
    have absent' : (tlbInvalidate vm asid va).mem pgdir (pdx va) = 0 := absent
    have empty' : (tlbInvalidate vm asid va).pageFreeList = [] := empty
    simp only [pageInsertNew, pgdirWalk, absent', if_true, pageAlloc, empty', Result.err_bind]

/-- The page directory maps itself at `va`: `page_remove` of `va` then drops the entry of the table. -/
def SelfMapped (vm : Vm) (pgdir : Nat) (va : Word) : Prop := ppn (pdeOf vm pgdir va) = pgdir ∧ ptx va = pdx va

/-- `page_insert` of `pp` at `va` has to add a page table and no page is free. -/
structure NoTable (vm : Vm) (pgdir pp : Nat) (va : Word) : Prop where
  empty : vm.pageFreeList = []
  missing : pdeOf vm pgdir va = 0 ∨ HasPage vm pgdir va ∧ SelfMapped vm pgdir va ∧ pgdir ≠ pp ∧ 2 ≤ (vm.ppRef pgdir).toNat

theorem pageDecref_cases (vm : Vm) (pp : Nat) :
    (vm.ppRef pp = 0 ∧ pageDecref vm pp = .stop .panic) ∨
      (vm.ppRef pp = 1 ∧ pageDecref vm pp =
        .ok () { vm.setRef pp 0 with pageFreeList := pp :: vm.pageFreeList }) ∨
      (2 ≤ (vm.ppRef pp).toNat ∧ pageDecref vm pp = .ok () (vm.setRef pp (vm.ppRef pp - 1))) := by
  by_cases zero : vm.ppRef pp = 0
  · exact Or.inl ⟨zero, by simp [pageDecref, zero]⟩
  · by_cases one : vm.ppRef pp = 1
    · exact Or.inr (Or.inl ⟨one, by simp [pageDecref, one, Vm.setRef, pageFree]⟩)
    · refine Or.inr (Or.inr ⟨?_, ?_⟩)
      · have nz : (vm.ppRef pp).toNat ≠ 0 := fun h => zero (BitVec.eq_of_toNat_eq h)
        have no : (vm.ppRef pp).toNat ≠ 1 := fun h => one (BitVec.eq_of_toNat_eq h)
        omega
      · have left : vm.ppRef pp - 1 ≠ 0 := fun h => one (by simpa using (sub_eq_zero.mp h))
        simp only [pageDecref, zero, if_false, Vm.setRef, Function.update_self, left]

theorem pageRemove_none {vm : Vm} {pgdir : Nat} {asid va : Word} (none : NoPage vm pgdir va) :
    pageRemove vm pgdir asid va = .ok () vm := by
  rw [pageRemove, pageLookup_none none, Result.ok_bind]

theorem pageRemove_some {vm : Vm} {pgdir : Nat} {asid va : Word} (has : HasPage vm pgdir va) :
    pageRemove vm pgdir asid va = (pageDecref vm (ppn (pteAt vm pgdir va))).bind fun _ vm' =>
      .ok () (tlbInvalidate (vm'.write ⟨ppn (pdeOf vm pgdir va), ptx va⟩ 0) asid va) := by
  rw [pageRemove, pageLookup_some has, Result.ok_bind]

theorem SelfMapped.pte {vm : Vm} {pgdir : Nat} {va : Word} (self : SelfMapped vm pgdir va) :
    pteAt vm pgdir va = pdeOf vm pgdir va := by
  rw [pteAt, self.1, self.2, pdeOf]

theorem pdeOf_clear {vm vm' : Vm} {pgdir : Nat} {va : Word} (mem : vm'.mem = vm.mem) (table : pdeOf vm pgdir va ≠ 0) :
    pdeOf (vm'.write ⟨ppn (pdeOf vm pgdir va), ptx va⟩ 0) pgdir va = 0 ↔ SelfMapped vm pgdir va := by
  constructor
  · intro cleared
    by_contra other
    refine table (Eq.trans ?_ cleared)
    simp only [pdeOf, Vm.write, mem]
    by_cases page : pgdir = ppn (vm.mem pgdir (pdx va))
    · by_cases index : pdx va = ptx va
      · exact absurd ⟨page.symm, index.symm⟩ other
      · rw [← page, Function.update_self, Function.update_of_ne index]
    · rw [Function.update_of_ne page]
  · rintro ⟨page, index⟩
    simp only [pdeOf, Vm.write] at *
    rw [page, index, Function.update_self, Function.update_self]

theorem pageInsert_err_iff {vm : Vm} {pgdir : Nat} {asid : Word} {pp : Nat} {va perm : Word} :
    (∃ code vm', pageInsert vm pgdir asid pp va perm = .err code vm') ↔ NoTable vm pgdir pp va := by
  rcases pageLookup_cases vm pgdir va with none | has | stop
  · rw [pageInsert, pageLookup_none none, Result.ok_bind, pageInsertNew_err_iff]
    constructor
    · rintro ⟨missing, empty⟩
      exact ⟨empty, Or.inl missing⟩
    · rintro ⟨empty, missing | ⟨has, _⟩⟩
      · exact ⟨missing, empty⟩
      · exact absurd has none.not_hasPage
  · rw [pageInsert, pageLookup_some has, Result.ok_bind]
    have selfMapped : NoTable vm pgdir pp va ↔
        vm.pageFreeList = [] ∧ SelfMapped vm pgdir va ∧ pgdir ≠ pp ∧ 2 ≤ (vm.ppRef pgdir).toNat := by
      constructor
      · rintro ⟨empty, missing | ⟨_, self⟩⟩
        · exact absurd missing has.table
        · exact ⟨empty, self⟩
      · exact fun ⟨empty, self⟩ => ⟨empty, Or.inr ⟨has, self⟩⟩
    have page : SelfMapped vm pgdir va → ppn (pteAt vm pgdir va) = pgdir := fun self => self.pte ▸ self.1
    rw [selfMapped]
    dsimp only
    split
    · rename_i other
      rw [pageRemove_some has]
      rcases pageDecref_cases vm (ppn (pteAt vm pgdir va)) with ⟨zero, eq⟩ | ⟨one, eq⟩ | ⟨many, eq⟩
      · rw [eq]
        refine ⟨fun ⟨_, _, h⟩ => (by cases h), fun ⟨_, self, _, many⟩ => ?_⟩
        rw [page self] at zero
        simp [zero] at many
      · rw [eq, Result.ok_bind, Result.ok_bind, pageInsertNew_err_iff]
        refine ⟨fun ⟨_, empty⟩ => (by cases empty), fun ⟨_, self, _, many⟩ => ?_⟩
        rw [page self] at one
        simp [one] at many
      · rw [eq, Result.ok_bind, Result.ok_bind, pageInsertNew_err_iff]
        have cleared (r : BitVec 16) : pdeOf ((vm.setRef (ppn (pteAt vm pgdir va)) r).write
            ⟨ppn (pdeOf vm pgdir va), ptx va⟩ 0) pgdir va = 0 ↔ SelfMapped vm pgdir va := pdeOf_clear rfl has.table
        refine (and_congr_left' (cleared _)).trans ⟨fun ⟨self, empty⟩ => ⟨empty, self, ?_, ?_⟩, fun ⟨empty, self, _⟩ => ⟨self, empty⟩⟩
        · exact page self ▸ other
        · exact page self ▸ many
    · rename_i same
      refine ⟨fun ⟨_, _, h⟩ => (by cases h), fun ⟨_, self, ne, _⟩ => ?_⟩
      exact absurd ((page self).symm.trans (not_not.mp same)) ne
  · rw [pageInsert, stop]
    refine ⟨fun ⟨_, _, h⟩ => (by cases h), ?_⟩
    rintro ⟨_, missing | ⟨has, _⟩⟩
    · cases stop.symm.trans (pageLookup_none (Or.inl missing))
    · cases stop.symm.trans (pageLookup_some has)

theorem pageInsertNew_err {vm vm' : Vm} {pgdir : Nat} {asid : Word} {pp : Nat} {va perm code : Word}
    (h : pageInsertNew vm pgdir asid pp va perm = .err code vm') :
    code = -eNoMem ∧ vm' = tlbInvalidate vm asid va := by
  rcases Result.bind_err h with h | ⟨pte, mid, _, h⟩
  · unfold pgdirWalk at h
    split at h
    · simp only [if_true] at h
      rcases Result.bind_err h with h | ⟨pp', mid, _, h⟩
      · exact ⟨(pageAlloc_err h).2.1, (pageAlloc_err h).1⟩
      · unfold pteIn at h
        split at h <;> cases h
    · unfold pteIn at h
      split at h <;> cases h
  · cases pte <;> cases h

theorem pageInsert_err_code {vm vm' : Vm} {pgdir : Nat} {asid : Word} {pp : Nat} {va perm code : Word}
    (h : pageInsert vm pgdir asid pp va perm = .err code vm') : code = -eNoMem := by
  rcases Result.bind_err h with h | ⟨found, mid, _, h⟩
  · exact absurd h (pageLookup_noErr _ _ _ _ _)
  · cases found with
    | none => exact (pageInsertNew_err h).1
    | some found =>
      dsimp only at h
      split at h
      · rcases Result.bind_err h with h | ⟨_, _, _, h⟩
        · exact absurd h (pageRemove_noErr _ _ _ _ _ _)
        · exact (pageInsertNew_err h).1
      · cases h

end Mos
