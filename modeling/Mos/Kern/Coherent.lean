import Mos.Kern.Tlb
import Mos.Kern.EnvTable
import Mos.Kern.PageBoot

namespace Mos

/-- The directory entries that `env_setup_vm` copies from the template. -/
def Inherited (i : Fin 1024) : Prop := pdx utop ≤ i.val ∧ i.val < pdx uvpt

instance (i : Fin 1024) : Decidable (Inherited i) := inferInstanceAs (Decidable (_ ∧ _))

/-- The translations that every address space has from the template. -/
def templateLeaf (base : Nat) (vm : Vm) (s : VPage) : Option Word :=
  if s.1 = windowFin then if Inherited s.2 then leafOf (vm.mem base s.2.val) else none
  else if Inherited s.1 then leafOf (vm.mem (ppn (vm.mem base s.1.val)) s.2.val) else none

/-- The TLB agrees with the page tables: a valid half-entry is the entry of the env in use that holds its ASID. -/
def TlbCoherent (k : Kernel) : Prop :=
  ∀ e, (k.envs e).envStatus ≠ .free →
    Cache.Coherent entryLo (leaf (rootsOf k) k.vm e) (cached k.vm (asidWord (k.envs e).envAsid))

/-- Address spaces in use have coherent TLB entries, and under an ASID that no env holds the TLB has only entries
    that every address space has. -/
structure TlbInv (managed : Nat → Prop) (k : Kernel) : Prop where
  template : Template managed k.basePgdir (rootsOf k) k.vm
  live : ∀ e, rootsOf k e ≠ none →
    Cache.Coherent entryLo (leaf (rootsOf k) k.vm e) (cached k.vm (asidWord (k.envs e).envAsid))
  idle : ∀ asid, (∀ e, rootsOf k e ≠ none → (k.envs e).envAsid ≠ asid) →
    Cache.Coherent entryLo (templateLeaf k.basePgdir k.vm) (cached k.vm (asidWord asid))

variable {managed managed' : Nat → Prop} {base : Nat} {roots roots' : Roots} {vm vm' : Vm} {k k' : Kernel}
variable {e b cur : EnvPtr} {root : Root} {s : VPage} {w : Word} {may : VPage → Prop}

theorem asidWord_toNat (asid : Fin 256) : (asidWord asid).toNat = asid.val := by
  have bound := asid.isLt
  rw [asidWord, BitVec.toNat_ofNat]
  omega

theorem asidWord_mask (asid : Fin 256) : asidWord asid &&& 0xff = asidWord asid := by
  have bound := asid.isLt
  apply BitVec.eq_of_toNat_eq
  rw [BitVec.toNat_and, show (0xff : Word).toNat = 2 ^ 8 - 1 from rfl, Nat.and_two_pow_sub_one_eq_mod, asidWord_toNat]
  omega

theorem asidWord_inj {a a' : Fin 256} (same : asidWord a = asidWord a') : a = a' :=
  Fin.ext (by rw [← asidWord_toNat a, ← asidWord_toNat a', same])

theorem roots_ne_none : rootsOf k e ≠ none ↔ (k.envs e).envStatus ≠ .free := by
  unfold rootsOf
  split
  · rename_i free
    exact iff_of_false (fun none => none rfl) fun used => used free
  · rename_i used
    exact iff_of_true (by simp) used

theorem leaf_root (same : (roots' b).map Root.pgdir = (roots b).map Root.pgdir) :
    leaf roots' vm b = leaf roots vm b := by
  funext s
  unfold leaf tableOf
  cases found : roots b with
  | none =>
    rw [found, Option.map_none, Option.map_eq_none_iff] at same
    rw [same]
  | some root =>
    rw [found, Option.map_some, Option.map_eq_some_iff] at same
    obtain ⟨root', found', dir⟩ := same
    rw [found', Option.bind_some, Option.bind_some, dir]

theorem templateLeaf_outside (pages : Pages managed base roots vm) (template : Template managed base roots vm)
    (outside : ∀ pp, ¬ managed pp → vm'.mem pp = vm.mem pp) : templateLeaf base vm' = templateLeaf base vm := by
  funext s
  unfold templateLeaf
  rw [outside base pages.apart]
  split
  · rfl
  · split
    · rename_i inherited
      rw [outside _ (template.outside s.1.val inherited.1 inherited.2)]
    · rfl

theorem tableOf_inherited (pages : Pages managed base roots vm) (template : Template managed base roots vm)
    (found : roots e = some root) {i : Fin 1024} (inherited : Inherited i) :
    tableOf roots vm e i = some (ppn (vm.mem base i.val)) := by
  rw [tableOf_found found, entry, template.copied e root i.val found inherited.1 inherited.2, pageOf_some]
  exact ⟨pages.template i.val inherited.1 inherited.2, rfl⟩

theorem not_inherited_window : ¬ Inherited windowFin := fun inherited => Nat.lt_irrefl _ inherited.2

theorem leaf_template (pages : Pages managed base roots vm) (template : Template managed base roots vm)
    (found : roots e = some root) (h : templateLeaf base vm s = some w) : leaf roots vm e s = some w := by
  obtain ⟨i, j⟩ := s
  unfold templateLeaf at h
  split at h
  · rename_i window
    split at h
    · rename_i inherited
      rw [show (i, j).1 = i from rfl] at window
      rw [window, leaf_window pages found, template.copied e root j.val found inherited.1 inherited.2]
      exact h
    · cases h
  · split at h
    · rename_i inherited
      rw [leaf_table (tableOf_inherited pages template found inherited)]
      exact h
    · cases h

/-- An address space without tables of its own has no others but the self map. -/
theorem template_leaf (pages : Pages managed base roots vm) (template : Template managed base roots vm)
    (found : roots e = some root) (empty : ∀ i : Fin 1024, ¬ Shared i → vm.mem root.pgdir i.val = 0)
    (h : leaf roots vm e s = some w) : s = (windowFin, windowFin) ∨ templateLeaf base vm s = some w := by
  obtain ⟨i, j⟩ := s
  have split_ : ∀ {l : Fin 1024}, Shared l → l = windowFin ∨ Inherited l := fun shared =>
    (Nat.lt_or_eq_of_le shared.2).symm.imp Fin.ext fun inside => ⟨shared.1, inside⟩
  by_cases shared : Shared i
  · rcases split_ shared with rfl | inherited
    · rw [leaf_window pages found] at h
      by_cases also : Shared j
      · rcases split_ also with rfl | inherited
        · exact Or.inl rfl
        · refine Or.inr ?_
          rw [template.copied e root j.val found inherited.1 inherited.2] at h
          rw [templateLeaf, if_pos rfl, if_pos inherited]
          exact h
      · rw [empty j also] at h
        cases h
    · refine Or.inr ?_
      rw [leaf_table (tableOf_inherited pages template found inherited)] at h
      have away : i ≠ windowFin := fun eq => not_inherited_window (eq ▸ inherited)
      rw [templateLeaf, if_neg away, if_pos inherited]
      exact h
  · rw [leaf_none] at h
    · cases h
    · rw [tableOf_found found, entry, empty i shared]
      rfl

namespace TlbInv

theorem coherent (inv : TlbInv managed k) : TlbCoherent k := fun e used => inv.live e (roots_ne_none.mpr used)

theorem moves (inv : TlbInv managed k) (pages : Pages managed k.basePgdir (rootsOf k) k.vm)
    (moves : Moves managed (rootsOf k) e (asidWord (k.envs e).envAsid) may k.vm k'.vm) (roots : rootsOf k' = rootsOf k)
    (asids : ∀ b, (k'.envs b).envAsid = (k.envs b).envAsid) (basePgdir : k'.basePgdir = k.basePgdir) :
    TlbInv managed k' := by
  refine ⟨?_, fun b used => ?_, fun asid free => ?_⟩
  · rw [roots, basePgdir]
    exact moves.template pages inv.template
  · rw [roots] at used ⊢
    rw [asids b]
    by_cases same : b = e
    · subst same
      have own := moves.own
      rw [asidWord_mask] at own
      exact (inv.live b used).follow (cached_fewer moves.tlb) own
    · rw [moves.others b same]
      exact (inv.live b used).fewer (cached_fewer moves.tlb)
  · rw [basePgdir, templateLeaf_outside pages inv.template moves.outside]
    refine (inv.idle asid fun b used => ?_).fewer (cached_fewer moves.tlb)
    rw [← asids b]
    exact free b (roots ▸ used)

theorem keep (inv : TlbInv managed k) (vm : k'.vm = k.vm) (roots : rootsOf k' = rootsOf k)
    (asids : ∀ b, (k'.envs b).envAsid = (k.envs b).envAsid) (basePgdir : k'.basePgdir = k.basePgdir) :
    TlbInv managed k' := by
  refine ⟨?_, fun b used => ?_, fun asid free => ?_⟩
  · rw [roots, basePgdir, vm]
    exact inv.template
  · rw [roots] at used ⊢
    rw [asids b, vm]
    exact inv.live b used
  · rw [basePgdir, vm]
    refine inv.idle asid fun b used => ?_
    rw [← asids b]
    exact free b (roots ▸ used)

end TlbInv

theorem refill_entry {va asid lo : Word} {t : Nat}
    (covers : TlbEntry.Covers ⟨va >>> 13, asid, entryLo (vm.mem t (2 * (ptx va / 2))), entryLo (vm.mem t (2 * (ptx va / 2) + 1))⟩ s)
    (half : TlbEntry.half ⟨va >>> 13, asid, entryLo (vm.mem t (2 * (ptx va / 2))), entryLo (vm.mem t (2 * (ptx va / 2) + 1))⟩ s = lo) :
    s.1 = pdxFin va ∧ entryLo (vm.mem t s.2.val) = lo := by
  have pair : (pdx va * 1024 + ptx va) / 2 = (s.1.val * 1024 + s.2.val) / 2 := (vpn2_toNat va).symm.trans covers
  have small := ptx_lt va
  have small' := s.2.isLt
  have dir : s.1.val = pdx va := by omega
  refine ⟨Fin.ext dir, ?_⟩
  unfold TlbEntry.half at half
  split at half
  · have index : s.2.val = 2 * (ptx va / 2) := by omega
    rw [index]
    exact half
  · have index : s.2.val = 2 * (ptx va / 2) + 1 := by omega
    rw [index]
    exact half

theorem entryLo_valid (w : Word) : entryLo w &&& entryLoV ≠ 0 ↔ w &&& pteV ≠ 0 := by
  rw [show pteV = BitVec.twoPow 32 7 by decide, show entryLoV = BitVec.twoPow 32 1 by decide, BitVec.and_twoPow,
    BitVec.and_twoPow, entryLo, BitVec.getLsbD_ushiftRight]
  split
  · exact iff_of_true (by decide) (by decide)
  · exact Iff.rfl

theorem tableOf_pde (pages : Pages managed base roots vm) (found : roots e = some root) {va : Word}
    (present : pdeOf vm root.pgdir va ≠ 0) : tableOf roots vm e (pdxFin va) = some (ppn (pdeOf vm root.pgdir va)) := by
  rw [tableOf_found found, entry, pageOf_some]
  refine ⟨?_, rfl⟩
  by_cases shared : Shared (pdxFin va)
  · rcases Nat.lt_or_eq_of_le shared.2 with inside | last
    · exact pages.copied e root (pdx va) found shared.1 inside
    · have self := pages.self e root found
      rw [last, self]
      exact self_valid root.pgdir
  · exact (pages.whole e root (pdxFin va) found shared).resolve_left present

theorem TlbInv.refill {va : Word} {victim : Nat} {u : Unit} (inv : TlbInv managed k)
    (pages : Pages managed k.basePgdir (rootsOf k) k.vm) (used : (k.envs e).envStatus ≠ .free)
    (distinct : ∀ b, (k.envs b).envStatus ≠ .free → (k.envs b).envAsid = (k.envs e).envAsid → b = e)
    (h : doTlbRefill va (k.envs e).envPgdir (asidWord (k.envs e).envAsid) victim k.vm = .ok u vm) :
    TlbInv managed (k.putVm vm) := by
  have found := rootsOf_used used
  obtain ⟨pte, mid, lookup, h⟩ := Result.bind_ok h
  cases h
  have start : Moves managed (rootsOf k) e (asidWord (k.envs e).envAsid) (fun _ => True) k.vm
      (tlbInvalidate k.vm (asidWord (k.envs e).envAsid) va) := .flush k.vm va
  obtain ⟨rest, has, rfl⟩ := refillLookup_moves (pages.tlb _ va) (start.template pages inv.template) found lookup
  have before : TlbInv managed (k.putVm mid) := inv.moves pages (start.trans rest) rfl (fun _ => rfl) rfl
  have pagesMid := (pages.tlb (asidWord (k.envs e).envAsid) va).refill found lookup
  -- a copy in the new TLB is in the old one or in the loaded entry
  have copies : ∀ asid s lo, cached { mid with tlb := ⟨va >>> 13, asidWord (k.envs e).envAsid &&& 0xff,
        mid.read ⟨ppn (pdeOf mid (k.envs e).envPgdir va), 2 * (ptx va / 2)⟩ >>> 6,
        mid.read ⟨ppn (pdeOf mid (k.envs e).envPgdir va), 2 * (ptx va / 2) + 1⟩ >>> 6⟩ :: mid.tlb.eraseIdx victim } asid s lo →
      cached mid asid s lo ∨ (asid = asidWord (k.envs e).envAsid ∧ ∃ w, leaf (rootsOf k) mid e s = some w ∧ entryLo w = lo) := by
    rintro asid s lo ⟨t, there, tag, covers, half, valid⟩
    rcases List.mem_cons.mp there with rfl | old
    · refine Or.inr ⟨by rw [← tag, asidWord_mask], ?_⟩
      have entry : s.1 = pdxFin va ∧ entryLo (mid.mem (ppn (pdeOf mid (k.envs e).envPgdir va)) s.2.val) = lo :=
        refill_entry covers half
      obtain ⟨dir, word⟩ := entry
      refine ⟨mid.mem (ppn (pdeOf mid (k.envs e).envPgdir va)) s.2.val, ?_, word⟩
      have table := tableOf_pde pagesMid found has.table
      rw [← dir] at table
      rw [show s = (s.1, s.2) from rfl, leaf_table table]
      rw [← word, entryLo_valid] at valid
      exact leafOf_some.mpr valid
    · exact Or.inl ⟨t, List.mem_of_mem_eraseIdx old, tag, covers, half, valid⟩
  refine ⟨⟨before.template.copied, before.template.outside⟩, fun b usedB s lo copy => ?_, fun asid free s lo copy => ?_⟩
  · rcases copies _ s lo copy with old | ⟨same, new⟩
    · exact before.live b usedB s lo old
    · rw [distinct b (roots_ne_none.mp usedB) (asidWord_inj same)]
      exact new
  · rcases copies _ s lo copy with old | ⟨same, _⟩
    · exact before.idle asid free s lo old
    · exact absurd (asidWord_inj same).symm (free e (roots_ne_none.mpr used))

end Mos
