import Mos.Kern.Leaf

namespace Mos

/-- The pages that a TLB entry translates: an even page and the odd one after it. -/
def TlbEntry.Covers (t : TlbEntry) (s : VPage) : Prop := t.vpn2.toNat = (s.1.val * 1024 + s.2.val) / 2

def TlbEntry.half (t : TlbEntry) (s : VPage) : Word := if s.2.val % 2 = 0 then t.entryLo0 else t.entryLo1

/-- `EntryLo` holds a page table word without the six software bits. -/
def entryLo (w : Word) : Word := w >>> 6

def entryLoV : Word := entryLo pteV

/-- The TLB has the valid half-entry `lo` for a page of the address space `asid`. -/
def cached (vm : Vm) (asid : Word) (s : VPage) (lo : Word) : Prop :=
  ∃ t ∈ vm.tlb, t.asid = asid ∧ t.Covers s ∧ t.half s = lo ∧ lo &&& entryLoV ≠ 0

/-- What an operation on the address space of `e` does to the translations and the TLB: other envs keep all
    translations, and those of `e` change where `may` says and where the TLB has no copy. -/
structure Moves (managed : Nat → Prop) (roots : Roots) (e : EnvPtr) (asid : Word) (may : VPage → Prop) (vm vm' : Vm) :
    Prop where
  outside : ∀ pp, ¬ managed pp → vm'.mem pp = vm.mem pp
  dirs : ∀ b root i, roots b = some root → pdx utop ≤ i → i < pdx uvpt → vm'.mem root.pgdir i = vm.mem root.pgdir i
  tlb : ∀ t ∈ vm'.tlb, t ∈ vm.tlb
  others : ∀ b, b ≠ e → leaf roots vm' b = leaf roots vm b
  own : Cache.Follows may (leaf roots vm e) (leaf roots vm' e) (cached vm' (asid &&& 0xff))

variable {managed : Nat → Prop} {base : Nat} {roots : Roots} {vm vm' vm'' : Vm}
variable {e : EnvPtr} {root : Root} {i j : Fin 1024} {t pp : Nat} {w asid va : Word} {may may' : VPage → Prop}

theorem cached_fewer (tlb : ∀ t ∈ vm'.tlb, t ∈ vm.tlb) (s : VPage) (lo : Word) (copy : cached vm' asid s lo) :
    cached vm asid s lo := by
  obtain ⟨t, there, rest⟩ := copy
  exact ⟨t, tlb t there, rest⟩

theorem tlbInvalidate_tlb (vm : Vm) (asid va : Word) : ∀ t ∈ (tlbInvalidate vm asid va).tlb, t ∈ vm.tlb :=
  fun _ there => List.mem_of_mem_filter there

theorem vpn2_toNat (va : Word) : (va >>> 13).toNat = ((vpageOf va).1.val * 1024 + (vpageOf va).2.val) / 2 := by
  have bound := va.isLt
  show (va >>> 13).toNat = (pdx va * 1024 + ptx va) / 2
  rw [pdx_eq, ptx_eq, BitVec.toNat_ushiftRight, Nat.shiftRight_eq_div_pow]
  omega

theorem tlbInvalidate_gone (vm : Vm) (asid va lo : Word) :
    ¬ cached (tlbInvalidate vm asid va) (asid &&& 0xff) (vpageOf va) lo := by
  rintro ⟨t, there, tag, covers, _⟩
  have keep := (List.mem_filter.mp there).2
  have vpn2 : t.vpn2 = va >>> 13 := BitVec.eq_of_toNat_eq (by rw [vpn2_toNat]; exact covers)
  simp [vpn2, tag] at keep

namespace Moves

theorem refl (vm : Vm) : Moves managed roots e asid may vm vm :=
  ⟨fun _ _ => rfl, fun _ _ _ _ _ _ => rfl, fun _ there => there, fun _ _ => rfl, Cache.Follows.refl _ _ _⟩

theorem trans (first : Moves managed roots e asid may vm vm') (second : Moves managed roots e asid may vm' vm'') :
    Moves managed roots e asid may vm vm'' := by
  refine ⟨fun pp out => ?_, fun b root i found low high => ?_, fun t there => ?_, fun b ne => ?_, ?_⟩
  · rw [second.outside pp out, first.outside pp out]
  · rw [second.dirs b root i found low high, first.dirs b root i found low high]
  · exact first.tlb t (second.tlb t there)
  · rw [second.others b ne, first.others b ne]
  · exact Cache.Follows.trans (cached_fewer second.tlb) first.own second.own

theorem of_mem (mem : vm'.mem = vm.mem) (tlb : ∀ t ∈ vm'.tlb, t ∈ vm.tlb) : Moves managed roots e asid may vm vm' := by
  refine ⟨fun pp _ => by rw [mem], fun _ root _ _ _ _ => by rw [mem], tlb, fun b _ => by rw [leaf_of_mem mem], ?_⟩
  rw [leaf_of_mem mem]
  exact Cache.Follows.refl _ _ _

theorem flush (vm : Vm) (va : Word) : Moves managed roots e asid may vm (tlbInvalidate vm asid va) :=
  of_mem rfl (tlbInvalidate_tlb vm asid va)

theorem frame (pages : Pages managed base roots vm) (template : Template managed base roots vm)
    (tables : ∀ r pp, r.Table → target roots vm r = some pp → vm'.mem pp = vm.mem pp)
    (outside : ∀ pp, ¬ managed pp → vm'.mem pp = vm.mem pp) (tlb : ∀ t ∈ vm'.tlb, t ∈ vm.tlb) :
    Moves managed roots e asid may vm vm' := by
  have same (b : EnvPtr) : leaf roots vm' b = leaf roots vm b := leaf_congr pages template tables outside
  refine ⟨outside, fun b root i found _ _ => ?_, tlb, fun b _ => same b, ?_⟩
  · rw [tables (.pgdir b) root.pgdir trivial (target_pgdir found)]
  · rw [same]
    exact Cache.Follows.refl _ _ _

theorem contents (pages : Pages managed base roots vm) (template : Template managed base roots vm) (mine : managed pp)
    (notTable : ∀ r, r.Table → target roots vm r ≠ some pp) {words : Nat → Word}
    (mem : vm'.mem = Function.update vm.mem pp words) (tlb : ∀ t ∈ vm'.tlb, t ∈ vm.tlb) :
    Moves managed roots e asid may vm vm' := by
  refine frame pages template (fun r q kind full => ?_) (fun q out => ?_) tlb
  · rw [mem, Function.update_of_ne fun eq => notTable r kind (by rw [full, eq])]
  · have other : q ≠ pp := fun eq => out (eq ▸ mine)
    rw [mem, Function.update_of_ne other]

theorem setSlot {s : VPage} (outside : ∀ pp, ¬ managed pp → vm'.mem pp = vm.mem pp)
    (dirs : ∀ b root i, roots b = some root → pdx utop ≤ i → i < pdx uvpt → vm'.mem root.pgdir i = vm.mem root.pgdir i)
    (tlb : ∀ t ∈ vm'.tlb, t ∈ vm.tlb)
    (leaves : ∀ b u, leaf roots vm' b u = if b = e ∧ u = s then leafOf w else leaf roots vm b u) (inside : may s)
    (safe : leaf roots vm e s = none ∨ ∀ lo, ¬ cached vm' (asid &&& 0xff) s lo) :
    Moves managed roots e asid may vm vm' := by
  refine ⟨outside, dirs, tlb, fun b ne => ?_, fun u => ?_⟩
  · funext u
    rw [leaves, if_neg fun eq => ne eq.1]
  · by_cases here : u = s
    · subst here
      exact Or.inr ⟨inside, safe⟩
    · left
      rw [leaves, if_neg fun eq => here eq.2]

theorem writePte (pages : Pages managed base roots vm) (template : Template managed base roots vm)
    (table : target roots vm (.pde e i) = some t) (mem : vm'.mem = (vm.write ⟨t, j.val⟩ w).mem)
    (tlb : ∀ t ∈ vm'.tlb, t ∈ vm.tlb) (inside : may (i, j))
    (safe : leaf roots vm e (i, j) = none ∨ ∀ lo, ¬ cached vm' (asid &&& 0xff) (i, j) lo) :
    Moves managed roots e asid may vm vm' := by
  refine setSlot (s := (i, j)) (w := w) (fun pp out => ?_) (fun b root k found _ _ => ?_) tlb (fun b u => ?_) inside safe
  · have other : pp ≠ t := fun eq => out (eq ▸ pages.owned _ t table)
    rw [mem, write_mem_ne vm other]
  · rw [mem, write_mem_ne vm (pages.pgdir_ne_table found table)]
  · rw [leaf_of_mem mem]
    exact leaf_writePte pages template table

theorem writePde (pages : Pages managed base roots vm) (template : Template managed base roots vm)
    (found : roots e = some root) (own : ¬ Shared i) (old : ∀ j, target roots vm (.pte e i j) = none)
    (new : ∀ t, pageOf w = some t → t ≠ root.pgdir ∧ ∀ j, entry vm t j = none)
    (mem : vm'.mem = (vm.write ⟨root.pgdir, i.val⟩ w).mem) (tlb : ∀ t ∈ vm'.tlb, t ∈ vm.tlb) (inside : may (windowFin, i))
    (safe : leaf roots vm e (windowFin, i) = none ∨ ∀ lo, ¬ cached vm' (asid &&& 0xff) (windowFin, i) lo) :
    Moves managed roots e asid may vm vm' := by
  refine setSlot (s := (windowFin, i)) (w := w) (fun pp out => ?_) (fun b root' k there low high => ?_) tlb (fun b u => ?_) inside
    safe
  · have other : pp ≠ root.pgdir := fun eq => out (eq ▸ pages.owned _ _ (target_pgdir found))
    rw [mem, write_mem_ne vm other]
  · rw [mem]
    by_cases page : root'.pgdir = root.pgdir
    · have other : k ≠ i.val := fun eq => own ⟨eq ▸ low, eq ▸ high.le⟩
      rw [page, write_mem_index vm _ other]
    · rw [write_mem_ne vm page]
  · rw [leaf_of_mem mem]
    exact leaf_writePde pages template found own old new

theorem template (moves : Moves managed roots e asid may vm vm') (pages : Pages managed base roots vm)
    (template : Template managed base roots vm) : Template managed base roots vm' := by
  refine ⟨fun b root i found low high => ?_, fun i low high => ?_⟩
  · rw [moves.dirs b root i found low high, moves.outside base pages.apart]
    exact template.copied b root i found low high
  · rw [moves.outside base pages.apart]
    exact template.outside i low high

end Moves

theorem pageAlloc_moves (pages : Pages managed base roots vm) (template : Template managed base roots vm)
    (h : pageAlloc vm = .ok pp vm') : Moves managed roots e asid may vm vm' := by
  obtain ⟨_, same, fresh, _, _⟩ := pages.alloc h
  obtain ⟨rest, _, _, rfl⟩ := pageAlloc_ok h
  refine Moves.contents pages template fresh.managed (fun r _ full => fresh.unused r ?_) rfl fun _ there => there
  rw [same]
  exact full

/-- The TLB loses entries only, and memory keeps its size. -/
structure Settled (vm vm' : Vm) : Prop where
  tlb : ∀ t ∈ vm'.tlb, t ∈ vm.tlb
  npage : vm'.npage = vm.npage

theorem Settled.trans (first : Settled vm vm') (second : Settled vm' vm'') : Settled vm vm'' :=
  ⟨fun t there => first.tlb t (second.tlb t there), second.npage.trans first.npage⟩

section settled

variable {pgdir : Nat} {perm : Word} {u : Unit}

theorem pgdirWalk_settled {create : Bool} {at_ : Option PtePtr} (h : pgdirWalk vm pgdir va create = .ok at_ vm') :
    Settled vm vm' := by
  have last : ∀ {mid : Vm} {pde : Word}, pteIn mid pde va = .ok at_ vm' → vm' = mid := by
    intro mid pde h
    unfold pteIn at h
    split at h <;> cases h
    rfl
  unfold pgdirWalk at h
  split at h
  · split at h
    · obtain ⟨t, mid, alloc, h⟩ := Result.bind_ok h
      obtain ⟨rest, _, _, rfl⟩ := pageAlloc_ok alloc
      rw [last h]
      exact ⟨fun _ there => there, rfl⟩
    · cases h
      exact ⟨fun _ there => there, rfl⟩
  · rw [last h]
    exact ⟨fun _ there => there, rfl⟩

theorem pageRemove_settled (h : pageRemove vm pgdir asid va = .ok u vm') : Settled vm vm' := by
  rcases pageLookup_cases vm pgdir va with no | has | stop
  · rw [pageRemove_none no] at h
    cases h
    exact ⟨fun _ there => there, rfl⟩
  · rw [pageRemove_some has] at h
    obtain ⟨_, mid, decref, h⟩ := Result.bind_ok h
    cases h
    have kept : mid.tlb = vm.tlb ∧ mid.npage = vm.npage := by
      rcases pageDecref_cases vm (ppn (pteAt vm pgdir va)) with ⟨_, eq⟩ | ⟨_, eq⟩ | ⟨_, eq⟩ <;> rw [eq] at decref <;>
        cases decref
      · exact ⟨rfl, rfl⟩
      · exact ⟨rfl, rfl⟩
    refine ⟨fun t there => ?_, kept.2⟩
    rw [← kept.1]
    exact tlbInvalidate_tlb _ asid va t there
  · rw [pageRemove, stop] at h
    cases h

theorem pageInsert_settled (h : pageInsert vm pgdir asid pp va perm = .ok u vm') : Settled vm vm' := by
  have new : ∀ {vm : Vm}, pageInsertNew vm pgdir asid pp va perm = .ok u vm' → Settled vm vm' := by
    intro vm h
    obtain ⟨at_, mid, walk, h⟩ := Result.bind_ok h
    obtain ⟨tlb, npage⟩ := pgdirWalk_settled walk
    cases at_ with
    | none => cases h
    | some pte =>
      cases h
      exact ⟨fun t there => tlbInvalidate_tlb vm asid va t (tlb t there), npage⟩
  obtain ⟨at_, mid, lookup, h⟩ := Result.bind_ok h
  obtain ⟨rfl, ⟨_, rfl⟩ | ⟨has, rfl⟩⟩ := pageLookup_ok lookup
  · exact new h
  · dsimp only at h
    split at h
    · obtain ⟨_, left, remove, h⟩ := Result.bind_ok h
      exact (pageRemove_settled remove).trans (new h)
    · cases h
      exact ⟨tlbInvalidate_tlb mid asid va, rfl⟩

end settled

section user

variable {perm : Word} {u : Unit}

theorem pageRemove_moves (pages : Pages managed base roots vm) (template : Template managed base roots vm)
    (found : roots e = some root) (own : ¬ Shared (pdxFin va)) (inside : may (vpageOf va))
    (h : pageRemove vm root.pgdir asid va = .ok u vm') :
    Moves managed roots e asid may vm vm' ∧ leaf roots vm' e (vpageOf va) = none := by
  rcases pageLookup_cases vm root.pgdir va with no | has | stop
  · rw [pageRemove_none no] at h
    cases h
    refine ⟨.refl vm, ?_⟩
    have empty := pages.noPage found own no
    rwa [target_leaf own, Option.map_eq_none_iff] at empty
  · rw [pageRemove_some has] at h
    obtain ⟨_, mid, decref, h⟩ := Result.bind_ok h
    cases h
    obtain ⟨mem, tlb⟩ := pageDecref_tlb decref
    have table := pages.hasTable found own has.table
    have written : (tlbInvalidate (mid.write ⟨ppn (pdeOf vm root.pgdir va), ptx va⟩ 0) asid va).mem =
        (vm.write ⟨ppn (pdeOf vm root.pgdir va), (ptxFin va).val⟩ 0).mem := by
      simp [tlbInvalidate, Vm.write, mem, ptxFin]
    refine ⟨.writePte pages template table written (fun t there => ?_) inside (Or.inr fun lo => ?_), ?_⟩
    · rw [← tlb]
      exact tlbInvalidate_tlb _ _ _ t there
    · exact tlbInvalidate_gone _ asid va lo
    · rw [leaf_of_mem written, leaf_writePte pages template table, if_pos ⟨rfl, rfl⟩]
      rfl
  · rw [pageRemove, stop] at h
    cases h

/-- The pages whose translations change when `va` is mapped: its own, and the one of the window that shows
    the page directory entry for `va`. -/
def Near (va : Word) (s : VPage) : Prop := s = vpageOf va ∨ s = (windowFin, pdxFin va)

theorem pgdirWalk_moves (pages : Pages managed base roots vm) (template : Template managed base roots vm)
    (found : roots e = some root) (own : ¬ Shared (pdxFin va)) (inside : ∀ s, Near va s → may s) {at_ : Option PtePtr}
    (h : pgdirWalk vm root.pgdir va true = .ok at_ vm') : Moves managed roots e asid may vm vm' := by
  unfold pgdirWalk at h
  split at h
  · rename_i absent
    simp only [if_true] at h
    obtain ⟨t, mid, alloc, h⟩ := Result.bind_ok h
    obtain ⟨pagesMid, same, fresh, zero, _⟩ := pages.alloc alloc
    have first : Moves managed roots e asid may vm mid := pageAlloc_moves pages template alloc
    have bound : t < 2^20 := lt_of_lt_of_le (pagesMid.bound t fresh.managed) pagesMid.small
    have dir : mid.mem root.pgdir = vm.mem root.pgdir := pages.alloc_mem (target_pgdir found) alloc
    have empty : target roots mid (.pde e (pdxFin va)) = none := by
      rw [same, target_pde found own, entry, show vm.mem root.pgdir (pdxFin va).val = 0 from absent]
      rfl
    unfold pteIn at h
    split at h
    · cases h
    · cases h
      refine first.trans (.writePde (i := pdxFin va) pagesMid (first.template pages template) found own
        (fun j => target_pte_none empty) (fun q value => ?_) rfl (fun _ there => there) (inside _ (Or.inr rfl)) (Or.inl ?_))
      · obtain rfl : t = q := Option.some.inj ((pageOf_table bound).symm.trans value)
        refine ⟨fun eq => fresh.unused (.pgdir e) (eq ▸ target_pgdir found), fun j => ?_⟩
        rw [entry, zero]
        rfl
      · rw [leaf_window pagesMid found, dir, show vm.mem root.pgdir (pdxFin va).val = 0 from absent]
        rfl
  · unfold pteIn at h
    split at h
    · cases h
    · cases h
      exact .refl vm

theorem pageInsertNew_moves (pages : Pages managed base roots vm) (template : Template managed base roots vm)
    (found : roots e = some root) (own : ¬ Shared (pdxFin va)) (inside : ∀ s, Near va s → may s)
    (h : pageInsertNew vm root.pgdir asid pp va perm = .ok u vm') :
    Moves managed roots e asid may vm vm' ∧ leaf roots vm' e (vpageOf va) = some (pteOf pp perm) := by
  obtain ⟨at_, mid, walk, h⟩ := Result.bind_ok h
  obtain ⟨t, rfl, walked⟩ := (pages.tlb asid va).walk found own walk
  cases h
  have start : Moves managed roots e asid may vm (tlbInvalidate vm asid va) := .flush vm va
  have template' := start.template pages template
  have step : Moves managed roots e asid may (tlbInvalidate vm asid va) mid :=
    pgdirWalk_moves (pages.tlb asid va) template' found own inside walk
  have table : target roots mid (.pde e (pdxFin va)) = some t := by rw [walked.targets, Function.update_self]
  have templateMid := step.template (pages.tlb asid va) template'
  refine ⟨(start.trans step).trans (.writePte (j := ptxFin va) walked.pages templateMid table rfl (fun _ there => there)
    (inside _ (Or.inl rfl)) (Or.inr fun lo copy => ?_)), ?_⟩
  · exact tlbInvalidate_gone vm asid va lo (cached_fewer step.tlb _ _ copy)
  · have written : ((mid.write ⟨t, ptx va⟩ (pteOf pp perm)).incRef pp).mem =
        (mid.write ⟨t, (ptxFin va).val⟩ (pteOf pp perm)).mem := rfl
    rw [leaf_of_mem written, leaf_writePte walked.pages templateMid table, if_pos ⟨rfl, rfl⟩]
    exact leafOf_some.mpr (pteOf_valid pp perm)

theorem pageInsert_moves (pages : Pages managed base roots vm) (template : Template managed base roots vm)
    (found : roots e = some root) (own : ¬ Shared (pdxFin va)) (inside : ∀ s, Near va s → may s)
    (h : pageInsert vm root.pgdir asid pp va perm = .ok u vm') :
    Moves managed roots e asid may vm vm' ∧ leaf roots vm' e (vpageOf va) = some (pteOf pp perm) := by
  obtain ⟨at_, mid, lookup, h⟩ := Result.bind_ok h
  obtain ⟨rfl, ⟨_, rfl⟩ | ⟨has, rfl⟩⟩ := pageLookup_ok lookup
  · exact pageInsertNew_moves pages template found own inside h
  · dsimp only at h
    split at h
    · obtain ⟨_, left, remove, h⟩ := Result.bind_ok h
      have first : Moves managed roots e asid may mid left :=
        (pageRemove_moves pages template found own (inside _ (Or.inl rfl)) remove).1
      obtain ⟨second, here⟩ := pageInsertNew_moves (pages.remove found own remove).pages (first.template pages template)
        found own inside h
      exact ⟨first.trans second, here⟩
    · cases h
      have table := pages.hasTable found own has.table
      have written : ((tlbInvalidate mid asid va).write ⟨ppn (pdeOf mid root.pgdir va), ptx va⟩ (pteOf pp perm)).mem =
          (mid.write ⟨ppn (pdeOf mid root.pgdir va), (ptxFin va).val⟩ (pteOf pp perm)).mem := rfl
      refine ⟨.writePte pages template table written (tlbInvalidate_tlb mid asid va) (inside _ (Or.inl rfl))
        (Or.inr fun lo => tlbInvalidate_gone mid asid va lo), ?_⟩
      rw [leaf_of_mem written, leaf_writePte pages template table, if_pos ⟨rfl, rfl⟩]
      exact leafOf_some.mpr (pteOf_valid pp perm)

theorem pageInsert_state_moves (pages : Pages managed base roots vm) (template : Template managed base roots vm)
    (found : roots e = some root) (own : ¬ Shared (pdxFin va)) (inside : ∀ s, Near va s → may s)
    (h : (pageInsert vm root.pgdir asid pp va perm).state = some vm') : Moves managed roots e asid may vm vm' := by
  rcases pageInsert_state_cases h with inserted | ⟨mid, rfl | remove, rfl⟩
  · exact (pageInsert_moves pages template found own inside inserted).1
  · exact .flush mid va
  · exact (pageRemove_moves pages template found own (inside _ (Or.inl rfl)) remove).1.trans (.flush mid va)

theorem insertTable_moves (pages : Pages managed base roots vm) (template : Template managed base roots vm)
    (found : roots e = some root) (window : pdx va = pdx uvpt) (fresh : Fresh managed roots vm pp)
    (zero : ∀ i, vm.mem pp i = 0) (no : NoPage vm root.pgdir va) (inside : may (windowFin, ptxFin va))
    (h : pageInsert vm root.pgdir asid pp va 0 = .ok u vm') : Moves managed roots e asid may vm vm' := by
  obtain ⟨own, absent⟩ := pages.window_empty found window no
  have value : pageOf (pteOf pp 0) = some pp :=
    pageOf_pteOf (lt_of_lt_of_le (pages.bound pp fresh.managed) pages.small) (by decide)
  rw [pages.insertTable_eq found window no h]
  refine .writePde pages template found own (fun j => target_pte_none absent) (fun q full => ?_) rfl
    (tlbInvalidate_tlb vm asid va) inside (Or.inl ?_)
  · obtain rfl : pp = q := Option.some.inj (value.symm.trans full)
    refine ⟨fun eq => fresh.unused (.pgdir e) (eq ▸ target_pgdir found), fun j => ?_⟩
    rw [entry, zero]
    rfl
  · rw [leaf_window pages found]
    exact leafOf_none.mpr ((pages.window_noPage found window).mp no)

theorem passiveAlloc_moves (pages : Pages managed base roots vm) (template : Template managed base roots vm)
    (found : roots e = some root) (no : NoPage vm root.pgdir va) (h : passiveAlloc va root.pgdir asid vm = .ok u vm') :
    Moves managed roots e asid (fun _ => True) vm vm' := by
  obtain ⟨pp, mid, alloc, insert⟩ := passiveAlloc_ok h
  obtain ⟨pagesMid, _, fresh, zero, _⟩ := pages.alloc alloc
  have first : Moves managed roots e asid (fun _ => True) vm mid := pageAlloc_moves pages template alloc
  have template' := first.template pages template
  rcases insert with ⟨window, insert⟩ | ⟨user, insert⟩
  · obtain ⟨index, none⟩ := pages.passive_window found no alloc window
    exact first.trans (insertTable_moves pagesMid template' found index fresh zero none trivial insert)
  · have own : ¬ Shared (pdxFin (pteAddr va)) := by
      rw [pdxFin_pteAddr]
      exact pdx_user user
    exact first.trans (pageInsert_moves pagesMid template' found own (fun _ _ => trivial) insert).1

theorem refillLookup_moves {pte : PtePtr} {fuel : Nat} (pages : Pages managed base roots vm)
    (template : Template managed base roots vm) (found : roots e = some root)
    (h : refillLookup va root.pgdir asid fuel vm = .ok pte vm') :
    Moves managed roots e asid (fun _ => True) vm vm' ∧ HasPage vm' root.pgdir va ∧
      pte = ⟨ppn (pdeOf vm' root.pgdir va), ptx va⟩ := by
  induction fuel generalizing vm with
  | zero => cases h
  | succ fuel ih =>
    obtain ⟨at_, mid, lookup, h⟩ := Result.bind_ok h
    obtain ⟨rfl, ⟨no, rfl⟩ | ⟨has, rfl⟩⟩ := pageLookup_ok lookup
    · obtain ⟨_, left, passive, h⟩ := Result.bind_ok h
      have first := passiveAlloc_moves pages template found no passive
      obtain ⟨rest, has, eq⟩ := ih (pages.passive found no passive) (first.template pages template) h
      exact ⟨first.trans rest, has, eq⟩
    · cases h
      exact ⟨.refl vm', has, rfl⟩

/-- One segment page: the page that `page_insert` gets is filled and of no other use. -/
theorem loadIcodeMapper_insert {page : IcodePage} (may : VPage → Prop) (pages : Pages managed base roots vm)
    (template : Template managed base roots vm) (h : loadIcodeMapper root.pgdir asid page vm = .ok u vm') :
    ∃ p filled, Pages managed base roots filled ∧ Moves managed roots e asid may vm filled ∧
      Fresh managed roots filled p ∧ pageInsert filled root.pgdir asid p page.va page.perm = .ok u vm' := by
  obtain ⟨p, mid, alloc, insert⟩ := Result.bind_ok h
  obtain ⟨pagesMid, _, new, _, _⟩ := pages.alloc alloc
  have taken : Moves managed roots e asid may vm mid := pageAlloc_moves pages template alloc
  have notTable : ∀ r, r.Table → target roots mid r ≠ some p := fun r _ => new.unused r
  have kept : target roots { mid with mem := Function.update mid.mem p page.words } = target roots mid :=
    target_congr fun r q _ full => Function.update_of_ne (fun eq => new.unused r (by rw [full, eq])) _ _
  refine ⟨p, _, pagesMid.setContents new.managed notTable, taken.trans (.contents pagesMid (taken.template pages template)
    new.managed notTable rfl fun _ there => there), ⟨new.managed, fun r => kept ▸ new.unused r, new.out⟩, insert⟩

theorem loadIcodeMapper_moves {page : IcodePage} (pages : Pages managed base roots vm)
    (template : Template managed base roots vm) (found : roots e = some root) (user : page.va < utop)
    (h : loadIcodeMapper root.pgdir asid page vm = .ok u vm') : Moves managed roots e asid (fun _ => True) vm vm' := by
  obtain ⟨p, mid, pagesMid, filled, _, insert⟩ := loadIcodeMapper_insert (fun _ => True) pages template h
  exact filled.trans (pageInsert_moves pagesMid (filled.template pages template) found (pdx_user user)
    (fun _ _ => trivial) insert).1

theorem loadPages_moves {list : List IcodePage} (pages : Pages managed base roots vm)
    (template : Template managed base roots vm) (found : roots e = some root)
    (legal : ∀ page ∈ list, page.va < utop ∧ FlagBits page.perm) (h : loadPages root.pgdir asid list vm = .ok u vm') :
    Moves managed roots e asid (fun _ => True) vm vm' := by
  induction list generalizing vm with
  | nil =>
    cases h
    exact .refl vm'
  | cons page rest ih =>
    obtain ⟨_, mid, first, h⟩ := Result.bind_ok h
    obtain ⟨user, flags⟩ := legal page List.mem_cons_self
    have step := loadIcodeMapper_moves pages template found user first
    exact step.trans (ih (pages.loadIcodeMapper found user flags first) (step.template pages template)
      (fun q mem => legal q (List.mem_cons_of_mem page mem)) h)

end user

section teardown

variable {u : Unit}

theorem clearTable_moves (pages : Pages managed base roots vm) (template : Template managed base roots vm)
    (found : roots e = some root) (own : ¬ Shared i) (inside : ∀ j, may (i, j))
    (h : Result.forRange 1024 (fun pteno vm =>
      if vm.mem t pteno &&& pteV ≠ 0 then
        pageRemove vm root.pgdir asid (BitVec.ofNat 32 i.val <<< pdshift ||| BitVec.ofNat 32 pteno <<< pgshift)
      else .ok () vm) vm = .ok u vm') : Moves managed roots e asid may vm vm' := by
  have step := Result.forRange_ok
    (fun _ mid => Pages managed base roots mid ∧ Moves managed roots e asid may vm mid) ⟨pages, .refl vm⟩ ?_ h
  · exact step.2
  · rintro n mid last small ⟨pagesMid, moves⟩ body
    split at body
    · have va : pdxFin (BitVec.ofNat 32 i.val <<< pdshift ||| BitVec.ofNat 32 n <<< pgshift) = i :=
        Fin.ext (pdx_slotVa i.isLt small)
      have own' : ¬ Shared (pdxFin (BitVec.ofNat 32 i.val <<< pdshift ||| BitVec.ofNat 32 n <<< pgshift)) := by
        rw [va]
        exact own
      have here : may (vpageOf (BitVec.ofNat 32 i.val <<< pdshift ||| BitVec.ofNat 32 n <<< pgshift)) := by
        rw [vpageOf, va]
        exact inside _
      exact ⟨(pagesMid.remove found own' body).pages,
        moves.trans (pageRemove_moves pagesMid (moves.template pages template) found own' here body).1⟩
    · cases body
      exact ⟨pagesMid, moves⟩

theorem vpageOf_window (i : Fin 1024) : vpageOf (uvpt + BitVec.ofNat 32 i.val <<< pgshift) = (windowFin, i) := by
  have bound := i.isLt
  have sum : (uvpt + BitVec.ofNat 32 i.val <<< pgshift).toNat = 0x7fc00000 + i.val * 4096 := by
    have top : uvpt.toNat = 0x7fc00000 := by decide
    simp only [BitVec.toNat_add, top, pgshift, BitVec.toNat_shiftLeft, BitVec.toNat_ofNat, Nat.shiftLeft_eq]
    omega
  refine Prod.ext (Fin.ext ?_) (Fin.ext ?_)
  · show pdx _ = pdx uvpt
    rw [pdx_eq, sum, show pdx uvpt = 511 by decide]
    omega
  · show ptx _ = i.val
    rw [ptx_eq, sum]
    omega

/-- One round of the outer loop of `env_free`. The table is dropped before the entry of the window. -/
theorem freePde_moves (pages : Pages managed base roots vm) (template : Template managed base roots vm)
    (found : roots e = some root) (own : ¬ Shared i) (inside : ∀ j, may (i, j)) (window : may (windowFin, i))
    (h : envFreePde root.pgdir asid i.val vm = .ok u vm') : Moves managed roots e asid may vm vm' := by
  unfold envFreePde at h
  dsimp only at h
  split at h
  · cases h
    exact .refl _
  · rename_i valid
    have table : target roots vm (.pde e i) = some (ppn (vm.mem root.pgdir i.val)) := by
      rw [target_pde found own, entry, pageOf, if_neg valid]
    split at h
    · cases h
    · obtain ⟨_, cleared, loop, h⟩ := Result.bind_ok h
      obtain ⟨_, last, decref, h⟩ := Result.bind_ok h
      cases h
      obtain ⟨pages', _, ptes⟩ := pages.clearTable found own table loop
      have first := clearTable_moves pages template found own inside loop
      obtain ⟨mid, decref', rfl⟩ := pageDecref_write decref
      obtain ⟨mem, tlb⟩ := pageDecref_tlb decref'
      have written : (tlbInvalidate (mid.write ⟨root.pgdir, i.val⟩ 0) asid (uvpt + BitVec.ofNat 32 i.val <<< pgshift)).mem =
          (cleared.write ⟨root.pgdir, i.val⟩ 0).mem := by simp [tlbInvalidate, Vm.write, mem]
      refine first.trans (.writePde pages' (first.template pages template) found own ptes (fun t full => by cases full) written
        (fun t there => ?_) window (Or.inr fun lo => ?_))
      · rw [← tlb]
        exact tlbInvalidate_tlb _ _ _ t there
      · rw [← vpageOf_window i]
        exact tlbInvalidate_gone _ asid _ lo

theorem freeTables_moves (pages : Pages managed base roots vm) (template : Template managed base roots vm)
    (found : roots e = some root) (h : Result.forRange (pdx utop) (envFreePde root.pgdir asid) vm = .ok u vm') :
    Moves managed roots e asid (fun s => s.1.val ≤ pdx uvpt) vm vm' := by
  have step := Result.forRange_ok
    (fun _ mid => Pages managed base roots mid ∧ Moves managed roots e asid (fun s => s.1.val ≤ pdx uvpt) vm mid) ⟨pages, .refl vm⟩ ?_ h
  · exact step.2
  · rintro n mid last small ⟨pagesMid, moves⟩ body
    have bound : n < 1024 := Nat.lt_trans small (pdx_lt utop)
    have own : ¬ Shared ⟨n, bound⟩ := fun shared => absurd shared.1 (Nat.not_le.mpr small)
    have low : n ≤ pdx uvpt := small.le.trans (by decide)
    exact ⟨(pagesMid.freePde (i := ⟨n, bound⟩) found own body).1,
      moves.trans (freePde_moves (i := ⟨n, bound⟩) pagesMid (moves.template pages template) found own (fun _ => low)
        (Nat.le_refl (pdx uvpt)) body)⟩

end teardown

end Mos
