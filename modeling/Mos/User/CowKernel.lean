import Mos.User.CowInv
import Mos.Kern.MachineRun

namespace Mos.Cow

/-- Where the entry of page `v` stands in the page tables. -/
def slot (v : Nat) : VPage := (Fin.ofNat 1024 (v / 1024), Fin.ofNat 1024 v)

/-- The envs have in `s` the pages below `UTOP` that they have in the page tables, with the same bytes. -/
structure Mirrors (roots : Roots) (vm : Vm) (s : State) : Prop where
  vpt : ∀ e v, v < vpn utop → s.vpt (e, v) = leaf roots vm e (slot v)
  vpd : ∀ e i, i < pdx utop → s.vpd (e, i) = (target roots vm (.pde e (Fin.ofNat 1024 i))).isSome
  high : ∀ e v, vpn utop ≤ v → s.vpt (e, v) = none
  bytes : ∀ e v w, s.vpt (e, v) = some w → ∀ i : Fin 4096, s.mem (ppn w) i = byteAt (vm.mem (ppn w)) i

variable {managed : Nat → Prop} {base : Nat} {roots : Roots} {vm vm' : Vm} {s : State}
variable {e b : EnvPtr} {root : Root} {v pp q : Nat} {va asid perm w : Word} {u : Unit}

theorem slot_vpn (va : Word) : slot (vpn va) = vpageOf va := by
  have small := pdx_lt va
  have small' := ptx_lt va
  rw [vpn_eq]
  refine Prod.ext (Fin.ext ?_) (Fin.ext ?_)
  · show (1024 * pdx va + ptx va) / 1024 % 1024 = pdx va
    omega
  · show (1024 * pdx va + ptx va) % 1024 = ptx va
    omega

theorem vpn_region (va : Word) : vpn va / 1024 = pdx va := by
  have small := ptx_lt va
  rw [vpn_eq]
  omega

theorem vpn_small (va : Word) : vpn va < 2 ^ 20 := by
  have upper := pdx_lt va
  have lower := ptx_lt va
  rw [vpn_eq]
  omega

theorem slot_inj {v' : Nat} (low : v < 2 ^ 20) (low' : v' < 2 ^ 20) (same : slot v = slot v') : v = v' := by
  have upper : v / 1024 % 1024 = v' / 1024 % 1024 := congrArg Fin.val (Prod.mk.inj same).1
  have lower : v % 1024 = v' % 1024 := congrArg Fin.val (Prod.mk.inj same).2
  omega

theorem vpn_user (user : va < utop) : vpn va < vpn utop := by
  have below : va.toNat < 0x7f400000 := user
  show va.toNat >>> 12 < 0x7f400
  rw [Nat.shiftRight_eq_div_pow]
  omega

theorem exists_va (low : v < vpn utop) : ∃ va : Word, va < utop ∧ vpn va = v := by
  have low : v < 0x7f400 := low
  have value : (BitVec.ofNat 32 (4096 * v)).toNat = 4096 * v := by
    rw [BitVec.toNat_ofNat]
    omega
  refine ⟨BitVec.ofNat 32 (4096 * v), ?_, ?_⟩
  · show (BitVec.ofNat 32 (4096 * v)).toNat < 0x7f400000
    omega
  · show (BitVec.ofNat 32 (4096 * v)).toNat >>> 12 = v
    rw [value, Nat.shiftRight_eq_div_pow]
    omega

theorem slot_own (low : v < vpn utop) : ¬ Shared (slot v).1 := by
  obtain ⟨va, user, rfl⟩ := exists_va low
  rw [slot_vpn]
  exact pdx_user user

theorem Mirrors.low (mirrors : Mirrors roots vm s) (found : s.vpt (e, v) = some w) : v < vpn utop := by
  by_contra high
  cases (mirrors.high e v (Nat.le_of_not_lt high)).symm.trans found

theorem Mirrors.names (mirrors : Mirrors roots vm s) (found : s.vpt (e, v) = some w) :
    target roots vm (.pte e (slot v).1 (slot v).2) = some (ppn w) := by
  have low := mirrors.low found
  rw [target_leaf (slot_own low), ← mirrors.vpt e v low, found, Option.map_some]

theorem Mirrors.unmapped (mirrors : Mirrors roots vm s) (unused : ∀ r, target roots vm r ≠ some pp) : Unmapped s pp := by
  rintro ⟨e, v⟩ w found rfl
  exact unused _ (mirrors.names found)

section Insert

theorem pageRemove_mem (pages : Pages managed base roots vm) (found : roots e = some root) (own : ¬ Shared (pdxFin va))
    (data : Data managed roots vm q) (h : pageRemove vm root.pgdir asid va = .ok u vm') : vm'.mem q = vm.mem q := by
  rcases pageLookup_cases vm root.pgdir va with no | has | stop
  · rw [pageRemove_none no] at h
    cases h
    rfl
  · have away : q ≠ ppn (pdeOf vm root.pgdir va) := fun eq =>
      data.notTable (.pde e (pdxFin va)) trivial (eq ▸ pages.hasTable found own has.table)
    rw [pageRemove_some has] at h
    obtain ⟨_, last, decref, h⟩ := Result.bind_ok h
    cases h
    show (last.write _ _).mem q = _
    rw [write_mem_ne last away, (pageDecref_tlb decref).1]
  · rw [pageRemove, stop] at h
    cases h

theorem pde_writePte (pages : Pages managed base roots vm) {i j k : Fin 1024} {t : Nat}
    (table : target roots vm (.pde e i) = some t) : target roots (vm.write ⟨t, j.val⟩ w) (.pde b k) = target roots vm (.pde b k) := by
  by_cases shared : Shared k
  · cases found : roots b <;> simp [target, found, shared]
  · rw [← tableOf_own shared, ← tableOf_own shared]
    exact tableOf_writePte pages table k

/-- What `page_insert` of `pp` does to the directories, and to `pp` and the pages that other entries name. -/
structure Inserted (roots : Roots) (vm vm' : Vm) (e : EnvPtr) (va : Word) (pp : Nat) : Prop where
  table : (target roots vm' (.pde e (pdxFin va))).isSome
  others : ∀ b i, (b, i) ≠ (e, pdxFin va) → target roots vm' (.pde b i) = target roots vm (.pde b i)
  page : vm'.mem pp = vm.mem pp
  words : ∀ b i j, Ref.pte b i j ≠ .pte e (pdxFin va) (ptxFin va) → ∀ q, target roots vm (.pte b i j) = some q →
    vm'.mem q = vm.mem q

theorem pageInsertNew_inserted (pages : Pages managed base roots vm) (found : roots e = some root) (own : ¬ Shared (pdxFin va))
    (fresh : Data managed roots vm pp) (h : pageInsertNew vm root.pgdir asid pp va perm = .ok u vm') :
    Inserted roots vm vm' e va pp := by
  have spares := pageInsertNew_spares pages found own fresh h
  obtain ⟨at_, mid, walk, h⟩ := Result.bind_ok h
  obtain ⟨t, rfl, walked⟩ := (pages.tlb asid va).walk found own walk
  obtain ⟨-, words⟩ := (pages.tlb asid va).walk_free found walk
  cases h
  have table : target roots mid (.pde e (pdxFin va)) = some t := by rw [walked.targets, Function.update_self]
  have same : ∀ b k, target roots ((mid.write ⟨t, ptx va⟩ (pteOf pp perm)).incRef pp) (.pde b k) = target roots mid (.pde b k) :=
    fun b k => pde_writePte (j := ptxFin va) walked.pages table
  refine ⟨?_, fun b i other => ?_, spares.words, fun b i j _ q full => ?_⟩
  · rw [same, table]
    rfl
  · rw [same, walked.targets, Function.update_of_ne fun eq => other ?_]
    · rfl
    · cases eq
      rfl
  · have data := pages.data full
    have data' : Data managed roots (tlbInvalidate vm asid va) q := ⟨data.mine, data.notTable, data.out⟩
    have away : q ≠ t := fun eq => (walked.data q data').1.notTable (.pde e (pdxFin va)) trivial (eq ▸ table)
    exact (write_mem_ne mid away _ _).trans (words q data')

theorem pageInsert_inserted (pages : Pages managed base roots vm) (found : roots e = some root) (own : ¬ Shared (pdxFin va))
    (fresh : Data managed roots vm pp) (h : pageInsert vm root.pgdir asid pp va perm = .ok u vm') : Inserted roots vm vm' e va pp := by
  have spares := pageInsert_spares pages found own fresh h
  obtain ⟨at_, mid, lookup, h⟩ := Result.bind_ok h
  obtain ⟨rfl, ⟨_, rfl⟩ | ⟨has, rfl⟩⟩ := pageLookup_ok lookup
  · exact pageInsertNew_inserted pages found own fresh h
  · have table := pages.hasTable found own has.table
    dsimp only at h
    split at h
    · rename_i other
      obtain ⟨_, left, remove, h⟩ := Result.bind_ok h
      have removed := pages.remove found own remove
      have full := pages.hasPage found own has
      have fresh' := removed.data fresh fun here => other (Option.some.inj (full.symm.trans here))
      have rest := pageInsertNew_inserted removed.pages found own fresh' h
      refine ⟨rest.table, fun b i apart => (rest.others b i apart).trans ?_, spares.words, fun b i j apart q there => ?_⟩
      · rw [removed.targets, Function.update_of_ne (by simp)]
      · have there' : target roots left (.pte b i j) = some q := by rw [removed.targets, Function.update_of_ne apart, there]
        exact (rest.words b i j apart q there').trans (pageRemove_mem pages found own (pages.data there) remove)
    · cases h
      have same : ∀ b k, target roots ((tlbInvalidate mid asid va).write ⟨ppn (pdeOf mid root.pgdir va), ptx va⟩ (pteOf pp perm))
          (.pde b k) = target roots mid (.pde b k) := fun b k => pde_writePte (j := ptxFin va) (pages.tlb asid va) table
      refine ⟨?_, fun b i _ => same b i, spares.words, fun b i j _ q there => ?_⟩
      · rw [same, table]
        rfl
      · have away : q ≠ ppn (pdeOf mid root.pgdir va) := by
          rintro rfl
          exact (pages.data there).notTable (.pde e (pdxFin va)) trivial table
        exact write_mem_ne _ away _ _

end Insert

section Steps

variable (pages : Pages managed base roots vm) (template : Template managed base roots vm) (found : roots e = some root)
variable (user : va < utop) (mirrors : Mirrors roots vm s)
include pages template found user mirrors

theorem Mirrors.insert (fresh : Data managed roots vm pp) (flags : FlagBits perm)
    (bytes : ∀ i : Fin 4096, s.mem pp i = byteAt (vm.mem pp) i) (h : pageInsert vm root.pgdir asid pp va perm = .ok u vm') :
    Mirrors roots vm' (s.setPte (e, vpn va) (pteOf pp perm)) := by
  have done := pageInsert_retargeted (.refl vm) rfl pages template found (pdx_user user) h
  have inserted := pageInsert_inserted pages found (pdx_user user) fresh h
  have small : pp < 2 ^ 20 := lt_of_lt_of_le (pages.bound pp fresh.mine) pages.small
  have frame : ppn (pteOf pp perm) = pp := ppn_pteOf small flags
  have here : (s.setPte (e, vpn va) (pteOf pp perm)).vpt (e, vpn va) = some (pteOf pp perm) := Function.update_self ..
  have others : ∀ x, x ≠ (e, vpn va) → (s.setPte (e, vpn va) (pteOf pp perm)).vpt x = s.vpt x := fun x ne =>
    Function.update_of_ne ne ..
  refine ⟨fun b v low => ?_, fun b i low => ?_, fun b v high => ?_, fun b v w there i => ?_⟩
  · by_cases same : (b, v) = (e, vpn va)
    · cases same
      rw [here, slot_vpn, done.here]
    · obtain ⟨va', user', rfl⟩ := exists_va low
      rw [others _ same, mirrors.vpt b _ low, slot_vpn]
      exact (done.others b va' user' fun eq => same (Prod.ext eq.1 eq.2)).symm
  · have small : i < 1024 := Nat.lt_trans low (pdx_lt utop)
    show Function.update s.vpd (e, vpn va / 1024) true (b, i) = _
    rw [vpn_region]
    by_cases same : (b, i) = (e, pdx va)
    · cases same
      have table : (Fin.ofNat 1024 (pdx va)) = pdxFin va := Fin.ext (Nat.mod_eq_of_lt small)
      rw [Function.update_self, table]
      exact inserted.table.symm
    · have apart : (b, Fin.ofNat 1024 i) ≠ (e, pdxFin va) := by
        intro eq
        have index : i % 1024 = pdx va := congrArg Fin.val (Prod.mk.inj eq).2
        rw [Nat.mod_eq_of_lt small] at index
        exact same (Prod.ext (Prod.mk.inj eq).1 index)
      rw [Function.update_of_ne same, inserted.others b _ apart]
      exact mirrors.vpd b i low
  · rw [others _ fun eq => ?_]
    · exact mirrors.high b v high
    · cases eq
      exact absurd (vpn_user user) (Nat.not_lt.mpr high)
  · by_cases same : (b, v) = (e, vpn va)
    · cases same
      rw [here] at there
      cases there
      rw [frame, inserted.page]
      exact bytes i
    · rw [others _ same] at there
      have full := mirrors.names there
      have apart : Ref.pte b (slot v).1 (slot v).2 ≠ .pte e (pdxFin va) (ptxFin va) := by
        intro eq
        obtain ⟨rfl, upper, lower⟩ := Ref.pte.inj eq
        have eq : slot v = slot (vpn va) := (Prod.ext upper lower).trans (slot_vpn va).symm
        exact same (Prod.ext rfl (slot_inj (Nat.lt_trans (mirrors.low there) (by decide)) (vpn_small va) eq))
      rw [inserted.words b _ _ apart _ full]
      exact mirrors.bytes b v w there i

theorem Mirrors.remove (h : pageRemove vm root.pgdir asid va = .ok u vm') : Mirrors roots vm' (s.sysMemUnmap (e, vpn va)) := by
  have done := pageRemove_retargeted pages template found (pdx_user user) h
  have removed := pages.remove found (pdx_user user) h
  have here : (s.sysMemUnmap (e, vpn va)).vpt (e, vpn va) = none := Function.update_self ..
  have others : ∀ x, x ≠ (e, vpn va) → (s.sysMemUnmap (e, vpn va)).vpt x = s.vpt x := fun x ne => Function.update_of_ne ne ..
  refine ⟨fun b v low => ?_, fun b i low => ?_, fun b v high => ?_, fun b v w there i => ?_⟩
  · by_cases same : (b, v) = (e, vpn va)
    · cases same
      rw [here, slot_vpn, done.here]
    · obtain ⟨va', user', rfl⟩ := exists_va low
      rw [others _ same, mirrors.vpt b _ low, slot_vpn]
      exact (done.others b va' user' fun eq => same (Prod.ext eq.1 eq.2)).symm
  · rw [removed.targets, Function.update_of_ne (by simp)]
    exact mirrors.vpd b i low
  · rw [others _ fun eq => ?_]
    · exact mirrors.high b v high
    · cases eq
      exact absurd (vpn_user user) (Nat.not_lt.mpr high)
  · by_cases same : (b, v) = (e, vpn va)
    · cases same
      cases here.symm.trans there
    · rw [others _ same] at there
      rw [pageRemove_mem pages found (pdx_user user) (pages.data (mirrors.names there)) h]
      exact mirrors.bytes b v w there i

end Steps

theorem Mirrors.fill {words : Nat → Word} {page : Contents} (mirrors : Mirrors roots vm s) (pages : Pages managed base roots vm)
    (template : Template managed base roots vm) (mine : managed q) (notTable : ∀ r, r.Table → target roots vm r ≠ some q)
    (mem : vm'.mem = Function.update vm.mem q words) (bytes : ∀ i : Fin 4096, page i = byteAt words i) :
    Mirrors roots vm' { s with mem := Function.update s.mem q page } := by
  have away : ∀ p, p ≠ q → vm'.mem p = vm.mem p := fun p ne => by rw [mem, Function.update_of_ne ne]
  have tables : ∀ r p, r.Table → target roots vm r = some p → vm'.mem p = vm.mem p := fun r p kind full =>
    away p fun eq => notTable r kind (eq ▸ full)
  have outside : ∀ p, ¬ managed p → vm'.mem p = vm.mem p := fun p out => away p fun eq => out (eq ▸ mine)
  refine ⟨fun b v low => ?_, fun b i low => ?_, mirrors.high, fun b v w there i => ?_⟩
  · rw [leaf_congr pages template tables outside]
    exact mirrors.vpt b v low
  · rw [target_congr tables]
    exact mirrors.vpd b i low
  · show Function.update s.mem q page (ppn w) i = _
    by_cases same : ppn w = q
    · rw [same, mem, Function.update_self, Function.update_self]
      exact bytes i
    · rw [Function.update_of_ne same, away _ same]
      exact mirrors.bytes b v w there i

theorem byteAt_zero {words : Nat → Word} (zero : ∀ i, words i = 0) (off : Nat) : byteAt words off = 0 := by
  rw [byteAt, zero]
  simp

theorem Mirrors.alloc (mirrors : Mirrors roots vm s) (pages : Pages managed base roots vm) (template : Template managed base roots vm)
    (h : pageAlloc vm = .ok pp vm') :
    Mirrors roots vm' { s with mem := Function.update s.mem pp fun _ => 0 } ∧ Unmapped s pp ∧ pp < 2 ^ 20 := by
  obtain ⟨pages', same, fresh, -, -⟩ := pages.alloc h
  obtain ⟨rest, -, -, rfl⟩ := pageAlloc_ok h
  have unused : ∀ r, target roots vm r ≠ some pp := fun r full => fresh.unused r (same ▸ full)
  refine ⟨mirrors.fill pages template fresh.managed (fun r _ => unused r) rfl fun i => ?_, mirrors.unmapped unused,
    lt_of_lt_of_le (pages'.bound pp fresh.managed) pages'.small⟩
  exact (byteAt_zero (fun _ => rfl) i.val).symm

theorem Mirrors.allocInsert {mid : Vm} (mirrors : Mirrors roots vm s) (pages : Pages managed base roots vm)
    (template : Template managed base roots vm) (found : roots e = some root) (user : va < utop) (flags : FlagBits perm)
    (alloc : pageAlloc vm = .ok pp mid) (insert : pageInsert mid root.pgdir asid pp va perm = .ok u vm') :
    Mirrors roots vm' (s.sysMemAlloc (e, vpn va) perm pp) ∧ Unmapped s pp ∧ pp < 2 ^ 20 := by
  obtain ⟨mirrors', rest⟩ := mirrors.alloc pages template alloc
  obtain ⟨pages', -, fresh, zero, -⟩ := pages.alloc alloc
  have moves : Moves managed roots e asid (Near va) vm mid := pageAlloc_moves pages template alloc
  refine ⟨mirrors'.insert pages' (moves.template pages template) found user fresh.data flags (fun i => ?_) insert, rest⟩
  show Function.update s.mem pp _ pp i = _
  rw [Function.update_self, byteAt_zero zero]

section Refill

variable {pte : PtePtr} {victim : Nat}

theorem Mirrors.sameMem (mirrors : Mirrors roots vm s) (mem : vm'.mem = vm.mem) : Mirrors roots vm' s := by
  refine ⟨fun b v low => ?_, fun b i low => ?_, mirrors.high, fun b v w there i => ?_⟩
  · rw [leaf_of_mem mem]
    exact mirrors.vpt b v low
  · rw [target_of_mem mem]
    exact mirrors.vpd b i low
  · rw [mem]
    exact mirrors.bytes b v w there i

theorem pteAddr_user (user : va < utop) : pteAddr va < utop := by
  have less : (pteAddr va).toNat ≤ va.toNat := by
    rw [pteAddr, BitVec.toNat_and]
    exact Nat.and_le_left
  exact lt_of_le_of_lt less user

theorem Mirrors.refill (mirrors : Mirrors roots vm s) (pages : Pages managed base roots vm) (template : Template managed base roots vm)
    (found : roots e = some root) (user : va < utop) (h : doTlbRefill va root.pgdir asid victim vm = .ok u vm') :
    Mirrors roots vm' s ∧ (s.vpt (e, vpn va)).isSome ∨ ∃ pp, Mirrors roots vm' (s.sysMemAlloc (e, vpn va) pteD pp) ∧
      s.vpt (e, vpn va) = none ∧ Unmapped s pp ∧ pp < 2 ^ 20 := by
  have own := pdx_user user
  have empty : ∀ {vm : Vm}, Pages managed base roots vm → Mirrors roots vm s → NoPage vm root.pgdir va → s.vpt (e, vpn va) = none := by
    intro vm pages mirrors no
    have none := pages.noPage found own no
    rw [target_leaf own, Option.map_eq_none_iff] at none
    rw [mirrors.vpt e _ (vpn_user user), slot_vpn]
    exact none
  have full : ∀ {vm : Vm}, Pages managed base roots vm → Mirrors roots vm s → HasPage vm root.pgdir va →
      (s.vpt (e, vpn va)).isSome := by
    intro vm pages mirrors has
    have some := pages.hasPage found own has
    rw [target_leaf own] at some
    rw [mirrors.vpt e _ (vpn_user user), slot_vpn]
    obtain ⟨w, there, -⟩ := Option.map_eq_some_iff.mp some
    exact there ▸ rfl
  obtain ⟨pte, mid, refill, h⟩ := Result.bind_ok h
  cases h
  have before : Mirrors roots (tlbInvalidate vm asid va) s := mirrors.sameMem rfl
  have pages := pages.tlb asid va
  obtain ⟨at_, same, lookup, refill⟩ := Result.bind_ok refill
  obtain ⟨rfl, ⟨no, rfl⟩ | ⟨has, rfl⟩⟩ := pageLookup_ok lookup
  · obtain ⟨_, left, passive, refill⟩ := Result.bind_ok refill
    obtain ⟨pp, fresh, alloc, insert⟩ := passiveAlloc_ok passive
    have outside : pdx va ≠ pdx uvpt := by
      intro eq
      have window : pdxFin va = windowFin := Fin.ext eq
      rw [window] at own
      exact own ⟨by decide, le_refl _⟩
    have insert := (insert.resolve_left fun window => outside window.1).2
    have same : vpn (pteAddr va) = vpn va := by rw [vpn_eq, vpn_eq, pdx_pteAddr, ptx_pteAddr]
    have filled : Mirrors roots left (s.sysMemAlloc (e, vpn (pteAddr va)) pteD pp) ∧ Unmapped s pp ∧ pp < 2 ^ 20 :=
      before.allocInsert pages ⟨template.copied, template.outside⟩ found (pteAddr_user user) (by decide) alloc insert
    rw [same] at filled
    obtain ⟨at_', same', lookup', refill⟩ := Result.bind_ok refill
    obtain ⟨rfl, ⟨-, rfl⟩ | ⟨-, rfl⟩⟩ := pageLookup_ok lookup'
    · -- it does not try a third time
      obtain ⟨_, _, _, refill⟩ := Result.bind_ok refill
      cases refill
    · cases refill
      exact .inr ⟨pp, filled.1.sameMem rfl, empty pages before no, filled.2⟩
  · cases refill
    exact .inl ⟨before.sameMem rfl, full pages before has⟩

end Refill

section Machine

variable {k k' : Kernel} {cur : EnvPtr} {op : MachineOp}

def called (tf : Trapframe) (out : Outside) : Option Call := (syscallAt (Args.of tf out.load) out (tf.regs 4).toNat).bind Sum.getLeft?

/-- What a step of the machine does to the pages of the envs. -/
inductive Does (k : Kernel) (cur : EnvPtr) (s : State) : MachineOp → State → Prop where
  | store {va : Word} {byte : BitVec 8} {t : State} (idle : t.handler = s.handler)
      (stored : store cur (vpn va) ⟨va.toNat % 4096, Nat.mod_lt _ (by decide)⟩ byte s = some t) : Does k cur s (.store va byte) t
  | refilled {va : Word} {victim : Nat} (there : (s.vpt (cur, vpn va)).isSome) : Does k cur s (.tlbRefill va victim) s
  | refill {va : Word} {victim pp : Nat} (absent : s.vpt (cur, vpn va) = none) (unmapped : Unmapped s pp) (small : pp < 2 ^ 20) :
      Does k cur s (.tlbRefill va victim) (s.sysMemAlloc (cur, vpn va) pteD pp)
  | memAlloc {tf : Trapframe} {out : Outside} {envid va perm : Word} {e : EnvPtr} {pp : Nat}
      (call : called tf out = some (.memAlloc envid va perm)) (found : envid2env k cur envid true = .ok e)
      (unmapped : Unmapped s pp) (small : pp < 2 ^ 20) : Does k cur s (.syscall tf out) (s.sysMemAlloc (e, vpn va) perm pp)
  | memMap {tf : Trapframe} {out : Outside} {srcid srcva dstid dstva perm : Word} {src dst : EnvPtr} {t : State}
      (call : called tf out = some (.memMap srcid srcva dstid dstva perm)) (source : envid2env k cur srcid true = .ok src)
      (target : envid2env k cur dstid true = .ok dst) (mapped : s.sysMemMap (src, vpn srcva) (dst, vpn dstva) perm = some t) :
      Does k cur s (.syscall tf out) t
  | memUnmap {tf : Trapframe} {out : Outside} {envid va : Word} {e : EnvPtr} (call : called tf out = some (.memUnmap envid va))
      (found : envid2env k cur envid true = .ok e) : Does k cur s (.syscall tf out) (s.sysMemUnmap (e, vpn va))

/-- A store or a TLB miss of the env that runs, or one of its calls of `sys_mem_alloc`, `sys_mem_map` and `sys_mem_unmap`
    that returns 0. -/
def OnPages (k' : Kernel) : MachineOp → Prop
  | .store va _ => va < utop
  | .tlbRefill va _ => va < utop
  | .syscall tf _ => (tf.regs 4 = 6 ∨ tf.regs 4 = 7 ∨ tf.regs 4 = 8) ∧ k'.tf.regs 2 = 0
  | _ => False

theorem translate_leaf (pages : PageInv managed k) (env : EnvInv k) (current : k.curenv = some cur) (user : va < utop)
    (seen : translate k.vm (k.envs cur).envPgdir va = some w) : leaf (rootsOf k) k.vm cur (vpageOf va) = some w := by
  have own := pdx_user user
  have found := rootsOf_used (env.current_used current)
  unfold translate at seen
  split at seen
  · cases seen
  · rename_i mapped
    cases seen
    obtain ⟨present, valid⟩ := not_or.mp mapped
    have table : tableOf (rootsOf k) k.vm cur (pdxFin va) = some (ppn (pdeOf k.vm (k.envs cur).envPgdir va)) := by
      rw [tableOf_found found, entry, pageOf_some]
      exact ⟨(pages.pages.whole cur _ (pdxFin va) found own).resolve_left present, rfl⟩
    rw [vpageOf, leaf_table table]
    exact leafOf_some.mpr valid

section Steps

variable (pages : PageInv managed k) (template : Template managed k.basePgdir (rootsOf k) k.vm) (env : EnvInv k)
variable (current : k.curenv = some cur) (mirrors : Mirrors (rootsOf k) k.vm s)
include pages template env current mirrors

theorem storeByte_mirrors {byte : BitVec 8} (user : va < utop) (h : storeBytes cur [(va, byte)] k = some k') :
    ∃ t, Does k cur s (.store va byte) t ∧ Mirrors (rootsOf k') k'.vm t := by
  obtain ⟨w, seen, h⟩ := Option.bind_eq_some_iff.mp h
  split at h
  · cases h
  · rename_i dirty
    cases h
    have there : s.vpt (cur, vpn va) = some w := by
      rw [mirrors.vpt cur _ (vpn_user user), slot_vpn]
      exact translate_leaf pages env current user seen
    have data := pages.pages.data (mirrors.names there)
    let i : Fin 4096 := ⟨va.toNat % 4096, Nat.mod_lt _ (by decide)⟩
    refine ⟨{ s with mem := Function.update s.mem (ppn w) (Function.update (s.mem (ppn w)) i byte) }, .store rfl ?_,
      mirrors.fill pages.pages template data.mine data.notTable rfl fun j => ?_⟩
    · unfold store
      rw [there]
      dsimp only
      rw [if_pos dirty]
    · rw [byteAt_setByte]
      by_cases here : j = i
      · rw [here, Function.update_self, if_pos rfl]
      · rw [Function.update_of_ne here, if_neg fun eq => here (Fin.ext eq)]
        exact mirrors.bytes cur _ w there j

theorem tlbRefill_mirrors {victim : Nat} (user : va < utop) (h : machineStep k (.tlbRefill va victim) = some k') :
    ∃ t, Does k cur s (.tlbRefill va victim) t ∧ Mirrors (rootsOf k') k'.vm t := by
  obtain ⟨c, running, h⟩ := Option.bind_eq_some_iff.mp h
  obtain rfl := Option.some.inj (current.symm.trans running)
  cases result : k.withVm (doTlbRefill va k.curPgdir (asidWord (k.envs cur).envAsid) victim k.vm) with
  | ok u mid =>
    rw [result] at h
    cases h
    obtain ⟨vm, refilled, rfl⟩ := withVm_ok result
    rw [pages.space cur current] at refilled
    rcases mirrors.refill pages.pages template (rootsOf_used (env.current_used current)) user refilled with
      ⟨same, there⟩ | ⟨pp, filled, absent, unmapped, small⟩
    · exact ⟨s, .refilled there, same⟩
    · exact ⟨_, .refill absent unmapped small, filled⟩
  | err code mid => exact absurd (withVm_err result) fun ⟨vm, failed, _⟩ => doTlbRefill_noErr va _ _ victim _ code vm failed
  | stop cause =>
    rw [result] at h
    cases h

theorem sysMemAlloc_mirrors {envid : Word} {r : Option Word} (flags : FlagBits perm) (h : sysMemAlloc cur envid va perm k = .ok r k') :
    ∃ e pp, envid2env k cur envid true = .ok e ∧ Unmapped s pp ∧ pp < 2 ^ 20 ∧
      Mirrors (rootsOf k') k'.vm (s.sysMemAlloc (e, vpn va) perm pp) := by
  obtain ⟨user, e, pp, vm, vm', found, alloc, insert, rfl⟩ := sysMemAlloc_ok h
  obtain ⟨done, unmapped, small⟩ :=
    mirrors.allocInsert pages.pages template (rootsOf_used (env.target_used current found)) user flags alloc insert
  exact ⟨e, pp, found, unmapped, small, done⟩

theorem sysMemMap_mirrors {srcid srcva dstid dstva : Word} {r : Option Word} (flags : FlagBits perm)
    (h : sysMemMap cur srcid srcva dstid dstva perm k = .ok r k') : ∃ src dst t, envid2env k cur srcid true = .ok src ∧
      envid2env k cur dstid true = .ok dst ∧ s.sysMemMap (src, vpn srcva) (dst, vpn dstva) perm = some t ∧
      Mirrors (rootsOf k') k'.vm t := by
  obtain ⟨user, user', src, dst, vm', source, target, has, insert, rfl⟩ := sysMemMap_ok h
  have full := pages.pages.hasPage (rootsOf_used (env.target_used current source)) (pdx_user user) has
  have named := full
  rw [target_leaf (pdx_user user), Option.map_eq_some_iff] at named
  obtain ⟨w, there, frame⟩ := named
  have there : s.vpt (src, vpn srcva) = some w := by
    rw [mirrors.vpt src _ (vpn_user user), slot_vpn]
    exact there
  rw [← frame] at insert
  refine ⟨src, dst, s.setPte (dst, vpn dstva) (pteOf (ppn w) perm), source, target, by rw [State.sysMemMap, there, Option.map_some], ?_⟩
  exact mirrors.insert pages.pages template (rootsOf_used (env.target_used current target)) user'
    (pages.pages.data (mirrors.names there)) flags (mirrors.bytes src _ w there) insert

theorem sysMemUnmap_mirrors {envid : Word} {r : Option Word} (h : sysMemUnmap cur envid va k = .ok r k') :
    ∃ e, envid2env k cur envid true = .ok e ∧ Mirrors (rootsOf k') k'.vm (s.sysMemUnmap (e, vpn va)) := by
  obtain ⟨user, e, vm', found, remove, rfl⟩ := sysMemUnmap_ok h
  exact ⟨e, found, mirrors.remove pages.pages template (rootsOf_used (env.target_used current found)) user remove⟩

end Steps

/-- The page tables and the pages of memory follow the model: in every run of the machine, what a store, a TLB miss or a
    successful mapping call does to the pages of all envs is what the same step does there. -/
theorem step_mirrors {npage : Nat} {mem : Nat → Nat → Word} {k0 : Kernel} {ops : List MachineOp} (small : npage ≤ 2 ^ 20)
    (booted : boot npage mem = some k0) (run : Run machineStep MachineGuard k0 ops k) (current : k.curenv = some cur)
    (mirrors : Mirrors (rootsOf k) k.vm s) (meets : MachineGuard k op) (next : machineStep k op = some k') (on : OnPages k' op) :
    ∃ t, Does k cur s op t ∧ Mirrors (rootsOf k') k'.vm t := by
  have inv := machineRun_inv small booted run
  have env := inv.env
  obtain ⟨managed, pages, tlb⟩ := inv.pages
  cases op with
  | store va byte =>
    obtain ⟨c, running, next⟩ := Option.bind_eq_some_iff.mp next
    obtain rfl := Option.some.inj (current.symm.trans running)
    exact storeByte_mirrors pages tlb.template env current mirrors on next
  | tlbRefill va victim => exact tlbRefill_mirrors pages tlb.template env current mirrors on next
  | syscall tf out =>
    obtain ⟨number, zero⟩ := on
    obtain ⟨c, running, next⟩ := Option.bind_eq_some_iff.mp next
    obtain rfl := Option.some.inj (current.symm.trans running)
    have pages' := pages.trap tf
    have env' : EnvInv (k.trap tf) := env.setFrame _
    let a := Args.of tf out.load
    have entered : ∀ {call}, called tf out = some call → syscallAt (Args.of tf out.load) out (tf.regs 4).toNat = some (.inl call) := by
      intro call found
      obtain ⟨entry, there, left⟩ := Option.bind_eq_some_iff.mp found
      cases entry <;> cases left
      exact there
    have valid : ¬ ((tf.regs 4).toInt < 0 ∨ maxSysno ≤ (tf.regs 4).toInt) := by
      rcases number with eq | eq | eq <;> rw [eq] <;> decide
    have calls : ∀ {call}, called tf out = some call → doSyscall cur tf call k = some k' := by
      intro call found
      rw [doAnySyscall, if_neg valid, entered found] at next
      exact next
    rcases number with number | number | number
    · have call : called tf out = some (.memAlloc a.arg1 a.arg2 a.arg3) := by
        rw [called, number]
        rfl
      have flags := meets _ (entered call)
      obtain ⟨r, mid, ok, eq⟩ := doSyscall_zero (.memAlloc a.arg1 a.arg2 a.arg3) (fun _ _ => sysMemAlloc_code)
        (calls call) zero
      obtain ⟨e, pp, found, unmapped, small, done⟩ :=
        sysMemAlloc_mirrors (k := k.trap tf) pages' tlb.template env' current mirrors flags ok
      exact ⟨_, .memAlloc call found unmapped small, eq ▸ done⟩
    · have call : called tf out = some (.memMap a.arg1 a.arg2 a.arg3 a.arg4 a.arg5) := by
        rw [called, number]
        rfl
      have flags := (meets _ (entered call)).1
      obtain ⟨r, mid, ok, eq⟩ := doSyscall_zero (.memMap a.arg1 a.arg2 a.arg3 a.arg4 a.arg5) (fun _ _ => sysMemMap_code)
        (calls call) zero
      obtain ⟨src, dst, t, source, target, mapped, done⟩ :=
        sysMemMap_mirrors (k := k.trap tf) pages' tlb.template env' current mirrors flags ok
      exact ⟨t, .memMap call source target mapped, eq ▸ done⟩
    · have call : called tf out = some (.memUnmap a.arg1 a.arg2) := by
        rw [called, number]
        rfl
      obtain ⟨r, mid, ok, eq⟩ := doSyscall_zero (.memUnmap a.arg1 a.arg2) (fun _ _ => sysMemUnmap_code)
        (calls call) zero
      obtain ⟨e, found, done⟩ := sysMemUnmap_mirrors (k := k.trap tf) pages' tlb.template env' current mirrors ok
      exact ⟨_, .memUnmap call found, eq ▸ done⟩
  | _ => exact on.elim

/-- The envs of a kernel, all outside `fork`. -/
def stateOf (roots : Roots) (vm : Vm) : State where
  stage _ := .user
  handler _ := none
  tlbModEntry _ := false
  vpd x := (target roots vm (.pde x.1 (Fin.ofNat 1024 x.2))).isSome
  vpt x := if x.2 < vpn utop then leaf roots vm x.1 (slot x.2) else none
  mem pp i := byteAt (vm.mem pp) i

theorem stateOf_mirrors (roots : Roots) (vm : Vm) : Mirrors roots vm (stateOf roots vm) :=
  ⟨fun _ _ low => if_pos low, fun _ _ _ => rfl, fun _ _ high => if_neg (Nat.not_lt.mpr high), fun _ _ _ _ _ => rfl⟩

/-- The first env touches a page. -/
theorem step_mirrors_refill : ∃ k0 k k' t, clearBoot = some k0 ∧ Run machineStep MachineGuard k0 startRun k ∧
    machineStep k (.tlbRefill 0x500000 0) = some k' ∧ Does k 0 (stateOf (rootsOf k) k.vm) (.tlbRefill 0x500000 0) t ∧
    Mirrors (rootsOf k') k'.vm t := by
  have check : (clearBoot.bind fun k0 => (Run.exec machineStep k0 startRun).bind fun k =>
      (machineStep k (.tlbRefill 0x500000 0)).map fun _ => k.curenv) = some (some 0) := by
    rw [clearBoot_eq]
    decide +kernel
  obtain ⟨k0, booted, check⟩ := Option.bind_eq_some_iff.mp check
  obtain ⟨k, exec, check⟩ := Option.bind_eq_some_iff.mp check
  obtain ⟨k', next, current⟩ := Option.map_eq_some_iff.mp check
  have run : Run machineStep MachineGuard k0 startRun k := by
    refine Run.of_exec (fun op mem t => ?_) exec
    simp only [startRun, List.mem_cons, List.not_mem_nil, or_false] at mem
    rcases mem with rfl | rfl
    · intro page inside
      cases inside
    · trivial
  have user : (0x500000 : Word) < utop := by decide
  have meets : MachineGuard k (.tlbRefill 0x500000 0) := trivial
  obtain ⟨t, does, mirrors⟩ := step_mirrors (by decide) booted run current (stateOf_mirrors _ _) meets next user
  exact ⟨k0, k, k', t, booted, run, next, does, mirrors⟩

end Machine

end Mos.Cow
