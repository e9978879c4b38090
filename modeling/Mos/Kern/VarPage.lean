import Mos.Kern.LeafStep
import Mos.Kern.Translate

namespace Mos

/-- The contents and the reference count of `v` stay. -/
structure Keeps (v : Nat) (vm vm' : Vm) : Prop where
  mem : vm'.mem v = vm.mem v
  ref : vm'.ppRef v = vm.ppRef v

/-- The variables of `b` are on the page `v`, to which nothing else refers. -/
structure VarPage (roots : Roots) (vm : Vm) (b : EnvPtr) (v : Nat) : Prop where
  full : target roots vm (.vars b) = some v
  once : vm.ppRef v = 1

variable {managed : Nat → Prop} {base : Nat} {roots roots' : Roots} {vm vm' vm'' : Vm}
variable {b e : EnvPtr} {v pp : Nat} {root : Root} {asid va perm : Word} {u : Unit}

theorem Keeps.refl (v : Nat) (vm : Vm) : Keeps v vm vm := ⟨rfl, rfl⟩

theorem Keeps.trans (first : Keeps v vm vm') (second : Keeps v vm' vm'') : Keeps v vm vm'' :=
  ⟨second.mem.trans first.mem, second.ref.trans first.ref⟩

namespace VarPage

theorem keep (page : VarPage roots vm b v) (same : roots' b = roots b) (keeps : Keeps v vm vm') :
    VarPage roots' vm' b v := by
  refine ⟨?_, keeps.ref.trans page.once⟩
  have full := page.full
  simp only [target] at full ⊢
  rw [same]
  exact full

theorem sole (page : VarPage roots vm b v) (pages : Pages managed base roots vm) {r : Ref}
    (there : target roots vm r = some v) : r = .vars b := by
  have counted := pages.accounts.counted v (pages.owned _ _ page.full)
  have one : RefCount.refs (target roots vm) v = 1 := by
    rw [← counted, page.once]
    rfl
  exact Finset.card_le_one.mp one.le r (by simp [there]) (.vars b) (by simp [page.full])

theorem ne (page : VarPage roots vm b v) (pages : Pages managed base roots vm) {r : Ref} {q : Nat}
    (there : target roots vm r = some q) (other : ∀ b, r ≠ .vars b) : v ≠ q := by
  rintro rfl
  exact other b (page.sole pages there)

theorem data (page : VarPage roots vm b v) (pages : Pages managed base roots vm) : Data managed roots vm v := by
  refine ⟨pages.owned _ _ page.full, fun r kind there => ?_, pages.accounts.busy page.full⟩
  rw [page.sole pages there] at kind
  exact kind

theorem flush (page : VarPage roots vm b v) (asid va : Word) : VarPage roots (tlbInvalidate vm asid va) b v :=
  page.keep rfl ⟨rfl, rfl⟩

end VarPage

theorem pageAlloc_keeps (out : v ∉ vm.pageFreeList) (h : pageAlloc vm = .ok pp vm') : Keeps v vm vm' ∧ v ≠ pp := by
  obtain ⟨rest, list, _, rfl⟩ := pageAlloc_ok h
  have other : v ≠ pp := fun eq => out (by simp [list, eq])
  exact ⟨⟨Function.update_of_ne other _ _, rfl⟩, other⟩

theorem write_keeps (vm : Vm) {t : Nat} (away : v ≠ t) (j : Nat) (w : Word) : Keeps v vm (vm.write ⟨t, j⟩ w) :=
  ⟨write_mem_ne vm away j w, rfl⟩

theorem incRef_keeps (vm : Vm) (away : v ≠ pp) : Keeps v vm (vm.incRef pp) :=
  ⟨rfl, by simp [Vm.incRef, Vm.setRef, away]⟩

theorem pageDecref_keeps (away : v ≠ pp) (h : pageDecref vm pp = .ok u vm') : Keeps v vm vm' := by
  refine ⟨congrFun (pageDecref_tlb h).1 v, ?_⟩
  rcases pageDecref_cases vm pp with ⟨_, eq⟩ | ⟨_, eq⟩ | ⟨_, eq⟩ <;> rw [eq] at h <;> cases h
  · exact Function.update_of_ne away _ _
  · exact Function.update_of_ne away _ _

section Walks

variable (pages : Pages managed base roots vm) (page : VarPage roots vm b v) (found : roots e = some root)
  (own : ¬ Shared (pdxFin va))
include pages page found own

theorem pageRemove_keeps (h : pageRemove vm root.pgdir asid va = .ok u vm') : Keeps v vm vm' := by
  rcases pageLookup_cases vm root.pgdir va with no | has | stop
  · rw [pageRemove_none no] at h
    cases h
    exact .refl v vm
  · rw [pageRemove_some has] at h
    obtain ⟨_, mid, decref, h⟩ := Result.bind_ok h
    cases h
    have away := page.ne pages (pages.hasPage found own has) fun b eq => by cases eq
    have table := page.ne pages (pages.hasTable found own has.table) fun b eq => by cases eq
    exact (pageDecref_keeps away decref).trans ⟨write_mem_ne mid table _ _, rfl⟩
  · rw [pageRemove, stop] at h
    cases h

theorem pageInsertNew_keeps (away : v ≠ pp) (h : pageInsertNew vm root.pgdir asid pp va perm = .ok u vm') :
    Keeps v vm vm' := by
  obtain ⟨at_, mid, walk, h⟩ := Result.bind_ok h
  obtain ⟨t, rfl, walked⟩ := (pages.tlb asid va).walk found own walk
  obtain ⟨_, words⟩ := (pages.tlb asid va).walk_free found walk
  cases h
  have data := (page.flush asid va).data (pages.tlb asid va)
  have table : target roots mid (.pde e (pdxFin va)) = some t := by rw [walked.targets, Function.update_self]
  have walks : Keeps v vm mid := ⟨words v data, (walked.data v data).2⟩
  have other : v ≠ t := fun eq => (walked.data v data).1.notTable (.pde e (pdxFin va)) trivial (eq ▸ table)
  exact walks.trans ((write_keeps mid other _ _).trans (incRef_keeps _ away))

theorem pageInsert_keeps (away : v ≠ pp) (h : pageInsert vm root.pgdir asid pp va perm = .ok u vm') :
    Keeps v vm vm' := by
  obtain ⟨at_, mid, lookup, h⟩ := Result.bind_ok h
  obtain ⟨rfl, ⟨_, rfl⟩ | ⟨has, rfl⟩⟩ := pageLookup_ok lookup
  · exact pageInsertNew_keeps pages page found own away h
  · dsimp only at h
    split at h
    · obtain ⟨_, left, remove, h⟩ := Result.bind_ok h
      have removes := pageRemove_keeps pages page found own remove
      have removed := pages.remove found own remove
      exact removes.trans (pageInsertNew_keeps removed.pages (page.keep rfl removes) found own away h)
    · cases h
      have table := page.ne pages (pages.hasTable found own has.table) fun b eq => by cases eq
      exact ⟨write_mem_ne _ table _ _, rfl⟩

theorem pageInsert_state_keeps (away : v ≠ pp) (h : (pageInsert vm root.pgdir asid pp va perm).state = some vm') :
    Keeps v vm vm' := by
  rcases pageInsert_state_cases h with inserted | ⟨mid, before, rfl⟩
  · exact pageInsert_keeps pages page found own away inserted
  · rcases before with rfl | remove
    · exact ⟨rfl, rfl⟩
    · exact (pageRemove_keeps pages page found own remove).trans ⟨rfl, rfl⟩

end Walks

theorem passiveAlloc_keeps (pages : Pages managed base roots vm) (page : VarPage roots vm b v) (found : roots e = some root)
    (no : NoPage vm root.pgdir va) (h : passiveAlloc va root.pgdir asid vm = .ok u vm') : Keeps v vm vm' := by
  obtain ⟨pp, mid, alloc, insert⟩ := passiveAlloc_ok h
  obtain ⟨pagesMid, _, _, _, _⟩ := pages.alloc alloc
  obtain ⟨first, away⟩ := pageAlloc_keeps (page.data pages).out alloc
  have pageMid := page.keep rfl first
  rcases insert with ⟨window, insert⟩ | ⟨user, insert⟩
  · obtain ⟨index, none⟩ := pages.passive_window found no alloc window
    rw [pagesMid.insertTable_eq found index none insert]
    have dir := pageMid.ne pagesMid (target_pgdir found) fun b eq => by cases eq
    have flushed : Keeps v mid (tlbInvalidate mid asid (pteAddr va)) := ⟨rfl, rfl⟩
    exact first.trans (flushed.trans ((write_keeps _ dir _ _).trans (incRef_keeps _ away)))
  · have own : ¬ Shared (pdxFin (pteAddr va)) := by
      rw [pdxFin_pteAddr]
      exact pdx_user user
    exact first.trans (pageInsert_keeps pagesMid pageMid found own away insert)

theorem refillLookup_keeps {pte : PtePtr} {fuel : Nat} (pages : Pages managed base roots vm) (page : VarPage roots vm b v)
    (found : roots e = some root) (h : refillLookup va root.pgdir asid fuel vm = .ok pte vm') : Keeps v vm vm' := by
  induction fuel generalizing vm with
  | zero => cases h
  | succ fuel ih =>
    obtain ⟨at_, mid, lookup, h⟩ := Result.bind_ok h
    obtain ⟨rfl, ⟨no, rfl⟩ | ⟨has, rfl⟩⟩ := pageLookup_ok lookup
    · obtain ⟨_, left, passive, h⟩ := Result.bind_ok h
      have first := passiveAlloc_keeps pages page found no passive
      exact first.trans (ih (pages.passive found no passive) (page.keep rfl first) h)
    · cases h
      exact .refl v _

theorem doTlbRefill_keeps {victim : Nat} (pages : Pages managed base roots vm) (page : VarPage roots vm b v)
    (found : roots e = some root) (h : doTlbRefill va root.pgdir asid victim vm = .ok u vm') : Keeps v vm vm' := by
  obtain ⟨pte, mid, refill, h⟩ := Result.bind_ok h
  cases h
  have walked := refillLookup_keeps (pages.tlb asid va) (page.flush asid va) found refill
  exact ⟨walked.mem, walked.ref⟩

theorem loadPages_keeps {list : List IcodePage} (pages : Pages managed base roots vm) (page : VarPage roots vm b v)
    (found : roots e = some root) (legal : ∀ q ∈ list, q.va < utop ∧ FlagBits q.perm)
    (h : loadPages root.pgdir asid list vm = .ok u vm') : Keeps v vm vm' := by
  induction list generalizing vm with
  | nil =>
    cases h
    exact .refl v _
  | cons q rest ih =>
    obtain ⟨_, mid, first, h⟩ := Result.bind_ok h
    obtain ⟨user, flags⟩ := legal q List.mem_cons_self
    have step : Keeps v vm mid := by
      obtain ⟨p, left, alloc, insert⟩ := Result.bind_ok first
      obtain ⟨pagesLeft, _, fresh, _, _⟩ := pages.alloc alloc
      obtain ⟨taken, away⟩ := pageAlloc_keeps (page.data pages).out alloc
      have filled : Keeps v left { left with mem := Function.update left.mem p q.words } :=
        ⟨Function.update_of_ne away _ _, rfl⟩
      have before := taken.trans filled
      exact before.trans (pageInsert_keeps (pagesLeft.setContents fresh.managed fun r _ => fresh.unused r)
        (page.keep rfl before) found (pdx_user user) away insert)
    exact step.trans (ih (pages.loadIcodeMapper found user flags first) (page.keep rfl step)
      (fun x inside => legal x (List.mem_cons_of_mem q inside)) h)

theorem envFreePde_keeps {i : Fin 1024} (pages : Pages managed base roots vm) (page : VarPage roots vm b v)
    (found : roots e = some root) (own : ¬ Shared i) (h : envFreePde root.pgdir asid i.val vm = .ok u vm') :
    Keeps v vm vm' := by
  unfold envFreePde at h
  dsimp only at h
  split at h
  · cases h
    exact .refl v vm
  · rename_i valid
    have table : target roots vm (.pde e i) = some (ppn (vm.mem root.pgdir i.val)) := by
      rw [target_pde found own, entry, pageOf, if_neg valid]
    split at h
    · cases h
    · obtain ⟨_, cleared, loop, h⟩ := Result.bind_ok h
      obtain ⟨_, last, decref, h⟩ := Result.bind_ok h
      cases h
      have loops : Pages managed base roots cleared ∧ Keeps v vm cleared := by
        refine Result.forRange_ok (fun _ mid => Pages managed base roots mid ∧ Keeps v vm mid) ⟨pages, .refl v vm⟩ ?_ loop
        rintro n mid after small ⟨pagesMid, kept⟩ body
        split at body
        · have va : pdxFin (BitVec.ofNat 32 i.val <<< pdshift ||| BitVec.ofNat 32 n <<< pgshift) = i :=
            Fin.ext (pdx_slotVa i.isLt small)
          have own' : ¬ Shared (pdxFin (BitVec.ofNat 32 i.val <<< pdshift ||| BitVec.ofNat 32 n <<< pgshift)) := by
            rw [va]
            exact own
          exact ⟨(pagesMid.remove found own' body).pages,
            kept.trans (pageRemove_keeps pagesMid (page.keep rfl kept) found own' body)⟩
        · cases body
          exact ⟨pagesMid, kept⟩
      have away := page.ne pages table fun b eq => by cases eq
      have dir := page.ne pages (target_pgdir found) fun b eq => by cases eq
      have zeroed : Keeps v cleared (cleared.write ⟨root.pgdir, i.val⟩ 0) := write_keeps cleared dir _ _
      have dropped := loops.2.trans (zeroed.trans (pageDecref_keeps away decref))
      exact dropped.trans ⟨rfl, rfl⟩

theorem freeTables_keeps (pages : Pages managed base roots vm) (page : VarPage roots vm b v) (found : roots e = some root)
    (h : Result.forRange (pdx utop) (envFreePde root.pgdir asid) vm = .ok u vm') : Keeps v vm vm' := by
  have both : Pages managed base roots vm' ∧ Keeps v vm vm' := by
    refine Result.forRange_ok (fun _ mid => Pages managed base roots mid ∧ Keeps v vm mid) ⟨pages, .refl v vm⟩ ?_ h
    rintro n mid last small ⟨pagesMid, kept⟩ body
    have bound : n < 1024 := Nat.lt_trans small (pdx_lt utop)
    have own : ¬ Shared ⟨n, bound⟩ := fun shared => absurd shared.1 (Nat.not_le.mpr small)
    exact ⟨(pagesMid.freePde (i := ⟨n, bound⟩) found own body).1,
      kept.trans (envFreePde_keeps (i := ⟨n, bound⟩) pagesMid (page.keep rfl kept) found own body)⟩
  exact both.2

section Kernels

variable {k k' mid : Kernel} {cur : EnvPtr} {parentId code envid : Word}

theorem envSetupVm_keeps (pages : Pages managed k.basePgdir roots k.vm) (page : VarPage roots k.vm b v)
    (h : envSetupVm e k = .ok u k') : Keeps v k.vm k'.vm ∧ v ∉ k'.vm.pageFreeList := by
  obtain ⟨p, vm, alloc, rfl⟩ := envSetupVm_runs h
  obtain ⟨taken, away⟩ := pageAlloc_keeps (page.data pages).out alloc
  have out := ((page.keep rfl taken).data (pages.alloc alloc).1).out
  have counted : Keeps v vm (vm.incRef p) := incRef_keeps vm away
  exact ⟨taken.trans ⟨Function.update_of_ne away _ _, counted.ref⟩, out⟩

theorem giveVars_keeps {k1 : Kernel} (out : v ∉ k1.vm.pageFreeList) (alloc : pageAlloc k1.vm = .ok pp vm) :
    Keeps v k1.vm (vm.incRef pp) ∧ v ≠ pp := by
  obtain ⟨taken, away⟩ := pageAlloc_keeps out alloc
  exact ⟨taken.trans (incRef_keeps vm away), away⟩

theorem envAlloc_keeps (pages : Pages managed k.basePgdir roots k.vm) (page : VarPage roots k.vm b v)
    (h : envAlloc parentId k = .ok e k') : Keeps v k.vm k'.vm := by
  obtain ⟨k1, k2, vars, vm, asid, ran⟩ := envAlloc_runs h
  obtain ⟨setup, out⟩ := envSetupVm_keeps pages page ran.setup
  obtain ⟨given, away⟩ := giveVars_keeps out ran.alloc
  obtain ⟨words, eq⟩ := ran.vm_eq
  rw [eq]
  exact setup.trans (given.trans ⟨Function.update_of_ne away _ _, rfl⟩)

theorem envAlloc_err_keeps (pages : Pages managed k.basePgdir roots k.vm) (page : VarPage roots k.vm b v)
    (h : envAlloc parentId k = .err code k') : Keeps v k.vm k'.vm := by
  cases envAlloc_refuses h with
  | envs => exact .refl v _
  | pgdir => exact .refl v _
  | vars _ setup _ release => exact absurd release (envSetupVm_counted pages setup)
  | asid _ setup alloc =>
    obtain ⟨kept, out⟩ := envSetupVm_keeps pages page setup
    exact kept.trans (giveVars_keeps out alloc).1

theorem envAlloc_once (pages : Pages managed k.basePgdir roots k.vm) (absent : ∀ b ∈ k.envFreeList, roots b = none)
    (h : envAlloc parentId k = .ok e k') : ∃ vars, (k'.envs e).envVars = some vars ∧ k'.vm.ppRef vars = 1 := by
  obtain ⟨k1, k2, vars, vm, asid, ran⟩ := envAlloc_runs h
  have pages1 := pages.setupVm (absent e (by simp [ran.free])) ran.setup
  obtain ⟨pages2, _, fresh, _, _⟩ := pages1.alloc ran.alloc
  have counted := pages2.accounts.counted vars fresh.managed
  rw [RefCount.refs_eq_zero.mpr fresh.unused] at counted
  have zero : vm.ppRef vars = 0 := BitVec.eq_of_toNat_eq counted
  obtain ⟨words, eq⟩ := ran.vm_eq
  refine ⟨vars, ran.root.2, ?_⟩
  rw [eq]
  simp [Vm.incRef, Vm.setRef, zero]

def VarPages (k : Kernel) : Prop :=
  ∀ b v, target (rootsOf k) k.vm (.vars b) = some v → VarPage (rootsOf k) k.vm b v

/-- The same envs are in use, and their pages of variables stay as they are. -/
structure VarSame (k k' : Kernel) : Prop where
  roots : rootsOf k' = rootsOf k
  keeps : ∀ b v, VarPage (rootsOf k) k.vm b v → Keeps v k.vm k'.vm

namespace VarSame

theorem quiet (roots : rootsOf k' = rootsOf k) (vm : k'.vm = k.vm) : VarSame k k' := ⟨roots, fun _ v _ => vm ▸ .refl v _⟩

theorem scheduled {yield : Bool} (roots : rootsOf mid = rootsOf k) (vm : mid.vm = k.vm) (h : schedule yield mid = .ok () k') :
    VarSame k k' := by
  obtain ⟨e, _, resumed⟩ := schedule_ok h
  refine quiet (Eq.trans (rootsOf_congr fun b => ?_) roots) (resumed.vm.trans vm)
  rw [resumed.envs b]
  exact ⟨Iff.rfl, rfl, rfl⟩

theorem left (used : (k.envs cur).envStatus ≠ .free) (left : Left cur k mid) (still : (mid.envs cur).envStatus ≠ .free)
    (dir : (mid.envs cur).envPgdir = (k.envs cur).envPgdir) (vars : (mid.envs cur).envVars = (k.envs cur).envVars)
    (h : schedule true mid = .ok () k') : VarSame k k' :=
  .scheduled (rootsOf_kept used still left.others dir vars) left.vm h

end VarSame

/-- A step leaves the pages of variables alone, but for those of envs that come and go. -/
structure VarStep (k k' : Kernel) : Prop where
  keeps : ∀ b v, VarPage (rootsOf k) k.vm b v → rootsOf k' b = rootsOf k b → Keeps v k.vm k'.vm
  roots : ∀ b, rootsOf k' b = rootsOf k b ∨ ∀ v, target (rootsOf k') k'.vm (.vars b) = some v → k'.vm.ppRef v = 1

theorem VarStep.pages (step : VarStep k k') (all : VarPages k) : VarPages k' := by
  intro b v full
  rcases step.roots b with same | new
  · have full' : target (rootsOf k) k.vm (.vars b) = some v := by
      simp only [target] at full ⊢
      rwa [← same]
    exact (all b v full').keep same (step.keeps b v (all b v full') same)
  · exact ⟨full, new v full⟩

namespace VarStep

theorem same (same : VarSame k k') : VarStep k k' := ⟨fun b v page _ => same.keeps b v page, fun b => .inl (congrFun same.roots b)⟩

theorem andThen (first : VarStep k mid) (roots : rootsOf k' = rootsOf mid)
    (keeps : ∀ b v, VarPage (rootsOf mid) mid.vm b v → Keeps v mid.vm k'.vm) (all : VarPages k) : VarStep k k' := by
  have allMid := first.pages all
  refine ⟨fun b v page stays => ?_, fun b => ?_⟩
  · rw [roots] at stays
    have before := first.keeps b v page stays
    exact before.trans (keeps b v (page.keep stays before))
  · refine (first.roots b).imp (fun eq => (congrFun roots b).trans eq) fun new v full => ?_
    have full' : target (rootsOf mid) mid.vm (.vars b) = some v := by
      simp only [target] at full ⊢
      rwa [← roots]
    exact ((keeps b v (allMid b v full')).ref).trans (new v full')

theorem free (pages : Pages managed k.basePgdir (rootsOf k) k.vm) (used : (k.envs e).envStatus ≠ .free)
    (h : envFree e k = .ok u k') : VarStep k k' := by
  have found := rootsOf_used used
  have freed := envFree_ok h
  have gone : rootsOf k' = Function.update (rootsOf k) e none := rootsOf_drop (by rw [freed.env]) freed.others
  refine ⟨fun b v page stays => ?_, fun b => ?_⟩
  · have ne : b ≠ e := by
      rintro rfl
      rw [gone, Function.update_self, found] at stays
      cases stays
    obtain ⟨vm1, vm2, vm3, ran⟩ := envFree_runs h
    obtain ⟨pages1, release⟩ : Pages managed k.basePgdir
        (Function.update (rootsOf k) e (some ⟨(k.envs e).envPgdir, none⟩)) vm1 ∧ Keeps v k.vm vm1 := by
      rcases ran.vars with ⟨absent, rfl⟩ | ⟨w, present, dropped⟩
      · rw [absent] at found
        rw [← found, Function.update_eq_self]
        exact ⟨pages, .refl v _⟩
      · rw [present] at found
        have owner : target (rootsOf k) k.vm (.vars e) = some w := by simp [target, found]
        refine ⟨(pages.releaseVars found dropped).1, pageDecref_keeps (fun eq => ?_) dropped⟩
        cases page.sole pages (eq ▸ owner)
        exact ne rfl
    have root := teardown_root (rootsOf k) e (k.envs e).envPgdir
    have page1 : VarPage (Function.update (rootsOf k) e (some ⟨(k.envs e).envPgdir, none⟩)) vm1 b v :=
      page.keep (Function.update_of_ne ne _ _) release
    have tables := freeTables_keeps pages1 page1 root ran.loop
    have dir := (page1.keep rfl tables).ne (pages1.freeTables root ran.loop).1 (target_pgdir root) fun b eq => by cases eq
    have released := release.trans (tables.trans (pageDecref_keeps dir ran.release))
    rw [ran.last]
    exact released.trans ⟨rfl, rfl⟩
  · by_cases here : b = e
    · refine Or.inr fun v full => ?_
      simp only [target] at full
      rw [gone, here, Function.update_self] at full
      cases full
    · exact Or.inl (by rw [gone, Function.update_of_ne here])

theorem taken (pages : PageInv managed k) (env : EnvInv k) (alloc : envAlloc parentId k = .ok e mid)
    (now : (k'.envs e).envStatus ≠ .free) (others : ∀ b, b ≠ e → k'.envs b = mid.envs b)
    (vars : (k'.envs e).envVars = (mid.envs e).envVars) : VarStep k (k'.putVm mid.vm) := by
  obtain ⟨setup, _⟩ := envAlloc_ok alloc
  have others' : ∀ b, b ≠ e → k'.envs b = k.envs b := fun b ne => (others b ne).trans (setup.others b ne)
  have roots : rootsOf (k'.putVm mid.vm) = Function.update (rootsOf k) e (some ⟨(k'.envs e).envPgdir, (k'.envs e).envVars⟩) :=
    @rootsOf_update e k (k'.putVm mid.vm) now others'
  have kept : ∀ b v, VarPage (rootsOf k) k.vm b v → Keeps v k.vm mid.vm :=
    fun b v page => envAlloc_keeps pages.pages page alloc
  refine ⟨fun b v page _ => kept b v page, fun b => ?_⟩
  by_cases here : b = e
  · refine Or.inr fun v full => ?_
    obtain ⟨w, new, once⟩ := envAlloc_once pages.pages env.absent alloc
    rw [here] at full
    simp only [target, roots, Function.update_self, Option.bind_some, vars, new, Option.some.injEq] at full
    exact full ▸ once
  · exact Or.inl (by rw [roots, Function.update_of_ne here])

end VarStep

theorem sysMemAlloc_vars (pages : PageInv managed k) (env : EnvInv k) (current : k.curenv = some cur)
    (h : (sysMemAlloc cur envid va perm k).state = some k') : VarSame k k' := by
  rcases sysMemAlloc_runs h with rfl | ⟨e, pp, vm, vm', legal, found, alloc, insert, rfl⟩
  · exact .quiet rfl rfl
  · refine ⟨rfl, fun b v page => ?_⟩
    obtain ⟨taken, away⟩ := pageAlloc_keeps (page.data pages.pages).out alloc
    exact taken.trans (pageInsert_state_keeps (pages.pages.alloc alloc).1 (page.keep rfl taken)
      (rootsOf_used (env.target_used current found)) (pdx_user (legal_user legal)) away insert)

theorem sysMemMap_vars {srcid srcva dstid dstva : Word} (pages : PageInv managed k) (env : EnvInv k)
    (current : k.curenv = some cur) (h : (sysMemMap cur srcid srcva dstid dstva perm k).state = some k') : VarSame k k' := by
  rcases sysMemMap_runs h with rfl | ⟨src, dst, vm', legalSrc, legal, foundSrc, found, has, insert, rfl⟩
  · exact .quiet rfl rfl
  · refine ⟨rfl, fun b v page => ?_⟩
    have shared := pages.pages.hasPage (rootsOf_used (env.target_used current foundSrc)) (pdx_user (legal_user legalSrc)) has
    exact pageInsert_state_keeps pages.pages page (rootsOf_used (env.target_used current found))
      (pdx_user (legal_user legal)) (page.ne pages.pages shared fun b eq => by cases eq) insert

theorem sysMemUnmap_vars (pages : PageInv managed k) (env : EnvInv k) (current : k.curenv = some cur)
    (h : (sysMemUnmap cur envid va k).state = some k') : VarSame k k' := by
  rcases sysMemUnmap_runs h with rfl | ⟨e, vm', legal, found, remove, rfl⟩
  · exact .quiet rfl rfl
  · exact ⟨rfl, fun b v page => pageRemove_keeps pages.pages page (rootsOf_used (env.target_used current found))
      (pdx_user (legal_user legal)) remove⟩

theorem sysExofork_vars (pages : PageInv managed k) (env : EnvInv k) (h : (sysExofork cur k).state = some k') :
    VarSame k k' ∨ ∃ e mid, envAlloc (k.envs cur).envId k = .ok e mid ∧ k' = forked cur e mid := by
  rcases sysExofork_state h with ⟨code, alloc⟩ | forks
  · obtain ⟨_, _, _, roots⟩ := pages.leaks env alloc
    exact .inl ⟨roots, fun b v page => envAlloc_err_keeps pages.pages page alloc⟩
  · exact .inr forks

theorem sysEnvDestroy_vars {status : Word} (env : EnvInv k) (current : k.curenv = some cur)
    (h : (sysEnvDestroy cur envid status k).state = some k') :
    VarSame k k' ∨ ∃ e, Reaps k cur envid e ∧ envFree e k = .ok () k' := by
  rcases sysEnvDestroy_state current h with ⟨rfl, _⟩ | ⟨mid, left, now, h, _⟩ | reaps
  · exact .inl (.quiet rfl rfl)
  · refine .inl (.left (env.current_used current) left ?_ ?_ ?_ h)
    · rw [now]
      exact fun free => by cases free
    · rw [now]
    · rw [now]
  · exact .inr reaps

theorem sysSetEnvStatus_vars {status : Word} (env : EnvInv k) (current : k.curenv = some cur)
    (h : (sysSetEnvStatus cur envid status k).state = some k') : VarSame k k' := by
  rcases sysSetEnvStatus_state h with ⟨rfl, _⟩ | ⟨e, q, sets, _, h⟩
  · exact .quiet rfl rfl
  · have roots : rootsOf (setStatus k e (statusOf status) q) = rootsOf k := by
      refine rootsOf_kept (e := e) (env.target_used current sets.env) ?_ (fun b ne => setStatus_others ne) ?_ ?_
      · rw [setStatus_self]
        unfold statusOf
        split
        · exact fun free => by cases free
        · exact fun free => by cases free
      · rw [setStatus_self]
      · rw [setStatus_self]
    split at h
    · exact .scheduled roots rfl h
    · subst h
      exact .quiet roots rfl

theorem sysIpcTrySend_vars {value srcva : Word} (pages : PageInv managed k) (env : EnvInv k) (current : k.curenv = some cur)
    (h : (sysIpcTrySend cur envid value srcva perm k).state = some k') : VarSame k k' := by
  rcases sysIpcTrySend_runs h with rfl | ⟨e, vm, accepts, rfl, moved⟩
  · exact .quiet rfl rfl
  · have used := env.target_used current accepts.env
    refine ⟨ipcDeliver_roots used, fun b v page => ?_⟩
    show Keeps v k.vm vm
    rcases moved with rfl | ⟨_, has, insert⟩
    · exact .refl v _
    · have sent := pages.pages.hasPage (rootsOf_used (env.current_used current)) (pdx_user (optional_user accepts.va)) has
      exact pageInsert_state_keeps pages.pages page (rootsOf_used used) (pdx_user (pages.dst e))
        (page.ne pages.pages sent fun b eq => by cases eq) insert

theorem sysIpcRecv_vars {dstva : Word} (env : EnvInv k) (current : k.curenv = some cur)
    (h : (sysIpcRecv cur dstva k).state = some k') : VarSame k k' := by
  rcases sysIpcRecv_state h with ⟨_, rfl⟩ | ⟨_, mid, left, now, h⟩
  · exact .quiet rfl rfl
  · refine .left (env.current_used current) left ?_ ?_ ?_ h
    · rw [now]
      exact fun free => by cases free
    · rw [now]
    · rw [now]

/-- What a system call does with the pages of variables. -/
inductive VarCase (k : Kernel) (cur : EnvPtr) : Call → Kernel → Prop where
  | same {call : Call} {k' : Kernel} (same : VarSame k k') : VarCase k cur call k'
  | fork {e : EnvPtr} {mid : Kernel} (alloc : envAlloc (k.envs cur).envId k = .ok e mid) :
      VarCase k cur .exofork (forked cur e mid)
  | reap {e : EnvPtr} {envid status : Word} {k' : Kernel} (reaps : Reaps k cur envid e) (free : envFree e k = .ok () k') :
      VarCase k cur (.envDestroy envid status) k'

theorem syscall_varCase {call : Call} (pages : PageInv managed k) (env : EnvInv k) (current : k.curenv = some cur)
    (h : (syscallTable cur call k).state = some k') : VarCase k cur call k' := by
  cases call with
  | yield => exact .same (.scheduled rfl rfl (schedule_state (switch_state h)))
  | envDestroy envid status =>
    rcases sysEnvDestroy_vars env current h with same | ⟨e, reaps, free⟩
    · exact .same same
    · exact .reap reaps free
  | memAlloc envid va perm => exact .same (sysMemAlloc_vars pages env current h)
  | memMap srcid srcva dstid dstva perm => exact .same (sysMemMap_vars pages env current h)
  | memUnmap envid va => exact .same (sysMemUnmap_vars pages env current h)
  | exofork =>
    rcases sysExofork_vars pages env h with same | ⟨e, mid, alloc, rfl⟩
    · exact .same same
    · exact .fork alloc
  | setEnvStatus envid status => exact .same (sysSetEnvStatus_vars env current h)
  | ipcTrySend envid value srcva perm => exact .same (sysIpcTrySend_vars pages env current h)
  | ipcRecv dstva => exact .same (sysIpcRecv_vars env current h)

theorem syscall_varStep {tf : Trapframe} {call : Call} (pages : PageInv managed k) (env : EnvInv k)
    (current : k.curenv = some cur) (h : (syscallTable cur call (k.trap tf)).state = some k') : VarStep k k' := by
  have pages' := pages.trap tf
  have env' : EnvInv (k.trap tf) := env.setFrame _
  suffices step : VarStep (k.trap tf) k' from ⟨step.keeps, step.roots⟩
  cases syscall_varCase pages' env' current h with
  | same same => exact .same same
  | fork alloc => exact .taken pages' env' alloc forked_used (fun b ne => forked_others ne) (by simp [forked, Kernel.updateEnv])
  | reap reaps free => exact .free pages'.pages (env'.target_used current reaps.env) free

/-- `env_create` takes an env and loads its pages. -/
structure CreateRun (e : EnvPtr) (k k' : Kernel) (mid : Kernel) : Prop where
  alloc : envAlloc 0 k = .ok e mid
  created : Created e ((k'.envs e).envPri) mid k'
  taken : VarStep k (k'.putVm mid.vm)
  loads : ∀ b v, VarPage (rootsOf k') mid.vm b v → Keeps v mid.vm k'.vm

theorem envCreate_runs {binary : Binary} {priority : Word} (pages : PageInv managed k) (inv : TlbInv managed k)
    (env : EnvInv k) (wf : k.table.WellFormed) (legal : ∀ page ∈ binary.pages, page.va < utop ∧ FlagBits page.perm)
    (h : (envCreate binary priority k).state = some k') : ∃ e mid, CreateRun e k k' mid := by
  obtain ⟨e, mid, alloc, created, load⟩ := envCreate_state h
  obtain ⟨start, _⟩ := created.tlb inv pages env wf alloc
  have used : (k'.envs e).envStatus ≠ .free := by
    rw [created.env]
    exact fun free => by cases free
  have dir : (k'.envs e).envPgdir = (mid.envs e).envPgdir := by rw [created.env]
  have pri : (k'.envs e).envPri = priority := by rw [created.env]
  rw [← dir] at load
  exact ⟨e, mid, alloc, pri ▸ created, .taken pages env alloc used created.others (by rw [created.env]),
    fun b v page => loadPages_keeps start.pages page (rootsOf_used (k := k'.putVm mid.vm) used) legal load⟩

theorem envCreate_vars {binary : Binary} {priority : Word} (pages : PageInv managed k) (inv : TlbInv managed k)
    (env : EnvInv k) (wf : k.table.WellFormed) (all : VarPages k)
    (legal : ∀ page ∈ binary.pages, page.va < utop ∧ FlagBits page.perm)
    (h : (envCreate binary priority k).state = some k') : VarStep k k' := by
  obtain ⟨e, mid, run⟩ := envCreate_runs pages inv env wf legal h
  exact run.taken.andThen rfl run.loads all

theorem timer_varSame {tf : Trapframe} (h : step k (.timer tf) = some k') : VarSame k k' :=
  .scheduled (show rootsOf { k with tf := tf } = rootsOf k from rfl) rfl (schedule_state h)

theorem tlbRefill_varSame {victim : Nat} (pages : PageInv managed k) (env : EnvInv k)
    (h : step k (.tlbRefill va victim) = some k') : VarSame k k' := by
  obtain ⟨cur, current, h⟩ := Option.bind_eq_some_iff.mp h
  rw [pages.space cur current] at h
  cases result : doTlbRefill va (k.envs cur).envPgdir (asidWord (k.envs cur).envAsid) victim k.vm with
  | ok u vm =>
    rw [result] at h
    cases h
    exact ⟨rfl, fun b v page => doTlbRefill_keeps pages.pages page (rootsOf_used (env.current_used current)) result⟩
  | err code vm => exact absurd result (doTlbRefill_noErr _ _ _ _ _ _ _)
  | stop cause =>
    rw [result] at h
    cases h

theorem step_varStep {op : Op} (pages : PageInv managed k) (inv : TlbInv managed k) (env : EnvInv k) (wf : k.table.WellFormed)
    (all : VarPages k) (meets : TlbGuard k op) (h : step k op = some k') : VarStep k k' := by
  cases op with
  | syscall tf call =>
    obtain ⟨cur, current, h⟩ := Option.bind_eq_some_iff.mp h
    obtain ⟨after, mid, called, rfl⟩ := doSyscall_state h
    have step := syscall_varStep pages env current called
    exact ⟨step.keeps, step.roots⟩
  | timer tf => exact .same (timer_varSame h)
  | tlbRefill va victim => exact .same (tlbRefill_varSame pages env h)
  | envCreate binary priority => exact envCreate_vars pages inv env wf all meets h

theorem boot_varPages {npage : Nat} {mem : Nat → Nat → Word} (booted : boot npage mem = some k) : VarPages k := by
  obtain ⟨p, vm, _, _, rfl⟩ := boot_init booted
  intro b v full
  cases full

end Kernels

end Mos
