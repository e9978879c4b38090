import Mos.Kern.Coherent

namespace Mos

variable {managed : Nat → Prop} {base : Nat} {roots : Roots} {vm vm' : Vm} {k mid k' : Kernel} {e b cur : EnvPtr}

/-- What `env_alloc` writes to memory: an empty page directory in `p` and a variable table in `v`, two free pages. -/
structure NewSpace (managed : Nat → Prop) (roots : Roots) (k k' : Kernel) (e : EnvPtr) (p v : Nat) : Prop where
  dir : (k'.envs e).envPgdir = p
  mine : managed p ∧ managed v
  unused : ∀ r, target roots k.vm r ≠ some p ∧ target roots k.vm r ≠ some v
  mem : ∀ q, q ≠ p → q ≠ v → k'.vm.mem q = k.vm.mem q
  own : ∀ i : Fin 1024, ¬ Shared i → k'.vm.mem p i.val = 0
  inherited : ∀ i, pdx utop ≤ i → i < pdx uvpt → k'.vm.mem p i = k.vm.mem k.basePgdir i
  tlb : k'.vm.tlb = k.vm.tlb

theorem setupPgdir_own {p : Nat} (mem : Nat → Nat → Word) (base : Nat) (zero : ∀ i, mem p i = 0) {i : Fin 1024}
    (own : ¬ Shared i) : setupPgdir mem base p i.val = 0 := by
  unfold setupPgdir
  rw [if_neg fun eq => own ⟨by rw [eq]; decide, by rw [eq]⟩, if_neg fun shared => own ⟨shared.1, shared.2.le⟩, zero]

theorem setupPgdir_inherited {p : Nat} (mem : Nat → Nat → Word) (base : Nat) {i : Nat} (low : pdx utop ≤ i)
    (high : i < pdx uvpt) : setupPgdir mem base p i = mem base i := by
  unfold setupPgdir
  rw [if_neg (Nat.ne_of_lt high), if_pos ⟨low, high⟩]

theorem envAlloc_space {parentId : Word} (pages : Pages managed k.basePgdir roots k.vm)
    (h : envAlloc parentId k = .ok e k') : ∃ p v, NewSpace managed roots k k' e p v := by
  obtain ⟨k1, k2, v, vm2, asid, ran⟩ := envAlloc_runs h
  obtain ⟨p, vm1, alloc1, dir1, eq1⟩ := envSetupVm_spec ran.setup
  obtain ⟨pages1, same1, fresh1, zero1, _⟩ := pages.alloc alloc1
  obtain ⟨rest1, list1, _, rfl⟩ := pageAlloc_ok alloc1
  obtain ⟨rest2, list2, user2, rfl⟩ := pageAlloc_ok ran.alloc
  obtain ⟨page, eq2⟩ := ran.vm_eq
  have list : rest1 = v :: rest2 := by rw [eq1] at list2; exact list2
  have inside : v ∈ k.vm.pageFreeList := by simp [list1, list]
  have nodup := pages.accounts.nodup
  rw [list1, list] at nodup
  have other : p ≠ v := by
    rintro rfl
    simp at nodup
  have mineV : managed v := by
    refine (pages.stock v inside).resolve_right fun envs => ?_
    rw [eq1] at user2
    cases user2.symm.trans envs
  have away : k.basePgdir ≠ p := fun eq => pages.apart (eq ▸ fresh1.managed)
  have mem : k'.vm.mem = Function.update (Function.update (Function.update (Function.update k.vm.mem p fun _ => 0) p
      (setupPgdir (Function.update k.vm.mem p fun _ => 0) k.basePgdir p)) v fun _ => 0) v page := by
    rw [eq2, eq1]
  have words : ∀ i, k'.vm.mem p i = setupPgdir (Function.update k.vm.mem p fun _ => 0) k.basePgdir p i := by
    intro i
    rw [mem, Function.update_of_ne other, Function.update_of_ne other, Function.update_self]
  refine ⟨p, v, ⟨ran.root.1.trans dir1, ⟨fresh1.managed, mineV⟩, fun r => ⟨fun full => ?_, fun full => ?_⟩,
    fun q neP neV => ?_, fun i own => ?_, fun i low high => ?_, ?_⟩⟩
  · rw [← same1] at full
    exact fresh1.unused r full
  · exact pages.accounts.busy full inside
  · rw [mem, Function.update_of_ne neV, Function.update_of_ne neV, Function.update_of_ne neP, Function.update_of_ne neP]
  · rw [words]
    exact setupPgdir_own _ _ zero1 own
  · rw [words, setupPgdir_inherited _ _ low high, Function.update_of_ne away]
  · rw [eq2, eq1]
    rfl

theorem Pages.leak {pp : Nat} (pages : Pages managed base roots vm) (fresh : Fresh managed roots vm pp)
    (mem : ∀ q, q ≠ pp → vm'.mem q = vm.mem q) (ppRef : ∀ q, q ≠ pp → vm'.ppRef q = vm.ppRef q)
    (freeList : vm'.pageFreeList = vm.pageFreeList) (npage : vm'.npage = vm.npage) (envs : vm'.envsBase = vm.envsBase) :
    Pages (fun q => managed q ∧ q ≠ pp) base roots vm' := by
  have away : ∀ {r q}, target roots vm r = some q → q ≠ pp := fun full eq => fresh.unused _ (eq ▸ full)
  have same : target roots vm' = target roots vm := target_congr fun r q _ full => mem q (away full)
  have dirs : ∀ b root, roots b = some root → vm'.mem root.pgdir = vm.mem root.pgdir :=
    fun b root found => mem _ (away (target_pgdir found))
  have base' : vm'.mem base = vm.mem base := mem base fun eq => pages.apart (eq ▸ fresh.managed)
  refine ⟨⟨fun q mine => ?_, freeList ▸ pages.accounts.nodup, fun q mem => ?_⟩, fun q inside => ?_, fun q mine => ?_,
    npage ▸ pages.small, fun r q full => ?_, same ▸ pages.sole, fun b root i found own => ?_, fun b root found => ?_,
    fun b root i found low high => ?_, fun i low high => ?_, fun mine => pages.apart mine.1⟩
  · rw [same, ppRef q mine.2]
    exact pages.accounts.counted q mine.1
  · rw [same]
    exact pages.accounts.idle q (freeList ▸ mem)
  · rw [freeList] at inside
    rw [Vm.holdsEnvs, envs]
    exact (pages.stock q inside).imp_left fun mine => ⟨mine, fun eq => fresh.out (eq ▸ inside)⟩
  · rw [npage]
    exact pages.bound q mine.1
  · rw [same] at full
    exact ⟨pages.owned r q full, away full⟩
  · rw [dirs b root found]
    exact pages.whole b root i found own
  · rw [dirs b root found]
    exact pages.self b root found
  · rw [dirs b root found]
    exact pages.copied b root i found low high
  · rw [base']
    exact pages.template i low high

/-- What is left of a failing `env_alloc`: pages that it took are lost, and nothing else has changed. -/
structure Leaks (managed : Nat → Prop) (base : Nat) (roots : Roots) (vm vm' : Vm) (managed' : Nat → Prop) : Prop where
  fewer : ∀ q, managed' q → managed q
  pages : Pages managed' base roots vm'
  tables : ∀ r q, r.Table → target roots vm r = some q → vm'.mem q = vm.mem q
  outside : ∀ q, ¬ managed q → vm'.mem q = vm.mem q
  tlb : vm'.tlb = vm.tlb

theorem Leaks.refl (pages : Pages managed base roots vm) : Leaks managed base roots vm vm managed :=
  ⟨fun _ mine => mine, pages, fun _ _ _ _ => rfl, fun _ _ => rfl, rfl⟩

theorem Leaks.trans {managed' managed'' : Nat → Prop} {vm'' : Vm} (first : Leaks managed base roots vm vm' managed')
    (second : Leaks managed' base roots vm' vm'' managed'') : Leaks managed base roots vm vm'' managed'' := by
  have same : target roots vm' = target roots vm := target_congr first.tables
  refine ⟨fun q mine => first.fewer q (second.fewer q mine), second.pages, fun r q kind full => ?_, fun q out => ?_,
    second.tlb.trans first.tlb⟩
  · rw [second.tables r q kind (same ▸ full), first.tables r q kind full]
  · rw [second.outside q fun mine => out (first.fewer q mine), first.outside q out]

/-- `page_alloc` of a page that is then filled, counted and never given back. -/
theorem Pages.allocLeak {mid : Vm} {pp : Nat} (words : Nat → Word) (pages : Pages managed base roots vm)
    (alloc : pageAlloc vm = .ok pp mid) :
    Leaks managed base roots vm { mid.incRef pp with mem := Function.update mid.mem pp words } (fun q => managed q ∧ q ≠ pp) := by
  obtain ⟨pagesMid, same, fresh, _, _⟩ := pages.alloc alloc
  obtain ⟨rest, _, _, rfl⟩ := pageAlloc_ok alloc
  have mem : ∀ q, q ≠ pp → Function.update (Function.update vm.mem pp fun _ => 0) pp words q = vm.mem q := by
    intro q ne
    rw [Function.update_of_ne ne, Function.update_of_ne ne]
  have unused : ∀ r, target roots vm r ≠ some pp := same ▸ fresh.unused
  refine ⟨fun q mine => mine.1, pagesMid.leak fresh (fun q ne => ?_) (fun q ne => ?_) rfl rfl rfl, fun r q _ full => ?_,
    fun q out => ?_, rfl⟩
  · exact Function.update_of_ne ne _ _
  · exact Function.update_of_ne ne _ _
  · exact mem q fun eq => unused r (eq ▸ full)
  · exact mem q fun eq => out (eq ▸ fresh.managed)

/-- When `asid_alloc` fails, `env_alloc` keeps the page directory and the variable table it has taken. -/
theorem envAlloc_err_leaks {parentId code : Word} (pages : Pages managed k.basePgdir roots k.vm)
    (h : envAlloc parentId k = .err code k') : ∃ managed', Leaks managed k.basePgdir roots k.vm k'.vm managed' := by
  cases envAlloc_refuses h with
  | envs => exact ⟨managed, .refl pages⟩
  | pgdir => exact ⟨managed, .refl pages⟩
  | vars _ setup _ release => exact absurd release (envSetupVm_counted pages setup)
  | @asid _ _ k1 v vm2 _ setup alloc2 =>
    obtain ⟨p, vm1, alloc1, dir, eq⟩ := envSetupVm_spec setup
    have first := pages.allocLeak (setupPgdir vm1.mem k.basePgdir p) alloc1
    rw [← eq] at first
    have second := first.pages.allocLeak (vm2.mem v) alloc2
    rw [Function.update_eq_self] at second
    exact ⟨_, first.trans second⟩

namespace TlbInv

theorem leaks (inv : TlbInv managed k) (pages : Pages managed k.basePgdir (rootsOf k) k.vm) {managed' : Nat → Prop}
    (leaks : Leaks managed k.basePgdir (rootsOf k) k.vm k'.vm managed') (roots : rootsOf k' = rootsOf k)
    (asids : ∀ b, (k'.envs b).envAsid = (k.envs b).envAsid) (basePgdir : k'.basePgdir = k.basePgdir) :
    TlbInv managed' k' := by
  have frame : Moves managed (rootsOf k) 0 (asidWord (k.envs 0).envAsid) (fun _ => True) k.vm k'.vm :=
    .frame pages inv.template leaks.tables leaks.outside fun t there => leaks.tlb ▸ there
  have kept := inv.moves pages frame roots asids basePgdir
  exact ⟨⟨kept.template.copied, fun i low high mine => kept.template.outside i low high (leaks.fewer _ mine)⟩, kept.live,
    kept.idle⟩

theorem create {p v : Nat} {vars : Option Nat} (inv : TlbInv managed k)
    (pages : Pages managed k.basePgdir (rootsOf k) k.vm) (space : NewSpace managed (rootsOf k) k mid e p v)
    (absent : rootsOf k e = none) (vm : k'.vm = mid.vm) (basePgdir : k'.basePgdir = k.basePgdir)
    (roots : rootsOf k' = Function.update (rootsOf k) e (some ⟨p, vars⟩))
    (others : ∀ b, b ≠ e → (k'.envs b).envAsid = (k.envs b).envAsid)
    (unused : ∀ b, rootsOf k b ≠ none → (k.envs b).envAsid ≠ (k'.envs e).envAsid)
    (pages' : Pages managed k'.basePgdir (rootsOf k') k'.vm) : TlbInv managed k' := by
  have outside : ∀ q, ¬ managed q → k'.vm.mem q = k.vm.mem q := by
    intro q out
    rw [vm, space.mem q (fun eq => out (eq ▸ space.mine.1)) fun eq => out (eq ▸ space.mine.2)]
  have tables : ∀ r q, r.Table → target (rootsOf k) k.vm r = some q → k'.vm.mem q = k.vm.mem q := by
    intro r q _ full
    rw [vm, space.mem q (fun eq => (space.unused r).1 (eq ▸ full)) fun eq => (space.unused r).2 (eq ▸ full)]
  have base' : k'.vm.mem k.basePgdir = k.vm.mem k.basePgdir := outside _ pages.apart
  have used : ∀ b, b ≠ e → rootsOf k' b = rootsOf k b := fun b ne => by rw [roots, Function.update_of_ne ne]
  have found : rootsOf k' e = some ⟨p, vars⟩ := by rw [roots, Function.update_self]
  have fewer : ∀ asid s lo, cached k'.vm asid s lo → cached k.vm asid s lo := by
    intro asid
    refine cached_fewer fun t there => ?_
    rwa [vm, space.tlb] at there
  have same : templateLeaf k.basePgdir k'.vm = templateLeaf k.basePgdir k.vm :=
    templateLeaf_outside pages inv.template outside
  have template : Template managed k'.basePgdir (rootsOf k') k'.vm := by
    rw [basePgdir]
    refine ⟨fun b root i there low high => ?_, fun i low high => ?_⟩
    · rw [base']
      by_cases here : b = e
      · subst here
        cases there.symm.trans found
        rw [vm]
        exact space.inherited i low high
      · rw [used b here] at there
        rw [tables (.pgdir b) root.pgdir trivial (target_pgdir there)]
        exact inv.template.copied b root i there low high
    · rw [base']
      exact inv.template.outside i low high
  have idle : ∀ asid, (∀ b, rootsOf k b ≠ none → (k.envs b).envAsid ≠ asid) →
      Cache.Coherent entryLo (templateLeaf k.basePgdir k'.vm) (cached k'.vm (asidWord asid)) := by
    intro asid free
    rw [same]
    exact (inv.idle asid free).fewer (fewer _)
  refine ⟨template, fun b there s lo copy => ?_, fun asid free => ?_⟩
  · by_cases here : b = e
    · subst here
      obtain ⟨w, there, shown⟩ := idle _ unused s lo copy
      rw [← basePgdir] at there
      exact ⟨w, leaf_template pages' template found there, shown⟩
    · rw [used b here] at there
      rw [others b here] at copy
      have own : leaf (rootsOf k') k'.vm b = leaf (rootsOf k) k'.vm b := leaf_root (by rw [used b here])
      rw [own, leaf_congr pages inv.template tables outside]
      exact inv.live b there s lo (fewer _ s lo copy)
  · rw [basePgdir]
    refine idle asid fun b there => ?_
    have ne : b ≠ e := by
      rintro rfl
      exact there absent
    rw [← others b ne]
    exact free b (by rw [used b ne]; exact there)

end TlbInv

/-- What `env_free` leaves in the TLB and the page tables when the directory has no entry above the self map. -/
structure TornDown (managed : Nat → Prop) (roots : Roots) (k k' : Kernel) (e : EnvPtr) : Prop where
  outside : ∀ pp, ¬ managed pp → k'.vm.mem pp = k.vm.mem pp
  dirs : ∀ b root i, roots b = some root → pdx utop ≤ i → i < pdx uvpt →
    k'.vm.mem root.pgdir i = k.vm.mem root.pgdir i
  others : ∀ b, b ≠ e → leaf roots k'.vm b = leaf roots k.vm b
  tlb : ∀ t ∈ k'.vm.tlb, t ∈ k.vm.tlb
  left : Cache.Coherent entryLo (leaf roots k.vm e) (cached k.vm (asidWord (k.envs e).envAsid)) →
    Cache.Coherent entryLo (templateLeaf k.basePgdir k'.vm) (cached k'.vm (asidWord (k.envs e).envAsid))

theorem Teardown.template {vm1 vm2 vm3 : Vm} (down : Teardown managed roots k k' e vm1 vm2 vm3)
    (template : Template managed k.basePgdir roots k.vm)
    (found : roots e = some ⟨(k.envs e).envPgdir, (k.envs e).envVars⟩) :
    Template managed k.basePgdir (Function.update roots e (some ⟨(k.envs e).envPgdir, none⟩)) vm1 := by
  refine ⟨fun b root i there low high => ?_, fun i low high => ?_⟩
  · rw [down.mem]
    by_cases same : b = e
    · rw [same, Function.update_self] at there
      cases there
      exact template.copied e ⟨(k.envs e).envPgdir, (k.envs e).envVars⟩ i found low high
    · rw [Function.update_of_ne same] at there
      exact template.copied b root i there low high
  · rw [down.mem]
    exact template.outside i low high

theorem teardown_leaf (found : roots e = some ⟨(k.envs e).envPgdir, (k.envs e).envVars⟩) (vm : Vm) (b : EnvPtr) :
    leaf (Function.update roots e (some ⟨(k.envs e).envPgdir, none⟩)) vm b = leaf roots vm b := by
  refine leaf_root ?_
  by_cases same : b = e
  · rw [same, Function.update_self, found]
    rfl
  · rw [Function.update_of_ne same]

theorem Teardown.others {vm1 vm2 vm3 : Vm} (down : Teardown managed roots k k' e vm1 vm2 vm3)
    (template : Template managed k.basePgdir roots k.vm)
    (found : roots e = some ⟨(k.envs e).envPgdir, (k.envs e).envVars⟩) :
    (∀ pp, ¬ managed pp → k'.vm.mem pp = k.vm.mem pp) ∧
      (∀ b root i, roots b = some root → pdx utop ≤ i → i < pdx uvpt → k'.vm.mem root.pgdir i = k.vm.mem root.pgdir i) ∧
      ∀ b, b ≠ e → leaf roots k'.vm b = leaf roots k.vm b := by
  have root := teardown_root roots e (k.envs e).envPgdir
  have moves := freeTables_moves down.pages (down.template template found) root down.loop
  have mem : k'.vm.mem = vm2.mem := by
    rw [down.last]
    exact (pageDecref_tlb down.release).1
  refine ⟨fun pp out => ?_, fun b r i there low high => ?_, fun b ne => ?_⟩
  · rw [mem, moves.outside pp out, down.mem]
  · rw [mem, ← down.mem]
    by_cases same : b = e
    · rw [same, found] at there
      cases there
      exact moves.dirs e ⟨(k.envs e).envPgdir, none⟩ i root low high
    · refine moves.dirs b r i ?_ low high
      rwa [Function.update_of_ne same]
  · rw [leaf_of_mem mem, ← teardown_leaf found vm2, moves.others b ne, teardown_leaf found, leaf_of_mem down.mem]

theorem envFree_tornDown {u : Unit} (pages : Pages managed k.basePgdir roots k.vm)
    (template : Template managed k.basePgdir roots k.vm)
    (found : roots e = some ⟨(k.envs e).envPgdir, (k.envs e).envVars⟩)
    (high : ∀ i : Fin 1024, pdx uvpt < i.val → k.vm.mem (k.envs e).envPgdir i.val = 0) (h : envFree e k = .ok u k') :
    TornDown managed roots k k' e := by
  obtain ⟨vm1, vm2, vm3, down⟩ := envFree_teardown pages found h
  have root := teardown_root roots e (k.envs e).envPgdir
  have template1 := down.template template found
  have moves := freeTables_moves down.pages template1 root down.loop
  have pages2 := (down.pages.freeTables root down.loop).1
  have template2 := moves.template down.pages template1
  have empty : ∀ i : Fin 1024, ¬ Shared i → vm2.mem (k.envs e).envPgdir i.val = 0 :=
    fun i own => pages2.pde_zero root own (down.empty high i)
  have gone := tlbInvalidate_gone vm3 (asidWord (k.envs e).envAsid) (uvpt + BitVec.ofNat 32 (pdx uvpt) <<< pgshift)
  rw [show BitVec.ofNat 32 (pdx uvpt) = BitVec.ofNat 32 windowFin.val from rfl, vpageOf_window, asidWord_mask] at gone
  have fewer : ∀ t ∈ k'.vm.tlb, t ∈ vm2.tlb := by
    intro t there
    rw [down.last] at there
    rw [← (pageDecref_tlb down.release).2]
    exact tlbInvalidate_tlb _ _ _ t there
  have fewer' : ∀ t ∈ k'.vm.tlb, t ∈ k.vm.tlb := by
    intro t there
    rw [← down.tlb]
    exact moves.tlb t (fewer t there)
  obtain ⟨outside, dirs, others⟩ := down.others template found
  refine ⟨outside, dirs, others, fewer', fun coherent s lo copy => ?_⟩
  have own := moves.own
  rw [asidWord_mask] at own
  rw [← leaf_of_mem down.mem, ← teardown_leaf found] at coherent
  have before : Cache.Coherent entryLo (leaf (Function.update roots e (some ⟨(k.envs e).envPgdir, none⟩)) vm2 e)
      (cached vm2 (asidWord (k.envs e).envAsid)) := by
    refine coherent.follow (cached_fewer fun t there => ?_) own
    rw [← down.tlb]
    exact moves.tlb t there
  obtain ⟨w, there, shown⟩ := before s lo (cached_fewer fewer s lo copy)
  refine ⟨w, ?_, shown⟩
  rcases template_leaf pages2 template2 root empty there with rfl | inside
  · rw [down.last] at copy
    exact absurd copy (gone lo)
  · unfold templateLeaf at inside ⊢
    rw [show k'.vm.mem = vm2.mem by rw [down.last]; exact (pageDecref_tlb down.release).1]
    exact inside

theorem TlbInv.free (inv : TlbInv managed k) (torn : TornDown managed (rootsOf k) k k' e)
    (pages : Pages managed k.basePgdir (rootsOf k) k.vm) (used : rootsOf k e ≠ none)
    (distinct : ∀ b, rootsOf k b ≠ none → (k.envs b).envAsid = (k.envs e).envAsid → b = e) (freed : Freed e k k') :
    TlbInv managed k' := by
  have gone : (k'.envs e).envStatus = .free := by rw [freed.env]
  have roots : rootsOf k' = Function.update (rootsOf k) e none := rootsOf_drop gone freed.others
  have absent : rootsOf k' e = none := by rw [roots, Function.update_self]
  have same : ∀ b, b ≠ e → rootsOf k' b = rootsOf k b := fun b ne => by rw [roots, Function.update_of_ne ne]
  have base' : k'.vm.mem k.basePgdir = k.vm.mem k.basePgdir := torn.outside _ pages.apart
  have other : ∀ b, rootsOf k' b ≠ none → b ≠ e := by
    rintro b there rfl
    exact there absent
  refine ⟨?_, fun b there => ?_, fun asid idle => ?_⟩
  · rw [freed.basePgdir]
    refine ⟨fun b root i there low high => ?_, fun i low high => ?_⟩
    · rw [same b (other b (by simp [there]))] at there
      rw [base', torn.dirs b root i there low high]
      exact inv.template.copied b root i there low high
    · rw [base']
      exact inv.template.outside i low high
  · have ne := other b there
    rw [same b ne] at there
    have own : leaf (rootsOf k') k'.vm b = leaf (rootsOf k) k'.vm b := leaf_root (by rw [same b ne])
    rw [own, torn.others b ne, freed.others b ne]
    exact (inv.live b there).fewer (cached_fewer torn.tlb)
  · rw [freed.basePgdir]
    by_cases held : (k.envs e).envAsid = asid
    · rw [← held]
      exact torn.left (inv.live e used)
    · rw [templateLeaf_outside pages inv.template torn.outside]
      refine (inv.idle asid fun b there => ?_).fewer (cached_fewer torn.tlb)
      by_cases here : b = e
      · rw [here]
        exact held
      · rw [← freed.others b here]
        exact idle b (by rw [same b here]; exact there)

/-- A system call that operates on the address space of one env in use and changes memory only. -/
def Operates (managed : Nat → Prop) (k k' : Kernel) : Prop :=
  k' = k.putVm k'.vm ∧ ∃ e, Moves managed (rootsOf k) e (asidWord (k.envs e).envAsid) (fun _ => True) k.vm k'.vm

theorem Operates.refl (managed : Nat → Prop) (k : Kernel) : Operates managed k k := ⟨rfl, 0, .refl k.vm⟩

theorem TlbInv.operates (inv : TlbInv managed k) (pages : Pages managed k.basePgdir (rootsOf k) k.vm)
    (operates : Operates managed k k') : TlbInv managed k' := by
  obtain ⟨eq, e, moves⟩ := operates
  refine inv.moves pages moves ?_ (fun b => ?_) ?_
  · rw [eq]
    rfl
  · rw [eq]
    rfl
  · rw [eq]
    rfl

section calls

variable {envid va perm : Word}

theorem sysMemAlloc_operates (inv : PageInv managed k) (template : Template managed k.basePgdir (rootsOf k) k.vm)
    (env : EnvInv k) (current : k.curenv = some cur) (h : (sysMemAlloc cur envid va perm k).state = some k') :
    Operates managed k k' := by
  rcases sysMemAlloc_runs h with rfl | ⟨e, pp, vm, vm', legal, found, alloc, insert, rfl⟩
  · exact .refl managed k'
  · have first : Moves managed (rootsOf k) e (asidWord (k.envs e).envAsid) (fun _ => True) k.vm vm :=
      pageAlloc_moves inv.pages template alloc
    refine ⟨rfl, e, first.trans ?_⟩
    exact pageInsert_state_moves (inv.pages.alloc alloc).1 (first.template inv.pages template)
      (rootsOf_used (env.target_used current found)) (pdx_user (legal_user legal)) (fun _ _ => trivial) insert

theorem sysMemMap_operates {srcid srcva dstid dstva : Word} (inv : PageInv managed k)
    (template : Template managed k.basePgdir (rootsOf k) k.vm) (env : EnvInv k) (current : k.curenv = some cur)
    (h : (sysMemMap cur srcid srcva dstid dstva perm k).state = some k') : Operates managed k k' := by
  rcases sysMemMap_runs h with rfl | ⟨_, dst, vm', _, legal, _, found, _, insert, rfl⟩
  · exact .refl managed k'
  · exact ⟨rfl, dst, pageInsert_state_moves inv.pages template (rootsOf_used (env.target_used current found))
      (pdx_user (legal_user legal)) (fun _ _ => trivial) insert⟩

theorem sysMemUnmap_operates (inv : PageInv managed k) (template : Template managed k.basePgdir (rootsOf k) k.vm)
    (env : EnvInv k) (current : k.curenv = some cur) (h : (sysMemUnmap cur envid va k).state = some k') :
    Operates managed k k' := by
  rcases sysMemUnmap_runs h with rfl | ⟨e, vm', legal, found, remove, rfl⟩
  · exact .refl managed k'
  · exact ⟨rfl, e, (pageRemove_moves inv.pages template (rootsOf_used (env.target_used current found))
      (pdx_user (legal_user legal)) trivial remove).1⟩

end calls

theorem schedule_tlb {yield : Bool} (inv : TlbInv managed k) (h : schedule yield k = .ok () k') : TlbInv managed k' := by
  obtain ⟨e, _, resumed⟩ := schedule_ok h
  refine inv.keep resumed.vm (rootsOf_congr fun b => ?_) (fun b => ?_) resumed.basePgdir
  · rw [resumed.envs b]
    exact ⟨Iff.rfl, rfl, rfl⟩
  · rw [resumed.envs b]

theorem rootsOf_kept (used : (k.envs e).envStatus ≠ .free) (now : (k'.envs e).envStatus ≠ .free)
    (others : ∀ b, b ≠ e → k'.envs b = k.envs b) (pgdir : (k'.envs e).envPgdir = (k.envs e).envPgdir)
    (vars : (k'.envs e).envVars = (k.envs e).envVars) : rootsOf k' = rootsOf k := by
  refine rootsOf_congr fun b => ?_
  by_cases same : b = e
  · subst same
    exact ⟨iff_of_false now used, pgdir, vars⟩
  · rw [others b same]
    exact ⟨Iff.rfl, rfl, rfl⟩

theorem TlbInv.update (inv : TlbInv managed k) (used : (k.envs e).envStatus ≠ .free) (now : (k'.envs e).envStatus ≠ .free)
    (others : ∀ b, b ≠ e → k'.envs b = k.envs b) (pgdir : (k'.envs e).envPgdir = (k.envs e).envPgdir)
    (vars : (k'.envs e).envVars = (k.envs e).envVars) (asid : (k'.envs e).envAsid = (k.envs e).envAsid)
    (vm : k'.vm = k.vm) (basePgdir : k'.basePgdir = k.basePgdir) : TlbInv managed k' := by
  refine inv.keep vm (rootsOf_kept used now others pgdir vars) (fun b => ?_) basePgdir
  by_cases same : b = e
  · rw [same, asid]
  · rw [others b same]

theorem TlbInv.taken {parentId : Word} (inv : TlbInv managed k) (pages : PageInv managed k) (env : EnvInv k)
    (wf : k.table.WellFormed) (alloc : envAlloc parentId k = .ok e mid) (now : (k'.envs e).envStatus ≠ .free)
    (others : ∀ b, b ≠ e → k'.envs b = mid.envs b) (pgdir : (k'.envs e).envPgdir = (mid.envs e).envPgdir)
    (asid : (k'.envs e).envAsid = (mid.envs e).envAsid) (basePgdir : k'.basePgdir = mid.basePgdir)
    (pages' : Pages managed (k'.putVm mid.vm).basePgdir (rootsOf (k'.putVm mid.vm)) (k'.putVm mid.vm).vm) :
    TlbInv managed (k'.putVm mid.vm) := by
  obtain ⟨setup, list⟩ := envAlloc_ok alloc
  obtain ⟨p, v, space⟩ := envAlloc_space pages.pages alloc
  have allots := envAlloc_allots alloc
  have others' : ∀ b, b ≠ e → k'.envs b = k.envs b := fun b ne => (others b ne).trans (setup.others b ne)
  have roots : rootsOf (k'.putVm mid.vm) = Function.update (rootsOf k) e (some ⟨p, (k'.envs e).envVars⟩) := by
    rw [← space.dir, ← pgdir]
    exact @rootsOf_update e k (k'.putVm mid.vm) now others'
  refine inv.create pages.pages space (env.absent e (by simp [list])) rfl
    (basePgdir.trans setup.basePgdir) roots (fun b ne => ?_) (fun b used same => ?_) pages'
  · rw [show (k'.putVm mid.vm).envs b = k.envs b from others' b ne]
  · have marked := (wf.bitmap (k.envs b).envAsid).mpr ⟨b, roots_ne_none.mp used, rfl⟩
    rw [same, show ((k'.putVm mid.vm).envs e).envAsid = (mid.envs e).envAsid from asid] at marked
    exact Bool.false_ne_true (allots.unused.symm.trans marked)

/-- The condition on a step: that of `PageGuard` without what it asks of a failing `sys_exofork`. -/
def TlbGuard (k : Kernel) : Op → Prop
  | .syscall _ .exofork => True
  | op => PageGuard k op

theorem PageInv.leaks {parentId code : Word} (inv : PageInv managed k) (env : EnvInv k)
    (alloc : envAlloc parentId k = .err code k') : ∃ managed', Leaks managed k.basePgdir (rootsOf k) k.vm k'.vm managed' ∧
      PageInv managed' k' ∧ rootsOf k' = rootsOf k := by
  obtain ⟨e, inside, setup, _⟩ := envAlloc_err alloc
  rcases inside with empty | inside
  · rw [envAlloc, empty] at alloc
    cases alloc
    exact ⟨managed, .refl inv.pages, inv, rfl⟩
  · obtain ⟨managed', leaks⟩ := envAlloc_err_leaks inv.pages alloc
    have free := env.free e inside
    have roots : rootsOf k' = rootsOf k := by
      funext b
      by_cases same : b = e
      · rw [same, rootsOf, rootsOf, if_pos free, if_pos ((setup.status e).trans free)]
      · rw [rootsOf, rootsOf, setup.others b same]
    refine ⟨managed', leaks, ⟨?_, fun b current => ?_, fun b => ?_⟩, roots⟩
    · rw [roots, setup.basePgdir]
      exact leaks.pages
    · rw [setup.curenv] at current
      have ne : b ≠ e := by
        rintro rfl
        exact env.current_used current free
      rw [setup.curPgdir, setup.others b ne]
      exact inv.space b current
    · by_cases same : b = e
      · rw [same, setup.env.dst]
        exact inv.dst e
      · rw [setup.others b same]
        exact inv.dst b

theorem forked_used {cur e : EnvPtr} {k : Kernel} : ((forked cur e k).envs e).envStatus ≠ .free := by
  simp [forked, Kernel.updateEnv]

theorem sysExofork_tlb (inv : TlbInv managed k) (pages : PageInv managed k) (env : EnvInv k) (wf : k.table.WellFormed)
    (h : (sysExofork cur k).state = some k') : ∃ managed', PageInv managed' k' ∧ TlbInv managed' k' := by
  rcases sysExofork_state h with ⟨code, alloc⟩ | ⟨e, mid, alloc, rfl⟩
  · obtain ⟨managed', leaks, pages', roots⟩ := pages.leaks env alloc
    obtain ⟨_, _, setup, _⟩ := envAlloc_err alloc
    have slots : ∀ b, (k'.envs b).slot = (k.envs b).slot :=
      fun b => congrFun (congrArg Table.slots (envAlloc_err_table alloc)) b
    exact ⟨managed', pages', inv.leaks pages.pages leaks roots (fun b => congrArg Slot.asid (slots b)) setup.basePgdir⟩
  · have kept : ((forked cur e mid).envs e).envPgdir = (mid.envs e).envPgdir ∧
        ((forked cur e mid).envs e).envAsid = (mid.envs e).envAsid ∧
        ((forked cur e mid).envs e).envVars = (mid.envs e).envVars ∧
        ((forked cur e mid).envs e).envIpcDstva = (mid.envs e).envIpcDstva := by simp [forked, Kernel.updateEnv]
    have pages' : PageInv managed (forked cur e mid) :=
      pages.taken env alloc forked_used (fun b ne => forked_others ne) kept.1 kept.2.2.1 kept.2.2.2 rfl rfl rfl
        fun pages => pages
    exact ⟨managed, pages', inv.taken pages env wf alloc forked_used (fun b ne => forked_others ne) kept.1 kept.2.1 rfl
      pages'.pages⟩

theorem Created.tlb {parentId priority : Word} (created : Created e priority mid k') (inv : TlbInv managed k)
    (pages : PageInv managed k) (env : EnvInv k) (wf : k.table.WellFormed) (alloc : envAlloc parentId k = .ok e mid) :
    PageInv managed (k'.putVm mid.vm) ∧ TlbInv managed (k'.putVm mid.vm) := by
  have used : (k'.envs e).envStatus ≠ .free := by
    rw [created.env]
    exact fun free => by cases free
  have dir : (k'.envs e).envPgdir = (mid.envs e).envPgdir := by rw [created.env]
  have asid : (k'.envs e).envAsid = (mid.envs e).envAsid := by rw [created.env]
  have start : PageInv managed (k'.putVm mid.vm) := pages.taken env alloc used created.others dir
    (by rw [show (k'.putVm mid.vm).envs e = k'.envs e from rfl, created.env])
    (by rw [show (k'.putVm mid.vm).envs e = k'.envs e from rfl, created.env]) created.curenv created.curPgdir
    created.basePgdir fun pages => pages
  exact ⟨start, inv.taken pages env wf alloc used created.others dir asid created.basePgdir start.pages⟩

theorem envCreate_tlb {binary : Binary} {priority : Word} (inv : TlbInv managed k) (pages : PageInv managed k)
    (env : EnvInv k) (wf : k.table.WellFormed) (legal : ∀ page ∈ binary.pages, page.va < utop ∧ FlagBits page.perm)
    (h : (envCreate binary priority k).state = some k') : TlbInv managed k' := by
  obtain ⟨e, mid, alloc, created, load⟩ := envCreate_state h
  obtain ⟨start, before⟩ := created.tlb inv pages env wf alloc
  have used : (k'.envs e).envStatus ≠ .free := by
    rw [created.env]
    exact fun free => by cases free
  have dir : (k'.envs e).envPgdir = (mid.envs e).envPgdir := by rw [created.env]
  have asid : (k'.envs e).envAsid = (mid.envs e).envAsid := by rw [created.env]
  rw [← dir, ← asid] at load
  have moves := loadPages_moves start.pages before.template (rootsOf_used (k := k'.putVm mid.vm) used) legal load
  exact before.moves (e := e) start.pages moves rfl (fun _ => rfl) rfl

theorem sysEnvDestroy_tlb {envid status : Word} (inv : TlbInv managed k) (pages : PageInv managed k) (env : EnvInv k)
    (wf : k.table.WellFormed) (current : k.curenv = some cur)
    (high : ∀ e, Reaps k cur envid e → ∀ i : Fin 1024, pdx uvpt < i.val → k.vm.mem (k.envs e).envPgdir i.val = 0)
    (h : (sysEnvDestroy cur envid status k).state = some k') : TlbInv managed k' := by
  rcases sysEnvDestroy_state current h with ⟨rfl, _⟩ | ⟨mid, left, now, h, _⟩ | ⟨e, reaps, free⟩
  · exact inv
  · refine schedule_tlb (inv.update (e := cur) (env.current_used current) ?_ left.others ?_ ?_ ?_ left.vm left.basePgdir) h
    · rw [now]
      exact fun free => by cases free
    · rw [now]
    · rw [now]
    · rw [now]
  · have used := env.target_used current reaps.env
    have torn := envFree_tornDown pages.pages inv.template (rootsOf_used used) (high e reaps) free
    refine inv.free torn pages.pages (roots_ne_none.mpr used) (fun b there same => ?_) (envFree_ok free)
    exact wf.distinct b e (roots_ne_none.mp there) used same

theorem sysSetEnvStatus_tlb {envid status : Word} (inv : TlbInv managed k) (env : EnvInv k) (current : k.curenv = some cur)
    (h : (sysSetEnvStatus cur envid status k).state = some k') : TlbInv managed k' := by
  rcases sysSetEnvStatus_state h with ⟨rfl, _⟩ | ⟨e, q, sets, _, h⟩
  · exact inv
  · have set : TlbInv managed (setStatus k e (statusOf status) q) := by
      refine inv.update (e := e) (env.target_used current sets.env) ?_ (fun b ne => setStatus_others ne) ?_ ?_ ?_ rfl rfl
      · rw [setStatus_self]
        unfold statusOf
        split
        · exact fun free => by cases free
        · exact fun free => by cases free
      · rw [setStatus_self]
      · rw [setStatus_self]
      · rw [setStatus_self]
    split at h
    · exact schedule_tlb set h
    · subst h
      exact set

theorem sysIpcTrySend_tlb {envid value srcva perm : Word} (inv : TlbInv managed k) (pages : PageInv managed k)
    (env : EnvInv k) (current : k.curenv = some cur) (h : (sysIpcTrySend cur envid value srcva perm k).state = some k') :
    TlbInv managed k' := by
  rcases sysIpcTrySend_runs h with rfl | ⟨e, vm, accepts, rfl, moved⟩
  · exact inv
  · have used := env.target_used current accepts.env
    have pages' : PageInv managed (ipcDeliver cur e value perm k) := ipcDeliver_pages pages used
    have now : ((ipcDeliver cur e value perm k).envs e).envStatus ≠ .free := by
      rw [ipcDeliver_self]
      exact fun free => by cases free
    have delivered : TlbInv managed (ipcDeliver cur e value perm k) := by
      refine inv.update (e := e) used now (fun b ne => ipcDeliver_others ne) ?_ ?_ ?_ rfl rfl
      · rw [ipcDeliver_self]
      · rw [ipcDeliver_self]
      · rw [ipcDeliver_self]
    rcases moved with rfl | ⟨_, _, insert⟩
    · exact delivered
    · refine delivered.operates pages'.pages ⟨rfl, e, ?_⟩
      rw [ipcDeliver_roots used, ipcDeliver_self]
      exact pageInsert_state_moves pages.pages inv.template (rootsOf_used used) (pdx_user (pages.dst e)) (fun _ _ => trivial)
        insert

theorem sysIpcRecv_tlb {dstva : Word} (inv : TlbInv managed k) (env : EnvInv k) (current : k.curenv = some cur)
    (h : (sysIpcRecv cur dstva k).state = some k') : TlbInv managed k' := by
  rcases sysIpcRecv_state h with ⟨_, rfl⟩ | ⟨_, mid, left, now, h⟩
  · exact inv
  · refine schedule_tlb (inv.update (e := cur) (env.current_used current) ?_ left.others ?_ ?_ ?_ left.vm left.basePgdir) h
    · rw [now]
      exact fun free => by cases free
    · rw [now]
    · rw [now]
    · rw [now]

theorem syscall_tlb {tf : Trapframe} {call : Call} (inv : TlbInv managed k) (pages : PageInv managed k) (env : EnvInv k)
    (wf : k.table.WellFormed) (current : k.curenv = some cur) (meets : TlbGuard k (.syscall tf call))
    (h : (syscallTable cur call (k.trap tf)).state = some k') : ∃ managed', PageInv managed' k' ∧ TlbInv managed' k' := by
  have inv' : TlbInv managed (k.trap tf) := inv.keep rfl rfl (fun _ => rfl) rfl
  have pages' := pages.trap tf
  have env' : EnvInv (k.trap tf) := env.setFrame _
  by_cases fork : call = .exofork
  · subst fork
    exact sysExofork_tlb inv' pages' env' wf h
  · have meets' : PageGuard k (.syscall tf call) := by
      cases call with
      | exofork => exact absurd rfl fork
      | _ => exact meets
    refine ⟨managed, syscall_pages pages env current meets' h, ?_⟩
    cases call with
    | yield => exact schedule_tlb inv' (schedule_state (switch_state h))
    | envDestroy envid status =>
      exact sysEnvDestroy_tlb inv' pages' env' wf current
        (fun e reaps => meets' cur e current ⟨reaps.1, reaps.2, reaps.3, reaps.4⟩) h
    | memAlloc envid va perm =>
      exact inv'.operates pages'.pages (sysMemAlloc_operates pages' inv'.template env' current h)
    | memMap srcid srcva dstid dstva perm =>
      exact inv'.operates pages'.pages (sysMemMap_operates pages' inv'.template env' current h)
    | memUnmap envid va => exact inv'.operates pages'.pages (sysMemUnmap_operates pages' inv'.template env' current h)
    | exofork => exact absurd rfl fork
    | setEnvStatus envid status => exact sysSetEnvStatus_tlb inv' env' current h
    | ipcTrySend envid value srcva perm => exact sysIpcTrySend_tlb inv' pages' env' current h
    | ipcRecv dstva => exact sysIpcRecv_tlb inv' env' current h

theorem step_tlb {op : Op} (inv : TlbInv managed k) (pages : PageInv managed k) (env : EnvInv k) (wf : k.table.WellFormed)
    (meets : TlbGuard k op) (h : step k op = some k') : ∃ managed', PageInv managed' k' ∧ TlbInv managed' k' := by
  cases op with
  | syscall tf call =>
    obtain ⟨cur, current, h⟩ := Option.bind_eq_some_iff.mp h
    obtain ⟨after, mid, called, rfl⟩ := doSyscall_state h
    obtain ⟨managed', pages', inv'⟩ := syscall_tlb inv pages env wf current meets called
    exact ⟨managed', ⟨pages'.pages, pages'.space, pages'.dst⟩, inv'.keep rfl rfl (fun _ => rfl) rfl⟩
  | timer tf =>
    refine ⟨managed, step_pages pages env (show PageGuard k (.timer tf) from trivial) h, ?_⟩
    exact schedule_tlb (k := { k with tf := tf }) (inv.keep rfl rfl (fun _ => rfl) rfl) (schedule_state h)
  | tlbRefill va victim =>
    refine ⟨managed, step_pages pages env (show PageGuard k (.tlbRefill va victim) from trivial) h, ?_⟩
    obtain ⟨cur, current, h⟩ := Option.bind_eq_some_iff.mp h
    rw [pages.space cur current] at h
    have used := env.current_used current
    cases result : doTlbRefill va (k.envs cur).envPgdir (asidWord (k.envs cur).envAsid) victim k.vm with
    | ok u vm =>
      rw [result] at h
      cases h
      exact inv.refill pages.pages used (fun b there same => wf.distinct b cur there used same) result
    | err code vm => exact absurd result (doTlbRefill_noErr _ _ _ _ _ _ _)
    | stop cause =>
      rw [result] at h
      cases h
  | envCreate binary priority =>
    exact ⟨managed, step_pages pages env (show PageGuard k (.envCreate binary priority) from meets) h, envCreate_tlb inv pages env wf meets h⟩

section boot

variable {pgdir pp : Nat} {asid va perm : Word}

theorem mapSegment_tlb {n : Nat} {u : Unit} (h : mapSegment pgdir asid pp va n perm vm = .ok u vm') :
    ∀ t ∈ vm'.tlb, t ∈ vm.tlb := by
  refine Result.forRange_ok (fun _ mid => ∀ t ∈ mid.tlb, t ∈ vm.tlb) (fun _ there => there) ?_ h
  intro i s t _ before body x there
  exact before x ((pageInsert_settled (panicOn_ok body)).tlb x there)

theorem buildBasePgdir_tlb {p : Nat} (h : buildBasePgdir vm = .ok p vm') : ∀ t ∈ vm'.tlb, t ∈ vm.tlb := by
  obtain ⟨q, vm1, alloc, h⟩ := Result.bind_ok h
  obtain ⟨_, vm2, first, h⟩ := Result.bind_ok h
  obtain ⟨_, vm3, second, h⟩ := Result.bind_ok h
  cases h
  obtain ⟨rest, _, _, rfl⟩ := pageAlloc_ok (panicOn_ok alloc)
  intro t there
  exact mapSegment_tlb first t (mapSegment_tlb second t there)

end boot

theorem boot_tlb {npage : Nat} {mem : Nat → Nat → Word} (small : npage ≤ 2^20) (booted : boot npage mem = some k) :
    TlbInv (Managed k) k := by
  obtain ⟨p, vm, fits, built, rfl⟩ := boot_init booted
  obtain ⟨⟨used, build⟩, template⟩ := buildBasePgdir_building small (Nat.zero_lt_of_lt fits) built
  have roots : ∀ e, rootsOf (initKernel p vm) e = none := fun e => rfl
  have empty : ∀ asid s lo, ¬ cached vm asid s lo := by
    rintro asid s lo ⟨t, there, _⟩
    cases buildBasePgdir_tlb built t there
  refine ⟨⟨fun e root i found => ?_, fun i low high mine => ?_⟩, fun e used => absurd (roots e) used,
    fun asid _ s lo copy => absurd copy (empty _ s lo)⟩
  · cases (roots e).symm.trans found
  · have bound : i < 1024 := Nat.lt_trans high (pdx_lt uvpt)
    have table : entry vm p ⟨i, bound⟩ = some (ppn (vm.mem p i)) := pageOf_some.mpr ⟨template i low high, rfl⟩
    exact (build.away ⟨i, bound⟩ _ table).2 mine.1

/-- In every run whose steps meet `TlbGuard` the TLB agrees with the page tables. -/
theorem tlb_coherent {npage : Nat} {mem : Nat → Nat → Word} {k0 : Kernel} {ops : List Op} (small : npage ≤ 2^20)
    (booted : boot npage mem = some k0) (run : Run step TlbGuard k0 ops k) : TlbCoherent k := by
  obtain ⟨_, _, managed, _, inv⟩ := run.invariant
    (fun k => EnvInv k ∧ k.table.WellFormed ∧ ∃ managed, PageInv managed k ∧ TlbInv managed k)
    ⟨boot_envInv booted, boot_wellFormed booted, Managed k0, boot_pages small booted, boot_tlb small booted⟩
    fun t op u inv meets next => by
      obtain ⟨env, wf, managed, pages, inv⟩ := inv
      exact ⟨step_envInv env next, step_wellFormed env wf next, step_tlb inv pages env wf meets next⟩
  exact inv.coherent

set_option maxRecDepth 100000 in
theorem tlb_coherent_touchRun : ∃ k0 k, clearBoot = some k0 ∧ Run step TlbGuard k0 touchRun k ∧ TlbCoherent k := by
  have check : (clearBoot.bind fun k0 => Run.exec step k0 touchRun).isSome = true := by
    rw [clearBoot_eq]
    decide +kernel
  obtain ⟨k, check⟩ := Option.isSome_iff_exists.mp check
  obtain ⟨k0, booted, exec⟩ := Option.bind_eq_some_iff.mp check
  have guarded : Run step TlbGuard k0 touchRun k := by
    refine Run.of_exec (fun op mem t => ?_) exec
    simp only [touchRun, List.mem_cons, List.not_mem_nil, or_false] at mem
    rcases mem with rfl | rfl | rfl | rfl | rfl
    · intro page inside
      cases inside
    · trivial
    · exact (by decide : FlagBits pteD)
    · trivial
    · trivial
  exact ⟨k0, k, booted, guarded, tlb_coherent (by decide) booted guarded⟩

/-- The page at `0x7fe00000` of the window, above the entries that `env_free` visits. -/
def highSlot : VPage := (windowFin, ⟨512, by decide⟩)

/-- The TLB has a valid half-entry for `highSlot` under the ASID of env 1, whose directory has no such entry. -/
def stale (k : Kernel) : Bool :=
  (k.envs 1).envStatus != .free && (leaf (rootsOf k) k.vm 1 highSlot).isNone &&
    k.vm.tlb.any fun t => t.asid == asidWord (k.envs 1).envAsid &&
      t.vpn2.toNat == (highSlot.1.val * 1024 + highSlot.2.val) / 2 && t.entryLo0 &&& entryLoV != 0

theorem stale_incoherent (h : stale k = true) : ¬ TlbCoherent k := by
  simp only [stale, Bool.and_eq_true, bne_iff_ne, beq_iff_eq, List.any_eq_true, Option.isNone_iff_eq_none] at h
  obtain ⟨⟨used, empty⟩, t, there, ⟨tag, covers⟩, valid⟩ := h
  intro coherent
  exact (coherent 1 used).no_copy (s := highSlot) (v := t.entryLo0) empty ⟨t, there, tag, covers, rfl, valid⟩

/-- A child reads its window at `0x7fe00000` and exits, and its parent reaps it and forks again. -/
def staleRun : List Op := leakRun ++ [.call .exofork]

/-- The next env gets the ASID and sees the page of the last one. -/
theorem tlb_stale : ∃ k0 k, clearBoot = some k0 ∧ Run step (fun _ _ => True) k0 staleRun k ∧ ¬ TlbCoherent k := by
  have check : (clearBoot.bind fun k0 => (Run.exec step k0 staleRun).map stale) = some true := by
    rw [clearBoot_eq]
    decide +kernel
  obtain ⟨k0, booted, check⟩ := Option.bind_eq_some_iff.mp check
  obtain ⟨k, exec, found⟩ := Option.map_eq_some_iff.mp check
  exact ⟨k0, k, booted, Run.of_exec (fun _ _ _ => trivial) exec, stale_incoherent found⟩

end Mos
