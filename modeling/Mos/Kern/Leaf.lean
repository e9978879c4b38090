import Mos.Kern.PageRun
import Mos.Lib.Cache

namespace Mos

/-- A page of the virtual address space: its page directory entry and its entry in that table. -/
abbrev VPage := Fin 1024 × Fin 1024

def vpageOf (va : Word) : VPage := (pdxFin va, ptxFin va)

def leafOf (w : Word) : Option Word := if w &&& pteV = 0 then none else some w

/-- The page in which the MMU looks up the entries below directory entry `i`. -/
def tableOf (roots : Roots) (vm : Vm) (e : EnvPtr) (i : Fin 1024) : Option Nat :=
  (roots e).bind fun root => entry vm root.pgdir i

/-- The page table entry of a virtual page of `e`, when it is valid. -/
def leaf (roots : Roots) (vm : Vm) (e : EnvPtr) (s : VPage) : Option Word :=
  (tableOf roots vm e s.1).bind fun t => leafOf (vm.mem t s.2.val)

/-- The copies of `base_pgdir`'s entries, which lead out of the managed pages. -/
structure Template (managed : Nat → Prop) (base : Nat) (roots : Roots) (vm : Vm) : Prop where
  copied : ∀ e root i, roots e = some root → pdx utop ≤ i → i < pdx uvpt → vm.mem root.pgdir i = vm.mem base i
  outside : ∀ i, pdx utop ≤ i → i < pdx uvpt → ¬ managed (ppn (vm.mem base i))

/-- The directory's own entries are seen in the window of the self map. -/
def windowFin : Fin 1024 := ⟨pdx uvpt, pdx_lt uvpt⟩

variable {managed : Nat → Prop} {base : Nat} {roots : Roots} {vm vm' : Vm}
variable {e b : EnvPtr} {root : Root} {i j : Fin 1024} {s : VPage} {t : Nat} {w : Word}

theorem leafOf_some : leafOf w = some w ↔ w &&& pteV ≠ 0 := by
  unfold leafOf
  split
  · rename_i invalid
    exact iff_of_false (by simp) fun valid => valid invalid
  · rename_i valid
    exact iff_of_true rfl valid

theorem leafOf_none : leafOf w = none ↔ w &&& pteV = 0 := by
  unfold leafOf
  split
  · rename_i invalid
    exact iff_of_true rfl invalid
  · rename_i valid
    exact iff_of_false (by simp) valid

theorem leafOf_eq {x : Word} (h : leafOf w = some x) : x = w ∧ w &&& pteV ≠ 0 := by
  unfold leafOf at h
  split at h
  · cases h
  · rename_i valid
    exact ⟨(Option.some.inj h).symm, valid⟩

theorem pageOf_leafOf (w : Word) : pageOf w = (leafOf w).map ppn := by
  unfold pageOf leafOf
  split
  · rfl
  · rfl

theorem tableOf_found (found : roots e = some root) : tableOf roots vm e i = entry vm root.pgdir i := by
  rw [tableOf, found, Option.bind_some]

theorem tableOf_own (own : ¬ Shared i) : tableOf roots vm e i = target roots vm (.pde e i) := by
  cases found : roots e with
  | none => simp [tableOf, target, found]
  | some root => rw [tableOf_found found, target_pde found own]

theorem tableOf_window (pages : Pages managed base roots vm) (found : roots e = some root) :
    tableOf roots vm e windowFin = some root.pgdir := by
  rw [tableOf_found found, entry, pageOf_some]
  rw [show vm.mem root.pgdir windowFin.val = _ from pages.self e root found]
  refine ⟨self_valid root.pgdir, ?_⟩
  rw [ppn_or_flags _ pteV (by decide), ppn_page2pa (pages.target_small (target_pgdir found))]

theorem leaf_table (table : tableOf roots vm e i = some t) : leaf roots vm e (i, j) = leafOf (vm.mem t j.val) := by
  rw [leaf, table, Option.bind_some]

theorem leaf_none (table : tableOf roots vm e i = none) : leaf roots vm e (i, j) = none := by
  rw [leaf, table, Option.bind_none]

theorem leaf_window (pages : Pages managed base roots vm) (found : roots e = some root) :
    leaf roots vm e (windowFin, j) = leafOf (vm.mem root.pgdir j.val) := leaf_table (tableOf_window pages found)

theorem target_leaf (own : ¬ Shared i) : target roots vm (.pte e i j) = (leaf roots vm e (i, j)).map ppn := by
  have same : tableOf roots vm e i = target roots vm (.pde e i) := tableOf_own own
  cases table : tableOf roots vm e i with
  | none => rw [leaf_none table, target_pte_none (same ▸ table), Option.map_none]
  | some t => rw [leaf_table table, target_pte (same ▸ table), entry, pageOf_leafOf]

/-- The three kinds of tables: the env's own, its directory in the window, and those of the template. -/
theorem tableOf_cases (pages : Pages managed base roots vm) (template : Template managed base roots vm)
    (table : tableOf roots vm e i = some t) :
    (¬ Shared i ∧ target roots vm (.pde e i) = some t) ∨ (i = windowFin ∧ target roots vm (.pgdir e) = some t) ∨
      ¬ managed t := by
  by_cases shared : Shared i
  · cases found : roots e with
    | none =>
      rw [tableOf, found] at table
      cases table
    | some root =>
      rcases Nat.lt_or_eq_of_le shared.2 with inside | last
      · refine Or.inr (Or.inr ?_)
        rw [tableOf_found found, entry, pageOf_some] at table
        rw [← table.2, template.copied e root i.val found shared.1 inside]
        exact template.outside i.val shared.1 inside
      · obtain rfl : i = windowFin := Fin.ext last
        refine Or.inr (Or.inl ⟨rfl, ?_⟩)
        rw [target_pgdir found, ← tableOf_window pages found, table]
  · rw [tableOf_own shared] at table
    exact Or.inl ⟨shared, table⟩

theorem tableOf_page (pages : Pages managed base roots vm) (template : Template managed base roots vm)
    (table : tableOf roots vm e i = some t) : (∃ r, r.Table ∧ target roots vm r = some t) ∨ ¬ managed t := by
  rcases tableOf_cases pages template table with ⟨_, own⟩ | ⟨_, window⟩ | out
  · exact Or.inl ⟨.pde e i, trivial, own⟩
  · exact Or.inl ⟨.pgdir e, trivial, window⟩
  · exact Or.inr out

theorem tableOf_dirs (dirs : ∀ root, roots e = some root → vm'.mem root.pgdir i.val = vm.mem root.pgdir i.val) :
    tableOf roots vm' e i = tableOf roots vm e i := by
  cases found : roots e with
  | none => rw [tableOf, tableOf, found, Option.bind_none, Option.bind_none]
  | some root => rw [tableOf_found found, tableOf_found found, entry, entry, dirs root found]

theorem leaf_congr (pages : Pages managed base roots vm) (template : Template managed base roots vm)
    (tables : ∀ r pp, r.Table → target roots vm r = some pp → vm'.mem pp = vm.mem pp)
    (outside : ∀ pp, ¬ managed pp → vm'.mem pp = vm.mem pp) : leaf roots vm' e = leaf roots vm e := by
  funext s
  obtain ⟨i, j⟩ := s
  have same : tableOf roots vm' e i = tableOf roots vm e i :=
    tableOf_dirs fun root found => congrFun (tables (.pgdir e) root.pgdir trivial (target_pgdir found)) _
  cases table : tableOf roots vm e i with
  | none => rw [leaf_none table, leaf_none (same.trans table)]
  | some t =>
    rw [leaf_table table, leaf_table (same.trans table)]
    rcases tableOf_page pages template table with ⟨r, kind, full⟩ | out
    · rw [tables r t kind full]
    · rw [outside t out]

theorem leaf_of_mem (same : vm'.mem = vm.mem) : leaf roots vm' = leaf roots vm := by
  funext e s
  unfold leaf tableOf entry
  rw [same]

theorem tableOf_writePte (pages : Pages managed base roots vm) (table : target roots vm (.pde e i) = some t)
    (k : Fin 1024) : tableOf roots (vm.write ⟨t, j.val⟩ w) b k = tableOf roots vm b k :=
  tableOf_dirs fun root found => by rw [write_mem_ne vm (pages.pgdir_ne_table found table)]

theorem table_own (table : target roots vm (.pde e i) = some t) : ¬ Shared i ∧ tableOf roots vm e i = some t := by
  have own : ¬ Shared i := by
    intro shared
    cases found : roots e <;> simp [target, found, shared] at table
  exact ⟨own, (tableOf_own own).trans table⟩

theorem leaf_writePte (pages : Pages managed base roots vm) (template : Template managed base roots vm)
    (table : target roots vm (.pde e i) = some t) :
    leaf roots (vm.write ⟨t, j.val⟩ w) b s = if b = e ∧ s = (i, j) then leafOf w else leaf roots vm b s := by
  obtain ⟨k, l⟩ := s
  have here := (table_own table).2
  have same : tableOf roots (vm.write ⟨t, j.val⟩ w) b k = tableOf roots vm b k := tableOf_writePte pages table k
  cases there : tableOf roots vm b k with
  | none =>
    rw [leaf_none there, leaf_none (same.trans there), if_neg]
    rintro ⟨rfl, eq⟩
    cases eq
    cases there.symm.trans here
  | some u =>
    rw [leaf_table there, leaf_table (same.trans there)]
    by_cases page : u = t
    · subst page
      have slot : b = e ∧ k = i := by
        rcases tableOf_cases pages template there with ⟨_, also⟩ | ⟨_, dir⟩ | out
        · simpa using pages.sole (.pde e i) (.pde b k) u trivial table also
        · cases pages.sole (.pde e i) (.pgdir b) u trivial table dir
        · exact absurd (pages.owned _ u table) out
      obtain ⟨rfl, rfl⟩ := slot
      by_cases index : l = j
      · rw [if_pos ⟨rfl, by rw [index]⟩, index, write_mem_self]
      · rw [if_neg fun eq => index (Prod.mk.inj eq.2).2, write_mem_index vm u fun eq => index (Fin.ext eq)]
    · rw [write_mem_ne vm page, if_neg]
      rintro ⟨rfl, eq⟩
      cases eq
      exact page (Option.some.inj (there.symm.trans here))

/-- A write to an entry of `e`'s own directory shows in the window, and below the entry when tables without
    pages are put there or taken away. -/
theorem leaf_writePde (pages : Pages managed base roots vm) (template : Template managed base roots vm)
    (found : roots e = some root) (own : ¬ Shared i) (old : ∀ j, target roots vm (.pte e i j) = none)
    (new : ∀ t, pageOf w = some t → t ≠ root.pgdir ∧ ∀ j, entry vm t j = none) :
    leaf roots (vm.write ⟨root.pgdir, i.val⟩ w) b s =
      if b = e ∧ s = (windowFin, i) then leafOf w else leaf roots vm b s := by
  obtain ⟨k, l⟩ := s
  have away : i ≠ windowFin := by
    rintro rfl
    exact own ⟨by decide, le_refl _⟩
  by_cases here : b = e ∧ k = i
  · -- below the entry itself nothing is valid before or after
    obtain ⟨rfl, rfl⟩ := here
    rw [if_neg fun eq => away (Prod.mk.inj eq.2).1]
    have before : leaf roots vm b (k, l) = none := by
      have empty := old l
      rwa [target_leaf own, Option.map_eq_none_iff] at empty
    rw [before]
    have now : tableOf roots (vm.write ⟨root.pgdir, k.val⟩ w) b k = pageOf w := by
      rw [tableOf_found found, entry_write, if_pos ⟨rfl, rfl⟩]
    cases value : pageOf w with
    | none => exact leaf_none (now.trans value)
    | some t =>
      obtain ⟨other, empty⟩ := new t value
      rw [leaf_table (now.trans value), write_mem_ne vm other]
      have invalid := empty l
      rwa [entry, pageOf_leafOf, Option.map_eq_none_iff] at invalid
  · have same : tableOf roots (vm.write ⟨root.pgdir, i.val⟩ w) b k = tableOf roots vm b k := by
      refine tableOf_dirs fun root' there => ?_
      by_cases page : root'.pgdir = root.pgdir
      · have env := pages.pgdir_inj found there page
        rw [page, write_mem_index vm _ fun eq => here ⟨env, Fin.ext eq⟩]
      · rw [write_mem_ne vm page]
    cases there : tableOf roots vm b k with
    | none =>
      rw [leaf_none there, leaf_none (same.trans there), if_neg]
      rintro ⟨rfl, eq⟩
      cases eq
      cases there.symm.trans (tableOf_window pages found)
    | some u =>
      rw [leaf_table there, leaf_table (same.trans there)]
      by_cases page : u = root.pgdir
      · subst page
        have slot : b = e ∧ k = windowFin := by
          rcases tableOf_cases pages template there with ⟨_, also⟩ | ⟨window, dir⟩ | out
          · cases pages.sole (.pgdir e) (.pde b k) root.pgdir trivial (target_pgdir found) also
          · obtain rfl : b = e := by simpa using pages.sole (.pgdir e) (.pgdir b) root.pgdir trivial (target_pgdir found) dir
            exact ⟨rfl, window⟩
          · exact absurd (pages.owned _ root.pgdir (target_pgdir found)) out
        obtain ⟨rfl, rfl⟩ := slot
        by_cases index : l = i
        · rw [if_pos ⟨rfl, by rw [index]⟩, index, write_mem_self]
        · rw [if_neg fun eq => index (Prod.mk.inj eq.2).2, write_mem_index vm _ fun eq => index (Fin.ext eq)]
      · rw [write_mem_ne vm page, if_neg]
        rintro ⟨rfl, eq⟩
        cases eq
        exact page (Option.some.inj (there.symm.trans (tableOf_window pages found)))

end Mos
