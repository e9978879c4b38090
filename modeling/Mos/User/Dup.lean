import Mos.User.Close

namespace Mos.FdLib

variable {a : Answers} {u u' : User} {old new fdnum : Int} {r : Word} {fuel i j n v p : Nat} {b : Bool}

def IsOpen (u : User) (fdnum : Int) : Prop := 0 ≤ fdnum ∧ fdnum < maxFd ∧ u.maps (index2Fd fdnum) ≠ none

def Own (fdnum : Int) (v : Nat) : Prop := v = index2Fd fdnum ∨ ∃ j, j < 1024 ∧ v = window fdnum j

/-- The pages of the descriptors below `MAXFD`. -/
def InTable (v : Nat) : Prop := ∃ fdnum, 0 ≤ fdnum ∧ fdnum < maxFd ∧ Own fdnum v

/-- What `dup` is to do. -/
def Duplicates (u : User) (old new : Int) : Option (Except Word Int × User) → Prop
  | none => False
  | some (.ok n, u') =>
    n = new ∧ IsOpen u old ∧ 0 ≤ new ∧ new < maxFd ∧ u'.maps (index2Fd new) = u.maps (index2Fd old) ∧
      (∀ j, j < 1024 → u'.maps (window new j) = u.maps (window old j)) ∧ ∀ v, ¬ Own new v → u'.maps v = u.maps v
  | some (.error _, u') =>
    ¬ (IsOpen u old ∧ 0 ≤ new ∧ new < maxFd) ∧ (∀ fdnum, IsOpen u fdnum → ∀ v, Own fdnum v → u'.maps v = u.maps v) ∧
      ∀ v, ¬ InTable v → u'.maps v = u.maps v

/-- The loops of `close` end. -/
def CloseEnds (a : Answers) (u : User) (fdnum : Int) : Prop :=
  ∀ p, fdLookup u fdnum = some p → devLookup (u.page p).devId = some .file → Ends (u.page p).size a.dirty

/-- When `dup` does it: `old` is open, `new` is a number of the table, closing `new` takes no page of another
    descriptor and leaves no page in the window of `new` that `old` has no page for, and memory is there for the page
    tables. -/
structure Dupable (a : Answers) (u : User) (old new : Int) : Prop where
  isOpen : IsOpen u old
  low : 0 ≤ new
  high : new < maxFd
  ends : CloseEnds a u new
  source : ¬ Frees a u new (index2Fd old)
  others : ∀ v, Frees a u new v → Own new v ∨ u.maps v = none
  clean : ∀ j, j < 1024 → u.maps (window old j) = none → u.maps (window new j) = none ∨ Frees a u new (window new j)
  room : ∀ j, j < 1024 → u.maps (window old j) ≠ none → a.room j = true
  roomFd : a.room 1024 = true

theorem fdLookup_open (isOpen : IsOpen u fdnum) : fdLookup u fdnum = u.maps (index2Fd fdnum) := if_pos isOpen.2.1

theorem close_ends (done : close a fuel fdnum u = some (r, u')) : CloseEnds a u fdnum := by
  intro p found known
  unfold close at done
  simp only [found, known] at done
  obtain ⟨⟨r', mid⟩, closed, -⟩ := Option.bind_eq_some_iff.mp done
  exact (fileClose_spec closed).2.1

theorem close_total (low : 0 ≤ fdnum) (high : fdnum < maxFd) (ends : CloseEnds a u fdnum) :
    ∃ fuel r u', close a fuel fdnum u = some (r, u') := by
  cases found : fdLookup u fdnum with
  | none => exact ⟨0, -eInval, u, by simp only [close, found]⟩
  | some p =>
    cases known : devLookup (u.page p).devId with
    | none => exact ⟨0, -eInval, u, by simp only [close, found, known]⟩
    | some dev =>
      obtain ⟨fuel, r, mid, closed⟩ : ∃ fuel r mid, devClose a fuel fdnum dev (u.page p).size u = some (r, mid) := by
        cases dev with
        | file => exact fileClose_total (ends p found known)
        | cons => exact ⟨0, 0, u, rfl⟩
        | pipe => exact ⟨0, _, _, rfl⟩
      refine ⟨fuel, r, mid.unmap (index2Fd fdnum), ?_⟩
      simp only [close, found, known, closed, Option.bind_some, memUnmap, if_pos (legal_index2Fd low high), Option.map_some]

theorem frees_fd (freed : Frees a u fdnum v) : Frees a u fdnum (index2Fd fdnum) := by
  obtain ⟨p, dev, found, known, -⟩ := freed
  exact ⟨p, dev, found, known, .inl rfl⟩

theorem memMap_ok (legal : legalVpn v = true) (legal' : legalVpn i = true) (mapped : u.maps v = some p) (room : b = true) :
    memMap v i b u = .ok { u with maps := Function.update u.maps i (some p) } := by
  simp [memMap, legal, legal', mapped, room]

theorem memMap_inv (done : memMap v i b u = .ok u') :
    legalVpn i = true ∧ ∃ p, u.maps v = some p ∧ u' = { u with maps := Function.update u.maps i (some p) } := by
  unfold memMap at done
  split at done
  · cases done
  · rename_i legal
    split at done
    · cases done
    · rename_i p mapped
      split at done
      · cases done
        simp only [Bool.or_eq_true, Bool.not_eq_true', not_or, Bool.not_eq_false] at legal
        exact ⟨legal.2, p, mapped, rfl⟩
      · cases done

theorem windows_apart (low : 0 ≤ old) (high : old < maxFd) (low' : 0 ≤ new) (high' : new < maxFd) (hi : i < 1024)
    (hj : j < 1024) (ne : i ≠ j) : window old i ≠ window new j := by
  rw [window_eq low high hi, window_eq low' high' hj]
  omega

theorem dupLoop_spec (low : 0 ≤ old) (high : old < maxFd) (low' : 0 ≤ new) (high' : new < maxFd)
    (sum : i + n = 1024) (room : ∀ j, j < 1024 → u.maps (window old j) ≠ none → a.room j = true) :
    ∃ u', dupLoop a old new n i u = .ok u' ∧
      (∀ j, i ≤ j → j < 1024 → u.maps (window old j) ≠ none → u'.maps (window new j) = u.maps (window old j)) ∧
      ∀ v, (∀ j, i ≤ j → j < 1024 → u.maps (window old j) ≠ none → v ≠ window new j) → u'.maps v = u.maps v := by
  induction n generalizing i u with
  | zero => exact ⟨u, rfl, fun j ge below _ => by omega, fun _ _ => rfl⟩
  | succ n ih =>
    have inside : i < 1024 := by omega
    unfold dupLoop
    cases mapped : u.maps (window old i) with
    | none =>
      obtain ⟨u', done, copied, kept⟩ := ih (i := i + 1) (by omega) room
      refine ⟨u', done, fun j ge below held => ?_, fun v other => kept v fun j ge => other j (by omega)⟩
      rcases Nat.eq_or_lt_of_le ge with rfl | later
      · exact absurd mapped held
      · exact copied j later below held
    | some p =>
      have here := memMap_ok (legal_window low high inside) (legal_window low' high' inside) mapped
        (room i inside (by rw [mapped]; nofun))
      simp only [here]
      have apart : ∀ j, i < j → j < 1024 → window old j ≠ window new i := fun j later below =>
        windows_apart low high low' high' below inside (Nat.ne_of_gt later)
      obtain ⟨u', done, copied, kept⟩ := ih (i := i + 1) (u := { u with maps := Function.update u.maps (window new i) (some p) }) (by omega)
        fun j below held => by
          by_cases same : window old j = window new i
          · obtain rfl : i = j := by
              by_contra ne
              exact windows_apart low high low' high' below inside (Ne.symm ne) same
            exact room i inside (by rw [mapped]; nofun)
          · simp only [Function.update_of_ne same] at held
            exact room j below held
      refine ⟨u', done, fun j ge below held => ?_, fun v other => ?_⟩
      · rcases Nat.eq_or_lt_of_le ge with rfl | later
        · rw [kept _ fun j later below _ same => ?_]
          · simp only [Function.update_self, mapped]
          · rw [window_eq low' high' inside, window_eq low' high' below] at same
            omega
        · have same := Function.update_of_ne (apart j later below) (some p) u.maps
          rw [copied j later below (by simp only [same]; exact held)]
          exact same
      · have notHere : v ≠ window new i := other i (Nat.le_refl i) inside (by rw [mapped]; nofun)
        rw [kept v fun j later below held => ?_]
        · exact Function.update_of_ne notHere _ _
        · simp only [Function.update_of_ne (apart j later below)] at held
          exact other j (Nat.le_of_lt later) below held

theorem dupMaps_spec (low : 0 ≤ old) (high : old < maxFd) (low' : 0 ≤ new) (high' : new < maxFd)
    (room : ∀ j, j < 1024 → u.maps (window old j) ≠ none → a.room j = true) (roomFd : a.room 1024 = true)
    (mapped : u.maps (index2Fd old) = some p) :
    ∃ u', dupMaps a old new u = .ok u' ∧ u'.maps (index2Fd new) = some p ∧
      (∀ j, j < 1024 → u.maps (window old j) ≠ none → u'.maps (window new j) = u.maps (window old j)) ∧
      (∀ j, j < 1024 → u.maps (window old j) = none → u'.maps (window new j) = u.maps (window new j)) ∧
      ∀ v, ¬ Own new v → u'.maps v = u.maps v := by
  obtain ⟨mid, loop, copied, kept⟩ := dupLoop_spec (u := u) (i := 0) (n := 1024) low high low' high' rfl room
  have fd : ∀ v, (∀ j, j < 1024 → v ≠ window new j) → mid.maps v = u.maps v := fun v other =>
    kept v fun j _ below _ => other j below
  have source : mid.maps (index2Fd old) = some p := by
    rw [fd _ fun j below => index2Fd_ne_window low high low' high' below]
    exact mapped
  have last := memMap_ok (legal_index2Fd low high) (legal_index2Fd low' high') source roomFd
  refine ⟨{ mid with maps := Function.update mid.maps (index2Fd new) (some p) }, ?_, Function.update_self .., ?_, ?_, ?_⟩
  · simp only [dupMaps, loop, last]
  · intro j below held
    exact (Function.update_of_ne (index2Fd_ne_window low' high' low' high' below).symm _ _).trans (copied j (Nat.zero_le j) below held)
  · intro j below empty
    refine (Function.update_of_ne (index2Fd_ne_window low' high' low' high' below).symm _ _).trans (kept _ fun k _ small held => ?_)
    rw [window_eq low' high' below, window_eq low' high' small]
    rintro same
    obtain rfl : j = k := by omega
    exact held empty
  · intro v other
    exact (Function.update_of_ne (fun here => other (.inl here)) _ _).trans
      (fd v fun j below here => other (.inr ⟨j, below, here⟩))

theorem dup_duplicates (dupable : Dupable a u old new) : ∃ fuel, Duplicates u old new (dup a fuel old new u) := by
  obtain ⟨isOpen, low', high', ends, source, others, clean, room, roomFd⟩ := dupable
  obtain ⟨low, high, mapped⟩ := isOpen
  obtain ⟨p, page⟩ := Option.ne_none_iff_exists'.mp mapped
  obtain ⟨fuel, r, mid, closed⟩ := close_total low' high' ends
  obtain ⟨-, gone, kept⟩ := close_spec closed
  -- Closing `new` takes no page of the window of `old`.
  have windowOld : ∀ j, j < 1024 → mid.maps (window old j) = u.maps (window old j) := by
    intro j below
    by_cases freed : Frees a u new (window old j)
    · rcases others _ freed with (fd | ⟨j', below', same⟩) | empty
      · exact absurd fd.symm (index2Fd_ne_window low' high' low high below)
      · rw [window_eq low high below, window_eq low' high' below'] at same
        obtain rfl : old = new := by omega
        exact absurd (frees_fd freed) source
      · rw [gone _ freed, empty]
    · exact kept _ freed
  obtain ⟨u', done, fd, copied, left, rest⟩ := dupMaps_spec (u := mid) low high low' high'
    (fun j below held => room j below (windowOld j below ▸ held)) roomFd
    ((kept _ source).trans page)
  have found : fdLookup u old = some p := (fdLookup_open ⟨low, high, mapped⟩).trans page
  refine ⟨fuel, ?_⟩
  simp only [dup, found, closed, Option.bind_some, done]
  refine ⟨rfl, ⟨low, high, mapped⟩, low', high', fd.trans page.symm, fun j below => ?_, fun v other => ?_⟩
  · by_cases held : mid.maps (window old j) = none
    · have empty := (windowOld j below).symm.trans held
      rw [left j below held, empty]
      by_cases freed : Frees a u new (window new j)
      · exact gone _ freed
      · rw [kept _ freed]
        exact (clean j below empty).resolve_right freed
    · rw [copied j below held]
      exact windowOld j below
  · rw [rest v other]
    by_cases freed : Frees a u new v
    · rw [gone v freed, (others v freed).resolve_left other]
    · exact kept v freed

theorem close_shrinks (done : close a fuel fdnum u = some (r, u')) (unmapped : u.maps v = none) : u'.maps v = none := by
  obtain ⟨-, gone, kept⟩ := close_spec done
  by_cases freed : Frees a u fdnum v
  · exact gone v freed
  · exact (kept v freed).trans unmapped

/-- The clean-up only unmaps, and it panics at an address that is not legal. -/
theorem dupUndo_spec (done : dupUndo new u = some u') :
    legalVpn (index2Fd new) = true ∧ (∀ j, j < 1024 → legalVpn (window new j) = true) ∧
      ∀ v, u.maps v = none → u'.maps v = none := by
  have unmapped : ∀ {w w' : User} {x : Nat}, memUnmap x w = some w' → ∀ v, w.maps v = none → w'.maps v = none := by
    intro w w' x step v empty
    obtain ⟨-, rfl⟩ := memUnmap_some step
    by_cases here : v = x
    · exact here ▸ unmap_none w x
    · exact (unmap_ne here).trans empty
  have loop : ∀ n, ∀ w, (List.range n).foldl (fun u i => u.bind (memUnmap (window new i))) (memUnmap (index2Fd new) u) = some w →
      legalVpn (index2Fd new) = true ∧ (∀ j, j < n → legalVpn (window new j) = true) ∧ ∀ v, u.maps v = none → w.maps v = none := by
    intro n
    induction n with
    | zero => exact fun w first => ⟨(memUnmap_some first).1, nofun, unmapped first⟩
    | succ n ih =>
      intro w last
      rw [List.range_succ, List.foldl_append, List.foldl_cons, List.foldl_nil] at last
      obtain ⟨mid, before, step⟩ := Option.bind_eq_some_iff.mp last
      obtain ⟨fd, legal, empty⟩ := ih mid before
      refine ⟨fd, fun j below => ?_, fun v none => unmapped step v (empty v none)⟩
      rcases Nat.lt_or_eq_of_le (Nat.le_of_lt_succ below) with less | rfl
      · exact legal j less
      · exact (memUnmap_some step).1
  exact loop 1024 u' done

theorem dupLoop_total (low : 0 ≤ old) (high : old < maxFd) (sum : i + n = 1024) (room : ∀ j, a.room j = true)
    (legal : ∀ j, j < 1024 → legalVpn (window new j) = true) : ∃ u', dupLoop a old new n i u = .ok u' := by
  induction n generalizing i u with
  | zero => exact ⟨u, rfl⟩
  | succ n ih =>
    have inside : i < 1024 := by omega
    unfold dupLoop
    cases mapped : u.maps (window old i) with
    | none => exact ih (i := i + 1) (by omega)
    | some p =>
      simp only [memMap_ok (legal_window low high inside) (legal i inside) mapped (room i)]
      exact ih (i := i + 1) (by omega)

/-- When memory is there, `dup` of a number of the table does what it is to do only under that condition. -/
theorem dupable_of_duplicates (nonneg : 0 ≤ old) (room : ∀ j, a.room j = true)
    (duplicates : Duplicates u old new (dup a fuel old new u)) : fdLookup u old = none ∨ Dupable a u old new := by
  cases found : fdLookup u old with
  | none => exact .inl rfl
  | some p =>
    refine .inr ?_
    have high : old < maxFd := by
      unfold fdLookup at found
      split at found
      · assumption
      · cases found
    have page : u.maps (index2Fd old) = some p := (if_pos high).symm.trans found
    have isOpen : IsOpen u old := ⟨nonneg, high, by rw [page]; nofun⟩
    cases closed : close a fuel new u with
    | none =>
      simp only [dup, found, closed, Option.bind_none, Duplicates] at duplicates
    | some result =>
      obtain ⟨r, mid⟩ := result
      simp only [dup, found, closed, Option.bind_some] at duplicates
      cases run : dupMaps a old new mid with
      | ok u' =>
        simp only [run, Duplicates] at duplicates
        obtain ⟨-, -, low', high', fd, windows, rest⟩ := duplicates
        obtain ⟨-, gone, kept⟩ := close_spec closed
        have source : mid.maps (index2Fd old) ≠ none := by
          unfold dupMaps at run
          split at run
          · cases run
          · rename_i w loop
            split at run
            · rename_i w' mapped
              obtain ⟨-, q, held, -⟩ := memMap_inv mapped
              obtain ⟨w'', loop', -, same⟩ := dupLoop_spec (u := mid) (i := 0) (n := 1024) nonneg high low' high' rfl fun j _ _ => room j
              cases loop.symm.trans loop'
              rw [same _ fun j _ below _ => index2Fd_ne_window nonneg high low' high' below] at held
              rw [held]
              nofun
            · cases run
        obtain ⟨q, held⟩ := Option.ne_none_iff_exists'.mp source
        obtain ⟨w, run', -, -, left, others⟩ := dupMaps_spec (u := mid) nonneg high low' high' (fun j _ _ => room j) (room 1024) held
        cases run.symm.trans run'
        refine ⟨isOpen, low', high', close_ends closed, fun freed => source (gone _ freed), fun v freed => ?_,
          fun j below empty => ?_, fun j _ _ => room j, room 1024⟩
        · by_cases own : Own new v
          · exact .inl own
          · exact .inr ((rest v own).symm.trans ((others v own).trans (gone v freed)))
        · by_cases freed : Frees a u new (window new j)
          · exact .inr freed
          · have midEmpty := close_shrinks closed empty
            exact .inl ((kept _ freed).symm.trans ((left j below midEmpty).symm.trans ((windows j below).trans empty)))
      | error e =>
        obtain ⟨r', last⟩ := e
        simp only [run] at duplicates
        cases undo : dupUndo new last with
        | none => simp only [undo, Option.map_none, Duplicates] at duplicates
        | some u' =>
          simp only [undo, Option.map_some, Duplicates] at duplicates
          obtain ⟨-, unchanged, -⟩ := duplicates
          obtain ⟨legalFd, legal, empty⟩ := dupUndo_spec undo
          obtain ⟨w, loop⟩ := dupLoop_total (u := mid) (i := 0) (n := 1024) nonneg high rfl room legal
          have lost : last.maps (index2Fd old) = none := by
            simp only [dupMaps, loop] at run
            cases mapped : w.maps (index2Fd old) with
            | none =>
              simp only [memMap, legal_index2Fd nonneg high, legalFd, mapped, Bool.not_true, Bool.or_false, Bool.false_eq_true,
                if_false, Except.error.injEq, Prod.mk.injEq] at run
              rw [← run.2]
              exact mapped
            | some q =>
              simp only [memMap_ok (legal_index2Fd nonneg high) legalFd mapped (room 1024)] at run
              cases run
          have same := unchanged old isOpen (index2Fd old) (.inl rfl)
          rw [empty _ lost, page] at same
          cases same

theorem dup_missing (missing : fdLookup u old = none) : Duplicates u old new (dup a fuel old new u) := by
  simp only [dup, missing]
  refine ⟨fun both => both.1.2.2 ?_, fun _ _ _ _ => rfl, fun _ _ => rfl⟩
  rw [← fdLookup_open both.1]
  exact missing

/-- `dup` duplicates the descriptor, or fails and changes nothing, when there is no page at `INDEX2FD(old)` or the
    condition above holds; for an `old` that is not negative and while memory is there, only then. -/
theorem dup_correct (a : Answers) (u : User) (old new : Int) :
    ((fdLookup u old = none ∨ Dupable a u old new) → ∃ fuel, Duplicates u old new (dup a fuel old new u)) ∧
      (0 ≤ old → (∀ j, a.room j = true) → (∃ fuel, Duplicates u old new (dup a fuel old new u)) →
        fdLookup u old = none ∨ Dupable a u old new) := by
  constructor
  · rintro (missing | dupable)
    · exact ⟨0, dup_missing missing⟩
    · exact dup_duplicates dupable
  · rintro nonneg room ⟨fuel, duplicates⟩
    exact dupable_of_duplicates nonneg room duplicates

theorem dup_correct_pair : ∃ fuel, Duplicates (oneFile 4096) 0 1 (dup allFine fuel 0 1 (oneFile 4096)) := by
  have missing : fdLookup (oneFile 4096) 1 = none := by decide
  have frees : ∀ v, ¬ Frees allFine (oneFile 4096) 1 v := by
    rintro v ⟨p, dev, found, -⟩
    cases missing.symm.trans found
  refine (dup_correct allFine (oneFile 4096) 0 1).1 (.inr ⟨⟨by decide, by decide, by decide⟩, by decide, by decide,
    fun p found => ?_, frees _, fun v freed => absurd freed (frees v), fun j below _ => .inl ?_, fun _ _ _ => rfl, rfl⟩)
  · cases missing.symm.trans found
  · have fd : window 1 j ≠ index2Fd 0 := (index2Fd_ne_window (by decide) (by decide) (by decide) (by decide) below).symm
    have first : window 1 j ≠ window 0 0 := by
      rw [window_eq (by decide) (by decide) below, window_eq (by decide) (by decide) (by decide)]
      omega
    unfold oneFile
    simp only [if_neg fd, if_neg first]

/-- `dup(0, 32)` succeeds, although 32 is no number of the table. -/
theorem dup_outside : ¬ ∃ fuel, Duplicates (oneFile 4096) 0 32 (dup allFine fuel 0 32 (oneFile 4096)) := by
  intro duplicates
  rcases (dup_correct allFine (oneFile 4096) 0 32).2 (by decide) (fun _ => rfl) duplicates with missing | dupable
  · cases missing
  · exact absurd dupable.high (by decide)

end Mos.FdLib
