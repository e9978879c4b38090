import Mos.User.FdTable

namespace Mos.FdLib

variable {a : Answers} {u u' : User} {fdnum : Int} {size r : Word} {dirty : Nat → Word} {fuel i j k v p : Nat} {dev : Dev}

theorem index2Fd_eq (low : 0 ≤ fdnum) (high : fdnum < maxFd) : index2Fd fdnum = fdTable + fdnum.toNat := by
  unfold index2Fd fdTable
  unfold maxFd at high
  omega

theorem window_eq (low : 0 ≤ fdnum) (high : fdnum < maxFd) (inside : j < 1024) :
    window fdnum j = fileBase + 1024 * fdnum.toNat + j := by
  unfold window fileBase
  unfold maxFd at high
  omega

theorem legal_index2Fd (low : 0 ≤ fdnum) (high : fdnum < maxFd) : legalVpn (index2Fd fdnum) = true := by
  rw [index2Fd_eq low high]
  unfold legalVpn fdTable
  unfold maxFd at high
  simp only [Bool.and_eq_true, decide_eq_true_eq]
  omega

theorem legal_window (low : 0 ≤ fdnum) (high : fdnum < maxFd) (inside : j < 1024) : legalVpn (window fdnum j) = true := by
  rw [window_eq low high inside]
  unfold legalVpn fileBase
  unfold maxFd at high
  simp only [Bool.and_eq_true, decide_eq_true_eq]
  omega

/-- The loop over the pages of a file gets to page `k`. -/
def Reaches (size : Word) (k : Nat) : Prop := ∀ k', k' ≤ k → 4096 * k' % 2 ^ 32 < size.toNat

def Failing (size : Word) (dirty : Nat → Word) : Prop := ∃ k, Reaches size k ∧ isErr (dirty k) = true

/-- The dirty requests that were sent before request `k` were answered without an error. -/
def Sent (size : Word) (dirty : Nat → Word) (k : Nat) : Prop :=
  ∀ k', k' < k → 4096 * k' % 2 ^ 32 < size.toNat ∧ isErr (dirty k') = false

theorem Sent.snoc (sent : Sent size dirty k) (reach : 4096 * k % 2 ^ 32 < size.toNat) (fine : isErr (dirty k) = false) :
    Sent size dirty (k + 1) := by
  intro k' below
  rcases Nat.lt_or_eq_of_le (Nat.le_of_lt_succ below) with less | rfl
  · exact sent k' less
  · exact ⟨reach, fine⟩

theorem dirtyLoop_failed (sent : Sent size dirty k) (done : dirtyLoop size dirty fuel k = some (some r)) :
    Failing size dirty := by
  induction fuel generalizing k with
  | zero => cases done
  | succ fuel ih =>
    unfold dirtyLoop at done
    split at done
    · rename_i reach
      split at done
      · rename_i failed
        refine ⟨k, fun k' le => ?_, failed⟩
        rcases Nat.lt_or_eq_of_le le with less | rfl
        · exact (sent k' less).1
        · exact reach
      · rename_i fine
        exact ih (sent.snoc reach (by simpa using fine)) done
    · cases done

theorem dirtyLoop_passed (sent : Sent size dirty k) (done : dirtyLoop size dirty fuel k = some none) :
    ¬ Failing size dirty ∧ size.toNat + 4096 ≤ 2 ^ 32 := by
  induction fuel generalizing k with
  | zero => cases done
  | succ fuel ih =>
    unfold dirtyLoop at done
    split at done
    · rename_i reach
      split at done
      · cases done
      · rename_i fine
        exact ih (sent.snoc reach (by simpa using fine)) done
    · rename_i stopped
      refine ⟨?_, by omega⟩
      rintro ⟨k', reaches, failed⟩
      by_cases before : k' < k
      · rw [(sent k' before).2] at failed
        cases failed
      · exact stopped (reaches k (Nat.le_of_not_lt before))

theorem dirtyLoop_ends (n : Nat) (ends : (∃ k', k' ≤ k + n ∧ isErr (dirty k') = true ∧ k ≤ k') ∨ ¬ Reaches size (k + n))
    (before : ∀ k', k' < k → 4096 * k' % 2 ^ 32 < size.toNat) :
    ∃ failed, dirtyLoop size dirty (n + 1) k = some failed := by
  induction n generalizing k with
  | zero =>
    unfold dirtyLoop
    by_cases reach : 4096 * k % 2 ^ 32 < size.toNat
    · rw [if_pos reach]
      rcases ends with ⟨k', le, failed, ge⟩ | stopped
      · obtain rfl : k' = k := by omega
        exact ⟨_, if_pos failed⟩
      · refine absurd (fun k' le => ?_) stopped
        rcases Nat.lt_or_eq_of_le le with less | rfl
        · exact before k' less
        · exact reach
    · exact ⟨none, if_neg reach⟩
  | succ n ih =>
    unfold dirtyLoop
    by_cases reach : 4096 * k % 2 ^ 32 < size.toNat
    · rw [if_pos reach]
      by_cases failed : isErr (dirty k) = true
      · exact ⟨_, if_pos failed⟩
      · rw [if_neg failed]
        refine ih ?_ fun k' below => ?_
        · rcases ends with ⟨k', le, isFailed, ge⟩ | stopped
          · refine .inl ⟨k', by omega, isFailed, ?_⟩
            rcases Nat.eq_or_lt_of_le ge with rfl | less
            · exact absurd isFailed failed
            · exact less
          · exact .inr (by rwa [Nat.add_right_comm, Nat.add_assoc])
        · rcases Nat.lt_or_eq_of_le (Nat.le_of_lt_succ below) with less | rfl
          · exact before k' less
          · exact reach
    · exact ⟨none, if_neg reach⟩

def Ends (size : Word) (dirty : Nat → Word) : Prop := Failing size dirty ∨ size.toNat + 4096 ≤ 2 ^ 32

theorem dirtyLoop_total (ends : Ends size dirty) : ∃ n, ∀ fuel, n ≤ fuel → ∃ failed, dirtyLoop size dirty (fuel + 1) 0 = some failed := by
  rcases ends with ⟨k, -, failed⟩ | bound
  · refine ⟨k, fun fuel le => dirtyLoop_ends fuel (.inl ⟨k, by omega, failed, Nat.zero_le k⟩) nofun⟩
  · refine ⟨2 ^ 20, fun fuel le => dirtyLoop_ends fuel (.inr fun reaches => ?_) nofun⟩
    have last := reaches (2 ^ 20 - 1) (by omega)
    omega

/-- The pages that the last loop of `file_close` unmaps. -/
def Unmaps (fdnum : Int) (size : Word) (v : Nat) : Prop :=
  ∃ k, 4096 * k < size.toNat ∧ (∀ k', k' ≤ k → legalVpn (window fdnum k') = true) ∧ v = window fdnum k

theorem unmapLoop_shrinks (done : unmapLoop fdnum size fuel k u = some (r, u')) :
    u'.page = u.page ∧ ∀ v, u.maps v = none → u'.maps v = none := by
  induction fuel generalizing k u with
  | zero => cases done
  | succ fuel ih =>
    unfold unmapLoop memUnmap at done
    split at done
    · split at done
      · rename_i mid unmapped
        split at unmapped
        · cases unmapped
          obtain ⟨samePage, later⟩ := ih done
          refine ⟨samePage, fun v unmapped => later v ?_⟩
          show Function.update u.maps _ none v = none
          by_cases here : v = window fdnum (k % 2 ^ 20)
          · rw [here, Function.update_self]
          · rw [Function.update_of_ne here]
            exact unmapped
        · cases unmapped
      · cases done
        exact ⟨rfl, fun _ unmapped => unmapped⟩
    · cases done
      exact ⟨rfl, fun _ unmapped => unmapped⟩

theorem unmapLoop_spec (bound : size.toNat + 4096 ≤ 2 ^ 32) (below : 4096 * k < size.toNat + 4096)
    (legal : ∀ k', k' < k → legalVpn (window fdnum k') = true) (done : unmapLoop fdnum size fuel k u = some (r, u')) :
    (∀ k', k ≤ k' → 4096 * k' < size.toNat → (∀ k'', k'' ≤ k' → legalVpn (window fdnum k'') = true) →
        u'.maps (window fdnum k') = none) ∧
      ∀ v, ¬ Unmaps fdnum size v → u'.maps v = u.maps v := by
  induction fuel generalizing k u with
  | zero => cases done
  | succ fuel ih =>
    unfold unmapLoop at done
    by_cases inside : 4096 * k < size.toNat
    · have small : 4096 * k % 2 ^ 32 < size.toNat := by omega
      have page : k % 2 ^ 20 = k := by omega
      rw [if_pos small, page] at done
      unfold memUnmap at done
      by_cases here : legalVpn (window fdnum k) = true
      · rw [if_pos here] at done
        have legal' : ∀ k', k' < k + 1 → legalVpn (window fdnum k') = true := by
          intro k' less
          rcases Nat.lt_or_eq_of_le (Nat.le_of_lt_succ less) with less | rfl
          · exact legal k' less
          · exact here
        obtain ⟨gone, kept⟩ := ih (by omega) legal' done
        refine ⟨fun k' ge less allLegal => ?_, fun v stays => ?_⟩
        · rcases Nat.eq_or_lt_of_le ge with rfl | later
          · refine (unmapLoop_shrinks done).2 _ ?_
            exact Function.update_self _ _ _
          · exact gone k' later less allLegal
        · have other : v ≠ window fdnum k := by
            rintro rfl
            exact stays ⟨k, inside, fun k' le => legal' k' (by omega), rfl⟩
          rw [kept v stays]
          exact Function.update_of_ne other _ _
      · rw [if_neg here] at done
        cases done
        exact ⟨fun k' ge _ allLegal => absurd (allLegal k ge) here, fun _ _ => rfl⟩
    · rw [if_neg (by omega)] at done
      cases done
      exact ⟨fun k' ge less _ => by omega, fun _ _ => rfl⟩

theorem unmapLoop_total (n : Nat) (bound : size.toNat + 4096 ≤ 2 ^ 32) (below : 4096 * k < size.toNat + 4096)
    (long : size.toNat ≤ 4096 * (k + n)) : ∃ r u', unmapLoop fdnum size (n + 1) k u = some (r, u') := by
  induction n generalizing k u with
  | zero =>
    unfold unmapLoop
    rw [if_neg (by omega)]
    exact ⟨0, u, rfl⟩
  | succ n ih =>
    unfold unmapLoop
    split
    · split
      · exact ih (by omega) (by omega)
      · exact ⟨_, u, rfl⟩
    · exact ⟨0, u, rfl⟩

/-- A request of `file_close` is answered with an error. -/
def Refused (a : Answers) (size : Word) : Prop := Failing size a.dirty ∨ isErr a.close = true

def DevFrees (a : Answers) (fdnum : Int) (dev : Dev) (size : Word) (v : Nat) : Prop :=
  match dev with
  | .file => ¬ Refused a size ∧ Unmaps fdnum size v
  | .cons => False
  | .pipe => v = window fdnum 0 ∧ legalVpn v = true

/-- The pages that `close` unmaps. -/
def Frees (a : Answers) (u : User) (fdnum : Int) (v : Nat) : Prop :=
  ∃ p dev, fdLookup u fdnum = some p ∧ devLookup (u.page p).devId = some dev ∧
    (v = index2Fd fdnum ∨ DevFrees a fdnum dev (u.page p).size v)

theorem frees_iff (found : fdLookup u fdnum = some p) (known : devLookup (u.page p).devId = some dev) :
    Frees a u fdnum v ↔ v = index2Fd fdnum ∨ DevFrees a fdnum dev (u.page p).size v := by
  constructor
  · rintro ⟨p', dev', found', known', freed⟩
    cases found.symm.trans found'
    cases known.symm.trans known'
    exact freed
  · exact fun freed => ⟨p, dev, found, known, freed⟩

theorem unmap_none (u : User) (v : Nat) : (u.unmap v).maps v = none := Function.update_self ..

theorem memUnmap_some (done : memUnmap v u = some u') : legalVpn v = true ∧ u' = u.unmap v := by
  unfold memUnmap at done
  split at done
  · rename_i legal
    exact ⟨legal, (Option.some.inj done).symm⟩
  · cases done

theorem unmap_ne {w : Nat} (ne : v ≠ w) : (u.unmap w).maps v = u.maps v := Function.update_of_ne ne ..

theorem fileClose_spec (done : fileClose a fuel fdnum size u = some (r, u')) :
    u'.page = u.page ∧ Ends size a.dirty ∧
      (∀ v, ¬ Refused a size ∧ Unmaps fdnum size v → u'.maps v = none) ∧
      ∀ v, ¬ (¬ Refused a size ∧ Unmaps fdnum size v) → u'.maps v = u.maps v := by
  obtain ⟨failed, dirty, rest⟩ := Option.bind_eq_some_iff.mp done
  cases failed with
  | some e =>
    cases rest
    have failing := dirtyLoop_failed (k := 0) nofun dirty
    exact ⟨rfl, .inl failing, fun v both => absurd (.inl failing) both.1, fun _ _ => rfl⟩
  | none =>
    obtain ⟨passed, bound⟩ := dirtyLoop_passed (k := 0) nofun dirty
    dsimp only at rest
    split at rest
    · rename_i refused
      cases rest
      exact ⟨rfl, .inr bound, fun v both => absurd (.inr refused) both.1, fun _ _ => rfl⟩
    · rename_i accepted
      obtain ⟨gone, kept⟩ := unmapLoop_spec (k := 0) bound (Nat.lt_add_left _ (by decide)) nofun rest
      have fine : ¬ Refused a size := fun refused => refused.elim passed accepted
      refine ⟨(unmapLoop_shrinks rest).1, .inr bound, ?_, fun v stays => kept v fun unmaps => stays ⟨fine, unmaps⟩⟩
      rintro v ⟨-, k, less, legal, rfl⟩
      exact gone k (Nat.zero_le k) less legal

theorem fileClose_total (ends : Ends size a.dirty) : ∃ fuel r u', fileClose a fuel fdnum size u = some (r, u') := by
  obtain ⟨n, loop⟩ := dirtyLoop_total ends
  obtain ⟨failed, dirty⟩ := loop (n + 2 ^ 20) (Nat.le_add_right _ _)
  refine ⟨n + 2 ^ 20 + 1, ?_⟩
  unfold fileClose
  rw [dirty]
  cases failed with
  | some e => exact ⟨e, u, rfl⟩
  | none =>
    obtain ⟨-, bound⟩ := dirtyLoop_passed (k := 0) nofun dirty
    dsimp only [Option.bind_some]
    split
    · exact ⟨_, u, rfl⟩
    · exact unmapLoop_total (n + 2 ^ 20) bound (Nat.lt_add_left _ (by decide)) (by omega)

theorem devClose_spec (known : devLookup (u.page p).devId = some dev) (found : fdLookup u fdnum = some p)
    (done : devClose a fuel fdnum dev (u.page p).size u = some (r, u')) :
    u'.page = u.page ∧ (∀ v, Frees a u fdnum v → v = index2Fd fdnum ∨ u'.maps v = none) ∧
      ∀ v, ¬ Frees a u fdnum v → u'.maps v = u.maps v := by
  have frees := fun v => frees_iff (a := a) (v := v) found known
  cases dev with
  | file =>
    obtain ⟨samePage, -, gone, kept⟩ := fileClose_spec done
    exact ⟨samePage, fun v freed => ((frees v).mp freed).imp_right (gone v), fun v stays =>
      kept v fun unmaps => stays ((frees v).mpr (.inr unmaps))⟩
  | cons =>
    cases done
    exact ⟨rfl, fun v freed => ((frees v).mp freed).imp_right False.elim, fun _ _ => rfl⟩
  | pipe =>
    cases done
    have first : ∀ (w : User) (x : Nat), ((memUnmap x w).getD w).page = w.page ∧
        (∀ v, v = x → legalVpn v = true → ((memUnmap x w).getD w).maps v = none) ∧
        (∀ v, w.maps v = none → ((memUnmap x w).getD w).maps v = none) ∧
        ∀ v, ¬ (v = x ∧ legalVpn v = true) → ((memUnmap x w).getD w).maps v = w.maps v := by
      intro w x
      unfold memUnmap
      by_cases legal : legalVpn x = true
      · rw [if_pos legal]
        refine ⟨rfl, fun v same _ => same ▸ unmap_none w x, fun v unmapped => ?_, fun v other => ?_⟩
        · by_cases here : v = x
          · exact here ▸ unmap_none w x
          · exact (unmap_ne here).trans unmapped
        · exact unmap_ne fun here => other ⟨here, here ▸ legal⟩
      · rw [if_neg legal]
        exact ⟨rfl, fun v same isLegal => absurd (same ▸ isLegal) legal, fun _ unmapped => unmapped, fun _ _ => rfl⟩
    obtain ⟨page, -, -, kept⟩ := first u (index2Fd fdnum)
    obtain ⟨page', gone, stays, kept'⟩ := first ((memUnmap (index2Fd fdnum) u).getD u) (window fdnum 0)
    refine ⟨page'.trans page, fun v freed => ((frees v).mp freed).imp_right fun both => gone v both.1 both.2, fun v notFreed => ?_⟩
    have both := fun both => notFreed ((frees v).mpr both)
    refine (kept' v fun here => both (.inr here)).trans (kept v fun here => both (.inl here.1))

theorem close_spec (done : close a fuel fdnum u = some (r, u')) :
    u'.page = u.page ∧ (∀ v, Frees a u fdnum v → u'.maps v = none) ∧ ∀ v, ¬ Frees a u fdnum v → u'.maps v = u.maps v := by
  unfold close at done
  split at done
  · rename_i missing
    cases done
    refine ⟨rfl, ?_, fun _ _ => rfl⟩
    rintro v ⟨p, dev, found, -⟩
    cases missing.symm.trans found
  · rename_i p found
    split at done
    · rename_i unknown
      cases done
      refine ⟨rfl, ?_, fun _ _ => rfl⟩
      rintro v ⟨p', dev, found', known, -⟩
      cases found.symm.trans found'
      cases unknown.symm.trans known
    · rename_i dev known
      obtain ⟨⟨r', mid⟩, closed, last⟩ := Option.bind_eq_some_iff.mp done
      obtain ⟨samePage, gone, kept⟩ := devClose_spec known found closed
      obtain ⟨w, unmapped, same⟩ := Option.map_eq_some_iff.mp last
      cases same
      obtain ⟨-, rfl⟩ := memUnmap_some unmapped
      refine ⟨samePage, fun v freed => ?_, fun v stays => ?_⟩
      · by_cases here : v = index2Fd fdnum
        · exact here ▸ unmap_none mid _
        · exact (unmap_ne here).trans ((gone v freed).resolve_left here)
      · have other : v ≠ index2Fd fdnum := fun here => stays ⟨p, dev, found, known, .inl here⟩
        exact (unmap_ne other).trans (kept v stays)

def Released (u : User) (fdnum : Int) : Prop :=
  u.maps (index2Fd fdnum) = none ∧ ∀ j, j < 1024 → u.maps (window fdnum j) = none

/-- When `close` releases a descriptor of the device `dev`, for a file one of `size` bytes. -/
def Releasable (a : Answers) (u : User) (fdnum : Int) (dev : Dev) (size : Word) : Prop :=
  match dev with
  | .file => Ends size a.dirty ∧ ∀ j, j < 1024 → (Refused a size ∨ size.toNat ≤ 4096 * j) → u.maps (window fdnum j) = none
  | .cons => ∀ j, j < 1024 → u.maps (window fdnum j) = none
  | .pipe => ∀ j, 0 < j → j < 1024 → u.maps (window fdnum j) = none

theorem window_inj (low : 0 ≤ fdnum) (high : fdnum < maxFd) (hi : i < 1024) (hj : j < 1024)
    (same : window fdnum i = window fdnum j) : i = j := by
  rw [window_eq low high hi, window_eq low high hj] at same
  omega

theorem index2Fd_ne_window {fdnum' : Int} (low : 0 ≤ fdnum) (high : fdnum < maxFd) (low' : 0 ≤ fdnum') (high' : fdnum' < maxFd)
    (hj : j < 1024) : index2Fd fdnum ≠ window fdnum' j := by
  rw [index2Fd_eq low high, window_eq low' high' hj]
  unfold fdTable fileBase
  unfold maxFd at high
  omega

theorem unmaps_window (low : 0 ≤ fdnum) (high : fdnum < maxFd) (hj : j < 1024) :
    Unmaps fdnum size (window fdnum j) ↔ 4096 * j < size.toNat := by
  constructor
  · rintro ⟨k, below, -, same⟩
    by_cases hk : k < 1024
    · rw [window_inj low high hj hk same]
      exact below
    · have := window_eq low high hj
      unfold window fileBase at this same
      omega
  · exact fun below => ⟨j, below, fun k le => legal_window low high (by omega), rfl⟩

/-- `close` of an open descriptor returns and unmaps all its pages if and only if the file server answers all its
    requests without an error and no page of the window lies behind `f_size`, or the pages that it does not unmap are
    not mapped. -/
theorem close_releases (low : 0 ≤ fdnum) (high : fdnum < maxFd) (found : fdLookup u fdnum = some p)
    (known : devLookup (u.page p).devId = some dev) :
    (∃ fuel r u', close a fuel fdnum u = some (r, u') ∧ Released u' fdnum) ↔ Releasable a u fdnum dev (u.page p).size := by
  have frees : ∀ j, j < 1024 → (Frees a u fdnum (window fdnum j) ↔ DevFrees a fdnum dev (u.page p).size (window fdnum j)) := by
    intro j hj
    have other := (index2Fd_ne_window low high low high hj).symm
    exact (frees_iff found known).trans (or_iff_right other)
  have own : Frees a u fdnum (index2Fd fdnum) := ⟨p, dev, found, known, .inl rfl⟩
  have fdClose : ∀ w : User, memUnmap (index2Fd fdnum) w = some (w.unmap (index2Fd fdnum)) := fun w =>
    if_pos (legal_index2Fd low high)
  constructor
  · rintro ⟨fuel, r, u', done, -, released⟩
    obtain ⟨-, -, kept⟩ := close_spec done
    have stays : ∀ j, j < 1024 → ¬ Frees a u fdnum (window fdnum j) → u.maps (window fdnum j) = none := fun j hj notFreed =>
      (kept _ notFreed).symm.trans (released j hj)
    cases dev with
    | file =>
      have ends : Ends (u.page p).size a.dirty := by
        unfold close at done
        simp only [found, known] at done
        obtain ⟨⟨r', mid⟩, closed, -⟩ := Option.bind_eq_some_iff.mp done
        exact (fileClose_spec closed).2.1
      refine ⟨ends, fun j hj which => stays j hj fun freed => ?_⟩
      obtain ⟨accepted, unmaps⟩ := (frees j hj).mp freed
      rcases which with refused | behind
      · exact accepted refused
      · have bound := ends.resolve_left fun failing => accepted (.inl failing)
        have := (unmaps_window low high hj).mp unmaps
        omega
    | cons => exact fun j hj => stays j hj (frees j hj).mp
    | pipe => exact fun j pos hj => stays j hj fun freed =>
        absurd (window_inj low high hj (by decide) ((frees j hj).mp freed).1) (Nat.ne_of_gt pos)
  · intro releasable
    obtain ⟨fuel, r, mid, closed⟩ : ∃ fuel r mid, devClose a fuel fdnum dev (u.page p).size u = some (r, mid) := by
      cases dev with
      | file => exact fileClose_total releasable.1
      | cons => exact ⟨0, 0, u, rfl⟩
      | pipe => exact ⟨0, _, _, rfl⟩
    have done : close a fuel fdnum u = some (r, mid.unmap (index2Fd fdnum)) := by
      simp only [close, found, known, closed, Option.bind_some, fdClose, Option.map_some]
    obtain ⟨-, gone, kept⟩ := close_spec done
    refine ⟨fuel, r, _, done, gone _ own, fun j hj => ?_⟩
    by_cases freed : Frees a u fdnum (window fdnum j)
    · exact gone _ freed
    · rw [kept _ freed]
      rw [frees j hj] at freed
      cases dev with
      | file =>
        refine releasable.2 j hj ?_
        by_cases refused : Refused a (u.page p).size
        · exact .inl refused
        · exact .inr (Nat.le_of_not_lt fun below => freed ⟨refused, (unmaps_window low high hj).mpr below⟩)
      | cons => exact releasable j hj
      | pipe =>
        refine releasable j (Nat.pos_of_ne_zero ?_) hj
        rintro rfl
        exact freed ⟨rfl, legal_window low high hj⟩

/-- Descriptor 0 is a file of `size` bytes, and the first page of its window is mapped. -/
def oneFile (size : Word) : User :=
  { maps := fun v => if v = index2Fd 0 then some 1 else if v = window 0 0 then some 2 else none
    page := fun _ => { devId := devFileId, size := size } }

def allFine : Answers := { dirty := fun _ => 0, close := 0, room := fun _ => true }

theorem oneFile_window (size : Word) {j : Nat} (hj : j < 1024) :
    (oneFile size).maps (window 0 j) = if j = 0 then some 2 else none := by
  have fd : window 0 j ≠ index2Fd 0 := (index2Fd_ne_window (by decide) (by decide) (by decide) (by decide) hj).symm
  have first : window 0 j = window 0 0 ↔ j = 0 :=
    ⟨fun same => window_inj (by decide) (by decide) hj (by decide) same, fun same => by rw [same]⟩
  unfold oneFile
  simp only [if_neg fd, first]

theorem close_releases_page : ∃ fuel r u', close allFine fuel 0 (oneFile 4096) = some (r, u') ∧ Released u' 0 := by
  refine (close_releases (p := 1) (by decide) (by decide) rfl rfl).mpr
    (show Releasable allFine _ 0 .file 4096 from ⟨.inr (by decide), fun j hj which => ?_⟩)
  rw [oneFile_window _ hj, if_neg]
  rintro rfl
  rcases which with (⟨_, _, failed⟩ | failed) | behind
  · cases failed
  · cases failed
  · exact absurd behind (by decide)

/-- A sharer of the `Filefd` page has truncated the file to 0 bytes. -/
theorem close_leaves_page : ¬ ∃ fuel r u', close allFine fuel 0 (oneFile 0) = some (r, u') ∧ Released u' 0 := by
  rw [close_releases (p := 1) (by decide) (by decide) rfl rfl]
  intro releasable
  have left := releasable.2 0 (by decide) (.inr (by decide))
  rw [oneFile_window _ (by decide)] at left
  cases left

end Mos.FdLib
