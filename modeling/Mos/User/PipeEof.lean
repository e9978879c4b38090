import Mos.User.PipeInv

namespace Mos

variable {st st' : Holders} {x c : EnvPtr} {limit n : Nat}

theorem EofInv.notSecret (inv : EofInv st) (copies : st.proc x = .copy c limit) {b : EnvPtr} {v g : Nat}
    (mem : v ∈ (st.proc b).secret) (there : (st.space b).lookup v = some g) : ∀ u, (st.space x).lookup u ≠ some g := by
  intro u found
  obtain ⟨pg, there', _, sole⟩ := inv.secret b v mem
  obtain rfl := Option.some.inj (there'.symm.trans there)
  obtain ⟨rfl, _⟩ := sole x u found
  rw [copies] at mem
  cases mem

theorem EofInv.leave (inv : EofInv st) (copies : st.proc x = .copy c limit) : EofInv (st.setProc x .run) := by
  have others : ∀ b, b ≠ x → (st.setProc x .run).proc b = st.proc b := fun b ne => by simp [Holders.setProc, ne]
  have self : (st.setProc x .run).proc x = .run := by simp [Holders.setProc]
  have kept : ∀ b q, q ≠ Proc.run → (st.setProc x .run).proc b = q → st.proc b = q := by
    intro b q other eq
    by_cases same : b = x
    · subst same
      exact absurd (eq.symm.trans self) other
    · rwa [others b same] at eq
  refine ⟨fun e => ?_, inv.one, inv.fresh, fun e v mem => ?_, fun e d l eq => ?_, fun e b d l l' eq eq' => ?_⟩
  · by_cases same : e = x
    · subst same
      rw [self]
      exact (inv.each e).goto (fun n eq => by cases eq.symm.trans copies) trivial
    · rw [others e same]
      exact inv.each e
  · by_cases same : e = x
    · subst same
      rw [self] at mem
      cases mem
    · rw [others e same] at mem
      exact inv.secret e v mem
  · obtain ⟨high, n, embryo, same⟩ := inv.child e d l (kept e _ (fun run => by cases run) eq)
    refine ⟨high, n, ?_, same⟩
    rw [others d fun here => by cases (here ▸ embryo).symm.trans copies]
    exact embryo
  · exact inv.only e b d l l' (kept e _ (fun run => by cases run) eq) (kept b _ (fun run => by cases run) eq')

theorem EofInv.embryo {sp : Space} {q : Proc} (inv : EofInv st) (was : st.proc c = .embryo n) (loc : Local st.tag sp q)
    (open_ : q.secret = []) (noCopy : ∀ d l, q ≠ .copy d l)
    (pages : ∀ b v g, v ∈ (st.proc b).secret → (st.space b).lookup v = some g → ∀ u, sp.lookup u ≠ some g)
    (parent : ∀ x l, st.proc x = .copy c l → ∃ n, q = .embryo n ∧
      ∀ u, sp.lookup u = if u < n then (st.space x).lookup u else none) : EofInv (st.put c sp q) := by
  have procs : ∀ b, b ≠ c → (st.put c sp q).proc b = st.proc b := fun b ne => by
    simp [Holders.put, Holders.setProc, Holders.setSpace, ne]
  have spaces : ∀ b, b ≠ c → (st.put c sp q).space b = st.space b := fun b ne => by
    simp [Holders.put, Holders.setProc, Holders.setSpace, ne]
  have copies : ∀ b d l, (st.put c sp q).proc b = .copy d l → b ≠ c ∧ st.proc b = .copy d l := by
    intro b d l eq
    by_cases same : b = c
    · subst same
      rw [put_proc] at eq
      exact absurd eq (noCopy d l)
    · exact ⟨same, procs b same ▸ eq⟩
  refine ⟨fun e => ?_, inv.one, inv.fresh, fun e v mem => ?_, fun e d l eq => ?_, fun e b d l l' eq eq' => ?_⟩
  · by_cases same : e = c
    · subst same
      rw [put_space, put_proc]
      exact loc
    · rw [spaces e same, procs e same]
      exact inv.each e
  · by_cases same : e = c
    · subst same
      rw [put_proc, open_] at mem
      cases mem
    · rw [procs e same] at mem
      obtain ⟨pg, there, bare, sole⟩ := inv.secret e v mem
      refine ⟨pg, by rw [spaces e same]; exact there, bare, fun b u found => ?_⟩
      by_cases here : b = c
      · subst here
        rw [put_space] at found
        exact absurd found (pages e v pg mem there u)
      · rw [spaces b here] at found
        exact sole b u found
  · obtain ⟨other, copying⟩ := copies e d l eq
    obtain ⟨high, m, embryo, same⟩ := inv.child e d l copying
    refine ⟨high, ?_⟩
    by_cases here : d = c
    · subst here
      obtain ⟨m, rfl, same⟩ := parent e l copying
      refine ⟨m, put_proc, fun u => ?_⟩
      rw [put_space, spaces e other]
      exact same u
    · refine ⟨m, (procs d here).trans embryo, fun u => ?_⟩
      rw [spaces d here, spaces e other]
      exact same u
  · exact inv.only e b d l l' (copies e d l eq).2 (copies b d l' eq').2

theorem EofInv.copied {sp : Space} {m : Nat} {q : Proc} (inv : EofInv st) (copies : st.proc x = .copy c limit)
    (same : ∀ u, sp.lookup u = if u < m then (st.space x).lookup u else none) (stage : q.Stage st.tag sp)
    (past : ∀ s, s < maxFd → (∀ n, q = .embryo n → index2Data s < n) → ∀ p,
      (st.space x).lookup (index2Data s) = some p → index2Data s < m) : Local st.tag sp q := by
  have below : ∀ u g, sp.lookup u = some g → (st.space x).lookup u = some g := by
    intro u g found
    rw [same] at found
    split at found
    · exact found
    · cases found
  refine ⟨fun v g id r there => (inv.each x).place v g id r (below v g there), fun s g id r small there is kind next => ?_,
    stage⟩
  obtain ⟨p, found, pipe⟩ := (inv.each x).paired s g id r small (below _ g there) is kind
    fun n eq => by cases eq.symm.trans copies
  refine ⟨p, ?_, pipe⟩
  rw [same, if_pos (past s small next p found)]
  exact found

theorem index2Data_le {s : Nat} (small : s < maxFd) : index2Data s ≤ index2Data 31 := by
  have last : 31 < maxFd := by decide
  rw [index2Data_eq small, index2Data_eq last]
  unfold maxFd at small
  omega

theorem copyStep_inv {page : Option Nat} (inv : EofInv st) (copies : st.proc x = .copy c limit)
    (h : copyStep x c limit page st = some st') : EofInv st' := by
  obtain ⟨high, n, embryo, same⟩ := inv.child x c limit copies
  simp only [copyStep, embryo] at h
  split at h
  · rename_i v next
    obtain ⟨low, _, _, least⟩ := nextMapped_some next
    split at h
    · rename_i mid map
      cases h
      obtain ⟨pg, found, rfl⟩ := memMap_some map
      have grown : ∀ u, ((st.space c).insert v pg).lookup u = if u < v + 1 then (st.space x).lookup u else none := by
        intro u
        by_cases here : u = v
        · rw [here, AList.lookup_insert, if_pos (Nat.lt_succ_self v), found]
        · rw [AList.lookup_insert_ne here, same]
          by_cases before : u < n
          · rw [if_pos before, if_pos (by omega)]
          · by_cases between : u < v
            · rw [if_neg before, if_pos (by omega), least u (by omega) between]
            · rw [if_neg before, if_neg (by omega)]
      refine inv.embryo embryo ?_ rfl (fun d l eq => by cases eq) (fun b w g mem there u got => ?_) fun y l eq => ?_
      · exact inv.copied copies grown trivial fun s _ past p _ => past (v + 1) rfl
      · rw [grown] at got
        split at got
        · exact inv.notSecret copies mem there u got
        · cases got
      · obtain rfl := inv.only y x c l limit eq copies
        exact ⟨v + 1, rfl, grown⟩
    · cases h
      exact inv.leave copies
  · rename_i last
    cases h
    have inv' := inv.leave copies
    have other : c ≠ x := fun eq => by cases (eq ▸ embryo).symm.trans copies
    have embryo' : (st.setProc x .run).proc c = .embryo n := by
      rw [← embryo]
      exact Function.update_of_ne other _ _
    have orphan : ∀ y l, (st.setProc x .run).proc y ≠ .copy c l := by
      intro y l eq
      by_cases here : y = x
      · subst here
        simp [Holders.setProc] at eq
      · have eq' : st.proc y = .copy c l := by
          rw [← eq]
          exact (Function.update_of_ne here _ _).symm
        exact here (inv.only y x c l limit eq' copies)
    have loc : Local st.tag (st.space c) .run := by
      refine inv.copied copies same trivial fun s small _ p there => ?_
      by_contra after
      have top := index2Data_le small
      cases there.symm.trans (nextMapped_none last (index2Data s) (Nat.not_lt.mp after) (by omega))
    rw [setProc_put (st.setProc x .run)]
    refine inv'.embryo embryo' loc rfl (fun d l eq => by cases eq) (fun b w g mem there u got => ?_)
      fun y l eq => absurd eq (orphan y l)
    obtain ⟨pg, there', _, sole⟩ := inv'.secret b w mem
    obtain rfl := Option.some.inj (there'.symm.trans there)
    obtain ⟨rfl, _⟩ := sole c u got
    rw [embryo'] at mem
    cases mem

theorem forkCall_inv (inv : EofInv st) (running : st.proc x = .run) (high : index2Data 31 < limit)
    (h : forkCall x c limit st = some st') : EofInv st' := by
  unfold forkCall at h
  split at h
  · rename_i free
    cases h
    have other : c ≠ x := fun eq => by cases (eq ▸ free).symm.trans running
    have spaceC : (((st.setSpace c ∅).setProc c (.embryo 0)).setProc x (.copy c limit)).space c = ∅ := by
      simp [Holders.setProc, Holders.setSpace]
    have procC : (((st.setSpace c ∅).setProc c (.embryo 0)).setProc x (.copy c limit)).proc c = .embryo 0 := by
      simp [Holders.setProc, Holders.setSpace, other]
    have procX : (((st.setSpace c ∅).setProc c (.embryo 0)).setProc x (.copy c limit)).proc x = .copy c limit := by
      simp [Holders.setProc]
    have spaces : ∀ b, b ≠ c → (((st.setSpace c ∅).setProc c (.embryo 0)).setProc x (.copy c limit)).space b = st.space b :=
      fun b ne => by simp [Holders.setProc, Holders.setSpace, ne]
    have procs : ∀ b, b ≠ c → b ≠ x →
        (((st.setSpace c ∅).setProc c (.embryo 0)).setProc x (.copy c limit)).proc b = st.proc b :=
      fun b ne ne' => by simp [Holders.setProc, Holders.setSpace, ne, ne']
    have empty : ∀ u g, (∅ : Space).lookup u ≠ some g := fun u g found => by
      rw [AList.lookup_empty] at found
      cases found
    have copies : ∀ b d l, (((st.setSpace c ∅).setProc c (.embryo 0)).setProc x (.copy c limit)).proc b = .copy d l →
        (b = x ∧ d = c ∧ l = limit) ∨ (b ≠ c ∧ b ≠ x ∧ d ≠ c ∧ st.proc b = .copy d l) := by
      intro b d l eq
      by_cases atC : b = c
      · subst atC
        cases procC.symm.trans eq
      · by_cases atX : b = x
        · subst atX
          cases procX.symm.trans eq
          exact Or.inl ⟨rfl, rfl, rfl⟩
        · rw [procs b atC atX] at eq
          obtain ⟨_, n, embryo, _⟩ := inv.child b d l eq
          exact Or.inr ⟨atC, atX, (fun same => by cases (same ▸ embryo).symm.trans free), eq⟩
    refine ⟨fun e => ?_, inv.one, inv.fresh, fun e v mem => ?_, fun e d l eq => ?_, fun e b d l l' eq eq' => ?_⟩
    · by_cases atC : e = c
      · subst atC
        rw [spaceC, procC]
        exact ⟨fun v g _ _ found => absurd found (empty v g), fun s g _ _ _ found => absurd found (empty _ g), trivial⟩
      · by_cases atX : e = x
        · subst atX
          rw [spaces e atC, procX]
          exact (inv.each e).goto (fun n eq => by cases eq.symm.trans running) trivial
        · rw [spaces e atC, procs e atC atX]
          exact inv.each e
    · by_cases atC : e = c
      · subst atC
        rw [procC] at mem
        cases mem
      · by_cases atX : e = x
        · subst atX
          rw [procX] at mem
          cases mem
        · rw [procs e atC atX] at mem
          obtain ⟨pg, there, bare, sole⟩ := inv.secret e v mem
          refine ⟨pg, by rw [spaces e atC]; exact there, bare, fun b u found => ?_⟩
          by_cases here : b = c
          · subst here
            rw [spaceC] at found
            exact absurd found (empty u pg)
          · rw [spaces b here] at found
            exact sole b u found
    · rcases copies e d l eq with ⟨rfl, rfl, rfl⟩ | ⟨atC, atX, apart, was⟩
      · refine ⟨high, 0, procC, fun u => ?_⟩
        rw [spaceC, AList.lookup_empty, if_neg (Nat.not_lt_zero u)]
      · obtain ⟨high', n, embryo, same⟩ := inv.child e d l was
        have apartX : d ≠ x := fun eq => by cases (eq ▸ embryo).symm.trans running
        refine ⟨high', n, (procs d apart apartX).trans embryo, fun u => ?_⟩
        rw [spaces d apart, spaces e atC]
        exact same u
    · rcases copies e d l eq with ⟨rfl, rfl, _⟩ | ⟨_, _, apart, was⟩
      · rcases copies b d l' eq' with ⟨rfl, _, _⟩ | ⟨_, _, apart, _⟩
        · rfl
        · exact absurd rfl apart
      · rcases copies b d l' eq' with ⟨_, rfl, _⟩ | ⟨_, _, _, was'⟩
        · exact absurd rfl apart
        · exact inv.only e b d l l' was was'
  · cases h

theorem EofInv.answered (inv : EofInv st) (a : Option (EnvPtr × Nat × Bool)) : EofInv { st with answer := a } :=
  ⟨inv.each, inv.one, inv.fresh, inv.secret, inv.child, inv.only⟩

theorem resume_inv {page : Option Nat} (inv : EofInv st) (h : resume x page st = some st') : EofInv st' := by
  cases at_ : st.proc x with
  | free =>
    simp only [resume, at_] at h
    cases h
  | embryo n =>
    simp only [resume, at_] at h
    cases h
  | run =>
    simp only [resume, at_] at h
    cases h
  | pipeFd1 s0 => exact pipe_inv inv h (Or.inl ⟨s0, at_⟩)
  | pipeData s0 s1 => exact pipe_inv inv h (Or.inr (Or.inl ⟨s0, s1, at_⟩))
  | pipeMap s0 s1 => exact pipe_inv inv h (Or.inr (Or.inr (Or.inl ⟨s0, s1, at_⟩)))
  | pipeErr vs => exact pipe_inv inv h (Or.inr (Or.inr (Or.inr ⟨vs, at_⟩)))
  | close fd vs => exact close_inv inv h at_
  | dupClose old new vs => exact dup_inv inv h (Or.inl ⟨old, new, vs, at_⟩)
  | dupCopy old new i => exact dup_inv inv h (Or.inr (Or.inl ⟨old, new, i, at_⟩))
  | dupFd old new => exact dup_inv inv h (Or.inr (Or.inr (Or.inl ⟨old, new, at_⟩)))
  | dupErr new vs => exact dup_inv inv h (Or.inr (Or.inr (Or.inr ⟨new, vs, at_⟩)))
  | copy c limit =>
    simp only [resume, at_] at h
    exact copyStep_inv inv at_ h

/-- The end of the pipe that `f` belongs to has its other end mapped nowhere. -/
def OtherGone (st : Holders) (f : Nat) : Prop :=
  ∀ id r, st.tag f = some (id, r) → r ≠ .pipe → ∀ g, st.tag g = some (id, r.other) → ∀ b v, (st.space b).lookup v ≠ some g

/-- When `_pipe_is_closed` has just returned 1 for descriptor `fd` of `e`, no env maps the other end. -/
def EofSound (st : Holders) : Prop :=
  ∀ e fd, st.answer = some (e, fd, true) → ∀ f, (st.space e).lookup (index2Fd fd) = some f → OtherGone st f

/-- No fork or spawn, in progress or given up, has given its child a descriptor page of the pipe `id` and not
    yet the pipe page of that descriptor. -/
def NoHalf (st : Holders) (id : Nat) : Prop :=
  ∀ c n s g r, st.proc c = .embryo n → s < maxFd → (st.space c).lookup (index2Fd s) = some g →
    st.tag g = some (id, r) → r ≠ .pipe → index2Data s < n

/-- The condition on a call: `dup` names a descriptor, and no child is half way when the counts are read. -/
def EofGuard (st : Holders) : FdOp → Prop
  | .dup _ _ new => new < maxFd
  | .pipeIsClosed e fd => ∀ f id r, fdLookup (st.space e) fd = some f → st.tag f = some (id, r) → NoHalf st id
  | _ => True

theorem fdLookup_some {sp : Space} {fd f : Nat} (h : fdLookup sp fd = some f) :
    fd < maxFd ∧ sp.lookup (index2Fd fd) = some f := by
  unfold fdLookup at h
  split at h
  · exact ⟨‹_›, h⟩
  · cases h

def dataOf (v : Nat) : Nat := index2Data (v - fdTable)

theorem dataOf_fd {s : Nat} (small : s < maxFd) : dataOf (index2Fd s) = index2Data s := by
  rw [dataOf, index2Fd_eq small, Nat.add_sub_cancel_left]

/-- The mappings of two descriptor pages are at most those of a page that is in the window of each. -/
theorem Space.refs_add_le {sp : Space} {f g p : Nat} (ne : f ≠ g)
    (paired : ∀ v h, sp.lookup v = some h → h = f ∨ h = g → ∃ s, s < maxFd ∧ v = index2Fd s ∧
      sp.lookup (index2Data s) = some p) : sp.refs f + sp.refs g ≤ sp.refs p := by
  have apart : Disjoint (sp.keys.toFinset.filter fun v => sp.lookup v = some f)
      (sp.keys.toFinset.filter fun v => sp.lookup v = some g) := by
    refine Finset.disjoint_filter.mpr fun v _ hf hg => ne ?_
    exact Option.some.inj (hf.symm.trans hg)
  have both : ∀ v, v ∈ ((sp.keys.toFinset.filter fun v => sp.lookup v = some f) ∪
      sp.keys.toFinset.filter fun v => sp.lookup v = some g) → ∃ s, s < maxFd ∧ v = index2Fd s ∧
      sp.lookup (index2Data s) = some p := by
    intro v mem
    rcases Finset.mem_union.mp mem with mem | mem
    · exact paired v f (Finset.mem_filter.mp mem).2 (Or.inl rfl)
    · exact paired v g (Finset.mem_filter.mp mem).2 (Or.inr rfl)
  unfold Space.refs
  rw [← Finset.card_union_of_disjoint apart]
  refine Finset.card_le_card_of_injOn dataOf (fun v mem => ?_) fun v mem w mem' same => ?_
  · obtain ⟨s, small, rfl, there⟩ := both v mem
    have key : index2Data s ∈ sp.keys := AList.mem_keys.mp (AList.lookup_isSome.mp (by rw [there]; rfl))
    rw [dataOf_fd small]
    exact Finset.mem_coe.mpr (Finset.mem_filter.mpr ⟨List.mem_toFinset.mpr key, there⟩)
  · obtain ⟨s, small, rfl, _⟩ := both v mem
    obtain ⟨t, small', rfl, _⟩ := both w mem'
    rw [dataOf_fd small, dataOf_fd small'] at same
    rw [index2Data_inj small small' same]

theorem Role.other_ne {r : Role} (kind : r ≠ .pipe) : r.other ≠ r ∧ r.other ≠ .pipe := by
  cases r with
  | reader => exact ⟨(fun eq => by cases eq), fun eq => by cases eq⟩
  | writer => exact ⟨(fun eq => by cases eq), fun eq => by cases eq⟩
  | pipe => exact absurd rfl kind

theorem EofInv.sound {fd f : Nat} (inv : EofInv st) (running : st.proc x = .run) (small : fd < maxFd)
    (here : (st.space x).lookup (index2Fd fd) = some f)
    (whole : ∀ id r, st.tag f = some (id, r) → NoHalf st id)
    (equal : st.pageref x (index2Fd fd) = st.pageref x (index2Data fd)) : OtherGone st f := by
  intro id r tagged kind g tagged'
  obtain ⟨otherRole, kind'⟩ := Role.other_ne kind
  obtain ⟨p, window, pipe⟩ := (inv.each x).paired fd f id r small here tagged kind fun n eq => by cases eq.symm.trans running
  have ne : f ≠ g := by
    rintro rfl
    have same := Option.some.inj (tagged.symm.trans tagged')
    exact otherRole (congrArg Prod.snd same).symm
  have paired : ∀ b v h, (st.space b).lookup v = some h → h = f ∨ h = g → ∃ s, s < maxFd ∧ v = index2Fd s ∧
      (st.space b).lookup (index2Data s) = some p := by
    intro b v h found end_
    obtain ⟨r', tag', kindR⟩ : ∃ r', st.tag h = some (id, r') ∧ r' ≠ .pipe := by
      rcases end_ with rfl | rfl
      · exact ⟨r, tagged, kind⟩
      · exact ⟨r.other, tagged', kind'⟩
    obtain ⟨s, hs, rfl⟩ := (inv.each b).place v h id r' found tag' kindR
    obtain ⟨p', there, pipe'⟩ := (inv.each b).paired s h id r' hs found tag' kindR
      fun n embryo => whole id r tagged b n s h r' embryo hs found tag' kindR
    rw [inv.one p p' id pipe pipe']
    exact ⟨s, hs, rfl, there⟩
  have total : st.refs f + st.refs g ≤ st.refs p := by
    unfold Holders.refs
    rw [← Finset.sum_add_distrib]
    exact Finset.sum_le_sum fun b _ => Space.refs_add_le ne (paired b)
  simp only [Holders.pageref, here, window] at equal
  exact refs_zero (by omega)

theorem call_some {e : EnvPtr} {f : Holders → Option Holders} (h : st.call e f = some st') :
    st.proc e = .run ∧ f { st with answer := none } = some st' := by
  unfold Holders.call at h
  split at h
  · exact ⟨‹_›, h⟩
  · cases h

theorem fdStep_inv {op : FdOp} (inv : EofInv st) (meets : EofGuard st op) (h : st.step op = some st') : EofInv st' := by
  have inv' := inv.answered none
  cases op with
  | pipe e page =>
    obtain ⟨running, h⟩ := call_some h
    unfold pipeCall at h
    split at h
    · rename_i s0 pg alloc _
      split at h
      · rename_i unused
        cases h
        have small := (fdAlloc_some alloc).1
        refine inv'.alloc (fun c l eq => by cases eq.symm.trans running) (fun n eq => by cases eq.symm.trans running)
          (fun c l eq => by cases eq) unused (fun s hs at_ => absurd at_ (fd_ne_data small hs)) small fun u mem => ?_
        exact Or.inl (List.mem_singleton.mp mem)
      · cases h
    · cases h
      exact inv'
  | close e fd =>
    obtain ⟨running, h⟩ := call_some h
    unfold closeCall at h
    split at h
    · cases h
      exact inv'
    · rename_i pg found
      split at h
      · cases h
        exact inv'
      · cases h
      · cases h
        refine inv'.goto ?_ ⟨(fdLookup_some found).1, Or.inl rfl⟩ rfl
        exact put_own (fun c l eq => by cases eq.symm.trans running) (fun n eq => by cases eq.symm.trans running)
          fun c l eq => by cases eq
  | dup e old new =>
    obtain ⟨running, h⟩ := call_some h
    have own : ∀ vs, Own e { st with answer := none } (Holders.put { st with answer := none } e (st.space e)
        (.dupClose old new vs)) := fun vs =>
      put_own (fun c l eq => by cases eq.symm.trans running) (fun n eq => by cases eq.symm.trans running)
        fun c l eq => by cases eq
    unfold dupCall at h
    split at h
    · cases h
      exact inv'
    · rename_i pg found
      have small := (fdLookup_some found).1
      split at h
      · rename_i absent
        cases h
        refine inv'.goto (own []) ⟨small, meets, Or.inr ⟨fun g there => ?_, fun v mem => by cases mem⟩⟩ rfl
        have inside : new < maxFd := meets
        rw [fdLookup, if_pos inside] at absent
        cases there.symm.trans absent
      · rename_i pg' found'
        split at h
        · rename_i bare
          cases h
          refine inv'.goto (own []) ⟨small, meets, Or.inr ⟨fun g there => ?_, fun v mem => by cases mem⟩⟩ rfl
          rw [← Option.some.inj ((fdLookup_some found').2.symm.trans there)]
          exact bare
        · cases h
        · cases h
          exact inv'.goto (own _) ⟨small, meets, Or.inl rfl⟩ rfl
  | fork e c =>
    obtain ⟨running, h⟩ := call_some h
    exact forkCall_inv inv' running (by decide) h
  | spawn e c =>
    obtain ⟨running, h⟩ := call_some h
    exact forkCall_inv inv' running (by decide) h
  | resume e page => exact resume_inv inv' h
  | pipeIsClosed e fd =>
    obtain ⟨running, h⟩ := call_some h
    unfold pipeIsClosed at h
    split at h
    · cases h
      exact inv.answered _
    · cases h
      exact inv'
  | exit e =>
    obtain ⟨running, done⟩ := call_some (f := fun st => some ((st.setSpace e ∅).setProc e .free)) h
    cases done
    have empty : ∀ u g, (∅ : Space).lookup u ≠ some g := fun u g found => by
      rw [AList.lookup_empty] at found
      cases found
    refine inv'.put (x := e) (q := .free) ?_ ⟨fun v g _ _ found => absurd found (empty v g),
      fun s g _ _ _ found => absurd found (empty _ g), trivial⟩ rfl fun u g found => absurd found (empty u g)
    exact put_own (fun c l eq => by cases eq.symm.trans running) (fun n eq => by cases eq.symm.trans running)
      fun c l eq => by cases eq

theorem holders_init_inv : EofInv .init := by
  have empty : ∀ u g, (∅ : Space).lookup u ≠ some g := fun u g found => by
    rw [AList.lookup_empty] at found
    cases found
  have running : ∀ e, Holders.init.proc e = .run ∨ Holders.init.proc e = .free := by
    intro e
    unfold Holders.init
    by_cases first : e = 0
    · exact Or.inl (if_pos first)
    · exact Or.inr (if_neg first)
  refine ⟨fun e => ?_, fun a b id tagged => (by cases tagged), fun a id r tagged => (by cases tagged), fun e v mem => ?_,
    fun e c l copies => ?_, fun e b c l l' copies => ?_⟩
  · refine ⟨fun v g _ _ found => absurd found (empty v g), fun s g _ _ _ found => absurd found (empty _ g), ?_⟩
    rcases running e with at_ | at_ <;> rw [at_] <;> trivial
  · rcases running e with at_ | at_ <;> rw [at_] at mem <;> cases mem
  · rcases running e with at_ | at_ <;> cases at_.symm.trans copies
  · rcases running e with at_ | at_ <;> cases at_.symm.trans copies

theorem EofSound.quiet (silent : st.answer = none) : EofSound st := fun _ _ answered => by cases silent.symm.trans answered

theorem memMap_answer {src dst : EnvPtr} {v w : Nat} {page : Option Nat} (map : st.memMap src v dst w page = some st') :
    st'.answer = st.answer := by
  obtain ⟨pg, _, rfl⟩ := memMap_some map
  rfl

theorem copyStep_answer {page : Option Nat} (h : copyStep x c limit page st = some st') : st'.answer = st.answer := by
  unfold copyStep at h
  split at h
  · split at h
    · split at h
      · rename_i mid map
        cases h
        exact (memMap_answer map :)
      · cases h
        rfl
    · cases h
      rfl
  · cases h

theorem resume_answer {page : Option Nat} (h : resume x page st = some st') : st'.answer = st.answer := by
  unfold resume at h
  split at h
  · split at h
    · split at h <;> cases h
      rfl
    · cases h
      rfl
  · split at h
    · split at h <;> cases h
      rfl
    · cases h
      rfl
  · split at h
    · rename_i mid _ _ _ map
      cases h
      exact (memMap_answer map :)
    · cases h
      rfl
  · cases h
    rfl
  · cases h
    rfl
  · cases h
    rfl
  · cases h
    rfl
  · cases h
    rfl
  · cases h
    rfl
  · split at h
    · split at h
      · rename_i mid map
        cases h
        exact (memMap_answer map :)
      · cases h
        rfl
    · cases h
      rfl
  · split at h
    · rename_i mid map
      cases h
      exact (memMap_answer map :)
    · cases h
      rfl
  · cases h
    split <;> rfl
  · cases h
    rfl
  · exact copyStep_answer h
  · cases h
  · cases h
  · cases h

/-- In every run whose calls meet `EofGuard`, `_pipe_is_closed` returns 1 only when no env maps the other end. -/
theorem pipeIsClosed_sound {ops : List FdOp} (run : Run Holders.step EofGuard .init ops st) : EofSound st := by
  refine (run.invariant (fun st => EofInv st ∧ EofSound st) ⟨holders_init_inv, .quiet rfl⟩ fun st op st' inv meets next => ?_).2
  refine ⟨fdStep_inv inv.1 meets next, ?_⟩
  cases op with
  | pipe e page =>
    obtain ⟨_, h⟩ := call_some next
    unfold pipeCall at h
    split at h
    · split at h <;> cases h
      exact .quiet rfl
    · cases h
      exact .quiet rfl
  | close e fd =>
    obtain ⟨_, h⟩ := call_some next
    unfold closeCall at h
    split at h
    · cases h
      exact .quiet rfl
    · split at h <;> cases h <;> exact .quiet rfl
  | dup e old new =>
    obtain ⟨_, h⟩ := call_some next
    unfold dupCall at h
    split at h
    · cases h
      exact .quiet rfl
    · split at h
      · cases h
        exact .quiet rfl
      · split at h <;> cases h <;> exact .quiet rfl
  | fork e c =>
    obtain ⟨_, h⟩ := call_some next
    unfold forkCall at h
    split at h <;> cases h
    exact .quiet rfl
  | spawn e c =>
    obtain ⟨_, h⟩ := call_some next
    unfold forkCall at h
    split at h <;> cases h
    exact .quiet rfl
  | resume e page => exact .quiet (resume_answer next)
  | exit e =>
    obtain ⟨_, done⟩ := call_some (f := fun st => some ((st.setSpace e ∅).setProc e .free)) next
    cases done
    exact .quiet rfl
  | pipeIsClosed e fd =>
    obtain ⟨running, h⟩ := call_some next
    unfold pipeIsClosed at h
    split at h
    · rename_i f found
      cases h
      intro e' fd' answered f' there
      obtain ⟨small, here⟩ := fdLookup_some found
      simp only [Option.some.injEq, Prod.mk.injEq, beq_iff_eq] at answered
      obtain ⟨rfl, rfl, equal⟩ := answered
      obtain rfl := Option.some.inj (there.symm.trans here)
      exact inv.1.sound running small here (fun id r tagged => meets f' id r found tagged) equal
    · cases h
      exact .quiet rfl

/-- The next `n` system calls of `e`. -/
def calls (e : EnvPtr) (n : Nat) : List FdOp := List.replicate n (.resume e (some 0))

/-- Env 0 makes a pipe and forks; each env keeps one end. -/
def shareRun : List FdOp :=
  .pipe 0 (some 1) :: .resume 0 (some 2) :: .resume 0 (some 3) :: .resume 0 (some 0) :: .fork 0 1 :: calls 0 5 ++
    .close 0 0 :: calls 0 4 ++ .close 1 1 :: calls 1 4

/-- The writer closes its end. -/
def eofRun : List FdOp := shareRun ++ .close 0 1 :: calls 0 4

def FdOp.plain : FdOp → Bool
  | .dup _ _ _ => false
  | .pipeIsClosed _ _ => false
  | _ => true

theorem plain_meets {op : FdOp} (plain : op.plain = true) (st : Holders) : EofGuard st op := by
  cases op with
  | dup e old new => cases plain
  | pipeIsClosed e fd => cases plain
  | _ => trivial

def Holders.settled (st : Holders) : Bool :=
  (List.finRange 1024).all fun c => match st.proc c with
    | .embryo _ => false
    | _ => true

theorem settled_whole (settled : st.settled = true) (id : Nat) : NoHalf st id := by
  intro c n s g r embryo
  have here := List.all_eq_true.mp settled c (List.mem_finRange c)
  rw [embryo] at here
  cases here

theorem pipeIsClosed_sound_eofRun : ∃ st, Run Holders.step EofGuard .init (eofRun ++ [.pipeIsClosed 1 0]) st ∧
    st.answer = some (1, 0, true) ∧ EofSound st := by
  have check : ((Run.exec Holders.step .init eofRun).bind fun mid => (mid.step (.pipeIsClosed 1 0)).map fun st =>
      (mid.settled, st.answer)) = some (true, some (1, 0, true)) := by decide +kernel
  obtain ⟨mid, exec, check⟩ := Option.bind_eq_some_iff.mp check
  obtain ⟨st, last, check⟩ := Option.map_eq_some_iff.mp check
  simp only [Prod.mk.injEq] at check
  have plain : ∀ op ∈ eofRun, op.plain = true := List.all_eq_true.mp (by decide)
  have guarded : Run Holders.step EofGuard .init eofRun mid :=
    Run.of_exec (fun op mem t => plain_meets (plain op mem) t) exec
  have meets : EofGuard mid (.pipeIsClosed 1 0) := fun _ id _ _ _ => settled_whole check.1 id
  have run := guarded.snoc meets last
  exact ⟨st, run, check.2, pipeIsClosed_sound run⟩

/-- Two envs hold the read end; while one of them forks, the other asks. -/
def halfRun : List FdOp :=
  .pipe 0 (some 1) :: .resume 0 (some 2) :: .resume 0 (some 3) :: .resume 0 (some 0) :: .fork 0 1 :: calls 0 5 ++
    .fork 0 2 :: calls 0 5 ++ .close 0 0 :: calls 0 4 ++ .close 1 1 :: calls 1 4 ++ .close 2 1 :: calls 2 4 ++
    [.fork 1 3, .resume 1 (some 0), .pipeIsClosed 2 0]

/-- `_pipe_is_closed` of env 2 has returned 1 on a read end, and env 0 maps the write end. -/
def Holders.lost (st : Holders) : Bool :=
  st.answer == some (2, 0, true) && (st.space 2).lookup (index2Fd 0) == some 1 && st.tag 1 == some (0, .reader) &&
    st.tag 2 == some (0, .writer) && (st.space 0).lookup (index2Fd 1) == some 2

theorem pipeIsClosed_unsound : ∃ st, Run Holders.step (fun _ _ => True) .init halfRun st ∧ ¬ EofSound st := by
  have check : ((Run.exec Holders.step .init halfRun).map Holders.lost) = some true := by decide +kernel
  obtain ⟨st, exec, check⟩ := Option.map_eq_some_iff.mp check
  simp only [Holders.lost, Bool.and_eq_true, beq_iff_eq] at check
  obtain ⟨⟨⟨⟨answer, here⟩, reader⟩, writer⟩, there⟩ := check
  refine ⟨st, Run.of_exec (fun _ _ _ => trivial) exec, fun sound => ?_⟩
  exact sound 2 0 answer 1 here 0 .reader reader (fun eq => by cases eq) 2 writer 0 _ there

end Mos
