import Mos.User.Fd
import Mathlib.Algebra.Order.BigOperators.Group.Finset

namespace Mos

section layout

variable {s t j : Nat}

theorem index2Fd_eq (small : s < maxFd) : index2Fd s = fdTable + s := by
  unfold maxFd at small
  unfold index2Fd fdTable
  omega

theorem window_eq (small : s < maxFd) (inside : j < 1024) : window s j = fileBase + 1024 * s + j := by
  unfold maxFd at small
  unfold window fileBase
  omega

theorem index2Data_eq (small : s < maxFd) : index2Data s = fileBase + 1024 * s := window_eq small (by decide)

theorem index2Fd_inj (hs : s < maxFd) (ht : t < maxFd) (same : index2Fd s = index2Fd t) : s = t := by
  rw [index2Fd_eq hs, index2Fd_eq ht] at same
  omega

theorem index2Data_inj (hs : s < maxFd) (ht : t < maxFd) (same : index2Data s = index2Data t) : s = t := by
  rw [index2Data_eq hs, index2Data_eq ht] at same
  omega

theorem fd_ne_window (hs : s < maxFd) (ht : t < maxFd) (inside : j < 1024) : index2Fd s ≠ window t j := by
  rw [index2Fd_eq hs, window_eq ht inside]
  unfold fdTable fileBase
  unfold maxFd at hs
  omega

theorem fd_ne_data (hs : s < maxFd) (ht : t < maxFd) : index2Fd s ≠ index2Data t := fd_ne_window hs ht (by decide)

theorem data_window (hs : s < maxFd) (ht : t < maxFd) (inside : j < 1024) (same : index2Data s = window t j) :
    s = t ∧ j = 0 := by
  rw [index2Data_eq hs, window_eq ht inside] at same
  omega

end layout

theorem nextMapped_some {sp : Space} {low limit v : Nat} (h : nextMapped sp low limit = some v) :
    low ≤ v ∧ v < limit ∧ (∃ pg, sp.lookup v = some pg) ∧ ∀ u, low ≤ u → u < v → sp.lookup u = none := by
  obtain ⟨mem, least⟩ := List.min?_eq_some_iff.mp h
  simp only [List.mem_filter, Bool.and_eq_true, decide_eq_true_eq] at mem least
  obtain ⟨key, low', high⟩ := mem
  refine ⟨low', high, Option.isSome_iff_exists.mp (AList.lookup_isSome.mpr key), fun u after before => ?_⟩
  refine AList.lookup_eq_none.mpr fun key' => ?_
  exact absurd (least u ⟨key', after, before.trans high⟩) (Nat.not_le.mpr before)

theorem nextMapped_none {sp : Space} {low limit : Nat} (h : nextMapped sp low limit = none) :
    ∀ u, low ≤ u → u < limit → sp.lookup u = none := by
  intro u after before
  refine AList.lookup_eq_none.mpr fun key => ?_
  have empty := List.min?_eq_none_iff.mp h
  have mem : u ∈ sp.keys.filter fun v => low ≤ v && v < limit := by
    simp only [List.mem_filter, Bool.and_eq_true, decide_eq_true_eq]
    exact ⟨AList.mem_keys.mp key, after, before⟩
  rw [empty] at mem
  cases mem

theorem lookup_insert_iff {sp : Space} {v u pg g : Nat} : (sp.insert v pg).lookup u = some g ↔
    (u = v ∧ pg = g) ∨ (u ≠ v ∧ sp.lookup u = some g) := by
  by_cases same : u = v
  · subst same
    simp [AList.lookup_insert]
  · simp [AList.lookup_insert_ne same, same]

theorem lookup_erase_iff {sp : Space} {v u g : Nat} : (sp.erase v).lookup u = some g ↔ u ≠ v ∧ sp.lookup u = some g := by
  by_cases same : u = v
  · subst same
    simp [AList.lookup_erase]
  · simp [AList.lookup_erase_ne same, same]

/-- No page of a pipe is mapped at `v`. -/
def Bare (tag : Nat → Option (Nat × Role)) (sp : Space) (v : Nat) : Prop := ∀ g, sp.lookup v = some g → tag g = none

/-- The rest `vs` of the unmappings of `close fd`. -/
def Closing (tag : Nat → Option (Nat × Role)) (fd : Nat) (vs : List Nat) (sp : Space) : Prop :=
  vs = closeVs fd ∨ Bare tag sp (index2Fd fd) ∧ ∀ v ∈ vs, v = index2Fd fd ∨ v = index2Data fd

/-- The first page of the window of `old` has been mapped in the window of `new`. -/
def Copied (old new : Nat) (sp : Space) : Prop :=
  ∀ p, sp.lookup (index2Data old) = some p → sp.lookup (index2Data new) = some p

/-- What an env knows of its descriptors in the middle of a library call. -/
def Proc.Stage (tag : Nat → Option (Nat × Role)) (sp : Space) : Proc → Prop
  | .pipeFd1 s0 => s0 < maxFd
  | .pipeData s0 s1 => s0 < maxFd ∧ s1 < maxFd ∧ s0 ≠ s1
  | .pipeMap s0 s1 => s0 < maxFd ∧ s1 < maxFd ∧ s0 ≠ s1
  | .pipeErr vs => ∀ s, s < maxFd → index2Data s ∈ vs → Bare tag sp (index2Fd s)
  | .close fd vs => fd < maxFd ∧ Closing tag fd vs sp
  | .dupClose old new vs => old < maxFd ∧ new < maxFd ∧ Closing tag new vs sp
  | .dupCopy old new i => old < maxFd ∧ new < maxFd ∧ Bare tag sp (index2Fd new) ∧ (0 < i → Copied old new sp)
  | .dupFd old new => old < maxFd ∧ new < maxFd ∧ Bare tag sp (index2Fd new) ∧ Copied old new sp
  | .dupErr new vs => new < maxFd ∧ Bare tag sp (index2Fd new) ∧
      ∀ v ∈ vs, v = index2Fd new ∨ ∃ j, j < 1024 ∧ v = window new j
  | _ => True

/-- The pages of a pipe that is being made; nobody else maps them. -/
def Proc.secret : Proc → List Nat
  | .pipeFd1 s0 => [index2Fd s0]
  | .pipeData s0 s1 => [index2Fd s0, index2Fd s1]
  | .pipeMap s0 s1 => [index2Fd s0, index2Fd s1, index2Data s0]
  | _ => []

/-- In one env, a descriptor page of a pipe is mapped at a descriptor only, and the window of that descriptor has
    the pipe, unless the env is a child that has not got that far. -/
structure Local (tag : Nat → Option (Nat × Role)) (sp : Space) (q : Proc) : Prop where
  place : ∀ v g id r, sp.lookup v = some g → tag g = some (id, r) → r ≠ .pipe → ∃ s, s < maxFd ∧ v = index2Fd s
  paired : ∀ s g id r, s < maxFd → sp.lookup (index2Fd s) = some g → tag g = some (id, r) → r ≠ .pipe →
    (∀ n, q = .embryo n → index2Data s < n) → ∃ p, sp.lookup (index2Data s) = some p ∧ tag p = some (id, .pipe)
  stage : q.Stage tag sp

section local_

variable {tag tag' : Nat → Option (Nat × Role)} {sp : Space} {q q' : Proc}

theorem Proc.Stage.retag (stage : q.Stage tag sp) (same : ∀ v g, sp.lookup v = some g → tag' g = tag g) :
    q.Stage tag' sp := by
  have bare : ∀ v, Bare tag sp v → Bare tag' sp v := fun v bare g there => (same v g there).trans (bare g there)
  have closing : ∀ fd vs, Closing tag fd vs sp → Closing tag' fd vs sp :=
    fun fd vs rest => rest.imp_right fun none => ⟨bare _ none.1, none.2⟩
  cases q with
  | pipeErr vs => exact fun s small mem => bare _ (stage s small mem)
  | close fd vs => exact ⟨stage.1, closing fd vs stage.2⟩
  | dupClose old new vs => exact ⟨stage.1, stage.2.1, closing new vs stage.2.2⟩
  | dupCopy old new i => exact ⟨stage.1, stage.2.1, bare _ stage.2.2.1, stage.2.2.2⟩
  | dupFd old new => exact ⟨stage.1, stage.2.1, bare _ stage.2.2.1, stage.2.2.2⟩
  | dupErr new vs => exact ⟨stage.1, bare _ stage.2.1, stage.2.2⟩
  | _ => exact stage

theorem Local.retag (loc : Local tag sp q) (same : ∀ v g, sp.lookup v = some g → tag' g = tag g) : Local tag' sp q := by
  refine ⟨fun v g id r there is kind => ?_, fun s g id r small there is kind past => ?_, loc.stage.retag same⟩
  · exact loc.place v g id r there ((same v g there).symm.trans is) kind
  · obtain ⟨p, found, pipe⟩ := loc.paired s g id r small there ((same _ g there).symm.trans is) kind past
    exact ⟨p, found, (same _ p found).trans pipe⟩

theorem Local.goto (loc : Local tag sp q) (old : ∀ n, q ≠ .embryo n) (stage : q'.Stage tag sp) : Local tag sp q' :=
  ⟨loc.place, fun s g id r small there is kind _ => loc.paired s g id r small there is kind fun n eq => absurd eq (old n),
    stage⟩

theorem Local.erase {v : Nat} (loc : Local tag sp q) (old : ∀ n, q ≠ .embryo n)
    (idle : ∀ s, s < maxFd → v = index2Data s → Bare tag sp (index2Fd s))
    (stage : q'.Stage tag (sp.erase v)) : Local tag (sp.erase v) q' := by
  refine ⟨fun u g id r there is kind => ?_, fun s g id r small there is kind _ => ?_, stage⟩
  · exact loc.place u g id r (lookup_erase_iff.mp there).2 is kind
  · obtain ⟨_, there⟩ := lookup_erase_iff.mp there
    obtain ⟨p, found, pipe⟩ := loc.paired s g id r small there is kind fun n eq => absurd eq (old n)
    refine ⟨p, lookup_erase_iff.mpr ⟨fun same => ?_, found⟩, pipe⟩
    cases is.symm.trans (idle s small same.symm g there)

theorem Local.insert {v pg : Nat} (loc : Local tag sp q) (old : ∀ n, q ≠ .embryo n)
    (home : ∀ id r, tag pg = some (id, r) → r ≠ .pipe → ∃ s, s < maxFd ∧ v = index2Fd s ∧
      ∃ p, sp.lookup (index2Data s) = some p ∧ tag p = some (id, .pipe))
    (idle : ∀ s, s < maxFd → v = index2Data s → Bare tag sp (index2Fd s))
    (stage : q'.Stage tag (sp.insert v pg)) : Local tag (sp.insert v pg) q' := by
  refine ⟨fun u g id r there is kind => ?_, fun s g id r small there is kind _ => ?_, stage⟩
  · rcases lookup_insert_iff.mp there with ⟨rfl, rfl⟩ | ⟨_, there⟩
    · obtain ⟨s, small, at_, _⟩ := home id r is kind
      exact ⟨s, small, at_⟩
    · exact loc.place u g id r there is kind
  · rcases lookup_insert_iff.mp there with ⟨at_, rfl⟩ | ⟨_, there⟩
    · obtain ⟨t, small', at', p, found, pipe⟩ := home id r is kind
      obtain rfl := index2Fd_inj small small' (at_.trans at')
      refine ⟨p, lookup_insert_iff.mpr (Or.inr ⟨fun same => ?_, found⟩), pipe⟩
      exact fd_ne_data small small (at_.trans same.symm)
    · obtain ⟨p, found, pipe⟩ := loc.paired s g id r small there is kind fun n eq => absurd eq (old n)
      refine ⟨p, lookup_insert_iff.mpr (Or.inr ⟨fun same => ?_, found⟩), pipe⟩
      cases is.symm.trans (idle s small same.symm g there)

end local_

/-- The page at `v` in `e` is mapped nowhere else and belongs to no pipe yet. -/
def Secret (st : Holders) (e : EnvPtr) (v : Nat) : Prop :=
  ∃ pg, (st.space e).lookup v = some pg ∧ st.tag pg = none ∧ ∀ b u, (st.space b).lookup u = some pg → b = e ∧ u = v

def Follows (st : Holders) (e c : EnvPtr) : Prop :=
  ∃ n, st.proc c = .embryo n ∧ ∀ u, (st.space c).lookup u = if u < n then (st.space e).lookup u else none

structure EofInv (st : Holders) : Prop where
  each : ∀ e, Local st.tag (st.space e) (st.proc e)
  one : ∀ a b id, st.tag a = some (id, .pipe) → st.tag b = some (id, .pipe) → a = b
  fresh : ∀ a id r, st.tag a = some (id, r) → id < st.made
  secret : ∀ e v, v ∈ (st.proc e).secret → Secret st e v
  child : ∀ e c limit, st.proc e = .copy c limit → index2Data 31 < limit ∧ Follows st e c
  only : ∀ e b c l l', st.proc e = .copy c l → st.proc b = .copy c l' → e = b

variable {st st' : Holders} {x : EnvPtr}

/-- A step of `x` on its own descriptors, outside `fork` and `spawn`. -/
structure Own (x : EnvPtr) (st st' : Holders) : Prop where
  noCopy : ∀ c l, st.proc x ≠ .copy c l
  noEmbryo : ∀ n, st.proc x ≠ .embryo n
  noCopy' : ∀ c l, st'.proc x ≠ .copy c l
  spaces : ∀ b, b ≠ x → st'.space b = st.space b
  procs : ∀ b, b ≠ x → st'.proc b = st.proc b

theorem Own.child (own : Own x st st') (inv : EofInv st) : ∀ e c limit, st'.proc e = .copy c limit →
    index2Data 31 < limit ∧ Follows st' e c := by
  intro e c limit copies
  have other : e ≠ x := by
    rintro rfl
    exact own.noCopy' c limit copies
  obtain ⟨high, n, embryo, same⟩ := inv.child e c limit ((own.procs e other).symm.trans copies)
  have other' : c ≠ x := by
    rintro rfl
    exact own.noEmbryo n embryo
  refine ⟨high, n, (own.procs c other').trans embryo, fun u => ?_⟩
  rw [own.spaces c other', own.spaces e other]
  exact same u

theorem Own.only (own : Own x st st') (inv : EofInv st) : ∀ e b c l l', st'.proc e = .copy c l →
    st'.proc b = .copy c l' → e = b := by
  intro e b c l l' first second
  have other : e ≠ x := by
    rintro rfl
    exact own.noCopy' c l first
  have other' : b ≠ x := by
    rintro rfl
    exact own.noCopy' c l' second
  exact inv.only e b c l l' ((own.procs e other).symm.trans first) ((own.procs b other').symm.trans second)

theorem EofInv.own (inv : EofInv st) (own : Own x st st') (loc : Local st'.tag (st'.space x) (st'.proc x))
    (tags : ∀ b v g, b ≠ x → (st.space b).lookup v = some g → st'.tag g = st.tag g)
    (one : ∀ a b id, st'.tag a = some (id, .pipe) → st'.tag b = some (id, .pipe) → a = b)
    (fresh : ∀ a id r, st'.tag a = some (id, r) → id < st'.made)
    (secret : ∀ v, v ∈ (st'.proc x).secret → Secret st' x v)
    (apart : ∀ b v g, b ≠ x → v ∈ (st.proc b).secret → (st.space b).lookup v = some g →
      ∀ u, (st'.space x).lookup u ≠ some g) : EofInv st' := by
  refine ⟨fun e => ?_, one, fresh, fun e v mem => ?_, own.child inv, own.only inv⟩
  · by_cases same : e = x
    · rw [same]
      exact loc
    · rw [own.spaces e same, own.procs e same]
      exact (inv.each e).retag fun v g => tags e v g same
  · by_cases same : e = x
    · subst same
      exact secret v mem
    · rw [own.procs e same] at mem
      obtain ⟨pg, there, bare, sole⟩ := inv.secret e v mem
      refine ⟨pg, by rw [own.spaces e same]; exact there, (tags e v pg same there).trans bare, fun b u found => ?_⟩
      by_cases here : b = x
      · subst here
        exact absurd found (apart e v pg same mem there u)
      · rw [own.spaces b here] at found
        exact sole b u found

/-- `x` maps only pages that it has mapped already. -/
theorem EofInv.move (inv : EofInv st) (own : Own x st st') (loc : Local st.tag (st'.space x) (st'.proc x))
    (tag : st'.tag = st.tag) (made : st'.made = st.made) (open_ : (st'.proc x).secret = [])
    (pages : ∀ u g, (st'.space x).lookup u = some g → ∃ v, (st.space x).lookup v = some g) : EofInv st' := by
  refine inv.own own (tag.symm ▸ loc) (fun b v g _ _ => by rw [tag]) (tag.symm ▸ inv.one) ?_ (fun v mem => ?_)
    fun b v g other mem there u found => ?_
  · rw [tag, made]
    exact inv.fresh
  · rw [open_] at mem
    cases mem
  · obtain ⟨w, mine⟩ := pages u g found
    obtain ⟨pg, there', _, sole⟩ := inv.secret b v mem
    obtain rfl := Option.some.inj (there'.symm.trans there)
    exact other (sole x w mine).1.symm

theorem refs_zero {pg : Nat} (unused : st.refs pg = 0) : ∀ b u, (st.space b).lookup u ≠ some pg := by
  intro b u found
  have none := Finset.sum_eq_zero_iff.mp unused b (Finset.mem_univ b)
  have mem : u ∈ (st.space b).keys.toFinset.filter fun v => (st.space b).lookup v = some pg := by
    refine Finset.mem_filter.mpr ⟨List.mem_toFinset.mpr (AList.mem_keys.mp (AList.lookup_isSome.mp ?_)), found⟩
    rw [found]
    rfl
  rw [Space.refs, Finset.card_eq_zero] at none
  rw [none] at mem
  cases mem

theorem EofInv.alloc {v pg : Nat} {q : Proc} (inv : EofInv st) (noCopy : ∀ c l, st.proc x ≠ .copy c l)
    (noEmbryo : ∀ n, st.proc x ≠ .embryo n) (noCopy' : ∀ c l, q ≠ .copy c l) (unused : st.refs pg = 0)
    (idle : ∀ s, s < maxFd → v = index2Data s → Bare st.tag (st.space x) (index2Fd s))
    (stage : q.Stage (Function.update st.tag pg none) ((st.space x).insert v pg))
    (secret : ∀ u ∈ q.secret, u = v ∨ u ≠ v ∧ Secret st x u) : EofInv ((st.memAlloc x v pg).setProc x q) := by
  have free := refs_zero unused
  have same : ∀ b u g, (st.space b).lookup u = some g → Function.update st.tag pg none g = st.tag g := by
    intro b u g found
    exact Function.update_of_ne (fun eq : g = pg => free b u (eq ▸ found)) _ _
  have left : ∀ a t, Function.update st.tag pg none a = some t → st.tag a = some t := by
    intro a t tagged
    by_cases here : a = pg
    · rw [here, Function.update_self] at tagged
      cases tagged
    · rwa [Function.update_of_ne here] at tagged
  have own : Own x st ((st.memAlloc x v pg).setProc x q) :=
    ⟨noCopy, noEmbryo, fun c l => by simpa [Holders.setProc] using noCopy' c l,
      fun b ne => by simp [Holders.setProc, Holders.memAlloc, Holders.setSpace, ne],
      fun b ne => by simp [Holders.setProc, Holders.memAlloc, Holders.setSpace, ne]⟩
  have space : ((st.memAlloc x v pg).setProc x q).space x = (st.space x).insert v pg := by
    simp [Holders.setProc, Holders.memAlloc, Holders.setSpace]
  have proc : ((st.memAlloc x v pg).setProc x q).proc x = q := by simp [Holders.setProc]
  have tag : ((st.memAlloc x v pg).setProc x q).tag = Function.update st.tag pg none := rfl
  refine inv.own own ?_ (fun b u g _ found => same b u g found) (fun a b id ha hb => ?_) (fun a id r tagged => ?_)
    (fun u mem => ?_) fun b u g other mem there w found => ?_
  · rw [space, proc, tag]
    refine ((inv.each x).retag (same x)).insert noEmbryo (fun id r tagged => ?_) (fun s small at_ g there => ?_) stage
    · rw [Function.update_self] at tagged
      cases tagged
    · rw [same x _ g there]
      exact idle s small at_ g there
  · exact inv.one a b id (left a _ ha) (left b _ hb)
  · exact inv.fresh a id r (left a _ tagged)
  · rw [proc] at mem
    rcases secret u mem with rfl | ⟨ne, p, there, bare, sole⟩
    · refine ⟨pg, by rw [space, AList.lookup_insert], by rw [tag, Function.update_self], fun b w found => ?_⟩
      by_cases here : b = x
      · subst here
        rw [space, lookup_insert_iff] at found
        rcases found with ⟨at_, _⟩ | ⟨_, found⟩
        · exact ⟨rfl, at_⟩
        · exact absurd found (free b w)
      · rw [own.spaces b here] at found
        exact absurd found (free b w)
    · refine ⟨p, by rw [space, AList.lookup_insert_ne ne]; exact there, (same x u p there).trans bare, fun b w found => ?_⟩
      by_cases here : b = x
      · subst here
        rw [space, lookup_insert_iff] at found
        rcases found with ⟨_, eq⟩ | ⟨_, found⟩
        · exact absurd there (eq ▸ free b u)
        · exact sole b w found
      · rw [own.spaces b here] at found
        exact sole b w found
  · rw [space, lookup_insert_iff] at found
    rcases found with ⟨_, eq⟩ | ⟨_, found⟩
    · exact free b u (eq ▸ there)
    · obtain ⟨p, there', _, sole⟩ := inv.secret b u mem
      obtain rfl := Option.some.inj (there'.symm.trans there)
      exact other (sole x w found).1.symm

theorem memMap_some {src dst : EnvPtr} {srcva dstva : Nat} {page : Option Nat}
    (h : st.memMap src srcva dst dstva page = some st') :
    ∃ pg, (st.space src).lookup srcva = some pg ∧ st' = st.setSpace dst ((st.space dst).insert dstva pg) := by
  unfold Holders.memMap at h
  split at h
  · obtain ⟨pg, found, rfl⟩ := Option.map_eq_some_iff.mp h
    exact ⟨pg, found, rfl⟩
  · cases h

/-- `x` goes on with `q` on the space `sp`. -/
def Holders.put (st : Holders) (x : EnvPtr) (sp : Space) (q : Proc) : Holders := (st.setSpace x sp).setProc x q

theorem setProc_put (st : Holders) (x : EnvPtr) (q : Proc) : st.setProc x q = st.put x (st.space x) q := by
  simp [Holders.put, Holders.setProc, Holders.setSpace]

section put

variable {sp : Space} {q : Proc}

@[simp] theorem put_space : (st.put x sp q).space x = sp := by simp [Holders.put, Holders.setProc, Holders.setSpace]
@[simp] theorem put_proc : (st.put x sp q).proc x = q := by simp [Holders.put, Holders.setProc]

theorem put_own (noCopy : ∀ c l, st.proc x ≠ .copy c l) (noEmbryo : ∀ n, st.proc x ≠ .embryo n)
    (noCopy' : ∀ c l, q ≠ .copy c l) : Own x st (st.put x sp q) :=
  ⟨noCopy, noEmbryo, fun c l => by rw [put_proc]; exact noCopy' c l,
    fun b ne => by simp [Holders.put, Holders.setProc, Holders.setSpace, ne],
    fun b ne => by simp [Holders.put, Holders.setProc, Holders.setSpace, ne]⟩

theorem EofInv.put (inv : EofInv st) (own : Own x st (st.put x sp q)) (loc : Local st.tag sp q) (open_ : q.secret = [])
    (pages : ∀ u g, sp.lookup u = some g → ∃ v, (st.space x).lookup v = some g) : EofInv (st.put x sp q) := by
  refine inv.move own ?_ rfl rfl ?_ ?_
  · rw [put_space, put_proc]
    exact loc
  · rw [put_proc]
    exact open_
  · rw [put_space]
    exact pages

theorem EofInv.goto (inv : EofInv st) (own : Own x st (st.put x (st.space x) q)) (stage : q.Stage st.tag (st.space x))
    (open_ : q.secret = []) : EofInv (st.setProc x q) := by
  rw [setProc_put]
  exact inv.put own ((inv.each x).goto own.noEmbryo stage) open_ fun u g found => ⟨u, found⟩

theorem EofInv.unmap {v : Nat} (inv : EofInv st) (own : Own x st (st.put x ((st.space x).erase v) q))
    (idle : ∀ s, s < maxFd → v = index2Data s → Bare st.tag (st.space x) (index2Fd s))
    (stage : q.Stage st.tag ((st.space x).erase v)) (open_ : q.secret = []) : EofInv ((st.memUnmap x v).setProc x q) :=
  inv.put own ((inv.each x).erase own.noEmbryo idle stage) open_ fun u _ found => ⟨u, (lookup_erase_iff.mp found).2⟩

theorem EofInv.map {v u pg : Nat} (inv : EofInv st) (own : Own x st (st.put x ((st.space x).insert v pg) q))
    (found : (st.space x).lookup u = some pg)
    (home : ∀ id r, st.tag pg = some (id, r) → r ≠ .pipe → ∃ s, s < maxFd ∧ v = index2Fd s ∧
      ∃ p, (st.space x).lookup (index2Data s) = some p ∧ st.tag p = some (id, .pipe))
    (idle : ∀ s, s < maxFd → v = index2Data s → Bare st.tag (st.space x) (index2Fd s))
    (stage : q.Stage st.tag ((st.space x).insert v pg)) (open_ : q.secret = []) :
    EofInv ((st.setSpace x ((st.space x).insert v pg)).setProc x q) := by
  refine inv.put own ((inv.each x).insert own.noEmbryo home idle stage) open_ fun w g there => ?_
  rcases lookup_insert_iff.mp there with ⟨_, rfl⟩ | ⟨_, there⟩
  · exact ⟨u, found⟩
  · exact ⟨w, there⟩

end put

theorem Bare.erase {tag : Nat → Option (Nat × Role)} {sp : Space} {u : Nat} (bare : Bare tag sp u) (v : Nat) :
    Bare tag (sp.erase v) u := fun g there => bare g (lookup_erase_iff.mp there).2

theorem Closing.head {tag : Nat → Option (Nat × Role)} {fd v : Nat} {vs : List Nat} {sp : Space} (small : fd < maxFd)
    (closing : Closing tag fd (v :: vs) sp) :
    Closing tag fd vs (sp.erase v) ∧ ∀ s, s < maxFd → v = index2Data s → Bare tag sp (index2Fd s) := by
  rcases closing with all | ⟨none, rest⟩
  · obtain ⟨rfl, rfl⟩ : v = index2Fd fd ∧ vs = [index2Data fd, index2Fd fd] := by simpa [closeVs] using all
    refine ⟨Or.inr ⟨fun g there => ?_, fun u mem => ?_⟩, fun s hs at_ => absurd at_ (fd_ne_data small hs)⟩
    · exact absurd rfl (lookup_erase_iff.mp there).1
    · simp only [List.mem_cons, List.not_mem_nil, or_false] at mem
      exact mem.symm
  · refine ⟨Or.inr ⟨none.erase v, fun u mem => rest u (List.mem_cons_of_mem v mem)⟩, fun s hs at_ => ?_⟩
    rcases rest v List.mem_cons_self with here | here
    · exact absurd (here.symm.trans at_) (fd_ne_data small hs)
    · rw [index2Data_inj hs small (at_.symm.trans here)]
      exact none

theorem fdAlloc_some {sp : Space} {s : Nat} (h : fdAlloc sp = some s) : s < maxFd ∧ sp.lookup (index2Fd s) = none := by
  have test := List.find?_some h
  have mem := List.mem_range.mp (List.mem_of_find?_eq_some h)
  exact ⟨by unfold maxFd at *; omega, Option.isNone_iff_eq_none.mp test⟩

section finish

variable {s0 s1 f0 f1 p : Nat}

/-- The pages of the new pipe are three pages that only `x` maps, each once. -/
structure NewPipe (st : Holders) (x : EnvPtr) (s0 s1 f0 f1 p : Nat) : Prop where
  small0 : s0 < maxFd
  small1 : s1 < maxFd
  reader : ∀ b u, (st.space b).lookup u = some f0 ↔ b = x ∧ u = index2Fd s0
  writer : ∀ b u, (st.space b).lookup u = some f1 ↔ b = x ∧ u = index2Fd s1
  pipe : ∀ b u, (st.space b).lookup u = some p ↔ b = x ∧ u = index2Data s0
  bare : st.tag f0 = none ∧ st.tag f1 = none ∧ st.tag p = none
  apart : s0 ≠ s1

theorem EofInv.newPipe (inv : EofInv st) (at_ : st.proc x = .pipeMap s0 s1)
    (h0 : (st.space x).lookup (index2Fd s0) = some f0) (h1 : (st.space x).lookup (index2Fd s1) = some f1)
    (hp : (st.space x).lookup (index2Data s0) = some p) : NewPipe st x s0 s1 f0 f1 p := by
  have stage := (inv.each x).stage
  rw [at_] at stage
  obtain ⟨small0, small1, apart⟩ := stage
  have sole : ∀ v g, v ∈ [index2Fd s0, index2Fd s1, index2Data s0] → (st.space x).lookup v = some g →
      (∀ b u, (st.space b).lookup u = some g ↔ b = x ∧ u = v) ∧ st.tag g = none := by
    intro v g mem found
    obtain ⟨pg, there, bare, only⟩ := inv.secret x v (by rw [at_]; exact mem)
    obtain rfl := Option.some.inj (there.symm.trans found)
    refine ⟨fun b u => ⟨only b u, ?_⟩, bare⟩
    rintro ⟨rfl, rfl⟩
    exact found
  obtain ⟨only0, bare0⟩ := sole _ f0 (by simp) h0
  obtain ⟨only1, bare1⟩ := sole _ f1 (by simp) h1
  obtain ⟨onlyP, bareP⟩ := sole _ p (by simp) hp
  exact ⟨small0, small1, only0, only1, onlyP, ⟨bare0, bare1, bareP⟩, apart⟩

def newTag (st : Holders) (f0 f1 p : Nat) : Nat → Option (Nat × Role) := (tagPipe st f0 f1 p).tag

theorem NewPipe.tags (new : NewPipe st x s0 s1 f0 f1 p) : newTag st f0 f1 p f0 = some (st.made, .reader) ∧
    newTag st f0 f1 p f1 = some (st.made, .writer) ∧ newTag st f0 f1 p p = some (st.made, .pipe) ∧
    ∀ g, g ≠ f0 → g ≠ f1 → g ≠ p → newTag st f0 f1 p g = st.tag g := by
  have ne01 : f0 ≠ f1 := by
    rintro rfl
    have both := (new.writer x (index2Fd s0)).mp ((new.reader x _).mpr ⟨rfl, rfl⟩)
    exact new.apart (index2Fd_inj new.small0 new.small1 both.2)
  have ne0p : f0 ≠ p := by
    rintro rfl
    have both := (new.pipe x (index2Fd s0)).mp ((new.reader x _).mpr ⟨rfl, rfl⟩)
    exact fd_ne_data new.small0 new.small0 both.2
  have ne1p : f1 ≠ p := by
    rintro rfl
    have both := (new.pipe x (index2Fd s1)).mp ((new.writer x _).mpr ⟨rfl, rfl⟩)
    exact fd_ne_data new.small1 new.small0 both.2
  refine ⟨?_, ?_, ?_, fun g ne0 ne1 nep => ?_⟩
  · simp [newTag, tagPipe, ne01, ne0p]
  · simp [newTag, tagPipe, ne1p]
  · simp [newTag, tagPipe]
  · simp [newTag, tagPipe, ne0, ne1, nep]

theorem NewPipe.cases (new : NewPipe st x s0 s1 f0 f1 p) {g id : Nat} {r : Role}
    (tagged : newTag st f0 f1 p g = some (id, r)) : (g = f0 ∧ id = st.made ∧ r = .reader) ∨
      (g = f1 ∧ id = st.made ∧ r = .writer) ∨ (g = p ∧ id = st.made ∧ r = .pipe) ∨ st.tag g = some (id, r) := by
  obtain ⟨tag0, tag1, tagp, others⟩ := new.tags
  by_cases is0 : g = f0
  · rw [is0, tag0] at tagged
    cases tagged
    exact Or.inl ⟨is0, rfl, rfl⟩
  · by_cases is1 : g = f1
    · rw [is1, tag1] at tagged
      cases tagged
      exact Or.inr (Or.inl ⟨is1, rfl, rfl⟩)
    · by_cases isp : g = p
      · rw [isp, tagp] at tagged
        cases tagged
        exact Or.inr (Or.inr (Or.inl ⟨isp, rfl, rfl⟩))
      · rw [others g is0 is1 isp] at tagged
        exact Or.inr (Or.inr (Or.inr tagged))

theorem NewPipe.old (new : NewPipe st x s0 s1 f0 f1 p) {g : Nat} {t : Nat × Role} (tagged : st.tag g = some t) :
    newTag st f0 f1 p g = st.tag g := by
  obtain ⟨bare0, bare1, barep⟩ := new.bare
  refine new.tags.2.2.2 g (fun eq => ?_) (fun eq => ?_) fun eq => ?_
  · cases (eq ▸ bare0).symm.trans tagged
  · cases (eq ▸ bare1).symm.trans tagged
  · cases (eq ▸ barep).symm.trans tagged

theorem NewPipe.local_ (new : NewPipe st x s0 s1 f0 f1 p) (loc : Local st.tag (st.space x) (.pipeMap s0 s1)) :
    Local (newTag st f0 f1 p) ((st.space x).insert (index2Data s1) p) .run := by
  refine ⟨fun v g id r there is kind => ?_, fun s g id r small there is kind _ => ?_, trivial⟩
  · rcases new.cases is with ⟨rfl, _, _⟩ | ⟨rfl, _, _⟩ | ⟨_, _, rfl⟩ | was
    · rcases lookup_insert_iff.mp there with ⟨_, eq⟩ | ⟨_, there⟩
      · exact absurd ((new.reader x _).mp (eq ▸ (new.pipe x _).mpr ⟨rfl, rfl⟩)).2 (fd_ne_data new.small0 new.small0).symm
      · exact ⟨s0, new.small0, ((new.reader x v).mp there).2⟩
    · rcases lookup_insert_iff.mp there with ⟨_, eq⟩ | ⟨_, there⟩
      · exact absurd ((new.writer x _).mp (eq ▸ (new.pipe x _).mpr ⟨rfl, rfl⟩)).2 (fd_ne_data new.small1 new.small0).symm
      · exact ⟨s1, new.small1, ((new.writer x v).mp there).2⟩
    · exact absurd rfl kind
    · rcases lookup_insert_iff.mp there with ⟨_, eq⟩ | ⟨_, there⟩
      · cases (eq ▸ new.bare.2.2).symm.trans was
      · exact loc.place v g id r there was kind
  · rcases lookup_insert_iff.mp there with ⟨at_, _⟩ | ⟨_, there⟩
    · exact absurd at_ (fd_ne_data small new.small1)
    · rcases new.cases is with ⟨rfl, rfl, _⟩ | ⟨rfl, rfl, _⟩ | ⟨_, _, rfl⟩ | was
      · obtain rfl := index2Fd_inj small new.small0 ((new.reader x _).mp there).2
        refine ⟨p, lookup_insert_iff.mpr (Or.inr ⟨fun same => ?_, (new.pipe x _).mpr ⟨rfl, rfl⟩⟩), new.tags.2.2.1⟩
        exact new.apart (index2Data_inj new.small0 new.small1 same)
      · obtain rfl := index2Fd_inj small new.small1 ((new.writer x _).mp there).2
        exact ⟨p, lookup_insert_iff.mpr (Or.inl ⟨rfl, rfl⟩), new.tags.2.2.1⟩
      · exact absurd rfl kind
      · obtain ⟨p', found, pipe⟩ := loc.paired s g id r small there was kind fun n eq => by cases eq
        refine ⟨p', lookup_insert_iff.mpr (Or.inr ⟨fun same => ?_, found⟩), (new.old pipe).trans pipe⟩
        have eq := index2Data_inj small new.small1 same
        have page := Option.some.inj (there.symm.trans (eq ▸ (new.writer x _).mpr ⟨rfl, rfl⟩))
        cases (page ▸ new.bare.2.1).symm.trans was

theorem EofInv.finishPipe (inv : EofInv st) (at_ : st.proc x = .pipeMap s0 s1) (new : NewPipe st x s0 s1 f0 f1 p) :
    EofInv ((tagPipe (st.setSpace x ((st.space x).insert (index2Data s1) p)) f0 f1 p).setProc x .run) := by
  have proc : ∀ q, st.proc x = q → q = .pipeMap s0 s1 := fun q eq => eq.symm.trans at_
  have own : Own x st ((tagPipe (st.setSpace x ((st.space x).insert (index2Data s1) p)) f0 f1 p).setProc x .run) :=
    ⟨fun c l eq => (by cases proc _ eq), fun n eq => (by cases proc _ eq),
      fun c l => by simp [Holders.setProc], fun b ne => by simp [Holders.setProc, tagPipe, Holders.setSpace, ne],
      fun b ne => by simp [Holders.setProc, tagPipe, Holders.setSpace, ne]⟩
  have space : ((tagPipe (st.setSpace x ((st.space x).insert (index2Data s1) p)) f0 f1 p).setProc x .run).space x =
      (st.space x).insert (index2Data s1) p := by simp [Holders.setProc, tagPipe, Holders.setSpace]
  have run : ((tagPipe (st.setSpace x ((st.space x).insert (index2Data s1) p)) f0 f1 p).setProc x .run).proc x = .run := by
    simp [Holders.setProc]
  have loc := inv.each x
  rw [at_] at loc
  refine inv.own own ?_ (fun b v g other found => ?_) (fun a b id ha hb => ?_) (fun a id r tagged => ?_)
    (fun v mem => ?_) fun b v g other mem there u found => ?_
  · rw [space, run]
    exact new.local_ loc
  · refine new.tags.2.2.2 g (fun eq => ?_) (fun eq => ?_) fun eq => ?_
    · exact other ((new.reader b v).mp (eq ▸ found)).1
    · exact other ((new.writer b v).mp (eq ▸ found)).1
    · exact other ((new.pipe b v).mp (eq ▸ found)).1
  · rcases new.cases ha with ⟨_, _, no⟩ | ⟨_, _, no⟩ | ⟨rfl, rfl, _⟩ | old
    · cases no
    · cases no
    · rcases new.cases hb with ⟨_, _, no⟩ | ⟨_, _, no⟩ | ⟨rfl, _, _⟩ | old
      · cases no
      · cases no
      · rfl
      · exact absurd (inv.fresh b _ _ old) (Nat.lt_irrefl _)
    · rcases new.cases hb with ⟨_, _, no⟩ | ⟨_, _, no⟩ | ⟨rfl, rfl, _⟩ | old'
      · cases no
      · cases no
      · exact absurd (inv.fresh a _ _ old) (Nat.lt_irrefl _)
      · exact inv.one a b id old old'
  · rcases new.cases tagged with ⟨_, rfl, _⟩ | ⟨_, rfl, _⟩ | ⟨_, rfl, _⟩ | old
    · exact Nat.lt_succ_self _
    · exact Nat.lt_succ_self _
    · exact Nat.lt_succ_self _
    · exact Nat.lt_succ_of_lt (inv.fresh a id r old)
  · rw [run] at mem
    cases mem
  · rw [space, lookup_insert_iff] at found
    rcases found with ⟨_, eq⟩ | ⟨_, found⟩
    · exact other ((new.pipe b v).mp (eq ▸ there)).1
    · obtain ⟨pg, there', _, sole⟩ := inv.secret b v mem
      obtain rfl := Option.some.inj (there'.symm.trans there)
      exact other (sole x u found).1.symm

end finish

theorem EofInv.stage (inv : EofInv st) {q : Proc} (at_ : st.proc x = q) : q.Stage st.tag (st.space x) := by
  have stage := (inv.each x).stage
  rwa [at_] at stage

theorem fdAlloc_other {s s' pg : Nat} {sp : Space} (h : fdAlloc sp = some s') (there : sp.lookup (index2Fd s) = some pg) :
    s ≠ s' ∧ index2Fd s ≠ index2Fd s' := by
  have empty := (fdAlloc_some h).2
  refine ⟨?_, fun same => ?_⟩
  · rintro rfl
    cases there.symm.trans empty
  · rw [← same] at empty
    cases there.symm.trans empty

theorem pipe_inv {page : Option Nat} (inv : EofInv st) (h : resume x page st = some st')
    (making : (∃ s0, st.proc x = .pipeFd1 s0) ∨ (∃ s0 s1, st.proc x = .pipeData s0 s1) ∨
      (∃ s0 s1, st.proc x = .pipeMap s0 s1) ∨ ∃ vs, st.proc x = .pipeErr vs) : EofInv st' := by
  have noCopy : ∀ c l, st.proc x ≠ .copy c l := by
    intro c l eq
    rcases making with ⟨_, at_⟩ | ⟨_, _, at_⟩ | ⟨_, _, at_⟩ | ⟨_, at_⟩ <;> cases eq.symm.trans at_
  have noEmbryo : ∀ n, st.proc x ≠ .embryo n := by
    intro n eq
    rcases making with ⟨_, at_⟩ | ⟨_, _, at_⟩ | ⟨_, _, at_⟩ | ⟨_, at_⟩ <;> cases eq.symm.trans at_
  have own : ∀ sp q, (∀ c l, q ≠ Proc.copy c l) → Own x st (st.put x sp q) := fun sp q => put_own noCopy noEmbryo
  -- the cleanup unmaps pages that belong to no pipe
  have cleanup : ∀ s0 vs, s0 < maxFd → Secret st x (index2Fd s0) →
      (∀ v ∈ vs, v = index2Data s0 ∨ ∃ s, s < maxFd ∧ v = index2Fd s) → EofInv (st.setProc x (.pipeErr vs)) := by
    intro s0 vs small ⟨f0, found, bare, _⟩ only
    refine inv.goto (own _ _ fun c l eq => by cases eq) (fun s hs mem g there => ?_) rfl
    rcases only _ mem with here | ⟨t, ht, here⟩
    · obtain rfl := index2Data_inj hs small here
      rw [← Option.some.inj (found.symm.trans there)]
      exact bare
    · exact absurd here.symm (fd_ne_data ht hs)
  rcases making with ⟨s0, at_⟩ | ⟨s0, s1, at_⟩ | ⟨s0, s1, at_⟩ | ⟨vs, at_⟩
  · have small := inv.stage at_
    have mine := inv.secret x (index2Fd s0) (by rw [at_]; exact List.mem_singleton_self _)
    simp only [resume, at_] at h
    split at h
    · rename_i s1 pg alloc
      split at h
      · rename_i unused
        cases h
        have mine' := mine
        obtain ⟨f0, found, _⟩ := mine'
        obtain ⟨apart, away⟩ := fdAlloc_other alloc found
        have small1 := (fdAlloc_some alloc).1
        refine inv.alloc noCopy noEmbryo (fun c l eq => by cases eq) unused
          (fun s hs at_ => absurd at_ (fd_ne_data small1 hs)) ⟨small, small1, apart⟩ fun u mem => ?_
        rcases List.mem_cons.mp mem with rfl | mem
        · exact Or.inr ⟨away, mine⟩
        · exact Or.inl (List.mem_singleton.mp mem)
      · cases h
    · cases h
      refine cleanup s0 _ small mine fun v mem => Or.inr ⟨s0, small, List.mem_singleton.mp mem⟩
  · obtain ⟨small0, small1, apart⟩ := inv.stage at_
    have mine0 := inv.secret x (index2Fd s0) (by rw [at_]; simp [Proc.secret])
    have mine1 := inv.secret x (index2Fd s1) (by rw [at_]; simp [Proc.secret])
    simp only [resume, at_] at h
    split at h
    · rename_i pg
      split at h
      · rename_i unused
        cases h
        refine inv.alloc noCopy noEmbryo (fun c l eq => by cases eq) unused (fun s hs at_ g there => ?_)
          ⟨small0, small1, apart⟩ fun u mem => ?_
        · obtain rfl := index2Data_inj small0 hs at_
          obtain ⟨f0, found, bare, _⟩ := mine0
          rw [← Option.some.inj (found.symm.trans there)]
          exact bare
        · simp only [Proc.secret, List.mem_cons, List.not_mem_nil, or_false] at mem
          rcases mem with rfl | rfl | rfl
          · exact Or.inr ⟨fd_ne_data small0 small0, mine0⟩
          · exact Or.inr ⟨fd_ne_data small1 small0, mine1⟩
          · exact Or.inl rfl
      · cases h
    · cases h
      refine cleanup s0 _ small0 mine0 fun v mem => ?_
      simp only [List.mem_cons, List.not_mem_nil, or_false] at mem
      rcases mem with rfl | rfl
      · exact Or.inr ⟨s1, small1, rfl⟩
      · exact Or.inr ⟨s0, small0, rfl⟩
  · obtain ⟨small0, small1, _⟩ := inv.stage at_
    have mine0 := inv.secret x (index2Fd s0) (by rw [at_]; simp [Proc.secret])
    simp only [resume, at_] at h
    split at h
    · rename_i f0 f1 p mid h0 h1 hp map
      cases h
      obtain ⟨pg, found, rfl⟩ := memMap_some map
      obtain rfl := Option.some.inj (found.symm.trans hp)
      exact inv.finishPipe at_ (inv.newPipe at_ h0 h1 hp)
    · cases h
      refine cleanup s0 _ small0 mine0 fun v mem => ?_
      simp only [List.mem_cons, List.not_mem_nil, or_false] at mem
      rcases mem with rfl | rfl | rfl
      · exact Or.inl rfl
      · exact Or.inr ⟨s1, small1, rfl⟩
      · exact Or.inr ⟨s0, small0, rfl⟩
  · have stage := inv.stage at_
    cases vs with
    | nil =>
      simp only [resume, at_] at h
      cases h
      exact inv.goto (own _ _ fun c l eq => by cases eq) trivial rfl
    | cons v vs =>
      simp only [resume, at_] at h
      cases h
      refine inv.unmap (own _ _ fun c l eq => by cases eq) (fun s hs here g there => ?_) (fun s hs mem g there => ?_) rfl
      · exact stage s hs (here ▸ List.mem_cons_self) g there
      · exact stage s hs (List.mem_cons_of_mem v mem) g (lookup_erase_iff.mp there).2

theorem close_inv {page : Option Nat} {fd : Nat} {vs : List Nat} (inv : EofInv st) (h : resume x page st = some st')
    (at_ : st.proc x = .close fd vs) : EofInv st' := by
  have own : ∀ sp q, (∀ c l, q ≠ Proc.copy c l) → Own x st (st.put x sp q) := fun sp q =>
    put_own (fun c l eq => by cases eq.symm.trans at_) fun n eq => by cases eq.symm.trans at_
  obtain ⟨small, closing⟩ := inv.stage at_
  cases vs with
  | nil =>
    simp only [resume, at_] at h
    cases h
    exact inv.goto (own _ _ fun c l eq => by cases eq) trivial rfl
  | cons v vs =>
    simp only [resume, at_] at h
    cases h
    obtain ⟨rest, idle⟩ := closing.head small
    exact inv.unmap (own _ _ fun c l eq => by cases eq) idle ⟨small, rest⟩ rfl

theorem Copied.insert {old new j pg : Nat} {sp : Space} (small : new < maxFd) (small' : old < maxFd) (inside : j < 1024)
    (found : sp.lookup (window old j) = some pg)
    (before : 0 < j → Copied old new sp) : Copied old new (sp.insert (window new j) pg) := by
  intro p there
  rcases lookup_insert_iff.mp there with ⟨at_, rfl⟩ | ⟨_, kept⟩
  · obtain ⟨rfl, rfl⟩ := data_window small' small inside at_
    exact lookup_insert_iff.mpr (Or.inl ⟨rfl, rfl⟩)
  · rcases Nat.eq_zero_or_pos j with rfl | pos
    · exact lookup_insert_iff.mpr (Or.inl ⟨rfl, Option.some.inj (found.symm.trans kept)⟩)
    · refine lookup_insert_iff.mpr (Or.inr ⟨fun same => ?_, before pos p kept⟩)
      obtain ⟨_, zero⟩ := data_window small small inside same
      omega

theorem dup_inv {page : Option Nat} (inv : EofInv st) (h : resume x page st = some st')
    (at_ : (∃ old new vs, st.proc x = .dupClose old new vs) ∨ (∃ old new i, st.proc x = .dupCopy old new i) ∨
      (∃ old new, st.proc x = .dupFd old new) ∨ ∃ new vs, st.proc x = .dupErr new vs) : EofInv st' := by
  have noCopy : ∀ c l, st.proc x ≠ .copy c l := by
    intro c l eq
    rcases at_ with ⟨_, _, _, at_⟩ | ⟨_, _, _, at_⟩ | ⟨_, _, at_⟩ | ⟨_, _, at_⟩ <;> cases eq.symm.trans at_
  have noEmbryo : ∀ n, st.proc x ≠ .embryo n := by
    intro n eq
    rcases at_ with ⟨_, _, _, at_⟩ | ⟨_, _, _, at_⟩ | ⟨_, _, at_⟩ | ⟨_, _, at_⟩ <;> cases eq.symm.trans at_
  have own : ∀ sp q, (∀ c l, q ≠ Proc.copy c l) → Own x st (st.put x sp q) := fun sp q => put_own noCopy noEmbryo
  have giveUp : ∀ new, new < maxFd → Bare st.tag (st.space x) (index2Fd new) →
      EofInv (st.setProc x (.dupErr new (dupErrVs new))) := by
    intro new small none
    refine inv.goto (own _ _ fun c l eq => by cases eq) ⟨small, none, fun v mem => ?_⟩ rfl
    simp only [dupErrVs, List.mem_cons, List.mem_map, List.mem_range] at mem
    rcases mem with rfl | ⟨j, inside, rfl⟩
    · exact Or.inl rfl
    · exact Or.inr ⟨j, inside, rfl⟩
  rcases at_ with ⟨old, new, vs, at_⟩ | ⟨old, new, i, at_⟩ | ⟨old, new, at_⟩ | ⟨new, vs, at_⟩
  · obtain ⟨smallOld, small, closing⟩ := inv.stage at_
    cases vs with
    | nil =>
      simp only [resume, at_] at h
      cases h
      have none := (closing.resolve_left fun eq => by cases eq).1
      exact inv.goto (own _ _ fun c l eq => by cases eq) ⟨smallOld, small, none, fun pos => absurd pos (Nat.lt_irrefl 0)⟩ rfl
    | cons v vs =>
      simp only [resume, at_] at h
      cases h
      obtain ⟨rest, idle⟩ := closing.head small
      exact inv.unmap (own _ _ fun c l eq => by cases eq) idle ⟨smallOld, small, rest⟩ rfl
  · obtain ⟨smallOld, small, none, copied⟩ := inv.stage at_
    simp only [resume, at_] at h
    have base := window_eq smallOld (j := 0) (by decide)
    split at h
    · rename_i v next
      obtain ⟨low, high, _, least⟩ := nextMapped_some next
      have inside : v - window old 0 < 1024 := by omega
      have here : v = window old (v - window old 0) := by
        rw [window_eq smallOld inside]
        omega
      split at h
      · rename_i mid map
        cases h
        obtain ⟨pg, found, rfl⟩ := memMap_some map
        have place := (inv.each x).place v pg
        refine inv.map (own _ _ fun c l eq => by cases eq) found (fun id r tagged kind => ?_) (fun s hs at_ g there => ?_)
          ⟨smallOld, small, fun g there => ?_, fun _ => ?_⟩ rfl
        · obtain ⟨s, hs, at_⟩ := place id r found tagged kind
          exact absurd (at_.symm.trans here) (fd_ne_window hs smallOld inside)
        · obtain ⟨rfl, _⟩ := data_window hs small inside at_.symm
          exact none g there
        · rcases lookup_insert_iff.mp there with ⟨at_, _⟩ | ⟨_, there⟩
          · exact absurd at_ (fd_ne_window small small inside)
          · exact none g there
        · refine Copied.insert small smallOld inside (here ▸ found) fun pos => ?_
          rcases Nat.eq_zero_or_pos i with rfl | pos'
          · intro p there
            cases there.symm.trans (least (window old 0) (by omega) (by omega))
          · exact copied pos'
      · cases h
        exact giveUp new small none
    · rename_i last
      cases h
      refine inv.goto (own _ _ fun c l eq => by cases eq) ⟨smallOld, small, none, ?_⟩ rfl
      rcases Nat.eq_zero_or_pos i with rfl | pos
      · intro p there
        cases there.symm.trans (nextMapped_none last (window old 0) (by omega) (by omega))
      · exact copied pos
  · obtain ⟨smallOld, small, none, copied⟩ := inv.stage at_
    simp only [resume, at_] at h
    split at h
    · rename_i mid map
      cases h
      obtain ⟨pg, found, rfl⟩ := memMap_some map
      refine inv.map (own _ _ fun c l eq => by cases eq) found (fun id r tagged kind => ?_) (fun s hs here => ?_) trivial rfl
      · obtain ⟨p, there, pipe⟩ := (inv.each x).paired old pg id r smallOld found tagged kind
          fun n eq => absurd eq (noEmbryo n)
        exact ⟨new, small, rfl, p, copied p there, pipe⟩
      · exact absurd here (fd_ne_data small hs)
    · cases h
      exact giveUp new small none
  · obtain ⟨small, none, only⟩ := inv.stage at_
    cases vs with
    | nil =>
      simp only [resume, at_] at h
      cases h
      exact inv.goto (own _ _ fun c l eq => by cases eq) trivial rfl
    | cons v vs =>
      simp only [resume, at_] at h
      cases h
      split
      · refine inv.unmap (own _ _ fun c l eq => by cases eq) (fun s hs here g there => ?_)
          ⟨small, none.erase v, fun u mem => only u (List.mem_cons_of_mem v mem)⟩ rfl
        · rcases only v List.mem_cons_self with at_ | ⟨j, inside, at_⟩
          · exact absurd (at_.symm.trans here) (fd_ne_data small hs)
          · obtain ⟨rfl, _⟩ := data_window hs small inside (here.symm.trans at_)
            exact none g there
      · exact inv.goto (own _ _ fun c l eq => by cases eq) trivial rfl

end Mos
