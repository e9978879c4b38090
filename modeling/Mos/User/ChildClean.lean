import Mos.User.Children

namespace Mos.Child

open FdLib Elf

variable {s t : System} {base : EnvPtr → Env} {cur e : EnvPtr} {generation : Nat} {rooms : Rooms} {r : Word}

theorem envx_toNat (w : Word) : (envx w).val = w.toNat % 1024 := by
  have mask : (1023 : Word).toNat = 2 ^ 10 - 1 := rfl
  have low : (w &&& 1023).toNat = w.toNat % 1024 := by
    rw [BitVec.toNat_and, mask, Nat.and_two_pow_sub_one_eq_mod]
  show (w &&& 1023).toNat % 1024 = _
  rw [low, Nat.mod_mod]

theorem envx_envIdAt (generation : Nat) (e : EnvPtr) : envx (envIdAt generation e) = e := by
  apply Fin.ext
  rw [envx_toNat, envIdAt_toNat]
  have := e.isLt
  omega

theorem Ready.unknown (ready : Ready s cur (.refused r)) (same : t.envs = s.envs) : t.envid2env cur r = .error (-eBadEnv) := by
  have odd : r ≠ 0 ∧ 1024 ≤ r.toNat % 2048 := by
    rcases ready.code r rfl with rfl | rfl <;> decide
  unfold System.envid2env
  rw [if_neg odd.1, same]
  refine if_pos (Classical.or_iff_not_imp_left.mpr fun used id => ?_)
  obtain ⟨g, named⟩ := ready.ids (envx r) used
  rw [id] at named
  have low := congrArg (fun w : Word => w.toNat % 2048) named
  simp only [envIdAt_toNat] at low
  have := (envx r).isLt
  omega

/-- Env `e` has been made by the caller and has not run yet; the others are those of `base`. -/
structure Made (base : EnvPtr → Env) (cur e : EnvPtr) (generation : Nat) (s : System) : Prop where
  other : e ≠ cur
  status : (s.envs e).envStatus = .notRunnable
  id : (s.envs e).envId = envIdAt generation e
  parent : (s.envs e).envParentId = (s.envs cur).envId
  nonzero : envIdAt generation e ≠ 0
  others : ∀ e', e' ≠ e → s.envs e' = base e'

theorem Made.congr (made : Made base cur e generation s) (same : t.envs = s.envs) : Made base cur e generation t where
  other := made.other
  status := by rw [same, made.status]
  id := by rw [same, made.id]
  parent := by rw [same, made.parent]
  nonzero := made.nonzero
  others := by rw [same]; exact made.others

theorem Made.found (made : Made base cur e generation s) : s.envid2env cur (envIdAt generation e) = .ok e := by
  unfold System.envid2env
  rw [if_neg made.nonzero, envx_envIdAt]
  dsimp only
  have used : ¬ ((s.envs e).envStatus = .free ∨ (s.envs e).envId ≠ envIdAt generation e) := by
    rintro (free | other)
    · rw [made.status] at free
      cases free
    · exact other made.id
  rw [if_neg used, if_neg fun no => no.2 made.parent]

theorem Made.refuses (made : Made base cur e generation s) (status : Word) :
    sysEnvDestroy cur (envIdAt generation e) status s = (-eBadEnv, s) := by
  unfold sysEnvDestroy
  rw [made.found]
  dsimp only
  rw [if_neg made.other, made.status, if_pos (.inr nofun)]

theorem tested_zero (s : System) : tested negative (0, s) = .ok s := rfl

theorem caller_found (s : System) (cur : EnvPtr) : s.envid2env cur 0 = .ok cur := if_pos rfl

@[simp] theorem insert_envs (s : System) (cur e : EnvPtr) (p : Nat) (va perm : Word) : (s.insert cur e p va perm).envs = s.envs := by
  unfold System.insert
  split <;> rfl

@[simp] theorem remove_envs (s : System) (cur e : EnvPtr) (va : Word) : (s.remove cur e va).envs = s.envs := by
  unfold System.remove
  split <;> rfl

theorem sysMemUnmap_utemp (s : System) (cur : EnvPtr) :
    sysMemUnmap cur 0 utemp s = (0, { s with user := s.user.unmap (pageNo utemp) }) := by
  unfold sysMemUnmap
  rw [if_neg (by decide), caller_found]
  dsimp only
  rw [System.remove, if_pos rfl]

/-- The state with a new page of the caller at `UTEMP`. -/
def withUtemp (s : System) : System :=
  { s with
    user := { s.user with maps := Function.update s.user.maps (pageNo utemp) (some s.child.taken) }
    perm := Function.update s.perm (pageNo utemp) pteD
    child := s.child.pageAlloc.2 }

theorem sysMemAlloc_utemp (s : System) (cur : EnvPtr) (room : Bool) :
    sysMemAlloc cur 0 utemp pteD room s = if room then (0, withUtemp s) else (-eNoMem, s) := by
  unfold sysMemAlloc
  rw [if_neg (by decide), caller_found]
  dsimp only
  rw [System.insert, if_pos rfl]
  rfl

theorem sysMemMap_child (made : Made base cur e generation s) {va dva perm : Word} {room : Bool} :
    sysMemMap cur 0 va (envIdAt generation e) dva perm room s =
      if isIllegalVa va || isIllegalVa dva then (-eInval, s)
      else
        match s.user.maps (pageNo va) with
        | none => (-eInval, s)
        | some p => if room then (0, { s with child := s.child.pageInsert p dva perm }) else (-eNoMem, s) := by
  unfold sysMemMap
  rw [caller_found, made.found]
  dsimp only
  rw [System.pageAt, if_pos rfl]
  have insert : ∀ p, s.insert cur e p dva perm = { s with child := s.child.pageInsert p dva perm } := by
    intro p
    rw [System.insert, if_neg made.other]
  cases s.user.maps (pageNo va) with
  | none => rfl
  | some p =>
    dsimp only
    rw [insert]

/-- The child's pages after `init_stack`. -/
def stackMemory (m : Memory) : Memory := m.pageAlloc.2.pageInsert m.taken (ustacktop - 4096) pteD

/-- The caller's pages and its permission bits after `init_stack`. -/
def stackLeft (s : System) : System :=
  { s with user := s.user.unmap (pageNo utemp), perm := Function.update s.perm (pageNo utemp) pteD }

theorem unmap_withUtemp (s : System) : (withUtemp s).user.unmap (pageNo utemp) = s.user.unmap (pageNo utemp) := by
  unfold withUtemp User.unmap
  dsimp only
  rw [Function.update_idem]

/-- What `init_stack` needs. -/
def StackFine (rooms : Rooms) (argv : List (List Spawn.Byte)) : Prop :=
  Spawn.tooBig argv = false ∧ rooms.utemp = true ∧ rooms.stack = true

theorem initStack_made (rooms : Rooms) (made : Made base cur e generation s) (argv : List (List Spawn.Byte)) :
    (StackFine rooms argv ∧ initStack cur rooms (envIdAt generation e) argv s =
        .ok { stackLeft s with child := stackMemory s.child }) ∨
      ¬ StackFine rooms argv ∧ ∃ r t, initStack cur rooms (envIdAt generation e) argv s = .error (r, t) ∧ t.envs = s.envs := by
  unfold initStack StackFine
  cases big : Spawn.tooBig argv with
  | true => exact .inr ⟨fun fine => Bool.noConfusion fine.1, _, _, rfl, rfl⟩
  | false =>
    rw [if_neg Bool.false_ne_true, sysMemAlloc_utemp]
    cases room : rooms.utemp with
    | false => exact .inr ⟨fun fine => Bool.noConfusion fine.2.1, _, _, rfl, rfl⟩
    | true =>
      have made' : Made base cur e generation (withUtemp s) := made.congr rfl
      have mapped : (withUtemp s).user.maps (pageNo utemp) = some s.child.taken := by simp [withUtemp]
      rw [if_pos rfl, tested_zero, Except.bind]
      rw [sysMemMap_child made', if_neg (by decide), mapped]
      cases stack : rooms.stack with
      | false =>
        have unmapped := congrArg (fun res => res.2.envs) (sysMemUnmap_utemp (withUtemp s) cur)
        exact .inr ⟨fun fine => Bool.noConfusion fine.2.2, _, _, rfl, unmapped⟩
      | true =>
        refine .inl ⟨⟨rfl, rfl, rfl⟩, ?_⟩
        simp only [if_true, tested, show negative 0 = false from rfl, Bool.false_eq_true, if_false, Except.mapError,
          sysMemUnmap_utemp]
        unfold stackLeft
        rw [← unmap_withUtemp]
        rfl

/-- With the error of `sys_exofork` for an id, `init_stack` fails and takes the page at `UTEMP` back. -/
theorem initStack_unknown (rooms : Rooms) (ready : Ready s cur (.refused r)) (same : t.envs = s.envs) (argv : List (List Spawn.Byte)) :
    ∃ c u, initStack cur rooms r argv t = .error (c, u) ∧ negative c = true ∧ u.envs = t.envs ∧
      u.user = if Spawn.tooBig argv = false ∧ rooms.utemp = true then t.user.unmap (pageNo utemp) else t.user := by
  unfold initStack
  cases big : Spawn.tooBig argv with
  | true => exact ⟨_, _, rfl, by decide, rfl, (if_neg fun both => Bool.noConfusion both.1).symm⟩
  | false =>
    rw [if_neg Bool.false_ne_true, sysMemAlloc_utemp]
    cases room : rooms.utemp with
    | false => exact ⟨_, _, rfl, by decide, rfl, (if_neg fun both => Bool.noConfusion both.2).symm⟩
    | true =>
      have unknown := ready.unknown (t := withUtemp t) same
      have refused : sysMemMap cur 0 utemp r (ustacktop - 4096) pteD rooms.stack (withUtemp t) = (-eBadEnv, withUtemp t) := by
        unfold sysMemMap
        rw [if_neg (by decide), caller_found, unknown]
      rw [if_pos rfl, tested_zero, Except.bind, refused]
      refine ⟨_, _, rfl, (by decide : negative (-eBadEnv) = true), ?_, ?_⟩
      · exact congrArg (fun res => res.2.envs) (sysMemUnmap_utemp (withUtemp t) cur)
      · rw [if_pos ⟨rfl, rfl⟩, ← unmap_withUtemp]
        exact congrArg (fun res => res.2.user) (sysMemUnmap_utemp (withUtemp t) cur)

theorem pageNo_pageVa {v : Nat} (small : v < 2 ^ 20) : pageNo (pageVa v) = v := by
  unfold pageNo pageVa
  rw [BitVec.toNat_ofNat]
  omega

/-- What the kernel needs to map the pages of `pages` that are to be shared. -/
def ShareFine (rooms : Rooms) (u : User) (perm : Nat → Word) (pages : List Nat) : Prop :=
  ∀ v ∈ pages, u.maps v ≠ none → perm v &&& pteLibrary ≠ 0 → isIllegalVa (pageVa v) = false ∧ rooms.page v = true

theorem sharePages_made (rooms : Rooms) (made : Made base cur e generation s) (pages : List Nat) (small : ∀ v ∈ pages, v < 2 ^ 20) :
    (ShareFine rooms s.user s.perm pages ∧ ∃ m, sharePages cur rooms (envIdAt generation e) pages s = .ok { s with child := m }) ∨
      ¬ ShareFine rooms s.user s.perm pages ∧
        ∃ r t, sharePages cur rooms (envIdAt generation e) pages s = .error (r, t) ∧ t.envs = s.envs := by
  induction pages generalizing s with
  | nil => exact .inl ⟨fun _ mem => absurd mem List.not_mem_nil, s.child, rfl⟩
  | cons v rest ih =>
    have rests := fun w mem => small w (List.mem_cons_of_mem v mem)
    have at_v := pageNo_pageVa (small v List.mem_cons_self)
    rw [sharePages]
    by_cases shared : (s.user.maps v).isSome = true ∧ s.perm v &&& pteLibrary ≠ 0
    · rw [if_pos shared, sysMemMap_child made, at_v, Bool.or_self]
      obtain ⟨p, mapped⟩ := Option.isSome_iff_exists.mp shared.1
      rw [mapped]
      have some : s.user.maps v ≠ none := by simp [mapped]
      by_cases fine : isIllegalVa (pageVa v) = false ∧ rooms.page v = true
      · rw [if_neg (by simp [fine.1])]
        dsimp only
        rw [if_pos fine.2, tested_zero, Except.bind]
        have cons : ShareFine rooms s.user s.perm (v :: rest) ↔ ShareFine rooms s.user s.perm rest :=
          ⟨fun all w mem => all w (List.mem_cons_of_mem v mem), fun all w mem => by
            rcases List.mem_cons.mp mem with rfl | mem
            · exact fun _ _ => fine
            · exact all w mem⟩
        rw [cons]
        exact ih (s := { s with child := s.child.pageInsert p (pageVa v) (s.perm v) }) (made.congr rfl) rests
      · refine .inr ⟨fun all => fine (all v List.mem_cons_self some shared.2), ?_⟩
        by_cases illegal : isIllegalVa (pageVa v) = true
        · rw [if_pos illegal]
          exact ⟨_, _, rfl, rfl⟩
        · have none : rooms.page v ≠ true := fun room => fine ⟨Bool.eq_false_iff.mpr illegal, room⟩
          rw [if_neg illegal]
          dsimp only
          rw [if_neg none]
          exact ⟨_, _, rfl, rfl⟩
    · rw [if_neg shared]
      have cons : ShareFine rooms s.user s.perm (v :: rest) ↔ ShareFine rooms s.user s.perm rest :=
        ⟨fun all w mem => all w (List.mem_cons_of_mem v mem), fun all w mem => by
          rcases List.mem_cons.mp mem with rfl | mem
          · exact fun mapped library => absurd ⟨Option.isSome_iff_ne_none.mpr mapped, library⟩ shared
          · exact all w mem⟩
      rw [cons]
      exact ih made rests

theorem Made.update (made : Made base cur e generation s) {f : Env → Env} (status : (f (s.envs e)).envStatus = .notRunnable)
    (id : (f (s.envs e)).envId = (s.envs e).envId) (parent : (f (s.envs e)).envParentId = (s.envs e).envParentId) :
    Made base cur e generation (s.update e f) := by
  have there : (s.update e f).envs e = f (s.envs e) := Function.update_self _ _ _
  have others : ∀ e', e' ≠ e → (s.update e f).envs e' = s.envs e' := fun e' ne => Function.update_of_ne ne _ _
  refine ⟨made.other, ?_, ?_, ?_, made.nonzero, fun e' ne => (others e' ne).trans (made.others e' ne)⟩
  · rw [there, status]
  · rw [there, id, made.id]
  · rw [there, others cur made.other.symm, parent, made.parent]

/-- The child's pages right after `sys_exofork`. -/
def noPages (m : Memory) : Memory := { m with env := fun _ => none }

theorem sysExofork_made (ready : Ready s cur (.child e generation)) :
    ∃ envs, sysExofork cur (.child e generation) s =
        (envIdAt generation e, { envs := envs, user := s.user, perm := s.perm, child := noPages s.child }) ∧
      Made s.envs cur e generation { envs := envs, user := s.user, perm := s.perm, child := noPages s.child } := by
  obtain ⟨free, nonzero⟩ := ready.slot e generation rfl
  have other : e ≠ cur := fun same => ready.running (same ▸ free)
  refine ⟨_, rfl, ⟨other, ?_, ?_, ?_, nonzero, fun e' ne => ?_⟩⟩
  · simp
  · simp
  · simp [Function.update_of_ne other.symm]
  · simp [Function.update_of_ne ne]

theorem sysSetTrapframe_made (made : Made base cur e generation s) (entry sp : Word) :
    ∃ t, sysSetTrapframe cur (envIdAt generation e) entry sp s = (0, t) ∧ Made base cur e generation t ∧
      t.user = s.user ∧ t.perm = s.perm := by
  unfold sysSetTrapframe
  rw [made.found]
  exact ⟨_, rfl, made.update made.status rfl rfl, rfl, rfl⟩

theorem start_made (rooms : Rooms) (made : Made base cur e generation s) (entry sp : Word) :
    (ShareFine rooms s.user s.perm sharedPages ∧ ∃ t, start cur rooms (envIdAt generation e) entry sp s = .ok t ∧
        (t.envs e).envStatus = .runnable ∧ (t.envs e).envId = envIdAt generation e) ∨
      ¬ ShareFine rooms s.user s.perm sharedPages ∧
        ∃ r t, start cur rooms (envIdAt generation e) entry sp s = .error (r, t) ∧ Made base cur e generation t := by
  have small : ∀ v ∈ sharedPages, v < 2 ^ 20 := fun v mem =>
    Nat.lt_trans (List.mem_range.mp mem) (by decide)
  obtain ⟨s₁, set, framed, user, perm⟩ := sysSetTrapframe_made made entry sp
  have begun : tested nonzero (0, s₁) = .ok s₁ := rfl
  rw [start, set, begun, Except.bind, ← user, ← perm]
  rcases sharePages_made rooms framed sharedPages small with ⟨fine, m, shared⟩ | ⟨refused, r, t, failed, same⟩
  · rw [shared]
    have last := framed.congr (t := { s₁ with child := m }) rfl
    refine .inl ⟨fine, ?_⟩
    rw [Except.bind, sysSetRunnable, last.found]
    dsimp only
    rw [tested_zero]
    refine ⟨_, rfl, ?_, ?_⟩
    · simp [System.update]
    · simp [System.update, framed.id]
  · rw [failed]
    exact .inr ⟨refused, r, t, rfl, framed.congr same⟩

theorem Made.lost (made : Made s.envs cur e generation t) (free : (s.envs e).envStatus = .free) :
    ¬ (Succeeds s r t ∨ negative r = true ∧ Restored s t) := by
  rintro (⟨e', free', runs, -⟩ | ⟨-, same⟩)
  · by_cases here : e' = e
    · rw [here, made.status] at runs
      cases runs
    · rw [made.others e' here, free'] at runs
      cases runs
  · have gone := (same.envs e).mpr free
    rw [made.status] at gone
    cases gone

theorem unchanged_iff (same : ∀ e, (t.envs e).envStatus = (s.envs e).envStatus) :
    (Succeeds s r t ∨ negative r = true ∧ Restored s t) ↔ negative r = true ∧ t.user.maps = s.user.maps := by
  constructor
  · rintro (⟨e, free, runs, -⟩ | ⟨failed, restored⟩)
    · rw [same, free] at runs
      cases runs
    · exact ⟨failed, restored.pages⟩
  · exact fun ⟨failed, pages⟩ => .inr ⟨failed, fun e => by rw [same], pages⟩

theorem clean_some : Clean s (some (r, t)) ↔ Succeeds s r t ∨ negative r = true ∧ Restored s t :=
  ⟨fun clean => clean r t rfl, fun done r' t' same => by cases same; exact done⟩

/-- No step of `spawn` fails once it has made the env, where the caller has the pages `u` after step 2. -/
def LaterFine (rooms : Rooms) (files : Files) (fd : Word) (exe : Executable) (argv : List (List Spawn.Byte)) (s : System) (u : User) :
    Prop :=
  StackFine rooms argv ∧
    match loadSegments rooms exe.headers (stackMemory (noPages s.child)) with
    | none => True
    | some (.error _) => False
    | some (.ok _) => ShareFine rooms (files.close fd (u.unmap (pageNo utemp))) (Function.update s.perm (pageNo utemp) pteD) sharedPages

theorem giveUp_lost {files : Files} (made : Made s.envs cur e generation t) (free : (s.envs e).envStatus = .free) (fd r : Word) :
    ¬ Clean s (some (giveUp cur files fd (envIdAt generation e) (r, t))) := by
  rw [giveUp, made.refuses, clean_some]
  exact Made.lost (t := { t with user := files.close fd t.user }) (made.congr rfl) free

theorem makeChild_made {files : Files} {u : User} (ready : Ready s cur (.child e generation)) (fd sp : Word) (exe : Executable)
    (argv : List (List Spawn.Byte)) :
    Clean s (makeChild cur rooms files fd sp exe argv (.child e generation) { s with user := u }) ↔
      LaterFine rooms files fd exe argv s u := by
  have free := (ready.slot e generation rfl).1
  have ready' : Ready { s with user := u } cur (.child e generation) := ⟨ready.running, ready.ids, ready.slot, ready.code⟩
  obtain ⟨envs, forked, made⟩ := sysExofork_made ready'
  have made : Made s.envs cur e generation { envs := envs, user := u, perm := s.perm, child := noPages s.child } := made
  unfold makeChild LaterFine
  rw [forked]
  dsimp only
  rcases initStack_made rooms made argv with ⟨fine, done⟩ | ⟨refused, r, t, failed, same⟩
  · rw [done, and_iff_right fine]
    dsimp only
    cases loaded : loadSegments rooms exe.headers (stackMemory (noPages s.child)) with
    | none => exact iff_of_true nofun trivial
    | some result =>
      cases result with
      | error r =>
        refine iff_of_false (giveUp_lost ?_ free fd r) id
        exact made.congr rfl
      | ok m =>
        dsimp only [stackLeft]
        have closed : Made s.envs cur e generation
            { envs := envs
              user := files.close fd (u.unmap (pageNo utemp))
              perm := Function.update s.perm (pageNo utemp) pteD
              child := m } := made.congr rfl
        rcases start_made rooms closed exe.entry sp with ⟨fine, t, started, runs, id⟩ | ⟨refused, r, t, failed, lost⟩
        · rw [started, clean_some]
          exact iff_of_true (.inl ⟨e, free, runs, id⟩) fine
        · rw [failed]
          dsimp only
          rw [lost.refuses, clean_some]
          exact iff_of_false (lost.lost free) refused
  · rw [failed]
    exact iff_of_false (giveUp_lost (made.congr same) free fd r) fun fine => refused fine.1

/-- The caller's pages when `sys_exofork` has failed and `init_stack` after it. -/
def afterStack (rooms : Rooms) (argv : List (List Spawn.Byte)) (u : User) : User :=
  if Spawn.tooBig argv = false ∧ rooms.utemp = true then u.unmap (pageNo utemp) else u

theorem makeChild_refused {files : Files} {u : User} (ready : Ready s cur (.refused r)) (fd sp : Word) (exe : Executable)
    (argv : List (List Spawn.Byte)) :
    Clean s (makeChild cur rooms files fd sp exe argv (.refused r) { s with user := u }) ↔
      (files.close fd (afterStack rooms argv u)).maps = s.user.maps := by
  obtain ⟨c, v, failed, low, same, left⟩ := initStack_unknown rooms (t := { s with user := u }) ready rfl argv
  have unknown := ready.unknown (t := v) same
  unfold makeChild
  dsimp only [sysExofork]
  rw [failed]
  dsimp only [giveUp]
  rw [sysEnvDestroy, unknown, clean_some, unchanged_iff fun e => by rw [same], and_iff_right low]
  dsimp only
  rw [left]
  rfl

/-- When `spawn` does not fail or leaves nothing behind. -/
def SpawnFine (rooms : Rooms) (files : Files) (exe : Executable) (prog : List Byte) (argv : List (List Spawn.Byte)) (new : Fork)
    (s : System) : Prop :=
  let (fd, u) := openProg files prog s.user
  if negative fd then u.maps = s.user.maps
  else
    match exe.refusal, new with
    | some r, _ => negative r = true ∧ (files.close fd u).maps = s.user.maps
    | none, .refused _ => (files.close fd (afterStack rooms argv u)).maps = s.user.maps
    | none, .child _ _ => LaterFine rooms files fd exe argv s u

/-- What the kernel needs to give the child the pages `pages` of the caller. -/
def CopyFine (rooms : Rooms) (u : User) (pages : List Nat) : Prop :=
  ∀ v ∈ pages, u.maps v ≠ none → isIllegalVa (pageVa v) = false ∧ rooms.page v = true

theorem sysMemMap_self (s : System) (cur : EnvPtr) {va perm : Word} {p : Nat} (legal : isIllegalVa va = false)
    (mapped : s.user.maps (pageNo va) = some p) :
    sysMemMap cur 0 va 0 va perm true s = (0, { s with perm := Function.update s.perm (pageNo va) perm }) := by
  unfold sysMemMap
  rw [if_neg (by simp [legal]), caller_found]
  dsimp only
  rw [System.pageAt, if_pos rfl, mapped]
  dsimp only
  rw [if_pos rfl, System.insert, if_pos rfl, ← mapped, Function.update_eq_self]

theorem duppage_made (rooms : Rooms) (made : Made base cur e generation s) {v p : Nat} (small : v < 2 ^ 20) (mapped : s.user.maps v = some p) :
    if isIllegalVa (pageVa v) = false ∧ rooms.page v = true then
      ∃ t, duppage cur rooms (envIdAt generation e) v s = some t ∧ t.envs = s.envs ∧ t.user = s.user
    else duppage cur rooms (envIdAt generation e) v s = none := by
  have at_v := pageNo_pageVa small
  have first : ∀ perm, sysMemMap cur 0 (pageVa v) (envIdAt generation e) (pageVa v) perm (rooms.page v) s =
      if isIllegalVa (pageVa v) then (-eInval, s)
      else if rooms.page v then (0, { s with child := s.child.pageInsert p (pageVa v) perm }) else (-eNoMem, s) := by
    intro perm
    rw [sysMemMap_child made, Bool.or_self, at_v, mapped]
  unfold duppage
  simp only [first]
  by_cases fine : isIllegalVa (pageVa v) = false ∧ rooms.page v = true
  · have legal : ¬ isIllegalVa (pageVa v) = true := by simp [fine.1]
    rw [if_pos fine]
    simp only [if_neg legal, if_pos fine.2]
    split
    · exact ⟨_, rfl, rfl, rfl⟩
    · rw [tested_zero, Except.bind]
      rw [sysMemMap_self _ cur fine.1 (by rw [at_v]; exact mapped)]
      exact ⟨_, rfl, rfl, rfl⟩
  · rw [if_neg fine]
    by_cases illegal : isIllegalVa (pageVa v) = true
    · simp only [if_pos illegal]
      split <;> rfl
    · have full : ¬ rooms.page v = true := fun room => fine ⟨Bool.eq_false_iff.mpr illegal, room⟩
      simp only [if_neg illegal, if_neg full]
      split <;> rfl

theorem dupPages_made (rooms : Rooms) (made : Made base cur e generation s) (pages : List Nat) (small : ∀ v ∈ pages, v < 2 ^ 20) :
    (CopyFine rooms s.user pages ∧ ∃ t, dupPages cur rooms (envIdAt generation e) pages s = some t ∧ t.envs = s.envs) ∨
      ¬ CopyFine rooms s.user pages ∧ dupPages cur rooms (envIdAt generation e) pages s = none := by
  induction pages generalizing s with
  | nil => exact .inl ⟨fun _ mem => absurd mem List.not_mem_nil, s, rfl, rfl⟩
  | cons v rest ih =>
    have rests := fun w mem => small w (List.mem_cons_of_mem v mem)
    rw [dupPages]
    have cons : (s.user.maps v ≠ none → isIllegalVa (pageVa v) = false ∧ rooms.page v = true) →
        (CopyFine rooms s.user (v :: rest) ↔ CopyFine rooms s.user rest) := fun first =>
      ⟨fun all w mem => all w (List.mem_cons_of_mem v mem), fun all w mem => by
        rcases List.mem_cons.mp mem with rfl | mem
        · exact first
        · exact all w mem⟩
    cases mapped : s.user.maps v with
    | none =>
      rw [if_neg (by simp), cons fun some => absurd mapped some]
      exact ih made rests
    | some p =>
      have copied := duppage_made rooms made (small v List.mem_cons_self) mapped
      rw [if_pos (show (some p).isSome = true from rfl)]
      by_cases fine : isIllegalVa (pageVa v) = false ∧ rooms.page v = true
      · rw [if_pos fine] at copied
        obtain ⟨t, done, same, user⟩ := copied
        rw [done, Option.bind_some, cons fun _ => fine, ← user]
        rcases ih (made.congr same) rests with ⟨fine, u, done, same'⟩ | refused
        · exact .inl ⟨fine, u, done, same'.trans same⟩
        · exact .inr refused
      · rw [if_neg fine] at copied
        rw [copied]
        exact .inr ⟨fun all => fine (all v List.mem_cons_self (by simp [mapped])), rfl⟩

theorem dupPages_unknown (ready : Ready s cur (.refused r)) (same : t.envs = s.envs) (pages : List Nat) :
    dupPages cur rooms r pages t = if ∀ v ∈ pages, t.user.maps v = none then some t else none := by
  have refused : ∀ v perm, ∃ c, sysMemMap cur 0 (pageVa v) r (pageVa v) perm (rooms.page v) t = (c, t) ∧ negative c = true := by
    intro v perm
    unfold sysMemMap
    split
    · exact ⟨_, rfl, by decide⟩
    · rw [caller_found, ready.unknown same]
      exact ⟨_, rfl, by decide⟩
  induction pages with
  | nil => exact (if_pos fun _ mem => absurd mem List.not_mem_nil).symm
  | cons v rest ih =>
    rw [dupPages]
    cases mapped : t.user.maps v with
    | none =>
      rw [if_neg (by simp), ih]
      simp only [List.forall_mem_cons, mapped, true_and]
    | some p =>
      rw [if_pos (show (some p).isSome = true from rfl), if_neg fun none => by simp [none v List.mem_cons_self] at mapped]
      have panics : duppage cur rooms r v t = none := by
        unfold duppage
        dsimp only
        split
        · obtain ⟨c, failed, low⟩ := refused v (t.perm v)
          rw [failed, tested, if_pos low]
          rfl
        · obtain ⟨c, failed, low⟩ := refused v (t.perm v &&& ~~~pteD ||| pteCow)
          rw [failed, tested, if_pos low]
          rfl
      rw [panics]
      rfl

/-- The same env table but for what `fork` sets first. -/
structure Alike (s t : System) : Prop where
  status : ∀ e, (t.envs e).envStatus = (s.envs e).envStatus
  id : ∀ e, (t.envs e).envId = (s.envs e).envId
  user : t.user = s.user

theorem Ready.alike {new : Fork} (ready : Ready s cur new) (alike : Alike s t) : Ready t cur new where
  running := by rw [alike.status]; exact ready.running
  ids e used := by
    rw [alike.status] at used
    rw [alike.id]
    exact ready.ids e used
  slot e generation child := by
    rw [alike.status]
    exact ready.slot e generation child
  code := ready.code

theorem alike_entry (s : System) (cur : EnvPtr) (cowEntry : Word) :
    Alike s (if (s.envs cur).envUserTlbModEntry ≠ cowEntry then (sysSetTlbModEntry cur 0 cowEntry s).2 else s) := by
  split
  · have kept : ∀ e, ((s.update cur fun env => { env with envUserTlbModEntry := cowEntry }).envs e).envStatus = (s.envs e).envStatus ∧
        ((s.update cur fun env => { env with envUserTlbModEntry := cowEntry }).envs e).envId = (s.envs e).envId := by
      intro e
      by_cases here : e = cur
      · subst here
        simp [System.update]
      · simp [System.update, Function.update_of_ne here]
    rw [sysSetTlbModEntry, caller_found]
    exact ⟨fun e => (kept e).1, fun e => (kept e).2, rfl⟩
  · exact ⟨fun _ => rfl, fun _ => rfl, rfl⟩

/-- When `fork` does not fail, or has nothing to copy. -/
def ForkFine (rooms : Rooms) (new : Fork) (s : System) : Prop :=
  match new with
  | .refused _ => ∀ v ∈ forkPages, s.user.maps v = none
  | .child _ _ => CopyFine rooms s.user forkPages

theorem fork_fine {new : Fork} (ready : Ready s cur new) (cowEntry : Word) :
    (fork cur rooms cowEntry new s ≠ none ∧ Clean s (fork cur rooms cowEntry new s)) ↔ ForkFine rooms new s := by
  have alike := alike_entry s cur cowEntry
  unfold fork
  dsimp only
  generalize (if (s.envs cur).envUserTlbModEntry ≠ cowEntry then (sysSetTlbModEntry cur 0 cowEntry s).2 else s) = s' at alike ⊢
  have ready' := ready.alike alike
  have small : ∀ v ∈ forkPages, v < 2 ^ 20 := fun v mem => Nat.lt_trans (List.mem_range.mp mem) (by decide)
  cases new with
  | refused r =>
    have low : r ≠ 0 ∧ negative r = true := by
      rcases ready.code r rfl with rfl | rfl <;> decide
    unfold ForkFine
    rw [show sysExofork cur (.refused r) s' = (r, s') from rfl]
    dsimp only
    rw [if_neg low.1, dupPages_unknown ready' rfl, alike.user]
    by_cases empty : ∀ v ∈ forkPages, s.user.maps v = none
    · have unknown := ready'.unknown rfl
      rw [if_pos empty, Option.map_some, sysSetTlbModEntry, unknown]
      dsimp only
      rw [sysSetRunnable, unknown, clean_some, unchanged_iff alike.status]
      exact iff_of_true ⟨nofun, low.2, by rw [alike.user]⟩ empty
    · rw [if_neg empty, Option.map_none]
      exact iff_of_false (fun both => both.1 rfl) empty
  | child e generation =>
    obtain ⟨envs, forked, made⟩ := sysExofork_made ready'
    unfold ForkFine
    rw [forked]
    dsimp only
    rw [if_neg made.nonzero]
    rcases dupPages_made rooms made forkPages small with ⟨fine, t, copied, same⟩ | ⟨refused, panics⟩
    · rw [copied, Option.map_some, clean_some]
      refine iff_of_true ⟨nofun, .inl ⟨e, (ready.slot e generation rfl).1, ?_⟩⟩ (alike.user ▸ fine)
      have there := made.congr same
      have entered := there.update (f := fun env => { env with envUserTlbModEntry := cowEntry }) there.status rfl rfl
      rw [sysSetTlbModEntry, there.found]
      dsimp only
      rw [sysSetRunnable, entered.found]
      simp [System.update, there.id]
    · rw [panics, Option.map_none]
      refine iff_of_false (fun both => both.1 rfl) fun fine => refused ?_
      exact (show CopyFine rooms s'.user forkPages from alike.user ▸ fine)

/-- `fork` and `spawn` leave nothing behind when they fail, just where they fail before there is a child, or not at all. -/
theorem fork_spawn_clean {new : Fork} (ready : Ready s cur new) (rooms : Rooms) :
    (∀ cowEntry, (fork cur rooms cowEntry new s ≠ none ∧ Clean s (fork cur rooms cowEntry new s)) ↔ ForkFine rooms new s) ∧
      ∀ (files : Files) (sp : Word) (exe : Executable) (prog : List Byte) (argv : List (List Spawn.Byte)),
        Clean s (spawn cur rooms files sp exe prog argv new s) ↔ SpawnFine rooms files exe prog argv new s := by
  refine ⟨fork_fine ready, fun files sp exe prog argv => ?_⟩
  unfold spawn SpawnFine
  generalize openProg files prog s.user = opened
  obtain ⟨fd, u⟩ := opened
  dsimp only
  by_cases failed : negative fd = true
  · rw [if_pos failed, if_pos failed, clean_some, unchanged_iff (s := s) (t := { s with user := u }) fun _ => rfl, and_iff_right failed]
  · rw [if_neg failed, if_neg failed]
    cases exe.refusal with
    | some r =>
      dsimp only
      rw [clean_some, unchanged_iff (s := s) (t := { s with user := files.close fd u }) fun _ => rfl]
    | none =>
      cases new with
      | refused r => exact makeChild_refused ready fd sp exe argv
      | child e generation => exact makeChild_made ready fd sp exe argv

def oneEnv : System :=
  { envs := fun e =>
      { envTf := { regs := fun _ => 0, cp0Status := 0, hi := 0, lo := 0, cp0Badvaddr := 0, cp0Cause := 0, cp0Epc := 0 }
        envId := envIdAt 1 e, envAsid := 0, envParentId := 0, envStatus := if e = 0 then .runnable else .free, envPgdir := 0
        envPri := 1, envIpcValue := 0, envIpcFrom := 0, envIpcRecving := 0, envIpcDstva := 0, envIpcPerm := 0
        envUserTlbModEntry := 0, envRuns := 0, envCwd := [], envExitStatus := 0, envVars := none }
    user := { maps := fun v => if v = 0x400 then some 3 else none, page := fun _ => { devId := devFileId, size := 4096 } }
    perm := fun _ => pteD
    child := emptyMemory }

theorem oneEnv_ready (new : Fork) (slot : ∀ e generation, new = .child e generation → e ≠ 0 ∧ envIdAt generation e ≠ 0)
    (code : ∀ r, new = .refused r → r = -eNoMem ∨ r = -eNoFreeEnv) : Ready oneEnv 0 new where
  running := by decide
  ids e _ := ⟨1, rfl⟩
  slot e generation child := ⟨if_neg (slot e generation child).1, (slot e generation child).2⟩
  code := code

def onePage : Files where
  openFile _ u := (0, { u with
    maps := fun v => if v = index2Fd 0 then some 1 else if v = window 0 0 then some 2 else u.maps v })
  close fd u := ((FdLib.close allFine 2 fd.toInt u).map Prod.snd).getD u

def emptyExecutable : Executable := { size := 52, isElf := true, entry := 0, headers := [] }

def allRooms : Rooms := { utemp := true, stack := true, load := fun _ => true, page := fun _ => true }

/-- Without a free env, `spawn` leaves nothing behind. -/
theorem fork_spawn_clean_refused : Clean oneEnv (spawn 0 allRooms onePage 0 emptyExecutable [0x61] [] (.refused (-eNoFreeEnv)) oneEnv) := by
  have ready : Ready oneEnv 0 (.refused (-eNoFreeEnv)) := oneEnv_ready _ nofun fun r same => by cases same; exact .inr rfl
  refine ((fork_spawn_clean ready allRooms).2 onePage 0 emptyExecutable [0x61] []).mpr ?_
  have closed : ((FdLib.close allFine 2 0 (afterStack allRooms [] (onePage.openFile [0x61] oneEnv.user).2)).map Prod.snd).getD
      (afterStack allRooms [] (onePage.openFile [0x61] oneEnv.user).2) =
        (((onePage.openFile [0x61] oneEnv.user).2.unmap (pageNo utemp)).unmap (window 0 0)).unmap (index2Fd 0) := rfl
  show (((FdLib.close allFine 2 0 (afterStack allRooms [] (onePage.openFile [0x61] oneEnv.user).2)).map Prod.snd).getD
      (afterStack allRooms [] (onePage.openFile [0x61] oneEnv.user).2)).maps = oneEnv.user.maps
  rw [closed]
  funext v
  unfold User.unmap
  by_cases fd : v = index2Fd 0
  · subst fd
    rfl
  · by_cases page : v = window 0 0
    · subst page
      rfl
    · by_cases top : v = pageNo utemp
      · subst top
        rfl
      · simp [Function.update_of_ne, fd, page, top, onePage]

/-- Without a free env `fork` ends its caller, and without memory for the child's stack `spawn` leaves an env behind. -/
theorem fork_spawn_leave :
    fork 0 allRooms 0x401000 (.refused (-eNoFreeEnv)) oneEnv = none ∧
      ∃ r t, spawn 0 { allRooms with stack := false } onePage 0 emptyExecutable [0x61] [] (.child 1 1) oneEnv = some (r, t) ∧
        negative r = true ∧ (oneEnv.envs 1).envStatus = .free ∧ (t.envs 1).envStatus = .notRunnable := by
  constructor
  · have ready : Ready oneEnv 0 (.refused (-eNoFreeEnv)) := oneEnv_ready _ nofun fun r same => by cases same; exact .inr rfl
    have text : ¬ ∀ v ∈ forkPages, oneEnv.user.maps v = none := fun none => by
      cases none 0x400 (List.mem_range.mpr (by decide))
    have alike := alike_entry oneEnv 0 0x401000
    unfold fork
    dsimp only
    generalize (if (oneEnv.envs 0).envUserTlbModEntry ≠ 0x401000 then (sysSetTlbModEntry 0 0 0x401000 oneEnv).2 else oneEnv) = s
      at alike ⊢
    rw [show sysExofork 0 (.refused (-eNoFreeEnv)) s = (-eNoFreeEnv, s) from rfl]
    dsimp only
    rw [if_neg (by decide), dupPages_unknown (ready.alike alike) rfl, alike.user, if_neg text]
    rfl
  · exact ⟨_, _, rfl, by decide, by decide, by decide⟩

end Mos.Child
