import Mos.Fs.Opened

namespace Mos.Fs

/-- The server, and for each entry of `opentab` the envs that map its descriptor page, once for each mapping. -/
structure Clients where
  server : Server
  mappings : Nat → List Word

/-- What an env does: a request, one more mapping of a descriptor page that `owner` has (`fork`, `dup`), or one less. -/
inductive ClientOp where
  | serve (who : Word) (op : ServeOp)
  | share (i : Nat) (owner who : Word)
  | unmap (i : Nat) (who : Word)

def ServeOp.isRequest : ServeOp → Bool
  | .shareFd _ => false
  | .dropFd _ => false
  | _ => true

def Clients.start (t : Server) : Clients := { server := t, mappings := fun _ => [] }

/-- `pp_ref` of the descriptor page becomes `n`, in 16 bits. -/
def Server.setRefs (s : Server) (i n : Nat) : Server := s.setOpen i { s.opentab i with refs := n % 65536 }

def clientStep (c : Clients) : ClientOp → Option Clients
  | .serve who op =>
    if op.isRequest then
      (serveStep c.server op).map fun t =>
        { server := t
          mappings := match openedBy c.server op with
            | some i => Function.update c.mappings i (who :: c.mappings i)
            | none => c.mappings }
    else none
  | .share i owner who =>
    if owner ∈ c.mappings i then
      some { server := c.server.setRefs i ((c.server.opentab i).refs + 1)
             mappings := Function.update c.mappings i (who :: c.mappings i) }
    else none
  | .unmap i who =>
    if who ∈ c.mappings i then
      some { server := c.server.setRefs i ((c.server.opentab i).refs + 65535)
             mappings := Function.update c.mappings i ((c.mappings i).erase who) }
    else none

def IsMapped (c : Clients) (i : Nat) : Prop := c.mappings i ≠ []

/-- With the server's own mapping, a page has fewer than 65535 mappings. -/
def Roomy (c : Clients) : ClientOp → Prop
  | .share i _ _ => (c.mappings i).length + 2 < 65535
  | _ => True

/-- `pageref` counts the mappings, and the entry of a page that is mapped has a file and its own number. -/
structure Tracked (c : Clients) : Prop where
  count : ∀ i, (c.server.opentab i).refs = 0 ∧ c.mappings i = [] ∨ (c.server.opentab i).refs = (c.mappings i).length + 1
  few : ∀ i, (c.mappings i).length + 1 < 65535
  file : ∀ i, IsMapped c i → (c.server.opentab i).file ≠ none
  number : ∀ i, IsMapped c i → i < maxOpen ∧ (c.server.opentab i).ff.fileid = BitVec.ofNat 32 i

section Requests

variable {t u : Server} {op : ServeOp}

theorem withFs_opentab {α : Type} (r : Res α) : (t.withFs r).Leaves (fun u => u.opentab = t.opentab) fun _ => True := by
  cases r with
  | ok a s => rfl
  | err e s => rfl
  | stop cause => trivial

theorem onOpen_opentab (fileid : Word) (body : FilePtr → Store → Res Reply) :
    (onOpen fileid body t).Leaves (fun u => u.opentab = t.opentab) fun _ => True := by
  unfold onOpen openLookup
  split
  · rfl
  · split
    · rfl
    · rw [Result.ok_bind]
      split
      · exact withFs_opentab _
      · trivial

theorem serveMap_opentab (fileid offset : Word) :
    (serveMap fileid offset t).Leaves (fun u => u.opentab = t.opentab) fun _ => True := by
  refine Result.Meets.bind (onOpen_opentab fileid _) fun r u same => ?_
  split
  · exact same
  · exact same

/-- An entry that `serve_open` may use: `pageref` finds no mapping but the server's. -/
def Spare (t : Server) (i : Nat) : Prop := i < maxOpen ∧ (t.opentab i).refs ≤ 1

theorem openAlloc_spec (t : Server) :
    (openAlloc t).Meets
      (fun i u => Spare t i ∧ (u.opentab i).refs = 1 ∧ ∀ j, j ≠ i → u.opentab j = t.opentab j)
      (fun u => u.opentab = t.opentab) fun _ => True := by
  unfold openAlloc
  split
  · rfl
  · rename_i i found
    have spare : Spare t i := by
      refine ⟨List.mem_range.mp (List.mem_of_find?_eq_some found), ?_⟩
      simpa using List.find?_some found
    split
    · dsimp only
      split
      · refine ⟨spare, ?_, fun j other => ?_⟩
        · rw [setOpen_self]
        · rw [setOpen_ne _ _ other]
          rfl
      · rfl
    · rename_i some
      refine ⟨spare, ?_, fun j other => ?_⟩
      · rw [setOpen_self]
        have low := spare.2
        show (t.opentab i).refs = 1
        omega
      · rw [setOpen_ne _ _ other]

/-- What a failing `serve_open` leaves: an entry no client maps may have changed. -/
def Failed (t u : Server) : Prop :=
  u.opentab = t.opentab ∨ ∃ i, Spare t i ∧ (u.opentab i).refs ≤ 1 ∧ ∀ j, j ≠ i → u.opentab j = t.opentab j

/-- What a successful one leaves: the entry `i` has a file, its number and a client. -/
structure Opens (t u : Server) (i : Nat) : Prop where
  spare : Spare t i
  refs : (u.opentab i).refs = 2
  file : (u.opentab i).file ≠ none
  number : (u.opentab i).ff.fileid = BitVec.ofNat 32 i
  others : ∀ j, j ≠ i → u.opentab j = t.opentab j

theorem serveOpen_entries (path : List Byte) (omode : Word) (t : Server) :
    (serveOpen path omode t).Meets (fun r u => ∃ i, r = .opened i ∧ Opens t u i) (Failed t) fun _ => True := by
  have alloc := openAlloc_spec t
  unfold serveOpen
  cases ran : openAlloc t with
  | stop cause => trivial
  | err r u =>
    rw [ran] at alloc
    exact .inl alloc
  | ok i u =>
    rw [ran] at alloc
    obtain ⟨spare, refs, others⟩ := alloc
    rw [Result.ok_bind]
    refine (Result.Meets.mono (withFs_opentab _) (fun _ _ same => same)
      (fun v same => Or.inr ⟨i, spare, by rw [same, refs], by rw [same]; exact others⟩) fun _ h => h).bind fun f v same => ?_
    split
    · exact .inr ⟨i, spare, by rw [same, refs], by rw [same]; exact others⟩
    · have refs' : (v.opentab i).refs = 1 := by rw [same, refs]
      have others' : ∀ j, j ≠ i → (v.setOpen i { v.opentab i with file := some f }).opentab j = t.opentab j := by
        intro j other
        rw [setOpen_ne _ _ other, same, others j other]
      have truncated : ∀ w : Server, w.opentab = (v.setOpen i { v.opentab i with file := some f }).opentab → Failed t w := by
        intro w same
        refine .inr ⟨i, spare, ?_, ?_⟩
        · rw [same, setOpen_self]
          exact le_of_eq refs'
        · rw [same]
          exact others'
      refine (Result.Meets.mono (withFs_opentab _) (fun _ _ same => same) truncated fun _ h => h).bind fun _ w same => ?_
      refine ⟨i, rfl, spare, ?_, ?_, ?_, ?_⟩
      · rw [setOpen_self, same, setOpen_self]
        show (v.opentab i).refs + 1 = 2
        rw [refs']
      · rw [setOpen_self]
        exact Option.some_ne_none f
      · rw [setOpen_self]
        rfl
      · intro j other
        rw [setOpen_ne _ _ other, same]
        exact others' j other

theorem serveStep_entries (request : op.isRequest) (next : serveStep t op = some u) :
    (∃ i, openedBy t op = some i ∧ Opens t u i) ∨ openedBy t op = none ∧ Failed t u := by
  cases op with
  | fsreqOpen path omode =>
    have spec := serveOpen_entries path omode t
    rw [serveStep] at next
    simp only [openedBy]
    cases run : serveOpen path omode t with
    | ok r v =>
      rw [run] at spec next
      cases next
      obtain ⟨i, rfl, opens⟩ := spec
      exact .inl ⟨i, rfl, opens⟩
    | err r v =>
      rw [run] at spec next
      cases next
      exact .inr ⟨rfl, spec⟩
    | stop cause =>
      rw [run] at next
      cases next
  | fsreqMap fileid offset => exact .inr ⟨rfl, .inl ((serveMap_opentab fileid offset).state next)⟩
  | fsreqSetSize fileid size => exact .inr ⟨rfl, .inl ((onOpen_opentab fileid _).state next)⟩
  | fsreqClose fileid => exact .inr ⟨rfl, .inl ((onOpen_opentab fileid _).state next)⟩
  | fsreqDirty fileid offset => exact .inr ⟨rfl, .inl ((onOpen_opentab fileid _).state next)⟩
  | fsreqRemove path =>
    rw [serveStep, serveRemove] at next
    exact .inr ⟨rfl, .inl ((withFs_opentab _).state next)⟩
  | fsreqSync =>
    rw [serveStep, serveSync] at next
    exact .inr ⟨rfl, .inl ((withFs_opentab _).state next)⟩
  | shareFd i => cases request
  | dropFd i => cases request
  | store b i w =>
    rw [serveStep] at next
    split at next <;> cases next
    exact .inr ⟨rfl, .inl rfl⟩

end Requests

section Runs

variable {c c' : Clients} {op : ClientOp} {i : Nat}

theorem Tracked.start (disk : Nat → Page) (memory : Nat → Bool) {t : Server} (booted : serverInit disk memory = some t) :
    Tracked (.start t) := by
  obtain ⟨fs, -, rfl⟩ := Option.map_eq_some_iff.mp booted
  refine ⟨fun i => .inl ⟨rfl, rfl⟩, fun i => (by decide : 1 < 65535), ?_, ?_⟩
  · exact fun i mapped => absurd rfl mapped
  · exact fun i mapped => absurd rfl mapped

theorem Tracked.low (tracked : Tracked c) (i : Nat) : (c.server.opentab i).refs ≤ 1 ↔ ¬ IsMapped c i := by
  have count := tracked.count i
  constructor
  · intro low mapped
    rcases count with ⟨-, none⟩ | count
    · exact mapped none
    · have few := List.length_pos_iff.mpr mapped
      omega
  · intro free
    have none : c.mappings i = [] := not_not.mp free
    rw [none, List.length_nil] at count
    omega

theorem Tracked.spare (tracked : Tracked c) (spare : Spare c.server i) : c.mappings i = [] :=
  not_not.mp ((tracked.low i).mp spare.2)

theorem Tracked.remap (tracked : Tracked c) {n : Nat} {envs : List Word} (mapped : IsMapped c i)
    (count : n % 65536 = envs.length + 1) (few : envs.length + 1 < 65535) :
    Tracked { server := c.server.setRefs i n, mappings := Function.update c.mappings i envs } := by
  have entry (j : Nat) : (c.server.setRefs i n).opentab j = c.server.opentab j ∨
      j = i ∧ (c.server.setRefs i n).opentab j = { c.server.opentab i with refs := n % 65536 } := by
    by_cases same : j = i
    · subst same
      exact .inr ⟨rfl, setOpen_self _ _ _⟩
    · exact .inl (setOpen_ne _ _ same)
  have was {j : Nat} (now : IsMapped { server := c.server.setRefs i n, mappings := Function.update c.mappings i envs } j) :
      IsMapped c j := by
    by_cases same : j = i
    · subst same
      exact mapped
    · have other : Function.update c.mappings i envs j ≠ [] := now
      rwa [Function.update_of_ne same] at other
  refine ⟨fun j => ?_, fun j => ?_, fun j now => ?_, fun j now => ?_⟩
  · dsimp only
    by_cases same : j = i
    · subst same
      rw [Server.setRefs, setOpen_self, Function.update_self]
      exact .inr count
    · rw [Server.setRefs, setOpen_ne _ _ same, Function.update_of_ne same]
      exact tracked.count j
  · dsimp only
    by_cases same : j = i
    · subst same
      rw [Function.update_self]
      exact few
    · rw [Function.update_of_ne same]
      exact tracked.few j
  · dsimp only
    rcases entry j with same | ⟨rfl, same⟩
    · rw [same]
      exact tracked.file j (was now)
    · rw [same]
      exact tracked.file j mapped
  · dsimp only
    rcases entry j with same | ⟨rfl, same⟩
    · rw [same]
      exact tracked.number j (was now)
    · rw [same]
      exact tracked.number j mapped

theorem serve_entries (tracked : Tracked c) {who : Word} {op : ServeOp} (next : clientStep c (.serve who op) = some c')
    (mapped : IsMapped c i) : c'.server.opentab i = c.server.opentab i ∧ c'.mappings i = c.mappings i ∧ openedBy c.server op ≠ some i := by
  rw [clientStep] at next
  split at next
  · rename_i request
    obtain ⟨t, stepped, rfl⟩ := Option.map_eq_some_iff.mp next
    rcases serveStep_entries request stepped with ⟨j, opened, opens⟩ | ⟨none, failed⟩
    · have other : i ≠ j := by
        rintro rfl
        exact mapped (tracked.spare opens.spare)
      refine ⟨opens.others i other, ?_, ?_⟩
      · simp only [opened]
        exact Function.update_of_ne other _ _
      · rw [opened]
        exact fun same => other (Option.some.inj same).symm
    · refine ⟨?_, by simp only [none], by rw [none]; exact Option.some_ne_none i |>.symm⟩
      rcases failed with same | ⟨j, spare, -, others⟩
      · exact congrFun same i
      · apply others
        rintro rfl
        exact mapped (tracked.spare spare)
  · cases next

theorem clientStep_tracked (tracked : Tracked c) (room : Roomy c op) (next : clientStep c op = some c') : Tracked c' := by
  cases op with
  | share i owner who =>
    rw [clientStep] at next
    split at next
    · rename_i owns
      cases next
      have mapped : IsMapped c i := List.ne_nil_of_mem owns
      have room' : (c.mappings i).length + 2 < 65535 := room
      refine tracked.remap mapped ?_ ?_
      · rcases tracked.count i with ⟨-, none⟩ | count
        · exact absurd none mapped
        · rw [List.length_cons, count, Nat.mod_eq_of_lt]
          omega
      · rw [List.length_cons]
        omega
    · cases next
  | unmap i who =>
    rw [clientStep] at next
    split at next
    · rename_i owns
      cases next
      have mapped : IsMapped c i := List.ne_nil_of_mem owns
      have some := List.length_pos_iff.mpr mapped
      have few := tracked.few i
      refine tracked.remap mapped ?_ ?_
      · rcases tracked.count i with ⟨-, none⟩ | count
        · exact absurd none mapped
        · rw [List.length_erase_of_mem owns, count]
          omega
      · rw [List.length_erase_of_mem owns]
        omega
    · cases next
  | serve who op =>
    have kept (i : Nat) (mapped : IsMapped c i) := serve_entries tracked next mapped
    rw [clientStep] at next
    split at next
    · rename_i request
      obtain ⟨t, stepped, rfl⟩ := Option.map_eq_some_iff.mp next
      rcases serveStep_entries request stepped with ⟨j, opened, opens⟩ | ⟨none, failed⟩
      · simp only [opened]
        have free := tracked.spare opens.spare
        refine ⟨fun i => ?_, fun i => ?_, fun i mapped => ?_, fun i mapped => ?_⟩
        all_goals dsimp only
        all_goals by_cases same : i = j
        · subst same
          rw [Function.update_self, free]
          exact .inr opens.refs
        · rw [Function.update_of_ne same, opens.others i same]
          exact tracked.count i
        · subst same
          rw [Function.update_self, free]
          exact (by decide : 2 < 65535)
        · rw [Function.update_of_ne same]
          exact tracked.few i
        · subst same
          exact opens.file
        · have before : Function.update c.mappings j (who :: c.mappings j) i ≠ [] := mapped
          rw [Function.update_of_ne same] at before
          rw [opens.others i same]
          exact tracked.file i before
        · subst same
          exact ⟨opens.spare.1, opens.number⟩
        · have before : Function.update c.mappings j (who :: c.mappings j) i ≠ [] := mapped
          rw [Function.update_of_ne same] at before
          rw [opens.others i same]
          exact tracked.number i before
      · simp only [none] at kept ⊢
        refine ⟨fun i => ?_, tracked.few, fun i mapped => ?_, fun i mapped => ?_⟩
        · dsimp only
          rcases failed with same | ⟨j, spare, low, others⟩
          · rw [same]
            exact tracked.count i
          · by_cases here : i = j
            · subst here
              rw [tracked.spare spare]
              rcases Nat.le_one_iff_eq_zero_or_eq_one.mp low with zero | one
              · exact .inl ⟨zero, rfl⟩
              · exact .inr one
            · rw [others i here]
              exact tracked.count i
        · rw [(kept i mapped).1]
          exact tracked.file i mapped
        · rw [(kept i mapped).1]
          exact tracked.number i mapped
    · cases next

theorem clientRun_tracked {c0 : Clients} {ops : List ClientOp} (start : Tracked c0) (ran : Run clientStep Roomy c0 ops c) : Tracked c :=
  ran.invariant Tracked start fun _ _ _ before room next => clientStep_tracked before room next

theorem clientStep_entry (tracked : Tracked c) (mapped : IsMapped c i) (next : clientStep c op = some c') :
    c'.server.opentab i = { c.server.opentab i with refs := (c'.server.opentab i).refs } := by
  have remapped (j n : Nat) : (c.server.setRefs j n).opentab i =
      { c.server.opentab i with refs := ((c.server.setRefs j n).opentab i).refs } := by
    by_cases same : i = j
    · subst same
      rw [Server.setRefs, setOpen_self]
    · rw [Server.setRefs, setOpen_ne _ _ same]
  cases op with
  | serve who op => rw [(serve_entries tracked next mapped).1]
  | share j owner who =>
    rw [clientStep] at next
    split at next <;> cases next
    exact remapped j _
  | unmap j who =>
    rw [clientStep] at next
    split at next <;> cases next
    exact remapped j _

theorem clientRun_entry {c1 c2 : Clients} {ops : List ClientOp} (tracked : Tracked c1)
    (ran : Run clientStep (fun t op => Roomy t op ∧ IsMapped t i) c1 ops c2) :
    Tracked c2 ∧ c2.server.opentab i = { c1.server.opentab i with refs := (c2.server.opentab i).refs } := by
  induction ran with
  | nil => exact ⟨tracked, rfl⟩
  | snoc _ meets next ih =>
    obtain ⟨tracked', same⟩ := ih
    refine ⟨clientStep_tracked tracked' meets.1 next, ?_⟩
    rw [clientStep_entry tracked' meets.2 next, same]

theorem Tracked.lookup (tracked : Tracked c) (mapped : IsMapped c i) :
    openLookup (c.server.opentab i).ff.fileid c.server = .ok i c.server := by
  obtain ⟨inside, number⟩ := tracked.number i mapped
  have value : (BitVec.ofNat 32 i).toNat = i := by
    rw [BitVec.toNat_ofNat, Nat.mod_eq_of_lt]
    rw [maxOpen] at inside
    omega
  have high : ¬ (c.server.opentab i).refs ≤ 1 := fun low => (tracked.low i).mp low mapped
  rw [number, openLookup, value, if_neg (Nat.not_le_of_lt inside), if_neg high]

/-- Entries whose page a client maps stay what they are, and requests find them; the table is full when all are mapped. -/
theorem open_exclusive {disk : Nat → Page} {memory : Nat → Bool} {t : Server} (booted : serverInit disk memory = some t)
    {ops : List ClientOp} (ran : Run clientStep Roomy (.start t) ops c) :
    (∀ who op next i, IsMapped c i → clientStep c (.serve who op) = some next →
      next.server.opentab i = c.server.opentab i ∧ openedBy c.server op ≠ some i) ∧
    (∀ who op next i ops' last, openedBy c.server op = some i → clientStep c (.serve who op) = some next →
      Run clientStep (fun t op => Roomy t op ∧ IsMapped t i) next ops' last → IsMapped last i →
      last.server.opentab i = { next.server.opentab i with refs := (last.server.opentab i).refs } ∧
      (last.server.opentab i).file ≠ none ∧ openLookup (last.server.opentab i).ff.fileid last.server = .ok i last.server) ∧
    (∀ u, openAlloc c.server = .err (-eMaxOpen) u → ∀ i < maxOpen, IsMapped c i) := by
  have tracked := clientRun_tracked (Tracked.start disk memory booted) ran
  refine ⟨fun who op next i mapped served => ?_, fun who op next i ops' last _ served later mapped => ?_, fun u full i inside => ?_⟩
  · obtain ⟨same, -, other⟩ := serve_entries tracked served mapped
    exact ⟨same, other⟩
  · have room : Roomy c (.serve who op) := trivial
    obtain ⟨tracked', same⟩ := clientRun_entry (clientStep_tracked tracked room served) later
    exact ⟨same, tracked'.file i mapped, tracked'.lookup mapped⟩
  · by_contra free
    have low := (tracked.low i).mpr free
    unfold openAlloc at full
    split at full
    · rename_i none
      have high := List.find?_eq_none.mp none i (List.mem_range.mpr inside)
      exact high (decide_eq_true low)
    · split at full
      · dsimp only at full
        split at full <;> cases full
      · cases full

end Runs

/-- The env 1 creates `/a`. -/
def clientRun : List ClientOp := [.serve 1 (.fsreqOpen [0x2f, 0x61] oCreat)]

theorem clientRun_roomy : ∀ op ∈ clientRun, ∀ c, Roomy c op := by
  intro op mem c
  cases List.mem_singleton.mp mem
  trivial

set_option maxRecDepth 100000 in
theorem open_exclusive_clientRun : ∃ t c c', emptyServer = some t ∧ Run clientStep Roomy (.start t) clientRun c ∧ IsMapped c 0 ∧
    clientStep c (.serve 2 (.fsreqOpen [0x2f, 0x61] 0)) = some c' ∧ openedBy c.server (.fsreqOpen [0x2f, 0x61] 0) = some 1 ∧
    c'.server.opentab 0 = c.server.opentab 0 := by
  have check : (emptyServer.any fun t => (Run.exec clientStep (.start t) clientRun).any fun c =>
      decide (c.mappings 0 ≠ []) && decide (openedBy c.server (.fsreqOpen [0x2f, 0x61] 0) = some 1) &&
      (clientStep c (.serve 2 (.fsreqOpen [0x2f, 0x61] 0))).isSome) = true := by decide +kernel
  simp only [Option.any_eq_true, Bool.and_eq_true, decide_eq_true_eq, Option.isSome_iff_exists] at check
  obtain ⟨t, booted, c, exec, ⟨mapped, opened⟩, c', next⟩ := check
  have ran := Run.of_exec clientRun_roomy exec
  exact ⟨t, c, c', booted, ran, mapped, next, opened, ((open_exclusive booted ran).1 2 _ c' 0 mapped next).1⟩

end Mos.Fs
