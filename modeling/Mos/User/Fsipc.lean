import Mos.Kern.PageWalk

namespace Mos.Fsipc

def maxFsreqno : Word := 7
def reqva : Word := 0x0ffff000

/-- The IPC fields of an env, and the page that is mapped at each address. `tag` is the history of the request that a
    message carries. -/
structure Mail where
  recving : Bool
  dstva : Word
  value : Word
  sender : EnvPtr
  perm : Word
  maps : Word → Option Nat
  tag : Option Nat

abbrev Mails := EnvPtr → Mail

/-- `sys_ipc_try_send` to the env that `envid2env` finds. `room` tells whether `page_insert` succeeds. -/
def trySend (cur : EnvPtr) (target : Option EnvPtr) (value srcva perm : Word) (tag : Option Nat) (room : Bool) (w : Mails) :
    Word × Mails :=
  if srcva ≠ 0 ∧ isIllegalVa srcva then (-eInval, w)
  else
    match target with
    | none => (-eBadEnv, w)
    | some e =>
      if (w e).recving then
        let m := { w e with value := value, sender := cur, perm := pteV ||| perm, recving := false, tag := tag }
        if srcva = 0 then (0, Function.update w e m)
        else
          match (w cur).maps srcva with
          | none => (-eInval, Function.update w e m)
          | some p =>
            if room then (0, Function.update w e { m with maps := Function.update m.maps m.dstva (some p) })
            else (-eNoMem, Function.update w e m)
      else (-eIpcNotRecv, w)

/-- `sys_ipc_recv` up to the wait, or `none` when it returns -E_INVAL. -/
def blockRecv (cur : EnvPtr) (dstva : Word) (w : Mails) : Option Mails :=
  if dstva ≠ 0 ∧ isIllegalVa dstva then none
  else some (Function.update w cur { w cur with recving := true, dstva := dstva })

/-- The arguments of `fsipc`. -/
structure Request where
  type : Word
  fsreq : Word
  dstva : Word

/-- Where an env is: in `fsipc`, in another `ipc_recv`, or in neither. `before` is the page at `dstva` when the wait
    for the reply starts. -/
inductive Task where
  | idle
  | sending (r : Request)
  | asked (r : Request) (ticket : Nat)
  | waiting (r : Request) (ticket : Nat) (before : Option Nat)
  | receiving
  | dead

/-- The arguments of the `ipc_send` with which a function of `serve_table` ends. -/
structure Reply where
  value : Word
  srcva : Word
  perm : Word

inductive ServerTask where
  | listening
  | blocked
  | answering (whom : EnvPtr) (tag : Option Nat) (reply : Reply)
  | dead

/-- What the server sent in answer to the request `ticket`. -/
structure Answer where
  ticket : Nat
  value : Word
  perm : Word
  page : Option Nat

/-- What `fsipc` returned for the request `ticket`. -/
structure Returned where
  ticket : Nat
  value : Word
  perm : Word
  page : Option Nat
  before : Option Nat

structure World (σ : Type) where
  mails : Mails
  task : EnvPtr → Task
  server : ServerTask
  files : σ
  tickets : Nat
  answers : List Answer
  returned : List Returned

/-- What a function of `serve_table` makes of the files and of the server's address space, and its reply. -/
abbrev ServeFunc (σ : Type) := σ → EnvPtr → Word → (Word → Option Nat) → σ × (Word → Option Nat) × Reply

inductive Op where
  | fsipc (e : EnvPtr) (r : Request)
  | ask (e : EnvPtr) (room : Bool)
  | await (e : EnvPtr)
  | resume (e : EnvPtr)
  | send (e : EnvPtr) (target : Option EnvPtr) (value srcva perm : Word) (room : Bool)
  | recv (e : EnvPtr) (dstva : Word)
  | wake (e : EnvPtr)
  | listen
  | take
  | reply (room : Bool)

variable {σ : Type}

def World.setTask (w : World σ) (e : EnvPtr) (t : Task) : World σ := { w with task := Function.update w.task e t }

def World.unmapReq (w : World σ) (fs : EnvPtr) : World σ :=
  let m := { w.mails fs with maps := Function.update (w.mails fs).maps reqva none }
  { w with mails := Function.update w.mails fs m }

/-- The page that a send of `srcva` carries. -/
def carried (m : Mail) (srcva : Word) : Option Nat := if srcva = 0 then none else m.maps srcva

/-- `serve` from the return of `ipc_recv` to the reply. -/
def serveTake (fs : EnvPtr) (func : ServeFunc σ) (w : World σ) : World σ :=
  let m := w.mails fs
  if m.perm &&& pteV = 0 then { w with server := .listening }
  else if maxFsreqno ≤ m.value then { w.unmapReq fs with server := .listening }
  else
    let (files, maps, reply) := func w.files m.sender m.value m.maps
    let mails := Function.update w.mails fs { m with maps := maps }
    { w with mails := mails, files := files, server := .answering m.sender m.tag reply }

/-- One round of the loop of `ipc_send` in the server. -/
def serveReply (fs whom : EnvPtr) (tag : Option Nat) (r : Reply) (room : Bool) (w : World σ) : World σ :=
  let (code, mails) := trySend fs (some whom) r.value r.srcva r.perm none room w.mails
  if code = -eIpcNotRecv then { w with mails := mails }
  else if code = 0 then
    let answer : Option Answer := tag.map fun n =>
      { ticket := n, value := r.value, perm := pteV ||| r.perm, page := carried (w.mails fs) r.srcva }
    { ({ w with mails := mails } : World σ).unmapReq fs with server := .listening, answers := answer.toList ++ w.answers }
  else { w with mails := mails, server := .dead }

/-- One round of the loop of `ipc_send` in `fsipc`. -/
def clientAsk (fs e : EnvPtr) (r : Request) (room : Bool) (w : World σ) : World σ :=
  let (code, mails) := trySend e (some fs) r.type r.fsreq pteD (some w.tickets) room w.mails
  if code = -eIpcNotRecv then { w with mails := mails }
  else
    let task := if code = 0 then .asked r w.tickets else .dead
    { w with mails := mails, task := Function.update w.task e task, tickets := w.tickets + 1 }

def clientAwait (e : EnvPtr) (r : Request) (n : Nat) (w : World σ) : World σ :=
  match blockRecv e r.dstva w.mails with
  | some mails => { w with mails := mails, task := Function.update w.task e (.waiting r n ((w.mails e).maps r.dstva)) }
  | none => w.setTask e .dead

def clientResume (e : EnvPtr) (r : Request) (n : Nat) (before : Option Nat) (w : World σ) : World σ :=
  let m := w.mails e
  let got : Returned := { ticket := n, value := m.value, perm := m.perm, page := m.maps r.dstva, before := before }
  { w with task := Function.update w.task e .idle, returned := got :: w.returned }

/-- One step of the server, `fs`, or of another env. -/
def step (fs : EnvPtr) (func : ServeFunc σ) (w : World σ) : Op → Option (World σ)
  | .fsipc e r =>
    match w.task e with
    | .idle => if e = fs then none else some (w.setTask e (.sending r))
    | _ => none
  | .ask e room =>
    match w.task e with
    | .sending r => some (clientAsk fs e r room w)
    | _ => none
  | .await e =>
    match w.task e with
    | .asked r n => some (clientAwait e r n w)
    | _ => none
  | .resume e =>
    match w.task e with
    | .waiting r n before => if (w.mails e).recving then none else some (clientResume e r n before w)
    | _ => none
  | .send e target value srcva perm room =>
    match w.task e with
    | .idle => if e = fs then none else some { w with mails := (trySend e target value srcva perm none room w.mails).2 }
    | _ => none
  | .recv e dstva =>
    match w.task e with
    | .idle =>
      if e = fs then none
      else (blockRecv e dstva w.mails).map fun mails => { w with mails := mails, task := Function.update w.task e .receiving }
    | _ => none
  | .wake e =>
    match w.task e with
    | .receiving => if (w.mails e).recving then none else some (w.setTask e .idle)
    | _ => none
  | .listen =>
    match w.server with
    | .listening => (blockRecv fs reqva w.mails).map fun mails => { w with mails := mails, server := .blocked }
    | _ => none
  | .take =>
    match w.server with
    | .blocked => if (w.mails fs).recving then none else some (serveTake fs func w)
    | _ => none
  | .reply room =>
    match w.server with
    | .answering whom tag r => some (serveReply fs whom tag r room w)
    | _ => none

/-- Every env runs outside `fsipc`, and nothing has been sent. -/
def start (mails : Mails) (files : σ) : World σ :=
  { mails := fun e => { mails e with recving := false, tag := none }
    task := fun _ => .idle
    server := .listening
    files := files
    tickets := 0
    answers := []
    returned := [] }

/-- No env but the server sends to an env that waits for its reply in `fsipc`, and the page of a reply is there and can
    be mapped. -/
def Undisturbed (fs : EnvPtr) (w : World σ) : Op → Prop
  | .send _ (some c) _ _ _ _ => ∀ r n before, w.task c ≠ .waiting r n before
  | .reply room => ∀ whom tag r, w.server = .answering whom tag r → r.srcva ≠ 0 → room = true ∧ (w.mails fs).maps r.srcva ≠ none
  | _ => True

/-- The server sent what `fsipc` returned, in answer to its request. -/
def Own (answers : List Answer) (ticket : Nat) (value perm : Word) (page before : Option Nat) : Prop :=
  ∃ a ∈ answers, a.ticket = ticket ∧ a.value = value ∧ a.perm = perm ∧ page = a.page.or before

section Send

variable {cur e : EnvPtr} {target : Option EnvPtr} {value srcva perm : Word} {tag : Option Nat} {room : Bool} {w : Mails}

/-- The mailbox after a message has come in, with the page `page` if it carries one. -/
structure Delivered (m m' : Mail) (cur : EnvPtr) (value perm : Word) (tag page : Option Nat) : Prop where
  recving : m'.recving = false
  dstva : m'.dstva = m.dstva
  value : m'.value = value
  sender : m'.sender = cur
  perm : m'.perm = pteV ||| perm
  tag : m'.tag = tag
  maps : m'.maps m.dstva = page.or (m.maps m.dstva)

theorem trySend_cases (cur : EnvPtr) (target : Option EnvPtr) (value srcva perm : Word) (tag : Option Nat) (room : Bool) (w : Mails) :
    let sent := trySend cur target value srcva perm tag room w
    sent.1 ≠ 0 ∧ sent.2 = w ∨
    ∃ e m page, target = some e ∧ (w e).recving = true ∧ sent.2 = Function.update w e m ∧
      Delivered (w e) m cur value perm tag page ∧ sent.1 ≠ -eIpcNotRecv ∧
      ((srcva ≠ 0 → room = true ∧ (w cur).maps srcva ≠ none) → sent.1 = 0 ∧ page = carried (w cur) srcva) := by
  intro sent
  show (trySend cur target value srcva perm tag room w).1 ≠ 0 ∧ (trySend cur target value srcva perm tag room w).2 = w ∨ _
  unfold sent trySend
  split
  · exact .inl ⟨(by decide : -eInval ≠ 0), rfl⟩
  · cases target with
    | none => exact .inl ⟨(by decide : -eBadEnv ≠ 0), rfl⟩
    | some e =>
      dsimp only
      split
      · rename_i waits
        refine .inr ⟨e, ?_⟩
        have plain (page : Option Nat) (none : page = none) : Delivered (w e)
            { w e with value := value, sender := cur, perm := pteV ||| perm, recving := false, tag := tag } cur value perm tag page := by
          subst none
          exact ⟨rfl, rfl, rfl, rfl, rfl, rfl, rfl⟩
        split
        · rename_i zero
          exact ⟨_, none, rfl, waits, rfl, plain none rfl, (by decide : (0 : Word) ≠ -eIpcNotRecv), fun _ => ⟨rfl, by rw [carried, if_pos zero]⟩⟩
        · rename_i nonzero
          split
          · rename_i missing
            exact ⟨_, none, rfl, waits, rfl, plain none rfl, (by decide : -eInval ≠ -eIpcNotRecv), fun there => absurd missing (there nonzero).2⟩
          · rename_i p found
            split
            · refine ⟨_, some p, rfl, waits, rfl, ⟨rfl, rfl, rfl, rfl, rfl, rfl, ?_⟩, (by decide : (0 : Word) ≠ -eIpcNotRecv), fun _ => ⟨rfl, ?_⟩⟩
              · exact Function.update_self _ _ _
              · rw [carried, if_neg nonzero, found]
            · rename_i full
              exact ⟨_, none, rfl, waits, rfl, plain none rfl, (by decide : -eNoMem ≠ -eIpcNotRecv), fun there => absurd (there nonzero).1 full⟩
      · exact .inl ⟨(by decide : -eIpcNotRecv ≠ 0), rfl⟩

end Send

/-- The mailboxes are those of the kernel's envs. -/
structure Shows (k : Kernel) (w : Mails) : Prop where
  recving : ∀ e, (w e).recving = true ↔ (k.envs e).envIpcRecving = 1
  dstva : ∀ e, (w e).dstva = (k.envs e).envIpcDstva
  value : ∀ e, (w e).value = (k.envs e).envIpcValue
  perm : ∀ e, (w e).perm = (k.envs e).envIpcPerm
  sender : ∀ e, (k.envs e).envIpcFrom = 0 ∨ (k.envs e).envIpcFrom = (k.envs (w e).sender).envId

section Refine

variable {cur e : EnvPtr} {value srcva perm envid : Word} {tag : Option Nat} {k k' : Kernel} {w : Mails}

theorem Shows.deliver (shows : Shows k w) {m : Mail} (page : Option Nat) (sent : Delivered (w e) m cur value perm tag page)
    (envs : k'.envs = (ipcDeliver cur e value perm k).envs) : Shows k' (Function.update w e m) := by
  have self : k'.envs e = { k.envs e with
      envIpcValue := value, envIpcFrom := (k.envs cur).envId, envIpcPerm := pteV ||| perm, envIpcRecving := 0
      envStatus := .runnable } := by
    rw [envs]
    exact Function.update_self _ _ _
  have other {b : EnvPtr} (ne : b ≠ e) : k'.envs b = k.envs b := by
    rw [envs]
    exact Function.update_of_ne ne _ _
  have ids (b : EnvPtr) : (k'.envs b).envId = (k.envs b).envId := by
    by_cases here : b = e
    · subst here
      rw [self]
    · rw [other here]
  constructor <;> intro b <;> by_cases here : b = e
  · subst here
    rw [Function.update_self, self, sent.recving]
    exact ⟨nofun, nofun⟩
  · rw [Function.update_of_ne here, other here]
    exact shows.recving b
  · subst here
    rw [Function.update_self, self, sent.dstva]
    exact shows.dstva b
  · rw [Function.update_of_ne here, other here]
    exact shows.dstva b
  · subst here
    rw [Function.update_self, self, sent.value]
  · rw [Function.update_of_ne here, other here]
    exact shows.value b
  · subst here
    rw [Function.update_self, self, sent.perm]
  · rw [Function.update_of_ne here, other here]
    exact shows.perm b
  · subst here
    rw [Function.update_self, ids, self, sent.sender]
    exact .inr rfl
  · rw [Function.update_of_ne here, ids, other here]
    exact shows.sender b

theorem sysIpcTrySend_shows (shows : Shows k w)
    (maps : ∀ found vm, pageLookup k.vm (k.envs cur).envPgdir srcva = .ok found vm → (w cur).maps srcva = found.map Prod.fst) :
    (∃ cause, sysIpcTrySend cur envid value srcva perm k = .stop cause) ∨
    ∃ room k', let sent := trySend cur (envid2env k cur envid false).toOption value srcva perm tag room w
      Shows k' sent.2 ∧ (sysIpcTrySend cur envid value srcva perm k = .ok (some 0) k' ∧ sent.1 = 0 ∨
        sysIpcTrySend cur envid value srcva perm k = .err sent.1 k') := by
  unfold sysIpcTrySend trySend
  by_cases illegal : srcva ≠ 0 ∧ isIllegalVa srcva
  · rw [if_pos illegal]
    refine .inr ⟨true, k, ?_⟩
    rw [if_pos illegal]
    exact ⟨shows, .inr rfl⟩
  · simp only [if_neg illegal]
    cases found : envid2env k cur envid false with
    | error code =>
      have bad : code = -eBadEnv := by
        unfold envid2env at found
        split at found
        · cases found
        · dsimp only at found
          split at found
          · cases found
            rfl
          · split at found <;> cases found
            rfl
      subst bad
      exact .inr ⟨true, k, shows, .inr rfl⟩
    | ok e =>
      simp only [tryEnv, Except.toOption]
      by_cases waits : (w e).recving = true
      · have on : (k.envs e).envIpcRecving = 1 := (shows.recving e).mp waits
        rw [if_neg (not_not.mpr on)]
        simp only [waits, if_true]
        have plain : Delivered (w e)
            { w e with value := value, sender := cur, perm := pteV ||| perm, recving := false, tag := tag } cur value perm tag none :=
          ⟨rfl, rfl, rfl, rfl, rfl, rfl, rfl⟩
        unfold ipcMap
        by_cases zero : srcva = 0
        · rw [if_neg (not_not.mpr zero)]
          simp only [if_pos zero]
          exact .inr ⟨true, ipcDeliver cur e value perm k, shows.deliver none plain rfl, .inl ⟨rfl, trivial⟩⟩
        · rw [if_pos zero]
          simp only [if_neg zero]
          have pgdir : ((ipcDeliver cur e value perm k).envs cur).envPgdir = (k.envs cur).envPgdir := by
            by_cases here : cur = e
            · subst here
              simp [ipcDeliver, Kernel.updateEnv, Kernel.tailqInsertTail]
            · simp [ipcDeliver, Kernel.updateEnv, Kernel.tailqInsertTail, here]
          rw [pgdir, show (ipcDeliver cur e value perm k).vm = k.vm from rfl]
          cases looked : pageLookup k.vm (k.envs cur).envPgdir srcva with
          | stop cause => exact .inl ⟨cause, rfl⟩
          | err code vm => exact absurd looked (pageLookup_noErr _ _ _ code vm)
          | ok page vm =>
            rw [maps page vm looked]
            cases page with
            | none => exact .inr ⟨true, (ipcDeliver cur e value perm k).putVm vm, shows.deliver none plain rfl, .inr rfl⟩
            | some page =>
              let mid := (ipcDeliver cur e value perm k).putVm vm
              cases insert : pageInsert mid.vm (mid.envs e).envPgdir (asidWord (mid.envs e).envAsid) page.1 (mid.envs e).envIpcDstva perm with
              | stop cause =>
                refine .inl ⟨cause, ?_⟩
                show ret 0 (mid.withVm (pageInsert mid.vm _ _ _ _ _)) = _
                rw [insert]
                rfl
              | err code vm' =>
                cases pageInsert_err_code insert
                refine .inr ⟨false, mid.putVm vm', shows.deliver none plain rfl, .inr ?_⟩
                show ret 0 (mid.withVm (pageInsert mid.vm _ _ _ _ _)) = _
                rw [insert]
                rfl
              | ok done vm' =>
                refine .inr ⟨true, mid.putVm vm', ?_, .inl ⟨?_, rfl⟩⟩
                · exact shows.deliver (some page.1) ⟨rfl, rfl, rfl, rfl, rfl, rfl, Function.update_self _ _ _⟩ rfl
                · show ret 0 (mid.withVm (pageInsert mid.vm _ _ _ _ _)) = _
                  rw [insert]
                  rfl
      · rw [if_pos fun on => waits ((shows.recving e).mpr on)]
        simp only [if_neg waits]
        exact .inr ⟨true, k, shows, .inr rfl⟩

end Refine

/-- The env `e` waits for the answer to its request `n`. -/
def Asking (w : World σ) (e : EnvPtr) (n : Nat) : Prop :=
  ∃ r, w.task e = .asked r n ∨ ∃ before, w.task e = .waiting r n before

/-- The server has a message of `e`, which it has not answered yet. -/
def Pending (fs : EnvPtr) (w : World σ) (e : EnvPtr) (tag : Option Nat) : Prop :=
  (w.server = .blocked ∧ (w.mails fs).recving = false ∧ (w.mails fs).sender = e ∧ (w.mails fs).tag = tag) ∨
    ∃ r, w.server = .answering e tag r

structure Inv (fs : EnvPtr) (w : World σ) : Prop where
  awake : ∀ e, e ≠ fs → (w.mails e).recving = true → w.task e = .receiving ∨ ∃ r n before, w.task e = .waiting r n before
  quiet : (w.mails fs).recving = true → w.server = .blocked
  server : w.task fs = .idle
  current : ∀ e n tag, Asking w e n → Pending fs w e tag → tag = some n
  dstva : ∀ e r n before, w.task e = .waiting r n before → (w.mails e).dstva = r.dstva
  before : ∀ e r n before, w.task e = .waiting r n before → (w.mails e).recving = true → (w.mails e).maps r.dstva = before
  placed : ∀ e r n before, w.task e = .waiting r n before → (w.mails e).recving = false →
    Own w.answers n (w.mails e).value (w.mails e).perm ((w.mails e).maps r.dstva) before
  returned : ∀ x ∈ w.returned, Own w.answers x.ticket x.value x.perm x.page x.before
  issued : ∀ a ∈ w.answers, a.ticket < w.tickets
  fresh : ∀ e n, Pending fs w e (some n) → n < w.tickets ∧ ∀ a ∈ w.answers, a.ticket ≠ n
  once : (w.answers.map Answer.ticket).Nodup

namespace Inv

variable {fs e : EnvPtr} {w : World σ}

theorem ne_server {t : Task} (inv : Inv fs w) (busy : w.task e = t) (other : t ≠ .idle) : e ≠ fs := by
  rintro rfl
  exact other (busy.symm.trans inv.server)

theorem asleep (inv : Inv fs w) (ne : e ≠ fs) {t : Task} (task : w.task e = t) (notReceiving : t ≠ .receiving)
    (notWaiting : ∀ r n before, t ≠ .waiting r n before) : (w.mails e).recving = false := by
  by_contra on
  rcases inv.awake e ne (Bool.eq_true_of_not_eq_false on) with now | ⟨r, n, before, now⟩
  · exact notReceiving (task.symm.trans now)
  · exact notWaiting r n before (task.symm.trans now)

theorem setTask (inv : Inv fs w) {t : Task} (ne : e ≠ fs) (off : (w.mails e).recving = false)
    (calm : ∀ r n before, t ≠ .waiting r n before ∧ t ≠ .asked r n) : Inv fs (w.setTask e t) := by
  have other {b : EnvPtr} (here : b ≠ e) : (w.setTask e t).task b = w.task b := Function.update_of_ne here _ _
  have self : (w.setTask e t).task e = t := Function.update_self _ _ _
  have waits {b : EnvPtr} {r : Request} {n : Nat} {before : Option Nat} (now : (w.setTask e t).task b = .waiting r n before) :
      w.task b = .waiting r n before := by
    by_cases here : b = e
    · subst here
      exact absurd (self.symm.trans now) (calm r n before).1
    · exact (other here).symm.trans now
  have asks {b : EnvPtr} {n : Nat} : Asking (w.setTask e t) b n → Asking w b n := by
    rintro ⟨r, now | ⟨before, now⟩⟩
    · refine ⟨r, .inl ?_⟩
      by_cases here : b = e
      · subst here
        exact absurd (self.symm.trans now) (calm r n none).2
      · exact (other here).symm.trans now
    · exact ⟨r, .inr ⟨before, waits now⟩⟩
  refine ⟨fun b nb on => ?_, inv.quiet, ?_, fun b n tag asking => inv.current b n tag (asks asking),
    fun b r n before now => inv.dstva b r n before (waits now), fun b r n before now => inv.before b r n before (waits now),
    fun b r n before now => inv.placed b r n before (waits now), inv.returned, inv.issued, inv.fresh, inv.once⟩
  · by_cases here : b = e
    · subst here
      exact absurd (off.symm.trans on) Bool.false_ne_true
    · rw [other here]
      exact inv.awake b nb on
  · rw [other ne.symm]
    exact inv.server

theorem request (inv : Inv fs w) {m : Mail} {t : Task} {value perm : Word} {tag page : Option Nat} (tickets : Nat) (ne : e ≠ fs)
    (off : (w.mails e).recving = false) (on : (w.mails fs).recving = true) (sent : Delivered (w.mails fs) m e value perm tag page)
    (calm : ∀ r n before, t ≠ .waiting r n before) (asks : ∀ r n, t = .asked r n → tag = some n) (grows : w.tickets ≤ tickets)
    (fresh : ∀ n, tag = some n → w.tickets ≤ n ∧ n < tickets) :
    Inv fs { w with mails := Function.update w.mails fs m, task := Function.update w.task e t, tickets := tickets } := by
  have mail {b : EnvPtr} (here : b ≠ fs) : Function.update w.mails fs m b = w.mails b := Function.update_of_ne here _ _
  have task {b : EnvPtr} (here : b ≠ e) : Function.update w.task e t b = w.task b := Function.update_of_ne here _ _
  have blocked := inv.quiet on
  have waits {b : EnvPtr} {r : Request} {n : Nat} {before : Option Nat} (now : Function.update w.task e t b = .waiting r n before) :
      w.task b = .waiting r n before ∧ b ≠ fs := by
    have here : b ≠ e := by
      rintro rfl
      rw [Function.update_self] at now
      exact calm r n before now
    rw [task here] at now
    exact ⟨now, inv.ne_server now (by simp)⟩
  have pends {b : EnvPtr} {tag' : Option Nat}
      (now : Pending fs { w with mails := Function.update w.mails fs m, task := Function.update w.task e t, tickets := tickets } b tag') :
      b = e ∧ tag' = tag := by
    rcases now with ⟨-, -, from_, same⟩ | ⟨r, answering⟩
    · simp only [Function.update_self] at from_ same
      exact ⟨from_.symm.trans sent.sender, same.symm.trans sent.tag⟩
    · exact nomatch blocked.symm.trans answering
  refine ⟨fun b nb on' => ?_, fun on' => ?_, ?_, fun b n tag' asking now => ?_, fun b r n before now => ?_, fun b r n before now => ?_,
    fun b r n before now => ?_, inv.returned, fun a mem => lt_of_lt_of_le (inv.issued a mem) grows, fun b n now => ?_, inv.once⟩
  · simp only [mail nb] at on' ⊢
    by_cases here : b = e
    · subst here
      exact absurd (off.symm.trans on') Bool.false_ne_true
    · rw [task here]
      exact inv.awake b nb on'
  · exact blocked
  · show Function.update w.task e t fs = .idle
    rw [task ne.symm]
    exact inv.server
  · obtain ⟨rfl, rfl⟩ := pends now
    obtain ⟨r, task' | ⟨before, task'⟩⟩ := asking
    · simp only [Function.update_self] at task'
      exact asks r n task'
    · simp only [Function.update_self] at task'
      exact absurd task' (calm r n before)
  · obtain ⟨was, nb⟩ := waits now
    simp only [mail nb]
    exact inv.dstva b r n before was
  · obtain ⟨was, nb⟩ := waits now
    simp only [mail nb]
    exact inv.before b r n before was
  · obtain ⟨was, nb⟩ := waits now
    simp only [mail nb]
    exact inv.placed b r n before was
  · obtain ⟨-, same⟩ := pends now
    obtain ⟨low, high⟩ := fresh n same.symm
    exact ⟨high, fun a mem => Nat.ne_of_lt (lt_of_lt_of_le (inv.issued a mem) low)⟩

theorem other (inv : Inv fs w) {m : Mail} {cur : EnvPtr} {value perm : Word} {tag page : Option Nat} (ne : e ≠ fs)
    (sent : Delivered (w.mails e) m cur value perm tag page) (calm : ∀ r n before, w.task e ≠ .waiting r n before) :
    Inv fs { w with mails := Function.update w.mails e m } := by
  have mail {b : EnvPtr} (here : b ≠ e) : Function.update w.mails e m b = w.mails b := Function.update_of_ne here _ _
  have pends {b : EnvPtr} {tag' : Option Nat} (now : Pending fs { w with mails := Function.update w.mails e m } b tag') :
      Pending fs w b tag' := by
    unfold Pending at now
    simp only [mail ne.symm] at now
    exact now
  have waits {b : EnvPtr} {r : Request} {n : Nat} {before : Option Nat} (now : w.task b = .waiting r n before) : b ≠ e := by
    rintro rfl
    exact calm r n before now
  refine ⟨fun b nb on => ?_, fun on => ?_, inv.server, fun b n tag' asking now => inv.current b n tag' asking (pends now),
    fun b r n before now => ?_, fun b r n before now => ?_, fun b r n before now => ?_, inv.returned, inv.issued,
    fun b n now => inv.fresh b n (pends now), inv.once⟩
  · by_cases here : b = e
    · subst here
      simp only [Function.update_self] at on
      exact absurd (sent.recving.symm.trans on) Bool.false_ne_true
    · simp only [mail here] at on
      exact inv.awake b nb on
  · simp only [mail ne.symm] at on
    exact inv.quiet on
  · simp only [mail (waits now)]
    exact inv.dstva b r n before now
  · simp only [mail (waits now)]
    exact inv.before b r n before now
  · simp only [mail (waits now)]
    exact inv.placed b r n before now

theorem block (inv : Inv fs w) {t : Task} {dstva : Word} (ne : e ≠ fs)
    (waits : t = .receiving ∨ ∃ r n, t = .waiting r n ((w.mails e).maps r.dstva) ∧ r.dstva = dstva ∧ w.task e = .asked r n) :
    Inv fs { w with
      mails := Function.update w.mails e { w.mails e with recving := true, dstva := dstva }
      task := Function.update w.task e t } := by
  have mail {b : EnvPtr} (here : b ≠ e) :
      Function.update w.mails e { w.mails e with recving := true, dstva := dstva } b = w.mails b := Function.update_of_ne here _ _
  have task {b : EnvPtr} (here : b ≠ e) : Function.update w.task e t b = w.task b := Function.update_of_ne here _ _
  have starts {r : Request} {n : Nat} {before : Option Nat} (now : Function.update w.task e t e = .waiting r n before) :
      before = (w.mails e).maps r.dstva ∧ r.dstva = dstva ∧ w.task e = .asked r n := by
    rw [Function.update_self] at now
    rcases waits with rfl | ⟨r', n', rfl, same, asked⟩
    · cases now
    · cases now
      exact ⟨rfl, same, asked⟩
  have self : Function.update w.mails e { w.mails e with recving := true, dstva := dstva } e =
      { w.mails e with recving := true, dstva := dstva } := Function.update_self _ _ _
  refine ⟨fun b nb on => ?_, fun on => ?_, ?_, fun b n tag asking now => ?_, fun b r n before now => ?_, fun b r n before now on => ?_,
    fun b r n before now off => ?_, inv.returned, inv.issued, fun b n now => ?_, inv.once⟩
  · by_cases here : b = e
    · subst here
      simp only [Function.update_self]
      exact waits.imp id fun ⟨r, n, same, _⟩ => ⟨r, n, _, same⟩
    · simp only [mail here, task here] at on ⊢
      exact inv.awake b nb on
  · simp only [mail ne.symm] at on
    exact inv.quiet on
  · simp only [task ne.symm]
    exact inv.server
  · unfold Pending at now
    simp only [mail ne.symm] at now
    refine inv.current b n tag ?_ now
    by_cases here : b = e
    · subst here
      obtain ⟨r, asked | ⟨before, waiting⟩⟩ := asking
      · simp only [Function.update_self] at asked
        rcases waits with same | ⟨r', n', same, -, -⟩
        · exact nomatch asked.symm.trans same
        · exact nomatch asked.symm.trans same
      · exact ⟨r, .inl (starts waiting).2.2⟩
    · unfold Asking at asking
      simp only [task here] at asking
      exact asking
  · by_cases here : b = e
    · subst here
      simp only [self]
      exact (starts now).2.1.symm
    · simp only [mail here, task here] at now ⊢
      exact inv.dstva b r n before now
  · by_cases here : b = e
    · subst here
      simp only [self]
      exact (starts now).1.symm
    · simp only [mail here, task here] at now on ⊢
      exact inv.before b r n before now on
  · by_cases here : b = e
    · subst here
      simp only [self] at off
      cases off
    · simp only [mail here, task here] at now off ⊢
      exact inv.placed b r n before now off
  · unfold Pending at now
    simp only [mail ne.symm] at now
    exact inv.fresh b n now

/-- The server goes on, with a message that is no other than the one it had. -/
theorem serve (inv : Inv fs w) (m : Mail) (server : ServerTask) (files : σ) (off : m.recving = true → server = .blocked)
    (pends : ∀ e tag, Pending fs { w with mails := Function.update w.mails fs m, server := server, files := files } e tag →
      Pending fs w e tag) :
    Inv fs { w with mails := Function.update w.mails fs m, server := server, files := files } := by
  have mail {b : EnvPtr} (here : b ≠ fs) : Function.update w.mails fs m b = w.mails b := Function.update_of_ne here _ _
  have client {b : EnvPtr} {r : Request} {n : Nat} {before : Option Nat} (now : w.task b = .waiting r n before) : b ≠ fs :=
    inv.ne_server now (by simp)
  refine ⟨fun b nb on => ?_, fun on => ?_, inv.server, fun b n tag asking now => inv.current b n tag asking (pends b tag now),
    fun b r n before now => ?_, fun b r n before now => ?_, fun b r n before now => ?_, inv.returned, inv.issued,
    fun b n now => inv.fresh b n (pends b _ now), inv.once⟩
  · simp only [mail nb] at on
    exact inv.awake b nb on
  · simp only [Function.update_self] at on
    exact off on
  · simp only [mail (client now)]
    exact inv.dstva b r n before now
  · simp only [mail (client now)]
    exact inv.before b r n before now
  · simp only [mail (client now)]
    exact inv.placed b r n before now

theorem more (inv : Inv fs w) (answer : Option Answer)
    (fresh : ∀ a, answer = some a → a.ticket < w.tickets ∧ ∀ b ∈ w.answers, b.ticket ≠ a.ticket)
    (calm : w.server = .listening) : Inv fs { w with answers := answer.toList ++ w.answers } := by
  have grow {n : Nat} {value perm : Word} {page before : Option Nat} :
      Own w.answers n value perm page before → Own (answer.toList ++ w.answers) n value perm page before :=
    fun ⟨a, mem, own⟩ => ⟨a, List.mem_append_right _ mem, own⟩
  have idle {b : EnvPtr} {tag : Option Nat} : ¬ Pending fs { w with answers := answer.toList ++ w.answers } b tag := by
    rintro (⟨blocked, -⟩ | ⟨r, answering⟩)
    · exact nomatch calm.symm.trans blocked
    · exact nomatch calm.symm.trans answering
  refine ⟨inv.awake, inv.quiet, inv.server, fun b n tag _ now => absurd now idle, inv.dstva, inv.before,
    fun b r n before now off => grow (inv.placed b r n before now off), fun x mem => grow (inv.returned x mem), ?_,
    fun b n now => absurd now idle, ?_⟩
  · intro a mem
    rcases List.mem_append.mp mem with new | old
    · exact (fresh a (Option.mem_toList.mp new)).1
    · exact inv.issued a old
  · cases answer with
    | none => exact inv.once
    | some a =>
      refine List.nodup_cons.mpr ⟨fun mem => ?_, inv.once⟩
      obtain ⟨b, old, same⟩ := List.mem_map.mp mem
      exact (fresh a rfl).2 b old same

theorem answered (inv : Inv fs w) {m : Mail} {value perm : Word} {page : Option Nat} (ne : e ≠ fs)
    (sent : Delivered (w.mails e) m fs value perm none page) (listening : w.server = .listening)
    (own : ∀ r n before, w.task e = .waiting r n before →
      ∃ a ∈ w.answers, a.ticket = n ∧ a.value = value ∧ a.perm = pteV ||| perm ∧ a.page = page)
    (on : (w.mails e).recving = true) : Inv fs { w with mails := Function.update w.mails e m } := by
  have mail {b : EnvPtr} (here : b ≠ e) : Function.update w.mails e m b = w.mails b := Function.update_of_ne here _ _
  have idle {b : EnvPtr} {tag : Option Nat} : ¬ Pending fs { w with mails := Function.update w.mails e m } b tag := by
    rintro (⟨blocked, -⟩ | ⟨r, answering⟩)
    · exact nomatch listening.symm.trans blocked
    · exact nomatch listening.symm.trans answering
  refine ⟨fun b nb on' => ?_, fun on' => ?_, inv.server, fun b n tag _ now => absurd now idle,
    fun b r n before now => ?_, fun b r n before now on' => ?_, fun b r n before now off => ?_, inv.returned, inv.issued,
    fun b n now => absurd now idle, inv.once⟩
  · by_cases here : b = e
    · subst here
      exact inv.awake b nb on
    · simp only [mail here] at on'
      exact inv.awake b nb on'
  · simp only [mail ne.symm] at on'
    exact inv.quiet on'
  · by_cases here : b = e
    · subst here
      simp only [Function.update_self, sent.dstva]
      exact inv.dstva b r n before now
    · simp only [mail here]
      exact inv.dstva b r n before now
  · by_cases here : b = e
    · subst here
      simp only [Function.update_self] at on'
      exact absurd (sent.recving.symm.trans on') Bool.false_ne_true
    · simp only [mail here] at on' ⊢
      exact inv.before b r n before now on'
  · by_cases here : b = e
    · subst here
      obtain ⟨a, mem, ticket, value', perm', page'⟩ := own r n before now
      have place := sent.maps
      rw [inv.dstva b r n before now, inv.before b r n before now on] at place
      simp only [Function.update_self]
      exact ⟨a, mem, ticket, value'.trans sent.value.symm, perm'.trans sent.perm.symm, by rw [place, page']⟩
    · simp only [mail here] at off ⊢
      exact inv.placed b r n before now off

end Inv

section Steps

variable {fs e : EnvPtr} {func : ServeFunc σ} {w w' : World σ} {r : Request} {room : Bool}

theorem clientAsk_inv (inv : Inv fs w) (task : w.task e = .sending r) : Inv fs (clientAsk fs e r room w) := by
  have ne := inv.ne_server task (by simp)
  have off := inv.asleep ne task (by simp) (by simp)
  have dead (tickets : Nat) (grows : w.tickets ≤ tickets) :
      Inv fs { w with task := Function.update w.task e .dead, tickets := tickets } :=
    have inv' := inv.setTask (t := .dead) ne off (by simp)
    { inv' with
      issued := fun a mem => lt_of_lt_of_le (inv'.issued a mem) grows
      fresh := fun b n now => ⟨lt_of_lt_of_le (inv'.fresh b n now).1 grows, (inv'.fresh b n now).2⟩ }
  unfold clientAsk
  rcases trySend_cases e (some fs) r.type r.fsreq pteD (some w.tickets) room w.mails with
    ⟨failed, same⟩ | ⟨b, m, page, rfl', on, same, sent, heard, -⟩
  · dsimp only
    rw [same]
    split
    · exact inv
    · exact dead _ (Nat.le_succ _)
  · cases rfl'
    dsimp only
    rw [same]
    have accepted (t : Task) (calm : ∀ r n before, t ≠ .waiting r n before) (asks : ∀ r n, t = .asked r n → some w.tickets = some n) :
        Inv fs { w with mails := Function.update w.mails fs m, task := Function.update w.task e t, tickets := w.tickets + 1 } := by
      refine inv.request _ ne off on sent calm asks (Nat.le_succ _) fun n same => ?_
      cases same
      exact ⟨Nat.le_refl _, Nat.lt_succ_self _⟩
    rw [if_neg heard]
    split
    · exact accepted _ (by simp) fun r n same => by cases same; rfl
    · exact accepted _ (by simp) (by simp)

theorem serveTake_inv (inv : Inv fs w) (server : w.server = .blocked) (off : (w.mails fs).recving = false) :
    Inv fs (serveTake fs func w) := by
  unfold serveTake
  dsimp only
  split
  · rw [← Function.update_eq_self fs w.mails]
    refine inv.serve (w.mails fs) .listening w.files (fun on => ?_) fun b tag now => ?_
    · exact absurd (off.symm.trans on) Bool.false_ne_true
    · rcases now with ⟨blocked, -⟩ | ⟨r, answering⟩
      · cases blocked
      · cases answering
  · split
    · refine inv.serve { w.mails fs with maps := Function.update (w.mails fs).maps reqva none } .listening w.files
        (fun on => ?_) fun b tag now => ?_
      · exact absurd (off.symm.trans on) Bool.false_ne_true
      · rcases now with ⟨blocked, -⟩ | ⟨r, answering⟩
        · cases blocked
        · cases answering
    · refine inv.serve _ _ _ (fun on => ?_) fun b tag now => ?_
      · exact absurd (off.symm.trans on) Bool.false_ne_true
      · rcases now with ⟨blocked, -⟩ | ⟨r, answering⟩
        · cases blocked
        · cases answering
          exact .inl ⟨server, off, rfl, rfl⟩

theorem serveReply_inv {whom : EnvPtr} {tag : Option Nat} {reply : Reply} (inv : Inv fs w)
    (server : w.server = .answering whom tag reply)
    (meets : reply.srcva ≠ 0 → room = true ∧ (w.mails fs).maps reply.srcva ≠ none) : Inv fs (serveReply fs whom tag reply room w) := by
  have off : (w.mails fs).recving = false := by
    by_contra on
    exact nomatch server.symm.trans (inv.quiet (Bool.eq_true_of_not_eq_false on))
  unfold serveReply
  rcases trySend_cases fs (some whom) reply.value reply.srcva reply.perm none room w.mails with
    ⟨failed, same⟩ | ⟨b, m, page, rfl', on, same, sent, heard, full⟩
  · dsimp only
    rw [same]
    split
    · exact inv
    · rw [← Function.update_eq_self fs w.mails]
      refine inv.serve (w.mails fs) .dead w.files (fun on => ?_) fun b tag now => ?_
      · exact absurd (off.symm.trans on) Bool.false_ne_true
      · rcases now with ⟨blocked, -⟩ | ⟨r, answering⟩
        · cases blocked
        · cases answering
  · cases rfl'
    obtain ⟨done, page'⟩ := full meets
    dsimp only
    rw [same, if_neg heard, if_pos done]
    have ne : whom ≠ fs := by
      rintro rfl
      exact absurd (off.symm.trans on) Bool.false_ne_true
    have idle : Inv fs { w with
        mails := Function.update w.mails fs { w.mails fs with maps := Function.update (w.mails fs).maps reqva none }
        server := .listening } := by
      refine inv.serve _ _ w.files (fun on => ?_) fun b tag now => ?_
      · exact absurd (off.symm.trans on) Bool.false_ne_true
      · rcases now with ⟨blocked, -⟩ | ⟨r, answering⟩
        · cases blocked
        · cases answering
    have logged := idle.more (tag.map fun n =>
      { ticket := n, value := reply.value, perm := pteV ||| reply.perm, page := carried (w.mails fs) reply.srcva })
      (fun a is => by
        cases tag with
        | none => cases is
        | some n =>
          cases is
          exact inv.fresh whom n (.inr ⟨reply, server⟩)) rfl
    have got := logged.answered (e := whom) (m := m) ne (by
        simp only [Function.update_of_ne ne]
        exact sent) rfl (fun r n before now => by
        have is := inv.current whom n tag ⟨r, .inr ⟨before, now⟩⟩ (.inr ⟨reply, server⟩)
        subst is
        exact ⟨_, List.mem_cons_self, rfl, rfl, rfl, page'.symm⟩) (by
        simp only [Function.update_of_ne ne]
        exact on)
    simp only [Function.update_comm ne.symm] at got
    unfold World.unmapReq
    simp only [Function.update_of_ne ne.symm]
    exact got

theorem step_inv {op : Op} (inv : Inv fs w) (meets : Undisturbed fs w op) (next : step fs func w op = some w') : Inv fs w' := by
  cases op with
  | fsipc e r =>
    rw [step] at next
    split at next
    · rename_i task
      split at next
      · cases next
      · rename_i ne
        cases next
        exact inv.setTask ne (inv.asleep ne task (by simp) (by simp)) (by simp)
    · cases next
  | ask e room =>
    rw [step] at next
    split at next
    · rename_i r task
      cases next
      exact clientAsk_inv inv task
    · cases next
  | await e =>
    rw [step] at next
    split at next
    · rename_i r n task
      cases next
      have ne := inv.ne_server task (by simp)
      unfold clientAwait blockRecv
      by_cases legal : r.dstva ≠ 0 ∧ isIllegalVa r.dstva
      · rw [if_pos legal]
        exact inv.setTask ne (inv.asleep ne task (by simp) (by simp)) (by simp)
      · rw [if_neg legal]
        exact inv.block ne (.inr ⟨r, n, rfl, rfl, task⟩)
    · cases next
  | resume e =>
    rw [step] at next
    split at next
    · rename_i r n before task
      split at next
      · cases next
      · rename_i off
        cases next
        have off' := Bool.eq_false_of_not_eq_true off
        have inv' := inv.setTask (t := .idle) (inv.ne_server task (by simp)) off' (by simp)
        refine { inv' with returned := fun x mem => ?_ }
        rcases List.mem_cons.mp mem with rfl | mem
        · exact inv.placed e r n before task off'
        · exact inv.returned x mem
    · cases next
  | send e target value srcva perm room =>
    rw [step] at next
    split at next
    · rename_i task
      split at next
      · cases next
      · rename_i ne
        cases next
        rcases trySend_cases e target value srcva perm none room w.mails with ⟨-, same⟩ | ⟨b, m, page, rfl, on, same, sent, -⟩
        · rw [same]
          exact inv
        · rw [same]
          by_cases server : b = fs
          · subst server
            have off := inv.asleep ne task (by simp) (by simp)
            have asked := inv.request (t := .idle) w.tickets ne off on sent (by simp) (by simp) (Nat.le_refl _) (by simp)
            rw [← task, Function.update_eq_self] at asked
            exact asked
          · exact inv.other server sent meets
    · cases next
  | recv e dstva =>
    rw [step] at next
    split at next
    · split at next
      · cases next
      · rename_i ne
        obtain ⟨mails, blocked, rfl⟩ := Option.map_eq_some_iff.mp next
        unfold blockRecv at blocked
        split at blocked <;> cases blocked
        exact inv.block ne (.inl rfl)
    · cases next
  | wake e =>
    rw [step] at next
    split at next
    · rename_i task
      split at next
      · cases next
      · rename_i off
        cases next
        exact inv.setTask (inv.ne_server task (by simp)) (Bool.eq_false_of_not_eq_true off) (by simp)
    · cases next
  | listen =>
    rw [step] at next
    split at next
    · rename_i server
      obtain ⟨mails, blocked, rfl⟩ := Option.map_eq_some_iff.mp next
      unfold blockRecv at blocked
      split at blocked <;> cases blocked
      refine inv.serve _ _ w.files (fun _ => rfl) fun b tag now => ?_
      rcases now with ⟨-, off, -⟩ | ⟨r, answering⟩
      · simp only [Function.update_self] at off
        cases off
      · cases answering
    · cases next
  | take =>
    rw [step] at next
    split at next
    · rename_i server
      split at next
      · cases next
      · rename_i off
        cases next
        exact serveTake_inv inv server (Bool.eq_false_of_not_eq_true off)
    · cases next
  | reply room =>
    rw [step] at next
    split at next
    · rename_i whom tag r server
      cases next
      exact serveReply_inv inv server (meets whom tag r server)
    · cases next

end Steps

theorem start_inv (fs : EnvPtr) (mails : Mails) (files : σ) : Inv fs (start mails files) where
  awake _ _ on := by cases on
  quiet on := by cases on
  server := rfl
  current _ _ _ asking := by
    obtain ⟨r, asked | ⟨before, waiting⟩⟩ := asking
    · cases asked
    · cases waiting
  dstva _ _ _ _ waiting := by cases waiting
  before _ _ _ _ waiting := by cases waiting
  placed _ _ _ _ waiting := by cases waiting
  returned _ mem := by cases mem
  issued _ mem := by cases mem
  fresh _ _ now := by
    rcases now with ⟨blocked, -⟩ | ⟨r, answering⟩
    · cases blocked
    · cases answering
  once := List.nodup_nil

/-- What `fsipc` returned is what the server sent in answer to that request, and the server answered no request twice. -/
def RepliesOwn (w : World σ) : Prop :=
  (∀ x ∈ w.returned, Own w.answers x.ticket x.value x.perm x.page x.before) ∧ (w.answers.map Answer.ticket).Nodup

theorem replies_own {fs : EnvPtr} {func : ServeFunc σ} {mails : Mails} {files : σ} {ops : List Op} {w : World σ}
    (ran : Run (step fs func) (Undisturbed fs) (start mails files) ops w) : RepliesOwn w := by
  have inv := ran.invariant (Inv fs) (start_inv fs mails files) fun _ _ _ before meets next => step_inv before meets next
  exact ⟨inv.returned, inv.once⟩

def emptyMails : Mails := fun _ =>
  { recving := false, dstva := 0, value := 0, sender := 0, perm := 0, maps := fun _ => none, tag := none }

/-- A server that counts its requests and answers with the number. -/
def counting : ServeFunc Word := fun n _ _ maps => (n + 1, maps, ⟨n + 1, 0, 0⟩)

def syncRequest : Request := ⟨6, 0, 0⟩

theorem replies_own_sync : ∃ w, Run (step 1 counting) (Undisturbed 1) (start emptyMails 0)
    [.listen, .fsipc 0 syncRequest, .ask 0 true, .await 0, .take, .reply true, .resume 0] w ∧
    w.returned.map Returned.value = [1] ∧ RepliesOwn w := by
  have asked : Run (step 1 counting) (Undisturbed 1) (start emptyMails 0)
      [.listen, .fsipc 0 syncRequest, .ask 0 true, .await 0, .take] _ :=
    ((((Run.nil.snoc trivial rfl).snoc trivial rfl).snoc trivial rfl).snoc trivial rfl).snoc trivial rfl
  have replied := Run.snoc (i := .reply true) asked (by
    intro whom tag r server carries
    cases server
    exact absurd rfl carries) rfl
  have calm (w : World Word) : Undisturbed 1 w (.resume 0) := trivial
  have ran := Run.snoc (i := .resume 0) replied (calm _) rfl
  exact ⟨_, ran, rfl, replies_own ran⟩

/-- The env 2 sends 99 to the env 0, which waits for the answer to its request. -/
def forgedRun : List Op := [.listen, .fsipc 0 syncRequest, .ask 0 true, .await 0, .send 2 (some 0) 99 0 0 true, .resume 0]

theorem replies_forged : ∃ w, Run (step 1 counting) (fun _ _ => True) (start emptyMails 0) forgedRun w ∧
    w.returned.map Returned.value = [99] ∧ ¬ RepliesOwn w := by
  refine ⟨_, Run.of_exec (fun _ _ _ => trivial) rfl, rfl, ?_⟩
  rintro ⟨own, -⟩
  obtain ⟨a, mem, -⟩ := own _ List.mem_cons_self
  cases mem

end Mos.Fsipc
