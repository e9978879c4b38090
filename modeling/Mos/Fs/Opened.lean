import Mos.Fs.Truncate

namespace Mos.Fs

variable {s : Store} {t u v : Server} {f dir : FilePtr} {new newer : Nat → Prop}

theorem cached_kept (had : Nat → Prop) : KeptByWrite (fun s => ∀ x, had x → s.cache x ≠ none) fun _ => True where
  panic := trivial
  wild := trivial
  asked _ h := h
  loaded _ b h _ _ x cached := update_cached b (h x cached)
  marked _ _ h := h
  written _ _ _ h _ := h
  mapped _ b h _ x cached := update_cached b (h x cached)
  set _ b _ _ h x cached := update_cached b (h x cached)
  given _ _ _ _ _ _ h := h

theorem fileGetBlock_cached (i : Nat) (s : Store) :
    (fileGetBlock f i s).Meets (fun b t => t.cache b ≠ none) (fun _ => True) fun _ => True := by
  refine Result.Meets.any.bind fun b t _ => ?_
  exact ((readBlock_spec b t).mono (fun _ _ both => both.2) (fun _ _ => trivial) fun _ _ => trivial).bind fun _ _ h => h

theorem dirScan_cached (name : List Byte) (n i : Nat) (s : Store) :
    (dirScan dir name n i s).Meets (fun g t => t.cache g.block ≠ none) (fun _ => True) fun _ => True := by
  induction n generalizing i s with
  | zero => trivial
  | succ n ih =>
    refine (fileGetBlock_cached i s).bind fun b t cached => ?_
    split
    · exact setWord_cached cached
    · exact ih (i + 1) t

theorem dirAllocScan_cached (n i : Nat) (s : Store) :
    (dirAllocScan dir n i s).Meets (fun g t => t.cache g.block ≠ none) (fun _ => True) fun _ => True := by
  induction n generalizing i s with
  | zero => exact (fileGetBlock_cached i _).bind fun b t cached => cached
  | succ n ih =>
    refine (fileGetBlock_cached i s).bind fun b t cached => ?_
    split
    · exact cached
    · exact ih (i + 1) t

theorem walkElements_cached (names : List (List Byte)) (dir : Option FilePtr) (cached : s.cache f.block ≠ none) :
    (walkElements dir f names s).Meets (fun w t => ∀ g, w.file = some g → t.cache g.block ≠ none) (fun _ => True)
      fun _ => True := by
  induction names generalizing dir f s with
  | nil =>
    intro g same
    cases same
    exact cached
  | cons name rest ih =>
    unfold walkElements
    split
    · intro g same
      cases same
    · split
      · intro g same
        cases same
      · refine (dirScan_cached name _ 0 s).tested.bind fun r t after => ?_
        cases r with
        | ok g => exact ih _ after
        | error r =>
          intro g same
          split at same <;> cases same

theorem walkPath_cached (path : List Byte) (super : s.cache 1 ≠ none) :
    (walkPath path s).Meets (fun w t => ∀ g, w.file = some g → t.cache g.block ≠ none) (fun _ => True) fun _ => True :=
  walkElements_cached _ _ super

theorem openFind_cached (path : List Byte) (omode : Word) (super : s.cache 1 ≠ none) :
    (openFind path omode s).Meets (fun g t => t.cache g.block ≠ none) (fun _ => True) fun _ => True := by
  unfold openFind
  split
  · refine Result.Meets.bind (P := fun g t => t.cache g.block ≠ none) ?_ fun g t cached => ?_
    · refine (walkPath_cached path super).bind fun w t _ => ?_
      split
      · trivial
      · split
        · trivial
        · split
          · trivial
          · refine (dirAllocScan_cached _ _ t).bind fun g u cached => ?_
            exact setName_kept (cached_kept fun x => x = g.block) w.last (fun x same => same ▸ cached) _ rfl
    · show Store.cache (if omode &&& oMkdir ≠ 0 then t.setField g 33 ftypeDir else t) g.block ≠ none
      split
      · exact setWord_cached cached
      · exact cached
  · refine (walkPath_cached path super).bind fun w t cached => ?_
    split
    · exact cached _ ‹_›
    · trivial

/-- The blocks of the open `File`s are in the cache. -/
structure FilesCached (t : Server) : Prop where
  super : t.fs.cache 1 ≠ none
  opened : ∀ i f, (t.opentab i).file = some f → t.fs.cache f.block ≠ none

/-- What a request does to the open table: a descriptor is open when it was open before with the same file, or when
    it is one of `new`. -/
structure Table (t u : Server) (new : Nat → Prop) : Prop where
  grows : ∀ x, t.fs.cache x ≠ none → u.fs.cache x ≠ none
  files : ∀ j f, (u.opentab j).file = some f → (t.opentab j).file = some f ∨ u.fs.cache f.block ≠ none
  opened : ∀ j, 1 < (u.opentab j).refs →
    1 < (t.opentab j).refs ∧ (u.opentab j).file = (t.opentab j).file ∨ new j

theorem Table.cached (table : Table t u new) (before : FilesCached t) : FilesCached u where
  super := table.grows 1 before.super
  opened j f file := (table.files j f file).elim (fun had => table.grows _ (before.opened j f had)) id

theorem Table.trans (first : Table t u new) (second : Table u v newer) : Table t v fun j => new j ∨ newer j where
  grows x had := second.grows x (first.grows x had)
  files j f file := by
    rcases second.files j f file with before | cached
    · exact (first.files j f before).imp id fun cached => second.grows _ cached
    · exact .inr cached
  opened j isOpen := by
    rcases second.opened j isOpen with ⟨before, same⟩ | isNew
    · rcases first.opened j before with ⟨before', same'⟩ | isNew
      · exact .inl ⟨before', same.trans same'⟩
      · exact .inr (.inl isNew)
    · exact .inr (.inr isNew)

theorem Table.mono (table : Table t u new) (more : ∀ j, new j → newer j) : Table t u newer :=
  { table with opened := fun j isOpen => (table.opened j isOpen).imp id (more j) }

theorem Table.of_fs (same : u.opentab = t.opentab) (grows : ∀ x, t.fs.cache x ≠ none → u.fs.cache x ≠ none) :
    Table t u new where
  grows := grows
  files j f file := .inl (same ▸ file)
  opened j isOpen := by
    rw [same] at isOpen ⊢
    exact .inl ⟨isOpen, rfl⟩

theorem setOpen_self (t : Server) (i : Nat) (o : Open) : (t.setOpen i o).opentab i = o := by simp [Server.setOpen]

theorem setOpen_ne {i j : Nat} (t : Server) (o : Open) (ne : j ≠ i) : (t.setOpen i o).opentab j = t.opentab j := by
  simp [Server.setOpen, ne]

theorem Table.setOpen {i : Nat} {o : Open}
    (file : o.file = (t.opentab i).file ∨ ∀ f, o.file = some f → t.fs.cache f.block ≠ none)
    (refs : 1 < o.refs → 1 < (t.opentab i).refs ∧ o.file = (t.opentab i).file ∨ new i) : Table t (t.setOpen i o) new where
  grows _ had := had
  files j f has := by
    by_cases here : j = i
    · subst here
      rw [setOpen_self] at has
      rcases file with same | cached
      · exact .inl (same.symm.trans has)
      · exact .inr (cached f has)
    · rw [setOpen_ne t o here] at has
      exact .inl has
  opened j isOpen := by
    by_cases here : j = i
    · subst here
      rw [setOpen_self] at isOpen ⊢
      exact refs isOpen
    · rw [setOpen_ne t o here] at isOpen ⊢
      exact .inl ⟨isOpen, rfl⟩

theorem withFs_table {α : Type} {r : Res α}
    (grows : r.Leaves (fun s => ∀ x, t.fs.cache x ≠ none → s.cache x ≠ none) fun _ => True) :
    (t.withFs r).Leaves (fun u => Table t u new ∧ u.opentab = t.opentab) fun _ => True := by
  cases r with
  | ok a s => exact ⟨.of_fs rfl grows, rfl⟩
  | err e s => exact ⟨.of_fs rfl grows, rfl⟩
  | stop cause => trivial

theorem onOpen_table {fileid : Word} {body : FilePtr → Store → Res Reply}
    (grows : ∀ f, (body f t.fs).Leaves (fun s => ∀ x, t.fs.cache x ≠ none → s.cache x ≠ none) fun _ => True) :
    (onOpen fileid body t).Leaves (fun u => Table t u new) fun _ => True := by
  unfold onOpen openLookup
  split
  · exact .of_fs rfl fun _ had => had
  · split
    · exact .of_fs rfl fun _ had => had
    · rw [Result.ok_bind]
      split
      · exact Result.Leaves.mono (withFs_table (grows _)) fun _ both => both.1
      · trivial

theorem openAlloc_table (t : Server) :
    (openAlloc t).Meets (fun i u => Table t u (fun _ => False) ∧ (u.opentab i).refs = 1 ∧ Read t.fs u.fs)
      (fun u => Table t u (fun _ => False) ∧ Read t.fs u.fs) fun _ => True := by
  unfold openAlloc
  split
  · exact ⟨.of_fs rfl fun _ had => had, Read.refl _⟩
  · rename_i i found
    have low : (t.opentab i).refs ≤ 1 := by simpa using List.find?_some found
    split
    · dsimp only
      have read : Read t.fs { t.fs with asked := t.fs.asked + 1 } := ⟨rfl, fun _ had => had, rfl⟩
      split
      · have table : Table (t.putFs { t.fs with asked := t.fs.asked + 1 })
            ((t.putFs { t.fs with asked := t.fs.asked + 1 }).setOpen i { t.opentab i with ff := clearFilefd, refs := 1 })
            fun _ => False := Table.setOpen (.inl rfl) fun no => absurd no (Nat.lt_irrefl 1)
        have before : Table t (t.putFs { t.fs with asked := t.fs.asked + 1 }) fun _ => False := .of_fs rfl read.cached
        refine ⟨(before.trans table).mono fun _ no => no.elim id id, ?_, read⟩
        rw [setOpen_self]
      · exact ⟨.of_fs rfl read.cached, read⟩
    · rename_i some
      refine ⟨Table.setOpen (.inl rfl) fun high => absurd high (by show ¬ 1 < (t.opentab i).refs; omega), ?_, Read.refl _⟩
      rw [setOpen_self]
      show (t.opentab i).refs = 1
      omega

theorem serveOpen_table (path : List Byte) (omode : Word) (super : t.fs.cache 1 ≠ none) :
    (serveOpen path omode t).Meets (fun r u => Table t u fun j => r = .opened j) (fun u => Table t u fun _ => False)
      fun _ => True := by
  refine ((openAlloc_table t).mono (fun _ _ h => h) (fun _ both => both.1) fun _ h => h).bind fun i u alloc => ?_
  obtain ⟨table, refs, read⟩ := alloc
  have find := (openFind_cached path omode (read.cached 1 super)).and
    (Result.Meets.mono (openFind_kept (cached_kept fun x => u.fs.cache x ≠ none) path omode fun _ had => had)
      (fun _ _ h => h) (fun _ h => h) fun _ h => h)
  have merge : ∀ {v w : Server} {new : Nat → Prop}, Table t v (fun _ => False) → Table v w new → Table t w new :=
    fun first second => (first.trans second).mono fun _ both => both.resolve_left id
  have found : (u.withFs (openFind path omode u.fs)).Meets
      (fun f v => Table t v (fun _ => False) ∧ (v.opentab i).refs = 1 ∧ v.fs.cache f.block ≠ none)
      (fun v => Table t v fun _ => False) fun _ => True := by
    cases run : openFind path omode u.fs with
    | ok f s =>
      rw [run] at find
      exact ⟨merge table (.of_fs rfl find.2), refs, find.1⟩
    | err r s =>
      rw [run] at find
      exact merge table (.of_fs rfl find.2)
    | stop cause => trivial
  refine found.bind fun f v after => ?_
  obtain ⟨table, refs, cached⟩ := after
  split
  · exact table
  · have set : Table t (v.setOpen i { v.opentab i with file := some f }) fun _ => False := by
      refine merge table (Table.setOpen (.inr ?_) fun high => absurd high (by rw [refs]; decide))
      intro g same
      cases same
      exact cached
    have grows : Result.Leaves (if omode &&& oTrunc ≠ 0 then fileSetSize f 0 v.fs else .ok () v.fs)
        (fun s => ∀ x, v.fs.cache x ≠ none → s.cache x ≠ none) fun _ => True := by
      split
      · exact fileSetSize_kept (cached_kept fun x => v.fs.cache x ≠ none) trivial 0 fun _ had => had
      · exact fun _ had => had
    refine Result.Meets.bind (P := fun _ w => Table t w (fun _ => False) ∧ w.fs.cache f.block ≠ none) ?_ fun _ w after => ?_
    · refine Result.Meets.mono (withFs_table (t := v.setOpen i _) grows) (fun _ w both => ?_)
        (fun w both => merge set both.1) fun _ h => h
      exact ⟨merge set both.1, both.1.grows _ cached⟩
    · refine merge after.1 (Table.setOpen (.inr ?_) fun _ => .inr rfl)
      intro g same
      cases same
      exact after.2

def openedBy (t : Server) : ServeOp → Option Nat
  | .fsreqOpen path omode =>
    match serveOpen path omode t with
    | .ok (.opened i) _ => some i
    | _ => none
  | _ => none

theorem serveStep_table {op : ServeOp} (super : t.fs.cache 1 ≠ none) (next : serveStep t op = some u) :
    Table t u fun j => openedBy t op = some j := by
  have grow := cached_kept fun x => t.fs.cache x ≠ none
  have widen : ∀ {u : Server}, Table t u (fun _ => False) → Table t u fun j => openedBy t op = some j :=
    fun table => table.mono fun _ no => no.elim
  cases op <;> simp only [serveStep] at next
  case fsreqOpen path omode =>
    have spec := serveOpen_table (t := t) path omode super
    cases run : serveOpen path omode t with
    | ok r v =>
      rw [run] at spec next
      cases next
      refine Table.mono spec fun j same => ?_
      show openedBy t (.fsreqOpen path omode) = some j
      simp only [openedBy, run, same]
    | err r v =>
      rw [run] at spec next
      cases next
      exact Table.mono spec fun _ no => no.elim
    | stop cause =>
      rw [run] at next
      cases next
  case fsreqMap fileid offset =>
    have left : (serveMap fileid offset t).Leaves (fun u => Table t u fun _ => False) fun _ => True := by
      refine Result.Meets.bind (P := fun _ u => Table t u fun _ => False)
        (onOpen_table fun f => reply_kept (fileGetBlock_kept grow _ fun _ had => had) _) fun r u h => ?_
      split
      · exact ⟨h.grows, h.files, h.opened⟩
      · exact h
    exact widen (left.state next)
  case fsreqSetSize fileid size =>
    have left : (serveSetSize fileid size t).Leaves (fun u => Table t u fun _ => False) fun _ => True :=
      onOpen_table fun f => reply_kept (fileSetSize_kept grow trivial size fun _ had => had) _
    exact widen (left.state next)
  case fsreqClose fileid =>
    have left : (serveClose fileid t).Leaves (fun u => Table t u fun _ => False) fun _ => True :=
      onOpen_table fun f => reply_kept (fileClose_kept grow.toKeptByRead fun _ had => had) _
    exact widen (left.state next)
  case fsreqDirty fileid offset =>
    have left : (serveDirty fileid offset t).Leaves (fun u => Table t u fun _ => False) fun _ => True :=
      onOpen_table fun f => reply_kept (fileDirty_kept grow.toKeptByRead offset fun _ had => had) _
    exact widen (left.state next)
  case fsreqRemove path =>
    have left : (serveRemove path t).Leaves (fun u => Table t u fun _ => False) fun _ => True :=
      Result.Leaves.mono (withFs_table (reply_kept (fileRemove_kept grow trivial path fun _ had => had) _)) fun _ both => both.1
    exact widen (left.state next)
  case fsreqSync =>
    have left : (serveSync t).Leaves (fun u => Table t u fun _ => False) fun _ => True :=
      Result.Leaves.mono (withFs_table (reply_kept (fsSync_kept grow.toKeptByRead fun _ had => had) _)) fun _ both => both.1
    exact widen (left.state next)
  case shareFd i =>
    split at next <;> cases next
    exact Table.setOpen (.inl rfl) fun _ => .inl ⟨by omega, rfl⟩
  case dropFd i =>
    split at next <;> cases next
    exact Table.setOpen (.inl rfl) fun _ => .inl ⟨by omega, rfl⟩
  case store b i w =>
    split at next <;> cases next
    exact .of_fs rfl fun x had => setWord_cached had

end Mos.Fs
