import Mos.Fs.Opened

namespace Mos.Fs

variable {strict : Prop} {t u : Server} {s : Store} {role : Nat → Option Owner} {f : FilePtr} {c : Image}

/-- The descriptor that a request carries is open, and its `File` is `f`. -/
structure OpenFile (t : Server) (fileid : Word) (f : FilePtr) : Prop where
  below : fileid.toNat < maxOpen
  shared : 1 < (t.opentab fileid.toNat).refs
  file : (t.opentab fileid.toNat).file = some f

/-- A block whose words are read as pointers, as `File`s or as bits of the bitmap. -/
def Meta (c : Image) (b : Nat) : Prop :=
  b ≤ c.bitmapEnd ∨ ∃ f, Reach c f ∧ (c.indirect f = b ∨ ∃ i, c.Visible f i ∧ c.target f (some i) = b)

/-- What `file_remove` needs for the slot to be blank afterwards: no directory, and no blocks behind the size. -/
structure Removable (f : FilePtr) (c : Image) : Prop where
  type : c.field f 33 = 0
  behind : ∀ i, i < ndirect → roundBlocks (c.field f 32) ≤ i → c.target f (some i) = 0

/-- The requests that keep the owners of the blocks. With `strict` they keep the free slots blank, too. -/
def OwnGuard (strict : Prop) (t : Server) : ServeOp → Prop
  | .fsreqOpen path omode => omode &&& oCreat ≠ 0 → ∀ i u, openAlloc t = .ok i u →
      Extends path u.fs ∧ (omode &&& oMkdir ≠ 0 → Empties path u.fs)
  | .fsreqMap fileid _ => ∀ f, OpenFile t fileid f → Reach t.fs.content f ∧ Live strict f t.fs.content
  | .fsreqSetSize fileid size => ∀ f, OpenFile t fileid f →
      Reach t.fs.content f ∧ Live strict f t.fs.content ∧ SetGuard f size t.fs.content
  | .fsreqRemove path => strict → ∀ w s f, walkPath path t.fs = .ok w s → w.file = some f → f ≠ root → Removable f s.content
  | .store b _ _ => ¬ Meta t.fs.content b
  | _ => True

/-- The tree is sound, and the open `File`s are in the cache. -/
structure Whole (strict : Prop) (t : Server) : Prop extends FilesCached t where
  sound : Sound strict t.fs.content

/-- The server is whole unless a block that is read as pointers or files came with something in it. -/
def WholeUnless (strict : Prop) (t : Server) : Prop := CleanMeta t.fs → Whole strict t

theorem Whole.holds (whole : Whole strict t) (reach : Reach t.fs.content f) (cached : t.fs.cache f.block ≠ none) :
    Holds strict t.fs (ownerOf t.fs.content) f :=
  ⟨whole.super, cached, whole.sound.consistent, whole.sound.consistent.placed reach⟩

theorem Whole.live_root (t : Server) : Live strict root t.fs.content := fun _ no => absurd rfl no

theorem Known.sound (known : Known strict s) (clean : CleanMeta s) : Sound strict s.content := by
  obtain ⟨role, f, holds⟩ := known.resolve_left fun spoiled => spoiled clean
  exact holds.consistent.sound

theorem withFs_meets {α : Type} {r : Res α} {P : α → Store → Prop} {E : Store → Prop} {S : Stop → Prop}
    (h : r.Meets P E S) : (t.withFs r).Meets (fun a v => P a v.fs) (fun v => E v.fs) S := by
  cases r with
  | ok a s => exact h
  | err e s => exact h
  | stop cause => exact h

theorem onOpen_leaves {E : Store → Prop} {fileid : Word} {body : FilePtr → Store → Res Reply} (before : E t.fs)
    (known : ∀ f, OpenFile t fileid f → (body f t.fs).Leaves E fun _ => True) :
    (onOpen fileid body t).Leaves (fun u => E u.fs) fun _ => True := by
  unfold onOpen openLookup
  split
  · exact before
  · rename_i below
    split
    · exact before
    · rename_i shared
      rw [Result.ok_bind]
      split
      · rename_i f file
        exact withFs_kept (known f ⟨Nat.lt_of_not_le below, Nat.lt_of_not_le shared, file⟩)
      · trivial

theorem onOpen_known {fileid : Word} {body : FilePtr → Store → Res Reply} (before : Known strict t.fs)
    (known : ∀ f, OpenFile t fileid f → (body f t.fs).Leaves (Known strict) fun _ => True) :
    (onOpen fileid body t).Leaves (fun u => Known strict u.fs) fun _ => True := onOpen_leaves before known

theorem Holds.known (holds : Holds strict s role f) : Known strict s := .inr ⟨role, f, holds⟩

theorem read_known {α : Type} {r : Res α} (holds : Holds strict s role f) (read : r.Leaves (Read s) fun _ => True) :
    r.Leaves (Known strict) fun _ => True :=
  Result.Leaves.mono read fun _ read => (holds.read read).known

theorem fileGetBlock_known {i : Nat} (holds : Holds strict s role f) (live : Live strict f s.content) :
    (fileGetBlock f i s).Leaves (Known strict) fun _ => True :=
  (fileGetBlock_spec i holds live).mono (fun _ _ after => after.mono fun _ both => ⟨f, both.1.holds⟩)
    (fun _ after => after.mono fun _ failed => ⟨f, failed.1.holds⟩) fun _ h => h

theorem fileSetSize_known {newsize : Word} (holds : Holds strict s role f) (live : Live strict f s.content)
    (guard : SetGuard f newsize s.content) : (fileSetSize f newsize s).Leaves (Known strict) fun _ => True :=
  (fileSetSize_spec holds live guard).mono (fun _ _ ⟨_, resized⟩ => resized.holds.known)
    (fun _ ⟨_, resized⟩ => resized.holds.known) fun _ h => h

theorem fileRemove_known {path : List Byte} (whole : Whole strict t)
    (guard : strict → ∀ w s f, walkPath path t.fs = .ok w s → w.file = some f → f ≠ root → Removable f s.content) :
    (fileRemove path t.fs).Leaves (Known strict) fun _ => True := by
  have walked := walkPath_spec path (Or.inr ⟨_, whole.holds .ofRoot whole.super, Whole.live_root t⟩)
  unfold fileRemove
  cases run : walkPath path t.fs with
  | stop cause => trivial
  | err r s =>
    rw [run] at walked
    exact walked
  | ok w s =>
    rw [run] at walked
    have reached : WalkedTo strict w s := walked
    simp only [Result.ok_bind]
    cases found : w.file with
    | none => exact reached.known
    | some f =>
      rcases reached.file f found with spoiled | ⟨role, holds, live⟩
      · refine Result.Meets.bind (P := fun _ s => ¬ CleanMeta s) ?_ fun _ u spoiled => ?_
        · exact Result.Meets.mono (fileTruncate_kept spoiled_kept trivial 0 spoiled) (fun _ _ h => h) (fun _ h => .inl h)
            fun _ h => h
        · have named : ¬ CleanMeta (u.setNameByte f 0 0) := spoiled
          refine Result.Meets.bind (P := fun _ s => ¬ CleanMeta s) ?_ fun _ v spoiled => ?_
          · exact Result.Meets.mono (fileFlush_kept spoiled_kept.toKeptByRead named) (fun _ _ h => h) (fun _ h => .inl h)
              fun _ h => h
          · exact Result.Meets.mono (flushDir_kept spoiled_kept.toKeptByRead spoiled) (fun _ _ h => .inl h)
              (fun _ h => .inl h) fun _ h => h
      · refine ((fileTruncate_spec holds live (Nat.zero_le _)).mono (fun _ _ h => h) (fun _ no => no.elim)
          fun _ h => h).bind fun _ u cut => ?_
        obtain ⟨role', resized, gone, indirect⟩ := cut
        have blank : strict → f ≠ root → u.content.Blank f := by
          intro isStrict notRoot
          have removable := guard isStrict w s f run found notRoot
          have noIndirect : u.content.target f none = 0 := indirect (Nat.zero_le _)
          refine ⟨resized.size, resized.type.trans removable.type, fun p => ?_⟩
          cases p with
          | none => exact noIndirect
          | some i =>
            by_cases low : i < ndirect
            · by_cases inside : i < roundBlocks (s.content.field f 32)
              · exact gone i (Nat.zero_le _) inside
              · rcases resized.target (some i) with zero | same
                · exact zero
                · exact same.trans (removable.behind i low (Nat.le_of_not_lt inside))
            · exact Image.target_of_no_indirect noIndirect (Nat.le_of_not_lt low)
        obtain ⟨after, _⟩ := resized.holds.setOther (k := 0)
          (v := (u.field f 0 &&& ~~~(0xff#32 <<< 0)) ||| (0 : Byte).setWidth 32 <<< 0) (by decide) (by decide)
          fun isStrict notRoot _ => blank isStrict notRoot
        have named : Holds strict (u.setNameByte f 0 0) role' f := after
        have flushed := fileFlush_kept (f := f) (read_kept (u.setNameByte f 0 0)) (Read.refl _)
        refine Result.Meets.bind (P := fun _ v => Read (u.setNameByte f 0 0) v)
          (Result.Meets.mono flushed (fun _ _ h => h) (fun v read => (named.read read).known) fun _ h => h)
          fun _ v read => ?_
        exact Result.Meets.mono (flushDir_kept (f := f) (read_kept (u.setNameByte f 0 0)) read)
          (fun _ w read => (named.read read).known) (fun w read => (named.read read).known) fun _ h => h

theorem trunc_spec {omode : Word} {X : Image → Prop} (held : Held strict f (fun c => Live strict f c ∧ X c) s)
    (cut : ∀ c c', X c → c'.field f 32 = 0 → c'.field f 33 = c.field f 33 →
      (∀ p, c'.target f p = 0 ∨ c'.target f p = c.target f p) → X c') :
    (if omode &&& oTrunc ≠ 0 then fileSetSize f 0 s else .ok () s).Meets (fun _ u => Held strict f X u)
      (fun u => Held strict f (fun _ => True) u) fun _ => True := by
  split
  · rcases held with spoiled | ⟨role, holds, live, met⟩
    · exact Result.Meets.mono (fileSetSize_kept spoiled_kept trivial 0 spoiled) (fun _ _ h => .inl h) (fun _ h => .inl h)
        fun _ h => h
    · refine (fileSetSize_spec holds live (SetGuard.zero f _)).mono (fun _ u after => ?_) (fun u after => ?_) fun _ h => h
      · obtain ⟨role', resized⟩ := after
        exact .inr ⟨role', resized.holds, cut _ _ met resized.size resized.type resized.target⟩
      · obtain ⟨role', resized⟩ := after
        exact .inr ⟨role', resized.holds, trivial⟩
  · exact held.mono fun c both => both.2

theorem serveOpen_spec {path : List Byte} {omode : Word} (whole : Whole strict t)
    (guard : OwnGuard strict t (.fsreqOpen path omode)) :
    (serveOpen path omode t).Meets
      (fun r v => Known strict v.fs ∧ ∀ i, r = .opened i → strict → omode &&& oCreat ≠ 0 → CleanMeta v.fs →
        ∃ f, (v.opentab i).file = some f ∧ Pristine omode f v.fs.content)
      (fun v => Known strict v.fs) fun _ => True := by
  have holds := whole.holds .ofRoot whole.super
  unfold serveOpen
  have alloc := openAlloc_table t
  cases run : openAlloc t with
  | stop cause => trivial
  | err r u =>
    rw [run] at alloc
    exact (holds.read alloc.2).known
  | ok i u =>
    rw [run] at alloc
    have held : Held strict root (Live strict root) u.fs :=
      .inr ⟨_, holds.read alloc.2.2, fun _ no => absurd rfl no⟩
    rw [Result.ok_bind]
    refine (withFs_meets (openFind_spec (fun creat => guard creat i u run) held)).bind fun f v held => ?_
    split
    · exact held.known
    · refine ((withFs_meets (trunc_spec held fun c c' pristine size type target isStrict creat => ?_)).mono
        (fun _ _ h => h) (fun w held => Held.known held) fun _ h => h).bind fun _ w held => ?_
      · have before := pristine isStrict creat
        exact ⟨size, fun p => (target p).elim id fun same => same.trans (before.target p), type.trans before.type⟩
      refine ⟨held.known, fun j opened isStrict creat clean => ?_⟩
      obtain ⟨role, holds, pristine⟩ := held.resolve_left fun spoiled => spoiled clean
      cases opened
      exact ⟨f, by simp [Server.setOpen], pristine isStrict creat⟩

theorem store_sound {b i : Nat} {v : Word} (sound : Sound strict s.content) (plain : ¬ Meta s.content b) :
    Sound strict (s.setWord b i v).content := by
  have consistent := sound.consistent
  have high : s.content.bitmapEnd < b := Nat.lt_of_not_le fun low => plain (.inl low)
  have stored : Consistent strict (s.setWord b i v).content (ownerOf s.content) := by
    refine consistent.store high (fun o owner => ?_) fun x ne => content_setWord_ne ne
    obtain ⟨f, p, d⟩ := o
    obtain ⟨reach, target, nonzero⟩ := ownerOf_some owner
    obtain ⟨d', owner', flag⟩ := sound.ownerOf_target reach (target.symm ▸ nonzero)
    rw [target] at owner'
    cases owner.symm.trans owner'
    refine ⟨fun indirect => ?_, Bool.eq_false_iff.mpr fun directory => ?_⟩
    · cases indirect
      exact plain (.inr ⟨f, reach, .inl target⟩)
    · obtain ⟨j, rfl, visible⟩ := flag.mp directory
      exact plain (.inr ⟨f, reach, .inr ⟨j, visible, target⟩⟩)
  exact stored.sound

/-- A request or a store that meets the guard leaves a sound tree, unless a block came with something in it. -/
theorem serveStep_sound {op : ServeOp} (whole : Whole strict t) (guard : OwnGuard strict t op)
    (next : serveStep t op = some u) (clean : CleanMeta u.fs) : Sound strict u.fs.content := by
  have root_holds : Holds strict t.fs (ownerOf t.fs.content) root := whole.holds .ofRoot whole.super
  have holds : ∀ {fileid f}, OpenFile t fileid f → Reach t.fs.content f → Holds strict t.fs (ownerOf t.fs.content) f :=
    fun file reach => whole.holds reach (whole.opened _ _ file.file)
  have done : ∀ {r : SRes Reply}, r.Leaves (fun v => Known strict v.fs) (fun _ => True) → r.state = some u →
      Sound strict u.fs.content := fun left state => (left.state state).sound clean
  cases op <;> simp only [serveStep] at next
  case fsreqOpen path omode =>
    exact done ((serveOpen_spec whole guard).mono (fun _ _ both => both.1) (fun _ h => h) fun _ h => h) next
  case fsreqMap fileid offset =>
    refine done (Result.Meets.bind (P := fun _ v => Known strict v.fs) (onOpen_known root_holds.known fun f file => ?_)
      fun r v h => ?_) next
    · obtain ⟨reach, live⟩ := guard f file
      exact reply_kept (fileGetBlock_known (holds file reach) live) _
    · split
      · exact h
      · exact h
  case fsreqSetSize fileid size =>
    refine done (onOpen_known root_holds.known fun f file => reply_kept ?_ _) next
    obtain ⟨reach, live, fits⟩ := guard f file
    exact fileSetSize_known (holds file reach) live fits
  case fsreqClose fileid =>
    exact done (onOpen_known root_holds.known fun f file =>
      reply_kept (read_known root_holds (fileClose_kept (read_kept _) (Read.refl _))) _) next
  case fsreqDirty fileid offset =>
    exact done (onOpen_known root_holds.known fun f file =>
      reply_kept (read_known root_holds (fileDirty_kept (read_kept _) offset (Read.refl _))) _) next
  case fsreqRemove path => exact done (withFs_kept (reply_kept (fileRemove_known whole guard) _)) next
  case fsreqSync =>
    exact done (withFs_kept (reply_kept (read_known root_holds (fsSync_kept (read_kept _) (Read.refl _))) _)) next
  case shareFd i =>
    split at next <;> cases next
    exact whole.sound
  case dropFd i =>
    split at next <;> cases next
    exact whole.sound
  case store b i w =>
    split at next <;> cases next
    exact store_sound whole.sound guard

theorem serveStep_whole {op : ServeOp} (before : WholeUnless strict t) (guard : OwnGuard strict t op)
    (next : serveStep t op = some u) : WholeUnless strict u := by
  intro clean
  have whole : Whole strict t := before (by
    by_contra spoiled
    exact serveStep_kept spoiled_kept trivial op spoiled next clean)
  exact ⟨(serveStep_table whole.super next).cached whole.toFilesCached, serveStep_sound whole guard next clean⟩

end Mos.Fs
