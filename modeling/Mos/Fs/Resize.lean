import Mos.Fs.Requests

namespace Mos.Fs

variable {s : Store} {t t0 : Server} {f : FilePtr} {n : Word} {c c' : Image} {role : Nat → Option Owner} {i j : Nat}

/-- The blocks of `n` bytes. -/
def ceilBlocks (n : Word) : Nat := (n.toNat + 4095) / 4096

/-- No block at or behind the end of `n` bytes is mapped. -/
def Sized (f : FilePtr) (n : Word) (c : Image) : Prop := ∀ i, ceilBlocks n ≤ i → c.target f (some i) = 0

/-- The `File` and its indirect block lie in two blocks that are not of the bitmap. -/
structure Distinct (f : FilePtr) (c : Image) : Prop where
  file : ¬ c.IsBitmap f.block
  indirect : c.indirect f ≠ 0 → c.indirect f ≠ f.block ∧ ¬ c.IsBitmap (c.indirect f)

/-- What `file_clear_block` needs for block `i`: it can be found without a new block, `read_block` does not panic at
    the indirect block, and the block is not the indirect block itself. -/
structure Clearable (s : Store) (f : FilePtr) (i : Nat) : Prop extends Findable s f i where
  readable : ndirect ≤ i → ¬ Unreadable s (s.content.indirect f)
  other : s.content.target f (some i) ≠ 0 → s.content.target f (some i) ≠ s.content.indirect f

/-- `file_truncate` can clear all blocks between the new size and the old one. -/
structure Cuttable (f : FilePtr) (n : Word) (s : Store) : Prop where
  distinct : Distinct f s.content
  clear : ∀ i, newBlocks n ≤ i → i < roundBlocks (s.content.field f 32) → Clearable s f i

/-- Each block mapped behind the new end goes when the file is truncated: it lies before the old end, or it goes with
    the indirect block. -/
def Covered (f : FilePtr) (n : Word) (c : Image) : Prop :=
  ∀ i, ceilBlocks n ≤ i → c.target f (some i) ≠ 0 →
    n < c.field f 32 ∧ (i < roundBlocks (c.field f 32) ∨ newBlocks n ≤ ndirect ∧ ndirect ≤ i)

theorem newBlocks_le (n : Word) : newBlocks n ≤ ceilBlocks n := by
  unfold newBlocks ceilBlocks roundBlocks
  split
  · exact Nat.zero_le _
  · have masked : ((n + (blockSize - 1)) &&& ~~~(blockSize - 1)).toNat ≤ (n + (blockSize - 1)).toNat := by
      rw [BitVec.toNat_and]
      exact Nat.and_le_left
    have sum : (n + (blockSize - 1)).toNat ≤ n.toNat + 4095 := by
      rw [BitVec.toNat_add]
      exact Nat.mod_le _ _
    omega

theorem Distinct.apart (distinct : Distinct f c) : Apart c (fun _ => some ⟨f, none, false⟩) f where
  file := distinct.file
  owned := .inr nofun
  indirect held := ⟨(distinct.indirect held).1, (distinct.indirect held).2, nofun⟩

theorem Dropped.nblocks {p : Option Nat} (dropped : Dropped role f p c c') : c'.nblocks = c.nblocks := by
  rcases dropped with ⟨same, none⟩ | detached
  · rw [same]
  · refine congrArg BitVec.toNat (detached.wrote.same 1 1 (by unfold Image.IsBitmap; omega) (.inl rfl) fun here => ?_)
    have word := congrArg Prod.snd here
    cases p with
    | none =>
      simp only [Image.cell] at word
      omega
    | some i =>
      unfold Image.cell at word
      by_cases low : i < ndirect
      · simp only [if_pos low] at word
        omega
      · simp only [if_neg low] at word
        unfold ndirect at low
        omega

theorem Dropped.parts {p : Option Nat} (dropped : Dropped role f p c c') (apart : Apart c role f) : Apart c' role f where
  file isBitmap := by
    unfold Image.IsBitmap Image.bitmapEnd at isBitmap
    rw [dropped.nblocks] at isBitmap
    exact apart.file isBitmap
  owned := apart.owned
  indirect held := by
    have same : c'.indirect f = c.indirect f := (dropped.target apart none).resolve_left held
    rw [same] at held ⊢
    obtain ⟨other, plain, owned⟩ := apart.indirect held
    refine ⟨other, fun isBitmap => ?_, owned⟩
    unfold Image.IsBitmap Image.bitmapEnd at isBitmap
    rw [dropped.nblocks] at isBitmap
    exact plain isBitmap

theorem Dropped.indirect (dropped : Dropped role f (some i) c c') (apart : Apart c role f) :
    c'.indirect f = c.indirect f := by
  rcases dropped with ⟨same, none⟩ | detached
  · rw [same]
  · exact detached.wrote.indirect apart detached.has nofun

theorem Cleared.clearable {t : Store} (super : s.cache 1 ≠ none) (apart : Apart s.content role f)
    (cleared : Cleared role f i s t) (this : Clearable s f i) (next : Clearable s f j) : Clearable t f j := by
  have dropped := cleared.content
  have indirect := dropped.indirect apart
  have size := dropped.nblocks
  refine ⟨⟨?_, fun high => ?_⟩, fun high unreadable => next.readable high ?_, fun held => ?_⟩
  · unfold Image.HasCell
    rw [indirect]
    exact next.has
  · rw [indirect]
    rcases cleared.memory with ⟨memory, asked⟩ | cached
    · rw [memory, asked]
      exact (next.memory high).imp (cleared.cached _) id
    · exact .inl cached
  · rw [indirect] at unreadable
    unfold Unreadable at unreadable ⊢
    rw [nblocks_content (cleared.cached 1 super), size] at unreadable
    rw [nblocks_content super]
    by_cases outside : s.content.nblocks ≤ s.content.indirect f
    · exact .inl outside
    · have isFree := unreadable.resolve_left outside
      rcases dropped with ⟨same, none⟩ | detached
      · exact .inr (same ▸ isFree)
      · refine .inr ((detached.bits _ (Nat.lt_of_not_le outside) isFree).resolve_right fun same => ?_)
        exact this.other detached.held same.symm
  · rw [indirect]
    have same := (dropped.target apart (some j)).resolve_left held
    rw [same] at held ⊢
    exact next.other held

theorem fileTruncate_returns (super : s.cache 1 ≠ none) (cached : s.cache f.block ≠ none) (cuttable : Cuttable f n s) :
    (fileTruncate f n s).Meets
      (fun _ t => (∀ p, t.content.target f p = 0 ∨ t.content.target f p = s.content.target f p) ∧
        (∀ i, newBlocks n ≤ i → i < roundBlocks (s.content.field f 32) → t.content.target f (some i) = 0) ∧
        (newBlocks n ≤ ndirect → t.content.target f none = 0) ∧
        t.cache f.block ≠ none ∧ (t.content.indirect f ≠ 0 → t.content.indirect f ≠ f.block))
      (fun _ => False) fun _ => False := by
  have apart := cuttable.distinct.apart
  have clear := cuttable.clear
  generalize (fun _ => some ⟨f, none, false⟩ : Nat → Option Owner) = role at apart
  have size : s.fSize f = s.content.field f 32 := field_content cached 32
  unfold fileTruncate
  rw [size]
  generalize newBlocks n = new at clear ⊢
  generalize roundBlocks (s.content.field f 32) = old at clear ⊢
  have loop : (Result.forRange (old - new) (fun k s => panicOnClear (fileClearBlock f (new + k) s)) s).Meets
      (fun _ t => t.cache f.block ≠ none ∧ Apart t.content role f ∧ Cut f new (new + (old - new)) s.content t.content)
      (fun _ => False) fun _ => False := by
    refine Result.Meets.mono (Result.Meets.forRange (fun k t => t.cache 1 ≠ none ∧ t.cache f.block ≠ none ∧
        Apart t.content role f ∧ Cut f new (new + k) s.content t.content ∧ ∀ i, new ≤ i → i < old → Clearable t f i)
      ⟨super, cached, apart, ⟨fun _ _ => rfl, fun _ => .inr rfl, fun i low high => by omega⟩, clear⟩
      fun k t below before => ?_) (fun _ _ h => ⟨h.2.1, h.2.2.1, h.2.2.2.1⟩) (fun _ h => h) fun _ h => h
    obtain ⟨super, cached, apart, cut, clear⟩ := before
    have this := clear (new + k) (Nat.le_add_right _ _) (by omega)
    have cleared := fileClearBlock_spec (new + k) cached apart
    cases run : fileClearBlock f (new + k) t with
    | ok u v =>
      rw [run] at cleared
      have done := cleared.1
      exact ⟨done.cached 1 super, done.cached _ cached, done.content.parts apart, done.content.round apart cut,
        fun i low high => done.clearable super apart this (clear i low high)⟩
    | err r v =>
      rw [run] at cleared
      exact cleared.2 this.toFindable
    | stop cause =>
      rw [run] at cleared
      exact this.readable cleared.2.1 cleared.2.2
  refine loop.bind fun _ t cleared => ?_
  obtain ⟨cached, apart, cut⟩ := cleared
  have cut : Cut f new old s.content t.content := { cut with gone := fun i low high => cut.gone i low (by omega) }
  have dropped : (if new ≤ ndirect then dropIndirect f t else t).cache f.block ≠ none ∧
      Apart (if new ≤ ndirect then dropIndirect f t else t).content role f ∧
      Cut f new old s.content (if new ≤ ndirect then dropIndirect f t else t).content ∧
      (new ≤ ndirect → (if new ≤ ndirect then dropIndirect f t else t).content.target f none = 0) := by
    split
    · have dropped := dropIndirect_dropped cached apart
      exact ⟨dropIndirect_cached cached, dropped.parts apart, dropped.cut apart cut, fun _ => dropped.target_self apart⟩
    · rename_i no
      exact ⟨cached, apart, cut, fun yes => absurd yes no⟩
  obtain ⟨cached, apart, cut, gone⟩ := dropped
  generalize (if new ≤ ndirect then dropIndirect f t else t) = u at cached apart cut gone
  have content : (u.setField f 32 n).content = u.content.set f.block (f.word + 32) n := content_setWord cached
  have target : ∀ p, (u.setField f 32 n).content.target f p = u.content.target f p := by
    rw [content]
    exact Image.setField_target (fun held => (apart.indirect held).1) (by decide)
  refine ⟨fun p => ?_, fun i low high => (target _).trans (cut.gone i low high), fun few => (target _).trans (gone few),
    setWord_cached cached, fun held => ?_⟩
  · rw [target]
    exact cut.target p
  · have same : (u.setField f 32 n).content.indirect f = u.content.indirect f := target none
    rw [same] at held ⊢
    exact (apart.indirect held).1

theorem fileSetSize_sized (super : s.cache 1 ≠ none) (cached : s.cache f.block ≠ none) (distinct : Distinct f s.content)
    (covered : Covered f n s.content) (cuttable : n < s.content.field f 32 → Cuttable f n s) :
    (fileSetSize f n s).Meets (fun _ t => Sized f n t.content) (fun t => Sized f n t.content) (· ≠ .truncate) := by
  have size : s.fSize f = s.content.field f 32 := field_content cached 32
  unfold fileSetSize
  refine Result.Meets.bind (P := fun _ t => Sized f n (t.setField f 32 n).content) ?_ fun _ t sized => ?_
  · have stored : ∀ {t : Store}, t.cache f.block ≠ none → (t.content.indirect f ≠ 0 → t.content.indirect f ≠ f.block) →
        Sized f n t.content → Sized f n (t.setField f 32 n).content := by
      intro t cached apart sized i high
      have content : (t.setField f 32 n).content = t.content.set f.block (f.word + 32) n := content_setWord cached
      rw [content, Image.setField_target apart (by decide)]
      exact sized i high
    split
    · rename_i smaller
      rw [size] at smaller
      refine (fileTruncate_returns super cached (cuttable smaller)).mono (fun _ t after => ?_) (fun _ no => no.elim)
        fun _ no => no.elim
      obtain ⟨target, gone, indirect, cached, apart⟩ := after
      refine stored cached apart fun i high => ?_
      by_contra held
      have same := (target (some i)).resolve_left held
      rw [same] at held
      rcases (covered i high held).2 with before | ⟨few, deep⟩
      · exact held (same ▸ gone i (Nat.le_trans (newBlocks_le n) high) before)
      · exact held (same ▸ Image.target_of_no_indirect (indirect few) deep)
    · rename_i larger
      rw [size] at larger
      refine stored cached (fun held => (distinct.indirect held).1) fun i high => ?_
      by_contra held
      exact larger (covered i high held).1
  · have flushed : (flushDir f (t.setField f 32 n)).Leaves (Read (t.setField f 32 n)) fun _ => True :=
      flushDir_kept (read_kept _) (Read.refl _)
    have plain : (flushDir f (t.setField f 32 n)).Leaves (fun _ => True) (· ≠ .truncate) :=
      flushDir_kept ⟨nofun, nofun, fun _ _ => trivial, fun _ _ _ _ _ => trivial, fun _ _ _ => trivial,
        fun _ _ _ _ _ => trivial⟩ trivial
    have kept : ∀ u, Read (t.setField f 32 n) u → Sized f n u.content := fun u read => read.content ▸ sized
    cases run : flushDir f (t.setField f 32 n) with
    | ok a u =>
      rw [run] at flushed
      exact kept u flushed
    | err r u =>
      rw [run] at flushed
      exact kept u flushed
    | stop cause =>
      rw [run] at plain
      exact plain

/-- Request `op` calls `file_set_size(f, n)` in the store `s`. -/
inductive SetsSize (t : Server) : ServeOp → FilePtr → Word → Store → Prop where
  | ofSetSize {fileid size : Word} {f : FilePtr} (file : OpenFile t fileid f) : SetsSize t (.fsreqSetSize fileid size) f size t.fs
  | ofOpen {path : List Byte} {omode : Word} {i : Nat} {u : Server} {f : FilePtr} {s : Store}
      (alloc : openAlloc t = .ok i u) (find : openFind path omode u.fs = .ok f s)
      (isDir : ¬ (omode &&& oMkdir ≠ 0 ∧ s.fType f ≠ ftypeDir)) (trunc : omode &&& oTrunc ≠ 0) :
      SetsSize t (.fsreqOpen path omode) f 0 s

/-- Request `op` calls `file_truncate(f, n)` in the store `s`. -/
inductive Truncates (t : Server) : ServeOp → FilePtr → Word → Store → Prop where
  | ofSize {op : ServeOp} {f : FilePtr} {n : Word} {s : Store} (sets : SetsSize t op f n s) (less : n < s.fSize f) :
      Truncates t op f n s
  | ofRemove {path : List Byte} {w : Walked} {f : FilePtr} {s : Store} (walked : walkPath path t.fs = .ok w s)
      (found : w.file = some f) : Truncates t (.fsreqRemove path) f 0 s

structure SizeGuard (t : Server) (op : ServeOp) : Prop where
  sets : ∀ f n s, SetsSize t op f n s → Distinct f s.content ∧ Covered f n s.content
  cuts : ∀ f n s, Truncates t op f n s → Cuttable f n s

/-- Why the server never returns from a request. -/
def serveCause (t : Server) : ServeOp → Option Stop
  | .fsreqOpen path omode => (serveOpen path omode t).cause
  | .fsreqMap fileid offset => (serveMap fileid offset t).cause
  | .fsreqSetSize fileid size => (serveSetSize fileid size t).cause
  | .fsreqClose fileid => (serveClose fileid t).cause
  | .fsreqDirty fileid offset => (serveDirty fileid offset t).cause
  | .fsreqRemove path => (serveRemove path t).cause
  | .fsreqSync => (serveSync t).cause
  | _ => none

theorem SetsSize.cached {op : ServeOp} (before : FilesCached t) (sets : SetsSize t op f n s) :
    s.cache 1 ≠ none ∧ s.cache f.block ≠ none := by
  cases sets with
  | ofSetSize file => exact ⟨before.super, before.opened _ _ file.file⟩
  | @ofOpen path omode i u f s alloc find isDir trunc =>
    have table := openAlloc_table t
    rw [alloc] at table
    have super := table.1.grows 1 before.super
    have here := openFind_cached path omode super
    have grows := openFind_kept (cached_kept fun x => x = 1) path omode fun x (same : x = 1) => same ▸ super
    rw [find] at here grows
    exact ⟨grows 1 rfl, here⟩

theorem Truncates.cached {op : ServeOp} (before : FilesCached t) (cuts : Truncates t op f n s) :
    s.cache 1 ≠ none ∧ s.cache f.block ≠ none := by
  cases cuts with
  | ofSize sets less => exact sets.cached before
  | @ofRemove path w f s walked found =>
    have here := walkPath_cached path before.super
    have grows := walkPath_kept (cached_kept fun x => x = 1) path fun x (same : x = 1) => same ▸ before.super
    rw [walked] at here grows
    exact ⟨grows 1 rfl, here f found⟩

theorem Truncates.returns {op : ServeOp} (before : FilesCached t) (guard : SizeGuard t op) (cuts : Truncates t op f n s) :
    ∃ u, fileTruncate f n s = .ok () u := by
  obtain ⟨super, cached⟩ := cuts.cached before
  have spec := fileTruncate_returns super cached (guard.cuts f n s cuts)
  cases run : fileTruncate f n s with
  | ok a u => exact ⟨u, rfl⟩
  | err r u =>
    rw [run] at spec
    exact spec.elim
  | stop cause =>
    rw [run] at spec
    exact spec.elim

theorem SetsSize.sized {op : ServeOp} (before : FilesCached t) (guard : SizeGuard t op) (sets : SetsSize t op f n s) :
    (fileSetSize f n s).Meets (fun _ t => Sized f n t.content) (fun t => Sized f n t.content) (· ≠ .truncate) := by
  obtain ⟨super, cached⟩ := sets.cached before
  obtain ⟨distinct, covered⟩ := guard.sets f n s sets
  refine fileSetSize_sized super cached distinct covered fun less => guard.cuts f n s (.ofSize sets ?_)
  rw [show s.fSize f = s.content.field f 32 from field_content cached 32]
  exact less

theorem calm_kept : KeptByWrite (fun _ => True) (· ≠ .truncate) where
  panic := nofun
  wild := nofun
  asked _ _ := trivial
  loaded _ _ _ _ _ := trivial
  marked _ _ _ := trivial
  written _ _ _ _ _ := trivial
  mapped _ _ _ _ := trivial
  set _ _ _ _ _ := trivial
  given _ _ _ _ _ _ _ := trivial

theorem onOpen_calm {fileid : Word} {body : FilePtr → Store → Res Reply}
    (calm : ∀ f, OpenFile t fileid f → (body f t.fs).Leaves (fun _ => True) (· ≠ .truncate)) :
    (onOpen fileid body t).Leaves (fun _ => True) (· ≠ .truncate) := by
  unfold onOpen openLookup
  split
  · trivial
  · rename_i below
    split
    · trivial
    · rename_i shared
      rw [Result.ok_bind]
      split
      · rename_i f file
        exact withFs_kept (calm f ⟨Nat.lt_of_not_le below, Nat.lt_of_not_le shared, file⟩)
      · exact calm_kept.wild

theorem serveOpen_calm {path : List Byte} {omode : Word} (before : FilesCached t) (guard : SizeGuard t (.fsreqOpen path omode)) :
    (serveOpen path omode t).Leaves (fun _ => True) (· ≠ .truncate) := by
  unfold serveOpen
  have alloc : (openAlloc t).Leaves (fun _ => True) (· ≠ .truncate) := openAlloc_kept (t := t) calm_kept.toKeptByRead trivial
  cases run : openAlloc t with
  | stop cause => rw [run] at alloc; exact alloc
  | err r u => trivial
  | ok i u =>
    rw [Result.ok_bind]
    have find : (openFind path omode u.fs).Leaves (fun _ => True) (· ≠ .truncate) := openFind_kept calm_kept path omode trivial
    cases found : openFind path omode u.fs with
    | stop cause => rw [found] at find; exact find
    | err r s => trivial
    | ok f s =>
      simp only [Server.withFs, Result.ok_lift, Result.ok_bind]
      split
      · trivial
      · rename_i isDir
        refine Result.Meets.bind (P := fun _ _ => True) (withFs_meets (P := fun _ _ => True) (E := fun _ => True) ?_)
          fun _ _ _ => trivial
        split
        · rename_i trunc
          exact ((SetsSize.ofOpen run found isDir trunc).sized before guard).mono (fun _ _ _ => trivial)
            (fun _ _ => trivial) fun _ h => h
        · trivial

theorem serveRemove_calm {path : List Byte} (before : FilesCached t) (guard : SizeGuard t (.fsreqRemove path)) :
    (serveRemove path t).Leaves (fun _ => True) (· ≠ .truncate) := by
  refine withFs_kept (E := fun _ => True) (reply_kept ?_ _)
  unfold fileRemove
  have walk : (walkPath path t.fs).Leaves (fun _ => True) (· ≠ .truncate) := walkPath_kept calm_kept path trivial
  cases walked : walkPath path t.fs with
  | stop cause => rw [walked] at walk; exact walk
  | err r s => trivial
  | ok w s =>
    rw [Result.ok_bind]
    cases found : w.file with
    | none => trivial
    | some f =>
      obtain ⟨u, cut⟩ := (Truncates.ofRemove walked found).returns before guard
      dsimp only
      rw [cut, Result.ok_bind]
      exact Result.Meets.bind (fileFlush_kept calm_kept.toKeptByRead trivial) fun _ _ h => flushDir_kept calm_kept.toKeptByRead h

theorem serveCause_calm {op : ServeOp} (before : FilesCached t) (guard : SizeGuard t op) : serveCause t op ≠ some .truncate := by
  intro stopped
  have calm : ∀ {r : SRes Reply}, r.Leaves (fun _ => True) (· ≠ .truncate) → r.cause ≠ some .truncate :=
    fun left same => left.cause same rfl
  cases op <;> simp only [serveCause] at stopped
  case fsreqOpen path omode => exact calm (serveOpen_calm before guard) stopped
  case fsreqMap fileid offset => exact calm (serveMap_kept (t := t) calm_kept fileid offset trivial) stopped
  case fsreqSetSize fileid size =>
    refine calm (onOpen_calm fun f file => reply_kept ?_ _) stopped
    exact ((SetsSize.ofSetSize file).sized before guard).mono (fun _ _ _ => trivial) (fun _ _ => trivial) fun _ h => h
  case fsreqClose fileid =>
    exact calm (onOpen_calm fun f _ => reply_kept (fileClose_kept calm_kept.toKeptByRead trivial) _) stopped
  case fsreqDirty fileid offset =>
    exact calm (onOpen_calm fun f _ => reply_kept (fileDirty_kept calm_kept.toKeptByRead offset trivial) _) stopped
  case fsreqRemove path => exact calm (serveRemove_calm before guard) stopped
  case fsreqSync => exact calm (withFs_kept (E := fun _ => True) (reply_kept (fsSync_kept calm_kept.toKeptByRead trivial) _)) stopped
  all_goals cases stopped

theorem run_cached {guard : Server → ServeOp → Prop} {disk : Image} {memory : Nat → Bool} {ops : List ServeOp}
    (booted : serverInit disk memory = some t0) (run : Run serveStep guard t0 ops t) : FilesCached t := by
  refine run.invariant FilesCached ⟨(serverInit_booted booted).1.super, fun i f file => ?_⟩ fun t op u before _ next =>
    (serveStep_table before.super next).cached before
  rw [(serverInit_booted booted).2 i] at file
  cases file

/-- After any requests that meet the guard, a further one that meets it does not kill the server in `file_truncate`:
    each call of `file_truncate` returns, and each `file_set_size` leaves no block behind the size. -/
theorem setSize_safe {disk : Image} {memory : Nat → Bool} {ops : List ServeOp} {op : ServeOp}
    (booted : serverInit disk memory = some t0) (run : Run serveStep SizeGuard t0 ops t) (guard : SizeGuard t op) :
    serveCause t op ≠ some .truncate ∧ (∀ f n s, Truncates t op f n s → ∃ u, fileTruncate f n s = .ok () u) ∧
    ∀ f n s u, SetsSize t op f n s → (fileSetSize f n s).state = some u → Sized f n u.content := by
  have before := run_cached booted run
  exact ⟨serveCause_calm before guard, fun f n s cuts => cuts.returns before guard,
    fun f n s u sets state => by
      have sized := sets.sized before guard
      cases result : fileSetSize f n s with
      | ok a v => rw [result] at sized state; cases state; exact sized
      | err r v => rw [result] at sized state; cases state; exact sized
      | stop cause => rw [result] at state; cases state⟩

theorem sizeGuard_open {path : List Byte} {omode : Word} (keeps : omode &&& oTrunc = 0) :
    SizeGuard t (.fsreqOpen path omode) := by
  refine ⟨fun f n s sets => ?_, fun f n s cuts => ?_⟩
  · cases sets with
    | ofOpen _ _ _ trunc => exact absurd keeps trunc
  · cases cuts with
    | ofSize sets _ =>
      cases sets with
      | ofOpen _ _ _ trunc => exact absurd keeps trunc

theorem sizeGuard_map {fileid offset : Word} : SizeGuard t (.fsreqMap fileid offset) := by
  refine ⟨fun f n s sets => ?_, fun f n s cuts => ?_⟩
  · cases sets
  · cases cuts with
    | ofSize sets less => cases sets

/-- A file without an indirect block, and with each block behind the new end before the old one. -/
def smallCheck (f : FilePtr) (n : Word) (c : Image) : Bool :=
  decide (c.bitmapEnd < f.block) && c.indirect f = 0 && decide (roundBlocks (c.field f 32) ≤ ndirect) &&
  (List.range ndirect).all fun i => decide (i < ceilBlocks n) || c.target f (some i) = 0 ||
    (decide (n < c.field f 32) && decide (i < roundBlocks (c.field f 32)))

theorem sizeGuard_small {fileid : Word} (file : (t.opentab fileid.toNat).file = some f)
    (check : smallCheck f n t.fs.content = true) : SizeGuard t (.fsreqSetSize fileid n) := by
  simp only [smallCheck, Bool.and_eq_true, Bool.or_eq_true, decide_eq_true_eq, List.all_eq_true, List.mem_range] at check
  obtain ⟨⟨⟨plain, hole⟩, few⟩, inside⟩ := check
  have distinct : Distinct f t.fs.content :=
    ⟨fun isBitmap => absurd isBitmap.2 (Nat.not_le.mpr plain), fun held => absurd hole held⟩
  have same : ∀ {g m s}, SetsSize t (.fsreqSetSize fileid n) g m s → g = f ∧ m = n ∧ s = t.fs := by
    intro g m s sets
    cases sets with
    | ofSetSize opened => exact ⟨Option.some.inj (opened.file.symm.trans file), rfl, rfl⟩
  refine ⟨fun g m s sets => ?_, fun g m s cuts => ?_⟩
  · obtain ⟨rfl, rfl, rfl⟩ := same sets
    refine ⟨distinct, fun i high held => ?_⟩
    have low : i < ndirect := Nat.lt_of_not_le fun deep => held (Image.target_of_no_indirect hole deep)
    exact ⟨((inside i low).resolve_left fun no => no.elim (by omega) held).1,
      .inl ((inside i low).resolve_left fun no => no.elim (by omega) held).2⟩
  · cases cuts with
    | ofSize sets less =>
      obtain ⟨rfl, rfl, rfl⟩ := same sets
      refine ⟨distinct, fun i _ before => ?_⟩
      have low : i < ndirect := Nat.lt_of_lt_of_le before few
      have direct : ¬ ndirect ≤ i := Nat.not_le.mpr low
      exact ⟨⟨.inl low, fun deep => absurd deep direct⟩, fun deep => absurd deep direct, fun held => by rwa [hole]⟩

/-- A client creates `/a`, maps its first block and makes it one block long. -/
def cutRun : List ServeOp := [.fsreqOpen [0x2f, 0x61] oCreat, .fsreqMap 0 0, .fsreqSetSize 0 4096]

set_option maxRecDepth 100000 in
theorem setSize_safe_cutRun : ∃ t0 t, emptyServer = some t0 ∧ Run serveStep SizeGuard t0 cutRun t ∧
    SizeGuard t (.fsreqSetSize 0 0) ∧ serveCause t (.fsreqSetSize 0 0) ≠ some .truncate := by
  have check : (emptyServer.any fun t0 => (serveStep t0 (.fsreqOpen [0x2f, 0x61] oCreat)).any fun t1 =>
      (serveStep t1 (.fsreqMap 0 0)).any fun t2 =>
        decide ((t2.opentab 0).file = some (fileOf 3 0)) && smallCheck (fileOf 3 0) 4096 t2.fs.content &&
        (serveStep t2 (.fsreqSetSize 0 4096)).any fun t3 =>
          decide ((t3.opentab 0).file = some (fileOf 3 0)) && smallCheck (fileOf 3 0) 0 t3.fs.content) = true := by
    decide +kernel
  simp only [Option.any_eq_true, Bool.and_eq_true, decide_eq_true_eq] at check
  obtain ⟨t0, booted, t1, first, t2, second, ⟨file, small⟩, t3, third, file', small'⟩ := check
  have run : Run serveStep SizeGuard t0 cutRun t3 :=
    ((Run.nil.snoc (sizeGuard_open (by decide)) first).snoc sizeGuard_map second).snoc (sizeGuard_small file small) third
  have guard : SizeGuard t3 (.fsreqSetSize 0 0) := sizeGuard_small file' small'
  exact ⟨t0, t3, booted, run, guard, (setSize_safe booted run guard).1⟩

/-- A client creates `/a` and makes it eleven blocks long without mapping one. -/
def holeRun : List ServeOp := [.fsreqOpen [0x2f, 0x61] oCreat, .fsreqSetSize 0 0xb000]

set_option maxRecDepth 100000 in
theorem setSize_kills : ∃ t0 t, emptyServer = some t0 ∧ Run serveStep (fun _ _ => True) t0 holeRun t ∧
    serveCause t (.fsreqSetSize 0 0) = some .truncate := by
  have check : (emptyServer.any fun t0 => (Run.exec serveStep t0 holeRun).any fun t =>
      serveCause t (.fsreqSetSize 0 0) = some .truncate) = true := by decide +kernel
  simp only [Option.any_eq_true, decide_eq_true_eq] at check
  obtain ⟨t0, booted, t, exec, killed⟩ := check
  exact ⟨t0, t, booted, Run.of_exec (fun _ _ _ => trivial) exec, killed⟩

end Mos.Fs
