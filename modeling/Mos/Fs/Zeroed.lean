import Mos.Fs.Leak

namespace Mos.Fs

def Store.Wiped (s : Store) (b : Nat) : Prop := ∀ p, s.cache b = some p → ∀ i, i < 1024 → p i = 0

/-- No free block is in the cache with anything but zeros, and the blocks that files got came with zeros. -/
structure Zeroed (s : Store) : Prop where
  super : s.cache 1 ≠ none
  charted : Charted s
  wiped : ∀ b, s.content.IsData b → s.content.Free b → s.Wiped b
  given : ∀ g ∈ s.given, g.Zero ∧ g.Clean

variable {s t : Store} {role : Nat → Option Owner} {f g dir : FilePtr} {b i x : Nat} {v n : Word}

theorem Zeroed.clean (zeroed : Zeroed s) : CleanMeta s := fun g mem _ => (zeroed.given g mem).2

theorem Zeroed.known {P : (Nat → Option Owner) → Prop} (zeroed : Zeroed s) (known : Unless s P) : ∃ role, P role :=
  known.resolve_left fun spoiled => spoiled zeroed.clean

theorem Store.Wiped.page (wiped : s.Wiped b) (small : i < 1024) : (s.cache b).getD zeroPage i = 0 := by
  cases cached : s.cache b with
  | none => rfl
  | some p => exact wiped p cached i small

/-- A change is harmless when each block that is free after it was free with the same words in the cache, or is wiped. -/
theorem Zeroed.change (zeroed : Zeroed s) (nblocks : t.content.nblocks = s.content.nblocks)
    (cached : ∀ x, s.cache x ≠ none → t.cache x ≠ none) (given : t.given = s.given)
    (wiped : ∀ x, s.content.IsData x → t.content.Free x → s.content.Free x ∧ t.cache x = s.cache x ∨ t.Wiped x) : Zeroed t where
  super := cached 1 zeroed.super
  charted := zeroed.charted.of_cached nblocks cached
  wiped x data isFree := by
    rw [Image.IsData.of_nblocks nblocks] at data
    rcases wiped x data isFree with ⟨before, same⟩ | wiped
    · intro p here
      exact zeroed.wiped x data before p (same ▸ here)
    · exact wiped
  given g mem := zeroed.given g (given ▸ mem)

theorem zeroed_read : KeptByRead Zeroed fun _ => True where
  panic := trivial
  wild := trivial
  asked s zeroed := zeroed.change rfl (fun _ had => had) rfl fun _ _ isFree => .inl ⟨isFree, rfl⟩
  loaded s b zeroed hole used := by
    have read := (Read.refl s).loaded b hole
    refine zeroed.change (by rw [read.content]) read.cached rfl fun x data isFree => .inl ?_
    rw [read.content] at isFree
    refine ⟨isFree, Function.update_of_ne ?_ _ _⟩
    rintro rfl
    have below : ¬ s.nblocks ≤ x := by
      rw [nblocks_content zeroed.super]
      exact Nat.not_le.mpr data.2
    rw [blockIsFree, if_neg below, decide_eq_false_iff_not, not_not] at used
    apply isFree
    rw [← word_content (zeroed.charted _ (Image.bitmapBlock_isBitmap data.2))]
    exact used
  marked s b zeroed := zeroed.change rfl (fun _ had => had) rfl fun _ _ isFree => .inl ⟨isFree, rfl⟩
  written s b p zeroed here := by
    have read := (read_kept s).written s b p (Read.refl s) here
    refine zeroed.change (by rw [read.content]) read.cached rfl fun x _ isFree => .inl ⟨?_, rfl⟩
    rwa [read.content] at isFree

theorem Zeroed.setWord (zeroed : Zeroed s) (cached : s.cache b ≠ none) (plain : ¬ s.content.IsBitmap b) (ne : (b, i) ≠ (1, 1))
    (used : s.content.IsData b → ¬ s.content.Free b) : Zeroed (s.setWord b i v) := by
  have content : (s.setWord b i v).content = s.content.set b i v := content_setWord cached
  have size : (s.setWord b i v).content.nblocks = s.content.nblocks := by
    rw [content]
    exact congrArg BitVec.toNat (Image.set_ne ne.symm)
  refine zeroed.change size (fun _ => setWord_cached) rfl fun x data isFree => .inl ?_
  have before : s.content.Free x := by
    refine (Image.Free.congr data.2 fun y isBitmap => content_setWord_ne ?_).mp isFree
    rintro rfl
    exact plain isBitmap
  refine ⟨before, Function.update_of_ne ?_ _ _⟩
  rintro rfl
  exact used data before

theorem Holds.used (holds : Holds False s role f) {o : Owner} (owner : role b = some o) : ¬ s.content.Free b := by
  intro isFree
  have none := (holds.consistent.free b (holds.consistent.data b o owner).2 isFree).2
  cases none.symm.trans owner

theorem Holds.block_used (holds : Holds False s role f) : s.content.IsData f.block → ¬ s.content.Free f.block := by
  intro data
  rcases holds.placed.block with ⟨super, _⟩ | ⟨dir, i, owner⟩
  · have two := s.content.two_le_bitmapEnd
    have low := data.1
    omega
  · exact holds.used owner

theorem Holds.word_ne (holds : Holds False s role f) (k : Nat) : (f.block, f.word + k) ≠ (1, 1) := by
  intro same
  have one : f.block = 1 := congrArg Prod.fst same
  have word : f.word + k = 1 := congrArg Prod.snd same
  rcases holds.placed.block with ⟨_, rfl⟩ | ⟨dir, i, owner⟩
  · have two : 2 + k = 1 := word
    omega
  · rw [one, holds.consistent.one_unowned] at owner
    cases owner

theorem Holds.zeroed_setField {k : Nat} (holds : Holds False s role f) (zeroed : Zeroed s) : Zeroed (s.setField f k v) :=
  zeroed.setWord holds.cached (holds.placed.not_bitmap holds.consistent) (holds.word_ne k) holds.block_used

theorem Holds.cell_used {p : Option Nat} (holds : Holds False s role f) (has : s.content.HasCell f p) :
    s.content.cell f p ≠ (1, 1) ∧ (s.content.IsData (s.content.cell f p).1 → ¬ s.content.Free (s.content.cell f p).1) := by
  cases p with
  | none => exact ⟨holds.word_ne 44, holds.block_used⟩
  | some i =>
    unfold Image.cell
    by_cases low : i < ndirect
    · simp only [if_pos low]
      exact ⟨holds.word_ne (34 + i), holds.block_used⟩
    · simp only [if_neg low]
      obtain ⟨d, owner⟩ := holds.consistent.indirect_owner holds.placed (has.resolve_left low).2
      refine ⟨fun same => ?_, fun _ => holds.used owner⟩
      have one : s.content.indirect f = 1 := congrArg Prod.fst same
      rw [one, holds.consistent.one_unowned] at owner
      cases owner

theorem nblocks_off (off : ∀ x, x ≠ Store.bitmapBlock b → t.content x = s.content x) : t.content.nblocks = s.content.nblocks := by
  refine congrArg BitVec.toNat (congrFun (off 1 ?_) 1)
  unfold Store.bitmapBlock
  omega

section Alloc

theorem content_mapped (ne : x ≠ b) : Store.content { s with
    cache := Function.update s.cache b (some zeroPage), dirty := Function.update s.dirty b false,
    asked := s.asked + 1 } x = s.content x := by
  simp only [Store.content, Function.update_of_ne ne]

theorem mapped_nblocks (data : s.content.IsData b) : (Store.content { s with
    cache := Function.update s.cache b (some zeroPage), dirty := Function.update s.dirty b false,
    asked := s.asked + 1 }).nblocks = s.content.nblocks := by
  have one : (1 : Nat) ≠ b := by
    have two := s.content.two_le_bitmapEnd
    have low := data.1
    omega
  exact congrArg BitVec.toNat (congrFun (content_mapped one) 1)

theorem mapped_free (data : s.content.IsData b) (below : x < s.content.nblocks) : (Store.content { s with
    cache := Function.update s.cache b (some zeroPage), dirty := Function.update s.dirty b false,
    asked := s.asked + 1 }).Free x ↔ s.content.Free x := by
  refine Image.Free.congr below fun y isBitmap => content_mapped ?_
  rintro rfl
  exact IsData.not_bitmap data isBitmap

variable (zeroed : Zeroed s)
include zeroed

theorem Zeroed.bitmap (below : b < s.nblocks)
    (off : ∀ x, x ≠ Store.bitmapBlock b → t.cache x = s.cache x ∧ t.content x = s.content x)
    (cached : ∀ x, s.cache x ≠ none → t.cache x ≠ none) (given : t.given = s.given)
    (bits : ∀ x, t.content.Free x → s.content.Free x ∨ s.Wiped x) : Zeroed t := by
  rw [nblocks_content zeroed.super] at below
  have isBitmap : s.content.IsBitmap (Store.bitmapBlock b) := Image.bitmapBlock_isBitmap below
  refine zeroed.change (nblocks_off fun x ne => (off x ne).2) cached given fun x data isFree => ?_
  have same : t.cache x = s.cache x := (off x fun here => IsData.not_bitmap data (here ▸ isBitmap)).1
  rcases bits x isFree with before | wiped
  · exact .inl ⟨before, same⟩
  · exact .inr fun p here => wiped p (same ▸ here)

theorem Zeroed.taken (taken : Taken s t b) : Zeroed t :=
  zeroed.bitmap taken.below taken.off taken.cached taken.given fun x isFree => .inl (taken.bits x isFree)

theorem Zeroed.mapped (data : s.content.IsData b) (hole : s.cache b = none) :
    Zeroed { s with cache := Function.update s.cache b (some zeroPage), dirty := Function.update s.dirty b false,
                    asked := s.asked + 1 } := by
  refine zeroed.change (mapped_nblocks data) (fun _ => update_cached b) rfl fun x isData isFree => ?_
  by_cases here : x = b
  · subst here
    refine .inr fun p mapped i _ => ?_
    cases (Function.update_self x _ _).symm.trans mapped
    rfl
  · exact .inl ⟨(mapped_free data isData.2).mp isFree, Function.update_of_ne here _ _⟩

omit zeroed in
theorem freeBlock_cache (ne : x ≠ Store.bitmapBlock b) : (freeBlock b s).cache x = s.cache x := by
  unfold freeBlock
  split
  · rfl
  · exact Function.update_of_ne ne _ _

omit zeroed in
theorem freeBlock_nblocks (b : Nat) (s : Store) : (freeBlock b s).content.nblocks = s.content.nblocks :=
  nblocks_off fun _ ne => freeBlock_off fun _ => ne

theorem Zeroed.freeBlock (wiped : s.Wiped b) : Zeroed (freeBlock b s) := by
  by_cases skip : b = 0 ∨ s.nblocks ≤ b
  · rw [Mos.Fs.freeBlock, if_pos skip]
    exact zeroed
  · refine zeroed.bitmap (b := b) (by omega) (fun x ne => ⟨freeBlock_cache ne, freeBlock_off fun _ => ne⟩)
      (fun _ => freeBlock_cached) freeBlock_given fun x isFree => (freeBlock_free isFree).imp id ?_
    rintro rfl
    exact wiped

theorem allocBlock_zeroed (data : ∀ b, b < s.content.nblocks → s.content.Free b → s.content.IsData b) :
    (allocBlock s).Meets (fun b t => Zeroed t ∧ s.Wiped b ∧ ∀ i, i < 1024 → t.page b i = 0) Zeroed fun _ => True := by
  have found := allocBlockNum_spec s
  unfold allocBlock
  cases run : allocBlockNum s with
  | err r t =>
    rw [run] at found
    obtain rfl : t = s := found
    exact zeroed
  | stop cause => trivial
  | ok b mid =>
    rw [run] at found
    have taken : Taken s mid b := found
    have below := taken.below
    rw [nblocks_content zeroed.super] at below
    have isData := data b below taken.free
    have wiped := zeroed.wiped b isData taken.free
    have between := zeroed.taken taken
    have size := nblocks_off fun x ne => (taken.off x ne).2
    have zeros : ∀ t, allocBlock s = .ok b t → ∀ i, i < 1024 → t.page b i = 0 := fun t run i small => by
      rw [allocBlock_page run]
      exact wiped.page small
    rw [allocBlock, run] at zeros
    simp only [Result.ok_bind, mapBlock, sysMemAlloc] at zeros ⊢
    cases old : mid.cache b with
    | some p =>
      simp only [old] at zeros
      exact ⟨between, wiped, zeros mid rfl⟩
    | none =>
      simp only [old] at zeros ⊢
      split
      · rename_i memory
        rw [if_pos memory] at zeros
        exact ⟨between.mapped ((Image.IsData.of_nblocks size).mpr isData) old, wiped, zeros _ rfl⟩
      · have hole : Store.Wiped { mid with asked := mid.asked + 1 } b := fun p here => by
          cases old.symm.trans here
        exact (zeroed_read.asked mid between).freeBlock hole

end Alloc

section Attach

variable (holds : Holds False s role f) (zeroed : Zeroed s)
include holds zeroed

theorem attachGive_zeroed {p : Option Nat} {alloc : Bool} {code : Word} {place : Nat × Nat} (has : s.content.HasCell f p)
    (at_cell : place = s.content.cell f p) (cached : s.cache place.1 ≠ none) :
    Result.Leaves (if alloc then (allocBlock s).bind fun b t =>
        (.ok () ((t.give s f p b).setWord place.1 place.2 (BitVec.ofNat 32 b)) : Res Unit)
      else .err code s) Zeroed fun _ => True := by
  subst at_cell
  split
  · have fresh := allocBlock_zeroed zeroed fun b below isFree => (holds.consistent.free b below isFree).1
    refine (((allocBlock_spec s).and fresh).mono (fun _ _ h => h) (fun _ h => h.2) fun _ h => h).bind fun b t both => ?_
    obtain ⟨allocated, after, wiped, zeros⟩ := both
    obtain ⟨ne, used⟩ := holds.cell_used has
    have size : t.content.nblocks = s.content.nblocks := by
      have low := allocated.low
      refine congrArg BitVec.toNat (congrFun (allocated.off 1 ?_ ?_) 1)
      · unfold Store.bitmapBlock
        omega
      · omega
    have given : Zeroed (t.give s f p b) := by
      refine ⟨after.super, after.charted, after.wiped, fun g mem => ?_⟩
      rcases List.mem_cons.mp mem with rfl | mem
      · exact ⟨zeros, wiped⟩
      · exact after.given g mem
    refine given.setWord (allocated.cached _ cached) (fun isBitmap => ?_) ne fun data isFree => ?_
    · unfold Image.IsBitmap Image.bitmapEnd at isBitmap
      rw [show (t.give s f p b).content.nblocks = s.content.nblocks from size] at isBitmap
      exact (holds.placed.cell_ne (b := b) holds.consistent has).1 isBitmap
    · exact used ((Image.IsData.of_nblocks size).mp data) (allocated.bits _ isFree)
  · exact zeroed

theorem fileBlockWalk_zeroed (i : Nat) (alloc : Bool) : (fileBlockWalk f i alloc s).Leaves Zeroed fun _ => True := by
  unfold fileBlockWalk
  split
  · exact zeroed
  · split
    · refine Result.Meets.bind (P := fun _ => Zeroed) ?_ fun _ t zeroed =>
        Result.Meets.bind (readBlock_kept zeroed_read _ zeroed) fun _ _ h => h
      split
      · exact attachGive_zeroed (p := none) holds zeroed trivial rfl holds.cached
      · exact zeroed
    · exact zeroed

theorem fileMapBlock_zeroed (i : Nat) (alloc : Bool) : (fileMapBlock f i alloc s).Leaves Zeroed fun _ => True := by
  unfold fileMapBlock
  refine ((fileBlockWalk_spec i alloc holds (live_false f _)).also (fileBlockWalk_zeroed holds zeroed i alloc)).bind
    fun ptr t both => ?_
  obtain ⟨walked, zeroed⟩ := both
  obtain ⟨role', reached, has, at_cell, cached⟩ := zeroed.known walked
  refine Result.Meets.bind (P := fun _ => Zeroed) ?_ fun _ _ h => h
  split
  · exact attachGive_zeroed reached.holds zeroed has at_cell cached
  · exact zeroed

theorem fileGetBlock_zeroed (i : Nat) : (fileGetBlock f i s).Leaves Zeroed fun _ => True :=
  (fileMapBlock_zeroed holds zeroed i true).bind fun b _ zeroed => (readBlock_kept zeroed_read b zeroed).bind fun _ _ h => h

end Attach

theorem fileGetBlock_zeroedHeld {X : Image → Prop} (i : Nat) (held : Held False f X s) (zeroed : Zeroed s)
    (closed : ∀ c role c' role', Grown f (fun j => j = i) c role c' role' → X c → X c') :
    (fileGetBlock f i s).Meets
      (fun b t => (∃ role, Holds False t role f ∧ X t.content ∧ t.content.target f (some i) = b ∧ b ≠ 0 ∧ t.cache b ≠ none) ∧
        Zeroed t) Zeroed fun _ => True := by
  obtain ⟨role, holds, -⟩ := zeroed.known held
  exact ((fileGetBlock_held i held (fun _ _ => live_false f _) closed).also (fileGetBlock_zeroed holds zeroed i)).mono
    (fun _ _ both => ⟨both.2.known both.1, both.2⟩) (fun _ h => h) fun _ h => h

theorem dirScan_zeroed {name : List Byte} {m : Nat} (n i : Nat) (sum : i + n = m)
    (held : Held False dir (Searched False dir m) s) (zeroed : Zeroed s) :
    (dirScan dir name n i s).Leaves Zeroed fun _ => True := by
  induction n generalizing i s with
  | zero => exact zeroed
  | succ n ih =>
    refine (fileGetBlock_zeroedHeld i held zeroed fun _ _ _ _ grown => grown.searched).bind fun b t got => ?_
    obtain ⟨⟨role, holds, searched, target, nonzero, cached⟩, zeroed⟩ := got
    split
    · rename_i j found
      have small := List.mem_range.mp (List.mem_of_find?_eq_some found)
      exact (searched.slot holds target nonzero (by omega) small cached).zeroed_setField zeroed
    · exact ih (i + 1) (by omega) (.inr ⟨role, holds, searched⟩) zeroed

theorem walkPath_zeroed (path : List Byte) (held : Held False root (Live False root) s) (zeroed : Zeroed s) :
    (walkPath path s).Leaves Zeroed fun _ => True := by
  refine (walkElements_meets (P := fun g t => Held False g (Live False g) t ∧ Zeroed t)
    (D := fun d t => Held False d (fun c => Live False d c ∧ c.field d 33 = ftypeDir) t ∧ Zeroed t) (fun _ _ both => both.2)
    (fun _ _ both => both.2) (fun f name s isName both type => ?_) _ (fun _ mem => isName_of_mem mem) none ⟨held, zeroed⟩).mono
    (fun _ _ walked => walked.known) (fun _ h => h) fun _ h => h
  obtain ⟨held, zeroed⟩ := both
  obtain ⟨role, holds, live⟩ := zeroed.known held
  have size : s.fSize f = s.content.field f 32 := field_content holds.cached 32
  have isDir : s.content.field f 33 = ftypeDir := (field_content holds.cached 33).symm.trans type
  have scanned : (dirLookup f name s).Leaves Zeroed fun _ => True :=
    dirScan_zeroed _ 0 (Nat.zero_add _) (.inr ⟨role, holds, live, isDir, by rw [size]⟩) zeroed
  exact (dirLookup_spec isName holds live isDir).and scanned

theorem dirAllocScan_zeroed {m : Nat} (n i : Nat) (sum : i + n = m) (held : Held False dir (Extensible False dir m) s)
    (zeroed : Zeroed s) : (dirAllocScan dir n i s).Leaves Zeroed fun _ => True := by
  induction n generalizing i s with
  | zero =>
    obtain rfl : i = m := sum
    obtain ⟨role, holds, ready⟩ := zeroed.known held
    have size : s.fSize dir = s.content.field dir 32 := field_content holds.cached 32
    obtain ⟨after, -⟩ := holds.setSize (v := s.fSize dir + blockSize) ready.live fun j _ low high => by
      have here : j = i := by
        have exact := ready.size
        have block : blockSize.toNat = 4096 := rfl
        rw [size, BitVec.toNat_add] at high
        omega
      rw [here]
      exact ready.absent
    exact (fileGetBlock_zeroed after (holds.zeroed_setField zeroed) i).bind fun _ _ h => h
  | succ n ih =>
    refine (fileGetBlock_zeroedHeld i held zeroed fun _ _ _ _ grown => grown.extensible (by omega)).bind fun b t got => ?_
    obtain ⟨⟨role, holds, ready, -⟩, zeroed⟩ := got
    split
    · exact zeroed
    · exact ih (i + 1) (by omega) (.inr ⟨role, holds, ready⟩) zeroed

theorem Holds.setName_kept {E : Store → Prop} {name : List Byte} (holds : Holds False s role f) (isName : IsName name)
    (short : name.length < maxNameLen) (keep : ∀ s k v, Holds False s role f → E s → E (s.setField f k v)) (before : E s) :
    E (s.setName f name) := by
  have bytes : ∀ m, m ≤ name.length + 1 →
      Holds False ((List.range m).foldl (fun s k => s.setNameByte f k ((name ++ [0]).getD k 0)) s) role f ∧
      E ((List.range m).foldl (fun s k => s.setNameByte f k ((name ++ [0]).getD k 0)) s) := by
    intro m
    induction m with
    | zero => exact fun _ => ⟨holds, before⟩
    | succ m ih =>
      intro bound
      obtain ⟨holds, before⟩ := ih (by omega)
      have inName : m < 128 := by
        unfold maxNameLen at short
        omega
      have first : m = 0 → (name ++ [0]).getD m 0 ≠ 0 := by
        obtain ⟨x, rest, rfl, nonzero⟩ := isName
        rintro rfl
        exact nonzero
      rw [List.range_succ, List.foldl_append]
      exact ⟨(holds.setNameByte inName first).1, keep _ _ _ holds before⟩
  exact (bytes (name.length + 1) (Nat.le_refl _)).2

theorem Holds.zeroed_setName {name : List Byte} (holds : Holds False s role f) (zeroed : Zeroed s) (isName : IsName name)
    (short : name.length < maxNameLen) : Zeroed (s.setName f name) :=
  holds.setName_kept isName short (fun _ _ _ holds zeroed => holds.zeroed_setField zeroed) zeroed

theorem fileCreate_zeroed {path : List Byte} (ready : Extends path s) (held : Held False root (Live False root) s)
    (zeroed : Zeroed s) : (fileCreate path s).Leaves Zeroed fun _ => True := by
  have walked := (walkPath_spec path held).and (walkPath_zeroed path held zeroed)
  unfold fileCreate
  cases run : walkPath path s with
  | stop cause => trivial
  | err r t =>
    rw [run] at walked
    exact walked.2
  | ok w t =>
    rw [run] at walked
    have reached : WalkedTo False w t := walked.1
    have zeroed : Zeroed t := walked.2
    simp only [Result.ok_bind]
    split
    · exact zeroed
    · rename_i failed
      split
      · exact zeroed
      · rename_i d at_d
        split
        · exact zeroed
        · rename_i code
          obtain ⟨dir, isName, short⟩ := reached.dir d at_d (reached.missing failed)
          obtain ⟨role, holds, live, type⟩ := zeroed.known dir
          have size : t.fSize d = t.content.field d 32 := field_content holds.cached 32
          have extensible : Held False d (Extensible False d ((t.fSize d).toNat / 4096)) t := by
            refine .inr ⟨role, holds, ⟨live, type, by rw [size]⟩, ?_⟩
            rw [size]
            exact ready w t d run (not_not.mp code) at_d
          refine ((dirAllocScan_spec _ 0 (Nat.zero_add _) extensible).also
            (dirAllocScan_zeroed _ 0 (Nat.zero_add _) extensible zeroed)).bind fun g u both => ?_
          obtain ⟨role', holds, -⟩ := both.2.known both.1
          exact holds.zeroed_setName both.2 isName short

theorem openFind_zeroed {path : List Byte} {omode : Word} (ready : omode &&& oCreat ≠ 0 → Extends path s)
    (held : Held False root (Live False root) s) (zeroed : Zeroed s) : (openFind path omode s).Leaves Zeroed fun _ => True := by
  unfold openFind
  split
  · rename_i creat
    refine ((fileCreate_spec (ready creat) held).also (fileCreate_zeroed (ready creat) held zeroed)).bind fun g t both => ?_
    obtain ⟨role, holds, -⟩ := both.2.known both.1
    show Zeroed (if omode &&& oMkdir ≠ 0 then t.setField g 33 ftypeDir else t)
    split
    · exact holds.zeroed_setField both.2
    · exact both.2
  · refine (walkPath_zeroed path held zeroed).bind fun w t zeroed => ?_
    split
    · exact zeroed
    · exact zeroed

section Cut

/-- The blocks that `file_truncate(f, n)` cuts off are wiped, and so is the indirect block when its last entry is cleared. -/
structure CutsWiped (f : FilePtr) (n : Word) (s : Store) : Prop where
  blocks : ∀ i, newBlocks n ≤ i → i < roundBlocks (s.content.field f 32) → s.content.target f (some i) ≠ 0 →
    s.Wiped (s.content.target f (some i))
  entries : newBlocks n ≤ ndirect → s.content.indirect f ≠ 0 →
    s.cache (s.content.indirect f) = none ∧ roundBlocks (s.content.field f 32) ≤ ndirect ∨
    ∀ k, k < 1024 → s.content (s.content.indirect f) k ≠ 0 → ndirect ≤ k ∧ k < roundBlocks (s.content.field f 32)

theorem readBlock_cache (b : Nat) (s : Store) :
    (readBlock b s).Leaves (fun t => ∀ x, x ≠ b → t.cache x = s.cache x) fun _ => True := by
  unfold readBlock
  split
  · trivial
  · split
    · trivial
    · exact loadBlock_leaves b (fun _ _ => rfl) (fun _ _ => rfl) fun _ x ne => Function.update_of_ne ne _ _

theorem fileBlockWalk_cache (i : Nat) (s : Store) :
    (fileBlockWalk f i false s).Leaves (fun t => ∀ x, x ≠ (s.fIndirect f).toNat → t.cache x = s.cache x) fun _ => True := by
  unfold fileBlockWalk
  split
  · exact fun _ _ => rfl
  · split
    · split
      · exact fun _ _ => rfl
      · exact (readBlock_cache _ s).bind fun _ _ h => h
    · exact fun _ _ => rfl

theorem Holds.target_apart (holds : Holds False s role f) (held : s.content.target f (some i) ≠ 0) :
    s.content.IsData (s.content.target f (some i)) ∧ f.block ≠ s.content.target f (some i) ∧
      (s.content.indirect f ≠ 0 → s.content.indirect f ≠ s.content.target f (some i)) := by
  obtain ⟨d, owner, -⟩ := (holds.consistent.files f holds.placed).owned (some i) held
  refine ⟨holds.consistent.data _ _ owner, holds.consistent.apart _ _ owner, fun some same => ?_⟩
  obtain ⟨d', other⟩ := holds.consistent.indirect_owner holds.placed some
  rw [same] at other
  cases owner.symm.trans other

theorem Holds.cell_ne_target (holds : Holds False s role f) (has : s.content.HasCell f (some i))
    (held : s.content.target f (some i) ≠ 0) : (s.content.cell f (some i)).1 ≠ s.content.target f (some i) := by
  obtain ⟨-, file, indirect⟩ := holds.target_apart held
  unfold Image.cell
  by_cases low : i < ndirect
  · simp only [if_pos low]
    exact file
  · simp only [if_neg low]
    exact indirect (has.resolve_left low).2

/-- `file_clear_block` frees a wiped block, and changes the cache of the block of the `File`, of the indirect block and of
    the bitmap only. -/
theorem fileClearBlock_zeroed (holds : Holds False s role f) (zeroed : Zeroed s)
    (wiped : s.content.target f (some i) ≠ 0 → s.Wiped (s.content.target f (some i))) :
    (fileClearBlock f i s).Meets (fun _ t => Zeroed t ∧ ∀ x, ¬ s.content.IsBitmap x → x ≠ f.block →
      (ndirect ≤ i → x ≠ s.content.indirect f) → t.cache x = s.cache x) (fun _ => True) fun _ => True := by
  have walk := ((fileBlockWalk_findable i holds.cached).and (fileBlockWalk_cache i s)).and (fileBlockWalk_read zeroed_read i zeroed)
  refine (walk.mono (fun _ _ h => h) (fun _ _ => trivial) fun _ _ => trivial).bind fun ptr t both => ?_
  obtain ⟨⟨⟨read, has, rfl, here, direct⟩, loads⟩, zeroed⟩ := both
  have same : ∀ x, (ndirect ≤ i → x ≠ s.content.indirect f) → t.cache x = s.cache x := by
    intro x other
    by_cases low : i < ndirect
    · rw [direct low]
    · refine loads x ?_
      rw [show s.fIndirect f = s.content.field f 44 from field_content holds.cached 44]
      exact other (Nat.not_lt.mp low)
  have target : (t.word (s.content.cell f (some i)).1 (s.content.cell f (some i)).2).toNat = s.content.target f (some i) := by
    rw [word_content here, read.content, Image.target_cell has]
  split
  · rename_i pointer
    have held : s.content.target f (some i) ≠ 0 := by
      rw [← target]
      exact fun zero => pointer (BitVec.eq_of_toNat_eq zero)
    obtain ⟨data, file, indirect⟩ := holds.target_apart held
    obtain ⟨ne, used⟩ := holds.cell_used has
    have isBitmap : s.content.IsBitmap (Store.bitmapBlock (s.content.target f (some i))) := Image.bitmapBlock_isBitmap data.2
    have freed := zeroed.freeBlock (b := s.content.target f (some i)) fun p cached => wiped held p <| by
      rwa [same _ fun high => (indirect (has.resolve_left (Nat.not_lt.mpr high)).2).symm] at cached
    have size := freeBlock_nblocks (s.content.target f (some i)) t
    rw [read.content] at size
    rw [target]
    refine ⟨freed.setWord (freeBlock_cached here) (fun inside => ?_) ne fun isData isFree => ?_, fun x plain notFile other => ?_⟩
    · unfold Image.IsBitmap Image.bitmapEnd at inside
      rw [size] at inside
      exact (holds.placed.cell_ne (b := 0) holds.consistent has).1 inside
    · rw [Image.IsData.of_nblocks size] at isData
      rcases freeBlock_free isFree with before | same
      · rw [read.content] at before
        exact used isData before
      · exact holds.cell_ne_target has held same
    · have off : x ≠ Store.bitmapBlock (s.content.target f (some i)) := by
        rintro rfl
        exact plain isBitmap
      refine (Function.update_of_ne ?_ _ _).trans ((freeBlock_cache off).trans (same x other))
      unfold Image.cell
      by_cases low : i < ndirect
      · simp only [if_pos low]
        exact notFile
      · simp only [if_neg low]
        exact other (Nat.not_lt.mp low)
  · exact ⟨zeroed, fun x _ _ other => same x other⟩

/-- The loop of `file_truncate` after `k` rounds: the blocks that are left and the entries of the indirect block. -/
structure Cutting (f : FilePtr) (new old k : Nat) (t : Store) : Prop where
  zeroed : Zeroed t
  blocks : ∀ i, new ≤ i → i < old → t.content.target f (some i) ≠ 0 → t.Wiped (t.content.target f (some i))
  entries : new ≤ ndirect → t.content.indirect f ≠ 0 → t.cache (t.content.indirect f) = none ∧ old ≤ ndirect ∨
    ∀ j, j < 1024 → t.content (t.content.indirect f) j ≠ 0 → ndirect ≤ j ∧ new + k ≤ j ∧ j < old

theorem Image.target_entry {c : Image} (deep : ndirect ≤ i) (small : i < 1024) (held : c.indirect f ≠ 0) :
    c.target f (some i) = (c (c.indirect f) i).toNat := by
  unfold Image.target
  simp only [if_neg (Nat.not_lt.mpr deep)]
  exact if_pos ⟨small, held⟩

theorem Dropped.entry_zero {p : Option Nat} {c c' : Image} (dropped : Dropped role f p c c') (apart : Apart c role f)
    (held : c.indirect f ≠ 0) (zero : c (c.indirect f) i = 0) : c' (c.indirect f) i = 0 := by
  rcases dropped with ⟨same, _⟩ | detached
  · rw [same]
    exact zero
  · by_cases here : (c.indirect f, i) = c.cell f p
    · have cell := detached.wrote.cell
      rwa [← here] at cell
    · obtain ⟨_, plain, owned⟩ := apart.indirect held
      exact (detached.wrote.same _ _ plain (.inr owned) here).trans zero

theorem CutsWiped.cutting (cuts : CutsWiped f n s) (zeroed : Zeroed s) :
    Cutting f (newBlocks n) (roundBlocks (s.content.field f 32)) 0 s where
  zeroed := zeroed
  blocks := cuts.blocks
  entries few held := (cuts.entries few held).imp id fun entries j small some => by
    have := entries j small some
    omega

theorem Cutting.round {new old k : Nat} (cutting : Cutting f new old k s) (holds : Holds False s role f) (below : new + k < old)
    (run : fileClearBlock f (new + k) s = .ok () t) : Cutting f new old (k + 1) t := by
  have apart := holds.placed.parts holds.consistent
  have clear := fileClearBlock_spec (new + k) holds.cached apart
  have zeroed := fileClearBlock_zeroed holds cutting.zeroed (cutting.blocks (new + k) (Nat.le_add_right _ _) below)
  rw [run] at clear zeroed
  obtain ⟨after, same⟩ := zeroed
  have dropped := clear.1.content
  have target := dropped.target apart
  refine ⟨after, fun i low high held => ?_, fun few held => ?_⟩
  · have before := (target (some i)).resolve_left held
    rw [before] at held ⊢
    obtain ⟨data, file, indirect⟩ := holds.target_apart held
    intro p here
    rw [same _ (IsData.not_bitmap data) file.symm fun deep => (indirect (clear.2.resolve_left (Nat.not_lt.mpr deep)).2).symm]
      at here
    exact cutting.blocks i low high held p here
  · have before : t.content.indirect f = s.content.indirect f := (target none).resolve_left held
    rw [before] at held ⊢
    obtain ⟨file, plain, owned⟩ := apart.indirect held
    refine (cutting.entries few held).imp (fun unread => ⟨?_, unread.2⟩) fun entries j small some => ?_
    · rw [same _ plain file fun deep => absurd unread.2 (by omega)]
      exact unread.1
    · have was : s.content (s.content.indirect f) j ≠ 0 := fun zero => some (dropped.entry_zero apart held zero)
      obtain ⟨deep, later, inside⟩ := entries j small was
      refine ⟨deep, ?_, inside⟩
      have other : j ≠ new + k := by
        rintro rfl
        have gone := dropped.target_self apart
        rw [Image.target_entry deep small (before ▸ held), before] at gone
        exact some (BitVec.eq_of_toNat_eq gone)
      omega

theorem Cutting.wiped {new old : Nat} (cutting : Cutting f new old (old - new) s) (few : new ≤ ndirect)
    (held : s.content.indirect f ≠ 0) : s.Wiped (s.content.indirect f) := by
  intro p cached i small
  rcases cutting.entries few held with unread | entries
  · rw [unread.1] at cached
    cases cached
  · by_contra some
    have content : s.content (s.content.indirect f) = p := by simp [Store.content, cached]
    have inside := entries i small (content ▸ some)
    omega

theorem Holds.zeroed_dropIndirect (holds : Holds False s role f) (zeroed : Zeroed s)
    (wiped : s.content.indirect f ≠ 0 → s.Wiped (s.content.indirect f)) : Zeroed (dropIndirect f s) := by
  have word : s.fIndirect f = s.content.field f 44 := field_content holds.cached 44
  have indirect : (s.fIndirect f).toNat = s.content.indirect f := congrArg BitVec.toNat word
  unfold dropIndirect
  split
  · rename_i pointer
    have held : s.content.indirect f ≠ 0 := by
      rw [← indirect]
      exact fun zero => pointer (BitVec.eq_of_toNat_eq zero)
    obtain ⟨d, owner⟩ := holds.consistent.indirect_owner holds.placed held
    have size := freeBlock_nblocks (s.content.indirect f) s
    rw [indirect]
    refine (zeroed.freeBlock (wiped held)).setWord (freeBlock_cached holds.cached) (fun inside => ?_) (holds.word_ne 44)
      fun isData isFree => ?_
    · unfold Image.IsBitmap Image.bitmapEnd at inside
      rw [size] at inside
      exact holds.placed.not_bitmap holds.consistent inside
    · rw [Image.IsData.of_nblocks size] at isData
      rcases freeBlock_free isFree with before | same
      · exact holds.block_used isData before
      · exact holds.consistent.apart _ _ owner same
  · exact zeroed

theorem fileTruncate_zeroed (holds : Holds False s role f) (zeroed : Zeroed s) (cuts : CutsWiped f n s) :
    (fileTruncate f n s).Leaves Zeroed fun _ => True := by
  have start := cuts.cutting zeroed
  unfold fileTruncate
  rw [show s.fSize f = s.content.field f 32 from field_content holds.cached 32]
  generalize newBlocks n = new at start ⊢
  generalize roundBlocks (s.content.field f 32) = old at start ⊢
  have loop : (Result.forRange (old - new) (fun k s => panicOnClear (fileClearBlock f (new + k) s)) s).Meets
      (fun _ t => ∃ role', Holds False t role' f ∧ Cutting f new old (old - new) t) (fun _ => False) fun _ => True := by
    refine Result.Meets.forRange (fun k t => ∃ role', Holds False t role' f ∧ Cutting f new old k t) ⟨role, holds, start⟩
      fun k t below before => ?_
    obtain ⟨role', holds, cutting⟩ := before
    have clear := fileClearBlock_spec (new + k) holds.cached (holds.placed.parts holds.consistent)
    cases run : fileClearBlock f (new + k) t with
    | ok u v =>
      rw [run] at clear
      obtain ⟨role'', after, -⟩ := clear.1.content.holds holds clear.1.cached
      exact ⟨role'', after, cutting.round holds (by omega) run⟩
    | err r v => trivial
    | stop cause => trivial
  refine (loop.mono (fun _ _ h => h) (fun _ no => no.elim) fun _ h => h).bind fun _ t cut => ?_
  obtain ⟨role', holds, cutting⟩ := cut
  show Zeroed ((if new ≤ ndirect then dropIndirect f t else t).setField f 32 n)
  split
  · rename_i few
    have dropped := dropIndirect_dropped holds.cached (holds.placed.parts holds.consistent)
    obtain ⟨role'', after, -⟩ := dropped.holds holds fun x => dropIndirect_cached
    exact after.zeroed_setField (holds.zeroed_dropIndirect cutting.zeroed (cutting.wiped few))
  · exact holds.zeroed_setField cutting.zeroed

theorem fileSetSize_zeroed (holds : Holds False s role f) (zeroed : Zeroed s) (cuts : n < s.fSize f → CutsWiped f n s) :
    (fileSetSize f n s).Leaves Zeroed fun _ => True := by
  unfold fileSetSize
  refine Result.Meets.bind (P := fun _ t => Zeroed (t.setField f 32 n)) ?_ fun _ t zeroed => flushDir_kept zeroed_read zeroed
  split
  · rename_i smaller
    have less : n.toNat ≤ (s.content.field f 32).toNat := by
      rw [← show s.fSize f = s.content.field f 32 from field_content holds.cached 32]
      exact Nat.le_of_lt smaller
    refine ((fileTruncate_spec holds (live_false f _) less).also (fileTruncate_zeroed holds zeroed (cuts smaller))).mono
      (fun _ t both => ?_) (fun _ h => h) fun _ h => h
    obtain ⟨⟨role', resized, -⟩, zeroed⟩ := both
    exact resized.holds.zeroed_setField zeroed
  · exact holds.zeroed_setField zeroed

theorem fileRemove_zeroed {path : List Byte} (held : Held False root (Live False root) s) (zeroed : Zeroed s)
    (cuts : ∀ w t f, walkPath path s = .ok w t → w.file = some f → CutsWiped f 0 t) :
    (fileRemove path s).Leaves Zeroed fun _ => True := by
  have walked := (walkPath_spec path held).and (walkPath_zeroed path held zeroed)
  unfold fileRemove
  cases run : walkPath path s with
  | stop cause => trivial
  | err r t =>
    rw [run] at walked
    exact walked.2
  | ok w t =>
    rw [run] at walked
    have reached : WalkedTo False w t := walked.1
    have zeroed : Zeroed t := walked.2
    simp only [Result.ok_bind]
    cases found : w.file with
    | none => exact zeroed
    | some f =>
      obtain ⟨role, holds, -⟩ := zeroed.known (reached.file f found)
      refine ((fileTruncate_spec holds (live_false f _) (Nat.zero_le _)).also
        (fileTruncate_zeroed holds zeroed (cuts w t f run found))).bind fun _ u both => ?_
      obtain ⟨⟨role', resized, -⟩, zeroed⟩ := both
      have named : Zeroed (u.setNameByte f 0 0) := resized.holds.zeroed_setField zeroed
      exact Result.Meets.bind (fileFlush_kept zeroed_read named) fun _ _ zeroed => flushDir_kept zeroed_read zeroed

end Cut

section Steps

variable {t u : Server}

/-- The requests that keep the owners of the blocks, free blocks only that are wiped, and the stores of clients that leave
    the free blocks alone. -/
structure ZeroGuard (t : Server) (op : ServeOp) : Prop where
  owns : OwnGuard False t op
  cuts : ∀ f n s, Truncates t op f n s → CutsWiped f n s
  stores : ∀ b i v, op = .store b i v → t.fs.content.Free b → v = 0

/-- The tree is whole and no free block is stale. -/
structure Spotless (t : Server) : Prop extends Whole False t where
  zeroed : Zeroed t.fs

variable (before : Spotless t)
include before

theorem Spotless.held : Held False root (Live False root) t.fs :=
  .inr ⟨_, before.holds .ofRoot before.super, live_false root _⟩

theorem serveOpen_zeroed {path : List Byte} {omode : Word} (guard : ZeroGuard t (.fsreqOpen path omode)) :
    (serveOpen path omode t).Leaves (fun v => Zeroed v.fs) fun _ => True := by
  have alloc := openAlloc_table t
  have kept : (openAlloc t).Leaves (fun v => Zeroed v.fs) fun _ => True := openAlloc_kept zeroed_read before.zeroed
  have owns := guard.owns
  unfold serveOpen
  cases run : openAlloc t with
  | stop cause => trivial
  | err r u =>
    rw [run] at kept
    exact kept
  | ok i u =>
    rw [run] at alloc kept
    have zeroed : Zeroed u.fs := kept
    have held : Held False root (Live False root) u.fs := before.held.read alloc.2.2
    rw [Result.ok_bind]
    have find := (openFind_spec (fun creat : omode &&& oCreat ≠ 0 => owns creat i u run) held).also
      (openFind_zeroed (fun creat => (owns creat i u run).1) held zeroed)
    cases found : openFind path omode u.fs with
    | stop cause => trivial
    | err r s =>
      rw [found] at find
      exact find
    | ok f s =>
      rw [found] at find
      have zeroed : Zeroed s := find.2
      obtain ⟨role, holds, -⟩ := zeroed.known find.1
      show Result.Leaves (if _ then _ else _) _ _
      split
      · exact zeroed
      · rename_i isDir
        have cut : (if omode &&& oTrunc ≠ 0 then fileSetSize f 0 s else .ok () s).Leaves Zeroed fun _ => True := by
          split
          · rename_i trunc
            exact fileSetSize_zeroed holds zeroed fun less => guard.cuts f 0 s (.ofSize (.ofOpen run found isDir trunc) less)
          · exact zeroed
        refine Result.Meets.bind (P := fun _ v => Zeroed v.fs) (withFs_kept cut) fun _ v zeroed => ?_
        exact zeroed

theorem store_zeroed {b : Nat} {v : Word} (plain : ¬ Meta t.fs.content b) (free : t.fs.content.Free b → v = 0) :
    Zeroed (t.fs.setWord b i v) := by
  have high : t.fs.content.bitmapEnd < b := Nat.lt_of_not_le fun low => plain (.inl low)
  have two := t.fs.content.two_le_bitmapEnd
  have off : ∀ x, x ≠ b → (t.fs.setWord b i v).content x = t.fs.content x := fun x => content_setWord_ne
  refine before.zeroed.change (congrArg BitVec.toNat (congrFun (off 1 (by omega)) 1)) (fun _ => setWord_cached) rfl
    fun x data isFree => ?_
  have was : t.fs.content.Free x := by
    refine (Image.Free.congr data.2 fun y isBitmap => off y ?_).mp isFree
    rintro rfl
    exact absurd isBitmap.2 (Nat.not_le.mpr high)
  by_cases here : x = b
  · subst here
    have wiped := before.zeroed.wiped x data was
    refine .inr fun p stored j small => ?_
    cases (Function.update_self x _ _).symm.trans stored
    rw [free was]
    by_cases word : j = i
    · rw [word, Function.update_self]
    · rw [Function.update_of_ne word]
      exact wiped.page small
  · exact .inl ⟨was, Function.update_of_ne here _ _⟩

theorem serveStep_zeroed {op : ServeOp} (guard : ZeroGuard t op) (next : serveStep t op = some u) : Zeroed u.fs := by
  have zeroed := before.zeroed
  have done : ∀ {r : SRes Reply}, r.Leaves (fun v => Zeroed v.fs) (fun _ => True) → r.state = some u → Zeroed u.fs :=
    fun left state => left.state state
  have onFile : ∀ {fileid : Word} {body : FilePtr → Store → Res Reply},
      (∀ f, OpenFile t fileid f → (body f t.fs).Leaves Zeroed fun _ => True) →
      (onOpen fileid body t).Leaves (fun v => Zeroed v.fs) fun _ => True := fun known => onOpen_leaves zeroed known
  cases op <;> simp only [serveStep] at next
  case fsreqOpen path omode => exact done (serveOpen_zeroed before guard) next
  case fsreqMap fileid offset =>
    refine done (Result.Meets.bind (P := fun _ v => Zeroed v.fs) (onFile fun f file => ?_) fun r v h => ?_) next
    · obtain ⟨reach, -⟩ := guard.owns f file
      have holds := before.holds reach (before.opened _ _ file.file)
      exact reply_kept (fileGetBlock_zeroed holds zeroed _) _
    · split
      · exact h
      · exact h
  case fsreqSetSize fileid size =>
    refine done (onFile fun f file => reply_kept ?_ _) next
    obtain ⟨reach, -⟩ := guard.owns f file
    have holds := before.holds reach (before.opened _ _ file.file)
    exact fileSetSize_zeroed holds zeroed fun less => guard.cuts f size t.fs (.ofSize (.ofSetSize file) less)
  case fsreqClose fileid => exact done (onFile fun f file => reply_kept (fileClose_kept zeroed_read zeroed) _) next
  case fsreqDirty fileid offset => exact done (onFile fun f file => reply_kept (fileDirty_kept zeroed_read offset zeroed) _) next
  case fsreqRemove path =>
    have removed := fileRemove_zeroed before.held zeroed fun w s f walked found => guard.cuts f 0 s (.ofRemove walked found)
    exact done (withFs_kept (reply_kept removed _)) next
  case fsreqSync => exact done (withFs_kept (reply_kept (fsSync_kept zeroed_read zeroed) _)) next
  case shareFd i =>
    split at next <;> cases next
    exact zeroed
  case dropFd i =>
    split at next <;> cases next
    exact zeroed
  case store b i v =>
    split at next <;> cases next
    exact store_zeroed before guard.owns (guard.stores b i v rfl)

theorem serveStep_spotless {op : ServeOp} (guard : ZeroGuard t op) (next : serveStep t op = some u) : Spotless u := by
  have zeroed := serveStep_zeroed before guard next
  exact ⟨serveStep_whole (fun _ => before.toWhole) guard.owns next zeroed.clean, zeroed⟩

end Steps

section Boot

variable {disk : Image}

/-- `fs_init` caches no data block. -/
def Low (disk : Image) (s : Store) : Prop := ∀ x, disk.bitmapEnd < x → s.cache x = none

theorem Low.update (low : Low disk s) (small : b ≤ disk.bitmapEnd) (page : Option Page) {x : Nat} (high : disk.bitmapEnd < x) :
    Function.update s.cache b page x = none := by
  rw [Function.update_of_ne (by omega)]
  exact low x high

theorem Low.load (low : Low disk s) (small : b ≤ disk.bitmapEnd) : (loadBlock b s).Leaves (Low disk) fun _ => True :=
  loadBlock_leaves b low low fun _ _ high => low.update small _ high

theorem Low.panicLoad (low : Low disk s) (small : b ≤ disk.bitmapEnd) :
    (panicOn (loadBlock b s)).Meets (fun _ => Low disk) (fun _ => False) fun _ => True := panicOn_meets (low.load small)

theorem Low.write (low : Low disk s) : (writeBlock b s).Leaves (Low disk) fun _ => True := by
  unfold writeBlock
  split
  · trivial
  · exact low

theorem checkWriteBlock_low (low : Low disk s) : (checkWriteBlock s).Leaves (Low disk) fun _ => True := by
  have two := disk.two_le_bitmapEnd
  unfold checkWriteBlock
  refine ((low.panicLoad (by omega)).mono (fun _ _ h => h) (fun _ no => no.elim) fun _ h => h).bind fun _ t low => ?_
  have smashed : Low disk ((t.setPage 0 (t.page 1)).setPage 1 (Store.smash (t.page 1))) := fun x high =>
    Low.update (s := t.setPage 0 (t.page 1)) (fun x high => low.update (by omega) _ high) (by omega) _ high
  refine smashed.write.bind fun _ u low => ?_
  have unmapped : Low disk (u.unmap 1) := fun x high => low.update (by omega) _ high
  refine ((unmapped.panicLoad (by omega)).mono (fun _ _ h => h) (fun _ no => no.elim) fun _ h => h).bind fun _ v low => ?_
  have back : Low disk (v.setPage 1 (v.page 0)) := fun x high => low.update (by omega) _ high
  exact back.write

theorem readBitmap_low (low : Low disk s) (size : s.nblocks = disk.nblocks) : (readBitmap s).Leaves (Low disk) fun _ => True := by
  unfold readBitmap
  rw [size]
  refine Result.Meets.bind (P := fun _ => Low disk) ?_ fun _ t low => ?_
  · refine Result.Meets.mono (Result.Meets.forRange (fun _ => Low disk) (E := Low disk) (S := fun _ => True) low fun i t below low => ?_)
      (fun _ _ h => h) (fun _ h => h) fun _ h => h
    split
    · trivial
    · refine (low.load ?_).tested.bind fun r u h => ?_
      · unfold Image.bitmapEnd
        omega
      · cases r <;> exact h
  · split
    · trivial
    · exact low

theorem serverInit_low {memory : Nat → Bool} {t : Server} (booted : serverInit disk memory = some t) : Low disk t.fs := by
  obtain ⟨fs, state, rfl⟩ := Option.map_eq_some_iff.mp booted
  have two := disk.two_le_bitmapEnd
  have start : Low disk (bootStore disk memory) := fun _ _ => rfl
  have super : (readSuper (bootStore disk memory)).Leaves (Low disk) fun _ => True := by
    unfold readSuper
    refine ((start.panicLoad (b := 1) (by omega)).mono (fun _ _ h => h) (fun _ no => no.elim) fun _ h => h).bind fun _ t low => ?_
    split
    · trivial
    · split
      · trivial
      · exact low
  have init : (fsInit (bootStore disk memory)).Leaves (Low disk) fun _ => True := by
    unfold fsInit
    refine (((readSuper_spec disk memory).also super).mono (fun _ _ h => h) (fun _ h => h) fun _ h => h).bind fun _ u both => ?_
    refine ((checkWriteBlock_spec both.1).also (checkWriteBlock_low both.2)).bind fun _ v both => ?_
    exact readBitmap_low both.2 ((nblocks_content both.1.super).trans both.1.nblocks)
  exact init.state state

theorem Exclusive.spotless {memory : Nat → Bool} {t : Server} (exclusive : Exclusive disk)
    (booted : serverInit disk memory = some t) (charted : Charted t.fs) : Spotless t := by
  have init := (serverInit_booted booted).1
  refine ⟨Sound.whole ⟨exclusive, False.elim⟩ booted, init.super, charted, fun b data _ p cached => ?_, ?_⟩
  · rw [Image.IsData.of_nblocks init.nblocks] at data
    rw [serverInit_low booted b data.1] at cached
    cases cached
  · rw [init.given]
    exact fun g none => nomatch none

/-- From a disk on which the pointers of the tree own their blocks, with the bitmap in the cache, the blocks that files
    get come with zeros while `file_truncate` frees wiped blocks only and clients leave the free blocks alone. -/
theorem given_zero {memory : Nat → Bool} {t0 t : Server} {ops : List ServeOp} (exclusive : Exclusive disk)
    (booted : serverInit disk memory = some t0) (charted : Charted t0.fs) (run : Run serveStep ZeroGuard t0 ops t) :
    ∀ g ∈ t.fs.given, g.Zero :=
  fun g mem => ((run.invariant Spotless (exclusive.spotless booted charted) fun _ _ _ before guard next =>
    serveStep_spotless before guard next).zeroed.given g mem).1

end Boot

theorem zeroGuard_create {t : Server} {path : List Byte} (owns : OwnGuard False t (.fsreqOpen path oCreat)) :
    ZeroGuard t (.fsreqOpen path oCreat) where
  owns := owns
  cuts f n s truncates := by
    cases truncates with
    | ofSize sets less =>
      cases sets with
      | ofOpen alloc find isDir trunc => exact absurd (by decide) trunc
  stores := nofun

theorem zeroGuard_map {t : Server} {fileid offset : Word} (owns : OwnGuard False t (.fsreqMap fileid offset)) :
    ZeroGuard t (.fsreqMap fileid offset) where
  owns := owns
  cuts f n s truncates := by
    cases truncates with
    | ofSize sets less => cases sets
  stores := nofun

/-- The computable form of `CutsWiped` for a file without an indirect block. -/
def cutsCheck (f : FilePtr) (n : Word) (s : Store) : Bool :=
  s.content.indirect f = 0 && (List.range (roundBlocks (s.content.field f 32))).all fun i =>
    i < newBlocks n || (s.cache (s.content.target f (some i))).all fun p => (List.range 1024).all fun k => p k = 0

theorem cutsWiped_of_check (check : cutsCheck f n s = true) : CutsWiped f n s := by
  simp only [cutsCheck, Bool.and_eq_true, decide_eq_true_eq, List.all_eq_true, List.mem_range, Bool.or_eq_true] at check
  refine ⟨fun i low high _ p cached k small => ?_, fun _ held => absurd check.1 held⟩
  have wiped := (check.2 i high).resolve_left (Nat.not_lt.mpr low)
  rw [cached, Option.all_some, List.all_eq_true] at wiped
  exact of_decide_eq_true (wiped k (List.mem_range.mpr small))

theorem zeroGuard_setSize {t : Server} {fileid size : Word} (slot : firstSlot t.fs.content = true)
    (file : (t.opentab fileid.toNat).file = some (fileOf 3 0)) (plain : t.fs.content.field (fileOf 3 0) 33 ≠ ftypeDir)
    (cuts : size < t.fs.fSize (fileOf 3 0) → cutsCheck (fileOf 3 0) size t.fs = true) : ZeroGuard t (.fsreqSetSize fileid size) where
  owns f opened := by
    cases file.symm.trans opened.file
    exact ⟨reach_firstSlot slot (by decide), False.elim, fun isDir => absurd isDir plain⟩
  cuts f n s truncates := by
    cases truncates with
    | ofSize sets less =>
      cases sets with
      | ofSetSize opened =>
        cases file.symm.trans opened.file
        exact cutsWiped_of_check (cuts less)
  stores := nofun

/-- A client maps a block of `/a` without a store to it, cuts the file off and maps its first block again. -/
def wipedRun : List ServeOp :=
  [.fsreqOpen [0x2f, 0x61] oCreat, .fsreqMap 0 0, .fsreqSetSize 0 4096, .fsreqSetSize 0 0, .fsreqMap 0 0]

set_option maxRecDepth 100000 in
theorem given_zero_wipedRun : ∃ t0 t, emptyServer = some t0 ∧ Run serveStep ZeroGuard t0 wipedRun t ∧
    t.fs.given.map Given.block = [4, 4, 3] ∧ ∀ g ∈ t.fs.given, g.Zero := by
  have check : (emptyServer.any fun t0 => chartedCheck t0.fs && createCheck [0x2f, 0x61] t0 &&
      (serveStep t0 (.fsreqOpen [0x2f, 0x61] oCreat)).any fun t1 =>
        firstSlot t1.fs.content && (t1.opentab 0).file = some (fileOf 3 0) &&
        (serveStep t1 (.fsreqMap 0 0)).any fun t2 =>
          firstSlot t2.fs.content && (t2.opentab 0).file = some (fileOf 3 0) &&
          t2.fs.content.field (fileOf 3 0) 33 ≠ ftypeDir && t2.fs.fSize (fileOf 3 0) = 0 &&
          (serveStep t2 (.fsreqSetSize 0 4096)).any fun t3 =>
            firstSlot t3.fs.content && (t3.opentab 0).file = some (fileOf 3 0) &&
            t3.fs.content.field (fileOf 3 0) 33 ≠ ftypeDir && cutsCheck (fileOf 3 0) 0 t3.fs &&
            (serveStep t3 (.fsreqSetSize 0 0)).any fun t4 =>
              firstSlot t4.fs.content && (t4.opentab 0).file = some (fileOf 3 0) &&
              (serveStep t4 (.fsreqMap 0 0)).any fun t5 => t5.fs.given.map Given.block = [4, 4, 3]) = true := by decide +kernel
  simp only [Option.any_eq_true, Bool.and_eq_true, decide_eq_true_eq] at check
  obtain ⟨t0, booted, ⟨charted, create⟩, t1, first, ⟨slot1, file1⟩, t2, second, ⟨⟨⟨slot2, file2⟩, plain2⟩, small⟩, t3, third,
    ⟨⟨⟨slot3, file3⟩, plain3⟩, wiped⟩, t4, fourth, ⟨slot4, file4⟩, t5, fifth, blocks⟩ := check
  have opens : Run serveStep ZeroGuard t0 [.fsreqOpen [0x2f, 0x61] oCreat, .fsreqMap 0 0] t2 :=
    (Run.nil.snoc (zeroGuard_create (ownGuard_create (by decide) create)) first).snoc
      (zeroGuard_map (ownGuard_first slot1 file1 False.elim)) second
  have grows : ZeroGuard t2 (.fsreqSetSize 0 4096) := zeroGuard_setSize slot2 file2 plain2 fun less => by
    rw [small] at less
    exact absurd less (by decide)
  have cuts : ZeroGuard t3 (.fsreqSetSize 0 0) := zeroGuard_setSize slot3 file3 plain3 fun _ => wiped
  have run : Run serveStep ZeroGuard t0 wipedRun t5 :=
    ((opens.snoc grows third).snoc cuts fourth).snoc (zeroGuard_map (ownGuard_first slot4 file4 False.elim)) fifth
  exact ⟨t0, t5, booted, run, blocks, given_zero emptyImage_exclusive booted (charted_of_check charted) run⟩

/-- A client writes to a block of `/a`, cuts the file off and maps its first block again. -/
def staleRun : List ServeOp :=
  [.fsreqOpen [0x2f, 0x61] oCreat, .fsreqMap 0 0, .store 4 0 7, .fsreqSetSize 0 4096, .fsreqSetSize 0 0, .fsreqMap 0 0]

set_option maxRecDepth 100000 in
theorem given_stale : ∃ t0 t, emptyServer = some t0 ∧ Run serveStep (fun _ _ => True) t0 staleRun t ∧
    ¬ ∀ g ∈ t.fs.given, g.Zero := by
  have check : ((emptyServer.bind fun t => Run.exec serveStep t staleRun).any fun t => t.fs.given.any fun g =>
      g.page 0 = 7) = true := by decide +kernel
  obtain ⟨t, exec, stale⟩ := Option.any_eq_true .. |>.mp check
  obtain ⟨t0, booted, exec⟩ := Option.bind_eq_some_iff.mp exec
  obtain ⟨g, mem, seven⟩ := List.any_eq_true.mp stale
  refine ⟨t0, t, booted, Run.of_exec (fun _ _ _ => trivial) exec, fun zero => ?_⟩
  rw [decide_eq_true_eq, zero g mem 0 (by decide)] at seven
  cases seven

end Mos.Fs
