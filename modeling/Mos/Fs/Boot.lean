import Mos.Fs.Content

namespace Mos.Fs

variable {disk : Image} {s t : Store}

/-- While the super block is tested, its contents are in block 0. -/
structure Backed (disk : Image) (t : Store) : Prop where
  rest : ∀ b, 2 ≤ b → t.content b = disk b
  backup : t.cache 0 = some (disk 1)
  given : t.given = []

theorem Backed.loaded (backed : Backed disk t) (b : Nat) (hole : t.cache b = none) :
    Backed disk { t with cache := Function.update t.cache b (some (t.disk b)), dirty := Function.update t.dirty b false,
                         asked := t.asked + 1 } := by
  have same := (Read.refl t).loaded b hole
  refine ⟨fun x low => (congrFun same.content x).trans (backed.rest x low), ?_, backed.given⟩
  have other : (0 : Nat) ≠ b := by
    rintro rfl
    rw [backed.backup] at hole
    cases hole
  exact (Function.update_of_ne other _ _).trans backed.backup

theorem backed_kept (disk : Image) : KeptByRead (Backed disk) fun _ => True where
  panic := trivial
  wild := trivial
  asked _ h := ⟨h.rest, h.backup, h.given⟩
  loaded _ b h hole _ := h.loaded b hole
  marked _ _ h := ⟨h.rest, h.backup, h.given⟩
  written t b p h cached := by
    have same := (read_kept t).written t b p (Read.refl t) cached
    exact ⟨fun x low => (congrFun same.content x).trans (h.rest x low), h.backup, h.given⟩

theorem loadBlock_cached (b : Nat) (s : Store) :
    (loadBlock b s).Meets (fun _ t => t.cache b ≠ none) (fun _ => True) fun _ => True := by
  unfold loadBlock sysMemAlloc
  cases cached : s.cache b with
  | some p =>
    show s.cache b ≠ none
    rw [cached]
    nofun
  | none =>
    dsimp only
    split
    · simp [Result.Meets]
    · trivial

theorem panicOn_meets {r : Res Unit} {P : Unit → Store → Prop} {E : Store → Prop} (h : r.Meets P E fun _ => True) :
    (panicOn r).Meets P (fun _ => False) fun _ => True := by
  cases r with
  | ok u t => exact h
  | err e t => trivial
  | stop cause => trivial

/-- `fs_init` reads the blocks of the disk; only block 0 gets a copy of the super block. -/
structure Booted (disk : Image) (t : Store) : Prop where
  content : ∀ b, b ≠ 0 → t.content b = disk b
  super : t.cache 1 ≠ none
  given : t.given = []

theorem Booted.read (booted : Booted disk s) (read : Read s t) : Booted disk t where
  content b ne := (congrFun read.content b).trans (booted.content b ne)
  super := read.cached 1 booted.super
  given := read.given.trans booted.given

theorem panicOn_load (b : Nat) (s : Store) :
    (panicOn (loadBlock b s)).Meets (fun _ t => Read s t ∧ t.cache b ≠ none) (fun _ => False) fun _ => True := by
  have both := Result.Meets.and (loadBlock_read b s) (loadBlock_cached b s)
  exact panicOn_meets both

theorem checkWriteBlock_spec (booted : Booted disk s) :
    (checkWriteBlock s).Meets (fun _ t => Booted disk t) (fun _ => False) fun _ => True := by
  unfold checkWriteBlock
  refine (panicOn_load 0 s).bind fun _ u loaded => ?_
  have booted' := booted.read loaded.1
  obtain ⟨super, cached⟩ := Option.ne_none_iff_exists'.mp booted'.super
  have page : u.page 1 = disk 1 := by
    rw [← booted'.content 1 (by decide)]
    simp [Store.page, Store.content, cached]
  have backed : Backed disk ((u.setPage 0 (u.page 1)).setPage 1 (Store.smash (u.page 1))) := by
    refine ⟨fun b low => ?_, ?_, booted'.given⟩
    · rw [← booted'.content b (by omega)]
      have ne0 : b ≠ 0 := by omega
      have ne1 : b ≠ 1 := by omega
      simp [Store.content, Store.setPage, ne0, ne1]
    · simp [Store.setPage, page]
  have written := writeBlock_kept (backed_kept disk) 1 backed
  have noError : (writeBlock 1 ((u.setPage 0 (u.page 1)).setPage 1 (Store.smash (u.page 1)))).Meets
      (fun _ t => Backed disk t) (fun _ => False) fun _ => True := by
    unfold writeBlock at written ⊢
    split at written
    · trivial
    · exact written
  refine noError.bind fun _ v backed => ?_
  have unmapped : Backed disk (v.unmap 1) := by
    refine ⟨fun b low => ?_, ?_, backed.given⟩
    · rw [← backed.rest b low]
      have ne1 : b ≠ 1 := by omega
      simp [Store.content, Store.unmap, ne1]
    · simpa [Store.unmap] using backed.backup
  have reload := panicOn_meets (loadBlock_leaves 1 unmapped ⟨unmapped.rest, unmapped.backup, unmapped.given⟩ (unmapped.loaded 1))
  refine reload.bind fun _ w backed => ?_
  have copy : w.page 0 = disk 1 := by simp [Store.page, backed.backup]
  have cache : (w.setPage 1 (w.page 0)).cache 1 = some (disk 1) := by simp [Store.setPage, copy]
  simp only [writeBlock, cache]
  refine ⟨fun b ne => ?_, by rw [cache]; exact Option.some_ne_none _, backed.given⟩
  by_cases one : b = 1
  · subst one
    simp [Store.content, cache]
  · rw [← backed.rest b (by omega)]
    simp [Store.content, Store.setPage, one]

theorem readSuper_spec (disk : Image) (memory : Nat → Bool) :
    (readSuper (bootStore disk memory)).Meets (fun _ t => Booted disk t) (fun _ => False) fun _ => True := by
  unfold readSuper
  refine (panicOn_load 1 _).bind fun _ u loaded => ?_
  split
  · trivial
  · split
    · trivial
    · exact ⟨fun b _ => congrFun loaded.1.content b, loaded.2, loaded.1.given⟩

theorem fsInit_spec (disk : Image) (memory : Nat → Bool) :
    (fsInit (bootStore disk memory)).Meets (fun _ t => Booted disk t) (fun _ => False) fun _ => True := by
  unfold fsInit
  refine (readSuper_spec disk memory).bind fun _ t booted => ?_
  refine (checkWriteBlock_spec booted).bind fun _ u booted => ?_
  unfold readBitmap
  refine Result.Meets.bind (P := fun _ v => Booted disk v) ?_ fun _ v booted => ?_
  · refine Result.Meets.forRange (fun _ v => Booted disk v) booted fun i v _ booted => ?_
    split
    · trivial
    · have loaded := (loadBlock_read (i + 2) v).tested
      cases run : (loadBlock (i + 2) v).tested with
      | stop cause => trivial
      | err r w =>
        cases load : loadBlock (i + 2) v <;> rw [load] at run <;> cases run
      | ok r w =>
        rw [run] at loaded
        exact booted.read loaded
  · split
    · trivial
    · exact booted

theorem fsInit_memory {memory : Nat → Bool} (same : s.memory = memory) : (fsInit s).Leaves (fun t => t.memory = memory) fun _ => True := by
  have kept := (memory_kept memory).toKeptByRead
  have load : ∀ {s : Store} (b), s.memory = memory → (panicOn (loadBlock b s)).Leaves (fun t => t.memory = memory) fun _ => True :=
    fun b same => (panicOn_meets (loadBlock_leaves b same same fun _ => same)).mono (fun _ _ h => h) (fun _ no => no.elim)
      fun _ h => h
  unfold fsInit readSuper checkWriteBlock readBitmap
  refine Result.Meets.bind (P := fun _ t => t.memory = memory) ((load 1 same).bind fun _ t same => ?_) fun _ t same => ?_
  · split
    · trivial
    · split
      · trivial
      · exact same
  refine Result.Meets.bind (P := fun _ t => t.memory = memory) ((load 0 same).bind fun _ t same => ?_) fun _ t same => ?_
  · refine (writeBlock_kept (s := (t.setPage 0 (t.page 1)).setPage 1 (Store.smash (t.page 1))) kept 1 same).bind fun _ u same => ?_
    refine (load (s := u.unmap 1) 1 same).bind fun _ v same => ?_
    exact writeBlock_kept (s := v.setPage 1 (v.page 0)) kept 1 same
  · refine Result.Meets.bind (P := fun _ t => t.memory = memory)
      (Result.Leaves.forRange (E := fun t : Store => t.memory = memory) same fun i u same => ?_) fun _ u same => ?_
    · split
      · trivial
      · refine (loadBlock_leaves (i + 2) same same fun _ => same).tested.bind fun r v after => ?_
        cases r <;> exact after
    · split
      · trivial
      · exact same

theorem serverInit_memory {memory : Nat → Bool} {t : Server} (booted : serverInit disk memory = some t) : t.fs.memory = memory := by
  obtain ⟨fs, state, rfl⟩ := Option.map_eq_some_iff.mp booted
  have same : (bootStore disk memory).memory = memory := rfl
  exact (fsInit_memory same).state state

theorem serverInit_booted {disk : Image} {memory : Nat → Bool} {t : Server} (init : serverInit disk memory = some t) :
    Booted disk t.fs ∧ ∀ i, (t.opentab i).file = none := by
  obtain ⟨fs, state, rfl⟩ := Option.map_eq_some_iff.mp init
  refine ⟨?_, fun _ => rfl⟩
  have spec := fsInit_spec disk memory
  cases run : fsInit (bootStore disk memory) with
  | ok u v =>
    rw [run] at spec state
    cases state
    exact spec
  | err r v =>
    rw [run] at spec
    exact spec.elim
  | stop cause =>
    rw [run] at state
    cases state

theorem Booted.same {strict : Prop} {role : Nat → Option Owner} {g : FilePtr} (booted : Booted disk t)
    (consistent : Consistent strict disk role) (placed : Placed role g) : Same disk t.content g := by
  have two := disk.two_le_bitmapEnd
  refine Same.of_words (fun k _ => ?_) fun i _ _ held => ?_
  · rw [booted.content]
    rcases placed.block with ⟨super, _⟩ | ⟨dir, i, owner⟩
    · omega
    · have := (consistent.data _ _ owner).1
      omega
  · rw [booted.content _ held]

theorem Booted.nblocks (booted : Booted disk t) : t.content.nblocks = disk.nblocks := by
  unfold Image.nblocks
  rw [booted.content 1 (by decide)]

theorem Booted.free {b : Nat} (booted : Booted disk t) (below : b < disk.nblocks) : t.content.Free b ↔ disk.Free b :=
  Image.Free.congr below fun x isBitmap => booted.content x (by have := isBitmap.1; omega)

theorem Booted.consistent {strict : Prop} {role : Nat → Option Owner} (booted : Booted disk t)
    (consistent : Consistent strict disk role) : Consistent strict t.content role :=
  consistent.of_same booted.nblocks (fun _ below => (booted.free below).mp) fun _ => booted.same consistent

end Mos.Fs
