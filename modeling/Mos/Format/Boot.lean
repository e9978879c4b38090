import Mos.Format.ReadBack

namespace Mos.Format

open Fs

variable {c c' : Image} {i k n : Nat} {f g : FilePtr} {args : Forest} {image : Image} {memory : Nat → Bool} {s t : Store}

def Forest.inner : Forest → Nat
  | .nil => 0
  | .file _ content rest => fileBlocks (blocksFor content.length) + rest.inner
  | .dir _ entries rest => fileBlocks (dirBlocks entries.count) + entries.inner + rest.inner

/-- The blocks of a directory and of all that is in it, the indirect blocks included. -/
def Forest.blocks (forest : Forest) : Nat := fileBlocks (dirBlocks forest.count) + forest.inner

theorem slotCost_blocks (k : Nat) : slotCost k + fileBlocks (dirBlocks k) = fileBlocks (dirBlocks (k + 1)) := by
  unfold slotCost blockCost fileBlocks dirBlocks ndirect
  split <;> split <;> split <;> (try split) <;> omega

theorem forestCost_blocks (forest : Forest) (k : Nat) :
    forestCost k forest + fileBlocks (dirBlocks k) = fileBlocks (dirBlocks (k + forest.count)) + forest.inner := by
  induction forest generalizing k with
  | nil => exact Nat.zero_add _
  | file name content rest ih =>
    have after := ih (k + 1)
    have step := slotCost_blocks k
    rw [Nat.add_right_comm] at after
    show slotCost k + fileBlocks (blocksFor content.length) + forestCost (k + 1) rest + fileBlocks (dirBlocks k) =
      fileBlocks (dirBlocks (k + rest.count + 1)) + (fileBlocks (blocksFor content.length) + rest.inner)
    omega
  | dir name entries rest first second =>
    have inside := first 0
    have after := second (k + 1)
    have step := slotCost_blocks k
    rw [Nat.add_right_comm] at after
    rw [Nat.zero_add, show fileBlocks (dirBlocks 0) = 0 from rfl] at inside
    show slotCost k + forestCost 0 entries + forestCost (k + 1) rest + fileBlocks (dirBlocks k) =
      fileBlocks (dirBlocks (k + rest.count + 1)) + (fileBlocks (dirBlocks entries.count) + entries.inner + rest.inner)
    omega

theorem forestCost_eq (forest : Forest) : forestCost 0 forest = forest.blocks := by
  have cost := forestCost_blocks forest 0
  rwa [Nat.zero_add, show fileBlocks (dirBlocks 0) = 0 from rfl] at cost

theorem Made.boot (made : Made c n) (off : ∀ b, b ≠ 0 → c' b = c b) :
    Made c' n ∧ (∀ f, Reach c f → Kept c c' f) ∧ ∀ f, Reach c' f ↔ Reach c f := by
  have low := made.low
  have kept : ∀ f, Reach c f → Kept c c' f := by
    intro f reach
    refine ⟨Same.of_words (fun k _ => ?_) fun k _ _ held => ?_, fun _ i held => off _ held⟩
    · rw [off]
      rcases made.block_lt reach with rfl | ⟨above, -⟩
      · decide
      · omega
    · rw [off _ held]
  have same : ∀ f, Reach c f → Same c c' f := fun f reach => (kept f reach).toSame
  have back : ∀ {f}, Reach c' f → Reach c f := fun reach => reach_back same reach
  have named : ∀ {f}, Named c f → Named c' f := fun named => named.keep fun g other => (same g other.reach).keeps
  have super : c' 1 = c 1 := off 1 (by decide)
  have size : c'.nblocks = c.nblocks := by
    unfold Image.nblocks
    rw [super]
  have free : ∀ b, b < nblock → (c'.Free b ↔ n ≤ b) := fun b below =>
    (free_congr below (off 2 (by decide))).trans (made.free b below)
  have consistent := made.sound.consistent
  refine ⟨⟨low, made.high, by rw [super]; exact made.magic, size.trans made.size, free, fun b past => ?_, ?_, fun b least below => ?_,
    fun f i reach visible => ?_, fun f reach notRoot dead k small => ?_⟩, kept, fun f => ⟨back, fun reach => ?_⟩⟩
  · rw [off b (by omega)]
    exact made.fresh b past
  · refine (consistent.of_same size (fun b below isFree => ?_) fun g placed => ?_).sound
    · rw [made.size] at below
      exact (made.free b below).mpr ((free b below).mp isFree)
    · exact same g (made.sound.reach_of_placed placed)
  · obtain ⟨f, p, other, meets, before⟩ := made.owned b least below
    exact ⟨f, p, named other, ((same f other.reach).target p).trans meets, before⟩
  · rw [(same f (back reach)).target]
    exact made.solid f i (back reach) (((same f (back reach)).visible i).mp visible)
  · have old := same f (back reach)
    exact (old.field k small).trans (made.clean f (back reach) notRoot (old.dead.mp dead) k small)
  · induction reach with
    | ofRoot => exact .ofRoot
    | @ofSlot dir i j above visible held small ih =>
      have old := same dir above
      rw [← old.target] at held ⊢
      exact .ofSlot ih ((old.visible i).mpr visible) held small

theorem Formatted.boot (formatted : Formatted args c n) (valid : args.Valid) (off : ∀ b, b ≠ 0 → c' b = c b) :
    Formatted args c' n := by
  obtain ⟨made, kept, -⟩ := formatted.made.boot off
  obtain ⟨listing, stored⟩ := formatted.top
  have closed : Closed c c' (Reach c) := ⟨kept, fun _ _ _ reach visible held small => .ofSlot reach visible held small⟩
  refine ⟨made, formatted.count, closed.listing listing .ofRoot, closed.stored valid stored fun j _ below => ?_⟩
  have inside := (listing.live j (by omega)).1
  exact ⟨slot_same (kept root .ofRoot).toSame j, listing.reach .ofRoot inside⟩

section Server

theorem loadBlock_given (given : ∀ k, s.memory k = true) (b : Nat) :
    (loadBlock b s).Meets (fun _ t => Read s t ∧ t.memory = s.memory ∧ t.cache b ≠ none) (fun _ => False) fun _ => False := by
  have kept := loadBlock_read b s
  unfold loadBlock sysMemAlloc at kept ⊢
  cases cached : s.cache b with
  | some p => exact ⟨Read.refl s, rfl, by rw [cached]; nofun⟩
  | none =>
    rw [cached] at kept
    dsimp only at kept ⊢
    rw [if_pos (given _)] at kept ⊢
    exact ⟨kept, rfl, by simp⟩

theorem panicOn_given {r : Fs.Res Unit} {P : Unit → Store → Prop} (h : r.Meets P (fun _ => False) fun _ => False) :
    (Fs.panicOn r).Meets P (fun _ => False) fun _ => False := by
  cases r with
  | ok u t => exact h
  | err e t => exact h.elim
  | stop cause => exact h

theorem writeBlock_given {b : Nat} {p : Page} (cached : s.cache b = some p) :
    (writeBlock b s).Meets (fun _ t => t.memory = s.memory) (fun _ => False) fun _ => False := by
  unfold writeBlock
  rw [cached]
  exact rfl

theorem checkWriteBlock_given (given : ∀ k, s.memory k = true) :
    (checkWriteBlock s).Meets (fun _ t => t.memory = s.memory) (fun _ => False) fun _ => False := by
  refine (panicOn_given (loadBlock_given given 0)).bind fun _ t ⟨_, same, _⟩ => ?_
  refine (writeBlock_given (s := (t.setPage 0 (t.page 1)).setPage 1 (Store.smash (t.page 1))) (Function.update_self ..)).bind
    fun _ u same' => ?_
  have memory : (u.unmap 1).memory = s.memory := same'.trans same
  refine (panicOn_given (loadBlock_given (memory ▸ given) 1)).bind fun _ v ⟨_, same'', _⟩ => ?_
  exact (writeBlock_given (s := v.setPage 1 (v.page 0)) (Function.update_self ..)).mono (fun _ _ last =>
    last.trans (same''.trans memory)) (fun _ no => no) fun _ no => no

theorem meets_both {r : Fs.Res Unit} {P Q : Unit → Store → Prop} (first : r.Meets P (fun _ => False) fun _ => True)
    (second : r.Meets Q (fun _ => False) fun _ => False) : r.Meets (fun a s => P a s ∧ Q a s) (fun _ => False) fun _ => False := by
  cases r with
  | ok a t => exact ⟨first, second⟩
  | err e t => exact first
  | stop cause => exact second

variable (made : Made c n)
include made

theorem Made.nblocks_booted (booted : Booted c s) : s.nblocks = 1024 := by
  rw [nblocks_content booted.super, booted.nblocks]
  exact made.size

theorem readSuper_given (given : ∀ k, memory k = true) :
    (readSuper (bootStore c memory)).Meets (fun _ t => Booted c t ∧ t.memory = memory) (fun _ => False) fun _ => False := by
  refine (panicOn_given (loadBlock_given (s := bootStore c memory) given 1)).bind fun _ t ⟨read, same, cached⟩ => ?_
  have booted : Booted c t := ⟨fun b _ => congrFun read.content b, cached, read.given⟩
  have magic : t.word 1 0 = fsMagic := by
    rw [word_content cached, booted.content 1 (by decide)]
    exact made.magic
  rw [if_neg (not_not.mpr magic), made.nblocks_booted booted, if_neg (by decide)]
  exact ⟨booted, same⟩

theorem readBitmap_given (booted : Booted c s) (given : ∀ k, s.memory k = true) :
    (readBitmap s).Meets (fun _ t => t.cache 2 ≠ none) (fun _ => False) fun _ => False := by
  unfold readBitmap
  dsimp only
  rw [made.nblocks_booted booted]
  refine Result.Meets.bind (P := fun _ t => Booted c t ∧ t.cache 2 ≠ none) ?_ fun _ t ⟨booted, cached⟩ => ?_
  · refine (Result.Meets.forRange (fun i t => Booted c t ∧ t.memory = s.memory ∧ (i = 1 → t.cache 2 ≠ none))
      ⟨booted, rfl, nofun⟩ fun i t below before => ?_).mono (fun _ _ after => ⟨after.1, after.2.2 rfl⟩) (fun _ no => no) fun _ no => no
    obtain ⟨booted, same, _⟩ := before
    have first : i < 1 := below
    obtain rfl : i = 0 := by omega
    rw [made.nblocks_booted booted, if_neg (by decide)]
    refine Result.Meets.bind (Q := fun _ t => Booted c t ∧ t.memory = s.memory ∧ (0 + 1 = 1 → t.cache 2 ≠ none))
      (loadBlock_given (same ▸ given) 2).tested fun r u loaded => ?_
    cases r with
    | error code => exact loaded.elim
    | ok value => exact ⟨booted.read loaded.1, loaded.2.1.trans same, fun _ => loaded.2.2⟩
  · rw [if_neg]
    · exact cached
    · rw [List.any_eq_true]
      rintro ⟨b, mem, isFree⟩
      have below : b < 3 := List.mem_range.mp mem
      have low := made.low
      have inside : b < nblock := by
        show b < 1024
        omega
      unfold blockIsFree at isFree
      rw [made.nblocks_booted booted, if_neg (by omega), decide_eq_true_iff] at isFree
      have free := (booted.free (made.size ▸ inside)).mp (free_of_bitmap isFree)
      have := (made.free b inside).mp free
      omega

theorem Made.boots (given : ∀ k, memory k = true) : ∃ t, serverInit c memory = some t ∧ Charted t.fs := by
  have init : (fsInit (bootStore c memory)).Meets (fun _ t => t.cache 2 ≠ none) (fun _ => False) fun _ => False := by
    unfold fsInit
    refine (readSuper_given made given).bind fun _ t ⟨booted, same⟩ => ?_
    refine (meets_both (checkWriteBlock_spec booted) (checkWriteBlock_given (same ▸ given))).bind fun _ u ⟨booted, same'⟩ => ?_
    exact readBitmap_given made booted (same'.trans same ▸ given)
  have spec := fsInit_spec c memory
  unfold serverInit
  cases run : fsInit (bootStore c memory) with
  | err e t =>
    rw [run] at init
    exact init.elim
  | stop cause =>
    rw [run] at init
    exact init.elim
  | ok u t =>
    rw [run] at init spec
    refine ⟨_, rfl, fun b isBitmap => ?_⟩
    rw [(isBitmap_iff (spec.nblocks.trans made.size)).mp isBitmap]
    exact init

end Server

theorem Formatted.ofRun (valid : args.Valid) (run : fsformat args = some image) : ∃ n, Formatted args image n := by
  have some : args ≠ .nil := by
    rintro rfl
    cases run
  exact ((fsformat_spec some valid).some run).2

theorem image_of_fits (some : args ≠ .nil) (valid : args.Valid) (fits : 3 + args.blocks ≤ nblock) :
    ∃ image, fsformat args = .some image := by
  rw [← forestCost_eq] at fits
  exact Option.isSome_iff_exists.mp ((fsformat_spec some valid).isSome.mpr fits)

/-- The image of `fsformat` is a directory tree in which no two pointers meet, with nothing left in the free slots, and
    each block in use is one of a file with a name. -/
theorem fsformat_consistent (well : args.WellNamed) (run : fsformat args = some image) :
    DirTree image ∧ Sound True image ∧ NoLeak image := by
  obtain ⟨n, formatted⟩ := Formatted.ofRun well.valid run
  exact ⟨formatted.made.dirTree formatted.top well, formatted.made.sound, formatted.made.noLeak⟩

/-- A directory "bin" with a file "a" of two bytes. -/
def binForest : Forest := .dir [0x62, 0x69, 0x6e] (.file [0x61] [7, 8] .nil) .nil

theorem binForest_well : binForest.WellNamed := by
  have bin : ValidName [0x62, 0x69, 0x6e] := ⟨⟨List.cons_ne_nil _ _, by decide⟩, by decide⟩
  have a : ValidName [0x61] := ⟨⟨List.cons_ne_nil _ _, by decide⟩, by decide⟩
  exact ⟨bin, List.not_mem_nil, ⟨a, List.not_mem_nil, trivial⟩, trivial⟩

theorem binForest_some : binForest ≠ .nil := by
  unfold binForest
  exact Forest.noConfusion

theorem binForest_image : ∃ image, fsformat binForest = some image :=
  image_of_fits binForest_some binForest_well.valid (by decide)

theorem fsformat_consistent_bin : ∃ image, fsformat binForest = some image ∧ DirTree image ∧ Sound True image ∧ NoLeak image := by
  obtain ⟨image, run⟩ := binForest_image
  exact ⟨image, run, fsformat_consistent binForest_well run⟩

/-- `fsformat` stays inside `disk` and makes an image just when it has arguments and these fit, and the server starts
    on it. -/
theorem fsformat_fits (valid : args.Valid) : ((fsformat args).isSome ↔ args ≠ .nil ∧ 3 + args.blocks ≤ nblock) ∧
    ∀ image memory, fsformat args = some image → (∀ k, memory k = true) → ∃ t, serverInit image memory = some t ∧ Charted t.fs := by
  refine ⟨?_, fun image memory run given => ?_⟩
  · by_cases none : args = .nil
    · subst none
      exact iff_of_false nofun fun both => both.1 rfl
    · rw [(fsformat_spec none valid).isSome, forestCost_eq]
      exact (and_iff_right none).symm
  · obtain ⟨n, formatted⟩ := Formatted.ofRun valid run
    exact formatted.made.boots given

theorem fsformat_fits_bin : ∃ image t, fsformat binForest = some image ∧ serverInit image (fun _ => true) = some t ∧ Charted t.fs := by
  obtain ⟨fits, boots⟩ := fsformat_fits binForest_well.valid
  have blocks : binForest.blocks = 3 := rfl
  obtain ⟨image, run⟩ := Option.isSome_iff_exists.mp (fits.mpr ⟨binForest_some, by rw [blocks]; decide⟩)
  obtain ⟨t, booted, charted⟩ := boots image (fun _ => true) run fun _ => rfl
  exact ⟨image, t, run, booted, charted⟩

/-- On the image of `fsformat` the server finds under each path just the file or the directory that the arguments have
    there, with its contents, unless it runs out of memory. -/
theorem fsformat_read (well : args.WellNamed) (run : fsformat args = some image) {t : Server}
    (booted : serverInit image memory = some t) (path : List Byte) :
    ∃ w u, walkPathLoop path t.fs = .ok w u ∧ (w.code = -eNoMem ∧ w.file = none ∧ RunsOut memory ∨
      match (Node.dir args).lookup (pathElements path) with
      | some node => w.code = 0 ∧ ∃ f, w.file = some f ∧ IsNode t.fs.content f node
      | none => w.code ≠ 0 ∧ w.file = none) := by
  obtain ⟨n, formatted⟩ := Formatted.ofRun well.valid run
  obtain ⟨boot, -⟩ := serverInit_booted booted
  have same := serverInit_memory booted
  have shown := formatted.boot well.valid boot.content
  have tree := shown.made.dirTree shown.top well
  have plain : ∀ name ∈ pathElements path, Plain name := fun name mem => plain_of_mem mem
  have shows : Shows t.fs.content memory t.fs := ⟨boot.super, fun _ _ _ => rfl, same⟩
  obtain ⟨w, u, walked, answer, -⟩ := walkElements_answer tree.short .ofRoot (fun name mem => (plain name mem).isName)
    (tree.solid .ofRoot _) shows boot.super
  refine ⟨w, u, (walkPathLoop_eq path t.fs).trans walked, ?_⟩
  have top : IsNode t.fs.content root (.dir args) := shown.top
  cases answer with
  | noMem out => exact .inl ⟨rfl, rfl, out⟩
  | found resolves =>
    obtain ⟨node, looked, isNode⟩ := top.resolves well plain resolves
    rw [looked]
    exact .inr ⟨rfl, _, rfl, isNode⟩
  | absent misses =>
    refine .inr ?_
    cases looked : (Node.dir args).lookup (pathElements path) with
    | none =>
      have code : -eNotFound ≠ 0 := by decide
      exact ⟨code, rfl⟩
    | some node =>
      obtain ⟨d, x, resolves, -⟩ := top.lookup well looked none
      exact absurd misses (resolves.not_misses tree.short .ofRoot fun name mem => (plain name mem).isName)
  | fails codes unresolved present =>
    refine .inr ?_
    cases looked : (Node.dir args).lookup (pathElements path) with
    | none =>
      refine ⟨?_, rfl⟩
      rcases codes with rfl | rfl
      · decide
      · decide
    | some node =>
      obtain ⟨d, x, resolves, -⟩ := top.lookup well looked none
      exact absurd resolves (unresolved d x)

/-- The path "bin/a" leads to the two bytes. -/
theorem fsformat_read_bin : ∃ image t w u f, fsformat binForest = some image ∧ serverInit image (fun _ => true) = some t ∧
    walkPathLoop [0x62, 0x69, 0x6e, 0x2f, 0x61] t.fs = .ok w u ∧ w.file = some f ∧ IsFile t.fs.content f [7, 8] := by
  obtain ⟨image, run⟩ := binForest_image
  obtain ⟨n, formatted⟩ := Formatted.ofRun binForest_well.valid run
  obtain ⟨t, booted, -⟩ := formatted.made.boots fun _ => Eq.refl true
  obtain ⟨w, u, walked, ⟨-, -, k, no⟩ | found⟩ := fsformat_read binForest_well run booted [0x62, 0x69, 0x6e, 0x2f, 0x61]
  · cases no
  · have looked : (Node.dir binForest).lookup (pathElements [0x62, 0x69, 0x6e, 0x2f, 0x61]) = some (.file [7, 8]) := rfl
    rw [looked] at found
    obtain ⟨-, f, file, isFile⟩ := found
    exact ⟨image, t, w, u, f, run, booted, walked, file, isFile⟩

end Mos.Format
