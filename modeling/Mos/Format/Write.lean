import Mos.Format.Create

namespace Mos.Format

open Fs

variable {c c' : Image} {d d' : Disk} {b i k m n n' w : Nat} {f g : FilePtr} {v : Word} {name content bytes : List Byte}

section Fill

variable (good : Good d) (low : 3 ≤ g.block)
include good low

theorem putName_image : (d.putName g bytes).image =
    Function.update d.image g.block (setBytes (d.image g.block) (4 * g.word) bytes) := by
  unfold Disk.putName
  rw [Disk.image_update good.small low, Disk.image_disk good.small low]

theorem putName_word (short : bytes.length ≤ 128) (off : b = g.block → w < g.word ∨ g.word + 32 ≤ w) :
    (d.putName g bytes).image b w = d.image b w := by
  rw [putName_image good low]
  by_cases here : b = g.block
  · subst here
    rw [Function.update_self]
    apply setBytes_word
    intro j inside
    have outside := off rfl
    omega
  · rw [Function.update_of_ne here]

theorem putName_byte (small : k < 128) : (d.putName g bytes).image.nameByte g k =
    if k < bytes.length then bytes.getD k 0 else d.image.nameByte g k := by
  have word : ∀ c : Image, c.nameByte g k = byteAt (c g.block) (4 * g.word + k) := fun c => (byteAt_word _ _ _).symm
  rw [word, word, putName_image good low, Function.update_self, byteAt_setBytes]
  by_cases inside : k < bytes.length
  · rw [if_pos inside, if_pos ⟨by omega, by omega⟩, Nat.add_sub_cancel_left]
  · rw [if_neg inside, if_neg fun both => inside (by omega)]

end Fill

theorem nameByte_set (small : k < 128) (high : 32 ≤ i) : (c.set g.block (g.word + i) v).nameByte g k = c.nameByte g k := by
  unfold Image.nameByte Image.field
  rw [Image.set_ne]
  intro same
  have := congrArg Prod.snd same
  simp only at this
  omega

structure Filling (d : Disk) (g : FilePtr) (name : List Byte) (d' : Disk) : Prop where
  filled : Filled d.image g d'.image
  count : d'.nextbno = d.nextbno
  bitmap : d'.disk 2 = d.disk 2
  nameAt : d'.image.NameAt g name

theorem live_of_name (plain : Plain name) (named : c.NameAt g name) : ¬ c.Dead g := by
  obtain ⟨first, rest, rfl⟩ := List.exists_cons_of_ne_nil plain.1
  intro dead
  have byte : c.nameByte g 0 = first := named 0 (Nat.zero_le _)
  exact plain.2 first List.mem_cons_self (byte.symm.trans dead)

section Entries

variable (good : Good d) (low : 3 ≤ g.block) (plain : Plain name) (short : name.length < maxNameLen)
include good low plain short

theorem file_filling (size : Word) : Filling d g name
    (((d.putName g (name ++ [0])).setField g 32 size).setField g 33 ftypeReg) ∧
    (((d.putName g (name ++ [0])).setField g 32 size).setField g 33 ftypeReg).image.field g 32 = size ∧
    (((d.putName g (name ++ [0])).setField g 32 size).setField g 33 ftypeReg).image.field g 33 = ftypeReg := by
  have small : name.length < 128 := short
  have lies : Disk.Lies g := .inr low
  have first : (d.putName g (name ++ [0])).nextbno ≤ nblock := good.small
  have second : ((d.putName g (name ++ [0])).setField g 32 size).nextbno ≤ nblock := by
    rw [Disk.setField_nextbno]
    exact first
  have image : (((d.putName g (name ++ [0])).setField g 32 size).setField g 33 ftypeReg).image =
      ((d.putName g (name ++ [0])).image.set g.block (g.word + 32) size).set g.block (g.word + 33) ftypeReg := by
    rw [Disk.setField_image second lies (by decide), Disk.setField_image first lies (by decide)]
  have nameAt : (((d.putName g (name ++ [0])).image.set g.block (g.word + 32) size).set g.block (g.word + 33) ftypeReg).NameAt g
      name := by
    intro k inside
    have bound : k < 128 := by omega
    rw [nameByte_set bound (by decide), nameByte_set bound (by decide), putName_byte good low bound, if_pos]
    rw [List.length_append, List.length_singleton]
    omega
  have field : ∀ j, j ≠ 33 → (((d.putName g (name ++ [0])).image.set g.block (g.word + 32) size).set g.block (g.word + 33)
      ftypeReg).field g j = ((d.putName g (name ++ [0])).image.set g.block (g.word + 32) size).field g j := by
    intro j ne
    apply Image.set_ne
    intro same
    have := congrArg Prod.snd same
    simp only at this
    omega
  have type : (((d.putName g (name ++ [0])).image.set g.block (g.word + 32) size).set g.block (g.word + 33)
      ftypeReg).field g 33 = ftypeReg := Image.set_self _ _ _ _
  refine ⟨⟨⟨fun b w notMap off => ?_, ?_, fun dir => ?_⟩, ?_, ?_, ?_⟩, ?_, ?_⟩
  · rw [image, Image.set_ne fun same => ?_, Image.set_ne fun same => ?_]
    · apply putName_word good low
      · rw [List.length_append, List.length_singleton]
        omega
      · intro same
        have := off same
        omega
    · obtain ⟨rfl, rfl⟩ := Prod.mk.inj same
      have := off rfl
      omega
    · obtain ⟨rfl, rfl⟩ := Prod.mk.inj same
      have := off rfl
      omega
  · rw [image]
    exact live_of_name plain nameAt
  · rw [image, type] at dir
    exact absurd dir (by decide)
  · rw [Disk.setField_nextbno, Disk.setField_nextbno]
    rfl
  · rw [Disk.setField_two lies, Disk.setField_two lies]
    exact Function.update_of_ne (by omega) _ _
  · rw [image]
    exact nameAt
  · rw [image, field 32 (by decide)]
    exact Image.set_self _ _ _ _
  · rw [image, type]

/-- The last byte of the name is not written, so the test after `strncpy` never fails for a slot of zeros. -/
theorem dir_filling (zero : ∀ k, k < 64 → d.image.field g k = 0) :
    (d.strncpyName g name).nameByte g (maxNameLen - 1) = 0 ∧
      Filling d g name ((d.strncpyName g name).setField g 33 ftypeDir) ∧
      ((d.strncpyName g name).setField g 33 ftypeDir).image.field g 33 = ftypeDir ∧
      ((d.strncpyName g name).setField g 33 ftypeDir).image.field g 32 = 0 := by
  have small : name.length < 128 := short
  have lies : Disk.Lies g := .inr low
  generalize copied : (name ++ List.replicate (maxNameLen - 1) 0).take (maxNameLen - 1) = bytes
  have length : bytes.length = 127 := by
    rw [← copied, List.length_take, List.length_append, List.length_replicate]
    show min 127 (name.length + 127) = 127
    omega
  have same : d.strncpyName g name = d.putName g bytes := by
    unfold Disk.strncpyName
    rw [copied]
  have first : (d.putName g bytes).nextbno ≤ nblock := good.small
  have old : ∀ k, k < 128 → d.image.nameByte g k = 0 := by
    intro k bound
    unfold Image.nameByte
    rw [zero _ (by omega)]
    exact BitVec.extractLsb'_zero ..
  have byte : ∀ k, k < 128 → (d.putName g bytes).image.nameByte g k = (name ++ [0]).getD k 0 ∨ name.length < k := by
    intro k bound
    by_cases past : name.length < k
    · exact .inr past
    · refine .inl ?_
      rw [putName_byte good low bound, length]
      by_cases inside : k < 127
      · rw [if_pos inside, ← copied]
        show ((name ++ List.replicate 127 0).take 127).getD k 0 = _
        rw [List.getD_eq_getElem?_getD, List.getD_eq_getElem?_getD, List.getElem?_take_of_lt inside]
        by_cases inName : k < name.length
        · rw [List.getElem?_append_left inName, List.getElem?_append_left inName]
        · rw [List.getElem?_append_right (by omega), List.getElem?_append_right (by omega), List.getElem?_replicate,
            if_pos (by omega), show k - name.length = 0 by omega]
          rfl
      · rw [if_neg inside, old k bound, List.getD_append_right _ _ _ _ (by omega), show k - name.length = 0 by omega]
        rfl
  have image : ((d.putName g bytes).setField g 33 ftypeDir).image =
      (d.putName g bytes).image.set g.block (g.word + 33) ftypeDir := Disk.setField_image first lies (by decide)
  have nameAt : ((d.putName g bytes).image.set g.block (g.word + 33) ftypeDir).NameAt g name := by
    intro k inside
    rw [nameByte_set (by omega) (by decide)]
    exact (byte k (by omega)).resolve_right (by omega)
  have word : ((d.putName g bytes).image.set g.block (g.word + 33) ftypeDir).field g 32 = 0 := by
    refine (Image.set_ne fun same => ?_).trans ((putName_word good low (by omega) fun _ => .inr (Nat.le_refl _)).trans
      (zero 32 (by decide)))
    have := congrArg Prod.snd same
    simp only at this
    omega
  rw [same]
  refine ⟨?_, ⟨⟨fun b w notMap off => ?_, ?_, fun _ => ?_⟩, ?_, ?_, ?_⟩, ?_, ?_⟩
  · have here : (d.putName g bytes).image.nameByte g 127 = 0 := by
      rw [putName_byte good low (by decide), if_neg (by omega)]
      exact old 127 (by decide)
    unfold Disk.nameByte
    unfold Image.nameByte Image.field at here
    rw [byteAt_word]
    rwa [Disk.image_disk first low] at here
  · rw [image, Image.set_ne fun same => ?_]
    · apply putName_word good low (by omega)
      intro same
      have := off same
      omega
    · obtain ⟨rfl, rfl⟩ := Prod.mk.inj same
      have := off rfl
      omega
  · rw [image]
    exact live_of_name plain nameAt
  · rw [image, word]
    rfl
  · rw [Disk.setField_nextbno]
    rfl
  · rw [Disk.setField_two lies]
    exact Function.update_of_ne (by omega) _ _
  · rw [image]
    exact nameAt
  · rw [image]
    exact Image.set_self _ _ _ _
  · rw [image, word]

end Entries

section Entry

variable (named : Named d.image f) (listing : Listing d.image f k (dirBlocks k)) {mid : Disk} (created : Created d f k g mid)
include named created

theorem Created.slot_facts : Reach mid.image g ∧ 3 ≤ g.block ∧ ∀ j, j < 64 → mid.image.field g j = 0 := by
  have named' := created.steps.named f named
  have room : k < 16 * (k / 16 + 1) := by omega
  have reach := created.listing.reach named'.reach room
  have dead := created.listing.dead k (Nat.le_refl k) room
  have low := (created.good.made.target_lt named'.reach (created.listing.visible room).2).1
  rw [created.place]
  exact ⟨reach, low, created.good.made.clean _ reach (fileOf_ne_root _ _) dead⟩

structure Entered (d : Disk) (f : FilePtr) (k : Nat) (g : FilePtr) (d' : Disk) : Prop where
  good : Good d'
  place : g = slot d'.image f k
  steps : Steps d.image d.nextbno f (Rest d.image f k) d'.image d'.nextbno
  listing : Listing d'.image f (k + 1) (dirBlocks (k + 1))

include listing

theorem Created.entered (filling : Filling mid g name d') :
    Entered d f k g d' ∧ Named d'.image g ∧ ∀ p, d'.image.target g p = 0 := by
  have room : k < 16 * (k / 16 + 1) := by omega
  have free := created.good.after filling.bitmap
  have filled := filling.filled
  rw [filling.count] at free
  rw [created.place] at filled
  obtain ⟨steps, after, live, blank⟩ := created.listing.fill created.good.made (created.steps.named f named) room filled free
  have same : slot d'.image f k = g := (steps.slot_eq created.listing room).trans created.place.symm
  have blocks : dirBlocks (k + 1) = k / 16 + 1 := by
    unfold dirBlocks
    omega
  have steps : Steps mid.image mid.nextbno f (Rest mid.image f k) d'.image d'.nextbno := by
    rw [filling.count]
    exact steps
  rw [← created.place] at live blank
  refine ⟨⟨⟨steps.made, filling.bitmap.trans created.good.bitmap⟩, same.symm, created.steps.next listing (Nat.le_refl k) steps, ?_⟩,
    live, blank⟩
  rw [blocks]
  exact after

end Entry

/-- What `n` blocks of a file take from the disk, from block `i` on. -/
def blocksCost (i n : Nat) : Nat := if i ≤ ndirect ∧ ndirect < i + n then n + 1 else n

theorem blocksCost_succ (i n : Nat) : blocksCost i (n + 1) = blockCost i + blocksCost (i + 1) n := by
  unfold blocksCost blockCost ndirect
  split <;> split <;> split <;> omega

theorem Bytes.next (bytes : Bytes c g content i) (made : Made c n) (reach : Reach c g) (has : HasBlocks c g i)
    (steps : Steps c n g (fun _ _ => False) c' n') (target : c'.target g (some i) = n)
    (page : c' n = setBytes zeroPage 0 ((content.drop (4096 * i)).take 4096)) : Bytes c' g content (i + 1) := by
  intro k inside below
  by_cases old : k < 4096 * i
  · have held := (has.held (k / 4096)).mpr (by omega)
    obtain ⟨low, high⟩ := made.target_lt reach held
    rw [steps.held held]
    have same : c' (c.target g (some (k / 4096))) = c (c.target g (some (k / 4096))) := by
      funext w
      refine steps.frame _ w (by omega) high (fun own => ?_) id
      rcases own with ⟨same, -⟩ | ⟨-, same⟩
      · have := made.above reach held
        omega
      · exact absurd (made.sound.once g g (some (k / 4096)) none reach reach held same).2 nofun
    rw [same]
    exact bytes k inside old
  · have here : k / 4096 = i := by omega
    have length : k % 4096 < ((content.drop (4096 * i)).take 4096).length := by
      rw [List.length_take, List.length_drop]
      omega
    rw [here, target, page, byteAt_setBytes, if_pos ⟨Nat.zero_le _, by omega⟩, Nat.sub_zero, List.getD_eq_getElem?_getD,
      List.getD_eq_getElem?_getD, List.getElem?_take_of_lt (by omega), List.getElem?_drop,
      show 4096 * i + k % 4096 = k by omega]

/-- The loop of `write_file` has written `n` blocks from block `i` on. -/
structure Loaded (d : Disk) (g : FilePtr) (content : List Byte) (i n : Nat) (d' : Disk) : Prop where
  count : d'.nextbno = d.nextbno + blocksCost i n
  good : Good d'
  steps : Steps d.image d.nextbno g (fun _ _ => False) d'.image d'.nextbno
  has : HasBlocks d'.image g (i + n)
  bytes : Bytes d'.image g content (i + n)
  size : d'.image.field g 32 = d.image.field g 32

theorem writeBlocks_spec (good : Good d) (named : Named d.image g) (plain : d.image.field g 33 ≠ ftypeDir)
    (has : HasBlocks d.image g i) (bytes : Bytes d.image g content i) :
    Exactly (writeBlocks g content n i d) (d.nextbno + blocksCost i n ≤ nblock) (Loaded d g content i n) := by
  induction n generalizing i d with
  | zero =>
    have none : blocksCost i 0 = 0 := by
      unfold blocksCost
      rw [if_neg (by omega)]
    rw [none]
    exact ⟨good.small, none.symm ▸ rfl, good, .refl good.made _, has, bytes, rfl⟩
  | succ n ih =>
    have reach := named.reach
    have low := good.made.low
    have room := has.room good.made reach
    generalize chunk : (content.drop (4096 * i)).take 4096 = read
    have image : (d.read d.nextbno read).image =
        Function.update d.image d.nextbno (setBytes (d.image d.nextbno) 0 read) := by
      unfold Disk.read
      rw [Disk.image_update good.small low, Disk.image_disk good.small low]
    have off : ∀ b, b ≠ d.nextbno → (d.read d.nextbno read).image b = d.image b := by
      intro b ne
      rw [image, Function.update_of_ne ne]
    have empty : d.image.target g (some i) = 0 := by
      by_contra held
      exact Nat.lt_irrefl i ((has.held i).mp held)
    obtain ⟨-, same⟩ := good.made.ready_data named (fun visible => plain visible.1) empty off
    have indirect : (d.read d.nextbno read).image.indirect g = d.image.indirect g := (same g reach).target none
    have cost := (has.same (same g reach)).cost
    have spec := linkBlock_spec (d := d.read d.nextbno read) (i := i) (good.lies reach) low (fun _ _ => rfl) fun held => by
      rw [indirect] at held ⊢
      exact good.indirect reach held
    have total := blocksCost_succ i n
    have rest : i < nindirect ∧ d.nextbno + linkCost (d.read d.nextbno read).image g i ≤ nblock → ∀ p : Nat × Disk,
        p.1 = d.nextbno ∧ p.2.nextbno = d.nextbno + linkCost (d.read d.nextbno read).image g i ∧
          p.2.disk 2 = (d.read d.nextbno read).disk 2 ∧ Linked (d.read d.nextbno read).image d.nextbno g i p.2.image p.2.nextbno →
        Exactly (writeBlocks g content n (i + 1) p.2) (d.nextbno + blockCost i + blocksCost (i + 1) n ≤ nblock)
          (Loaded d g content i (n + 1)) := by
      rintro ⟨valid, enough⟩ ⟨b, mid⟩ ⟨-, count, bitmap, linked⟩
      dsimp only at count bitmap linked ⊢
      rw [cost] at count
      have high : mid.nextbno ≤ nblock := by
        rw [count, ← cost]
        exact enough
      have two : mid.disk 2 = d.disk 2 := bitmap.trans (Function.update_of_ne (by omega) _ _)
      obtain ⟨steps, has', target, page, size⟩ := good.made.block named plain has off linked high (good.after two)
      have zero : mid.image d.nextbno = setBytes zeroPage 0 ((content.drop (4096 * i)).take 4096) := by
        rw [page, image, Function.update_self, good.made.fresh _ (Nat.le_refl _), chunk]
      have bytes' := bytes.next good.made reach has steps target zero
      have plain' : mid.image.field g 33 ≠ ftypeDir := by
        rw [steps.field 33 (by decide) (by decide)]
        exact plain
      refine (ih ⟨steps.made, two.trans good.bitmap⟩ (steps.named g named) plain' has' bytes').mono (by rw [count])
        fun _ d' after => ?_
      obtain ⟨count', good', steps', has'', bytes'', size'⟩ := after
      rw [show i + 1 + n = i + (n + 1) by omega] at has'' bytes''
      refine ⟨by rw [count', count, total]; omega, good', ?_, has'', bytes'', size'.trans size⟩
      exact steps.trans steps' fun _ _ _ no => no
    rw [writeBlocks, chunk]
    refine (spec.bind rest).mono ?_ fun _ _ after => after
    rw [cost, total]
    constructor
    · rintro ⟨-, enough⟩
      omega
    · intro enough
      have top : d.nextbno + (blockCost i + blocksCost (i + 1) n) ≤ 1024 := enough
      refine ⟨⟨?_, ?_⟩, ?_⟩
      · show i < 1024
        omega
      · show d.nextbno + blockCost i ≤ 1024
        omega
      · show d.nextbno + blockCost i + blocksCost (i + 1) n ≤ 1024
        omega

/-- A file of `n` blocks takes one more when it needs an indirect block. -/
def fileBlocks (n : Nat) : Nat := if ndirect < n then n + 1 else n

theorem blocksCost_zero (n : Nat) : blocksCost 0 n = fileBlocks n := by
  unfold blocksCost fileBlocks ndirect
  split <;> split <;> omega

/-- The entries of `forest` have been written to a directory that had `k`. -/
structure Written (d : Disk) (f : FilePtr) (k : Nat) (forest : Forest) (cost : Nat) (d' : Disk) : Prop where
  count : d'.nextbno = d.nextbno + cost
  good : Good d'
  steps : Steps d.image d.nextbno f (Rest d.image f k) d'.image d'.nextbno
  listing : Listing d'.image f (k + forest.count) (dirBlocks (k + forest.count))
  stored : Stored d'.image forest f k

theorem nameAt_field (short : name.length < maxNameLen) (field : ∀ w, w < 34 → w ≠ 32 → c'.field g w = c.field g w)
    (named : c.NameAt g name) : c'.NameAt g name := by
  intro k inside
  have small : name.length < 128 := short
  unfold Image.nameByte
  rw [field _ (by omega) (by omega)]
  exact named k inside

section Items

variable (good : Good d) (named : Named d.image f) (listing : Listing d.image f k (dirBlocks k)) (plain : Plain name)
  (short : name.length < maxNameLen)
include good named listing plain short

theorem writeFile_spec (content : List Byte) : Exactly (writeFile f name content d)
    (d.nextbno + (slotCost k + fileBlocks (blocksFor content.length)) ≤ nblock)
    (Written d f k (.file name content .nil) (slotCost k + fileBlocks (blocksFor content.length))) := by
  have spec := createFile_spec good named listing
  have rest : d.nextbno + slotCost k ≤ nblock → ∀ p : FilePtr × Disk, Created d f k p.1 p.2 →
      Exactly (writeBlocks p.1 content (blocksFor content.length) 0
          (((p.2.putName p.1 (name ++ [0])).setField p.1 32 (BitVec.ofNat 32 content.length)).setField p.1 33 ftypeReg))
        (d.nextbno + slotCost k + fileBlocks (blocksFor content.length) ≤ nblock)
        (Written d f k (.file name content .nil) (slotCost k + fileBlocks (blocksFor content.length))) := by
    rintro enough ⟨g, mid⟩ created
    dsimp only at created ⊢
    obtain ⟨reach, low, -⟩ := created.slot_facts named
    obtain ⟨filling, size, type⟩ := file_filling created.good low plain short (BitVec.ofNat 32 content.length)
    generalize ((mid.putName g (name ++ [0])).setField g 32 (BitVec.ofNat 32 content.length)).setField g 33 ftypeReg = start at *
    obtain ⟨entered, live, blank⟩ := created.entered named listing filling
    have count : start.nextbno = d.nextbno + slotCost k := filling.count.trans created.count
    have notDir : start.image.field g 33 ≠ ftypeDir := by
      rw [type]
      decide
    have none : HasBlocks start.image g 0 :=
      ⟨fun i => by rw [blank]; omega, iff_of_true (blank none) (Nat.zero_le _)⟩
    have empty : Bytes start.image g content 0 := fun _ _ below => absurd below (Nat.not_lt_zero _)
    have loaded := writeBlocks_spec (n := blocksFor content.length) entered.good live notDir none empty
    rw [blocksCost_zero, count] at loaded
    refine loaded.mono Iff.rfl fun fits d' after => ?_
    have small : content.length < 2 ^ 32 := by
      have top : d.nextbno + slotCost k + fileBlocks (blocksFor content.length) ≤ 1024 := fits
      have : blocksFor content.length ≤ fileBlocks (blocksFor content.length) := by
        unfold fileBlocks
        split <;> omega
      unfold blocksFor at this top
      omega
    have inner : Steps start.image start.nextbno (slot start.image f k) (Rest start.image (slot start.image f k) 0) d'.image
        d'.nextbno := by
      rw [← entered.place]
      exact after.steps.weaken fun _ _ no => no.elim
    obtain ⟨steps, listing', slots⟩ := entered.steps.inside named entered.listing inner (by rw [← entered.place]; exact blank)
    have place : slot d'.image f k = g := (slots k).trans entered.place.symm
    refine ⟨?_, after.good, steps, listing', ?_⟩
    · rw [after.count, blocksCost_zero, count]
      omega
    · have has := after.has
      have bytes := after.bytes
      rw [Nat.zero_add] at has bytes
      rw [Stored, place]
      refine ⟨nameAt_field short after.steps.field filling.nameAt, ⟨has, ?_, ?_, bytes⟩, trivial⟩
      · rw [after.steps.field 33 (by decide) (by decide), type]
      · rw [after.size, size, BitVec.toNat_ofNat, Nat.mod_eq_of_lt small]
  refine (spec.bind rest).mono ?_ fun _ _ after => after
  constructor
  · rintro ⟨-, enough⟩
    omega
  · intro enough
    have top : d.nextbno + (slotCost k + fileBlocks (blocksFor content.length)) ≤ 1024 := enough
    exact ⟨by show d.nextbno + slotCost k ≤ 1024; omega, by omega⟩

theorem writeDirectory_spec (entries : Forest) (cost : Nat)
    (loop : ∀ g start, Good start → Named start.image g → Listing start.image g 0 (dirBlocks 0) →
      Exactly (writeForest entries g start) (start.nextbno + cost ≤ nblock) (Written start g 0 entries cost)) :
    Exactly (writeDirectory f name (writeForest entries) d) (d.nextbno + (slotCost k + cost) ≤ nblock)
      (Written d f k (.dir name entries .nil) (slotCost k + cost)) := by
  have spec := createFile_spec good named listing
  have rest : d.nextbno + slotCost k ≤ nblock → ∀ p : FilePtr × Disk, Created d f k p.1 p.2 →
      Exactly (if (p.2.strncpyName p.1 name).nameByte p.1 (maxNameLen - 1) ≠ 0 then none
        else writeForest entries p.1 ((p.2.strncpyName p.1 name).setField p.1 33 ftypeDir))
        (d.nextbno + slotCost k + cost ≤ nblock) (Written d f k (.dir name entries .nil) (slotCost k + cost)) := by
    rintro enough ⟨g, mid⟩ created
    dsimp only at created ⊢
    obtain ⟨reach, low, zero⟩ := created.slot_facts named
    obtain ⟨ends, filling, type, size⟩ := dir_filling created.good low plain short zero
    rw [if_neg (not_not.mpr ends)]
    generalize (mid.strncpyName g name).setField g 33 ftypeDir = start at *
    obtain ⟨entered, live, blank⟩ := created.entered named listing filling
    have count : start.nextbno = d.nextbno + slotCost k := filling.count.trans created.count
    have none : HasBlocks start.image g 0 :=
      ⟨fun i => by rw [blank]; omega, iff_of_true (blank none) (Nat.zero_le _)⟩
    have empty : Listing start.image g 0 (dirBlocks 0) :=
      ⟨none, type, by rw [size]; rfl, fun i below => absurd below (Nat.not_lt_zero i), fun i _ below => absurd below (Nat.not_lt_zero i)⟩
    refine (loop g start entered.good live empty).mono (by rw [count]) fun _ d' after => ?_
    have inner : Steps start.image start.nextbno (slot start.image f k) (Rest start.image (slot start.image f k) 0) d'.image
        d'.nextbno := by
      rw [← entered.place]
      exact after.steps
    obtain ⟨steps, listing', slots⟩ := entered.steps.inside named entered.listing inner (by rw [← entered.place]; exact blank)
    have place : slot d'.image f k = g := (slots k).trans entered.place.symm
    refine ⟨by rw [after.count, count, Nat.add_assoc], after.good, steps, listing', ?_⟩
    have inside := after.listing
    rw [Nat.zero_add] at inside
    rw [Stored, place]
    exact ⟨nameAt_field short after.steps.field filling.nameAt, inside, after.stored, trivial⟩
  refine (spec.bind rest).mono ?_ fun _ _ after => after
  constructor
  · rintro ⟨-, enough⟩
    omega
  · intro enough
    have top : d.nextbno + (slotCost k + cost) ≤ 1024 := enough
    exact ⟨by show d.nextbno + slotCost k ≤ 1024; omega, by omega⟩

end Items

/-- What the entries take from the disk when the directory has `k` already. -/
def forestCost : Nat → Forest → Nat
  | _, .nil => 0
  | k, .file _ content rest => slotCost k + fileBlocks (blocksFor content.length) + forestCost (k + 1) rest
  | k, .dir _ entries rest => slotCost k + forestCost 0 entries + forestCost (k + 1) rest

section Compose

variable {forest rest : Forest} {mid : Disk} {cost cost' : Nat}

theorem Written.next (named : Named d.image f) (listing : Listing d.image f k (dirBlocks k)) (valid : forest.Valid)
    (first : Written d f k forest cost mid) (second : Written mid f (k + forest.count) rest cost' d') :
    Steps d.image d.nextbno f (Rest d.image f k) d'.image d'.nextbno ∧ Stored d'.image forest f k ∧
      d'.nextbno = d.nextbno + (cost + cost') := by
  refine ⟨first.steps.next listing (Nat.le_add_right k _) second.steps, ?_, ?_⟩
  · exact second.steps.stored first.good.made (first.steps.named f named) first.listing valid first.stored (Nat.le_refl _)
  · rw [second.count, first.count, Nat.add_assoc]

end Compose

theorem writeForest_spec {forest : Forest} (good : Good d) (named : Named d.image f)
    (listing : Listing d.image f k (dirBlocks k)) (valid : forest.Valid) :
    Exactly (writeForest forest f d) (d.nextbno + forestCost k forest ≤ nblock) (Written d f k forest (forestCost k forest)) := by
  induction forest generalizing d f k with
  | nil => exact ⟨good.small, rfl, good, .refl good.made _, listing, trivial⟩
  | file name content rest ih =>
    have spec := writeFile_spec good named listing valid.1.1 valid.1.2 content
    have more : d.nextbno + (slotCost k + fileBlocks (blocksFor content.length)) ≤ nblock → ∀ mid,
        Written d f k (.file name content .nil) (slotCost k + fileBlocks (blocksFor content.length)) mid →
        Exactly (writeForest rest f mid)
          (d.nextbno + (slotCost k + fileBlocks (blocksFor content.length)) + forestCost (k + 1) rest ≤ nblock)
          (Written d f k (.file name content rest) (forestCost k (.file name content rest))) := by
      intro _ mid first
      have after := ih first.good (first.steps.named f named) first.listing valid.2
      refine after.mono (by rw [first.count]; rfl) fun _ d' second => ?_
      have once : Forest.Valid (.file name content .nil) := ⟨valid.1, trivial⟩
      obtain ⟨steps, stored, count⟩ := first.next named listing once second
      refine ⟨count, second.good, steps, ?_, stored.1, stored.2.1, second.stored⟩
      have listing' := second.listing
      rwa [Nat.add_right_comm] at listing'
    refine (spec.bind more).mono ?_ fun _ _ after => after
    show _ ↔ d.nextbno + (slotCost k + fileBlocks (blocksFor content.length) + forestCost (k + 1) rest) ≤ nblock
    omega
  | dir name entries rest first second =>
    have spec := writeDirectory_spec good named listing valid.1.1 valid.1.2 entries (forestCost 0 entries)
      fun g start good named listing => first good named listing valid.2.1
    have more : d.nextbno + (slotCost k + forestCost 0 entries) ≤ nblock → ∀ mid,
        Written d f k (.dir name entries .nil) (slotCost k + forestCost 0 entries) mid →
        Exactly (writeForest rest f mid) (d.nextbno + (slotCost k + forestCost 0 entries) + forestCost (k + 1) rest ≤ nblock)
          (Written d f k (.dir name entries rest) (forestCost k (.dir name entries rest))) := by
      intro _ mid before
      have after := second before.good (before.steps.named f named) before.listing valid.2.2
      refine after.mono (by rw [before.count]; rfl) fun _ d' last => ?_
      have once : Forest.Valid (.dir name entries .nil) := ⟨valid.1, valid.2.1, trivial⟩
      obtain ⟨steps, stored, count⟩ := before.next named listing once last
      refine ⟨count, last.good, steps, ?_, stored.1, stored.2.1, stored.2.2.1, last.stored⟩
      have listing' := last.listing
      rwa [Nat.add_right_comm] at listing'
    refine (spec.bind more).mono ?_ fun _ _ after => after
    show _ ↔ d.nextbno + (slotCost k + forestCost 0 entries + forestCost (k + 1) rest) ≤ nblock
    omega

end Mos.Format
