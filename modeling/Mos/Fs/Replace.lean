import Mos.Fs.Paths
import Mos.Fs.Release
import Mos.Lib.Bytes

namespace Mos.Fs

variable {c c' : Image} {s t u : Store} {f g d dir : FilePtr} {path name : List Byte} {parent p : List (List Byte)}

section Orderly

/-- No name stands for two files, directories have neither holes nor blocks behind their ends, and free slots have no size. -/
structure Orderly (c : Image) : Prop extends Exclusive c where
  distinct : Unambiguous c
  blocks : ∀ dir i, Reach c dir → c.Visible dir i → c.target dir (some i) ≠ 0
  ends : ∀ dir, Reach c dir → c.field dir 33 = ftypeDir → c.target dir (some ((c.field dir 32).toNat / 4096)) = 0
  free : ∀ f, Reach c f → f ≠ root → c.Dead f → c.field f 32 = 0

theorem Remarked.orderly (marked : Remarked c c') (orderly : Orderly c) : Orderly c' := by
  have exclusive := orderly.toExclusive
  have field : ∀ {f}, Reach c f → ∀ k, k < 64 → k ≠ 45 → c'.field f k = c.field f k := fun reach _ small plain =>
    marked.field exclusive reach small plain
  refine ⟨marked.exclusive exclusive, marked.unambiguous exclusive orderly.distinct, fun dir i reach visible => ?_,
    fun dir reach type => ?_, fun f reach notRoot dead => ?_⟩
  · have reach := (marked.reach exclusive).mp reach
    rw [marked.target exclusive reach]
    exact orderly.blocks dir i reach ((marked.visible exclusive reach i).mp visible)
  · have reach := (marked.reach exclusive).mp reach
    rw [field reach 33 (by decide) (by decide)] at type
    rw [marked.target exclusive reach, field reach 32 (by decide) (by decide)]
    exact orderly.ends dir reach type
  · have reach := (marked.reach exclusive).mp reach
    unfold Image.Dead at dead
    rw [field reach 0 (by decide) (by decide)] at dead
    rw [field reach 32 (by decide) (by decide)]
    exact orderly.free f reach notRoot dead

structure Ready (s : Store) : Prop where
  super : s.cache 1 ≠ none
  orderly : Orderly s.content

theorem Ready.holds (ready : Ready s) (reach : Reach s.content f) (cached : s.cache f.block ≠ none) :
    Holds False s (ownerOf s.content) f := by
  have sound : Sound False s.content := ⟨ready.orderly.toExclusive, False.elim⟩
  exact ⟨ready.super, cached, sound.consistent, sound.consistent.placed reach⟩

theorem Ready.read (ready : Ready s) (read : Read s t) : Ready t :=
  ⟨read.cached 1 ready.super, read.content ▸ ready.orderly⟩

theorem Ready.shows (ready : Ready s) {memory : Nat → Bool} (shows : Shows s.content memory t) : Ready t :=
  ⟨shows.super, shows.marked.orderly ready.orderly⟩

theorem Ready.walk (ready : Ready s) (path : List Byte) : ∃ w t, walkPath path s = .ok w t ∧
    Answer s.content s.memory none root (pathElements path) w ∧ Shows s.content s.memory t ∧
    (∀ d, w.dir = some d → w.file = none → t.cache d.block ≠ none) ∧ ∀ g, w.file = some g → t.cache g.block ≠ none :=
  walkElements_answer (ready.orderly.distinct.short ready.orderly.toExclusive) .ofRoot (fun _ mem => isName_of_mem mem)
    (solid_of_blocks ready.orderly.blocks .ofRoot _) ⟨ready.super, fun _ _ _ => rfl, rfl⟩ ready.super

end Orderly

section Name

theorem nameByte_eq (c : Image) (f : FilePtr) (k : Nat) : c.nameByte f k = byteAt (c.field f) k := by
  apply BitVec.eq_of_toNat_eq
  simp [Image.nameByte, byteAt]

theorem setNameByte_content {k : Nat} {x : Byte} (cached : s.cache f.block ≠ none) (small : k < 128) :
    (∀ b i, (b = f.block → i < f.word ∨ f.word + 32 ≤ i) → (s.setNameByte f k x).content b i = s.content b i) ∧
    ∀ k', (s.setNameByte f k x).content.nameByte f k' = if k' = k then x else s.content.nameByte f k' := by
  have content : (s.setNameByte f k x).content = s.content.set f.block (f.word + k / 4)
      ((s.content.field f (k / 4) &&& ~~~(0xff#32 <<< (8 * (k % 4)))) ||| x.setWidth 32 <<< (8 * (k % 4))) := by
    rw [← field_content cached]
    exact content_setWord cached
  have words : (s.setNameByte f k x).content.field f = setByte (s.content.field f) k x := by
    funext m
    rw [content]
    unfold setByte
    by_cases here : m = k / 4
    · subst here
      rw [Function.update_self]
      exact Image.set_self ..
    · rw [Function.update_of_ne here]
      exact Image.set_ne fun same => here (by have := congrArg Prod.snd same; simp only at this; omega)
  refine ⟨fun b i outside => ?_, fun k' => ?_⟩
  · rw [content]
    refine Image.set_ne fun same => ?_
    obtain ⟨rfl, rfl⟩ := Prod.mk.inj same
    have := outside rfl
    omega
  · rw [nameByte_eq, nameByte_eq, words, byteAt_setByte]

theorem setName_content (cached : s.cache f.block ≠ none) (short : name.length < maxNameLen) :
    (∀ b i, (b = f.block → i < f.word ∨ f.word + 32 ≤ i) → (s.setName f name).content b i = s.content b i) ∧
    (s.setName f name).content.NameAt f name := by
  have small : name.length < 128 := short
  have bytes : ∀ m, m ≤ name.length + 1 →
      ((List.range m).foldl (fun s k => s.setNameByte f k ((name ++ [0]).getD k 0)) s).cache f.block ≠ none ∧
      (∀ b i, (b = f.block → i < f.word ∨ f.word + 32 ≤ i) →
        ((List.range m).foldl (fun s k => s.setNameByte f k ((name ++ [0]).getD k 0)) s).content b i = s.content b i) ∧
      ∀ k, k < m → ((List.range m).foldl (fun s k => s.setNameByte f k ((name ++ [0]).getD k 0)) s).content.nameByte f k =
        (name ++ [0]).getD k 0 := by
    intro m
    induction m with
    | zero => exact fun _ => ⟨cached, fun _ _ _ => rfl, nofun⟩
    | succ m ih =>
      intro bound
      obtain ⟨cached', frame, written⟩ := ih (by omega)
      obtain ⟨frame', byte⟩ := setNameByte_content (x := (name ++ [0]).getD m 0) cached' (show m < 128 by omega)
      rw [List.range_succ, List.foldl_append]
      refine ⟨setWord_cached cached', fun b i outside => (frame' b i outside).trans (frame b i outside), fun k below => ?_⟩
      refine (byte k).trans ?_
      split
      · rename_i here
        rw [here]
      · exact written k (by omega)
  obtain ⟨-, frame, written⟩ := bytes (name.length + 1) (Nat.le_refl _)
  exact ⟨frame, fun k inside => written k (Nat.lt_succ_of_le inside)⟩

end Name

section Remove

/-- What is left when `file_remove` has cut off the file `g` and taken its name. -/
structure Removed (g : FilePtr) (s t : Store) : Prop where
  super : t.cache 1 ≠ none
  confined : Confined s.content g t.content
  exclusive : Exclusive t.content
  dead : t.content.Dead g
  size : t.content.field g 32 = 0
  type : t.content.field g 33 = s.content.field g 33
  first : s.content.field g 33 = ftypeDir → t.content.target g (some 0) = 0

theorem Removed.leaf (removed : Removed g s t) : Leaf t.content g := by
  intro i visible
  have inside := visible.2
  rw [removed.size] at inside
  exact absurd inside (Nat.not_lt_zero _)

theorem Removed.inner (removed : Removed g s t) (entry : t.content.Entry dir name f) : dir ≠ g := by
  rintro rfl
  obtain ⟨i, j, visible, held, -⟩ := entry
  exact held (removed.leaf i visible)

theorem Removed.kept (removed : Removed g s t) (orderly : Orderly s.content) (reach : Reach s.content g)
    (reach' : Reach t.content f) (other : f ≠ g) : Reach s.content f ∧ Same s.content t.content f :=
  (removed.confined.kept orderly.toExclusive reach removed.leaf reach').resolve_left other

theorem Removed.entry_old (removed : Removed g s t) (orderly : Orderly s.content) (reach : Reach s.content g)
    (reachD : Reach t.content dir) (plain : Plain name) (short : name.length < maxNameLen) (entry : t.content.Entry dir name f) :
    s.content.Entry dir name f ∧ f ≠ g := by
  have inner := removed.inner entry
  have reachF := entry.reach reachD
  have other : f ≠ g := by
    rintro rfl
    obtain ⟨i, j, -, -, -, -, named⟩ := entry
    exact plain.not_dead removed.dead named
  have bound : name.length < 128 := short
  obtain ⟨-, sameF⟩ := removed.kept orderly reach reachF other
  obtain ⟨-, same⟩ := removed.kept orderly reach reachD inner
  obtain ⟨i, j, visible, held, small, rfl, named⟩ := entry
  rw [same.target] at held named sameF ⊢
  refine ⟨⟨i, j, (same.visible i).mp visible, held, small, rfl, fun k inside => ?_⟩, by rwa [same.target] at other⟩
  refine Eq.trans ?_ (named k inside)
  unfold Image.nameByte
  rw [sameF.field _ (by omega)]

theorem Removed.ready (removed : Removed g s t) (ready : Ready s) (reach : Reach s.content g) : Ready t := by
  have orderly := ready.orderly
  refine ⟨removed.super, removed.exclusive, fun dir n f g reach' plain short entry entry' => ?_, fun dir i reach' visible => ?_,
    fun dir reach' type => ?_, fun f reach' notRoot dead => ?_⟩
  · have reachD := (removed.kept orderly reach reach' (removed.inner entry)).1
    exact orderly.distinct dir n f g reachD plain short (removed.entry_old orderly reach reach' plain short entry).1
      (removed.entry_old orderly reach reach' plain short entry').1
  · by_cases here : dir = g
    · subst here
      have inside := visible.2
      rw [removed.size] at inside
      exact absurd inside (Nat.not_lt_zero _)
    · obtain ⟨reachD, same⟩ := removed.kept orderly reach reach' here
      rw [same.target]
      exact orderly.blocks dir i reachD ((same.visible i).mp visible)
  · by_cases here : dir = g
    · subst here
      rw [removed.type] at type
      rw [removed.size]
      exact removed.first type
    · obtain ⟨reachD, same⟩ := removed.kept orderly reach reach' here
      rw [same.field 33 (by decide)] at type
      rw [same.target, same.field 32 (by decide)]
      exact orderly.ends dir reachD type
  · by_cases here : f = g
    · subst here
      exact removed.size
    · obtain ⟨reachF, same⟩ := removed.kept orderly reach reach' here
      rw [same.field 32 (by decide)]
      exact orderly.free f reachF notRoot (same.dead.mp dead)

theorem Removed.read (removed : Removed g s t) (read : Read t u) : Removed g s u :=
  { super := read.cached 1 removed.super, confined := read.content ▸ removed.confined, exclusive := read.content ▸ removed.exclusive
    dead := read.content ▸ removed.dead, size := read.content ▸ removed.size, type := read.content ▸ removed.type
    first := read.content ▸ removed.first }

theorem removeFound_removed (ready : Ready s) (reach : Reach s.content g) (cached : s.cache g.block ≠ none) :
    ((fileTruncate g 0 s).bind fun _ s => (fileFlush g (s.setNameByte g 0 0)).bind fun _ s => flushDir g s).Leaves
      (Removed g s) fun _ => True := by
  have exclusive := ready.orderly.toExclusive
  have holds := ready.holds reach cached
  have sound : Sound False s.content := ⟨exclusive, False.elim⟩
  refine Result.Meets.bind (P := fun _ u => ∃ role', Resized False g 0 s.content (ownerOf s.content) u role' ∧
    ∀ i, i < roundBlocks (s.content.field g 32) → u.content.target g (some i) = 0) ?_ fun _ u cut => ?_
  · exact (fileTruncate_spec holds False.elim (Nat.zero_le _)).mono
      (fun _ _ ⟨role', resized, gone, _⟩ => ⟨role', resized, fun i => gone i (Nat.zero_le _)⟩) (fun _ no => no.elim) fun _ h => h
  obtain ⟨role', resized, gone⟩ := cut
  have holds' := resized.holds
  obtain ⟨after, -⟩ := holds'.setOther (k := 0) (v := (u.field g 0 &&& ~~~(0xff#32 <<< 0)) ||| (0 : Byte).setWidth 32 <<< 0)
    (by decide) (by decide) False.elim
  have named : Holds False (u.setNameByte g 0 0) role' g := after
  obtain ⟨frame, byte⟩ := setNameByte_content (k := 0) (x := 0) holds'.cached (by decide)
  have touches : Touches u.content role' g (u.setNameByte g 0 0).content := fun b i other =>
    frame b i fun same => (other.file same).imp id fun high => by omega
  have field : ∀ k, k ≠ 0 → (u.setNameByte g 0 0).content.field g k = u.content.field g k := fun k ne =>
    setField_field holds'.cached ne
  have target : ∀ p, (u.setNameByte g 0 0).content.target g p = u.content.target g p := by
    have content : (u.setNameByte g 0 0).content = u.content.set g.block (g.word + 0) _ := content_setWord holds'.cached
    rw [content]
    exact Image.setField_target (holds'.placed.indirect_ne holds'.consistent holds'.placed) (by decide)
  have removed : Removed g s (u.setNameByte g 0 0) := by
    refine ⟨named.super, ?_, named.consistent.sound.toExclusive, ?_, (field 32 (by decide)).trans resized.size,
      (field 33 (by decide)).trans resized.type, fun type => (target _).trans ?_⟩
    · exact (resized.spared.trans (touches.spared holds'.consistent holds'.placed fun _ _ _ owner => owner)).confined sound
        named.consistent
    · have zero := byte 0
      rwa [if_pos rfl] at zero
    · have bound : (s.content.field g 32).toNat / 4096 ≤ 1024 := by
        by_contra far
        refine ready.orderly.blocks g 1024 reach ⟨type, by omega⟩ ?_
        simp [Image.target, nindirect, ndirect]
      by_cases empty : s.content.field g 32 = 0
      · refine (resized.target (some 0)).elim id fun same => same.trans ?_
        have ends := ready.orderly.ends g reach type
        rwa [empty] at ends
      · refine gone 0 ?_
        have positive : (s.content.field g 32).toNat ≠ 0 := fun zero => empty (BitVec.eq_of_toNat_eq zero)
        rw [roundBlocks_eq]
        omega
  refine Result.Meets.bind (P := fun _ v => Read (u.setNameByte g 0 0) v)
    (Result.Meets.mono (fileFlush_kept (f := g) (read_kept _) (Read.refl _)) (fun _ _ h => h) (fun _ read => removed.read read) fun _ h => h)
    fun _ v read => ?_
  exact Result.Leaves.mono (flushDir_kept (f := g) (read_kept _) read) fun _ => removed.read

theorem Removed.sameBut (removed : Removed g s t) (orderly : Orderly s.content) (above : At s.content parent d) (plain : Plain name)
    (short : name.length < maxNameLen) (entry : s.content.Entry d name g) (notDir : s.content.field g 33 ≠ ftypeDir) :
    SameBut (parent ++ [name]) s.content t.content := by
  have unnamed : Unnamed d name g s.content t.content :=
    { confined := removed.confined, exclusive := orderly.toExclusive, exclusive' := removed.exclusive
      distinct := orderly.distinct, reach := above.reach, plain := plain, short := short, entry := entry
      leaf := fun i visible => absurd visible.1 notDir, leaf' := removed.leaf, dead := removed.dead }
  exact unnamed.sameBut above

theorem Answer.found_at {c : Image} {memory : Nat → Bool} {w : Walked} {f : FilePtr}
    (answer : Answer c memory none root (pathElements path) w) (found : w.file = some f) : At c (pathElements path) f := by
  cases answer with
  | found resolves =>
    cases found
    exact resolves.at .top fun _ mem => plain_of_mem mem
  | absent => cases found
  | noMem => cases found
  | fails => cases found

theorem Removed.others (removed : Removed g t u) (marked : Remarked c t.content) (orderly : Orderly c) (leads : At c p g)
    (notRoot : g ≠ root) (notDir : c.field g 33 ≠ ftypeDir) : SameBut p c u.content := by
  have exclusive := orderly.toExclusive
  refine (marked.sameBut exclusive p).trans ?_
  cases leads with
  | top => exact absurd rfl notRoot
  | @down parent d _ name above plain short isDir entry =>
    have type : t.content.field g 33 ≠ ftypeDir := by
      rw [marked.field exclusive (entry.reach above.reach) (by decide) (by decide)]
      exact notDir
    exact removed.sameBut (marked.orderly orderly) ((marked.at exclusive).mpr above) plain short
      ((marked.entry exclusive above.reach short g).mpr entry) type

end Remove

section Create

/-- What the search for a free slot returns. -/
structure Slot (d : FilePtr) (f : FilePtr) (s : Store) : Prop where
  slot : ∃ i j, s.content.Visible d i ∧ s.content.target d (some i) ≠ 0 ∧ j < file2blk ∧ f = fileOf (s.content.target d (some i)) j
  dead : s.content.Dead f
  cached : s.cache f.block ≠ none

theorem slotScan_slot (ready : Ready s) (reach : Reach s.content d) (type : s.content.field d 33 = ftypeDir)
    (cached : s.cache d.block ≠ none) (n i : Nat) (sum : i + n = (s.content.field d 32).toNat / 4096) :
    (slotScan d n i s).Meets (fun r t => Read s t ∧ ∀ f, r = some f → Slot d f t) (Read s) fun _ => True := by
  induction n generalizing i s with
  | zero => exact ⟨Read.refl s, nofun⟩
  | succ n ih =>
    have visible : s.content.Visible d i := ⟨type, by omega⟩
    have held := ready.orderly.blocks d i reach visible
    have exclusive := ready.orderly.toExclusive
    rw [slotScan]
    rcases fileGetBlock_loads exclusive ⟨ready.super, fun _ _ _ => rfl, rfl⟩ reach cached held with
      ⟨t, got, loads, there⟩ | ⟨t, got, loads, -⟩
    · rw [got, Result.ok_bind]
      have read := loads.toRead
      split
      · rename_i j found
        refine ⟨read, fun f same => ?_⟩
        cases same
        have free : t.nameByte (fileOf (s.content.target d (some i)) j) 0 = 0 := by
          simpa using List.find?_some (p := fun j => decide (t.nameByte (fileOf (s.content.target d (some i)) j) 0 = 0)) found
        refine ⟨⟨i, j, ?_⟩, ?_, there⟩
        · rw [read.content]
          exact ⟨visible, held, List.mem_range.mp (List.mem_of_find?_eq_some found), rfl⟩
        · unfold Image.Dead
          rw [← field_content there]
          exact free
      · have again := ih (ready.read read) (read.content ▸ reach) (read.content ▸ type) (read.cached _ cached) (i + 1)
          (by rw [read.content]; omega)
        exact again.mono (fun _ _ both => ⟨read.trans both.1, both.2⟩) (fun _ more => read.trans more) fun _ h => h
    · rw [got]
      exact loads.toRead

theorem extendDir_extended {n : Nat} (ready : Ready s) (reach : Reach s.content d) (type : s.content.field d 33 = ftypeDir)
    (cached : s.cache d.block ≠ none) (size : (s.content.field d 32).toNat / 4096 = n) :
    (extendDir d n s).Meets
      (fun f t => CleanMeta t → Extended d n s.content t.content ∧ Exclusive t.content ∧ t.cache 1 ≠ none ∧ Slot d f t ∧
        t.content.field f 32 = 0 ∧ t.content.target d (some n) ≠ 0 ∧ t.content.nblocks = s.content.nblocks)
      (fun t => CleanMeta t → Extended d n s.content t.content) fun _ => True := by
  have exclusive := ready.orderly.toExclusive
  have holds := ready.holds reach cached
  have ends : s.content.target d (some n) = 0 := size ▸ ready.orderly.ends d reach type
  have bound : n ≤ nindirect := by
    by_contra far
    refine ready.orderly.blocks d nindirect reach ⟨type, by omega⟩ ?_
    simp [Image.target, nindirect, ndirect]
  have block : blockSize.toNat = 4096 := rfl
  have few : nindirect = 1024 := rfl
  have old : s.fSize d = s.content.field d 32 := field_content cached 32
  have grows : (s.fSize d + blockSize).toNat / 4096 = n + 1 := by
    rw [old, BitVec.toNat_add]
    omega
  obtain ⟨holds', -, size', field, target⟩ := holds.setSize (v := s.fSize d + blockSize) False.elim fun i _ low high => by
    rw [grows] at high
    obtain rfl : i = n := by omega
    exact ends
  have content : (s.setField d 32 (s.fSize d + blockSize)).content = s.content.set d.block (d.word + 32) (s.fSize d + blockSize) :=
    content_setWord cached
  have resized : Touches s.content (ownerOf s.content) d (s.setField d 32 (s.fSize d + blockSize)).content := by
    rw [content]
    exact Touches.setField (by decide)
  have visible : (s.setField d 32 (s.fSize d + blockSize)).content.Visible d n :=
    ⟨(field 33 (by decide)).trans type, by rw [size', grows]; exact n.lt_succ_self⟩
  -- where the new block is not there yet, or came with zeros
  have longer : ∀ {t role'}, Reached False d (fun j => j = n) (s.setField d 32 (s.fSize d + blockSize)) (ownerOf s.content) t role' →
      (t.content.target d (some n) ≠ 0 → ∀ k, k < 1024 → t.content (t.content.target d (some n)) k = 0) →
      Extended d n s.content t.content := by
    intro t role' reached fresh
    have grown := reached.grown
    have both : Touches s.content (ownerOf s.content) d t.content := fun b i other => by
      refine (grown.touches b i ⟨?_, other.owned, other.file⟩).trans (resized b i other)
      unfold Image.IsBitmap Image.bitmapEnd
      rw [resized.nblocks holds.consistent holds.placed]
      exact other.bitmap
    refine ⟨reach, type, size, ?_, fun f reachF ne => both.same holds.consistent holds.placed (holds.consistent.placed reachF) ne,
      fun k small ne => (grown.field k (.inl small)).trans (field k ne), fun i ne => (grown.target i ne).trans (target _), fresh,
      fun f i reachF notDir held => funext fun w => both _ w ?_⟩
    · rw [grown.field 32 (.inl (by decide)), size', grows]
    · obtain ⟨dirBlock, owner, -⟩ := exclusive.ownerOf_target reachF held
      refine ⟨IsData.not_bitmap (holds.consistent.data _ _ owner), .inr ⟨_, owner, fun mine => ?_⟩, fun here => ?_⟩
      · have same : f = d := mine.1
        exact notDir (same ▸ type)
      · have data := (exclusive.inUse f (some i) reachF held).1.1
        cases reach with
        | ofRoot =>
          have two := s.content.two_le_bitmapEnd
          have one : s.content.target f (some i) = 1 := here
          omega
        | @ofSlot dir i' j reachD visible' held' small =>
          obtain ⟨rfl, -⟩ := exclusive.once f dir (some i) (some i') reachF reachD held here
          exact absurd visible'.1 notDir
  refine ((fileGetBlock_spec n holds' False.elim).mono (fun _ _ h => h) (fun t failed clean => ?_) fun _ h => h).bind fun b t got clean => ?_
  · obtain ⟨role', reached, same⟩ := failed.resolve_left fun spoiled => spoiled clean
    refine longer reached fun held => ?_
    rcases same with same | ⟨b, mapped⟩
    · exact absurd (same.trans ((target _).trans ends)) held
    · exact mapped.target ▸ mapped.fresh ((target _).trans ends) visible
  · obtain ⟨role', reached, mapped, there⟩ := got.resolve_left fun spoiled => spoiled clean
    have zero : ∀ k, k < 1024 → t.content b k = 0 := mapped.fresh ((target _).trans ends) visible
    have extended := longer reached fun _ => by rw [mapped.target]; exact zero
    have empty : ∀ k, k < 64 → t.content.field (fileOf b 0) k = 0 := fun k small => zero _ (by show 64 * 0 + k < 1024; omega)
    have now : t.content.Visible d n :=
      ⟨(extended.field 33 (by decide) (by decide)).trans type, by rw [extended.after]; exact n.lt_succ_self⟩
    have nblocks := reached.grown.nblocks.trans (resized.nblocks holds.consistent holds.placed)
    refine ⟨extended, reached.holds.consistent.sound.toExclusive, reached.holds.super, ⟨⟨n, 0, now, ?_⟩, ?_, there⟩,
      empty 32 (by decide), ?_, nblocks⟩
    · rw [mapped.target]
      exact ⟨mapped.nonzero, by decide, rfl⟩
    · unfold Image.Dead
      rw [empty 0 (by decide)]
      rfl
    · rw [mapped.target]
      exact mapped.nonzero

theorem Slot.naming (slot : Slot d f s) (exclusive : Exclusive s.content) (distinct : Unambiguous s.content)
    (super : s.cache 1 ≠ none) (reachD : Reach s.content d) (plain : Plain name) (short : name.length < maxNameLen)
    (absent : ∀ x, ¬ s.content.Entry d name x) (size : s.content.field f 32 = 0) :
    Naming d name f s.content (s.setName f name).content ∧
      (∀ k, 32 ≤ k → (s.setName f name).content.field f k = s.content.field f k) ∧
      (∀ p, (s.setName f name).content.target f p = s.content.target f p) ∧
      (s.setName f name).content.nblocks = s.content.nblocks := by
  have sound : Sound False s.content := ⟨exclusive, False.elim⟩
  have reach : Reach s.content f := by
    obtain ⟨i, j, visible, held, small, same⟩ := slot.slot
    exact same ▸ .ofSlot reachD visible held small
  have holds : Holds False s (ownerOf s.content) f := ⟨super, slot.cached, sound.consistent, sound.consistent.placed reach⟩
  obtain ⟨named, -, -⟩ := holds.setName plain.isName short
  obtain ⟨frame, nameAt⟩ := setName_content slot.cached short
  have touches : Touches s.content (ownerOf s.content) f (s.setName f name).content := fun b i other =>
    frame b i fun same => (other.file same).imp id fun high => by omega
  have field : ∀ k, 32 ≤ k → (s.setName f name).content.field f k = s.content.field f k := fun k high =>
    frame _ _ fun _ => .inr (by omega)
  have target : ∀ p, (s.setName f name).content.target f p = s.content.target f p := by
    refine Image.target_congr (fun k low _ => field k (by omega)) fun i _ _ held => ?_
    exact frame _ _ fun here => absurd here (holds.placed.indirect_ne holds.consistent holds.placed held)
  have leaf : ∀ {c : Image}, c.field f 32 = 0 → Leaf c f := by
    intro c zero i visible
    have inside := visible.2
    rw [zero] at inside
    exact absurd inside (Nat.not_lt_zero _)
  refine ⟨?_, field, target, touches.nblocks holds.consistent holds.placed⟩
  exact { confined := (touches.spared holds.consistent holds.placed fun _ _ _ owner => owner).confined sound named.consistent
          exclusive := exclusive, exclusive' := named.consistent.sound.toExclusive, distinct := distinct, reach := reachD
          plain := plain, short := short, slot := slot.slot, absent := absent, dead := slot.dead
          leaf := leaf size, leaf' := leaf ((field 32 (Nat.le_refl _)).trans size), named := nameAt }

/-- All paths lead to the same files, and the other ones are as before. -/
structure Stays (p : List (List Byte)) (c c' : Image) : Prop where
  same : SameBut p c c'
  paths : ∀ names f, At c' names f ↔ At c names f

theorem Stays.refl (p : List (List Byte)) (c : Image) : Stays p c c := ⟨SameBut.refl p c, fun _ _ => Iff.rfl⟩

theorem Remarked.stays (marked : Remarked c c') (exclusive : Exclusive c) (p : List (List Byte)) : Stays p c c' :=
  ⟨marked.sameBut exclusive p, fun _ _ => marked.at exclusive⟩

end Create

end Mos.Fs
