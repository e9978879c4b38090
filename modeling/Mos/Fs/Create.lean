import Mos.Fs.Lookup

namespace Mos.Fs

variable {strict : Prop} {s t : Store} {role : Nat → Option Owner} {f dir : FilePtr} {c c' : Image} {X Y : Image → Prop}

theorem setByte_low (w : Word) (x : Byte) (m : Nat) :
    ((w &&& ~~~(0xff#32 <<< (8 * m))) ||| x.setWidth 32 <<< (8 * m)).extractLsb' 0 8 =
      if m = 0 then x else w.extractLsb' 0 8 := by
  apply BitVec.eq_of_getLsbD_eq
  intro i hi
  have small : i < 32 := by omega
  by_cases zero : m = 0
  · subst zero
    have zeros : ∀ i, i < 8 → (0xffffff00#32).getLsbD i = false := by decide
    simp [hi, small]
    intro _ high
    rw [← BitVec.getLsbD_eq_getElem, zeros i hi] at high
    cases high
  · have before : i < 8 * m := by omega
    rw [if_neg zero]
    simp [hi, before, small]

theorem Holds.setNameByte {k : Nat} {x : Byte} (holds : Holds strict s role f) (inName : k < 128) (nonzero : k = 0 → x ≠ 0) :
    Holds strict (s.setNameByte f k x) role f ∧
    (s.content.Blank f → (s.setNameByte f k x).content.Blank f) ∧
    ((s.setNameByte f k x).content.Dead f → k ≠ 0 ∧ s.content.Dead f) := by
  have dead : (s.setNameByte f k x).content.Dead f → k ≠ 0 ∧ s.content.Dead f := by
    intro dead
    unfold Image.Dead at dead ⊢
    by_cases first : k / 4 = 0
    · have same : k % 4 = k := Nat.mod_eq_of_lt (by omega)
      have word : (s.setNameByte f k x).content.field f 0 =
          (s.content.field f 0 &&& ~~~(0xff#32 <<< (8 * k))) ||| x.setWidth 32 <<< (8 * k) := by
        unfold Store.setNameByte
        rw [first, same, field_content holds.cached]
        exact (congrFun (congrFun (content_setWord holds.cached) _) _).trans (Image.set_self ..)
      rw [word, setByte_low] at dead
      by_cases zero : k = 0
      · rw [if_pos zero] at dead
        exact absurd dead (nonzero zero)
      · rw [if_neg zero] at dead
        exact ⟨zero, dead⟩
    · have same : (s.setNameByte f k x).content.field f 0 = s.content.field f 0 :=
        setField_field holds.cached (Ne.symm first)
      rw [same] at dead
      exact ⟨fun zero => first (by rw [zero]), dead⟩
  obtain ⟨after, blank⟩ := holds.setOther (k := k / 4) (by omega) (by omega) fun isStrict notRoot isDead =>
    (holds.consistent.files f holds.placed).blank isStrict notRoot (dead isDead).2
  exact ⟨after, blank, dead⟩

theorem Holds.setName {name : List Byte} (holds : Holds strict s role f) (isName : IsName name)
    (short : name.length < maxNameLen) :
    Holds strict (s.setName f name) role f ∧ (s.content.Blank f → (s.setName f name).content.Blank f) ∧
    Live strict f (s.setName f name).content := by
  have bytes : ∀ m, m ≤ name.length + 1 →
      Holds strict ((List.range m).foldl (fun s k => s.setNameByte f k ((name ++ [0]).getD k 0)) s) role f ∧
      (s.content.Blank f →
        ((List.range m).foldl (fun s k => s.setNameByte f k ((name ++ [0]).getD k 0)) s).content.Blank f) ∧
      (0 < m → ¬ ((List.range m).foldl (fun s k => s.setNameByte f k ((name ++ [0]).getD k 0)) s).content.Dead f) := by
    intro m
    induction m with
    | zero => exact fun _ => ⟨holds, id, fun no => absurd no (Nat.lt_irrefl 0)⟩
    | succ m ih =>
      intro bound
      obtain ⟨before, blank, live⟩ := ih (by omega)
      have inName : m < 128 := by
        unfold maxNameLen at short
        omega
      have first : m = 0 → (name ++ [0]).getD m 0 ≠ 0 := by
        obtain ⟨x, rest, rfl, nonzero⟩ := isName
        rintro rfl
        exact nonzero
      obtain ⟨after, blank', dead⟩ := before.setNameByte inName first
      rw [List.range_succ, List.foldl_append]
      refine ⟨after, fun h => blank' (blank h), fun _ isDead => ?_⟩
      obtain ⟨notFirst, dead⟩ := dead isDead
      exact live (Nat.pos_of_ne_zero notFirst) dead
  obtain ⟨after, blank, live⟩ := bytes (name.length + 1) (Nat.le_refl _)
  exact ⟨after, blank, fun _ _ => live (Nat.succ_pos _)⟩

theorem Holds.setSize {v : Word} (holds : Holds strict s role f) (live : Live strict f s.content)
    (absent : ∀ i, s.content.field f 33 = ftypeDir → (s.content.field f 32).toNat / 4096 ≤ i → i < v.toNat / 4096 →
      s.content.target f (some i) = 0) :
    Holds strict (s.setField f 32 v) role f ∧ Live strict f (s.setField f 32 v).content ∧
    (s.setField f 32 v).content.field f 32 = v ∧
    (∀ k, k ≠ 32 → (s.setField f 32 v).content.field f k = s.content.field f k) ∧
    ∀ p, (s.setField f 32 v).content.target f p = s.content.target f p := by
  have content : (s.setField f 32 v).content = s.content.set f.block (f.word + 32) v := content_setWord holds.cached
  have field : ∀ j, j ≠ 32 → (s.content.set f.block (f.word + 32) v).field f j = s.content.field f j := by
    intro j ne
    exact Image.set_ne fun same => ne (by have := congrArg Prod.snd same; simp only at this; omega)
  have self : (s.content.set f.block (f.word + 32) v).field f 32 = v := Image.set_self ..
  have dead : (s.content.set f.block (f.word + 32) v).Dead f ↔ s.content.Dead f := by
    unfold Image.Dead
    rw [field 0 (by decide)]
  have consistent : Consistent strict (s.content.set f.block (f.word + 32) v) role := by
    refine holds.consistent.setField holds.placed (by decide) (by decide) (fun i visible held => ?_)
      fun isStrict notRoot isDead => absurd (dead.mp isDead) (live isStrict notRoot)
    unfold Image.Visible at visible ⊢
    rw [field 33 (by decide), self] at visible
    refine ⟨visible.1, Nat.lt_of_not_le fun high => held (absent i visible.1 high visible.2)⟩
  rw [content]
  refine ⟨⟨setWord_cached holds.super, setWord_cached holds.cached, content ▸ consistent, holds.placed⟩,
    fun isStrict notRoot isDead => live isStrict notRoot (dead.mp isDead), self, field,
    Image.setField_target (holds.placed.indirect_ne holds.consistent holds.placed) (by decide)⟩

/-- A directory to be extended, which has no block at its end yet. -/
structure Extensible (strict : Prop) (dir : FilePtr) (n : Nat) (c : Image) : Prop extends Searched strict dir n c where
  absent : c.target dir (some n) = 0

theorem Grown.extensible {role' : Nat → Option Owner} {n i : Nat} (grown : Grown dir (fun j => j = i) c role c' role')
    (before : i < n) (ready : Extensible strict dir n c) : Extensible strict dir n c' where
  toSearched := grown.searched ready.toSearched
  absent := (grown.target n (by omega)).trans ready.absent

/-- A slot with nothing left of an earlier file, with `strict`. -/
def Vacant (strict : Prop) (f : FilePtr) (c : Image) : Prop := strict → c.Blank f

theorem extend_spec {n : Nat} (ready : Extensible strict dir n s.content) (holds : Holds strict s role dir) :
    ((fileGetBlock dir n (s.setField dir 32 (s.fSize dir + blockSize))).bind fun b s => .ok (fileOf b 0) s).Meets
      (fun g t => Held strict g (Vacant strict g) t) (Known strict) fun _ => True := by
  have size : s.fSize dir = s.content.field dir 32 := field_content holds.cached 32
  have grows : (s.fSize dir + blockSize).toNat / 4096 ≤ n + 1 := by
    have bound := ready.size
    rw [size, BitVec.toNat_add]
    have block : blockSize.toNat = 4096 := rfl
    omega
  obtain ⟨holds', live, size', field, target⟩ := holds.setSize (v := s.fSize dir + blockSize) ready.live
    fun i _ low high => by
      have here : i = n := by have := ready.size; omega
      rw [here]
      exact ready.absent
  refine ((fileGetBlock_spec n holds' live).mono (fun _ _ h => h)
    (fun t after => after.mono fun role' failed => ⟨dir, failed.1.holds⟩) fun _ h => h).bind fun b t got => ?_
  refine Unless.mono got fun role' both => ?_
  obtain ⟨reached, mapped, cached⟩ := both
  have index : n < 1024 := by
    by_contra high
    have none := mapped.target
    unfold Image.target at none
    have high' : ¬ n < ndirect := by unfold ndirect; omega
    simp only [if_neg high', if_neg (fun both : n < nindirect ∧ _ => high both.1)] at none
    exact mapped.nonzero none.symm
  have exact : (s.fSize dir + blockSize).toNat / 4096 = n + 1 := by
    have bound := ready.size
    rw [size, BitVec.toNat_add]
    have block : blockSize.toNat = 4096 := rfl
    omega
  have visible : (s.setField dir 32 (s.fSize dir + blockSize)).content.Visible dir n :=
    ⟨(field 33 (by decide)).trans ready.type, by rw [size', exact]; exact n.lt_succ_self⟩
  have zero := mapped.fresh ((target (some n)).trans ready.absent) visible
  have searched : Searched strict dir (n + 1) t.content := reached.grown.searched
    ⟨live, visible.1, by rw [size', exact]⟩
  refine ⟨searched.slot reached.holds mapped.target mapped.nonzero n.lt_succ_self (by decide) cached, fun _ => ?_⟩
  refine Image.Blank.of_zero fun k small => zero _ ?_
  show 64 * 0 + k < 1024
  omega

theorem dirAllocScan_spec {m : Nat} (n i : Nat) (sum : i + n = m) (held : Held strict dir (Extensible strict dir m) s) :
    (dirAllocScan dir n i s).Meets (fun g t => Held strict g (Vacant strict g) t) (Known strict) fun _ => True := by
  induction n generalizing i s with
  | zero =>
    obtain rfl : i = m := sum
    rcases held with spoiled | ⟨role, holds, ready⟩
    · have left : (dirAllocScan dir 0 i s).Leaves (fun s => ¬ CleanMeta s) fun _ => True :=
        dirAllocScan_kept spoiled_kept 0 i spoiled
      exact Result.Meets.mono left (fun _ _ h => .inl h) (fun _ h => .inl h) fun _ h => h
    · exact extend_spec ready holds
  | succ n ih =>
    refine ((fileGetBlock_held i held (fun _ ready => ready.live) fun _ _ _ _ grown =>
      grown.extensible (by omega)).mono (fun _ _ h => h) (fun _ h => h.known) fun _ h => h).bind fun b t got => ?_
    split
    · rename_i j found
      refine Unless.mono got fun role both => ?_
      obtain ⟨holds, ready, target, nonzero, cached⟩ := both
      have small := List.mem_range.mp (List.mem_of_find?_eq_some found)
      have slot := ready.slot holds target nonzero (by omega) small cached
      refine ⟨slot, fun isStrict => ?_⟩
      have free : t.nameByte (fileOf b j) 0 = 0 := by
        have := List.find?_some (p := fun j => t.nameByte (fileOf b j) 0 = 0) found
        simpa using this
      have dead : t.content.Dead (fileOf b j) := by
        unfold Image.Dead
        rw [← field_content cached]
        exact free
      refine (slot.consistent.files _ slot.placed).blank isStrict (fun isRoot => ?_) dead
      have word : 64 * j = 2 := congrArg FilePtr.word isRoot
      omega
    · exact ih (i + 1) (by omega) (Unless.mono got fun role both => ⟨both.1, both.2.1⟩)

/-- The directory in which `file_create` looks for a slot has no block attached behind its last one. -/
def Extends (path : List Byte) (s : Store) : Prop :=
  ∀ w t d, walkPath path s = .ok w t → w.code = -eNotFound → w.dir = some d →
    t.content.target d (some ((t.content.field d 32).toNat / 4096)) = 0

theorem fileCreate_spec {path : List Byte} (ready : Extends path s) (held : Held strict root (Live strict root) s) :
    (fileCreate path s).Meets (fun g t => Held strict g (fun c => Vacant strict g c ∧ Live strict g c) t) (Known strict)
      fun _ => True := by
  have walked := walkPath_spec path held
  unfold fileCreate
  cases run : walkPath path s with
  | stop cause => trivial
  | err r t =>
    rw [run] at walked
    exact walked
  | ok w t =>
    rw [run] at walked
    have reached : WalkedTo strict w t := walked
    simp only [Result.ok_bind]
    split
    · exact reached.known
    · rename_i failed
      split
      · exact reached.known
      · rename_i d at_d
        split
        · exact reached.known
        · rename_i code
          obtain ⟨dir, isName, short⟩ := reached.dir d at_d (reached.missing failed)
          have slot : (dirAllocFile d t).Meets (fun g t => Held strict g (Vacant strict g) t) (Known strict) fun _ => True := by
            rcases dir with spoiled | ⟨role, holds, live, type⟩
            · exact Result.Meets.mono (dirAllocScan_kept spoiled_kept _ _ spoiled) (fun _ _ h => .inl h)
                (fun _ h => .inl h) fun _ h => h
            · have size : t.fSize d = t.content.field d 32 := field_content holds.cached 32
              refine dirAllocScan_spec _ 0 (Nat.zero_add _) (.inr ⟨role, holds, ⟨live, type, by rw [size]⟩, ?_⟩)
              rw [size]
              exact ready w t d run (not_not.mp code) at_d
          refine slot.bind fun g u vacant => ?_
          rcases vacant with spoiled | ⟨role, holds, vacant⟩
          · exact .inl (setName_kept spoiled_kept w.last spoiled)
          · obtain ⟨after, blank, live⟩ := holds.setName isName short
            exact .inr ⟨role, after, fun isStrict => blank (vacant isStrict), live⟩

/-- The `File` that `serve_open` has made with the mode `omode`. -/
structure Pristine (omode : Word) (f : FilePtr) (c : Image) : Prop where
  size : c.field f 32 = 0
  target : ∀ p, c.target f p = 0
  type : c.field f 33 = if omode &&& oMkdir ≠ 0 then ftypeDir else 0

/-- No block is attached to the file that `serve_open` makes a directory of, below its size. -/
def Empties (path : List Byte) (s : Store) : Prop :=
  ∀ f t i, fileCreate path s = .ok f t → i < (t.content.field f 32).toNat / 4096 → t.content.target f (some i) = 0

theorem Holds.setType (holds : Holds strict s role f) (live : Live strict f s.content)
    (absent : ∀ i, i < (s.content.field f 32).toNat / 4096 → s.content.target f (some i) = 0) :
    Holds strict (s.setField f 33 ftypeDir) role f ∧ Live strict f (s.setField f 33 ftypeDir).content ∧
    (s.setField f 33 ftypeDir).content.field f 33 = ftypeDir ∧
    (s.setField f 33 ftypeDir).content.field f 32 = s.content.field f 32 ∧
    ∀ p, (s.setField f 33 ftypeDir).content.target f p = s.content.target f p := by
  have content : (s.setField f 33 ftypeDir).content = s.content.set f.block (f.word + 33) ftypeDir :=
    content_setWord holds.cached
  have field : ∀ j, j ≠ 33 → (s.content.set f.block (f.word + 33) ftypeDir).field f j = s.content.field f j := by
    intro j ne
    exact Image.set_ne fun same => ne (by have := congrArg Prod.snd same; simp only at this; omega)
  have dead : (s.content.set f.block (f.word + 33) ftypeDir).Dead f ↔ s.content.Dead f := by
    unfold Image.Dead
    rw [field 0 (by decide)]
  have consistent : Consistent strict (s.content.set f.block (f.word + 33) ftypeDir) role := by
    refine holds.consistent.setField holds.placed (by decide) (by decide) (fun i visible held => ?_)
      fun isStrict notRoot isDead => absurd (dead.mp isDead) (live isStrict notRoot)
    have inside := visible.2
    rw [field 32 (by decide)] at inside
    exact absurd (absent i inside) held
  rw [content]
  exact ⟨⟨setWord_cached holds.super, setWord_cached holds.cached, content ▸ consistent, holds.placed⟩,
    fun isStrict notRoot isDead => live isStrict notRoot (dead.mp isDead), Image.set_self .., field 32 (by decide),
    Image.setField_target (holds.placed.indirect_ne holds.consistent holds.placed) (by decide)⟩

theorem openFind_spec {path : List Byte} {omode : Word}
    (ready : omode &&& oCreat ≠ 0 → Extends path s ∧ (omode &&& oMkdir ≠ 0 → Empties path s))
    (held : Held strict root (Live strict root) s) :
    (openFind path omode s).Meets
      (fun g t => Held strict g (fun c => Live strict g c ∧ (strict → omode &&& oCreat ≠ 0 → Pristine omode g c)) t)
      (Known strict) fun _ => True := by
  unfold openFind
  split
  · rename_i creat
    obtain ⟨ext, empties⟩ := ready creat
    have made := fileCreate_spec ext held
    cases run : fileCreate path s with
    | stop cause => trivial
    | err r t =>
      rw [run] at made
      exact made
    | ok g t =>
      rw [run] at made
      have made : Held strict g (fun c => Vacant strict g c ∧ Live strict g c) t := made
      show Held strict g (fun c => Live strict g c ∧ (strict → omode &&& oCreat ≠ 0 → Pristine omode g c))
        (if omode &&& oMkdir ≠ 0 then t.setField g 33 ftypeDir else t)
      rcases made with spoiled | ⟨role, holds, vacant, live⟩
      · left
        split
        · exact spoiled
        · exact spoiled
      · split
        · rename_i mkdir
          obtain ⟨after, live', type, size, target⟩ := holds.setType live fun i inside => empties mkdir g t i run inside
          refine .inr ⟨role, after, live', fun isStrict _ => ⟨size.trans (vacant isStrict).size,
            fun p => (target p).trans ((vacant isStrict).target p), ?_⟩⟩
          rw [if_pos mkdir]
          exact type
        · rename_i plain
          refine .inr ⟨role, holds, live, fun isStrict _ => ⟨(vacant isStrict).size, (vacant isStrict).target, ?_⟩⟩
          rw [if_neg plain]
          exact (vacant isStrict).type
  · rename_i plain
    have walked := walkPath_spec path held
    unfold fileOpen
    refine walked.bind fun w t reached => ?_
    split
    · rename_i g found
      have live := reached.file g found
      exact Held.mono (Y := fun c => Live strict g c ∧ (strict → omode &&& oCreat ≠ 0 → Pristine omode g c)) live
        fun c live => ⟨live, fun _ creat => absurd creat plain⟩
    · exact reached.known

end Mos.Fs
