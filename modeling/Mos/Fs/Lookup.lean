import Mos.Fs.Owned
import Mathlib.Data.List.TakeWhile

namespace Mos.Fs

/-- Unless a block came with something in it, the owners are known and `f` is a file of the tree that meets `X`. -/
def Held (strict : Prop) (f : FilePtr) (X : Image → Prop) (s : Store) : Prop :=
  Unless s fun role => Holds strict s role f ∧ X s.content

/-- The owners are known, unless a block came with something in it. -/
def Known (strict : Prop) (s : Store) : Prop := Unless s fun role => ∃ f, Holds strict s role f

variable {strict : Prop} {s t : Store} {role : Nat → Option Owner} {f dir : FilePtr} {c c' : Image} {X Y : Image → Prop}

theorem Held.known (held : Held strict f X s) : Known strict s := Unless.mono held fun _ both => ⟨f, both.1⟩

theorem Held.mono (held : Held strict f X s) (weaker : ∀ c, X c → Y c) : Held strict f Y s :=
  Unless.mono held fun _ both => ⟨both.1, weaker _ both.2⟩

theorem Held.read (held : Held strict f X s) (read : Read s t) : Held strict f X t :=
  Unless.read held read fun _ both => ⟨both.1.read read, read.content ▸ both.2⟩

theorem Known.read (known : Known strict s) (read : Read s t) : Known strict t :=
  Unless.read known read fun _ ⟨f, holds⟩ => ⟨f, holds.read read⟩

/-- A directory of `n` blocks that is no free slot. -/
structure Searched (strict : Prop) (dir : FilePtr) (n : Nat) (c : Image) : Prop where
  live : Live strict dir c
  type : c.field dir 33 = ftypeDir
  size : (c.field dir 32).toNat / 4096 = n

theorem Grown.searched {role' : Nat → Option Owner} {I : Nat → Prop} {n : Nat} (grown : Grown dir I c role c' role')
    (searched : Searched strict dir n c) : Searched strict dir n c' where
  live := grown.live searched.live
  type := (grown.field 33 (.inl (by decide))).trans searched.type
  size := by
    rw [grown.field 32 (.inl (by decide))]
    exact searched.size

theorem Searched.slot {n i b j : Nat} (searched : Searched strict dir n t.content) (holds : Holds strict t role dir)
    (target : t.content.target dir (some i) = b) (nonzero : b ≠ 0) (inside : i < n) (small : j < file2blk)
    (cached : t.cache b ≠ none) : Holds strict t role (fileOf b j) := by
  obtain ⟨d, owner, flag⟩ := (holds.consistent.files dir holds.placed).owned (some i) (target ▸ nonzero)
  cases flag i rfl ⟨searched.type, searched.size ▸ inside⟩
  rw [target] at owner
  exact ⟨holds.super, cached, holds.consistent, .ofSlot owner small⟩

theorem setField_field {k j : Nat} {v : Word} (cached : s.cache f.block ≠ none) (ne : j ≠ k) :
    (s.setField f k v).content.field f j = s.content.field f j := by
  have content : (s.setField f k v).content = s.content.set f.block (f.word + k) v := content_setWord cached
  rw [content]
  refine Image.set_ne fun same => ne ?_
  have := congrArg Prod.snd same
  simp only at this
  omega

/-- A word of the `File` that is neither a pointer nor the size nor the type. -/
theorem Holds.setOther {k : Nat} {v : Word} (holds : Holds strict s role f) (small : k < 64) (plain : k < 32 ∨ 45 ≤ k)
    (blank : strict → f ≠ root → (s.setField f k v).content.Dead f → s.content.Blank f) :
    Holds strict (s.setField f k v) role f ∧ (s.content.Blank f → (s.setField f k v).content.Blank f) := by
  have content : (s.setField f k v).content = s.content.set f.block (f.word + k) v := content_setWord holds.cached
  have field : ∀ j, j ≠ k → (s.setField f k v).content.field f j = s.content.field f j := fun j => setField_field holds.cached
  have target : ∀ p, (s.setField f k v).content.target f p = s.content.target f p := by
    rw [content]
    exact Image.setField_target (holds.placed.indirect_ne holds.consistent holds.placed) (by omega)
  have keeps : s.content.Blank f → (s.setField f k v).content.Blank f := fun blank =>
    ⟨(field 32 (by omega)).trans blank.size, (field 33 (by omega)).trans blank.type, fun p => (target p).trans (blank.target p)⟩
  refine ⟨⟨setWord_cached holds.super, setWord_cached holds.cached, ?_, holds.placed⟩, keeps⟩
  rw [content] at field keeps blank ⊢
  refine holds.consistent.setField holds.placed small (by omega) (fun i visible _ => ?_)
    fun isStrict notRoot dead => keeps (blank isStrict notRoot dead)
  unfold Image.Visible at visible ⊢
  rw [field 33 (by omega), field 32 (by omega)] at visible
  exact visible

theorem fileGetBlock_held (i : Nat) (held : Held strict f X s) (live : ∀ c, X c → Live strict f c)
    (closed : ∀ c role c' role', Grown f (fun j => j = i) c role c' role' → X c → X c') :
    (fileGetBlock f i s).Meets
      (fun b t => Unless t fun role => Holds strict t role f ∧ X t.content ∧ t.content.target f (some i) = b ∧ b ≠ 0 ∧
        t.cache b ≠ none)
      (Held strict f X) fun _ => True := by
  rcases held with spoiled | ⟨role, holds, met⟩
  · exact Result.Meets.mono (fileGetBlock_kept spoiled_kept i spoiled) (fun _ _ h => .inl h) (fun _ h => .inl h) fun _ h => h
  · refine (fileGetBlock_spec i holds (live _ met)).mono (fun b t after => after.mono ?_) (fun t after => after.mono ?_)
      fun _ h => h
    · rintro role' ⟨reached, mapped, cached⟩
      exact ⟨reached.holds, closed _ _ _ _ reached.grown met, mapped.target, mapped.nonzero, cached⟩
    · exact fun role' failed => ⟨failed.1.holds, closed _ _ _ _ failed.1.grown met⟩

def IsName (name : List Byte) : Prop := ∃ c rest, name = c :: rest ∧ c ≠ 0

theorem live_of_nameIs {g : FilePtr} {name : List Byte} (isName : IsName name) (cached : s.cache g.block ≠ none)
    (named : s.nameIs g name = true) : Live strict g s.content := by
  obtain ⟨c, rest, rfl, nonzero⟩ := isName
  intro _ _ dead
  have first := List.all_eq_true.mp named 0 (by simp)
  simp only [decide_eq_true_eq, Store.nameByte, field_content cached] at first
  unfold Image.Dead at dead
  exact nonzero (first.symm.trans dead)

theorem dirScan_spec {name : List Byte} {m : Nat} (isName : IsName name) (n i : Nat) (sum : i + n = m)
    (held : Held strict dir (Searched strict dir m) s) :
    (dirScan dir name n i s).Meets (fun g t => Held strict g (Live strict g) t) (Held strict dir (Searched strict dir m))
      fun _ => True := by
  induction n generalizing i s with
  | zero => exact held
  | succ n ih =>
    refine (fileGetBlock_held i held (fun _ searched => searched.live) fun _ _ _ _ grown => grown.searched).bind
      fun b t got => ?_
    split
    · rename_i j found
      refine Unless.mono got fun role both => ?_
      obtain ⟨holds, searched, target, nonzero, cached⟩ := both
      have small := List.mem_range.mp (List.mem_of_find?_eq_some found)
      have slot := searched.slot holds target nonzero (by omega) small cached
      have named : t.nameIs (fileOf b j) name = true := List.find?_some (p := fun j => t.nameIs (fileOf b j) name) found
      have live : Live strict (fileOf b j) t.content := live_of_nameIs isName cached named
      have dead : (t.setField (fileOf b j) 45 dir.va).content.Dead (fileOf b j) ↔ t.content.Dead (fileOf b j) := by
        unfold Image.Dead
        rw [setField_field cached (by decide)]
      obtain ⟨after, _⟩ := slot.setOther (k := 45) (v := dir.va) (by decide) (by decide)
        fun isStrict notRoot isDead => absurd (dead.mp isDead) (live isStrict notRoot)
      exact ⟨after, fun isStrict notRoot isDead => live isStrict notRoot (dead.mp isDead)⟩
    · exact ih (i + 1) (by omega) (Unless.mono got fun role both => ⟨both.1, both.2.1⟩)

theorem dirLookup_spec {name : List Byte} (isName : IsName name) (holds : Holds strict s role dir)
    (live : Live strict dir s.content) (type : s.content.field dir 33 = ftypeDir) :
    (dirLookup dir name s).Meets (fun g t => Held strict g (Live strict g) t)
      (Held strict dir fun c => Live strict dir c ∧ c.field dir 33 = ftypeDir) fun _ => True := by
  have size : s.fSize dir = s.content.field dir 32 := field_content holds.cached 32
  have scan := dirScan_spec isName ((s.fSize dir).toNat / 4096) 0 (Nat.zero_add _)
    (Or.inr ⟨role, holds, live, type, by rw [size]⟩)
  exact scan.mono (fun _ _ h => h) (fun _ h => h.mono fun _ searched => ⟨searched.live, searched.type⟩) fun _ h => h

/-- What `walk_path` returns: a file of the tree, or the directory where the last element of the path is missing. -/
structure WalkedTo (strict : Prop) (w : Walked) (t : Store) : Prop where
  file : ∀ f, w.file = some f → Held strict f (Live strict f) t
  missing : w.code ≠ 0 → w.file = none
  dir : ∀ d, w.dir = some d → w.file = none →
    Held strict d (fun c => Live strict d c ∧ c.field d 33 = ftypeDir) t ∧ IsName w.last ∧ w.last.length < maxNameLen
  known : Known strict t

/-- What `walk_path` returns, where a file that it finds meets `P`, and a directory without the last element meets `D`. -/
structure WalkedBy (P D : FilePtr → Store → Prop) (K : Store → Prop) (w : Walked) (t : Store) : Prop where
  file : ∀ f, w.file = some f → P f t
  missing : w.code ≠ 0 → w.file = none
  dir : ∀ d, w.dir = some d → w.file = none → D d t ∧ IsName w.last ∧ w.last.length < maxNameLen
  known : K t

theorem walkElements_meets {P D : FilePtr → Store → Prop} {K : Store → Prop} (file : ∀ f s, P f s → K s)
    (missing : ∀ f s, D f s → K s)
    (lookup : ∀ f name s, IsName name → P f s → s.fType f = ftypeDir → (dirLookup f name s).Meets P (D f) fun _ => True)
    (names : List (List Byte)) (isName : ∀ name ∈ names, IsName name) (dir : Option FilePtr) (start : P f s) :
    (walkElements dir f names s).Meets (WalkedBy P D K) K fun _ => True := by
  induction names generalizing dir f s with
  | nil =>
    refine ⟨fun g same => ?_, fun ne => absurd rfl ne, fun _ _ none => (by cases none), file f s start⟩
    cases same
    exact start
  | cons name rest ih =>
    have nothing : ∀ {code : Word} {t : Store}, K t →
        WalkedBy P D K { code := code, dir := none, file := none, last := [] } t := fun known =>
      ⟨fun _ same => (by cases same), fun _ => rfl, fun _ same => (by cases same), known⟩
    unfold walkElements
    split
    · exact nothing (file f s start)
    · rename_i short
      split
      · exact nothing (file f s start)
      · rename_i type
        refine (Result.Meets.tested (lookup f name s (isName name (List.mem_cons_self ..)) start (not_not.mp type))).bind
          fun r t after => ?_
        cases r with
        | ok g => exact ih (fun other mem => isName other (List.mem_cons_of_mem _ mem)) (some f) after
        | error r =>
          dsimp only
          split
          · refine ⟨fun _ same => (by cases same), fun _ => rfl, fun d same _ => ?_, missing f t after⟩
            cases same
            exact ⟨after, isName name (List.mem_cons_self ..), Nat.lt_of_not_le short⟩
          · exact nothing (missing f t after)

theorem walkElements_spec (names : List (List Byte)) (isName : ∀ name ∈ names, IsName name) (dir : Option FilePtr)
    (held : Held strict f (Live strict f) s) :
    (walkElements dir f names s).Meets (WalkedTo strict) (Known strict) fun _ => True := by
  refine (walkElements_meets (P := fun g t => Held strict g (Live strict g) t)
    (D := fun d t => Held strict d (fun c => Live strict d c ∧ c.field d 33 = ftypeDir) t) (fun _ _ held => held.known)
    (fun _ _ held => held.known) (fun f name s isName held type => ?_) names isName dir held).mono
    (fun w t walked => ⟨walked.file, walked.missing, walked.dir, walked.known⟩) (fun _ h => h) fun _ h => h
  rcases held with spoiled | ⟨role, holds, live⟩
  · exact Result.Meets.mono (dirScan_kept spoiled_kept name _ _ spoiled) (fun _ _ h => .inl h) (fun _ h => .inl h)
      fun _ h => h
  · exact dirLookup_spec isName holds live ((field_content holds.cached 33).symm.trans type)

theorem mem_of_split {α : Type} {p : α → Bool} {xs a l : List α} {x : α} (mem : l ∈ xs.splitOnPPrepend p a)
    (inside : x ∈ l) : x ∈ xs ∨ x ∈ a := by
  induction xs generalizing a with
  | nil =>
    rw [List.splitOnPPrepend_nil, List.mem_singleton] at mem
    subst mem
    exact .inr (List.mem_reverse.mp inside)
  | cons y ys ih =>
    rw [List.splitOnPPrepend_cons_eq_if] at mem
    split at mem
    · rcases List.mem_cons.mp mem with rfl | mem
      · exact .inr (List.mem_reverse.mp inside)
      · rcases ih (a := []) mem with later | no
        · exact .inl (List.mem_cons_of_mem _ later)
        · cases no
    · rcases ih mem with later | before
      · exact .inl (List.mem_cons_of_mem _ later)
      · rcases List.mem_cons.mp before with rfl | before
        · exact .inl (List.mem_cons_self ..)
        · exact .inr before

theorem isName_of_mem {path name : List Byte} (mem : name ∈ pathElements path) : IsName name := by
  unfold pathElements at mem
  obtain ⟨mem, nonempty⟩ := List.mem_filter.mp mem
  cases name with
  | nil => simp at nonempty
  | cons c rest =>
    refine ⟨c, rest, rfl, ?_⟩
    rcases mem_of_split (a := []) mem (List.mem_cons_self ..) with inside | no
    · simpa using List.mem_takeWhile_imp inside
    · cases no

theorem walkPath_spec (path : List Byte) (held : Held strict root (Live strict root) s) :
    (walkPath path s).Meets (WalkedTo strict) (Known strict) fun _ => True :=
  walkElements_spec _ (fun _ mem => isName_of_mem mem) none held

end Mos.Fs
