import Mos.Fs.Exclusive

namespace Mos.Fs

variable {t t0 u : Server} {s : Store} {f : FilePtr} {c c' : Image} {role role' : Nat → Option Owner} {strict : Prop}
  {op : ServeOp} {fileid : Word}

def created (t : Server) : ServeOp → Option FilePtr
  | .fsreqOpen path omode =>
    if omode &&& oCreat ≠ 0 then
      match openAlloc t with
      | .ok _ u =>
        match fileCreate path u.fs with
        | .ok f _ => some f
        | _ => none
      | _ => none
    else none
  | _ => none

/-- The server with a history: how many files were made in each slot, and which of them a descriptor was opened on. -/
structure Session where
  server : Server
  births : FilePtr → Nat
  denotes : Nat → Option (FilePtr × Nat)

def Session.start (t : Server) : Session := { server := t, births := fun _ => 0, denotes := fun _ => none }

def OtherBlock (c : Image) (f : FilePtr) (b : Nat) : Prop := ∃ g p, Reach c g ∧ g ≠ f ∧ c.target g p = b ∧ b ≠ 0

/-- Only the `File` and the blocks of `f`, the bitmap and blocks that no file owns are changed. -/
structure Confined (c : Image) (f : FilePtr) (c' : Image) : Prop where
  words : ∀ b i, b = 1 ∨ OtherBlock c f b → (b = f.block → i < f.word ∨ f.word + 64 ≤ i) → c' b i = c b i
  used : ∀ b, OtherBlock c f b → ¬ c'.Free b

theorem Sound.other_owner {b : Nat} (sound : Sound strict c) (other : OtherBlock c f b) :
    ∃ o, ownerOf c b = some o ∧ o.file ≠ f := by
  obtain ⟨g, p, reach, ne, rfl, held⟩ := other
  obtain ⟨d, owner, _⟩ := sound.ownerOf_target reach held
  exact ⟨_, owner, ne⟩

theorem Spared.confined (spared : Spared c (ownerOf c) f c' role') (sound : Sound strict c)
    (after : Consistent strict c' role') : Confined c f c' where
  words b i owned file := by
    refine spared.words b i ?_ (owned.imp id sound.other_owner) file
    rcases owned with rfl | other
    · unfold Image.IsBitmap
      omega
    · obtain ⟨o, owner, _⟩ := sound.other_owner other
      exact IsData.not_bitmap (sound.consistent.data b o owner)
  used b other isFree := by
    obtain ⟨o, owner, ne⟩ := sound.other_owner other
    have below := (sound.consistent.data b o owner).2
    rw [← spared.nblocks] at below
    have unowned := (after.free b below isFree).2
    rw [spared.owners b o ne owner] at unowned
    cases unowned

theorem Confined.refl (sound : Sound strict c) : Confined c f c :=
  (Spared.refl c (ownerOf c) f).confined sound sound.consistent

theorem Grown.spared {I : Nat → Prop} (grown : Grown f I c role c' role') (consistent : Consistent strict c role)
    (hf : Placed role f) : Spared c role f c' role' :=
  grown.touches.spared consistent hf fun b o _ owner => grown.owners b o owner

theorem onOpen_file {body : FilePtr → Store → Res Reply} (file : OpenFile t fileid f) :
    onOpen fileid body t = t.withFs (body f t.fs) := by
  unfold onOpen openLookup
  rw [if_neg (Nat.not_le.mpr file.below), if_neg (Nat.not_le.mpr file.shared), Result.ok_bind, file.file]

section Requests

variable (whole : Whole strict t) (file : OpenFile t fileid f)
include whole file

end Requests

end Mos.Fs
