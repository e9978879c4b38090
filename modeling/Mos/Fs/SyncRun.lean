import Mos.Fs.Saved
import Mos.Fs.Restart

namespace Mos.Fs

variable {X : Nat → Prop} {s s' : Store} {t t' u v : Server} {op : ServeOp} {disk : Image} {memory : Nat → Bool} {f : FilePtr}
  {b i : Nat}

/-- What the requests and the stores of clients change without writing it to the disk is in blocks of `X`. -/
structure SyncGuard (X : Nat → Prop) (t : Server) (op : ServeOp) : Prop where
  owns : OwnGuard False t op
  opens : ∀ path omode i u, op = .fsreqOpen path omode → openAlloc t = .ok i u →
    Walks X root (pathElements path) u.fs ∧ (omode &&& oCreat ≠ 0 → Creates X path u.fs)
  maps : ∀ fileid offset f, op = .fsreqMap fileid offset → OpenFile t fileid f → Fills X f (offset.toNat / 4096) t.fs
  sets : ∀ f n s, SetsSize t op f n s → X f.block ∨ s.content.field f 32 = n
  cuts : ∀ f n s, Truncates t op f n s → Uncut f n s
  removes : ∀ path, op = .fsreqRemove path → Walks X root (pathElements path) t.fs ∧
    ∀ w s f, walkPath path t.fs = .ok w s → w.file = some f → X f.block
  stores : ∀ b i v, op = .store b i v → X b ∧ (t.fs.content.Free b → v = 0)

theorem SyncGuard.zero (guard : SyncGuard X t op) : ZeroGuard t op where
  owns := guard.owns
  cuts f n s truncates := (guard.cuts f n s truncates).wiped
  stores b i v same := (guard.stores b i v same).2

section Steps

variable (before : Spotless t) (saved : Saved X t.fs)
include before

theorem Spotless.inTree (reach : Reach t.fs.content f) (cached : t.fs.cache f.block ≠ none) : InTree f t.fs :=
  ⟨before.super, cached, before.sound.toExclusive, reach⟩

include saved

end Steps

section Boot

theorem Agrees.loadBlock {s : Store} (agrees : Agrees X s) : (loadBlock b s).Leaves (Agrees X) fun _ => True :=
  loadBlock_leaves b agrees agrees agrees.loaded

end Boot

/-- A block that `fs_sync` writes, or that is not in use when it starts. -/
def Written (s : Store) (b : Nat) : Prop := InUse s b → s.dirty b = true

instance (s : Store) (b : Nat) : Decidable (Written s b) := inferInstanceAs (Decidable (_ → _))

section Filled

variable {name : List Byte} {path : List Byte} {omode fileid offset size : Word}

end Filled

end Mos.Fs
