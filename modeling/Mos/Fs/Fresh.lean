import Mos.Fs.Boot

namespace Mos.Fs

/-- The file gets the block with zeros in the cache. -/
def Given.Zero (g : Given) : Prop := ∀ i, i < 1024 → g.page i = 0

/-- The cache does not hold the block when `alloc_block` takes it, or holds zeros. -/
def Given.Clean (g : Given) : Prop := ∀ p, g.old = some p → ∀ i, i < 1024 → p i = 0

variable {s s' : Store}

theorem sysMemAlloc_page {b : Nat} {u : Unit} (h : sysMemAlloc b s = .ok u s') : s'.page b = zeroPage := by
  unfold sysMemAlloc at h
  split at h <;> cases h
  simp [Store.page]

theorem firstFree_ge {b : Nat} (found : firstFree s = some b) : 3 ≤ b := by
  have inside := List.mem_of_find?_eq_some found
  rw [List.mem_range'_1] at inside
  exact inside.1

theorem mapBlock_page {b : Nat} {u : Unit} (h : mapBlock b s = .ok u s') : s'.page b = (s.cache b).getD zeroPage := by
  unfold mapBlock at h
  cases old : s.cache b with
  | some p =>
    simp only [old] at h
    cases h
    simp [Store.page, old]
  | none =>
    simp only [old] at h
    exact sysMemAlloc_page h

theorem allocBlockNum_cache {b : Nat} (h : allocBlockNum s = .ok b s') : s'.cache b = s.cache b := by
  unfold allocBlockNum at h
  split at h
  · cases h
  · rename_i d first
    obtain ⟨_, t, write, h⟩ := Result.bind_ok h
    cases h
    unfold writeBlock at write
    split at write <;> cases write
    exact Function.update_of_ne (bitmapBlock_ne (firstFree_ge first)).symm _ _

theorem allocBlock_page {b : Nat} (h : allocBlock s = .ok b s') : s'.page b = (s.cache b).getD zeroPage := by
  obtain ⟨c, mid, found, h⟩ := Result.bind_ok h
  obtain ⟨r, t, run, h⟩ := Result.bind_ok h
  cases r with
  | ok u =>
    cases h
    rw [← allocBlockNum_cache found]
    exact mapBlock_page (Result.tested_ok run)
  | error r => cases h

end Mos.Fs
