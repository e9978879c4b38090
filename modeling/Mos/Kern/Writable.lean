import Mos.Kern.LeafStep
import Mos.Kern.Machine

namespace Mos

/-- The user pages of `after` that are not those of `before` have `PTE_D`. -/
def Dirties (before after : EnvPtr → VPage → Option Word) : Prop :=
  ∀ b s w, ¬ Shared s.1 → after b s = some w → before b s = some w ∨ w &&& pteD ≠ 0

def Writable (k : Kernel) : Prop :=
  ∀ b s w, ¬ Shared s.1 → leaf (rootsOf k) k.vm b s = some w → w &&& pteD ≠ 0

/-- The calls that store to a buffer of the user. -/
inductive Fills : UserCall → Prop where
  | readDev (va pa len data : Word) : Fills (.readDev va pa len data)
  | getcwd (buf len : Word) : Fills (.getcwd buf len)
  | getVar (userName userBuf : Word) : Fills (.getVar userName userBuf)
  | getVarByIndex (index userBuf : Word) : Fills (.getVarByIndex index userBuf)

/-- The pages that a step maps have `PTE_D`. -/
def MapsDirty : Op → Prop
  | .syscall _ (.memAlloc _ _ perm) => perm &&& pteD ≠ 0
  | .syscall _ (.memMap _ _ _ _ perm) => perm &&& pteD ≠ 0
  | .syscall _ (.ipcTrySend _ _ srcva perm) => srcva ≠ 0 → perm &&& pteD ≠ 0
  | .envCreate binary _ => ∀ page ∈ binary.pages, page.perm &&& pteD ≠ 0
  | _ => True

variable {k k' : Kernel} {managed : Nat → Prop} {base : Nat} {roots : Roots} {vm : Vm} {cur : EnvPtr} {pp : Nat}
variable {va perm : Word}

/-- A translation stays, goes or comes with `PTE_D`. -/
def dirtyRel : LeafRel := fun _ _ before after => ∀ w, after = some w → before = some w ∨ w &&& pteD ≠ 0

theorem dirtyRel_order : dirtyRel.Order := by
  refine ⟨fun _ _ _ _ there => Or.inl there, fun first second w there => ?_⟩
  rcases second w there with there | dirty
  · exact first w there
  · exact Or.inr dirty

theorem dirtyRel_cleared (b : EnvPtr) (s : VPage) (x : Option Word) : dirtyRel b s x none := fun _ there => by cases there

theorem pteOf_dirty (dirty : perm &&& pteD ≠ 0) : pteOf pp perm &&& pteD ≠ 0 := by
  intro clean
  simp only [pteOf, BitVec.and_or_distrib_right] at clean
  obtain ⟨⟨⟨_, zero⟩, _⟩, _⟩ : ((page2pa pp &&& pteD = 0 ∧ perm &&& pteD = 0) ∧ pteCCacheable &&& pteD = 0) ∧
      pteV &&& pteD = 0 := by
    simpa [BitVec.or_eq_zero_iff] using clean
  exact dirty zero

theorem dirtyRel_mapped (b : EnvPtr) (s : VPage) (x : Option Word) (pp : Nat) (dirty : perm &&& pteD ≠ 0) :
    dirtyRel b s x (some (pteOf pp perm)) := by
  intro w there
  cases there
  exact Or.inr (pteOf_dirty dirty)

theorem Maps.dirty {op : Op} {e : EnvPtr} {s : VPage} (maps : Maps k op e s perm) (dirty : MapsDirty op) : perm &&& pteD ≠ 0 := by
  cases maps with
  | memAlloc current env => exact dirty
  | memMap current env => exact dirty
  | ipcTrySend current accepts sends => exact dirty sends
  | envCreate free mem => exact dirty _ mem

theorem Writable.dirties (writable : Writable k)
    (dirties : Dirties (leaf (rootsOf k) k.vm) (leaf (rootsOf k') k'.vm)) : Writable k' := by
  intro b s w own there
  rcases dirties b s w own there with there | dirty
  · exact writable b s w own there
  · exact dirty

theorem step_writable {op : Op} (writable : Writable k) (pages : PageInv managed k) (inv : TlbInv managed k) (env : EnvInv k)
    (wf : k.table.WellFormed) (guard : TlbGuard k op) (dirty : MapsDirty op) (h : step k op = some k') : Writable k' := by
  have leaves : StepLeaves dirtyRel k k' := step_leaves dirtyRel_order
    (fun b s pp => dirtyRel_mapped b s none pp (by decide)) (fun e s x _ => dirtyRel_cleared e s x)
    (fun e s x pp perm maps => dirtyRel_mapped e s x pp (maps.dirty dirty)) pages inv env wf guard h
  exact writable.dirties fun b s w own there => leaves b s own w there

section stores

variable {bytes : List (BitVec 8)} {len : Word} {s : Store}

theorem copyOut_address (inside : s ∈ copyOut va bytes) : ∃ i, i < bytes.length ∧ s.1 = va + BitVec.ofNat 32 i := by
  induction bytes generalizing va with
  | nil => cases inside
  | cons byte rest ih =>
    rcases List.mem_cons.mp inside with rfl | later
    · exact ⟨0, Nat.zero_lt_succ _, by simp⟩
    · obtain ⟨i, small, address⟩ := ih later
      refine ⟨i + 1, Nat.succ_lt_succ small, ?_⟩
      rw [address, BitVec.add_assoc, Nat.add_comm i 1, ← BitVec.ofNat_add_ofNat]
      rfl

theorem copyOut_user (legal : isIllegalVaRange va len = false) (short : bytes.length ≤ len.toNat)
    (inside : s ∈ copyOut va bytes) : utemp ≤ s.1 ∧ s.1 < utop := by
  obtain ⟨i, small, address⟩ := copyOut_address inside
  have fits : i < len.toNat := lt_of_lt_of_le small short
  have nonzero : len ≠ 0 := by
    rintro rfl
    exact Nat.not_lt_zero i fits
  simp only [isIllegalVaRange, if_neg nonzero, Bool.or_eq_false_iff, decide_eq_false_iff_not, BitVec.not_lt,
    BitVec.le_def, BitVec.toNat_add] at legal
  obtain ⟨⟨noWrap, low⟩, top⟩ := legal
  have bound := va.isLt
  have bound' := len.isLt
  rw [address, BitVec.le_def, BitVec.lt_def, BitVec.toNat_add, BitVec.toNat_ofNat]
  omega

theorem structVar_length (words : Nat → Word) (i : Nat) :
    (structVar words i).length ≤ (BitVec.ofNat 32 varSize).toNat := by
  rw [structVar, List.length_map, List.length_range]
  decide

theorem withVars_ok {r : Word × List Store} {f : Nat → CallRes} (h : withVars cur k f = .ok r k') :
    ∃ vars, f vars = .ok r k' := by
  unfold withVars at h
  split at h
  · exact ⟨_, h⟩
  · cases h

theorem fills_user {load : Load} {call : UserCall} {r : Word} {stores : List Store} (fills : Fills call)
    (h : userTable cur load call k = .ok (r, stores) k') (inside : s ∈ stores) : utemp ≤ s.1 ∧ s.1 < utop := by
  cases fills with
  | readDev va pa len data =>
    simp only [userTable, sysReadDev, devAccess] at h
    split at h
    · cases h
    · rename_i legal
      simp only [Bool.or_eq_true, not_or, Bool.not_eq_true] at legal
      split_ifs at h
      cases h
      exact copyOut_user legal.1 (List.length_take_le _ _) inside
  | getcwd buf len =>
    simp only [userTable, sysGetcwd] at h
    split at h
    · cases h
    · rename_i legal
      split at h
      · cases h
      · rename_i room
        cases h
        refine copyOut_user (Bool.not_eq_true _ ▸ legal) ?_ inside
        rw [List.length_append, List.length_singleton]
        exact not_lt.mp room
  | getVar userName userBuf =>
    simp only [userTable, sysGetVar, tryCopy] at h
    split at h
    · split at h
      · cases h
      · rename_i legal
        obtain ⟨vars, h⟩ := withVars_ok h
        split at h
        · cases h
        · cases h
          exact copyOut_user (Bool.not_eq_true _ ▸ legal) (structVar_length _ _) inside
    · cases h
  | getVarByIndex index userBuf =>
    simp only [userTable, sysGetVarByIndex] at h
    split at h
    · cases h
    · split at h
      · cases h
      · rename_i legal
        obtain ⟨vars, h⟩ := withVars_ok h
        split at h
        · cases h
        · cases h
          exact copyOut_user (Bool.not_eq_true _ ▸ legal) (structVar_length _ _) inside

end stores

theorem boot_writable {npage : Nat} {mem : Nat → Nat → Word} (booted : boot npage mem = some k) : Writable k := by
  obtain ⟨p, vm, _, _, rfl⟩ := boot_init booted
  intro b s w _ there
  cases there

end Mos
