import Mathlib.Data.BitVec
import Mathlib.Tactic.Common

namespace Mos

abbrev Word := BitVec 32

def pageSize : Word := 4096
def pgshift : Nat := 12
def pdshift : Nat := 22
def pdmap : Word := 0x400000

def pdx (va : Word) : Nat := ((va >>> pdshift) &&& 0x3ff).toNat
def ptx (va : Word) : Nat := ((va >>> pgshift) &&& 0x3ff).toNat
def pteAddr (pte : Word) : Word := pte &&& ~~~0xfff#32
def pteFlags (pte : Word) : Word := pte &&& 0xfff#32
def ppn (pa : Word) : Nat := (pa >>> pgshift).toNat
def vpn (va : Word) : Nat := (va >>> pgshift).toNat

def pteG : Word := 0x0001 <<< 6
def pteV : Word := 0x0002 <<< 6
def pteD : Word := 0x0004 <<< 6
def pteCCacheable : Word := 0x0018 <<< 6
def pteCow : Word := 0x0001
def pteLibrary : Word := 0x0002

def ulim : Word := 0x80000000
def uvpt : Word := ulim - pdmap
def upages : Word := uvpt - pdmap
def uenvs : Word := upages - pdmap
def utop : Word := uenvs
def uxstacktop : Word := utop
def ustacktop : Word := utop - 2 * pageSize
def utext : Word := pdmap
def ucow : Word := utext - pageSize
def utemp : Word := ucow - pageSize

def eBadEnv : Word := 2
def eInval : Word := 3
def eNoMem : Word := 4
def eNoFreeEnv : Word := 6
def eIpcNotRecv : Word := 7

def page2pa (pp : Nat) : Word := BitVec.ofNat 32 pp <<< pgshift

/-- The word that `page_insert` and `pgdir_walk` store for page `pp`. -/
def pteOf (pp : Nat) (perm : Word) : Word := page2pa pp ||| perm ||| pteCCacheable ||| pteV

/-- A permission argument made of the flag bits of a page table entry only. -/
def FlagBits (perm : Word) : Prop := perm >>> pgshift = 0

instance (perm : Word) : Decidable (FlagBits perm) := inferInstanceAs (Decidable (_ = _))

theorem pdx_lt (va : Word) : pdx va < 1024 := by
  have h : ((va >>> pdshift) &&& 0x3ff).toNat ≤ 0x3ff := by
    rw [BitVec.toNat_and]
    exact Nat.and_le_right
  exact Nat.lt_succ_of_le h

theorem ptx_lt (va : Word) : ptx va < 1024 := by
  have h : ((va >>> pgshift) &&& 0x3ff).toNat ≤ 0x3ff := by
    rw [BitVec.toNat_and]
    exact Nat.and_le_right
  exact Nat.lt_succ_of_le h

theorem pdx_eq (va : Word) : pdx va = va.toNat / 2^22 % 1024 := by
  simp only [pdx, pdshift, BitVec.toNat_and, BitVec.toNat_ushiftRight, Nat.shiftRight_eq_div_pow]
  exact Nat.and_two_pow_sub_one_eq_mod _ 10

theorem ptx_eq (va : Word) : ptx va = va.toNat / 2^12 % 1024 := by
  simp only [ptx, pgshift, BitVec.toNat_and, BitVec.toNat_ushiftRight, Nat.shiftRight_eq_div_pow]
  exact Nat.and_two_pow_sub_one_eq_mod _ 10

theorem ppn_page2pa {pp : Nat} (bound : pp < 2^20) : ppn (page2pa pp) = pp := by
  simp only [ppn, page2pa, pgshift, BitVec.toNat_ushiftRight, BitVec.toNat_shiftLeft, BitVec.toNat_ofNat]
  omega

theorem ppn_or_flags (pa perm : Word) (flags : FlagBits perm) : ppn (pa ||| perm) = ppn pa := by
  unfold FlagBits at flags
  simp only [ppn, BitVec.ushiftRight_or_distrib, flags]
  simp

theorem ppn_pteOf {pp : Nat} {perm : Word} (bound : pp < 2^20) (flags : FlagBits perm) :
    ppn (pteOf pp perm) = pp := by
  rw [pteOf, ppn_or_flags _ pteV (by decide), ppn_or_flags _ pteCCacheable (by decide),
    ppn_or_flags _ _ flags, ppn_page2pa bound]

theorem pteOf_valid (pp : Nat) (perm : Word) : pteOf pp perm &&& pteV ≠ 0 := by
  intro h
  have bit := congrArg (fun w : Word => w.getLsbD 7) h
  simp [pteOf, pteV] at bit

end Mos
