import Mathlib.Data.BitVec

namespace Xv6.Mem

abbrev Addr := BitVec 64
abbrev Word := BitVec 64

/-- The 512 words of a page. -/
abbrev Page := Fin 512 → Word

def PGSIZE : Addr := 4096

def PTE_V : Word := 1
def PTE_R : Word := 2
def PTE_W : Word := 4
def PTE_X : Word := 8
def PTE_U : Word := 16

def MAXVA : Addr := 1 <<< (9 + 9 + 9 + 12 - 1)
def TRAMPOLINE : Addr := MAXVA - PGSIZE
def TRAPFRAME : Addr := TRAMPOLINE - PGSIZE

def KERNBASE : Addr := 0x80000000
def PHYSTOP : Addr := KERNBASE + 128 * 1024 * 1024

def pgroundup (sz : Addr) : Addr := (sz + PGSIZE - 1) &&& ~~~(PGSIZE - 1)
def pgrounddown (a : Addr) : Addr := a &&& ~~~(PGSIZE - 1)

def pa2pte (pa : Addr) : Word := (pa >>> 12) <<< 10
def pte2pa (pte : Word) : Addr := (pte >>> 10) <<< 12
def pteFlags (pte : Word) : Word := pte &&& 0x3FF

def px (level : Nat) (va : Addr) : Fin 512 :=
  ⟨((va >>> (12 + 9 * level)) &&& 0x1FF).toNat, by
    rw [BitVec.toNat_and]
    exact Nat.lt_of_le_of_lt Nat.and_le_right (by decide)⟩

/-- The test `pte & flag` of the source. -/
def Has (w flag : Word) : Prop := w &&& flag ≠ 0#64

instance (w flag : Word) : Decidable (Has w flag) := inferInstanceAs (Decidable (_ ≠ _))

/-- The entry mappages() writes. -/
def mkPte (pa : Addr) (perm : Word) : Word := pa2pte pa ||| perm ||| PTE_V

theorem pgsize_toNat : PGSIZE.toNat = 4096 := rfl

theorem pgrounddown_eq (a : Addr) : pgrounddown a = (a >>> 12) <<< 12 := by
  ext i hi
  have h : (PGSIZE - 1)[i] = decide (i < 12) := by
    revert i
    decide
  rw [pgrounddown, BitVec.getElem_and, BitVec.getElem_not, BitVec.getElem_shiftLeft, h]
  by_cases h12 : i < 12
  · simp [h12]
  · simp [h12, BitVec.getElem_ushiftRight, BitVec.getLsbD_eq_getElem, hi,
      show 12 + (i - 12) = i by omega]

theorem pgrounddown_toNat (a : Addr) : (pgrounddown a).toNat = a.toNat / 4096 * 4096 := by
  have := a.isLt
  rw [pgrounddown_eq, BitVec.toNat_shiftLeft, BitVec.toNat_ushiftRight, Nat.shiftLeft_eq,
    Nat.shiftRight_eq_div_pow]
  omega

theorem pgroundup_toNat {a : Addr} (h : a.toNat + 4095 < 2 ^ 64) :
    (pgroundup a).toNat = (a.toNat + 4095) / 4096 * 4096 := by
  have hs : (a + PGSIZE - 1).toNat = a.toNat + 4095 := by
    rw [PGSIZE]
    bv_omega
  change (pgrounddown (a + PGSIZE - 1)).toNat = _
  rw [pgrounddown_toNat, hs]

theorem px_val (level : Nat) (va : Addr) :
    (px level va).val = va.toNat / 2 ^ (12 + 9 * level) % 512 := by
  change ((va >>> (12 + 9 * level)) &&& 0x1FF).toNat = _
  rw [BitVec.toNat_and, BitVec.toNat_ushiftRight, Nat.shiftRight_eq_div_pow]
  exact Nat.and_two_pow_sub_one_eq_mod _ 9

theorem has_or {a b c : Word} : Has (a ||| b) c ↔ Has a c ∨ Has b c := by
  rw [Has, BitVec.and_comm, BitVec.and_or_distrib_left, BitVec.and_comm c a, BitVec.and_comm c b,
    Ne, BitVec.or_eq_zero_iff, not_and_or]
  exact Iff.rfl

theorem pa2pte_and {pa flag : Word} (hf : flag.toNat < 1024) : pa2pte pa &&& flag = 0 := by
  ext i hi
  rw [BitVec.getElem_and, pa2pte, BitVec.getElem_shiftLeft]
  by_cases h10 : i < 10
  · simp [h10]
  · have h0 : flag[i] = false := by
      rw [← BitVec.getLsbD_eq_getElem, BitVec.getLsbD]
      have hpow : 2 ^ 10 ≤ 2 ^ i := Nat.pow_le_pow_right (by decide) (Nat.le_of_not_lt h10)
      exact Nat.testBit_lt_two_pow (Nat.lt_of_lt_of_le hf hpow)
    simp [h0]

theorem has_mkPte {flag : Word} (hf : flag.toNat < 1024) :
    Has (mkPte pa perm) flag ↔ Has perm flag ∨ Has PTE_V flag := by
  rw [mkPte, has_or, has_or, Has, pa2pte_and hf]
  simp

theorem valid_mkPte (pa : Addr) (perm : Word) : Has (mkPte pa perm) PTE_V :=
  (has_mkPte (by decide)).mpr (.inr (by decide))

theorem or_valid_lt (hp : perm.toNat < 1024) : (perm ||| PTE_V).toNat < 2 ^ 10 := by
  rw [BitVec.toNat_or]
  exact Nat.or_lt_two_pow hp (by decide)

theorem mkPte_toNat (h : pa.toNat % 4096 = 0) (hp : perm.toNat < 1024) :
    (mkPte pa perm).toNat = pa.toNat / 4 + (perm ||| PTE_V).toNat := by
  have := pa.isLt
  have hs : (pa2pte pa).toNat = (pa.toNat / 4096) <<< 10 := by
    rw [pa2pte, BitVec.toNat_shiftLeft, BitVec.toNat_ushiftRight, Nat.shiftLeft_eq,
      Nat.shiftRight_eq_div_pow]
    omega
  have hv := or_valid_lt hp
  rw [mkPte, BitVec.or_assoc, BitVec.toNat_or, hs, ← Nat.shiftLeft_add_eq_or_of_lt hv,
    Nat.shiftLeft_eq]
  omega

theorem pteFlags_toNat (w : Word) : (pteFlags w).toNat = w.toNat % 1024 := by
  rw [pteFlags, BitVec.toNat_and]
  exact Nat.and_two_pow_sub_one_eq_mod w.toNat 10

theorem pte2pa_toNat (w : Word) : (pte2pa w).toNat = w.toNat / 1024 * 4096 % 2 ^ 64 := by
  rw [pte2pa, BitVec.toNat_shiftLeft, BitVec.toNat_ushiftRight, Nat.shiftLeft_eq,
    Nat.shiftRight_eq_div_pow]

theorem pte2pa_mkPte (h : pa.toNat % 4096 = 0) (hp : perm.toNat < 1024) :
    pte2pa (mkPte pa perm) = pa := by
  have := pa.isLt
  have hv := or_valid_lt hp
  apply BitVec.eq_of_toNat_eq
  rw [pte2pa_toNat, mkPte_toNat h hp]
  omega

theorem pteFlags_mkPte (h : pa.toNat % 4096 = 0) (hp : perm.toNat < 1024) :
    pteFlags (mkPte pa perm) = perm ||| PTE_V := by
  have hv := or_valid_lt hp
  apply BitVec.eq_of_toNat_eq
  rw [pteFlags_toNat, mkPte_toNat h hp]
  omega

theorem flag_and_mask {flag : Word} (hf : flag.toNat < 1024) : flag &&& 0x3FF = flag := by
  apply BitVec.eq_of_toNat_eq
  rw [BitVec.toNat_and]
  have := Nat.and_two_pow_sub_one_eq_mod flag.toNat 10
  rw [Nat.mod_eq_of_lt hf] at this
  exact this

/-- An entry with one of the flags R, W, X, U is not a pointer to a page table. -/
theorem flags_ne_valid {flag : Word} (hf : flag.toNat < 1024) (hv : ¬ Has PTE_V flag)
    (h : Has w flag) : pteFlags w ≠ PTE_V := by
  intro he
  apply hv
  rw [← he, Has, pteFlags, BitVec.and_assoc, BitVec.and_comm 0x3FF, flag_and_mask hf]
  exact h

theorem or_valid (h : Has w PTE_V) : w ||| PTE_V = w := by
  have h0 : w.getLsbD 0 = true := by
    by_contra hne
    rw [Bool.not_eq_true] at hne
    apply h
    change w &&& 1#64 = 0#64
    rw [BitVec.and_one_eq_setWidth_ofBool_getLsbD, hne]
    rfl
  ext i hi
  have h1 : PTE_V[i] = decide (i = 0) := by
    revert i
    decide
  rw [BitVec.getElem_or, h1]
  rcases eq_or_ne i 0 with rfl | hne
  · rw [BitVec.getLsbD_eq_getElem hi] at h0
    simp [h0]
  · simp [hne]

theorem pteFlags_or (a b : Word) : pteFlags (a ||| b) = pteFlags a ||| pteFlags b := by
  rw [pteFlags, pteFlags, pteFlags]
  exact BitVec.and_or_distrib_right

theorem pteFlags_valid (h : Has w PTE_V) : pteFlags w ||| PTE_V = pteFlags w := by
  have hv : PTE_V = pteFlags PTE_V := by decide
  rw [hv, ← pteFlags_or, or_valid h]

end Xv6.Mem
