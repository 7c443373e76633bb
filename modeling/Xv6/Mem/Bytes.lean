import Xv6.Mem.Copy
import Mathlib.Data.List.GetD

namespace Xv6.Mem
open BitVec Lib.Radix Lib

theorem wordOf_eq (h : o < 4096) (h' : o' < 4096) : wordOf o = wordOf o' ↔ o / 8 = o' / 8 := by
  simp only [wordOf, Fin.mk.injEq]
  omega

theorem getByte_setByte_self (p : Page) (o : Nat) (b : Byte) : getByte (setByte p o b) o = b := by
  rw [getByte, setByte, Function.update_self]
  ext i hi
  simp only [getElem_setWidth, getLsbD_ushiftRight, getLsbD_or,
    getLsbD_and, getLsbD_not, getLsbD_shiftLeft, getLsbD_setWidth]
  have hlt : 8 * (o % 8) + i < 64 := by omega
  have hff : ∀ j < 8, (255#64).getLsbD j = true := by decide
  have hsub : 8 * (o % 8) + i - 8 * (o % 8) = i := by omega
  simp [hlt, hsub, hff i hi, hi, show i < 64 by omega]

theorem getByte_setByte_of_ne (p : Page) (b : Byte) (h : o < 4096) (h' : o' < 4096)
    (hne : o' ≠ o) : getByte (setByte p o b) o' = getByte p o' := by
  rw [getByte, getByte, setByte]
  by_cases hw : wordOf o' = wordOf o
  · have hdiv := (wordOf_eq h' h).mp hw
    rw [hw, Function.update_self]
    ext i hi
    simp only [getElem_setWidth, getLsbD_ushiftRight, getLsbD_or,
      getLsbD_and, getLsbD_not, getLsbD_shiftLeft, getLsbD_setWidth]
    have hlt : 8 * (o' % 8) + i < 64 := by omega
    rcases Nat.lt_or_gt_of_ne (show o' % 8 ≠ o % 8 by omega) with hlo | hhi
    · simp [hlt, show 8 * (o' % 8) + i < 8 * (o % 8) by omega]
    · have hge : ¬ 8 * (o' % 8) + i < 8 * (o % 8) := by omega
      have hff : ∀ j < 64, 8 ≤ j → (255#64).getLsbD j = false := by decide
      have hb : b.getLsbD (8 * (o' % 8) + i - 8 * (o % 8)) = false :=
        getLsbD_of_ge _ _ (by omega)
      simp [hlt, hge, hff _ (show 8 * (o' % 8) + i - 8 * (o % 8) < 64 by omega) (by omega), hb]
  · rw [Function.update_of_ne hw]

theorem getByte_setBytes (p : Page) (h : o + bs.length ≤ 4096) (h' : o' < 4096) :
    getByte (setBytes p o bs) o' =
      if o ≤ o' then bs.getD (o' - o) (getByte p o') else getByte p o' := by
  induction bs generalizing p o with
  | nil => simp [setBytes]
  | cons b bs ih =>
    rw [List.length_cons] at h
    rw [setBytes, ih _ (by omega)]
    rcases Nat.lt_trichotomy o' o with hlt | rfl | hgt
    · rw [if_neg (by omega), if_neg (by omega), getByte_setByte_of_ne p b (by omega) h' (by omega)]
    · rw [if_neg (by omega), if_pos (Nat.le_refl _), getByte_setByte_self]
      simp
    · rw [if_pos (by omega), if_pos (by omega),
        getByte_setByte_of_ne p b (by omega) h' (by omega)]
      rw [show o' - o = o' - (o + 1) + 1 by omega, List.getD_cons_succ]

theorem ofBytes_toBytes (w : Word) : ofBytes (toBytes w) = w.toNat := by
  have hw := w.isLt
  simp only [toBytes, ofBytes, List.range, List.range.loop, List.map_cons, List.map_nil,
    toNat_setWidth, toNat_ushiftRight, Nat.shiftRight_eq_div_pow]
  omega

theorem length_toBytes (w : Word) : (toBytes w).length = 8 := rfl

theorem length_flatMap_toBytes (ws : List Word) :
    (ws.flatMap toBytes).length = 8 * ws.length := by
  induction ws with
  | nil => rfl
  | cons w ws ih =>
    rw [List.flatMap_cons, List.length_append, ih, length_toBytes, List.length_cons]
    omega

theorem bytes_of_word {ws : List Word} (h : ws[j]? = some w) :
    (List.range 8).map (fun i => (ws.flatMap toBytes).getD (8 * j + i) 0) = toBytes w := by
  induction ws generalizing j with
  | nil => cases h
  | cons v ws ih =>
    cases j with
    | zero =>
      cases h
      rfl
    | succ j =>
      rw [← ih h]
      apply List.map_congr_left
      intro i _
      rw [List.flatMap_cons, List.getD_append_right _ _ _ _ (by rw [length_toBytes]; omega),
        length_toBytes]
      congr 1
      omega

/-- The byte at va, if the user can read it. -/
def userByte (m : Addr → Page) (root va : Addr) : Option Byte :=
  (lookup m root (va.toNat / 4096)).bind (fun w =>
    if Has w PTE_U then some (getByte (m (pte2pa w)) (va.toNat % 4096)) else none)

theorem pgrounddown_div (a : Addr) : (pgrounddown a).toNat / 4096 = a.toNat / 4096 := by
  rw [pgrounddown_toNat]
  omega

theorem sub_pgrounddown (a : Addr) : (a - pgrounddown a).toNat = a.toNat % 4096 := by
  have h := pgrounddown_toNat a
  have := a.isLt
  rw [toNat_sub, h]
  omega

section Layout
variable [Image]

/-- copyout() to a part of one page that the user may write. -/
theorem Space.copyout_page (h : Space R root tf n f k) (hw : f (va.toNat / 4096) = some w)
    (hu : Has w PTE_U) (hwr : Has w PTE_W) (hfit : va.toNat % 4096 + src.length ≤ 4096)
    (hne : src ≠ []) :
    Ends (Mem.copyout root va src) k (fun r k' => r = 0 ∧
      k' = k.put (pte2pa w) (setBytes (k.mem (pte2pa w)) (va.toNat % 4096) src)) := by
  have hlt := h.exact.lt_of_user h.table.low hw hu
  have hsmall := h.small
  obtain ⟨⟨x, i⟩, hs, hx, hv⟩ := slot_of_lookup (h.table.map ▸ hw)
  obtain ⟨fuel, hfuel⟩ : ∃ fuel, src.length = fuel + 1 := by
    cases src with
    | nil => exact absurd rfl hne
    | cons b bs => exact ⟨bs.length, rfl⟩
  have hmax : ¬ MAXVA ≤ pgrounddown va := by
    rw [maxva_le, pgrounddown_toNat]
    omega
  have hchunk : chunk va src.length = src.length := by
    rw [chunk, sub_pgrounddown]
    omega
  have hflags : ¬ (¬ Has w PTE_V ∨ ¬ Has w PTE_U ∨ ¬ Has w PTE_W) := by
    simp [hv, hu, hwr]
  simp only at hx
  rw [Mem.copyout, hfuel, Mem.copyoutLoop, if_neg hne, if_neg hmax, ends_bind,
    walk_read (by rw [pgrounddown_toNat]; omega), pgrounddown_div, hs, ends_bind, ends_load, hx,
    if_neg hflags, hchunk, ends_bind, ends_getPage, ends_bind, ends_setPage, List.take_length,
    List.drop_length, sub_pgrounddown]
  cases fuel with
  | zero => exact ends_pure.mpr ⟨rfl, rfl⟩
  | succ fuel =>
    rw [Mem.copyoutLoop, if_pos rfl]
    exact ends_pure.mpr ⟨rfl, rfl⟩

end Layout

end Xv6.Mem
