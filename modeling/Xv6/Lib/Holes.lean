import Mathlib.Algebra.Group.Defs
import Mathlib.Data.List.Perm.Basic

namespace Xv6.Lib

open List

variable {α : Type} [DecidableEq α] [Zero α]

/-- An array whose zero entries are free: no zero stands before a nonzero entry. -/
def Packed (l : List α) : Prop := l.Pairwise (fun x y => x = 0 → y = 0)

/-- Puts x into the first free entry, if there is one. -/
def fill (x : α) : List α → List α
  | [] => []
  | y :: l => if y = 0 then x :: l else y :: fill x l

/-- Zeroes the first entry that is x. -/
def punch (x : α) : List α → Option (List α)
  | [] => none
  | y :: l => if y = x then some (0 :: l) else (punch x l).map (y :: ·)

def shiftFrom (x : α) : List α → List α
  | [] => [x]
  | y :: l => if x = 0 ∧ y ≠ 0 then y :: shiftFrom 0 l else x :: shiftFrom y l

/-- One pass from left to right that moves a nonzero entry into the free entry right before it. -/
def shift : List α → List α
  | [] => []
  | x :: l => shiftFrom x l

/-- How many entries are in use. -/
def used (l : List α) : Nat := l.countP (· ≠ 0)

omit [DecidableEq α] in
theorem packed_cons {x : α} {l : List α} :
    Packed (x :: l) ↔ (x = 0 → ∀ y ∈ l, y = 0) ∧ Packed l := by
  rw [Packed, pairwise_cons]
  constructor
  · intro h
    exact ⟨fun hx y hy => h.1 y hy hx, h.2⟩
  · intro h
    exact ⟨fun y hy hx => h.1 hx y hy, h.2⟩

omit [DecidableEq α] in
theorem packed_of_all_zero {l : List α} (h : ∀ y ∈ l, y = 0) : Packed l := by
  induction l with
  | nil => exact List.Pairwise.nil
  | cons x l ih =>
    have hl : ∀ y ∈ l, y = 0 := fun y hy => h y (mem_cons_of_mem x hy)
    exact packed_cons.mpr ⟨fun _ => hl, ih hl⟩

theorem used_of_all_zero {l : List α} (h : ∀ y ∈ l, y = 0) : used l = 0 := by
  rw [used, countP_eq_zero]
  intro y hy
  simp [h y hy]

theorem used_cons (x : α) (l : List α) : used (x :: l) = used l + if x = 0 then 0 else 1 := by
  by_cases hx : x = 0 <;> simp [used, hx]

@[simp]
theorem length_fill (x : α) (l : List α) : (fill x l).length = l.length := by
  induction l with
  | nil => rfl
  | cons y l ih => by_cases hy : y = 0 <;> simp [fill, hy, ih]

theorem fill_of_full {x : α} {l : List α} (h : (0 : α) ∉ l) : fill x l = l := by
  induction l with
  | nil => rfl
  | cons y l ih =>
    simp only [mem_cons, not_or] at h
    simp [fill, Ne.symm h.1, ih h.2]

theorem mem_fill {x : α} {l : List α} (h : (0 : α) ∈ l) : x ∈ fill x l := by
  induction l with
  | nil => simp at h
  | cons y l ih =>
    by_cases hy : y = 0
    · simp [fill, hy]
    · simp only [mem_cons, Ne.symm hy, false_or] at h
      simp [fill, hy, ih h]

theorem mem_fill_of_mem {x y : α} {l : List α} (hy : y ∈ l) (h0 : y ≠ 0) : y ∈ fill x l := by
  induction l with
  | nil => simp at hy
  | cons z l ih =>
    by_cases hz : z = 0
    · have hne : y ≠ z := fun he => h0 (he.trans hz)
      simp only [mem_cons, hne, false_or] at hy
      simp [fill, hz, hy]
    · rcases mem_cons.mp hy with rfl | hy
      · simp [fill, hz]
      · simp [fill, hz, ih hy]

theorem count_fill {x y : α} {l : List α} (hy : y ≠ 0) :
    (fill x l).count y = l.count y + if x = y ∧ 0 ∈ l then 1 else 0 := by
  induction l with
  | nil => simp [fill]
  | cons z l ih =>
    by_cases hz : z = 0
    · subst hz
      by_cases hxy : x = y <;> simp [fill, hxy, Ne.symm hy]
    · simp only [fill, hz, if_false, count_cons, ih, mem_cons, Ne.symm hz, false_or]
      omega

theorem used_fill {x : α} {l : List α} (hx : x ≠ 0) (h : (0 : α) ∈ l) :
    used (fill x l) = used l + 1 := by
  induction l with
  | nil => simp at h
  | cons y l ih =>
    by_cases hy : y = 0
    · simp [fill, used_cons, hy, hx]
    · simp only [mem_cons, Ne.symm hy, false_or] at h
      simp only [fill, used_cons, hy, if_false, ih h]

theorem Packed.fill {x : α} {l : List α} (h : Packed l) (hx : x ≠ 0) : Packed (fill x l) := by
  induction l with
  | nil => exact h
  | cons y l ih =>
    obtain ⟨hzero, hl⟩ := packed_cons.mp h
    by_cases hy : y = 0
    · simp only [Lib.fill, hy, if_true]
      exact packed_cons.mpr ⟨fun he => absurd he hx, hl⟩
    · simp only [Lib.fill, hy, if_false]
      exact packed_cons.mpr ⟨fun he => absurd he hy, ih hl⟩

theorem punch_eq_none {x : α} {l : List α} : punch x l = none ↔ x ∉ l := by
  induction l with
  | nil => simp [punch]
  | cons y l ih =>
    by_cases hy : y = x
    · simp [punch, hy]
    · simp [punch, hy, Ne.symm hy, ih]

theorem length_punch {x : α} {l m : List α} (h : punch x l = some m) : m.length = l.length := by
  induction l generalizing m with
  | nil => cases h
  | cons y l ih =>
    by_cases hy : y = x
    · simp only [punch, hy, if_true, Option.some.injEq] at h
      simp [← h]
    · simp only [punch, hy, if_false, Option.map_eq_some_iff] at h
      obtain ⟨n, hn, rfl⟩ := h
      simp [ih hn]

theorem length_shiftFrom (x : α) (l : List α) : (shiftFrom x l).length = l.length + 1 := by
  induction l generalizing x with
  | nil => rfl
  | cons y l ih =>
    rw [shiftFrom]
    split <;> simp [ih]

theorem length_shift (l : List α) : (shift l).length = l.length := by
  cases l with
  | nil => rfl
  | cons x l => exact length_shiftFrom x l

theorem mem_of_punch {x : α} {l m : List α} (h : punch x l = some m) : x ∈ l := by
  by_contra hx
  rw [punch_eq_none.mpr hx] at h
  cases h

/-- A hole at the front travels to the end. -/
theorem shiftFrom_zero (l : List α) : shiftFrom 0 l = l ++ [0] := by
  induction l with
  | nil => rfl
  | cons y l ih =>
    by_cases hy : y = 0
    · subst hy
      simp [shiftFrom, ih]
    · simp [shiftFrom, hy, ih]

theorem shiftFrom_of_ne {x : α} (hx : x ≠ 0) (l : List α) : shiftFrom x l = x :: shift l := by
  cases l with
  | nil => rfl
  | cons y l => simp [shiftFrom, shift, hx]

/-- In a packed array the hole left by one entry is the only one before a nonzero entry, so one
pass closes it: the entry is gone and the others keep their order. -/
theorem shift_punch {x : α} {l m : List α} (h : Packed l) (hm : punch x l = some m) :
    shift m = l.erase x ++ [0] := by
  induction l generalizing m with
  | nil => cases hm
  | cons y l ih =>
    by_cases hyx : y = x
    · subst hyx
      simp only [punch, if_true, Option.some.injEq] at hm
      subst hm
      rw [erase_cons_head]
      exact shiftFrom_zero l
    simp only [punch, hyx, if_false, Option.map_eq_some_iff] at hm
    obtain ⟨n, hn, rfl⟩ := hm
    obtain ⟨hzero, hl⟩ := packed_cons.mp h
    have hy : y ≠ 0 := by
      intro hy
      exact hyx (hy.trans (hzero hy x (mem_of_punch hn)).symm)
    rw [erase_cons_tail (by simpa using hyx), cons_append, ← ih hl hn]
    exact shiftFrom_of_ne hy n

theorem Packed.erase {l : List α} (h : Packed l) (x : α) : Packed (l.erase x ++ [0]) := by
  rw [Packed, pairwise_append]
  refine ⟨h.sublist erase_sublist, pairwise_singleton _ _, ?_⟩
  intro y _ z hz _
  exact mem_singleton.mp hz

theorem used_erase {x : α} {l : List α} (h : x ∈ l) (hx : x ≠ 0) :
    used (l.erase x ++ [0]) + 1 = used l := by
  have hp := (perm_cons_erase h).countP_eq (fun y => decide (y ≠ 0))
  simp only [used, countP_append, countP_cons, countP_nil, hp]
  simp [hx]

theorem used_le_length (l : List α) : used l ≤ l.length := countP_le_length

end Xv6.Lib
