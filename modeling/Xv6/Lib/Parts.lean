import Mathlib.Algebra.BigOperators.Group.Finset.Basic
import Mathlib.Data.Fintype.Basic
import Mathlib.Data.Multiset.Fintype

namespace Xv6.Lib

open Finset

variable {ι α : Type} [Fintype ι]

/-- What all parts have together. -/
def total (F : ι → Multiset α) : Multiset α := ∑ i, F i

theorem total_zero {F : ι → Multiset α} (h : ∀ i, F i = 0) : total F = 0 :=
  sum_eq_zero (fun i _ => h i)

theorem mem_total {F : ι → Multiset α} : x ∈ total F ↔ ∃ i, x ∈ F i := by
  rw [total, Multiset.mem_sum]
  simp

variable [DecidableEq ι] {F G : ι → Multiset α} {i j : ι}

theorem total_list (F : ι → Multiset α) {l : List ι} (hn : l.Nodup) (hl : ∀ i, i ∈ l) :
    total F = (l.map F).sum := by
  have huniv : Finset.univ = l.toFinset :=
    (eq_univ_of_forall (fun i => List.mem_toFinset.mpr (hl i))).symm
  rw [total, huniv, List.sum_toFinset F hn]

/-- What all parts but one have. -/
def rest (F : ι → Multiset α) (i : ι) : Multiset α := ∑ j ∈ Finset.univ.erase i, F j

theorem total_eq (F : ι → Multiset α) (i : ι) : total F = F i + rest F i :=
  (add_sum_erase Finset.univ F (mem_univ i)).symm

theorem rest_congr (h : ∀ j, j ≠ i → F j = G j) : rest F i = rest G i :=
  sum_congr rfl (fun j hj => h j (ne_of_mem_erase hj))

theorem rest_zero (h : ∀ j, j ≠ i → F j = 0) : rest F i = 0 :=
  sum_eq_zero (fun j hj => h j (ne_of_mem_erase hj))

theorem mem_rest (hj : j ≠ i) (hx : x ∈ F j) : x ∈ rest F i := by
  rw [rest, Multiset.mem_sum]
  exact ⟨j, mem_erase.mpr ⟨hj, mem_univ j⟩, hx⟩

/-- Without repetition every element is in one part. -/
theorem part_unique (h : (total F).Nodup) (hi : x ∈ F i) (hj : x ∈ F j) : j = i := by
  by_contra hne
  rw [total_eq F i, Multiset.nodup_add] at h
  exact Multiset.disjoint_left.mp h.2.2 hi (mem_rest hne hj)

omit [DecidableEq ι] in
theorem part_nodup (h : (total F).Nodup) (i : ι) : (F i).Nodup := by
  classical
  rw [total_eq F i, Multiset.nodup_add] at h
  exact h.1

-- Sums over a concrete index type must not be computed by unification.
attribute [irreducible] total rest

end Xv6.Lib
