import Mathlib.Data.Finset.Card
import Mathlib.Data.Finset.Range

namespace Xv6.Lib

open Finset

/-- How many of the numbers below n satisfy P. -/
def tally (n : Nat) (P : Nat → Prop) [DecidablePred P] : Nat :=
  ((Finset.range n).filter P).card

section
variable {n : Nat} {P Q : Nat → Prop} [DecidablePred P] [DecidablePred Q]

theorem tally_mono (h : ∀ r, P r → Q r) : tally n P ≤ tally n Q :=
  card_le_card (monotone_filter_right _ (fun r _ => h r))

theorem tally_le (n : Nat) (P : Nat → Prop) [DecidablePred P] : tally n P ≤ n := by
  have h := card_filter_le (Finset.range n) P
  rwa [card_range] at h

theorem tally_le_succ (h : ∀ r, r ≠ a → P r → Q r) : tally n P ≤ tally n Q + 1 := by
  have hsub : (Finset.range n).filter P ⊆ insert a ((Finset.range n).filter Q) := by
    intro r hr
    rw [mem_filter] at hr
    rcases eq_or_ne r a with rfl | hra
    · exact mem_insert_self _ _
    · exact mem_insert_of_mem (mem_filter.mpr ⟨hr.1, h r hra hr.2⟩)
  exact (card_le_card hsub).trans (card_insert_le _ _)

theorem tally_enter (ha : a < n) (hp : ¬ P a) (hq : Q a) (h : ∀ r, r ≠ a → (P r ↔ Q r)) :
    tally n Q = tally n P + 1 := by
  have hins : (Finset.range n).filter Q = insert a ((Finset.range n).filter P) := by
    ext r
    rcases eq_or_ne r a with rfl | hra
    · simp [ha, hq]
    · simp [hra, h r hra]
  have hnot : a ∉ (Finset.range n).filter P := by simp [hp]
  rw [tally, hins, card_insert_of_notMem hnot]
  rfl

theorem tally_split (n : Nat) (P Q : Nat → Prop) [DecidablePred P] [DecidablePred Q] :
    tally n P = tally n (fun r => P r ∧ Q r) + tally n (fun r => P r ∧ ¬ Q r) := by
  have h := card_filter_add_card_filter_not (s := (Finset.range n).filter P) Q
  rw [filter_filter, filter_filter] at h
  exact h.symm

theorem length_le_of_nodup {l : List Nat} (hl : l.Nodup) (hn : ∀ r ∈ l, r < n) : l.length ≤ n := by
  have hsub : l.toFinset ⊆ Finset.range n := by
    intro r hr
    exact mem_range.mpr (hn r (List.mem_toFinset.mp hr))
  have hle := card_le_card hsub
  rwa [List.toFinset_card_of_nodup hl, card_range] at hle

/-- A list of the numbers that satisfy the predicate counts them. -/
theorem tally_eq_length {l : List Nat} (hl : l.Nodup) (hn : ∀ r ∈ l, r < n)
    (h : ∀ r, r ∈ l ↔ P r) : tally n P = l.length := by
  have he : (Finset.range n).filter P = l.toFinset := by
    ext r
    rw [mem_filter, mem_range, List.mem_toFinset, ← h r]
    constructor
    · exact fun hr => hr.2
    · exact fun hr => ⟨hn r hr, hr⟩
  rw [tally, he, List.toFinset_card_of_nodup hl]

end

end Xv6.Lib
