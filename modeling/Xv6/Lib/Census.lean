import Mathlib.Data.Finset.Card
import Mathlib.Logic.Function.Basic

namespace Xv6.Lib

open Function

/-- Exactly n of the (possibly infinitely many) threads satisfy P. -/
def Census (P : β → Prop) (f : ι → β) (n : Nat) : Prop :=
  ∃ F : Finset ι, (∀ p, p ∈ F ↔ P (f p)) ∧ F.card = n

theorem census_none {P : β → Prop} {f : ι → β} (h : ∀ p, ¬ P (f p)) : Census P f 0 :=
  ⟨∅, by simp [h], rfl⟩

theorem Census.zero {P : β → Prop} {f : ι → β} (h : Census P f 0) (p : ι) : ¬ P (f p) := by
  obtain ⟨F, hF, hc⟩ := h
  rw [← hF p, Finset.card_eq_zero.mp hc]
  simp

theorem Census.pos {P : β → Prop} {f : ι → β} (h : Census P f n) (hp : P (f p)) : 0 < n := by
  rcases Nat.eq_zero_or_pos n with rfl | hn
  · exact absurd hp (h.zero p)
  · exact hn

theorem Census.unique {P : β → Prop} {f : ι → β} (h : Census P f n) (h' : Census P f m) :
    n = m := by
  obtain ⟨F, hF, rfl⟩ := h
  obtain ⟨G, hG, rfl⟩ := h'
  have he : F = G := by
    ext p
    rw [hF, hG]
  rw [he]

theorem Census.congr {P : β → Prop} {Q : γ → Prop} {f : ι → β} {g : ι → γ} (h : Census P f n)
    (he : ∀ p, Q (g p) ↔ P (f p)) : Census Q g n := by
  obtain ⟨F, hF, hc⟩ := h
  exact ⟨F, fun p => (hF p).trans (he p).symm, hc⟩

/-- A thread that starts to satisfy the predicate adds one to the count. -/
theorem Census.enter [DecidableEq ι] {P : β → Prop} {f : ι → β} (h : Census P f n)
    (hp : ¬ P (f p)) (hc : P c) : Census P (update f p c) (n + 1) := by
  obtain ⟨F, hF, rfl⟩ := h
  refine ⟨insert p F, ?_, Finset.card_insert_of_notMem (fun hm => hp ((hF p).mp hm))⟩
  intro q
  by_cases hq : q = p
  · subst q
    simpa using hc
  · simp [hq, hF]

theorem Census.leave [DecidableEq ι] {P : β → Prop} {f : ι → β} (h : Census P f n)
    (hp : P (f p)) (hc : ¬ P c) : 0 < n ∧ Census P (update f p c) (n - 1) := by
  obtain ⟨F, hF, rfl⟩ := h
  have hm : p ∈ F := (hF p).mpr hp
  refine ⟨Finset.card_pos.mpr ⟨p, hm⟩, F.erase p, ?_, Finset.card_erase_of_mem hm⟩
  intro q
  by_cases hq : q = p
  · subst q
    simpa using hc
  · simp [hq, hF]

theorem Census.keep [DecidableEq ι] {P : β → Prop} {f : ι → β} (h : Census P f n)
    (hp : P c ↔ P (f p)) : Census P (update f p c) n := by
  apply h.congr
  intro q
  by_cases hq : q = p
  · subst q
    simpa using hp
  · simp [hq]

theorem census_point [DecidableEq ι] [DecidableEq β] {f : ι → Option β} {n : β → Nat}
    (h : ∀ b, Census (· = some b) f (n b)) (hp : f p = none) (b c : β) :
    Census (· = some c) (update f p (some b)) (update n b (n b + 1) c) := by
  by_cases hc : c = b
  · subst c
    rw [update_self]
    exact (h b).enter (by simp [hp]) rfl
  · rw [update_of_ne hc]
    exact (h c).keep (by simp [hp, Ne.symm hc])

theorem census_unpoint [DecidableEq ι] [DecidableEq β] {f : ι → Option β} {n : β → Nat}
    (h : ∀ b, Census (· = some b) f (n b)) (hp : f p = some b) (c : β) :
    Census (· = some c) (update f p none) (update n b (n b - 1) c) := by
  by_cases hc : c = b
  · subst c
    rw [update_self]
    exact ((h b).leave hp (by simp)).2
  · rw [update_of_ne hc]
    exact (h c).keep (by simp [hp, Ne.symm hc])

end Xv6.Lib
