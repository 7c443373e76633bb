import Mathlib.Algebra.Order.Ring.Int
import Xv6.Lib.Census

namespace Xv6.Lib

open Function

/-- The account of b covers the pointers to it, and is their exact number where D holds. -/
def Covered (D : β → Prop) (f : ι → Option β) (x : β → Int) : Prop :=
  ∀ b, ∃ n : Nat, Census (· = some b) f n ∧ (n : Int) ≤ x b ∧ (D b → x b = n)

section
variable {D D' : β → Prop} {f g : ι → Option β} {x : β → Int}

theorem Covered.pos (h : Covered D f x) (hp : f p = some b) : 1 ≤ x b := by
  obtain ⟨n, hn, hle, -⟩ := h b
  have hpos := hn.pos hp
  omega

theorem Covered.nonneg (h : Covered D f x) (b : β) : 0 ≤ x b := by
  obtain ⟨n, -, hle, -⟩ := h b
  omega

/-- An account that is not empty belongs to somebody who is pointed to. -/
theorem Covered.pointed (h : Covered D f x) (hb : D b) (hx : 1 ≤ x b) : ∃ p, f p = some b := by
  obtain ⟨n, ⟨F, hF, hc⟩, -, heq⟩ := h b
  have hpos : 0 < F.card := by
    have := heq hb
    omega
  obtain ⟨p, hp⟩ := Finset.card_pos.mp hpos
  exact ⟨p, (hF p).mp hp⟩

/-- An empty account is exact. -/
theorem Covered.mono (h : Covered D f x) (hD : ∀ b, D' b → D b ∨ x b = 0) : Covered D' f x := by
  intro b
  obtain ⟨n, hn, hle, heq⟩ := h b
  refine ⟨n, hn, hle, ?_⟩
  intro hb
  rcases hD b hb with hb | hb
  · exact heq hb
  · omega

theorem Covered.point [DecidableEq ι] [DecidableEq β] (h : Covered D f x) (hp : f p = none)
    (b : β) : Covered D (update f p (some b)) (update x b (x b + 1)) := by
  intro c
  obtain ⟨n, hn, hle, heq⟩ := h c
  by_cases hc : c = b
  · subst hc
    rw [update_self]
    refine ⟨n + 1, hn.enter (by simp [hp]) rfl, by omega, ?_⟩
    intro hd
    have := heq hd
    omega
  · rw [update_of_ne hc]
    exact ⟨n, hn.keep (by simp [hp, Ne.symm hc]), hle, heq⟩

theorem Covered.unpoint [DecidableEq ι] [DecidableEq β] (h : Covered D f x) (hp : f p = some b) :
    Covered D (update f p none) (update x b (x b - 1)) := by
  intro c
  obtain ⟨n, hn, hle, heq⟩ := h c
  by_cases hc : c = b
  · subst hc
    rw [update_self]
    obtain ⟨hpos, hn'⟩ := hn.leave (c := none) hp (by simp)
    refine ⟨n - 1, hn', by omega, ?_⟩
    intro hd
    have := heq hd
    omega
  · rw [update_of_ne hc]
    exact ⟨n, hn.keep (by simp [hp, Ne.symm hc]), hle, heq⟩

/-- Pointers may go without notice, except those to somebody with an exact account. -/
theorem Covered.shrink (h : Covered D f x) (hg : ∀ p b, g p = some b → f p = some b)
    (hkeep : ∀ p b, D b → f p = some b → g p = some b) : Covered D g x := by
  classical
  intro b
  obtain ⟨n, ⟨F, hF, hc⟩, hle, heq⟩ := h b
  have hG : ∀ p, p ∈ F.filter (fun p => g p = some b) ↔ g p = some b := by
    intro p
    rw [Finset.mem_filter, hF]
    exact ⟨fun hp => hp.2, fun hp => ⟨hg p b hp, hp⟩⟩
  have hcard : (F.filter (fun p => g p = some b)).card ≤ n := hc ▸ Finset.card_filter_le _ _
  refine ⟨_, ⟨_, hG, rfl⟩, by omega, ?_⟩
  intro hb
  have hall : F.filter (fun p => g p = some b) = F :=
    Finset.filter_true_of_mem fun p hp => hkeep p b hb ((hF p).mp hp)
  rw [hall, hc]
  exact heq hb

end

end Xv6.Lib
