import Mathlib.Logic.Function.Basic

namespace Xv6.Lib

open Function

/-- No two holders have the same thing. -/
def Exclusive (f : ι → Option κ) : Prop :=
  ∀ c d x, f c = some x → f d = some x → c = d

/-- The marked things are those that somebody holds, and nobody shares one. -/
structure Marks (f : ι → Option κ) (m : κ → Prop) : Prop where
  marked : ∀ x, m x ↔ ∃ c, f c = some x
  exclusive : Exclusive f

/-- Each thing knows its holder. -/
def Owners (own : κ → Option ι) (f : ι → Option κ) : Prop :=
  ∀ c x, own x = some c ↔ f c = some x

theorem Exclusive.drop [DecidableEq ι] (h : Exclusive f) (c : ι) :
    Exclusive (update f c none) := by
  intro d e x hd he
  rcases eq_or_ne d c with rfl | hdc
  · simp at hd
  · rcases eq_or_ne e c with rfl | hec
    · simp at he
    · rw [update_of_ne hdc] at hd
      rw [update_of_ne hec] at he
      exact h d e x hd he

theorem Exclusive.take [DecidableEq ι] {f : ι → Option κ} (h : Exclusive f)
    (hx : ∀ d, f d ≠ some x) (c : ι) : Exclusive (update f c (some x)) := by
  intro d e y hd he
  rcases eq_or_ne d c with rfl | hdc
  · rcases eq_or_ne e d with rfl | hed
    · rfl
    · rw [update_self] at hd
      rw [update_of_ne hed, ← hd] at he
      exact absurd he (hx e)
  · rw [update_of_ne hdc] at hd
    rcases eq_or_ne e c with rfl | hec
    · rw [update_self] at he
      rw [← he] at hd
      exact absurd hd (hx d)
    · rw [update_of_ne hec] at he
      exact h d e y hd he

theorem Marks.take [DecidableEq ι] (h : Marks f m) {c : ι} (hc : f c = none) (hx : ¬ m x)
    (hm : ∀ y, n y ↔ m y ∨ y = x) : Marks (update f c (some x)) n := by
  refine ⟨fun y => ?_, h.exclusive.take (fun d hd => hx ((h.marked x).mpr ⟨d, hd⟩)) c⟩
  rw [hm, h.marked]
  constructor
  · intro hy
    rcases hy with ⟨d, hd⟩ | rfl
    · refine ⟨d, ?_⟩
      rw [update_of_ne (fun he => by simp [he, hc] at hd)]
      exact hd
    · exact ⟨c, update_self ..⟩
  · intro hy
    obtain ⟨d, hd⟩ := hy
    rcases eq_or_ne d c with rfl | hdc
    · rw [update_self, Option.some.injEq] at hd
      exact Or.inr hd.symm
    · rw [update_of_ne hdc] at hd
      exact Or.inl ⟨d, hd⟩

theorem Marks.drop [DecidableEq ι] (h : Marks f m) {c : ι} (hc : f c = some x)
    (hm : ∀ y, n y ↔ m y ∧ y ≠ x) : Marks (update f c none) n := by
  refine ⟨fun y => ?_, h.exclusive.drop c⟩
  rw [hm, h.marked]
  constructor
  · intro hy
    obtain ⟨⟨d, hd⟩, hyx⟩ := hy
    refine ⟨d, ?_⟩
    rw [update_of_ne (fun he => hyx (by simpa [he, hc] using hd.symm))]
    exact hd
  · intro hy
    obtain ⟨d, hd⟩ := hy
    rcases eq_or_ne d c with rfl | hdc
    · simp at hd
    · rw [update_of_ne hdc] at hd
      exact ⟨⟨d, hd⟩, fun he => hdc (h.exclusive d c x (he ▸ hd) hc)⟩

theorem Marks.congr (h : Marks f m) (hm : ∀ y, n y ↔ m y) : Marks f n :=
  ⟨fun y => (hm y).trans (h.marked y), h.exclusive⟩

theorem Owners.exclusive (h : Owners own f) : Exclusive f := by
  intro c d x hc hd
  have hown := (h c x).mpr hc
  rw [(h d x).mpr hd, Option.some.injEq] at hown
  exact hown.symm

theorem Owners.take [DecidableEq ι] [DecidableEq κ] {own : κ → Option ι} (h : Owners own f)
    (hx : own x = none) (hc : f c = none) :
    Owners (update own x (some c)) (update f c (some x)) := by
  intro d y
  rcases eq_or_ne y x with rfl | hyx
  · rcases eq_or_ne d c with rfl | hdc
    · simp
    · rw [update_self, update_of_ne hdc, ← h d y, hx]
      simp [Ne.symm hdc]
  · rcases eq_or_ne d c with rfl | hdc
    · rw [update_of_ne hyx, update_self, h d y, hc]
      simp [Ne.symm hyx]
    · rw [update_of_ne hyx, update_of_ne hdc, h d y]

theorem Owners.drop [DecidableEq ι] [DecidableEq κ] {own : κ → Option ι} (h : Owners own f)
    (hc : f c = some x) : Owners (update own x none) (update f c none) := by
  intro d y
  rcases eq_or_ne y x with rfl | hyx
  · rcases eq_or_ne d c with rfl | hdc
    · simp
    · rw [update_self, update_of_ne hdc]
      constructor
      · intro hn
        cases hn
      · intro hd
        exact absurd (h.exclusive d c y hd hc) hdc
  · rcases eq_or_ne d c with rfl | hdc
    · rw [update_of_ne hyx, update_self, h d y, hc]
      simp [Ne.symm hyx]
    · rw [update_of_ne hyx, update_of_ne hdc, h d y]

end Xv6.Lib
