import Mathlib.Data.List.Basic

namespace Xv6.Lib

/-- A program over a state that may stop with an error. -/
abbrev Prog (σ ε α : Type) := StateT σ (Except ε) α

/-- From state s the program returns, and what it returns and the state it leaves satisfy Q. -/
def Ends (x : Prog σ ε α) (s : σ) (Q : α → σ → Prop) : Prop :=
  ∃ a t, x.run s = .ok (a, t) ∧ Q a t

theorem Ends.mono {x : Prog σ ε α} {Q Q' : α → σ → Prop} (h : Ends x s Q)
    (hq : ∀ a t, Q a t → Q' a t) : Ends x s Q' := by
  obtain ⟨a, t, hr, ha⟩ := h
  exact ⟨a, t, hr, hq a t ha⟩

theorem Ends.and {x : Prog σ ε α} {Q Q' : α → σ → Prop} (h : Ends x s Q) (h' : Ends x s Q') :
    Ends x s (fun a t => Q a t ∧ Q' a t) := by
  obtain ⟨a, t, hr, ha⟩ := h
  obtain ⟨b, u, hr', hb⟩ := h'
  rw [hr] at hr'
  cases hr'
  exact ⟨a, t, hr, ha, hb⟩

theorem Ends.eqn {x : Prog σ ε α} {Q : α → σ → Prop} (h : Ends x s Q) :
    Ends x s (fun a t => x.run s = .ok (a, t) ∧ Q a t) := by
  obtain ⟨a, t, hr, hq⟩ := h
  exact ⟨a, t, hr, hr, hq⟩

@[simp]
theorem ends_pure {Q : α → σ → Prop} : Ends (pure a : Prog σ ε α) s Q ↔ Q a s := by
  constructor
  · intro h
    obtain ⟨b, t, hr, hq⟩ := h
    cases hr
    exact hq
  · intro h
    exact ⟨a, s, rfl, h⟩

@[simp]
theorem ends_bind {x : Prog σ ε α} {f : α → Prog σ ε β} {Q : β → σ → Prop} :
    Ends (x >>= f) s Q ↔ Ends x s (fun a t => Ends (f a) t Q) := by
  constructor
  · intro h
    obtain ⟨b, u, hr, hq⟩ := h
    rw [StateT.run_bind] at hr
    cases hx : x.run s with
    | error e =>
      rw [hx] at hr
      cases hr
    | ok p =>
      obtain ⟨a, t⟩ := p
      rw [hx] at hr
      exact ⟨a, t, hx, b, u, hr, hq⟩
  · intro h
    obtain ⟨a, t, hx, b, u, hf, hq⟩ := h
    refine ⟨b, u, ?_, hq⟩
    rw [StateT.run_bind, hx]
    exact hf

theorem Ends.bind {x : Prog σ ε α} {f : α → Prog σ ε β} {Q : α → σ → Prop} {Q' : β → σ → Prop}
    (h : Ends x s Q) (hf : ∀ a t, Q a t → Ends (f a) t Q') : Ends (x >>= f) s Q' :=
  ends_bind.mpr (h.mono hf)

@[simp]
theorem ends_ite {x y : Prog σ ε α} {Q : α → σ → Prop} [Decidable c] :
    Ends (if c then x else y) s Q ↔ if c then Ends x s Q else Ends y s Q := by
  by_cases h : c <;> simp [h]

theorem Ends.ite {x y : Prog σ ε α} {Q : α → σ → Prop} [Decidable c] (hx : c → Ends x s Q)
    (hy : ¬ c → Ends y s Q) : Ends (if c then x else y) s Q := by
  split
  · exact hx (by assumption)
  · exact hy (by assumption)

/-- The program returns as in Ends, or it stops with an error and then E holds. -/
def EndsOr (x : Prog σ ε α) (s : σ) (E : Prop) (Q : α → σ → Prop) : Prop :=
  Ends x s Q ∨ E ∧ ∃ e, x.run s = .error e

theorem EndsOr.ends {x : Prog σ ε α} {Q : α → σ → Prop} (h : EndsOr x s E Q) (he : ¬ E) :
    Ends x s Q := by
  rcases h with h | h
  · exact h
  · exact absurd h.1 he

/-- Whenever the program returns, it returns as it should. -/
theorem EndsOr.returns {x : Prog σ ε α} {Q : α → σ → Prop} (h : EndsOr x s E Q)
    (hr : x.run s = .ok (a, t)) : Q a t := by
  rcases h with ⟨b, u, hx, hq⟩ | ⟨-, e, hx⟩
  · rw [hr] at hx
    cases hx
    exact hq
  · rw [hr] at hx
    cases hx

theorem EndsOr.mono {x : Prog σ ε α} {Q Q' : α → σ → Prop} (h : EndsOr x s E Q) (he : E → E')
    (hq : ∀ a t, Q a t → Q' a t) : EndsOr x s E' Q' := by
  rcases h with h | h
  · exact .inl (h.mono hq)
  · exact .inr ⟨he h.1, h.2⟩

theorem EndsOr.bind {x : Prog σ ε α} {f : α → Prog σ ε β} {Q : α → σ → Prop}
    {Q' : β → σ → Prop} (h : Ends x s Q) (hf : ∀ a t, Q a t → EndsOr (f a) t E Q') :
    EndsOr (x >>= f) s E Q' := by
  obtain ⟨a, t, hx, ha⟩ := h
  rcases hf a t ha with hq | ⟨he, e, hr⟩
  · exact .inl (ends_bind.mpr ⟨a, t, hx, hq⟩)
  · refine .inr ⟨he, e, ?_⟩
    rw [StateT.run_bind, hx]
    exact hr

theorem ok_of_any {x : Except ε α} {p : α → Bool} (h : x.toOption.any p = true) :
    ∃ a, x = .ok a ∧ p a = true := by
  cases x with
  | error e => cases h
  | ok a => exact ⟨a, rfl, h⟩

/-- A loop over a list keeps what its body carries from each element to the rest. -/
theorem Ends.forM {f : α → Prog σ ε PUnit} (I : List α → σ → Prop)
    (hstep : ∀ a as s, I (a :: as) s → Ends (f a) s (fun _ t => I as t))
    (h : I as s) : Ends (as.forM f) s (fun _ t => I [] t) := by
  induction as generalizing s with
  | nil => exact ends_pure.mpr h
  | cons a as ih =>
    exact (hstep a as s h).bind (fun _ t ht => ih ht)

end Xv6.Lib
