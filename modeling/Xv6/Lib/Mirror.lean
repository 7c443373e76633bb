import Xv6.Lib.Outcome

namespace Xv6.Lib

/-- Seen through π, the program x does what y does. -/
def Mirrors (π : σ → τ) (x : Prog σ ε α) (y : Prog τ ε α) : Prop :=
  ∀ s, y.run (π s) = (x.run s).map (fun r => (r.1, π r.2))

section
variable {π : σ → τ} {x : Prog σ ε α} {y : Prog τ ε α}

theorem Mirrors.ends {Q : α → τ → Prop} (h : Mirrors π x y) (he : Ends y (π s) Q) :
    Ends x s (fun a t => Q a (π t)) := by
  obtain ⟨a, u, hr, hq⟩ := he
  rw [h s] at hr
  cases hx : x.run s with
  | error e =>
    rw [hx] at hr
    cases hr
  | ok r =>
    rw [hx] at hr
    cases hr
    exact ⟨r.1, r.2, hx, hq⟩

theorem mirrors_pure (a : α) : Mirrors π (pure a : Prog σ ε α) (pure a) := fun _ => rfl

theorem mirrors_throw (e : ε) : Mirrors π (throw e : Prog σ ε α) (throw e) := fun _ => rfl

theorem Mirrors.bind {f : α → Prog σ ε β} {g : α → Prog τ ε β} (hx : Mirrors π x y)
    (hf : ∀ a, Mirrors π (f a) (g a)) : Mirrors π (x >>= f) (y >>= g) := by
  intro s
  rw [StateT.run_bind, StateT.run_bind, hx s]
  cases x.run s with
  | error e => rfl
  | ok r => exact hf r.1 r.2

theorem Mirrors.ite [Decidable c] {x' : Prog σ ε α} {y' : Prog τ ε α} (h : Mirrors π x y)
    (h' : Mirrors π x' y') : Mirrors π (if c then x else x') (if c then y else y') := by
  split
  · exact h
  · exact h'

theorem Mirrors.skip {f : σ → σ} (hf : ∀ s, π (f s) = π s) (h : Mirrors π x y) :
    Mirrors π (do modify f; x) y := by
  intro s
  have hs := h (f s)
  rw [hf] at hs
  exact hs

theorem mirrors_zoom {put : σ → τ → σ} (hput : ∀ s t, π (put s t) = t) (y : Prog τ ε α) :
    Mirrors π (zoom π put y) y := by
  intro s
  change y (π s) = Except.map _ (zoom π put y s)
  unfold zoom
  simp only [StateT.run]
  cases y (π s) with
  | error e => rfl
  | ok r =>
    obtain ⟨a, t⟩ := r
    change _ = Except.ok (a, π (put s t))
    rw [hput]

end

end Xv6.Lib
