import Xv6.Lib.Prog

namespace Xv6.Lib

/-- Whenever the program returns with a good result, R leads from the first state to the last. -/
def Succeeds (R : σ → σ → Prop) (x : Prog σ ε α) (good : α → Prop) : Prop :=
  ∀ s a t, x.run s = .ok (a, t) → good a → R s t

/-- The program never returns with a good result. -/
def Fails (x : Prog σ ε α) (good : α → Prop) : Prop := ∀ s a t, x.run s = .ok (a, t) → ¬ good a

theorem run_bind_ok {x : Prog σ ε α} {f : α → Prog σ ε β}
    (h : (x >>= f).run s = .ok (b, t)) :
    ∃ a u, x.run s = .ok (a, u) ∧ (f a).run u = .ok (b, t) := by
  rw [StateT.run_bind] at h
  cases hx : x.run s with
  | error e =>
    rw [hx] at h
    cases h
  | ok r =>
    rw [hx] at h
    exact ⟨r.1, r.2, rfl, h⟩

theorem fails_pure {good : α → Prop} (h : ¬ good a) : Fails (pure a : Prog σ ε α) good := by
  intro s b t hr
  cases hr
  exact h

theorem fails_bind {x : Prog σ ε α} {f : α → Prog σ ε β} {good : β → Prop}
    (h : ∀ a, Fails (f a) good) : Fails (x >>= f) good := by
  intro s b t hr
  obtain ⟨a, u, -, hf⟩ := run_bind_ok hr
  exact h a u b t hf

section
variable {R : σ → σ → Prop}

theorem Fails.succeeds {x : Prog σ ε α} {good : α → Prop} (h : Fails x good) :
    Succeeds R x good :=
  fun s a t hr hg => absurd hg (h s a t hr)

theorem succeeds_pure [Std.Refl R] {good : α → Prop} : Succeeds R (pure a : Prog σ ε α) good := by
  intro s b t hr _
  cases hr
  exact Std.Refl.refl s

/-- After a result that is not good the rest of the program has to fail. -/
theorem succeeds_bind [IsTrans σ R] {x : Prog σ ε α} {f : α → Prog σ ε β} {good : α → Prop}
    {good' : β → Prop} (hx : Succeeds R x good) (hf : ∀ a, good a → Succeeds R (f a) good')
    (hbad : ∀ a, ¬ good a → Fails (f a) good') : Succeeds R (x >>= f) good' := by
  intro s b t hr hb
  obtain ⟨a, u, hxr, hfr⟩ := run_bind_ok hr
  have ha : good a := by
    by_contra hna
    exact hbad a hna u b t hfr hb
  exact IsTrans.trans s u t (hx s a u hxr ha) (hf a ha u b t hfr hb)

theorem succeeds_ite {x y : Prog σ ε α} {good : α → Prop} [Decidable c]
    (hx : c → Succeeds R x good) (hy : ¬ c → Succeeds R y good) :
    Succeeds R (if c then x else y) good := by
  split
  · exact hx (by assumption)
  · exact hy (by assumption)

end

end Xv6.Lib
