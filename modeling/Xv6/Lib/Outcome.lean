import Xv6.Lib.Prog

namespace Xv6.Lib

/-- From state s the program returns with Q, or it stops with an error that E allows. -/
def Outcome (x : Prog σ ε α) (s : σ) (E : ε → Prop) (Q : α → σ → Prop) : Prop :=
  match x.run s with
  | .ok r => Q r.1 r.2
  | .error e => E e

/-- A program on a part of the state. -/
def zoom (part : σ → τ) (put : σ → τ → σ) (x : Prog τ ε α) : Prog σ ε α := fun s =>
  match x.run (part s) with
  | .ok r => .ok (r.1, put s r.2)
  | .error e => .error e

/-- A program on a part of the state, with its errors among those of the whole. -/
def within (part : σ → τ) (put : σ → τ → σ) (err : ε → ε') (x : Prog τ ε α) : Prog σ ε' α :=
  fun s =>
    match x.run (part s) with
    | .ok r => .ok (r.1, put s r.2)
    | .error e => .error (err e)

section
variable {E E' : ε → Prop} {Q Q' : α → σ → Prop}

theorem Ends.within {x : Prog τ ε α} {err : ε → ε'}
    (h : Ends x (part s) (fun a t => Q a (put s t))) : Ends (within part put err x) s Q := by
  obtain ⟨a, t, hr, hq⟩ := h
  refine ⟨a, put s t, ?_, hq⟩
  simp only [Lib.within, StateT.run] at hr ⊢
  rw [hr]

theorem Ends.zoom {x : Prog τ ε α} (h : Ends x (part s) (fun a t => Q a (put s t))) :
    Ends (zoom part put x) s Q := by
  obtain ⟨a, t, hr, hq⟩ := h
  refine ⟨a, put s t, ?_, hq⟩
  simp only [Lib.zoom, StateT.run] at hr ⊢
  rw [hr]

theorem Outcome.mono {x : Prog σ ε α} (h : Outcome x s E Q) (he : ∀ e, E e → E' e)
    (hq : ∀ a t, Q a t → Q' a t) : Outcome x s E' Q' := by
  unfold Outcome at *
  cases hx : x.run s with
  | ok r =>
    rw [hx] at h
    exact hq _ _ h
  | error e =>
    rw [hx] at h
    exact he e h

theorem Outcome.imp {x : Prog σ ε α} (h : Outcome x s E Q) (hq : ∀ a t, Q a t → Q' a t) :
    Outcome x s E Q' := h.mono (fun _ he => he) hq

theorem Outcome.and {x : Prog σ ε α} (h : Outcome x s E Q) (h' : Outcome x s E' Q') :
    Outcome x s E (fun a t => Q a t ∧ Q' a t) := by
  unfold Outcome at *
  cases hx : x.run s with
  | ok r =>
    rw [hx] at h h'
    exact ⟨h, h'⟩
  | error e =>
    rw [hx] at h
    exact h

theorem Outcome.returns {x : Prog σ ε α} (h : Outcome x s E Q) (hr : x.run s = .ok (a, t)) :
    Q a t := by
  rw [Outcome, hr] at h
  exact h

theorem Outcome.stops {x : Prog σ ε α} (h : Outcome x s E Q) (hr : x.run s = .error e) : E e := by
  rw [Outcome, hr] at h
  exact h

theorem Ends.outcome {x : Prog σ ε α} (h : Ends x s Q) : Outcome x s E Q := by
  obtain ⟨a, t, hr, hq⟩ := h
  rw [Outcome, hr]
  exact hq

/-- A program that can stop with no error returns. -/
theorem Outcome.ends {x : Prog σ ε α} (h : Outcome x s (fun _ => False) Q) : Ends x s Q := by
  unfold Outcome at h
  cases hx : x.run s with
  | ok r =>
    rw [hx] at h
    exact ⟨r.1, r.2, hx, h⟩
  | error e =>
    rw [hx] at h
    exact h.elim

@[simp]
theorem outcome_pure : Outcome (pure a : Prog σ ε α) s E Q ↔ Q a s := Iff.rfl

@[simp]
theorem outcome_throw : Outcome (throw e : Prog σ ε α) s E Q ↔ E e := Iff.rfl

@[simp]
theorem outcome_bind {x : Prog σ ε β} {f : β → Prog σ ε α} :
    Outcome (x >>= f) s E Q ↔ Outcome x s E (fun a t => Outcome (f a) t E Q) := by
  unfold Outcome
  rw [StateT.run_bind]
  cases x.run s <;> rfl

theorem Outcome.bind {x : Prog σ ε β} {f : β → Prog σ ε α} {R : β → σ → Prop}
    (h : Outcome x s E R) (hf : ∀ b t, R b t → Outcome (f b) t E Q) : Outcome (x >>= f) s E Q :=
  outcome_bind.mpr (h.imp hf)

@[simp]
theorem outcome_get {Q : σ → σ → Prop} : Outcome (get : Prog σ ε σ) s E Q ↔ Q s s := Iff.rfl

@[simp]
theorem outcome_set {Q : PUnit → σ → Prop} :
    Outcome (set t : Prog σ ε PUnit) s E Q ↔ Q ⟨⟩ t := Iff.rfl

@[simp]
theorem outcome_modify {Q : PUnit → σ → Prop} :
    Outcome (modify f : Prog σ ε PUnit) s E Q ↔ Q ⟨⟩ (f s) := Iff.rfl

@[simp]
theorem ends_get {Q : σ → σ → Prop} : Ends (get : Prog σ ε σ) s Q ↔ Q s s :=
  ⟨fun h => by obtain ⟨_, _, hr, hq⟩ := h; cases hr; exact hq, fun h => ⟨s, s, rfl, h⟩⟩

@[simp]
theorem ends_set {Q : PUnit → σ → Prop} : Ends (set t : Prog σ ε PUnit) s Q ↔ Q ⟨⟩ t :=
  ⟨fun h => by obtain ⟨_, _, hr, hq⟩ := h; cases hr; exact hq, fun h => ⟨⟨⟩, t, rfl, h⟩⟩

@[simp]
theorem ends_modify {Q : PUnit → σ → Prop} :
    Ends (modify f : Prog σ ε PUnit) s Q ↔ Q ⟨⟩ (f s) :=
  ⟨fun h => by obtain ⟨_, _, hr, hq⟩ := h; cases hr; exact hq, fun h => ⟨⟨⟩, f s, rfl, h⟩⟩

theorem outcome_zoom {x : Prog τ ε α} :
    Outcome (zoom part put x) s E Q ↔ Outcome x (part s) E (fun a t => Q a (put s t)) := by
  unfold Outcome
  cases hx : x.run (part s) with
  | ok r =>
    have hz : (zoom part put x).run s = .ok (r.1, put s r.2) := by
      unfold zoom
      simp only [StateT.run] at hx ⊢
      rw [hx]
    rw [hz]
  | error e =>
    have hz : (zoom part put x).run s = .error e := by
      unfold zoom
      simp only [StateT.run] at hx ⊢
      rw [hx]
    rw [hz]

theorem Outcome.ite {x y : Prog σ ε α} [Decidable c] (hx : c → Outcome x s E Q)
    (hy : ¬ c → Outcome y s E Q) : Outcome (if c then x else y) s E Q := by
  split
  · exact hx (by assumption)
  · exact hy (by assumption)

/-- A loop over a list keeps what its body carries from each element to the rest. -/
theorem Outcome.forM {f : α → Prog σ ε PUnit} (I : List α → σ → Prop)
    (hstep : ∀ a as s, I (a :: as) s → Outcome (f a) s E (fun _ t => I as t))
    (h : I as s) : Outcome (as.forM f) s E (fun _ t => I [] t) := by
  induction as generalizing s with
  | nil => exact h
  | cons a as ih =>
    exact (hstep a as s h).bind (fun _ t ht => ih ht)

end

end Xv6.Lib
