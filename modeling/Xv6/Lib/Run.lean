import Mathlib.Data.List.Basic

namespace Xv6.Lib

/-- The state after a list of actions, if each of them was enabled where it was taken. -/
def run (step : σ → α → Option σ) : σ → List α → Option σ
  | s, [] => some s
  | s, a :: as =>
    match step s a with
    | none => none
    | some t => run step t as

/-- Every action of the run meets the guard in the state it is taken from. -/
def Along (step : σ → α → Option σ) (guard : σ → α → Prop) : σ → List α → Prop
  | _, [] => True
  | s, a :: as => guard s a ∧
    match step s a with
    | none => True
    | some t => Along step guard t as

instance decidableExistsSome {o : Option α} {P : α → Prop} [DecidablePred P] :
    Decidable (∃ a, o = some a ∧ P a) :=
  decidable_of_iff (o.any (fun a => decide (P a)) = true) (by simp [Option.any_eq_true])

def Along.decidable (step : σ → α → Option σ) (guard : σ → α → Prop)
    [hd : ∀ s a, Decidable (guard s a)] (s : σ) (as : List α) :
    Decidable (Along step guard s as) :=
  match as with
  | [] => isTrue trivial
  | a :: as =>
    match hd s a with
    | isFalse hg => isFalse (fun h => hg h.1)
    | isTrue hg =>
      match hs : step s a with
      | none => isTrue ⟨hg, by simp [hs]⟩
      | some t =>
        match Along.decidable step guard t as with
        | isTrue ht => isTrue ⟨hg, by simpa [hs] using ht⟩
        | isFalse ht => isFalse (fun h => ht (by simpa [Along, hs] using h.2))

instance (step : σ → α → Option σ) (guard : σ → α → Prop)
    [∀ s a, Decidable (guard s a)] (s : σ) (as : List α) :
    Decidable (Along step guard s as) := Along.decidable step guard s as

theorem run_cons {step : σ → α → Option σ} :
    run step s (a :: as) = some u ↔ ∃ t, step s a = some t ∧ run step t as = some u := by
  cases hs : step s a <;> simp [run, hs]

theorem run_append {step : σ → α → Option σ} (h : run step s as = some t) :
    run step s (as ++ bs) = run step t bs := by
  induction as generalizing s with
  | nil =>
    cases h
    rfl
  | cons a as ih =>
    obtain ⟨u, hu, ht⟩ := run_cons.mp h
    rw [List.cons_append, run, hu]
    exact ih ht

theorem along_cons {step : σ → α → Option σ} {guard : σ → α → Prop}
    (h : Along step guard s (a :: as)) (hs : step s a = some t) :
    guard s a ∧ Along step guard t as := by
  simpa [Along, hs] using h

/-- What every step meeting the guard preserves holds at the end of every guarded run. -/
theorem along_invariant {step : σ → α → Option σ} {guard : σ → α → Prop} {I : σ → Prop}
    (hstep : ∀ s a t, I s → guard s a → step s a = some t → I t)
    (hs : I s) (hg : Along step guard s as) (hr : run step s as = some u) : I u := by
  induction as generalizing s with
  | nil =>
    cases hr
    exact hs
  | cons a as ih =>
    obtain ⟨t, ht, hu⟩ := run_cons.mp hr
    obtain ⟨ha, hg⟩ := along_cons hg ht
    exact ih (hstep s a t hs ha ht) hg hu

/-- What every step preserves holds at the end of every run. -/
theorem run_invariant {step : σ → α → Option σ} {I : σ → Prop}
    (hstep : ∀ s a t, I s → step s a = some t → I t)
    (hs : I s) (hr : run step s as = some u) : I u := by
  induction as generalizing s with
  | nil =>
    cases hr
    exact hs
  | cons a as ih =>
    obtain ⟨t, ht, hu⟩ := run_cons.mp hr
    exact ih (hstep s a t hs ht) hu

end Xv6.Lib
