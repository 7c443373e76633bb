import Mathlib.Logic.Function.Basic
import Xv6.Lib.Run

namespace Xv6.Lib.Monitor

open Function

/-- What an operation with the lock does next. With its last access it leaves. -/
inductive Verdict (α σ : Type) where
  | sleep
  | go (a : Option α) (d : σ) (wakes : Bool)

/-- Operations on data under one lock: their code, what may happen to the data without the lock,
and when a process may call an operation. -/
structure Code (α σ ε : Type) where
  exec : Nat → α → σ → Verdict α σ
  env : ε → σ → Option σ
  calls : Nat → α → σ → Bool

/-- Where a process without the lock stands. -/
inductive Pc (α : Type) where
  | out
  | wants (a : α)
  | asleep (a : α)
  deriving DecidableEq

structure Sys (α σ : Type) where
  data : σ
  inside : Option (Nat × α)
  pc : Nat → Pc α

inductive Act (α ε : Type) where
  | call (p : Nat) (a : α)
  | acquire (p : Nat)
  | exec
  | rouse (p : Nat)
  | env (e : ε)

def Pc.wake (wakes : Bool) : Pc α → Pc α
  | .asleep a => if wakes then .wants a else .asleep a
  | c => c

def Sys.goto (s : Sys α σ) (p : Nat) (c : Pc α) : Sys α σ := { s with pc := update s.pc p c }

/-- A sleeper gives up the lock as it falls asleep, and takes it again when it is awake. -/
def step (m : Code α σ ε) (s : Sys α σ) : Act α ε → Option (Sys α σ)
  | .call p a =>
    match s.pc p with
    | .out =>
      if s.inside.all (·.1 ≠ p) ∧ m.calls p a s.data then some (s.goto p (.wants a)) else none
    | _ => none
  | .acquire p =>
    match s.pc p, s.inside with
    | .wants a, none => some { s.goto p .out with inside := some (p, a) }
    | _, _ => none
  | .exec =>
    match s.inside with
    | some (p, a) =>
      match m.exec p a s.data with
      | .sleep => some { s.goto p (.asleep a) with inside := none }
      | .go a d wakes => some ⟨d, a.map (p, ·), fun q => (s.pc q).wake wakes⟩
    | none => none
  | .rouse p => some (s.goto p ((s.pc p).wake true))
  | .env e => (m.env e s.data).map ({ s with data := · })

def start (d : σ) : Sys α σ := ⟨d, none, fun _ => .out⟩

/-- What process q relies on outside of the lock is kept, and without a wakeup also what it waits
to end. -/
def Stable (P B : Nat → α → σ → Prop) (wakes : Bool) (d d' : σ) (q : Nat) : Prop :=
  ∀ b, P q b d → P q b d' ∧ (wakes = false → B q b d → B q b d')

/-- What has to hold after the next piece of the code of a process inside. -/
def Follows (J : Option (Nat × α) → σ → Prop) (P B : Nat → α → σ → Prop) (p : Nat) (a : α) (d : σ) :
    Verdict α σ → Prop
  | .sleep => J none d ∧ P p a d ∧ B p a d
  | .go a' d' w => J (a'.map (p, ·)) d' ∧ ∀ q ≠ p, Stable P B w d d' q

/-- J holds of the data, given who is inside and where, P is what an operation outside relies on,
and B is what a sleeper waits to end. -/
structure Rules (m : Code α σ ε) (J : Option (Nat × α) → σ → Prop) (P B : Nat → α → σ → Prop) :
    Prop where
  call : J x d → m.calls p a d = true → P p a d
  enter : J none d → P p a d → J (some (p, a)) d
  exec : J (some (p, a)) d → Follows J P B p a d (m.exec p a d)
  env : J x d → m.env e d = some d' → J x d' ∧ ∀ q, Stable P B false d d' q

/-- What holds of a process at c. -/
def Stands (P B : Nat → α → σ → Prop) (d : σ) (q : Nat) : Pc α → Prop
  | .out => True
  | .wants a => P q a d
  | .asleep a => P q a d ∧ B q a d

structure Inv (J : Option (Nat × α) → σ → Prop) (P B : Nat → α → σ → Prop) (s : Sys α σ) :
    Prop where
  data : J s.inside s.data
  apart : s.inside = some x → s.pc x.1 = .out
  stands : ∀ q, Stands P B s.data q (s.pc q)

section
variable {m : Code α σ ε} {J : Option (Nat × α) → σ → Prop} {P B : Nat → α → σ → Prop}
  {s t : Sys α σ}

theorem Stands.wake {c : Pc α} (h : Stands P B d q c) (hd : Stable P B w d d' q) :
    Stands P B d' q (c.wake w) := by
  cases c with
  | out => trivial
  | wants a => exact (hd a h).1
  | asleep a =>
    cases w with
    | false => exact ⟨(hd a h.1).1, (hd a h.1).2 rfl h.2⟩
    | true => exact (hd a h.1).1

@[simp] theorem wake_false (c : Pc α) : c.wake false = c := by cases c <;> rfl

theorem Inv.goto (h : Inv J P B s) (hj : J x s.data)
    (hx : ∀ y, x = some y → update s.pc p c y.1 = .out) (hc : Stands P B s.data p c) :
    Inv J P B { s.goto p c with inside := x } := by
  refine ⟨hj, fun {y} => hx y, fun q => ?_⟩
  by_cases hq : q = p
  · simpa [Sys.goto, hq] using hc
  · simpa [Sys.goto, hq] using h.stands q

theorem Rules.step (hm : Rules m J P B) (h : Inv J P B s) (hs : step m s a = some t) :
    Inv J P B t := by
  cases a with
  | call p a =>
    simp only [Monitor.step] at hs
    split at hs
    · obtain ⟨hcall, hs⟩ := Option.ite_none_right_eq_some.mp hs
      cases hs
      refine h.goto h.data (fun y hy => ?_) (hm.call h.data hcall.2)
      have hne : y.1 ≠ p := by simpa [hy] using hcall.1
      rw [update_of_ne hne, h.apart hy]
    · cases hs
  | acquire p =>
    simp only [Monitor.step] at hs
    split at hs
    · rename_i a hp hx
      cases hs
      have hpre : Stands P B s.data p (.wants a) := hp ▸ h.stands p
      refine h.goto (hm.enter (hx ▸ h.data) hpre) (fun y hy => ?_) trivial
      cases hy
      exact update_self ..
    · cases hs
  | exec =>
    simp only [Monitor.step] at hs
    split at hs
    · rename_i p a hx
      have hj : J (some (p, a)) s.data := hx ▸ h.data
      have hout : s.pc p = .out := h.apart hx
      have hf := hm.exec hj
      split at hs
      all_goals
        rename_i he
        rw [he] at hf
        cases hs
      · exact h.goto hf.1 (by simp) hf.2
      · refine ⟨hf.1, fun hy => ?_, fun q => ?_⟩
        · obtain ⟨b, -, rfl⟩ := Option.map_eq_some_iff.mp hy
          simp [hout, Pc.wake]
        · by_cases hq : q = p
          · simp [hq, hout, Stands, Pc.wake]
          · exact (h.stands q).wake (hf.2 q hq)
    · cases hs
  | rouse p =>
    cases hs
    refine h.goto h.data (fun y hy => ?_) ((h.stands p).wake (by simp [Stable]))
    by_cases hp : y.1 = p
    · rw [← hp, update_self, h.apart hy]
      rfl
    · rw [update_of_ne hp, h.apart hy]
  | env e =>
    obtain ⟨d, hd, rfl⟩ := Option.map_eq_some_iff.mp hs
    obtain ⟨hj, hother⟩ := hm.env h.data hd
    refine ⟨hj, h.apart, fun q => ?_⟩
    simpa using (h.stands q).wake (hother q)

/-- The rules hold in every state that any run reaches. -/
theorem Rules.reached (hm : Rules m J P B) (hd : J none d)
    (hr : run (Monitor.step m) (start d) as = some s) : Inv J P B s := by
  have h0 : Inv J P B (start d) := ⟨hd, by simp [start], fun _ => trivial⟩
  exact run_invariant (fun _ _ _ h hs => hm.step h hs) h0 hr

end

end Xv6.Lib.Monitor
