import Mathlib.Logic.Function.Basic
import Xv6.Lib.Run

namespace Xv6.Lock

open Function Lib

/-- In the loop of acquire(), behind it, behind acquire(), and behind the test of holding() and
behind lk->cpu = 0 in release(). -/
inductive Cpc where
  | out
  | spins
  | swapped
  | holds
  | tested
  | cleared
  deriving DecidableEq

/-- struct spinlock, and where the cpus stand. -/
structure Spinlock where
  locked : Bool
  cpu : Option Nat
  pc : Nat → Cpc

inductive Call where
  | acquire
  | release

def initlock : Spinlock := ⟨false, none, fun _ => .out⟩

def holding (c : Nat) (lk : Spinlock) : Bool := lk.locked && lk.cpu == some c

/-- The next access of cpu c to the lock, if it does not panic. -/
def access (lk : Spinlock) : Nat × Call → Option Spinlock
  | (c, f) =>
    match lk.pc c with
    | .out | .holds =>
      match f with
      | .acquire => if holding c lk then none else some ⟨lk.locked, lk.cpu, update lk.pc c .spins⟩
      | .release => if holding c lk then some ⟨lk.locked, lk.cpu, update lk.pc c .tested⟩ else none
    | .spins => some (if lk.locked then lk else ⟨true, lk.cpu, update lk.pc c .swapped⟩)
    | .swapped => some ⟨lk.locked, some c, update lk.pc c .holds⟩
    | .tested => some ⟨lk.locked, none, update lk.pc c .cleared⟩
    | .cleared => some ⟨false, lk.cpu, update lk.pc c .out⟩

/-- The cpu is between the swap of acquire() and that of release(). -/
def owns : Cpc → Bool
  | .out | .spins => false
  | _ => true

/-- The lock shows where cpu c stands, and the other cpus are all without it. -/
structure Spun (c : Nat) (lk : Spinlock) : Prop where
  rest : ∀ d ≠ c, owns (lk.pc d) = false
  locked : lk.locked = owns (lk.pc c)
  cpu : lk.cpu = if lk.pc c = .holds ∨ lk.pc c = .tested then some c else none

theorem Spun.holding_iff (h : Spun c lk) (d : Nat) :
    holding d lk = true ↔ lk.pc d = .holds ∨ lk.pc d = .tested := by
  rw [holding, h.locked, h.cpu]
  by_cases hd : d = c
  · cases hx : lk.pc c <;> simp [hd, hx, owns]
  · have := h.rest d hd
    cases hx : lk.pc d <;> cases hy : lk.pc c <;> simp_all [owns, Ne.symm hd]

theorem Spun.access (h : Spun c lk) (hs : access lk (d, f) = some t) :
    Spun (if owns (t.pc d) = true then d else c) t := by
  have hh := h.holding_iff d
  have ⟨hr, hl, hu⟩ := h
  have hd := hr d
  simp only [Lock.access] at hs
  cases hx : lk.pc d <;> cases f <;> simp only [hx, hh] at hs <;> (try split at hs) <;> cases hs
  all_goals constructor <;> grind [owns, update_apply]

/-- Two cpus never own the lock at once, and holding() tells which cpu is behind acquire() and
has not cleared lk->cpu. -/
theorem spinlock_exclusive (hr : run access initlock as = some lk) :
    (∀ c d, owns (lk.pc c) = true → owns (lk.pc d) = true → c = d) ∧
    ∀ c, holding c lk = true ↔ lk.pc c = .holds ∨ lk.pc c = .tested := by
  have h0 : Spun 0 initlock := by constructor <;> simp [initlock, owns]
  obtain ⟨e, h⟩ := run_invariant (I := fun lk => ∃ c, Spun c lk)
    (fun _ _ _ ⟨_, h⟩ hs => ⟨_, h.access hs⟩) ⟨0, h0⟩ hr
  have hone : ∀ c, owns (lk.pc c) = true → c = e := by simpa using fun c => mt (h.rest c)
  exact ⟨fun c d hc hd => (hone c hc).trans (hone d hd).symm, h.holding_iff⟩

/-- The first cpu spins while the second one has the lock. -/
def spin : List (Nat × Call) := [0, 1, 1, 0, 1].map (·, .acquire)

theorem spinlock_exclusive_two : ∃ lk, run access initlock spin = some lk ∧ lk.pc 0 = .spins ∧
    holding 1 lk = true := by
  obtain ⟨lk, hr, h0, h1⟩ : ∃ lk, run access initlock spin = some lk ∧ lk.pc 0 = .spins ∧
      lk.pc 1 = .holds := by decide +kernel
  exact ⟨lk, hr, h0, ((spinlock_exclusive hr).2 1).mpr (.inl h1)⟩

end Xv6.Lock
