import Xv6.Lib.Monitor

namespace Xv6.Lock

open Function Lib Lib.Monitor

/-- struct sleeplock. A process is among the users from the end of its acquiresleep() to its
releasesleep(). -/
structure Sleeplock where
  locked : Bool
  pid : Int
  users : Nat → Bool

inductive Op where
  | acquiresleep
  | releasesleep
  deriving DecidableEq

def initsleeplock : Sleeplock := ⟨false, 0, fun _ => false⟩

def holdingsleep (pid : Nat → Int) (p : Nat) (lk : Sleeplock) : Bool :=
  lk.locked && lk.pid == pid p

/-- The loop of acquiresleep() and what follows it. -/
def acquiresleep (pid : Nat → Int) (p : Nat) (lk : Sleeplock) : Verdict Op Sleeplock :=
  if lk.locked then .sleep else .go none ⟨true, pid p, update lk.users p true⟩ false

def releasesleep (p : Nat) (lk : Sleeplock) : Verdict Op Sleeplock :=
  .go none ⟨false, 0, update lk.users p false⟩ true

/-- Callers of releasesleep() test holdingsleep() before. -/
def sleeplock (pid : Nat → Int) : Code Op Sleeplock Empty where
  exec p
    | .acquiresleep => acquiresleep pid p
    | .releasesleep => releasesleep p
  env e := e.elim
  calls p
    | .acquiresleep => fun _ => true
    | .releasesleep => holdingsleep pid p

/-- The lock is taken by one user, whose pid it shows, or by nobody. -/
structure Owned (pid : Nat → Int) (lk : Sleeplock) : Prop where
  one : lk.users p = true → lk.users q = true → p = q
  shown : lk.users p = true → lk.locked = true ∧ lk.pid = pid p
  used : lk.locked = true → ∃ p, lk.users p = true

section
variable {pid : Nat → Int} {lk : Sleeplock}

theorem Owned.holds_iff (h : Owned pid lk) (hpid : Injective pid) (p : Nat) :
    holdingsleep pid p lk = true ↔ lk.users p = true := by
  rw [holdingsleep, Bool.and_eq_true, beq_iff_eq]
  constructor
  · intro ⟨hl, hp⟩
    obtain ⟨q, hq⟩ := h.used hl
    rwa [← hpid ((h.shown hq).2.symm.trans hp)]
  · exact h.shown

theorem sleeplock_rules (hpid : Injective pid) : Rules (sleeplock pid)
    (fun x lk => Owned pid lk ∧ ∀ p, x = some (p, .releasesleep) → lk.users p = true)
    (fun p a lk => a = .releasesleep → lk.users p = true) (fun _ _ lk => lk.locked = true) where
  call {x lk p a} h hc := by
    rintro rfl
    exact (h.1.holds_iff hpid p).mp hc
  enter {lk p a} h hp := ⟨h.1, by simpa using hp⟩
  exec {p a lk} h := by
    cases a with
    | acquiresleep =>
      simp only [sleeplock, acquiresleep]
      split
      · rename_i hl
        exact ⟨⟨h.1, by simp⟩, by simp, hl⟩
      · rename_i hl
        have hnone : ∀ q, lk.users q = true → False := fun q hq => hl (h.1.shown hq).1
        have hp : ∀ q, update lk.users p true q = true → q = p := by
          intro q hq
          by_contra hne
          exact hnone q (by simpa [hne] using hq)
        refine ⟨⟨⟨?_, ?_, fun _ => ⟨p, by simp⟩⟩, by simp⟩, fun q _ b hb => ?_⟩
        · intro q r hq hr
          rw [hp q hq, hp r hr]
        · intro q hq
          exact ⟨rfl, congrArg pid (hp q hq).symm⟩
        · exact ⟨fun hr => (hnone q (hb hr)).elim, fun _ hB => (hl hB).elim⟩
    | releasesleep =>
      have hnone : ∀ q, update lk.users p false q ≠ true := by
        intro q hq
        have hne : q ≠ p := fun he => by simp [he] at hq
        exact hne (h.1.one (by simpa [hne] using hq) (h.2 p rfl))
      have hfree : Owned pid ⟨false, 0, update lk.users p false⟩ :=
        ⟨fun hq => (hnone _ hq).elim, fun hq => (hnone _ hq).elim, by simp⟩
      refine ⟨⟨hfree, by simp⟩, fun q hq b hb => ⟨fun hr => ?_, by simp⟩⟩
      exact (hq (h.1.one (hb hr) (h.2 p rfl))).elim
  env {x d e} _ _ := e.elim

/-- Two processes never have the lock at once, holdingsleep() tells who has it, and a process sleeps
in acquiresleep() only while it is taken. -/
theorem sleeplock_exclusive (hpid : Injective pid)
    (hr : run (step (sleeplock pid)) (start initsleeplock) as = some s) :
    (∀ p q, s.data.users p = true → s.data.users q = true → p = q) ∧
    (∀ p, holdingsleep pid p s.data = s.data.users p) ∧
    ∀ p a, s.pc p = .asleep a → s.data.locked = true := by
  have h0 : Owned pid initsleeplock := by constructor <;> simp [initsleeplock]
  have h := (sleeplock_rules hpid).reached ⟨h0, by simp⟩ hr
  refine ⟨fun p q => h.data.1.one, fun p => Bool.eq_iff_iff.mpr (h.data.1.holds_iff hpid p), ?_⟩
  intro p a hp
  have hst := h.stands p
  rw [hp] at hst
  exact hst.2

/-- The second process waits for the first one. -/
def contend : List (Act Op Empty) :=
  [.call 0 .acquiresleep, .acquire 0, .exec, .call 1 .acquiresleep, .acquire 1, .exec]

theorem sleeplock_exclusive_two :
    ∃ s, run (step (sleeplock fun p => p)) (start initsleeplock) contend = some s ∧
      s.pc 1 = .asleep .acquiresleep ∧ s.data.users 0 = true ∧ s.data.locked = true := by
  obtain ⟨s, hs, hp, hu⟩ : ∃ s, run (step (sleeplock fun p => p)) (start initsleeplock) contend =
      some s ∧ s.pc 1 = .asleep .acquiresleep ∧ s.data.users 0 = true := by decide +kernel
  exact ⟨s, hs, hp, hu, (sleeplock_exclusive (fun _ _ => Int.ofNat_inj.mp) hs).2.2 1 _ hp⟩

end

end Xv6.Lock
