import Mathlib.Data.List.Range
import Mathlib.Data.Nat.Find
import Xv6.Proc.Table

namespace Xv6.Wait

/-- How a pass of wait() or waitpid() over the table ends. -/
inductive Pass where
  | reaped (child : Nat)
  | fault (child : Nat)
  | notYet
  | refused
  | ended (havekids : Bool)
  | sleeps
  deriving DecidableEq, Repr

/-- The table at the end of the caller's pass. -/
def Pass.table (t : Table) (p : Nat) : Pass → Table
  | .reaped i => Function.update t i (t i).freeproc
  | .sleeps => Function.update t p ((t p).sleep (.proc p))
  | _ => t

/-- What the call returns, unless it goes to sleep. -/
def Pass.value (t : Table) : Pass → Option Int
  | .reaped i => some (t i).pid
  | .fault _ | .refused => some (-1)
  | .notYet => some 0
  | .ended _ | .sleeps => none

/-- The status cannot be delivered: addr is not 0 and copyout to it fails. -/
def Fault (copyout : Nat → Bool) (addr : Nat) : Prop := addr ≠ 0 ∧ copyout addr = false

instance (copyout : Nat → Bool) (addr : Nat) : Decidable (Fault copyout addr) :=
  inferInstanceAs (Decidable (_ ∧ _))

/-- The common end of both calls once they hold the lock of an exited child. -/
def reap (copyout : Nat → Bool) (addr i : Nat) : Pass :=
  if Fault copyout addr then .fault i else .reaped i

/-- The inner loop of wait(), up to the test of havekids and p->killed behind it. -/
def waitScan (copyout : Nat → Bool) (t : Table) (p addr : Nat) : List Nat → Bool → Pass
  | [], havekids => .ended havekids
  | i :: rest, havekids =>
    if (t i).parent = some p then
      if (t i).state = .zombie then reap copyout addr i
      else waitScan copyout t p addr rest true
    else waitScan copyout t p addr rest havekids

/-- One pass of wait(addr) called by the process in slot p. -/
def wait (copyout : Nat → Bool) (t : Table) (p addr : Nat) : Pass :=
  match waitScan copyout t p addr (List.range NPROC) false with
  | .ended havekids => if !havekids || (t p).killed then .refused else .sleeps
  | pass => pass

/-- The test on a slot in waitpid's scan. -/
def Matches (t : Table) (p : Nat) (pid : Int) (i : Nat) : Prop :=
  ((t i).parent = some p ∧ (t i).pid = pid) ∨ (pid = -1 ∧ (t i).parent = some p)

instance (t : Table) (p : Nat) (pid : Int) : DecidablePred (Matches t p pid) :=
  fun _ => inferInstanceAs (Decidable (_ ∨ _))

def waitpidScan (copyout : Nat → Bool) (t : Table) (p : Nat) (pid : Int) (addr : Nat)
    (options : Int) : List Nat → Pass
  | [] => .refused
  | i :: rest =>
    if Matches t p pid i then
      if (t i).state = .zombie then reap copyout addr i
      else if options ≠ 0 then .notYet
      else .sleeps
    else waitpidScan copyout t p pid addr options rest

/-- One pass of waitpid(pid, addr, options). The end of the table is reached only with
foundchild still 0, since every match returns or leaves the loop. -/
def waitpid (copyout : Nat → Bool) (t : Table) (p : Nat) (pid : Int) (addr : Nat)
    (options : Int) : Pass :=
  waitpidScan copyout t p pid addr options (List.range NPROC)

theorem waitpidScan_find (l : List Nat) : waitpidScan copyout t p pid addr options l =
    match l.find? (Matches t p pid ·) with
    | none => .refused
    | some i =>
      if (t i).state = .zombie then reap copyout addr i
      else if options ≠ 0 then .notYet else .sleeps := by
  induction l with
  | nil => rfl
  | cons i rest ih =>
    by_cases h : Matches t p pid i
    · simp only [waitpidScan, h, List.find?_cons, decide_true, ↓reduceIte]
    · simp only [waitpidScan, h, List.find?_cons, decide_false, ↓reduceIte, ih]

def ExitedChild (t : Table) (p i : Nat) : Prop :=
  (t i).parent = some p ∧ (t i).state = .zombie

instance (t : Table) (p : Nat) : DecidablePred (ExitedChild t p) :=
  fun _ => inferInstanceAs (Decidable (_ ∧ _))

theorem waitScan_find (l : List Nat) (havekids : Bool) :
    waitScan copyout t p addr l havekids =
    match l.find? (ExitedChild t p ·) with
    | none => .ended (havekids || l.any (fun i => (t i).parent = some p))
    | some i => reap copyout addr i := by
  induction l generalizing havekids with
  | nil => simp [waitScan]
  | cons i rest ih =>
    by_cases hc : (t i).parent = some p
    · by_cases hz : (t i).state = .zombie
      · simp [waitScan, ExitedChild, hc, hz]
      · simp [waitScan, ExitedChild, hc, hz, ih]
    · simp [waitScan, ExitedChild, hc, ih]

theorem find_first {P : Nat → Prop} [DecidablePred P] (hi : i < n) (hp : P i)
    (hfirst : ∀ j < i, ¬ P j) : (List.range n).find? (P ·) = some i := by
  rw [List.find?_range_eq_some]
  simpa [hi, hp] using hfirst

theorem exists_first {P : Nat → Prop} [DecidablePred P] (h : ∃ i < n, P i) :
    ∃ i < n, P i ∧ ∀ j < i, ¬ P j := by
  obtain ⟨k, hk, hp⟩ := h
  have hex : ∃ i, P i := ⟨k, hp⟩
  have hlt : Nat.find hex < n := lt_of_le_of_lt (Nat.find_min' hex hp) hk
  exact ⟨Nat.find hex, hlt, Nat.find_spec hex, fun _ hj => Nat.find_min hex hj⟩

theorem waitpid_first (hi : i < NPROC) (hm : Matches t p pid i)
    (hfirst : ∀ j < i, ¬ Matches t p pid j) :
    waitpid copyout t p pid addr options =
      if (t i).state = .zombie then reap copyout addr i
      else if options ≠ 0 then .notYet else .sleeps := by
  rw [waitpid, waitpidScan_find, find_first hi hm hfirst]

theorem waitpid_no_match (h : ¬ ∃ i < NPROC, Matches t p pid i) :
    waitpid copyout t p pid addr options = .refused := by
  have hf : (List.range NPROC).find? (Matches t p pid ·) = none := by simpa using h
  rw [waitpid, waitpidScan_find, hf]

theorem wait_first (hi : i < NPROC) (hz : ExitedChild t p i)
    (hfirst : ∀ j < i, ¬ ExitedChild t p j) :
    wait copyout t p addr = reap copyout addr i := by
  rw [wait, waitScan_find, find_first hi hz hfirst]
  by_cases hf : Fault copyout addr
  · simp [reap, hf]
  · simp [reap, hf]

theorem wait_none_exited (h : ¬ ∃ i < NPROC, ExitedChild t p i) :
    wait copyout t p addr =
      if (∃ i < NPROC, (t i).parent = some p) ∧ (t p).killed = false then .sleeps
      else .refused := by
  have hf : (List.range NPROC).find? (ExitedChild t p ·) = none := by simpa using h
  rw [wait, waitScan_find, hf]
  cases hk : (t p).killed with
  | true => simp
  | false =>
    by_cases hc : ∃ i < NPROC, (t i).parent = some p
    · have hany : (List.range NPROC).any (fun i => (t i).parent = some p) = true := by
        simpa using hc
      simp [hany, hc]
    · have hany : (List.range NPROC).any (fun i => (t i).parent = some p) = false := by
        simpa using hc
      simp [hany, hc]

theorem matches_any : Matches t p (-1) i ↔ (t i).parent = some p := by
  unfold Matches
  tauto

theorem reap_ne_notYet : reap copyout addr i ≠ .notYet := by
  unfold reap
  split <;> simp

theorem reap_ne_sleeps : reap copyout addr i ≠ .sleeps := by
  unfold reap
  split <;> simp

theorem waitpid_any_sleeps (hc : ∃ i < NPROC, (t i).parent = some p)
    (hz : ¬ ∃ i < NPROC, ExitedChild t p i) : waitpid copyout t p (-1) addr 0 = .sleeps := by
  have hm : ∃ i < NPROC, Matches t p (-1) i := by simpa only [matches_any] using hc
  obtain ⟨i, hi, hmi, hfirst⟩ := exists_first hm
  have hs : (t i).state ≠ .zombie := fun hs => hz ⟨i, hi, matches_any.mp hmi, hs⟩
  simp [waitpid_first hi hmi hfirst, hs]

/-- A killed caller with children of which none has exited: wait() gives up, while waitpid() goes
to sleep before it looks at p->killed. -/
def KilledWaiting (t : Table) (p : Nat) : Prop :=
  (∃ i < NPROC, (t i).parent = some p) ∧ (¬ ∃ i < NPROC, ExitedChild t p i) ∧
    (t p).killed = true

def ZombieMatch (t : Table) (p : Nat) (pid : Int) (i : Nat) : Prop :=
  i < NPROC ∧ Matches t p pid i ∧ (t i).state = .zombie

/-- What the documentation promises of one call. -/
structure Contract (copyout : Nat → Bool) (t : Table) (p : Nat) (pid : Int) (addr : Nat)
    (options : Int) : Prop where
  reaps : (∃ i, ZombieMatch t p pid i) →
    ∃ i, ZombieMatch t p pid i ∧ waitpid copyout t p pid addr options = reap copyout addr i
  notYet : waitpid copyout t p pid addr options = .notYet →
    options ≠ 0 ∧ (∃ i < NPROC, Matches t p pid i) ∧ ¬ ∃ i, ZombieMatch t p pid i
  asWait : pid = -1 → options = 0 →
    (waitpid copyout t p pid addr options).table t p = (wait copyout t p addr).table t p ∧
    (waitpid copyout t p pid addr options).value t = (wait copyout t p addr).value t

/-- Among the children that match, one that has exited comes before all that have not. -/
def ExitedFirst (t : Table) (p : Nat) (pid : Int) : Prop :=
  (∃ i, ZombieMatch t p pid i) →
    ∃ i, ZombieMatch t p pid i ∧ ∀ j < i, ¬ Matches t p pid j

theorem waitpid_exited_first (hz : ZombieMatch t p pid i)
    (hfirst : ∀ j < i, ¬ Matches t p pid j) :
    waitpid copyout t p pid addr options = reap copyout addr i := by
  obtain ⟨hi, hm, hs⟩ := hz
  simp [waitpid_first hi hm hfirst, hs]

theorem exitedFirst_of_reaps (copyout : Nat → Bool) (h : (∃ i, ZombieMatch t p pid i) →
    ∃ i, waitpid copyout t p pid addr options = reap copyout addr i) : ExitedFirst t p pid := by
  intro hz
  obtain ⟨k, hk, hmk, hsk⟩ := id hz
  obtain ⟨i, hi, hm, hfirst⟩ := exists_first ⟨k, hk, hmk⟩
  obtain ⟨c, hw⟩ := h hz
  refine ⟨i, ⟨hi, hm, ?_⟩, hfirst⟩
  rw [waitpid_first hi hm hfirst] at hw
  split at hw
  · assumption
  · split at hw
    · exact absurd hw.symm reap_ne_notYet
    · exact absurd hw.symm reap_ne_sleeps

theorem notYet_only (he : ExitedFirst t p pid)
    (hw : waitpid copyout t p pid addr options = .notYet) :
    options ≠ 0 ∧ (∃ i < NPROC, Matches t p pid i) ∧ ¬ ∃ i, ZombieMatch t p pid i := by
  have hm : ∃ i < NPROC, Matches t p pid i := by
    by_contra hm
    simp [waitpid_no_match hm] at hw
  obtain ⟨i, hi, hmi, hfirst⟩ := exists_first hm
  refine ⟨?_, hm, ?_⟩
  · intro ho
    rw [waitpid_first hi hmi hfirst] at hw
    split at hw
    · exact reap_ne_notYet hw
    · simp [ho] at hw
  · intro hz
    obtain ⟨k, hk, hkfirst⟩ := he hz
    rw [waitpid_exited_first hk hkfirst] at hw
    exact reap_ne_notYet hw

theorem waitpid_any_as_wait (he : ExitedFirst t p (-1)) (hk : ¬ KilledWaiting t p) :
    waitpid copyout t p (-1) addr 0 = wait copyout t p addr := by
  by_cases hz : ∃ i, ZombieMatch t p (-1) i
  · obtain ⟨k, hz, hfirst⟩ := he hz
    have hwait : wait copyout t p addr = reap copyout addr k :=
      wait_first hz.1 ⟨matches_any.mp hz.2.1, hz.2.2⟩
        (fun j hj hc => hfirst j hj (matches_any.mpr hc.1))
    rw [waitpid_exited_first hz hfirst, hwait]
  have hnone : ¬ ∃ i < NPROC, ExitedChild t p i := fun ⟨i, hi, hc, hs⟩ =>
    hz ⟨i, hi, matches_any.mpr hc, hs⟩
  rw [wait_none_exited hnone]
  by_cases hc : ∃ i < NPROC, (t i).parent = some p
  · have hlive : (t p).killed = false := by
      by_contra hkill
      exact hk ⟨hc, hnone, by simpa using hkill⟩
    rw [waitpid_any_sleeps hc hnone, if_pos ⟨hc, hlive⟩]
  · rw [waitpid_no_match (by simpa only [matches_any] using hc), if_neg (fun h => hc h.1)]

/-- The first child of slot 1 is still running and its second one has exited. -/
def firstChildRuns : Table
  | 1 => { state := .running, pid := 1 }
  | 2 => { state := .runnable, pid := 2, parent := some 1 }
  | 3 => { state := .zombie, xstate := 7, pid := 3, parent := some 1 }
  | _ => {}

end Xv6.Wait
