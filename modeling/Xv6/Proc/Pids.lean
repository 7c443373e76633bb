import Xv6.Proc.Reap
import Xv6.Proc.Slots

namespace Xv6.Lifecycle
open Lib

/-- The processes have different pids, and each of them is positive. -/
structure PidsOk (s : Sys) : Prop where
  positive : ∀ i, InUse s i → 0 < (s.procs i).pid
  distinct : ∀ i j, InUse s i → InUse s j → (s.procs i).pid = (s.procs j).pid → i = j

/-- fork() finds a pid that has not run past the end of an int. -/
def PidLeft (s : Sys) : Act → Prop
  | .fork .. => 0 < s.nextpid
  | _ => True

instance (s : Sys) (a : Act) : Decidable (PidLeft s a) :=
  match a with
  | .fork .. => inferInstanceAs (Decidable (_ < _))
  | .sched _ | .yield _ | .kill _ | .exit .. | .wait _ | .go .. => isTrue trivial

theorem wakeSlot_nextpid (s : Sys) (p : Nat) (q : Option Nat) (j : Nat) :
    (s.wakeSlot p q j).nextpid = s.nextpid := by
  obtain he | ⟨-, -, -, he⟩ := wakeSlot_cases s p q j
  · rw [he]
  · rw [he]
    rfl

theorem Moves.nextpid (h : Moves s a t) :
    t.nextpid = s.nextpid ∧ (∀ p np, a ≠ .fork p np true) ∨
      (∃ p np ok, a = .fork p np ok) ∧ t.nextpid = succPid s.nextpid := by
  cases h with
  | forkFailed p np hrun hpc hnp hun => exact .inr ⟨⟨p, np, false, rfl⟩, rfl⟩
  | forked p np hrun hpc hnp hun => exact .inr ⟨⟨p, np, true, rfl⟩, rfl⟩
  | wokeInit p status i j ok hrun hpc hj =>
    exact .inl ⟨wakeSlot_nextpid .., fun _ _ h => by cases h⟩
  | wokeParent p status j ok hrun hpc hj =>
    exact .inl ⟨wakeSlot_nextpid .., fun _ _ h => by cases h⟩
  | _ => exact .inl ⟨rfl, fun _ _ h => by cases h⟩

theorem succPid_eq (h0 : 0 < n) (h : n < 2 ^ 31) : succPid n ≤ 0 ∨ succPid n = n + 1 := by
  unfold succPid
  rcases eq_or_ne n (2 ^ 31 - 1) with rfl | hne
  · exact .inl (by decide)
  · right
    rw [Int.bmod_eq_of_le] <;> omega

theorem succPid_lt (n : Int) : succPid n < 2 ^ 31 := by
  have h := Int.bmod_lt (x := n + 1) (m := 2 ^ 32) (by decide)
  exact h

/-- Every pid in use is below the next one, as long as that one has not wrapped. -/
structure Numbered (s : Sys) : Prop where
  ok : PidsOk s
  below : ∀ i, InUse s i → s.nextpid ≤ 0 ∨ (s.procs i).pid < s.nextpid
  small : s.nextpid < 2 ^ 31

theorem Numbered.step (h : Numbered s) (hf : Forking s) (hg : PidLeft s a) (hm : Moves s a t) :
    Numbered t := by
  have hpid := fun i => (hm.slot hf i).pid
  have hnew : (∃ p np, a = .fork p np true) → 0 < s.nextpid := by
    intro ⟨p, np, ha⟩
    rw [ha] at hg
    exact hg
  constructor
  case ok =>
    constructor
    case positive =>
      intro i hi
      obtain ⟨hs, he⟩ | ⟨⟨p, ha⟩, he⟩ := hpid i hi
      · rw [he]
        exact h.ok.positive i hs
      · rw [he]
        exact hnew ⟨p, i, ha⟩
    case distinct =>
      intro i j hi hj hij
      obtain ⟨hsi, hei⟩ | ⟨⟨p, hai⟩, hei⟩ := hpid i hi
      · obtain ⟨hsj, hej⟩ | ⟨⟨q, haj⟩, hej⟩ := hpid j hj
        · rw [hei, hej] at hij
          exact h.ok.distinct i j hsi hsj hij
        · have hb := h.below i hsi
          have h0 := hnew ⟨q, j, haj⟩
          omega
      · obtain ⟨hsj, hej⟩ | ⟨⟨q, haj⟩, hej⟩ := hpid j hj
        · have hb := h.below j hsj
          have h0 := hnew ⟨p, i, hai⟩
          omega
        · rw [hai] at haj
          cases haj
          rfl
  case below =>
    intro i hi
    obtain ⟨hn, hno⟩ | ⟨⟨p, np, ok, ha⟩, hn⟩ := hm.nextpid
    · obtain ⟨hs, he⟩ | ⟨⟨p, ha⟩, he⟩ := hpid i hi
      · rw [hn, he]
        exact h.below i hs
      · exact absurd ha (hno p i)
    rw [ha] at hg
    have hg' : 0 < s.nextpid := hg
    obtain hw | hw := succPid_eq hg' h.small
    · rw [hn]
      exact .inl hw
    · right
      obtain ⟨hs, he⟩ | ⟨-, he⟩ := hpid i hi
      · have hb := h.below i hs
        omega
      · omega
  case small =>
    obtain ⟨hn, -⟩ | ⟨-, hn⟩ := hm.nextpid
    · rw [hn]
      exact h.small
    · rw [hn]
      exact succPid_lt _

theorem init_inUse : InUse init i ↔ i = initproc := by
  rw [InUse, init_state]
  split
  · next h => simp [h]
  · next h => simp [h]

theorem numbered_init : Numbered init where
  ok := by
    constructor
    · intro i hi
      rw [init_inUse.mp hi]
      decide
    · intro i j hi hj _
      rw [init_inUse.mp hi, init_inUse.mp hj]
  below := by
    intro i hi
    rw [init_inUse.mp hi]
    decide
  small := by decide

/-- Process identifiers are unique and positive until nextpid wraps. -/
theorem pids_unique (hg : Along step PidLeft init as) (h : run step init as = some s) :
    PidsOk s := by
  have hi : Inv s ∧ Numbered s := by
    apply along_invariant (I := fun s => Inv s ∧ Numbered s) ?_ ⟨init_inv, numbered_init⟩ hg h
    intro s a t ⟨hi, hn⟩ hg hst
    exact ⟨inv_step hi hst, hn.step hi.coherent.toForking hg (step_moves hst)⟩
  exact hi.2.ok

theorem pids_unique_one_child :
    ∃ s, run step init [.sched 0, .fork 0 3 false, .fork 0 1 true] = some s ∧
      (s.procs 0).pid = 1 ∧ (s.procs 1).pid = 3 ∧ PidsOk s := by
  obtain ⟨s, hs, h0, h1⟩ : ∃ s, run step init [.sched 0, .fork 0 3 false, .fork 0 1 true] = some s ∧
      (s.procs 0).pid = 1 ∧ (s.procs 1).pid = 3 := by decide +kernel
  have hg : Along step PidLeft init [.sched 0, .fork 0 3 false, .fork 0 1 true] := by
    decide +kernel
  exact ⟨s, hs, h0, h1, pids_unique hg hs⟩

/-- A fork() that runs out of memory leaves the table as it was and uses up a pid. -/
theorem failed_fork (hrun : (s.procs p).state = .running) (hpc : s.pc p = .user)
    (hnp : np < NPROC) (hfree : s.procs np = {}) :
    step s (.fork p np false) = some { s with nextpid := succPid s.nextpid } := by
  have hun : (s.procs np).state = .unused := by rw [hfree]
  have hput : Function.update s.procs np (s.procs np).freeproc = s.procs := by
    rw [Proc.freeproc, ← hfree, Function.update_eq_self]
  simp [step, forkAlloc, Sys.put, hrun, hpc, hnp, hun, hput]

theorem failed_forks {s : Sys} (hrun : (s.procs p).state = .running) (hpc : s.pc p = .user)
    (hnp : np < NPROC) (hfree : s.procs np = {}) (h0 : 0 < s.nextpid) (k : Nat)
    (hk : s.nextpid + k < 2 ^ 31) :
    run step s (List.replicate k (.fork p np false)) =
      some { s with nextpid := s.nextpid + k } := by
  induction k generalizing s with
  | zero => simp [run]
  | succ k ih =>
    have hs : succPid s.nextpid = s.nextpid + 1 := by
      rw [succPid, Int.bmod_eq_of_le] <;> omega
    rw [List.replicate_succ, run, failed_fork hrun hpc hnp hfree, hs]
    have hn := ih (s := { s with nextpid := s.nextpid + 1 }) hrun hpc hfree
      (by dsimp only; omega) (by dsimp only; omega)
    dsimp only at hn ⊢
    rw [hn, show s.nextpid + 1 + (k : Int) = s.nextpid + ((k + 1 : Nat) : Int) by omega]

/-- init forks and fails until the last positive pid is gone. The next child has a negative
one. -/
theorem pids_wrap :
    ∃ as s, run step init as = some s ∧ InUse s 1 ∧ (s.procs 1).pid = -2 ^ 31 ∧ ¬ PidsOk s := by
  let s : Sys := init.setState 0 .running
  have hfork : run step s (List.replicate (2 ^ 31 - 3) (.fork 0 1 false)) =
      some { s with nextpid := s.nextpid + ((2 ^ 31 - 3 : Nat) : Int) } :=
    failed_forks rfl rfl (by decide) rfl (by decide) (2 ^ 31 - 3) (by decide)
  have hlast : step { s with nextpid := s.nextpid + ((2 ^ 31 - 3 : Nat) : Int) } (.fork 0 1 false) =
      some { s with nextpid := -2 ^ 31 } :=
    failed_fork rfl rfl (by decide) rfl
  obtain ⟨t, ht, hu, hpid⟩ : ∃ t, step { s with nextpid := -2 ^ 31 } (.fork 0 1 true) = some t ∧
      InUse t 1 ∧ (t.procs 1).pid = -2 ^ 31 := by decide +kernel
  refine ⟨[.sched 0] ++ (List.replicate (2 ^ 31 - 3) (.fork 0 1 false) ++
    [.fork 0 1 false, .fork 0 1 true]), t, ?_, hu, hpid, ?_⟩
  · rw [run_append (t := s) rfl, run_append hfork, run, hlast]
    dsimp only
    rw [run, ht]
    rfl
  · intro hok
    have hpos := hok.positive 1 hu
    rw [hpid] at hpos
    exact absurd hpos (by decide)

end Xv6.Lifecycle
