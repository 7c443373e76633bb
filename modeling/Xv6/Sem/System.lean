import Xv6.Lib.Tally
import Xv6.Proc.Coherent
import Xv6.Sem.Model

namespace Xv6.Sem
open Function Lib

/-- The kernel with its semaphore. A process is inside when sem_wait() has put it into the
queue and it has not returned yet. The counters of calls are not in the source. -/
structure Sys where
  kernel : Lifecycle.Sys
  sem : Semaphore
  inside : Nat → Bool
  started : Nat
  returned : Nat
  posts : Nat

inductive Act where
  | wait (p : Nat)
  | leave (p : Nat)
  | post (p : Nat)
  | kernel (a : Lifecycle.Act)
  deriving DecidableEq

/-- Right after sem_init(v). -/
def start (k : Lifecycle.Sys) (m : Semaphore) (v : Nat) : Sys :=
  ⟨k, semInit m (BitVec.ofNat 32 v), fun _ => false, 0, 0, 0⟩

def Sys.proc (s : Sys) (p : Nat) : Proc := s.kernel.procs p

/-- The process runs user code and can make a system call. -/
def Sys.Free (s : Sys) (p : Nat) : Prop :=
  p < NPROC ∧ (s.proc p).state = .running ∧ s.kernel.pc p = .user ∧ s.inside p = false

instance (s : Sys) (p : Nat) : Decidable (s.Free p) := inferInstanceAs (Decidable (_ ∧ _ ∧ _ ∧ _))

/-- The process is SLEEPING in sem_wait(). -/
def Blocked (s : Sys) (p : Nat) : Prop := s.inside p = true ∧ (s.proc p).state = .sleeping

instance (s : Sys) : DecidablePred (Blocked s) := fun _ => inferInstanceAs (Decidable (_ ∧ _))

def stepWait (s : Sys) (p : Nat) : Sys :=
  match semWait s.sem p with
  | (m, true) =>
    { s with
      kernel := s.kernel.put p ((s.proc p).sleep (.proc p))
      sem := m
      inside := update s.inside p true
      started := s.started + 1 }
  | (m, false) => { s with sem := m, started := s.started + 1, returned := s.returned + 1 }

/-- wakeup(q) by p. A null pointer in the queue is the address of nothing. -/
def Sys.wakeup (s : Sys) (p : Nat) : Option Nat → Sys
  | some q => { s with kernel.procs := s.kernel.procs.wakeup (.proc q) (some p) }
  | none => s

def stepPost (s : Sys) (p : Nat) : Sys :=
  match semPost s.sem with
  | (m, q) => { s with sem := m, posts := s.posts + 1 }.wakeup p q

/-- The process that executes kernel code in this step. -/
def caller : Lifecycle.Act → Option Nat
  | .sched _ | .yield _ | .kill _ => none
  | .fork p _ _ | .exit p _ | .wait p | .go p _ => some p

def step (s : Sys) : Act → Option Sys
  | .wait p => if s.Free p then some (stepWait s p) else none
  | .leave p =>
    if s.inside p = true ∧ (s.proc p).state = .running then
      some { s with
        kernel := s.kernel.put p { s.proc p with chan := none }
        inside := update s.inside p false
        returned := s.returned + 1 }
    else none
  | .post p => if s.Free p then some (stepPost s p) else none
  | .kernel a =>
    if (caller a).any s.inside then none
    else (Lifecycle.step s.kernel a).map (fun k => { s with kernel := k })

/-- The process that this step of the kernel may take out of its sleep: the target of kill(),
and the parent or init when a wakeup() of exit() gets to its slot. -/
def rouses (k : Lifecycle.Sys) : Lifecycle.Act → Option Nat
  | .kill i => some i
  | .go p _ =>
    match k.pc p with
    | .wakingInit _ _ j => if j = Lifecycle.initproc then some j else none
    | .wakingParent _ j => if (k.procs p).parent = some j then some j else none
    | _ => none
  | _ => none

/-- No kill() and no exit of a child reaches a process asleep in sem_wait(). -/
def Undisturbed (s : Sys) : Act → Prop
  | .kernel a => ∀ r ∈ rouses s.kernel a, ¬ Blocked s r
  | _ => True

instance (s : Sys) (a : Act) : Decidable (Undisturbed s a) :=
  match a with
  | .kernel a => inferInstanceAs (Decidable (∀ r ∈ rouses s.kernel a, ¬ Blocked s r))
  | .wait _ | .leave _ | .post _ => isTrue trivial

/-- Everything one step can do. -/
inductive Moves (s : Sys) : Act → Sys → Prop where
  | passed (p : Nat) (hfree : s.Free p) (hv : 0 ≤ (s.sem.value - 1).toInt) :
      Moves s (.wait p)
        { s with
          sem := { s.sem with value := s.sem.value - 1 }
          started := s.started + 1
          returned := s.returned + 1 }
  | blocked (p : Nat) (hfree : s.Free p) (hv : (s.sem.value - 1).toInt < 0) :
      Moves s (.wait p)
        { s with
          kernel := s.kernel.put p ((s.proc p).sleep (.proc p))
          sem := { s.sem with
            value := s.sem.value - 1
            queue := update s.sem.queue s.sem.tail (some p)
            tail := (s.sem.tail + 1) % NPROC }
          inside := update s.inside p true
          started := s.started + 1 }
  | left (p : Nat) (hin : s.inside p = true) (hrun : (s.proc p).state = .running) :
      Moves s (.leave p)
        { s with
          kernel := s.kernel.put p { s.proc p with chan := none }
          inside := update s.inside p false
          returned := s.returned + 1 }
  | posted (p : Nat) (hfree : s.Free p) (hv : 0 < (s.sem.value + 1).toInt) :
      Moves s (.post p)
        { s with sem := { s.sem with value := s.sem.value + 1 }, posts := s.posts + 1 }
  | woke (p : Nat) (hfree : s.Free p) (hv : (s.sem.value + 1).toInt ≤ 0) :
      Moves s (.post p)
        ({ s with
            sem := { s.sem with value := s.sem.value + 1, head := (s.sem.head + 1) % NPROC }
            posts := s.posts + 1 }.wakeup p (s.sem.queue s.sem.head))
  | kernel (a : Lifecycle.Act) (k : Lifecycle.Sys)
      (hc : ∀ p, caller a = some p → s.inside p = false) (hk : Lifecycle.Moves s.kernel a k) :
      Moves s (.kernel a) { s with kernel := k }

theorem stepWait_moves (hfree : s.Free p) : Moves s (.wait p) (stepWait s p) := by
  by_cases hv : (s.sem.value - 1).toInt < 0
  · simp only [stepWait, semWait, if_pos hv]
    exact .blocked p hfree hv
  · simp only [stepWait, semWait, if_neg hv]
    exact .passed p hfree (by omega)

theorem stepPost_moves (hfree : s.Free p) : Moves s (.post p) (stepPost s p) := by
  by_cases hv : (s.sem.value + 1).toInt ≤ 0
  · simp only [stepPost, semPost, if_pos hv]
    exact .woke p hfree hv
  · simp only [stepPost, semPost, if_neg hv]
    exact .posted p hfree (by omega)

theorem step_moves (h : step s a = some t) : Moves s a t := by
  cases a with
  | wait p =>
    simp only [step, Option.ite_none_right_eq_some, Option.some.injEq] at h
    obtain ⟨hfree, rfl⟩ := h
    exact stepWait_moves hfree
  | leave p =>
    simp only [step, Option.ite_none_right_eq_some, Option.some.injEq] at h
    obtain ⟨⟨hin, hrun⟩, rfl⟩ := h
    exact .left p hin hrun
  | post p =>
    simp only [step, Option.ite_none_right_eq_some, Option.some.injEq] at h
    obtain ⟨hfree, rfl⟩ := h
    exact stepPost_moves hfree
  | kernel a =>
    simp only [step, Option.ite_none_left_eq_some, Option.map_eq_some_iff] at h
    obtain ⟨hc, k, hk, rfl⟩ := h
    refine .kernel a k (fun p hp => ?_) (Lifecycle.step_moves hk)
    cases hin : s.inside p with
    | false => rfl
    | true => simp [hp, hin] at hc

/-- The record of a process asleep on its own address. -/
def Dozes (r : Nat) (x : Proc) : Prop := x.state = .sleeping ∧ x.chan = some (.proc r)

theorem put_other {k : Lifecycle.Sys} {x : Proc} (h : r ≠ i) :
    (k.put i x).procs r = k.procs r := by
  simp [Lifecycle.Sys.put, h]

theorem wakeSlot_other {k : Lifecycle.Sys} (h : r ≠ j) :
    (k.wakeSlot p q j).procs r = k.procs r := by
  obtain he | ⟨-, -, -, he⟩ := Lifecycle.wakeSlot_cases k p q j
  · rw [he]
  · rw [he]
    exact put_other h

theorem wakeSlot_not_mine {k : Lifecycle.Sys} (hd : Dozes r (k.procs r)) (hq : q ≠ some r) :
    Dozes r ((k.wakeSlot p q j).procs r) := by
  obtain he | ⟨-, ⟨x, rfl, hx⟩, -, he⟩ := Lifecycle.wakeSlot_cases k p q j
  · rw [he]
    exact hd
  · rw [wakeSlot_other]
    · exact hd
    · rintro rfl
      rw [hd.2] at hx
      cases hx
      exact hq rfl

/-- The kernel leaves a process asleep on its own address unless it rouses it. -/
theorem dozes_step (hm : Lifecycle.Moves k a k') (hf : Lifecycle.Forking k)
    (hn : rouses k a ≠ some r) (hd : Dozes r (k.procs r)) :
    Dozes r (k'.procs r) := by
  have hawake : ∀ i, (k.procs i).state ≠ .sleeping → r ≠ i := by
    rintro i hi rfl
    exact hi hd.1
  cases hm with
  | sched p hst =>
    have hp := hawake p (by simp [hst])
    simpa [Lifecycle.Sys.setState, put_other hp] using hd
  | yield p hrun hpc =>
    have hp := hawake p (by simp [hrun])
    simpa [Lifecycle.Sys.setState, put_other hp] using hd
  | killed i hi =>
    have hri : r ≠ i := by
      rintro rfl
      exact hn rfl
    simpa [put_other hri] using hd
  | forkFailed p np hrun hpc hnp hun =>
    have hp := hawake np (by simp [hun])
    simpa [put_other hp] using hd
  | forked p np hrun hpc hnp hun =>
    have hp := hawake np (by simp [hun])
    simpa [Lifecycle.Sys.goto, put_other hp] using hd
  | published p np ok hrun hpc hfree =>
    have hp := hawake np (by simp [hf.used p np (by rw [hpc]; rfl)])
    simpa [Lifecycle.Sys.goto, put_other hp] using hd
  | started p np ok hrun hpc =>
    have hp := hawake np (by simp [hf.used p np (by rw [hpc]; rfl)])
    simpa [Lifecycle.Sys.goto, Lifecycle.Sys.setState, put_other hp] using hd
  | handed p status i ok hrun hpc hi hparent =>
    rcases eq_or_ne r i with rfl | hri
    · simpa [Lifecycle.Sys.goto, Lifecycle.Sys.put, Dozes] using hd
    · simpa [Lifecycle.Sys.goto, put_other hri] using hd
  | wokeInit p status i j ok hrun hpc hj =>
    rcases eq_or_ne r j with rfl | hrj
    · refine wakeSlot_not_mine hd ?_
      rintro he
      cases he
      simp [rouses, hpc] at hn
    · exact (wakeSlot_other hrj).symm ▸ hd
  | wokeParent p status j ok hrun hpc hj =>
    rcases eq_or_ne r j with rfl | hrj
    · refine wakeSlot_not_mine hd ?_
      intro he
      simp [rouses, hpc, he] at hn
    · exact (wakeSlot_other hrj).symm ▸ hd
  | exited p status ok hrun hpc =>
    have hp := hawake p (by simp [hrun])
    simpa [Lifecycle.Sys.goto, put_other hp] using hd
  | reaped p i havekids hrun hpc hi hparent hst =>
    have hp := hawake i (by simp [hst])
    simpa [Lifecycle.Sys.goto, put_other hp] using hd
  | slept p ok hrun hpc =>
    have hp := hawake p (by simp [hrun])
    simpa [Lifecycle.Sys.goto, put_other hp] using hd
  | resumed p ok hrun hpc =>
    have hp := hawake p (by simp [hrun])
    simpa [Lifecycle.Sys.goto, put_other hp] using hd
  | exiting | passed | handedAll | wokeInitAll | wokeParentAll | waiting | gaveUp | looked
  | decided | reacquired => exact hd

theorem put_sleeping {k : Lifecycle.Sys} {x : Proc}
    (hx : x.state = .sleeping → (k.procs i).state = .sleeping ∧ x.chan = (k.procs i).chan)
    (hs : ((k.put i x).procs r).state = .sleeping) :
    (k.procs r).state = .sleeping ∧ ((k.put i x).procs r).chan = (k.procs r).chan := by
  rcases eq_or_ne r i with rfl | hri
  · simpa [Lifecycle.Sys.put] using hx (by simpa [Lifecycle.Sys.put] using hs)
  · rw [put_other hri] at hs ⊢
    exact ⟨hs, rfl⟩

theorem wakeup_sleeping {x : Proc} (hs : (x.wakeup c).state = .sleeping) : x.wakeup c = x := by
  unfold Proc.wakeup at hs ⊢
  split at hs
  · cases hs
  · next h => rw [if_neg h]

theorem wakeSlot_sleeping {k : Lifecycle.Sys}
    (hs : ((k.wakeSlot p q j).procs r).state = .sleeping) :
    (k.procs r).state = .sleeping ∧ ((k.wakeSlot p q j).procs r).chan = (k.procs r).chan := by
  obtain he | ⟨-, -, -, he⟩ := Lifecycle.wakeSlot_cases k p q j
  · rw [he] at hs ⊢
    exact ⟨hs, rfl⟩
  · rw [he] at hs ⊢
    exact put_sleeping nofun hs

/-- The kernel puts no process to sleep but the one that executes the step. -/
theorem sleeping_step (hm : Lifecycle.Moves k a k') (hc : caller a ≠ some r)
    (hs : (k'.procs r).state = .sleeping) :
    (k.procs r).state = .sleeping ∧ (k'.procs r).chan = (k.procs r).chan := by
  cases hm with
  | sched p hst => exact put_sleeping (by simp) hs
  | yield p hrun hpc => exact put_sleeping (by simp) hs
  | killed i hi =>
    obtain ⟨hk, -⟩ | ⟨hk, -⟩ := Lifecycle.kill_cases (k.procs i)
    · exact put_sleeping (fun hx => ⟨hk.symm.trans hx, rfl⟩) hs
    · exact put_sleeping (by simp [hk]) hs
  | forkFailed p np hrun hpc hnp hun => exact put_sleeping (by simp [Proc.freeproc]) hs
  | forked p np hrun hpc hnp hun => exact put_sleeping (by simp) hs
  | published p np ok hrun hpc hfree => exact put_sleeping (fun hx => ⟨hx, rfl⟩) hs
  | started p np ok hrun hpc => exact put_sleeping (by simp) hs
  | handed p status i ok hrun hpc hi hparent => exact put_sleeping (fun hx => ⟨hx, rfl⟩) hs
  | wokeInit p status i j ok hrun hpc hj => exact wakeSlot_sleeping hs
  | wokeParent p status j ok hrun hpc hj => exact wakeSlot_sleeping hs
  | exited p status ok hrun hpc => exact put_sleeping (by simp) hs
  | reaped p i havekids hrun hpc hi hparent hst => exact put_sleeping (by simp [Proc.freeproc]) hs
  | slept p ok hrun hpc =>
    have hrp : r ≠ p := fun he => hc (by rw [he]; rfl)
    simpa [Lifecycle.Sys.goto, put_other hrp] using hs
  | resumed p ok hrun hpc =>
    have hrp : r ≠ p := fun he => hc (by rw [he]; rfl)
    simpa [Lifecycle.Sys.goto, put_other hrp] using hs
  | exiting | passed | handedAll | wokeInitAll | wokeParentAll | waiting | gaveUp | looked
  | decided | reacquired => exact ⟨hs, rfl⟩

/-- A process in sem_wait() makes no step of its own in the rest of the kernel. -/
theorem caller_ne {s : Sys} (hc : ∀ p, caller a = some p → s.inside p = false)
    (hr : s.inside r = true) : caller a ≠ some r := by
  intro he
  rw [hc r he] at hr
  cases hr

end Xv6.Sem
