import Xv6.Proc.Lifecycle

namespace Xv6.Lifecycle
open Function Lib

/-- The slot that fork() has allocated and not yet made runnable. -/
def Pc.child : Pc → Option Nat
  | .forked np | .parented np => some np
  | _ => none

/-- A slot that fork() has allocated stays USED until the same call makes it runnable. -/
structure Forking (s : Sys) : Prop where
  used : ∀ p np, (s.pc p).child = some np → (s.procs np).state = .used
  one : ∀ p q np, (s.pc p).child = some np → (s.pc q).child = some np → p = q

theorem Forking.no_child (h : Forking s) (hst : (s.procs i).state ≠ .used) (q : Nat) :
    (s.pc q).child ≠ some i :=
  fun hq => hst (h.used q i hq)

theorem Forking.put {r : Proc} (h : Forking s)
    (hu : r.state = .used ∨ ∀ q, (s.pc q).child ≠ some i) : Forking (s.put i r) := by
  refine ⟨fun p np hc => ?_, h.one⟩
  rcases eq_or_ne np i with rfl | hi
  · rcases hu with hu | hu
    · simpa [Sys.put] using hu
    · exact absurd hc (hu p)
  · simpa [Sys.put, hi] using h.used p np hc

theorem Forking.put_same {r : Proc} (h : Forking s) (hr : r.state = (s.procs i).state) :
    Forking (s.put i r) := by
  by_cases hu : (s.procs i).state = .used
  · exact h.put (Or.inl (hr.trans hu))
  · exact h.put (Or.inr (h.no_child hu))

theorem Forking.goto {c : Pc} (h : Forking s)
    (hch : c.child = none ∨ c.child = (s.pc p).child) :
    Forking ({ s with waitLock := l }.goto p c) := by
  have hchild : ∀ q np, (update s.pc p c q).child = some np →
      (s.pc q).child = some np := by
    intro q np hq
    rcases eq_or_ne q p with rfl | he
    · rw [update_self] at hq
      rcases hch with hch | hch
      · rw [hch] at hq
        cases hq
      · rw [← hch]
        exact hq
    · rwa [update_of_ne he] at hq
  exact ⟨fun q np hq => h.used q np (hchild q np hq),
    fun q q' np hq hq' => h.one q q' np (hchild q np hq) (hchild q' np hq')⟩

theorem Forking.wakeSlot (h : Forking s) (p : Nat) (q : Option Nat) (j : Nat) :
    Forking (s.wakeSlot p q j) := by
  obtain he | ⟨hs, -, -, he⟩ := wakeSlot_cases s p q j
  · rw [he]
    exact h
  · rw [he]
    exact h.put (Or.inr (h.no_child (by simp [hs])))

theorem Forking.forked {r : Proc} (h : Forking s) (hun : (s.procs np).state = .unused)
    (hr : r.state = .used) : Forking ((s.put np r).goto np .user |>.goto p (.forked np)) := by
  have hput : Forking ((s.put np r).goto np .user) := (h.put (Or.inl hr)).goto (Or.inl rfl)
  have hnew : ∀ q, q ≠ p →
      ((((s.put np r).goto np .user).goto p (.forked np)).pc q).child ≠ some np := by
    intro q hq hc
    rcases eq_or_ne q np with rfl | he
    · simp [Sys.goto, hq, Pc.child] at hc
    · exact h.no_child (i := np) (by simp [hun]) q (by simpa [Sys.goto, Sys.put, hq, he] using hc)
  have hself : ∀ c, ((((s.put np r).goto np .user).goto p (.forked np)).pc p).child = some c →
      np = c := by
    intro c hc
    simpa [Sys.goto, Pc.child] using hc
  refine ⟨fun q c hc => ?_, fun q q' c hq hq' => ?_⟩
  · rcases eq_or_ne q p with rfl | hqp
    · obtain rfl := hself c hc
      simpa [Sys.goto, Sys.put] using hr
    · exact hput.used q c (by simpa [Sys.goto, hqp] using hc)
  · rcases eq_or_ne q p with rfl | he
    · obtain rfl := hself c hq
      by_contra he'
      exact hnew q' (Ne.symm he') hq'
    · rcases eq_or_ne q' p with rfl | he'
      · obtain rfl := hself c hq'
        exact absurd hq (hnew q he)
      · exact hput.one q q' c (by simpa [Sys.goto, he] using hq)
          (by simpa [Sys.goto, he'] using hq')

theorem Forking.started {r : Proc} (h : Forking s) (hpc : s.pc p = .parented np) :
    Forking ((s.put np r).goto p .user) := by
  have hgo : Forking (s.goto p .user) := h.goto (Or.inl rfl)
  have hone : ∀ q, ((s.goto p .user).pc q).child ≠ some np := by
    intro q hq
    rcases eq_or_ne q p with rfl | he
    · simp [Sys.goto, Pc.child] at hq
    · exact he (h.one q p np (by simpa [Sys.goto, he] using hq) (by rw [hpc]; rfl))
  have hput : Forking ((s.goto p .user).put np r) := hgo.put (Or.inr hone)
  exact { hput with }

theorem forking_step (h : Forking s) (hm : Moves s a t) : Forking t := by
  cases hm with
  | sched p hst => exact h.put (Or.inr (h.no_child (by simp [hst])))
  | yield p hrun hpc => exact h.put (Or.inr (h.no_child (by simp [hrun])))
  | killed i hi =>
    obtain ⟨hk, -⟩ | ⟨-, hst⟩ := kill_cases (s.procs i)
    · exact h.put_same hk
    · exact h.put (Or.inr (h.no_child (by simp [hst])))
  | forkFailed p np hrun hpc hnp hun =>
    have hp : Forking (s.put np (s.procs np).freeproc) :=
      h.put (Or.inr (h.no_child (by simp [hun])))
    exact { hp with }
  | forked p np hrun hpc hnp hun =>
    have hf := h.forked (p := p) (r := { s.procs np with pid := s.nextpid, state := .used }) hun rfl
    exact { hf with }
  | published p np ok hrun hpc hfree =>
    have hp : Forking (s.put np { s.procs np with parent := some p }) := h.put_same rfl
    have hg := hp.goto (p := p) (c := .parented np) (l := s.waitLock)
      (Or.inr (by simp [Sys.put, hpc, Pc.child]))
    exact { hg with }
  | started p np ok hrun hpc => exact h.started hpc
  | handed p status i ok hrun hpc hi hparent =>
    have hp : Forking (s.put i { s.procs i with parent := some initproc }) := h.put_same rfl
    have hg := hp.goto (p := p) (c := .wakingInit status i 0) (l := s.waitLock) (Or.inl rfl)
    exact { hg with }
  | wokeInit p status i j ok hrun hpc hj =>
    exact (h.wakeSlot p (some initproc) j).goto (Or.inl rfl)
  | wokeParent p status j ok hrun hpc hj =>
    exact (h.wakeSlot p (s.procs p).parent j).goto (Or.inl rfl)
  | exited p status ok hrun hpc =>
    have hp : Forking (s.put p { s.procs p with xstate := status, state := .zombie }) :=
      h.put (Or.inr (h.no_child (by simp [hrun])))
    have hg := hp.goto (p := p) (c := .dead) (l := none) (Or.inl rfl)
    exact { hg with }
  | reaped p i havekids hrun hpc hi hparent hst =>
    have hp : Forking (s.put i (s.procs i).freeproc) :=
      h.put (Or.inr (h.no_child (by simp [hst])))
    have hg := hp.goto (p := p) (c := .user) (l := none) (Or.inl rfl)
    exact { hg with }
  | slept p ok hrun hpc =>
    have hp : Forking (s.put p ((s.procs p).sleep (.proc p))) :=
      h.put (Or.inr (h.no_child (by simp [hrun])))
    exact hp.goto (Or.inl rfl)
  | resumed p ok hrun hpc =>
    have hp : Forking (s.put p { s.procs p with chan := none }) := h.put_same rfl
    exact hp.goto (Or.inl rfl)
  | exiting | passed | handedAll | wokeInitAll | wokeParentAll | waiting | gaveUp | looked
  | decided | reacquired => exact h.goto (Or.inl rfl)

/-- The states a process can be in at each point of its code. -/
def Pc.allows (c : Pc) : ProcState → Bool
  | .unused => c = .user ∨ c = .dead
  | .used => c = .user
  | .sleeping => c = .asleep
  | .runnable => c ≠ .dead ∧ c.holds = false
  | .running => c ≠ .dead
  | .zombie => c = .dead

/-- Each process is at a point that fits its state, and wait_lock is held by the one process
that is in a section under it. -/
structure Placed (s : Sys) : Prop where
  fits : ∀ p, (s.pc p).allows (s.procs p).state = true
  lock : ∀ p, s.waitLock = some p ↔ (s.pc p).holds = true
  bound : ∀ p, (s.procs p).state ≠ .unused → p < NPROC

theorem Placed.put {r : Proc} (h : Placed s) (hal : (s.pc i).allows r.state = true)
    (hb : r.state ≠ .unused → i < NPROC) : Placed (s.put i r) := by
  refine ⟨fun p => ?_, h.lock, fun p hp => ?_⟩
  · rcases eq_or_ne p i with rfl | hi
    · simpa [Sys.put] using hal
    · simpa [Sys.put, hi] using h.fits p
  · rcases eq_or_ne p i with rfl | hi
    · exact hb (by simpa [Sys.put] using hp)
    · exact h.bound p (by simpa [Sys.put, hi] using hp)

theorem Placed.put_same {r : Proc} (h : Placed s) (hr : r.state = (s.procs i).state) :
    Placed (s.put i r) :=
  h.put (hr ▸ h.fits i) (fun hne => h.bound i (hr ▸ hne))

/-- A running process moves on, without or with an acquire or a release of wait_lock. -/
theorem Placed.become {r : Proc} {c : Pc} (h : Placed s) (hrun : (s.procs p).state = .running)
    (hal : c.allows r.state = true)
    (hl : ∀ q, l = some q ↔ (update s.pc p c q).holds = true) :
    Placed ({ s.put p r with waitLock := l }.goto p c) := by
  refine ⟨fun q => ?_, hl, fun q hq => ?_⟩
  · rcases eq_or_ne q p with rfl | he
    · simpa [Sys.goto, Sys.put] using hal
    · simpa [Sys.goto, Sys.put, he] using h.fits q
  · rcases eq_or_ne q p with rfl | he
    · exact h.bound q (by simp [hrun])
    · exact h.bound q (by simpa [Sys.goto, Sys.put, he] using hq)

theorem Placed.goto {c : Pc} (h : Placed s) (hrun : (s.procs p).state = .running)
    (hc : c ≠ .dead) (hl : ∀ q, l = some q ↔ (update s.pc p c q).holds = true) :
    Placed ({ s with waitLock := l }.goto p c) := by
  have hb : Placed ({ s.put p (s.procs p) with waitLock := l }.goto p c) :=
    h.become hrun (by simp [hrun, Pc.allows, hc]) hl
  simpa [Sys.put] using hb

theorem Placed.keep_lock {c : Pc} (h : Placed s) (hh : c.holds = (s.pc p).holds) (q : Nat) :
    s.waitLock = some q ↔ (update s.pc p c q).holds = true := by
  rcases eq_or_ne q p with rfl | he
  · rw [update_self, hh]
    exact h.lock q
  · rw [update_of_ne he]
    exact h.lock q

theorem Placed.acquire {c : Pc} (h : Placed s) (hfree : s.waitLock = none)
    (hh : c.holds = true) (q : Nat) :
    some p = some q ↔ (update s.pc p c q).holds = true := by
  rcases eq_or_ne q p with rfl | he
  · simp [hh]
  · rw [update_of_ne he, ← h.lock q, hfree]
    simp [Ne.symm he]

theorem Placed.release {c : Pc} (h : Placed s) (hold : (s.pc p).holds = true)
    (hh : c.holds = false) (q : Nat) :
    none = some q ↔ (update s.pc p c q).holds = true := by
  rcases eq_or_ne q p with rfl | he
  · simp [hh]
  · rw [update_of_ne he, ← h.lock q, (h.lock p).mpr hold]
    simp [Ne.symm he]

theorem Placed.stay {c : Pc} (h : Placed s) (hrun : (s.procs p).state = .running)
    (hc : c ≠ .dead) (hh : c.holds = (s.pc p).holds) : Placed (s.goto p c) :=
  h.goto hrun hc (h.keep_lock hh)

theorem Placed.wake {r : Proc} (h : Placed s) (hst : (s.procs i).state = .sleeping)
    (hr : r.state = .runnable) : Placed (s.put i r) := by
  have hf := h.fits i
  rw [hst] at hf
  have hpc : s.pc i = .asleep := by simpa [Pc.allows] using hf
  refine h.put ?_ (fun _ => h.bound i (by simp [hst]))
  rw [hr, hpc]
  rfl

theorem Placed.wakeSlot (h : Placed s) (p : Nat) (q : Option Nat) (j : Nat) :
    Placed (s.wakeSlot p q j) := by
  obtain he | ⟨hs, -, -, he⟩ := wakeSlot_cases s p q j
  · rw [he]
    exact h
  · rw [he]
    exact h.wake hs rfl

/-- The code of a free slot has not started or has ended. -/
theorem Placed.idle (h : Placed s) (hun : (s.procs i).state = .unused) :
    s.pc i = .user ∨ s.pc i = .dead := by
  have hf := h.fits i
  rw [hun] at hf
  simpa [Pc.allows] using hf

theorem Placed.idle_used (h : Placed s) (hu : (s.procs i).state = .used) : s.pc i = .user := by
  have hf := h.fits i
  rw [hu] at hf
  simpa [Pc.allows] using hf

theorem Placed.forked {r : Proc} (h : Placed s) (hrun : (s.procs p).state = .running)
    (hpc : s.pc p = .user) (hnp : np < NPROC) (hun : (s.procs np).state = .unused)
    (hr : r.state = .used) : Placed ((s.put np r).goto np .user |>.goto p (.forked np)) := by
  have hne : p ≠ np := Table.ne_of_state hrun hun (by simp)
  have hnew : Placed (s.goto np .user) := by
    refine ⟨fun q => ?_, h.keep_lock ?_, h.bound⟩
    · rcases eq_or_ne q np with rfl | hq
      · simp [Sys.goto, hun, Pc.allows]
      · simpa [Sys.goto, hq] using h.fits q
    · rcases h.idle hun with hi | hi
      · rw [hi]
      · rw [hi]
        rfl
  have hput : Placed ((s.goto np .user).put np r) :=
    hnew.put (by simp [Sys.goto, hr, Pc.allows]) (fun _ => hnp)
  have hgo := hput.stay (p := p) (c := .forked np) (by simpa [Sys.goto, Sys.put, hne] using hrun)
    (by simp) (by simp [Sys.goto, Sys.put, hne, hpc, Pc.holds])
  exact { hgo with }

@[simp] theorem wakeSlot_self (s : Sys) (p : Nat) (q : Option Nat) (j : Nat) :
    (s.wakeSlot p q j).procs p = s.procs p := by
  obtain he | ⟨-, -, hj, he⟩ := wakeSlot_cases s p q j
  · rw [he]
  · simp [he, Sys.setState, Sys.put, Ne.symm hj]

@[simp] theorem wakeSlot_pc (s : Sys) (p : Nat) (q : Option Nat) (j : Nat) :
    (s.wakeSlot p q j).pc = s.pc := by
  obtain he | ⟨-, -, -, he⟩ := wakeSlot_cases s p q j
  · rw [he]
  · rw [he]
    rfl

theorem put_state {s : Sys} {r : Proc} (hr : r.state = (s.procs i).state) (p : Nat) :
    ((s.put i r).procs p).state = (s.procs p).state := by
  rcases eq_or_ne p i with rfl | hi
  · simpa [Sys.put] using hr
  · simp [Sys.put, hi]

theorem placed_step (h : Placed s) (hf : Forking s) (hm : Moves s a t) : Placed t := by
  cases hm with
  | sched p hst =>
    have hfit := h.fits p
    rw [hst] at hfit
    refine h.put ?_ (fun _ => h.bound p (by simp [hst]))
    simp_all [Pc.allows]
  | yield p hrun hpc =>
    refine h.put ?_ (fun _ => h.bound p (by simp [hrun]))
    cases hc : s.pc p <;> simp_all [Pc.allows, Pc.holds, Pc.preemptible]
  | killed i hi =>
    obtain ⟨hk, -⟩ | ⟨hk, hst⟩ := kill_cases (s.procs i)
    · exact h.put_same hk
    · exact h.wake hst hk
  | forkFailed p np hrun hpc hnp hun =>
    have hp : Placed (s.put np (s.procs np).freeproc) := h.put_same (by rw [hun]; rfl)
    exact { hp with }
  | forked p np hrun hpc hnp hun =>
    have hg := h.forked (r := { s.procs np with pid := s.nextpid, state := .used }) hrun hpc hnp
      hun rfl
    exact { hg with }
  | published p np ok hrun hpc hfree =>
    have hp : Placed (s.put np { s.procs np with parent := some p }) := h.put_same rfl
    have hg := hp.stay (p := p) (c := .parented np) ((put_state (by rfl) p).trans hrun) (by simp)
      (by simp [Sys.put, hpc, Pc.holds])
    exact { hg with }
  | started p np ok hrun hpc =>
    have hu := hf.used p np (by rw [hpc]; rfl)
    have hne : p ≠ np := Table.ne_of_state hrun hu (by simp)
    have hp : Placed (s.setState np .runnable) := by
      refine h.put ?_ (fun _ => h.bound np (by simp [hu]))
      rw [h.idle_used hu]
      rfl
    exact hp.stay (by simpa [Sys.setState, Sys.put, hne] using hrun) (by simp)
      (by simp [Sys.setState, Sys.put, hpc, Pc.holds])
  | handed p status i ok hrun hpc hi hparent =>
    have hp : Placed (s.put i { s.procs i with parent := some initproc }) := h.put_same rfl
    have hg := hp.stay (p := p) (c := .wakingInit status i 0) ((put_state (by rfl) p).trans hrun)
      (by simp) (by simp [Sys.put, hpc, Pc.holds])
    exact { hg with }
  | wokeInit p status i j ok hrun hpc hj =>
    exact (h.wakeSlot p (some initproc) j).stay (by simpa using hrun) (by simp)
      (by simp [hpc, Pc.holds])
  | wokeParent p status j ok hrun hpc hj =>
    exact (h.wakeSlot p (s.procs p).parent j).stay (by simpa using hrun) (by simp)
      (by simp [hpc, Pc.holds])
  | exited p status ok hrun hpc =>
    have hb := h.become (r := { s.procs p with xstate := status, state := .zombie }) (c := .dead)
      hrun rfl (h.release (by rw [hpc]; rfl) rfl)
    exact { hb with }
  | reaped p i havekids hrun hpc hi hparent hst =>
    have hne : p ≠ i := Table.ne_of_state hrun hst (by simp)
    have hp : Placed (s.put i (s.procs i).freeproc) := by
      have hfit := h.fits i
      rw [hst] at hfit
      refine h.put ?_ (fun hu => absurd rfl hu)
      simp_all [Pc.allows, Proc.freeproc]
    have hg := hp.goto (p := p) (c := .user) (by simpa [Sys.put, hne] using hrun) (by simp)
      (hp.release (by simp [Sys.put, hpc, Pc.holds]) rfl)
    exact { hg with }
  | slept p ok hrun hpc => exact h.become hrun rfl (h.release (by rw [hpc]; rfl) rfl)
  | resumed p ok hrun hpc =>
    exact h.become hrun (by simp [hrun, Pc.allows]) (h.keep_lock (by rw [hpc]; rfl))
  | gaveUp p i havekids ok hrun hpc =>
    exact h.goto hrun (by simp) (h.release (by rw [hpc]; rfl) rfl)
  | exiting p status hrun hpc hp hfree => exact h.goto hrun (by simp) (h.acquire hfree rfl)
  | waiting p hrun hpc hfree => exact h.goto hrun (by simp) (h.acquire hfree rfl)
  | reacquired p ok hrun hpc hfree => exact h.goto hrun (by simp) (h.acquire hfree rfl)
  | passed p status i ok hrun hpc hi hparent => exact h.stay hrun (by simp) (by rw [hpc]; rfl)
  | handedAll p status i ok hrun hpc hi => exact h.stay hrun (by simp) (by rw [hpc]; rfl)
  | wokeInitAll p status i j ok hrun hpc hj => exact h.stay hrun (by simp) (by rw [hpc]; rfl)
  | wokeParentAll p status j ok hrun hpc hj => exact h.stay hrun (by simp) (by rw [hpc]; rfl)
  | looked p i havekids havekids' ok hrun hpc hst => exact h.stay hrun (by simp) (by rw [hpc]; rfl)
  | decided p i ok hrun hpc hi => exact h.stay hrun (by simp) (by rw [hpc]; rfl)

structure Coherent (s : Sys) : Prop extends Forking s, Placed s

theorem coherent_step (h : Coherent s) (hm : Moves s a t) : Coherent t :=
  ⟨forking_step h.toForking hm, placed_step h.toPlaced h.toForking hm⟩

end Xv6.Lifecycle
