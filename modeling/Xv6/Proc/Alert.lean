import Xv6.Proc.Family

namespace Xv6.Lifecycle
open Lib

/-- How many slots exit()'s wakeup of the parent has been through. -/
def Pc.told : Pc → Nat
  | .wakingParent _ j => j
  | .marking _ => NPROC
  | _ => 0

/-- How many slots wait()'s scan has been through without an exited child. -/
def Pc.seen : Pc → Nat
  | .scanning i _ => i
  | .toSleep => NPROC
  | _ => 0

/-- A process asleep in wait() has no exited child, unless exit() is just handing that child
to init and its wakeup has still to reach init. -/
structure Alert (s : Sys) : Prop where
  own : ∀ q, (s.procs q).state = .sleeping → (s.procs q).chan = some (.proc q)
  told : ∀ p q, (s.procs p).parent = some q → q < (s.pc p).told → (s.procs q).state ≠ .sleeping
  seen : ∀ p i, i < (s.pc p).seen → (s.procs i).parent = some p → (s.procs i).state ≠ .zombie
  awake : ∀ q i, (s.procs q).state = .sleeping → (s.procs i).parent = some q →
    (s.procs i).state = .zombie →
    q = initproc ∧ ∃ h status k j, s.pc h = .wakingInit status k j ∧ j ≤ initproc

theorem Pc.holds_of_told {c : Pc} (h : q < c.told) : c.holds = true := by
  cases c <;> simp [Pc.told, Pc.holds] at h ⊢

theorem Pc.holds_of_seen {c : Pc} (h : i < c.seen) : c.holds = true := by
  cases c <;> simp [Pc.seen, Pc.holds] at h ⊢

theorem Coherent.unique (h : Coherent s) (hp : (s.pc p).holds = true)
    (hq : (s.pc q).holds = true) : p = q := by
  have hlp := (h.lock p).mpr hp
  rw [(h.lock q).mpr hq] at hlp
  exact (Option.some.inj hlp).symm

theorem Alert.put {r : Proc} (h : Alert s)
    (hp : r.parent = none ∨ r.parent = (s.procs i).parent)
    (hs : r.state = .sleeping → (s.procs i).state = .sleeping ∧ r.chan = (s.procs i).chan)
    (hz : r.state = .zombie → (s.procs i).state = .zombie) : Alert (s.put i r) := by
  have hparent : ∀ j q, ((s.put i r).procs j).parent = some q →
      (s.procs j).parent = some q := by
    intro j q hq
    rcases eq_or_ne j i with rfl | hj
    · rcases hp with hp | hp
      · simp [Sys.put, hp] at hq
      · simpa [Sys.put, hp] using hq
    · simpa [Sys.put, hj] using hq
  have hsleep : ∀ j, ((s.put i r).procs j).state = .sleeping → (s.procs j).state = .sleeping := by
    intro j hj
    rcases eq_or_ne j i with rfl | hji
    · exact (hs (by simpa [Sys.put] using hj)).1
    · simpa [Sys.put, hji] using hj
  have hzombie : ∀ j, ((s.put i r).procs j).state = .zombie → (s.procs j).state = .zombie := by
    intro j hj
    rcases eq_or_ne j i with rfl | hji
    · exact hz (by simpa [Sys.put] using hj)
    · simpa [Sys.put, hji] using hj
  refine ⟨fun q hq => ?_, fun p q hpq hq hs' => ?_, fun p j hj hpj hzj => ?_,
    fun q j hq hj hzj => ?_⟩
  · rcases eq_or_ne q i with rfl | hqi
    · have hr := hs (by simpa [Sys.put] using hq)
      simpa [Sys.put, hr.2] using h.own q hr.1
    · simpa [Sys.put, hqi] using h.own q (hsleep q hq)
  · exact h.told p q (hparent p q hpq) hq (hsleep q hs')
  · exact h.seen p j hj (hparent j p hpj) (hzombie j hzj)
  · exact h.awake q j (hsleep q hq) (hparent j q hj) (hzombie j hzj)

theorem Alert.goto {c : Pc} (h : Alert s)
    (ht : ∀ q, (s.procs p).parent = some q → q < c.told → (s.procs q).state ≠ .sleeping)
    (hs : ∀ i, i < c.seen → (s.procs i).parent = some p → (s.procs i).state ≠ .zombie)
    (hw : ∀ status k j, s.pc p = .wakingInit status k j → j ≤ initproc →
      (s.procs initproc).state = .sleeping →
      ∃ status k j, c = .wakingInit status k j ∧ j ≤ initproc) :
    Alert ({ s with waitLock := l }.goto p c) := by
  refine ⟨h.own, fun p' q hq hlt => ?_, fun p' i hi => ?_, fun q i hq hi hz => ?_⟩
  · rcases eq_or_ne p' p with rfl | hp
    · exact ht q hq (by simpa [Sys.goto] using hlt)
    · exact h.told p' q hq (by simpa [Sys.goto, hp] using hlt)
  · rcases eq_or_ne p' p with rfl | hp
    · exact hs i (by simpa [Sys.goto] using hi)
    · exact h.seen p' i (by simpa [Sys.goto, hp] using hi)
  · obtain ⟨rfl, h', status, k, j, hpc, hj⟩ := h.awake q i hq hi hz
    refine ⟨rfl, ?_⟩
    rcases eq_or_ne h' p with rfl | hp
    · obtain ⟨status', k', j', hc, hj'⟩ := hw status k j hpc hj hq
      exact ⟨h', status', k', j', by simp [Sys.goto, hc], hj'⟩
    · exact ⟨h', status, k, j, by simpa [Sys.goto, hp] using hpc, hj⟩

theorem Alert.settle {c : Pc} (h : Alert s) (ht : c.told = 0) (hs : c.seen = 0)
    (hw : ∀ status k j, s.pc p ≠ .wakingInit status k j) :
    Alert ({ s with waitLock := l }.goto p c) := by
  refine h.goto (fun q _ hq => ?_) (fun i hi => ?_)
    (fun status k j hpc => absurd hpc (hw status k j))
  · rw [ht] at hq
    exact absurd hq (Nat.not_lt_zero q)
  · rw [hs] at hi
    exact absurd hi (Nat.not_lt_zero i)

theorem Alert.adopt (h : Alert s)
    (ht : q < (s.pc i).told → (s.procs q).state ≠ .sleeping)
    (hs : i < (s.pc q).seen → (s.procs i).state ≠ .zombie)
    (ha : (s.procs q).state = .sleeping → (s.procs i).state = .zombie →
      q = initproc ∧ ∃ h status k j, s.pc h = .wakingInit status k j ∧ j ≤ initproc) :
    Alert (s.put i { s.procs i with parent := some q }) := by
  have hst : ∀ j, ((s.put i { s.procs i with parent := some q }).procs j).state =
      (s.procs j).state := put_state rfl
  refine ⟨fun j hj => ?_, fun p j hj hlt => ?_, fun p j hj hp => ?_, fun j k hj hk hz => ?_⟩
  · rw [hst] at hj
    rcases eq_or_ne j i with rfl | hji
    · simpa [Sys.put] using h.own j hj
    · simpa [Sys.put, hji] using h.own j hj
  · rw [hst]
    rcases eq_or_ne p i with rfl | hpi
    · have he : q = j := by simpa [Sys.put] using hj
      subst he
      exact ht hlt
    · exact h.told p j (by simpa [Sys.put, hpi] using hj) hlt
  · rw [hst]
    rcases eq_or_ne j i with rfl | hji
    · have he : q = p := by simpa [Sys.put] using hp
      subst he
      exact hs hj
    · exact h.seen p j hj (by simpa [Sys.put, hji] using hp)
  · rw [hst] at hj hz
    rcases eq_or_ne k i with rfl | hki
    · have he : q = j := by simpa [Sys.put] using hk
      subst he
      exact ha hj hz
    · exact h.awake j k hj (by simpa [Sys.put, hki] using hk) hz

/-- The parent of a process that exits has been woken, and nobody sleeps while wait_lock is
held. -/
theorem Alert.die (h : Alert s) (hc : Coherent s) (hpc : s.pc p = .marking status) :
    Alert (s.put p { s.procs p with xstate := status, state := .zombie }) := by
  have hsleep : ∀ q, ((s.put p { s.procs p with xstate := status, state := .zombie }).procs q).state
      = .sleeping → q ≠ p ∧ (s.procs q).state = .sleeping := by
    intro q hq
    rcases eq_or_ne q p with rfl | hqp
    · simp [Sys.put] at hq
    · exact ⟨hqp, by simpa [Sys.put, hqp] using hq⟩
  have hparent : ∀ q,
      ((s.put p { s.procs p with xstate := status, state := .zombie }).procs q).parent =
        (s.procs q).parent := by
    intro q
    rcases eq_or_ne q p with rfl | hqp
    · simp [Sys.put]
    · simp [Sys.put, hqp]
  refine ⟨fun q hq => ?_, fun p' q hq hlt hs => ?_, fun p' i hi hp => ?_, fun q i hq hi hz => ?_⟩
  · obtain ⟨hqp, hq⟩ := hsleep q hq
    simpa [Sys.put, hqp] using h.own q hq
  · rw [hparent] at hq
    exact h.told p' q hq hlt (hsleep q hs).2
  · rw [hparent] at hp
    rcases eq_or_ne i p with rfl | hip
    · have he : p' = i := hc.unique (Pc.holds_of_seen hi) (by rw [hpc]; rfl)
      subst he
      simp [Sys.put, hpc, Pc.seen] at hi
    · simpa [Sys.put, hip] using h.seen p' i hi hp
  · rw [hparent] at hi
    have hq' := (hsleep q hq).2
    rcases eq_or_ne i p with rfl | hip
    · have hlt : q < (s.pc i).told := by
        rw [hpc]
        exact hc.bound q (by simp [hq'])
      exact absurd hq' (h.told i q hi hlt)
    · exact h.awake q i hq' hi (by simpa [Sys.put, hip] using hz)

/-- A process that goes to sleep in wait() has just seen that no child has exited. -/
theorem Alert.doze (h : Alert s) (hc : Coherent s) (hpc : s.pc p = .toSleep) :
    Alert (s.put p ((s.procs p).sleep (.proc p))) := by
  have hparent : ∀ q, ((s.put p ((s.procs p).sleep (.proc p))).procs q).parent
      = (s.procs q).parent := by
    intro q
    rcases eq_or_ne q p with rfl | hqp
    · simp [Sys.put, Proc.sleep]
    · simp [Sys.put, hqp]
  have hzombie : ∀ q, ((s.put p ((s.procs p).sleep (.proc p))).procs q).state = .zombie →
      (s.procs q).state = .zombie := by
    intro q hq
    rcases eq_or_ne q p with rfl | hqp
    · simp [Sys.put, Proc.sleep] at hq
    · simpa [Sys.put, hqp] using hq
  refine ⟨fun q hq => ?_, fun p' q hq hlt => ?_, fun p' i hi hp hz => ?_, fun q i hq hi hz => ?_⟩
  · rcases eq_or_ne q p with rfl | hqp
    · simp [Sys.put, Proc.sleep]
    · simpa [Sys.put, hqp] using h.own q (by simpa [Sys.put, hqp] using hq)
  · rw [hparent] at hq
    rcases eq_or_ne q p with rfl | hqp
    · have he : p' = q := hc.unique (Pc.holds_of_told hlt) (by rw [hpc]; rfl)
      subst he
      simp [Sys.put, hpc, Pc.told] at hlt
    · simpa [Sys.put, hqp] using h.told p' q hq hlt
  · rw [hparent] at hp
    exact h.seen p' i hi hp (hzombie i hz)
  · rw [hparent] at hi
    rcases eq_or_ne q p with rfl | hqp
    · have hlt : i < (s.pc q).seen := by
        rw [hpc]
        exact hc.bound i (by simp [hzombie i hz])
      exact absurd (hzombie i hz) (h.seen q i hlt hi)
    · exact h.awake q i (by simpa [Sys.put, hqp] using hq) hi (hzombie i hz)

theorem Alert.wakeSlot (h : Alert s) (p : Nat) (q : Option Nat) (j : Nat) :
    Alert (s.wakeSlot p q j) := by
  obtain he | ⟨-, -, -, he⟩ := wakeSlot_cases s p q j
  · rw [he]
    exact h
  · rw [he]
    exact h.put (Or.inr rfl) nofun nofun

/-- The section of wakeup() on the slot it is meant for. -/
theorem Alert.woken (h : Alert s) (hrun : (s.procs p).state = .running) :
    ((s.wakeSlot p (some q) q).procs q).state ≠ .sleeping := by
  rcases eq_or_ne q p with rfl | hqp
  · simp [hrun]
  · by_cases hq : (s.procs q).state = .sleeping
    · simp [Sys.wakeSlot, hqp, Sys.put, Proc.wakeup, hq, h.own q hq]
    · simp [Sys.wakeSlot, hqp, Sys.put, Proc.wakeup, hq]

/-- reparent() gives slot i to init, which may be asleep until the wakeup that comes next. -/
theorem Alert.hand (h : Alert s) (hc : Coherent s) (hp : p ≠ initproc)
    (hpc : s.pc p = .reparenting status i) :
    Alert ((s.goto p (.wakingInit status i 0)).put i
      { s.procs i with parent := some initproc }) := by
  have hhold : ∀ q, q ≠ p → (s.pc q).holds ≠ true := by
    intro q hq hh
    exact hq (hc.unique hh (by rw [hpc]; rfl))
  have hgo : Alert (s.goto p (.wakingInit status i 0)) := h.settle rfl rfl (by simp [hpc])
  refine hgo.adopt (fun ht => ?_) (fun hs => ?_) (fun _ _ => ⟨rfl, p, status, i, 0, ?_⟩)
  · rcases eq_or_ne i p with rfl | hip
    · simp [Sys.goto, Pc.told] at ht
    · exact absurd (Pc.holds_of_told (by simpa [Sys.goto, hip] using ht)) (hhold i hip)
  · exact absurd (Pc.holds_of_seen (by simpa [Sys.goto, Ne.symm hp] using hs))
      (hhold initproc (Ne.symm hp))
  · simp [Sys.goto]

/-- wakeup(p->parent) has been through slot j. -/
theorem Alert.tell (h : Alert s) (hrun : (s.procs p).state = .running)
    (hpc : s.pc p = .wakingParent status j) :
    Alert ((s.wakeSlot p (s.procs p).parent j).goto p (.wakingParent status (j + 1))) := by
  have hw := h.wakeSlot p (s.procs p).parent j
  refine hw.goto (fun q hq hlt => ?_) (by simp [Pc.seen]) (by simp [hpc])
  rw [wakeSlot_self] at hq
  rcases eq_or_ne q j with rfl | hne
  · rw [hq]
    exact h.woken hrun
  · have hlt' : q < ((s.wakeSlot p (s.procs p).parent j).pc p).told := by
      rw [wakeSlot_pc, hpc]
      simp only [Pc.told] at hlt ⊢
      omega
    exact hw.told p q (by rw [wakeSlot_self]; exact hq) hlt'

theorem alert_step (h : Alert s) (hc : Coherent s) (hf : Family s) (hm : Moves s a t) :
    Alert t := by
  cases hm with
  | sched p hst => exact h.put (Or.inr rfl) (by simp) (by simp)
  | yield p hrun hpc => exact h.put (Or.inr rfl) (by simp) (by simp)
  | killed i hi =>
    obtain ⟨hk, hs⟩ | ⟨hk, -⟩ := kill_cases (s.procs i)
    · exact h.put (Or.inr rfl) (by simp [hk, hs]) (by simp [hk])
    · exact h.put (Or.inr rfl) (by simp [hk]) (by simp [hk])
  | forkFailed p np hrun hpc hnp hun =>
    have hp : Alert (s.put np (s.procs np).freeproc) :=
      h.put (Or.inl rfl) (by simp [Proc.freeproc]) (by simp [Proc.freeproc])
    exact { hp with }
  | forked p np hrun hpc hnp hun =>
    have hne : p ≠ np := Table.ne_of_state hrun hun (by simp)
    have hfree := hc.idle hun
    have hput : Alert (s.put np { s.procs np with pid := s.nextpid, state := .used }) :=
      h.put (Or.inr rfl) (by simp) (by simp)
    have hnew : Alert ((s.put np { s.procs np with pid := s.nextpid, state := .used }).goto np
        .user) :=
      hput.settle rfl rfl (by rcases hfree with hf | hf <;> simp [Sys.put, hf])
    have hgo := hnew.settle (p := p) (c := .forked np) (l := s.waitLock) rfl rfl
      (by simp [Sys.goto, Sys.put, hne, hpc])
    exact { hgo with }
  | published p np ok hrun hpc hfree =>
    have hu := hc.used p np (by rw [hpc]; rfl)
    have hnp := hc.idle_used hu
    have ha : Alert (s.put np { s.procs np with parent := some p }) :=
      h.adopt (by simp [hnp, Pc.told]) (by simp [hu]) (by simp [hu])
    have hg := ha.settle (p := p) (c := .parented np) (l := s.waitLock) rfl rfl
      (by simp [Sys.put, hpc])
    exact { hg with }
  | started p np ok hrun hpc =>
    have hp : Alert (s.setState np .runnable) := h.put (Or.inr rfl) (by simp) (by simp)
    exact hp.settle rfl rfl (by simp [Sys.setState, Sys.put, hpc])
  | exiting p status hrun hpc hp hfree => exact h.settle rfl rfl (by simp [hpc])
  | handed p status i ok hrun hpc hi hparent =>
    have ha := h.hand hc (hf.not_init (by rw [hpc]; rfl)) hpc
    exact { ha with }
  | passed p status i ok hrun hpc hi hparent => exact h.settle rfl rfl (by simp [hpc])
  | handedAll p status i ok hrun hpc hi => exact h.settle rfl rfl (by simp [hpc])
  | wokeInit p status i j ok hrun hpc hj =>
    refine (h.wakeSlot p (some initproc) j).goto (by simp [Pc.told]) (by simp [Pc.seen])
      (fun status' k j' hpc' hj' hs => ⟨status, i, j + 1, rfl, ?_⟩)
    rw [wakeSlot_pc, hpc] at hpc'
    cases hpc'
    rcases eq_or_ne j initproc with rfl | hne
    · exact absurd hs (h.woken hrun)
    · omega
  | wokeInitAll p status i j ok hrun hpc hj =>
    refine h.goto (by simp [Pc.told]) (by simp [Pc.seen]) (fun status' k j' hpc' hj' hs => ?_)
    rw [hpc] at hpc'
    cases hpc'
    have hn : initproc < NPROC := by decide
    omega
  | wokeParent p status j ok hrun hpc hj => exact h.tell hrun hpc
  | wokeParentAll p status j ok hrun hpc hj =>
    refine h.goto (fun q hq hlt => h.told p q hq ?_) (by simp [Pc.seen]) (by simp [hpc])
    rw [hpc]
    exact Nat.lt_of_lt_of_le hlt hj
  | exited p status ok hrun hpc =>
    have hg := (h.die hc hpc).settle (p := p) (c := .dead) (l := none) rfl rfl
      (by simp [Sys.put, hpc])
    exact { hg with }
  | waiting p hrun hpc hfree => exact h.settle rfl rfl (by simp [hpc])
  | reaped p i havekids hrun hpc hi hparent hst =>
    have hp : Alert (s.put i (s.procs i).freeproc) :=
      h.put (Or.inl rfl) (by simp [Proc.freeproc]) (by simp [Proc.freeproc])
    have hg := hp.settle (p := p) (c := .user) (l := none) rfl rfl (by simp [Sys.put, hpc])
    exact { hg with }
  | gaveUp p i havekids ok hrun hpc => exact h.settle rfl rfl (by simp [hpc])
  | looked p i havekids havekids' ok hrun hpc hst =>
    refine h.goto (by simp [Pc.told]) (fun k hk hpk => ?_) (by simp [hpc])
    rcases eq_or_ne k i with rfl | hki
    · exact hst hpk
    · have hlt : k < i := by
        simp only [Pc.seen] at hk
        omega
      exact h.seen p k (by rw [hpc]; exact hlt) hpk
  | decided p i ok hrun hpc hi =>
    refine h.goto (by simp [Pc.told]) (fun k hk hpk => h.seen p k ?_ hpk) (by simp [hpc])
    rw [hpc]
    exact Nat.lt_of_lt_of_le hk hi
  | slept p ok hrun hpc => exact (h.doze hc hpc).settle rfl rfl (by simp [Sys.put, hpc])
  | resumed p ok hrun hpc =>
    have hp : Alert (s.put p { s.procs p with chan := none }) :=
      h.put (Or.inr rfl) (by simp [hrun]) (by simp [hrun])
    exact hp.settle rfl rfl (by simp [Sys.put, hpc])
  | reacquired p ok hrun hpc hfree => exact h.settle rfl rfl (by simp [hpc])

end Xv6.Lifecycle
