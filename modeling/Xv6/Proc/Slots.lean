import Xv6.Proc.Family

namespace Xv6.Lifecycle

open Function

/-- A slot that holds a process, whatever it does. -/
def InUse (s : Sys) (i : Nat) : Prop := (s.procs i).state ≠ .unused

instance (s : Sys) (i : Nat) : Decidable (InUse s i) := inferInstanceAs (Decidable (_ ≠ _))

/-- What one step does to one slot. -/
inductive Slot (s : Sys) (a : Act) (t : Sys) (i : Nat) : Prop where
  | kept (hpid : (t.procs i).pid = (s.procs i).pid)
      (hkilled : (t.procs i).killed = (s.procs i).killed) (huse : InUse t i ↔ InUse s i)
      (hexit : (t.procs i).state = .zombie →
        (s.procs i).state = .zombie ∨ (s.pc i).exiting = true)
  | killed (ha : a = .kill i) (h : t.procs i = (s.procs i).kill)
  | freed (hst : (s.procs i).state = .unused ∨ (s.procs i).state = .zombie)
      (h : t.procs i = {})
  | born (p : Nat) (ha : a = .fork p i true) (hun : (s.procs i).state = .unused)
      (h : t.procs i = { s.procs i with pid := s.nextpid, state := .used })

theorem Slot.same (h : t.procs i = s.procs i) : Slot s a t i :=
  .kept (by rw [h]) (by rw [h]) (by rw [InUse, InUse, h]) (by rw [h]; exact .inl)

theorem put_self {s : Sys} : (s.put i r).procs i = r := update_self ..

theorem put_of_ne {s : Sys} (h : j ≠ i) : (s.put i r).procs j = s.procs j :=
  update_of_ne h ..

theorem Slot.put {t : Sys} (j : Nat) (ht : t.procs = (s.put i r).procs)
    (hpid : r.pid = (s.procs i).pid) (hk : r.killed = (s.procs i).killed)
    (hr : r.state ≠ .unused) (hs : InUse s i)
    (hz : r.state = .zombie → (s.pc i).exiting = true) : Slot s a t j := by
  rcases eq_or_ne j i with rfl | hne
  · apply Slot.kept
    · rw [ht, put_self, hpid]
    · rw [ht, put_self, hk]
    · rw [InUse, ht, put_self]
      exact ⟨fun _ => hs, fun _ => hr⟩
    · rw [ht, put_self]
      exact fun h => .inr (hz h)
  · apply Slot.same
    rw [ht, put_of_ne hne]

theorem Slot.rewrite {t : Sys} (j : Nat) (ht : t.procs = (s.put i r).procs)
    (hpid : r.pid = (s.procs i).pid) (hk : r.killed = (s.procs i).killed)
    (hst : r.state = (s.procs i).state) : Slot s a t j := by
  rcases eq_or_ne j i with rfl | hne
  · apply Slot.kept
    · rw [ht, put_self, hpid]
    · rw [ht, put_self, hk]
    · rw [InUse, InUse, ht, put_self, hst]
    · rw [ht, put_self, hst]
      exact .inl
  · apply Slot.same
    rw [ht, put_of_ne hne]

theorem Slot.wake {t : Sys} (i : Nat) (ht : t.procs = (s.wakeSlot p q j).procs) :
    Slot s a t i := by
  obtain he | ⟨hs, -, -, he⟩ := wakeSlot_cases s p q j
  · exact .same (by rw [ht, he])
  · rw [he] at ht
    exact Slot.put i ht rfl rfl (by simp) (by simp [InUse, hs]) (by simp)

theorem Moves.slot (hf : Forking s) (h : Moves s a t) (i : Nat) : Slot s a t i := by
  have running : ∀ {p}, (s.procs p).state = .running → InUse s p := by
    intro p hp
    simp [InUse, hp]
  cases h with
  | sched p hst => exact Slot.put i rfl rfl rfl (by simp) (by simp [InUse, hst]) (by simp)
  | yield p hrun hpc => exact Slot.put i rfl rfl rfl (by simp) (running hrun) (by simp)
  | killed j hj =>
    rcases eq_or_ne i j with rfl | hne
    · exact .killed rfl put_self
    · exact .same (put_of_ne hne)
  | forkFailed p np hrun hpc hnp hun =>
    rcases eq_or_ne i np with rfl | hne
    · exact .freed (.inl hun) put_self
    · exact .same (put_of_ne hne)
  | forked p np hrun hpc hnp hun =>
    rcases eq_or_ne i np with rfl | hne
    · exact .born p rfl hun put_self
    · exact .same (put_of_ne hne)
  | published p np ok hrun hpc hfree => exact Slot.rewrite i rfl rfl rfl rfl
  | started p np ok hrun hpc =>
    have hu : (s.procs np).state = .used := hf.used p np (by rw [hpc]; rfl)
    exact Slot.put i rfl rfl rfl (by simp) (by simp [InUse, hu]) (by simp)
  | handed p status j ok hrun hpc hi hparent => exact Slot.rewrite i rfl rfl rfl rfl
  | wokeInit p status j k ok hrun hpc hj => exact Slot.wake i rfl
  | wokeParent p status k ok hrun hpc hj => exact Slot.wake i rfl
  | exited p status ok hrun hpc =>
    exact Slot.put i rfl rfl rfl (by simp) (running hrun) (fun _ => by rw [hpc]; rfl)
  | reaped p j havekids hrun hpc hi hparent hst =>
    rcases eq_or_ne i j with rfl | hne
    · exact .freed (.inr hst) put_self
    · exact .same (put_of_ne hne)
  | slept p ok hrun hpc =>
    exact Slot.put i rfl rfl rfl (by simp [Proc.sleep]) (running hrun) (by simp [Proc.sleep])
  | resumed p ok hrun hpc => exact Slot.rewrite i rfl rfl rfl rfl
  | _ => exact .same rfl

theorem forked_slot (h : Moves s (.fork p np true) t) : (s.procs np).state = .unused ∧
    t.procs np = { s.procs np with pid := s.nextpid, state := .used } := by
  cases h with
  | forked _ _ hrun hpc hnp hun => exact ⟨hun, put_self⟩

theorem kill_inUse {r : Proc} : r.kill.state ≠ .unused ↔ r.state ≠ .unused := by
  obtain ⟨hk, -⟩ | ⟨hk, hs⟩ := kill_cases r
  · rw [hk]
  · simp [hk, hs]

theorem Slot.pid (h : Slot s a t i) (hu : InUse t i) :
    InUse s i ∧ (t.procs i).pid = (s.procs i).pid ∨
      (∃ p, a = .fork p i true) ∧ (t.procs i).pid = s.nextpid := by
  cases h with
  | kept hpid hkilled huse hexit => exact .inl ⟨huse.mp hu, hpid⟩
  | killed ha h =>
    rw [InUse, h, kill_inUse] at hu
    rw [h]
    exact .inl ⟨hu, rfl⟩
  | freed hst h =>
    rw [InUse, h] at hu
    exact absurd rfl hu
  | born p ha hun h => exact .inr ⟨⟨p, ha⟩, by rw [h]⟩

theorem exiting_goto {s t : Sys} (hpc : t.pc = update s.pc p c)
    (hc : c.exiting = true → (s.pc p).exiting = true) (h : (t.pc i).exiting = true) :
    (s.pc i).exiting = true := by
  rw [hpc] at h
  rcases eq_or_ne i p with rfl | hne
  · rw [update_self] at h
    exact hc h
  · rwa [update_of_ne hne] at h

/-- A process is inside exit() if it was there before, or has just called it. -/
theorem Moves.exiting_of (hm : Moves s a t) (h : (t.pc i).exiting = true) :
    (s.pc i).exiting = true ∨ ∃ status, a = .exit i status := by
  cases hm with
  | exiting p status hrun hpc hp hfree =>
    rcases eq_or_ne i p with rfl | hne
    · exact .inr ⟨status, rfl⟩
    · left
      rwa [show (_ : Sys).pc i = s.pc i from update_of_ne hne ..] at h
  | sched | yield | killed | forkFailed => exact .inl h
  | forked p np hrun hpc hnp hun =>
    left
    have h1 := exiting_goto (p := p) (c := .forked np) rfl (fun hx => by cases hx) h
    exact exiting_goto (p := np) (c := .user) rfl (fun hx => by cases hx) h1
  | handed p status j ok hrun hpc hi hparent =>
    exact .inl (exiting_goto rfl (fun _ => by rw [hpc]; rfl) h)
  | passed p status j ok hrun hpc hi hparent =>
    exact .inl (exiting_goto rfl (fun _ => by rw [hpc]; rfl) h)
  | handedAll p status j ok hrun hpc hi =>
    exact .inl (exiting_goto rfl (fun _ => by rw [hpc]; rfl) h)
  | wokeInit p status j k ok hrun hpc hj =>
    have hg : ((s.wakeSlot p (some initproc) k).goto p (.wakingInit status j (k + 1))).pc =
        update s.pc p (.wakingInit status j (k + 1)) := by rw [Sys.goto, wakeSlot_pc]
    exact .inl (exiting_goto hg (fun _ => by rw [hpc]; rfl) h)
  | wokeInitAll p status j k ok hrun hpc hj =>
    exact .inl (exiting_goto rfl (fun _ => by rw [hpc]; rfl) h)
  | wokeParent p status k ok hrun hpc hj =>
    have hg : ((s.wakeSlot p (s.procs p).parent k).goto p (.wakingParent status (k + 1))).pc =
        update s.pc p (.wakingParent status (k + 1)) := by rw [Sys.goto, wakeSlot_pc]
    exact .inl (exiting_goto hg (fun _ => by rw [hpc]; rfl) h)
  | wokeParentAll p status k ok hrun hpc hj =>
    exact .inl (exiting_goto rfl (fun _ => by rw [hpc]; rfl) h)
  | published | started | exited | waiting | reaped | gaveUp | looked | decided | slept | resumed
  | reacquired => exact .inl (exiting_goto rfl (fun hx => by cases hx) h)

end Xv6.Lifecycle
