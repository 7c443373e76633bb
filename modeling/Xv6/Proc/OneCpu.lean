import Xv6.Lib.Holders
import Xv6.Proc.Sched

namespace Xv6.Sched
open Function Lib Lifecycle

/-- The children in fork(): a child is USED and has one parent at work on it. -/
structure Brood (f : Nat → Option Nat) (procs : Table) : Prop where
  used : ∀ p q, f p = some q → (procs q).state = .used
  exclusive : Exclusive f

/-- A process that called exit() has not been given to a scheduler again. -/
def Retired (ctx : Nat → Ctx) (procs : Table) : Prop :=
  ∀ p, ctx p = .exit → (procs p).state = .zombie ∨ (procs p).state = .unused

/-- Who holds which lock, which process is whose, and who is RUNNING are all read off the
points of the cpus. -/
structure Inv (s : Sys) : Prop where
  locks : Owners s.lock (Point.holds ∘ s.pt)
  current : s.proc = Point.current ∘ s.pt
  running : Marks (Point.runs ∘ s.pt) (fun p => (s.procs p).state = .running)
  parted : ∀ c p, (s.pt c).parted = some p → (s.procs p).state ≠ .running
  brood : Brood (Forking.child ∘ s.forking) s.procs
  retired : Retired s.ctx s.procs

theorem goto_same {pt : Cpu → Point} {f : Point → Option Nat} (hpt : pt c = j)
    (hk : f k = f j) : f ∘ update pt c k = f ∘ pt := by
  rw [comp_update, hk, ← hpt]
  exact update_eq_self c (f ∘ pt)

theorem goto_new {f : Point → Option Nat} (hk : f k = v) (pt : Cpu → Point) (c : Cpu) :
    f ∘ update pt c k = update (f ∘ pt) c v := by
  rw [comp_update, hk]

theorem parted_holds (h : Point.parted k = some p) : k.holds = some p := by
  cases k <;> simp_all [Point.parted, Point.holds]

/-- A point that has c->proc and is not on its way out keeps its process RUNNING. -/
theorem current_cases (h : Point.current k = some p) : k.runs = some p ∨ k.parted = some p := by
  cases k <;> simp_all [Point.parted, Point.runs, Point.current]

theorem runs_cases (h : Point.runs k = some p) : k.holds = some p ∨ k.current = some p := by
  cases k <;> simp_all [Point.holds, Point.runs, Point.current]

theorem Inv.same_holds (h : Inv s) (hpt : s.pt c = j) (hk : k.holds = j.holds) :
    Owners s.lock (Point.holds ∘ update s.pt c k) := by
  rw [goto_same hpt hk]
  exact h.locks

theorem Inv.same_current (h : Inv s) (hpt : s.pt c = j) (hk : k.current = j.current) :
    s.proc = Point.current ∘ update s.pt c k := by
  rw [goto_same hpt hk]
  exact h.current

theorem locks_step (h : Inv s) (hm : Moves s c t) : Owners t.lock (Point.holds ∘ t.pt) := by
  cases hm with
  | glide j k hpt hh => exact h.same_holds hpt hh
  | setProc j k hpt hh => exact h.same_holds hpt hh
  | acquire q j k hq hpt hh hk =>
    change Owners (update s.lock q (some c)) (Point.holds ∘ update s.pt c k)
    rw [goto_new hk]
    exact h.locks.take hq (by simpa [hpt] using hh)
  | release q r j k hst hpt hh hk =>
    change Owners (update s.lock q none) (Point.holds ∘ update s.pt c k)
    rw [goto_new hk]
    exact h.locks.drop (by simpa [hpt] using hh)
  | pick p hpt => exact h.same_holds (k := .chosen p) hpt rfl
  | part p r x hpt => exact h.same_holds (k := .sched p) hpt rfl
  | edit | forkFailed | forked | adopt | forkRun | reap => exact h.locks

theorem current_step (h : Inv s) (hm : Moves s c t) : t.proc = Point.current ∘ t.pt := by
  cases hm with
  | glide j k hpt _ hc => exact h.same_current hpt hc
  | setProc j k hpt =>
    change update s.proc c k.current = Point.current ∘ update s.pt c k
    rw [comp_update, h.current]
  | acquire q j k _ hpt _ _ hc => exact h.same_current hpt hc
  | release q r j k _ hpt _ _ hc => exact h.same_current hpt hc
  | pick p hpt => exact h.same_current (k := .chosen p) hpt rfl
  | part p r x hpt => exact h.same_current (k := .sched p) hpt rfl
  | edit | forkFailed | forked | adopt | forkRun | reap => exact h.current

theorem running_put {procs : Table}
    (hr : r.state = .running ↔ (procs q).state = .running) (p : Nat) :
    (update procs q r p).state = .running ↔ (procs p).state = .running := by
  rcases eq_or_ne p q with rfl | hp
  · rw [update_self, hr]
  · rw [update_of_ne hp]

theorem running_swap {procs : Table} (hq : (procs q).state ≠ .running) (hr : r.state ≠ .running)
    (p : Nat) :
    (update procs q r p).state = .running ↔ (procs p).state = .running :=
  running_put (iff_of_false hr hq) p

theorem edit_running {old new : ProcState} (h : new = old ∨ old = .sleeping ∧ new = .runnable) :
    new = .running ↔ old = .running := by
  rcases h with rfl | ⟨rfl, rfl⟩
  · rfl
  · simp

theorem parted_goto {pt : Cpu → Point} (hk : k.parted = none ∨ k.parted = (pt c).parted)
    (d : Cpu) (p : Nat) (h : (update pt c k d).parted = some p) :
    (pt d).parted = some p := by
  rcases eq_or_ne d c with rfl | hd
  · rw [update_self] at h
    rcases hk with hk | hk
    · simp [hk] at h
    · rwa [← hk]
  · rwa [update_of_ne hd] at h

/-- A step that starts no process and stops none. -/
structure Calm (s t : Sys) : Prop where
  running : ∀ p, (t.procs p).state = .running ↔ (s.procs p).state = .running
  runs : Point.runs ∘ t.pt = Point.runs ∘ s.pt
  parted : ∀ d p, (t.pt d).parted = some p → (s.pt d).parted = some p

theorem calm_put {s t : Sys} (hpt : t.pt = s.pt)
    (h : ∀ p, (t.procs p).state = .running ↔ (s.procs p).state = .running) : Calm s t := by
  refine ⟨h, by rw [hpt], ?_⟩
  intro d p hd
  rwa [hpt] at hd

/-- A step starts the process it picked, stops the process it runs, or is calm. -/
inductive Turn (s : Sys) (c : Cpu) : Sys → Prop where
  | start (p : Nat) (hpt : s.pt c = .test p) (hst : (s.procs p).state = .runnable) :
      Turn s c ((s.put p { s.procs p with state := .running }).goto c (.chosen p))
  | stop (p : Nat) (r : Proc) (x : Ctx) (hpt : s.pt c = .own p) (hst : r.state ≠ .running) :
      Turn s c (s.part c p r x)
  | calm (t : Sys) (h : Calm s t) : Turn s c t

theorem turn_step (h : Inv s) (hm : Moves s c t) : Turn s c t := by
  cases hm with
  | glide j k hpt _ _ hr hp =>
    exact .calm _ ⟨fun p => Iff.rfl, goto_same hpt hr,
      parted_goto (Or.inr (hp.trans (by rw [hpt])))⟩
  | setProc j k hpt _ hr hp =>
    exact .calm _ ⟨fun p => Iff.rfl, goto_same hpt hr, parted_goto (Or.inl hp)⟩
  | acquire q j k _ hpt _ _ _ hr hp =>
    exact .calm _ ⟨fun p => Iff.rfl, goto_same hpt hr, parted_goto (Or.inl hp)⟩
  | release q r j k hst hpt _ _ _ hr hp =>
    exact .calm _ ⟨running_put (by rw [hst]), goto_same hpt hr, parted_goto (Or.inl hp)⟩
  | pick p hpt hst => exact .start p hpt hst
  | part p r x hpt hst => exact .stop p r x hpt hst
  | edit q r hst => exact .calm _ (calm_put rfl (running_put (edit_running hst)))
  | forkFailed q hst =>
    exact .calm _ (calm_put rfl (running_swap (by simp [hst]) (by simp [Proc.freeproc])))
  | forked p q hf hst => exact .calm _ (calm_put rfl (running_swap (by simp [hst]) (by simp)))
  | adopt p q hf => exact .calm _ (calm_put rfl (running_put Iff.rfl))
  | forkRun p q hf =>
    have hused := h.brood.used p q (by simp [hf, Forking.child])
    exact .calm _ (calm_put rfl (running_swap (by simp [hused]) (by simp)))
  | reap q hst =>
    exact .calm _ (calm_put rfl (running_swap (by simp [hst]) (by simp [Proc.freeproc])))

theorem running_step (h : Inv s) (hm : Moves s c t) :
    Marks (Point.runs ∘ t.pt) (fun p => (t.procs p).state = .running) := by
  cases turn_step h hm with
  | start p hpt hst =>
    change Marks (Point.runs ∘ update s.pt c (.chosen p)) _
    rw [goto_new (v := some p) rfl]
    refine h.running.take (by simp [hpt, Point.runs]) (by simp [hst]) (fun q => ?_)
    rcases eq_or_ne q p with rfl | hq
    · simp [Sys.put, Sys.goto]
    · simp [Sys.put, Sys.goto, hq]
  | stop p r x hpt hst =>
    change Marks (Point.runs ∘ update s.pt c (.sched p)) _
    rw [goto_new (v := none) rfl]
    refine h.running.drop (x := p) (by simp [hpt, Point.runs]) (fun q => ?_)
    rcases eq_or_ne q p with rfl | hq
    · simp [Sys.put, Sys.goto, Sys.part, hst]
    · simp [Sys.put, Sys.goto, Sys.part, hq]
  | calm _ hcalm =>
    rw [hcalm.runs]
    exact h.running.congr hcalm.running

/-- The scheduler that picks p holds p->lock, so that no other cpu is still leaving p. -/
theorem parted_step (h : Inv s) (hm : Moves s c t) (d : Cpu) (p : Nat)
    (hd : (t.pt d).parted = some p) : (t.procs p).state ≠ .running := by
  cases turn_step h hm with
  | start q hpt hst =>
    have hd' : (s.pt d).parted = some p := parted_goto (Or.inl rfl) d p hd
    have hpq : p ≠ q := by
      intro he
      have hdc := h.locks.exclusive d c p (parted_holds hd') (by simp [hpt, Point.holds, he])
      simp [hdc, hpt, Point.parted] at hd'
    change (update s.procs q _ p).state ≠ .running
    rw [update_of_ne hpq]
    exact h.parted d p hd'
  | stop q r x hpt hst =>
    change (update s.procs q r p).state ≠ .running
    rcases eq_or_ne p q with rfl | hpq
    · rwa [update_self]
    · rw [update_of_ne hpq]
      apply h.parted d p
      change (update s.pt c (.sched q) d).parted = some p at hd
      rcases eq_or_ne d c with rfl | hdc
      · rw [update_self] at hd
        exact absurd (Option.some.inj hd).symm hpq
      · rwa [update_of_ne hdc] at hd
  | calm _ hcalm =>
    rw [Ne, hcalm.running]
    exact h.parted d p (hcalm.parted d p hd)

theorem Brood.put (h : Brood f procs) (hi : (procs i).state = .used → r.state = .used) :
    Brood f (update procs i r) := by
  refine ⟨fun p q hp => ?_, h.exclusive⟩
  rcases eq_or_ne q i with rfl | hq
  · rw [update_self]
    exact hi (h.used p q hp)
  · rw [update_of_ne hq]
    exact h.used p q hp

theorem Brood.fork (h : Brood f procs) (hi : (procs i).state = .unused)
    (hr : r.state = .used) (p : Nat) :
    Brood (update f p (some i)) (update procs i r) := by
  have hfree : ∀ q, f q ≠ some i := by
    intro q hq
    simp [h.used q i hq] at hi
  refine ⟨fun q j hq => ?_, h.exclusive.take hfree p⟩
  rcases eq_or_ne q p with rfl | hqp
  · rw [update_self, Option.some.injEq] at hq
    rw [← hq, update_self, hr]
  · rw [update_of_ne hqp] at hq
    exact (h.put (fun _ => hr)).used q j hq

theorem Brood.forkRun (h : Brood f procs) (hp : f p = some i) (r : Proc) :
    Brood (update f p none) (update procs i r) := by
  refine ⟨fun q j hq => ?_, h.exclusive.drop p⟩
  rcases eq_or_ne q p with rfl | hqp
  · simp at hq
  · rw [update_of_ne hqp] at hq
    have hji : j ≠ i := by
      intro he
      rw [he] at hq
      exact hqp (h.exclusive q p i hq hp)
    rw [update_of_ne hji]
    exact h.used q j hq

theorem brood_step (h : Inv s) (hm : Moves s c t) : Brood (Forking.child ∘ t.forking) t.procs := by
  cases hm with
  | glide | setProc | acquire => exact h.brood
  | release i r j k hst => exact h.brood.put (by simp [hst])
  | pick i hpt hst => exact h.brood.put (by simp [hst])
  | part i r x hpt =>
    have hrun : (s.procs i).state = .running :=
      (h.running.marked i).mpr ⟨c, by simp [hpt, Point.runs]⟩
    exact h.brood.put (by simp [hrun])
  | edit i r hst =>
    refine h.brood.put (fun hu => ?_)
    rcases hst with hst | ⟨hsl, _⟩
    · rw [hst, hu]
    · simp [hu] at hsl
  | forkFailed i hst => exact h.brood.put (by simp [hst])
  | reap i hst => exact h.brood.put (by simp [hst])
  | forked p i hf hst =>
    change Brood (Forking.child ∘ update s.forking p (.forked i)) _
    rw [comp_update]
    exact h.brood.fork hst rfl p
  | adopt p i hf =>
    change Brood (Forking.child ∘ update s.forking p (.parented i)) _
    have hsame : update (Forking.child ∘ s.forking) p (Forking.parented i).child =
        Forking.child ∘ s.forking := by
      rw [update_eq_self_iff]
      simp [hf, Forking.child]
    rw [comp_update, hsame]
    exact h.brood.put (fun hu => hu)
  | forkRun p i hf =>
    change Brood (Forking.child ∘ update s.forking p .no) _
    rw [comp_update]
    exact h.brood.forkRun (by simp [hf, Forking.child]) _

theorem Retired.put (h : Retired ctx procs)
    (hi : ctx i = .exit → r.state = .zombie ∨ r.state = .unused) :
    Retired ctx (update procs i r) := by
  intro p hp
  rcases eq_or_ne p i with rfl | hpi
  · rw [update_self]
    exact hi hp
  · rw [update_of_ne hpi]
    exact h p hp

/-- A slot that is neither ZOMBIE nor UNUSED may take any state. -/
theorem Retired.put_live (h : Retired ctx procs) (hz : (procs i).state ≠ .zombie)
    (hu : (procs i).state ≠ .unused) (r : Proc) : Retired ctx (update procs i r) :=
  h.put (fun hx => by simpa [hz, hu] using h i hx)

theorem Retired.setCtx (h : Retired ctx procs) (hi : x = .exit → r.state = .zombie) :
    Retired (update ctx i x) (update procs i r) := by
  intro p hp
  rcases eq_or_ne p i with rfl | hpi
  · rw [update_self] at hp
    rw [update_self]
    exact Or.inl (hi hp)
  · rw [update_of_ne hpi] at hp
    rw [update_of_ne hpi]
    exact h p hp

theorem retired_step (h : Inv s) (hm : Moves s c t) : Retired t.ctx t.procs := by
  have hret := h.retired
  cases hm with
  | glide | setProc | acquire => exact hret
  | release i r j k hst => exact hret.put (fun hx => hst ▸ hret i hx)
  | pick i hpt hst => exact hret.put_live (by simp [hst]) (by simp [hst]) _
  | part i r x hpt hst hx => exact hret.setCtx hx
  | edit i r hst =>
    rcases hst with hst | ⟨hsl, _⟩
    · exact hret.put (fun hx => hst ▸ hret i hx)
    · exact hret.put_live (by simp [hsl]) (by simp [hsl]) r
  | forkFailed i hst => exact hret.put (fun _ => Or.inr rfl)
  | reap i hst => exact hret.put (fun _ => Or.inr rfl)
  | forked p i hf hst => exact hret.setCtx (by simp)
  | adopt p i hf => exact hret.put (fun hx => hret i hx)
  | forkRun p i hf =>
    have hused := h.brood.used p i (by simp [hf, Forking.child])
    exact hret.put_live (by simp [hused]) (by simp [hused]) _

theorem inv_step (h : Inv s) (hm : Moves s c t) : Inv t :=
  ⟨locks_step h hm, current_step h hm, running_step h hm, parted_step h hm, brood_step h hm,
    retired_step h hm⟩

theorem init_inv : Inv init where
  locks := by
    intro c p
    simp [init, Point.holds]
  current := rfl
  running := by
    refine ⟨fun p => ?_, fun c d p hc => by simp [init, Point.runs] at hc⟩
    rcases eq_or_ne p initproc with rfl | hp
    · simp [init, Point.runs]
    · simp [init, Point.runs, hp]
  parted := by simp [init, Point.parted]
  brood := by
    refine ⟨fun p q hp => ?_, fun c d p hc => ?_⟩
    · simp [init, Forking.child] at hp
    · simp [init, Forking.child] at hc
  retired := by simp [init, Retired]

theorem reachable_inv (h : run step init as = some s) : Inv s := by
  refine run_invariant (fun s a t hs ht => ?_) init_inv h
  exact inv_step hs (step_moves ht)

theorem Inv.exclusive (h : Inv s) : Exclusive s.proc := by
  rw [h.current]
  intro c d p hc hd
  have hclash : ∀ c d, (s.pt c).runs = some p → (s.pt d).parted ≠ some p := by
    intro c d hrun hpart
    exact h.parted d p hpart ((h.running.marked p).mpr ⟨c, hrun⟩)
  rcases current_cases hc with hcr | hcp
  · rcases current_cases hd with hdr | hdp
    · exact h.running.exclusive c d p hcr hdr
    · exact absurd hdp (hclash c d hcr)
  · rcases current_cases hd with hdr | hdp
    · exact absurd hcp (hclash d c hdr)
    · exact h.locks.exclusive c d p (parted_holds hcp) (parted_holds hdp)

/-- A cpu that is not in p->lock has p as its process only while p is RUNNING. -/
theorem Inv.running_of_free (h : Inv s) (hl : s.lock p = none) (hc : s.proc c = some p) :
    (s.procs p).state = .running := by
  rw [h.current] at hc
  rcases current_cases hc with hr | hp
  · exact (h.running.marked p).mpr ⟨c, hr⟩
  · have howner := (h.locks c p).mpr (parted_holds hp)
    simp [hl] at howner

theorem Inv.proc_of_running (h : Inv s) (hl : s.lock p = none)
    (hr : (s.procs p).state = .running) : ∃ c, s.proc c = some p := by
  obtain ⟨c, hc⟩ := (h.running.marked p).mp hr
  rcases runs_cases hc with hh | hp
  · have howner := (h.locks c p).mpr hh
    simp [hl] at howner
  · exact ⟨c, by rw [h.current]; exact hp⟩

theorem reap_cases (h : step s (c, .reap q) = some t) :
    (∃ p, s.pt c = .visit (some p) q) ∧ (s.procs q).state = .zombie := by
  cases hpt : s.pt c with
  | visit self i =>
    cases self with
    | none => simp [step, hpt] at h
    | some p =>
      simp only [step, hpt, inside, Option.ite_none_right_eq_some] at h
      obtain ⟨⟨rfl, _, _, hz⟩, _⟩ := h
      exact ⟨⟨p, rfl⟩, hz⟩
  | user p => simp [step, hpt, outside] at h
  | own p => simp [step, hpt, away] at h
  | loop | test | chosen | enter | resumed | sched | back | leave => simp [step, hpt] at h

/-- wait() frees q under q->lock, which the scheduler gives up only after c->proc = 0. -/
theorem Inv.reap_free (h : Inv s) (hs : step s (c, .reap q) = some t) (d : Cpu) :
    s.proc d ≠ some q := by
  obtain ⟨⟨p, hpt⟩, hz⟩ := reap_cases hs
  intro hd
  rw [h.current] at hd
  rcases current_cases hd with hr | hp
  · have hrun := (h.running.marked q).mpr ⟨d, hr⟩
    simp [hz] at hrun
  · have hdc := h.locks.exclusive d c q (parted_holds hp) (by simp [hpt, Point.holds])
    simp [hdc, hpt, Point.parted] at hp

structure OneCpu (s : Sys) : Prop where
  atMostOne : ∀ c d p, s.proc c = some p → s.proc d = some p → c = d
  running : ∀ p, s.lock p = none →
    ((s.procs p).state = .running ↔ ∃! c, s.proc c = some p)
  freed : ∀ c q t, step s (c, .reap q) = some t → ∀ d, s.proc d ≠ some q

theorem one_cpu (h : run step init as = some s) : OneCpu s := by
  have hi := reachable_inv h
  refine ⟨hi.exclusive, fun p hl => ?_, fun c q t hs => hi.reap_free hs⟩
  constructor
  · intro hr
    obtain ⟨c, hc⟩ := hi.proc_of_running hl hr
    exact ⟨c, hc, fun d hd => hi.exclusive d c p hd hc⟩
  · intro hex
    obtain ⟨c, hc, _⟩ := hex
    exact hi.running_of_free hl hc

/-- Cpu 0 runs init, which forks; cpu 1 runs the child, which exits; init takes its lock. -/
def forkAndExit : List (Cpu × Op) :=
  [(0, .scan 0), (0, .next), (0, .next), (0, .next), (0, .next),
   (0, .visit 1), (0, .fork true), (0, .next), (0, .adopt), (0, .visit 1), (0, .forkRun),
   (0, .next),
   (1, .scan 1), (1, .next), (1, .next), (1, .next), (1, .next), (1, .lock), (1, .exit 7),
   (1, .next), (1, .next), (1, .next), (0, .visit 1)]

theorem one_cpu_fork_and_exit :
    ∃ s, run step init forkAndExit = some s ∧ OneCpu s ∧
      (step s (0, .reap 1)).isSome = true ∧ s.proc 0 = some 0 ∧ s.proc 1 = none := by
  obtain ⟨s, hs, hs'⟩ := Option.map_eq_some_iff.mp
    (show (run step init forkAndExit).map
        (fun s => ((step s (0, .reap 1)).isSome, s.proc 0, s.proc 1)) =
      some (true, some 0, none) by decide +kernel)
  simp only [Prod.mk.injEq] at hs'
  exact ⟨s, hs, one_cpu hs, hs'⟩

end Xv6.Sched
