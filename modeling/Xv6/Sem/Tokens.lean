import Xv6.Proc.Reap
import Xv6.Sem.System

namespace Xv6.Sem
open Function Lib

/-- How many tokens are left, or how many are missing. -/
def Sys.tokens (s : Sys) (v : Nat) : Int := v + s.posts - s.started

theorem ofInt_pred (x : Int) : BitVec.ofInt 32 x - 1 = BitVec.ofInt 32 (x - 1) := by
  rw [Int.sub_eq_add_neg, BitVec.ofInt_add, BitVec.ofInt_neg, BitVec.sub_eq_add_neg]
  rfl

theorem ofInt_succ (x : Int) : BitVec.ofInt 32 x + 1 = BitVec.ofInt 32 (x + 1) := by
  rw [BitVec.ofInt_add]
  rfl

theorem toInt_small (hl : -2 ^ 31 ≤ x) (hu : x < 2 ^ 31) : (BitVec.ofInt 32 x).toInt = x := by
  rw [BitVec.toInt_ofInt, Int.bmod_eq_of_le] <;> omega

/-- What all_sem.value and the counters of calls say about each other in every run. -/
structure Ledger (v : Nat) (s : Sys) : Prop where
  forking : Lifecycle.Forking s.kernel
  value : s.sem.value = BitVec.ofInt 32 (s.tokens v)
  inside : s.returned + tally NPROC (s.inside · = true) = s.started
  bound : ∀ r, s.inside r = true → r < NPROC
  own : ∀ r, Blocked s r → (s.proc r).chan = some (.proc r)

theorem tally_leave {f : Nat → Bool} (hp : p < n) (hf : f p = true) :
    tally n (f · = true) = tally n (update f p false · = true) + 1 := by
  refine tally_enter hp (by simp) hf (fun r hr => ?_)
  simp [hr]

theorem tally_join {f : Nat → Bool} (hp : p < n) (hf : f p = false) :
    tally n (update f p true · = true) = tally n (f · = true) + 1 := by
  refine tally_enter hp (by simp [hf]) (by simp) (fun r hr => ?_)
  simp [hr]

theorem wakeup_proc (s : Sys) (p q r : Nat) :
    (s.wakeup p (some q)).proc r =
      if p = r then s.proc r else (s.proc r).wakeup (.proc q) := by
  simp only [Sys.wakeup, Sys.proc, Table.wakeup, Option.some.injEq]

theorem wakeup_still {s : Sys} (h : ((s.wakeup p q).proc r).state = .sleeping) :
    (s.wakeup p q).proc r = s.proc r := by
  cases q with
  | none => rfl
  | some q =>
    rw [wakeup_proc] at h ⊢
    split at h
    · next hp => rw [if_pos hp]
    · next hp =>
      rw [if_neg hp]
      exact wakeup_sleeping h

theorem Forking.wakeup {s : Sys} (h : Lifecycle.Forking s.kernel) (p : Nat) (q : Option Nat) :
    Lifecycle.Forking (s.wakeup p q).kernel := by
  cases q with
  | none => exact h
  | some q =>
    refine ⟨fun p' np hc => ?_, h.one⟩
    have hu := h.used p' np hc
    have hp : (s.wakeup p (some q)).proc np = s.proc np := by
      rw [wakeup_proc]
      split
      · rfl
      · simp [Proc.wakeup, Sys.proc, hu]
    exact (congrArg Proc.state hp).trans hu

theorem wakeup_keeps (s : Sys) (p : Nat) (q : Option Nat) :
    (s.wakeup p q).sem = s.sem ∧ (s.wakeup p q).inside = s.inside ∧
      (s.wakeup p q).started = s.started ∧ (s.wakeup p q).returned = s.returned ∧
      (s.wakeup p q).posts = s.posts := by
  cases q with
  | none => exact ⟨rfl, rfl, rfl, rfl, rfl⟩
  | some q => exact ⟨rfl, rfl, rfl, rfl, rfl⟩

theorem Ledger.wakeup (h : Ledger v s) (p : Nat) (q : Option Nat) : Ledger v (s.wakeup p q) := by
  obtain ⟨hsem, hin, hst, hret, hpo⟩ := wakeup_keeps s p q
  refine ⟨Forking.wakeup h.forking p q, ?_, ?_, ?_, fun r hr => ?_⟩
  · rw [Sys.tokens, hsem, hst, hpo]
    exact h.value
  · rw [hin, hst, hret]
    exact h.inside
  · rw [hin]
    exact h.bound
  · have hp := wakeup_still hr.2
    rw [hp]
    exact h.own r ⟨hin ▸ hr.1, hp ▸ hr.2⟩

theorem Ledger.spend (h : Ledger v s) {t : Sys} (hp : t.posts = s.posts)
    (hs : t.started = s.started + 1) : s.sem.value - 1 = BitVec.ofInt 32 (t.tokens v) := by
  rw [h.value, ofInt_pred]
  apply congrArg (BitVec.ofInt 32)
  simp only [Sys.tokens]
  omega

theorem Ledger.earn (h : Ledger v s) {t : Sys} (hp : t.posts = s.posts + 1)
    (hs : t.started = s.started) : s.sem.value + 1 = BitVec.ofInt 32 (t.tokens v) := by
  rw [h.value, ofInt_succ]
  apply congrArg (BitVec.ofInt 32)
  simp only [Sys.tokens]
  omega

/-- Another process that is blocked after p has entered or left was so before. -/
theorem Ledger.own_other (h : Ledger v s) (hrp : r ≠ p) {k : Proc}
    (hin : update s.inside p b r = true)
    (hst : ((s.kernel.put p k).procs r).state = .sleeping) :
    ((s.kernel.put p k).procs r).chan = some (.proc r) := by
  rw [put_other hrp] at hst ⊢
  rw [update_of_ne hrp] at hin
  exact h.own r ⟨hin, hst⟩

theorem ledger_step (h : Ledger v s) (hm : Moves s a t) : Ledger v t := by
  cases hm with
  | passed p hfree hv =>
    refine ⟨h.forking, h.spend rfl rfl, ?_, h.bound, h.own⟩
    have hin := h.inside
    simp only
    omega
  | blocked p hfree hv =>
    obtain ⟨hp, hrun, hpc, hin⟩ := hfree
    have hused : (s.kernel.procs p).state ≠ .used := by
      rw [show (s.kernel.procs p).state = .running from hrun]
      simp
    refine ⟨h.forking.put (Or.inr (h.forking.no_child hused)), h.spend rfl rfl, ?_,
      fun r hr => ?_, fun r hr => ?_⟩
    · have := h.inside
      simp only [tally_join hp hin]
      omega
    · rcases eq_or_ne r p with rfl | hrp
      · exact hp
      · exact h.bound r (by simpa [hrp] using hr)
    · rcases eq_or_ne r p with rfl | hrp
      · simp [Sys.proc, Lifecycle.Sys.put, Proc.sleep]
      · exact h.own_other hrp hr.1 hr.2
  | left p hin hrun =>
    have hp := h.bound p hin
    refine ⟨h.forking.put_same rfl, h.value, ?_, fun r hr => ?_, fun r hr => ?_⟩
    · have := h.inside
      rw [tally_leave hp hin] at this
      simp only
      omega
    · rcases eq_or_ne r p with rfl | hrp
      · exact hp
      · exact h.bound r (by simpa [hrp] using hr)
    · rcases eq_or_ne r p with rfl | hrp
      · simp [Blocked] at hr
      · exact h.own_other hrp hr.1 hr.2
  | posted p hfree hv =>
    exact ⟨h.forking, h.earn rfl rfl, h.inside, h.bound, h.own⟩
  | woke p hfree hv =>
    apply Ledger.wakeup
    exact ⟨h.forking, h.earn rfl rfl, h.inside, h.bound, h.own⟩
  | kernel a k hc hk =>
    refine ⟨Lifecycle.forking_step h.forking hk, h.value, h.inside, h.bound, fun r hr => ?_⟩
    obtain ⟨hs, hch⟩ := sleeping_step hk (caller_ne hc hr.1) hr.2
    exact hch.trans (h.own r ⟨hr.1, hs⟩)

/-- Every token that is missing is missed by a process asleep in sem_wait(). -/
structure Safe (v : Nat) (s : Sys) : Prop extends Ledger v s where
  blocked : - s.tokens v ≤ tally NPROC (Blocked s)

theorem tally_blocked_le (s : Sys) : tally NPROC (Blocked s) ≤ tally NPROC (s.inside · = true) :=
  tally_mono (fun _ hr => hr.1)

theorem Safe.returned_le (h : Safe v s) : s.returned ≤ v + s.posts := by
  have hb := h.blocked
  have hi := h.inside
  have hle := tally_blocked_le s
  simp only [Sys.tokens] at hb
  omega

/-- A wakeup of q takes no other process out of sem_wait(). -/
theorem wakes_one (hown : (s.proc r).chan = some (.proc r)) (p q : Nat) (hr : r ≠ q)
    (hb : Blocked s r) : Blocked (s.wakeup p (some q)) r := by
  have hp : (s.wakeup p (some q)).proc r = s.proc r := by
    rw [wakeup_proc]
    split
    · rfl
    · simp [Proc.wakeup, hown, hr]
  exact ⟨hb.1, hp ▸ hb.2⟩

theorem Safe.no_wrap (h : Safe v s) (hv : 0 ≤ (s.sem.value - 1).toInt) : 0 ≤ s.tokens v - 1 := by
  by_contra hneg
  have hb := h.blocked
  have hle := tally_le NPROC (Blocked s)
  have hn : NPROC = 64 := rfl
  rw [h.value, ofInt_pred, toInt_small (by omega) (by omega)] at hv
  omega

theorem tally_blocked_wakeup (hown : ∀ r, Blocked s r → (s.proc r).chan = some (.proc r))
    (p : Nat) (q : Option Nat) :
    tally NPROC (Blocked s) ≤ tally NPROC (Blocked (s.wakeup p q)) + 1 := by
  cases q with
  | none => exact Nat.le_succ _
  | some q => exact tally_le_succ (fun r hr hb => wakes_one (hown r hb) p q hr hb)

/-- The kernel leaves a process asleep in sem_wait() when it is not disturbed. -/
theorem Ledger.kernel_blocked (h : Ledger v s) (hu : Undisturbed s (.kernel a))
    (hk : Lifecycle.Moves s.kernel a k) (hb : Blocked s r) : Blocked { s with kernel := k } r := by
  have hn : rouses s.kernel a ≠ some r := fun he => hu r he hb
  exact ⟨hb.1, (dozes_step hk h.forking hn ⟨hb.2, h.own r hb⟩).1⟩

theorem missing_keep {x y : Int} {m n : Nat} (hb : -x ≤ m) (hy : y = x) (hn : m ≤ n) :
    -y ≤ n := by
  omega

theorem missing_more {x y : Int} {m n : Nat} (hb : -x ≤ m) (hy : y = x - 1) (hn : n = m + 1) :
    -y ≤ n := by
  omega

theorem missing_less {x y : Int} {m n : Nat} (hb : -x ≤ m) (hy : y = x + 1) (hn : m ≤ n + 1) :
    -y ≤ n := by
  omega

theorem safe_step (h : Safe v s) (hu : Undisturbed s a) (hm : Moves s a t) : Safe v t := by
  refine ⟨ledger_step h.toLedger hm, ?_⟩
  have hb := h.blocked
  cases hm with
  | passed p hfree hv =>
    have ht := h.no_wrap hv
    simp only [Sys.tokens] at ht ⊢
    omega
  | blocked p hfree hv =>
    obtain ⟨hp, hrun, hpc, hin⟩ := hfree
    refine missing_more hb (by simp only [Sys.tokens]; omega)
      (tally_enter hp ?_ ?_ (fun r hr => ?_))
    · simp [Blocked, hin]
    · simp [Blocked, Sys.proc, Lifecycle.Sys.put, Proc.sleep]
    · simp [Blocked, Sys.proc, put_other hr, hr]
  | left p hin hrun =>
    refine missing_keep hb rfl (tally_mono (fun r hr => ?_))
    have hrp : r ≠ p := by
      rintro rfl
      rw [hr.2] at hrun
      cases hrun
    simpa [Blocked, Sys.proc, put_other hrp, hrp] using hr
  | posted p hfree hv =>
    exact missing_less hb (by simp only [Sys.tokens]; omega) (Nat.le_succ _)
  | woke p hfree hv =>
    let s' : Sys := { s with
      sem := { s.sem with value := s.sem.value + 1, head := (s.sem.head + 1) % NPROC }
      posts := s.posts + 1 }
    obtain ⟨_, _, hst, _, hpo⟩ := wakeup_keeps s' p (s.sem.queue s.sem.head)
    refine missing_less hb ?_ (tally_blocked_wakeup (s := s') h.own p (s.sem.queue s.sem.head))
    rw [Sys.tokens, Sys.tokens, hst, hpo]
    simp only [s']
    omega
  | kernel a k hc hk =>
    exact missing_keep hb rfl (tally_mono (fun r hr => h.kernel_blocked hu hk hr))

theorem start_ledger (hk : run Lifecycle.step Lifecycle.init ks = some k) :
    Ledger v (start k m v) := by
  refine ⟨(Lifecycle.reachable_inv hk).coherent.toForking, ?_, ?_, nofun, fun r hr => ?_⟩
  · simp [start, semInit, Sys.tokens]
  · simp [start, tally]
  · simp [Blocked, start] at hr

/-- In a run that takes no process out of its sleep in sem_wait() except by sem_post(), never
more calls of sem_wait() have returned than there were tokens. -/
theorem semaphore_safe (hk : run Lifecycle.step Lifecycle.init ks = some k)
    (hguard : Along step Undisturbed (start k m v) as)
    (hrun : run step (start k m v) as = some s) : s.returned ≤ v + s.posts := by
  have hstart : Safe v (start k m v) :=
    ⟨start_ledger hk, by simp [start, Sys.tokens]⟩
  have hsafe : Safe v s :=
    along_invariant (fun _ _ _ h hu hs => safe_step h hu (step_moves hs)) hstart hguard hrun
  exact hsafe.returned_le

/-- init in slot 0 forks slot 1, which forks slot 2. -/
def forks : List Lifecycle.Act :=
  [.sched 0, .fork 0 1 true, .go 0 true, .go 0 true, .sched 1, .fork 1 2 true, .go 1 true,
    .go 1 true, .sched 2]

def threeRunning : Lifecycle.Sys :=
  (run Lifecycle.step Lifecycle.init forks).get (by decide +kernel)

theorem threeRunning_reached : run Lifecycle.step Lifecycle.init forks = some threeRunning :=
  (Option.some_get _).symm

/-- The parent waits for a token that its child posts. -/
def handOver : List Act := [.wait 1, .post 2, .kernel (.sched 1), .leave 1]

theorem semaphore_safe_hand_over :
    ∃ s, run step (start threeRunning zeroed 0) handOver = some s ∧ s.returned = 1 ∧
      s.returned ≤ 0 + s.posts := by
  obtain ⟨s, hs, hr⟩ := Option.map_eq_some_iff.mp (show (run step (start threeRunning zeroed 0)
    handOver).map (·.returned) = some 1 by decide +kernel)
  exact ⟨s, hs, hr, semaphore_safe threeRunning_reached (by decide +kernel) hs⟩

/-- The parent waits for a token and its child exits, up to the wakeup of the parent. -/
def childExits : List Act :=
  [.wait 1, .kernel (.exit 2 0)] ++ List.replicate (NPROC + 3) (.kernel (.go 2 true)) ++
    [.kernel (.sched 1), .leave 1]

/-- The exit of the child lets the parent through without any token. -/
theorem exit_of_child_passes :
    ∃ s, run step (start threeRunning zeroed 0) childExits = some s ∧
      ¬ s.returned ≤ 0 + s.posts := by
  obtain ⟨s, hs, hr⟩ := Option.map_eq_some_iff.mp (show (run step (start threeRunning zeroed 0)
    childExits).map (fun s => (s.returned, s.posts)) = some (1, 0) by decide +kernel)
  obtain ⟨hr, hp⟩ := Prod.mk.inj hr
  exact ⟨s, hs, by omega⟩

end Xv6.Sem
