import Xv6.Lib.Ring
import Xv6.Sem.Tokens

namespace Xv6.Sem
open List Lib

/-- No kill() and no exit of a child reaches a process asleep in sem_wait(), and sem_post() is
not called when the value is the largest int. -/
def Orderly (s : Sys) : Act → Prop
  | .post _ => s.sem.value.toInt < 2 ^ 31 - 1
  | a => Undisturbed s a

instance (s : Sys) (a : Act) : Decidable (Orderly s a) :=
  match a with
  | .post _ => inferInstanceAs (Decidable (_ < _))
  | .kernel a => inferInstanceAs (Decidable (Undisturbed s (.kernel a)))
  | .wait _ | .leave _ => isTrue trivial

/-- The queue between head and tail holds exactly the processes asleep in sem_wait(), one for
every missing token. -/
structure Queued (v : Nat) (s : Sys) (l : List Nat) : Prop extends Ledger v s where
  small : s.tokens v < 2 ^ 31
  ring : Ring NPROC s.sem.queue s.sem.head s.sem.tail (l.map some)
  nodup : l.Nodup
  waiting : ∀ r, r ∈ l ↔ Blocked s r
  length : (l.length : Int) = max 0 (- s.tokens v)

theorem Queued.below (h : Queued v s l) : ∀ r ∈ l, r < NPROC :=
  fun r hr => h.bound r ((h.waiting r).mp hr).1

theorem Queued.large (h : Queued v s l) : - (NPROC : Int) ≤ s.tokens v := by
  have hle := length_le_of_nodup h.nodup h.below
  have hl := h.length
  omega

theorem Queued.toInt (h : Queued v s l) : s.sem.value.toInt = s.tokens v := by
  have hl := h.large
  have hs := h.small
  have hn : NPROC = 64 := rfl
  rw [h.value, toInt_small (by omega) hs]

theorem Queued.toInt_pred (h : Queued v s l) : (s.sem.value - 1).toInt = s.tokens v - 1 := by
  have hl := h.large
  have hs := h.small
  have hn : NPROC = 64 := rfl
  rw [h.value, ofInt_pred, toInt_small (by omega) (by omega)]

theorem Queued.toInt_succ (h : Queued v s l) (ho : s.sem.value.toInt < 2 ^ 31 - 1) :
    (s.sem.value + 1).toInt = s.tokens v + 1 := by
  have hl := h.large
  have hn : NPROC = 64 := rfl
  rw [h.toInt] at ho
  rw [h.value, ofInt_succ, toInt_small (by omega) (by omega)]

theorem woken_runnable {s : Sys} (hb : Blocked s q)
    (hown : (s.proc q).chan = some (.proc q)) (hne : p ≠ q) :
    ((s.wakeup p (some q)).proc q).state = .runnable := by
  rw [wakeup_proc, if_neg hne]
  simp [Proc.wakeup, hb.2, hown]

/-- The wakeup of the front of the queue leaves the rest of it asleep. -/
theorem blocked_after_wakeup {s : Sys} (hown : ∀ r, Blocked s r → (s.proc r).chan = some (.proc r))
    (hq : Blocked s q) (hne : p ≠ q) :
    Blocked (s.wakeup p (some q)) r ↔ r ≠ q ∧ Blocked s r := by
  constructor
  · intro hb
    refine ⟨?_, hb.1, wakeup_still hb.2 ▸ hb.2⟩
    rintro rfl
    have hr := woken_runnable hq (hown r hq) hne
    rw [hb.2] at hr
    cases hr
  · intro hr
    exact wakes_one (hown r hr.2) p q hr.1 hr.2

/-- The front of the queue is asleep in sem_wait(), so it is not the process that runs. -/
theorem Queued.front (h : Queued v s (q :: l)) (hfree : s.Free p) :
    s.sem.queue s.sem.head = some q ∧ Blocked s q ∧ p ≠ q := by
  have hq : Blocked s q := (h.waiting q).mp mem_cons_self
  refine ⟨h.ring.pop.1, hq, ?_⟩
  rintro rfl
  have hin := hq.1
  rw [hfree.2.2.2] at hin
  cases hin

/-- A process that runs is not in the queue, and there is room for it. -/
theorem Queued.enqueue (h : Queued v s l) (hfree : s.Free p) :
    p ∉ l ∧ l.length + 1 ≤ NPROC := by
  obtain ⟨hp, _, _, hin⟩ := hfree
  have hnot : p ∉ l := by
    intro hm
    have hb := (h.waiting p).mp hm
    rw [hb.1] at hin
    cases hin
  refine ⟨hnot, length_le_of_nodup (l := p :: l) (nodup_cons.mpr ⟨hnot, h.nodup⟩) ?_⟩
  intro r hr
  rcases mem_cons.mp hr with rfl | hr
  · exact hp
  · exact h.below r hr

theorem Queued.rest (h : Queued v s (q :: l)) (r : Nat) : r ∈ l ↔ r ≠ q ∧ Blocked s r := by
  obtain ⟨hnot, _⟩ := nodup_cons.mp h.nodup
  rw [← h.waiting r, mem_cons]
  constructor
  · intro hr
    exact ⟨fun he => hnot (he ▸ hr), Or.inr hr⟩
  · intro hr
    exact hr.2.resolve_left hr.1

/-- The queue after a step: sem_wait() puts its caller at the end if it blocks, sem_post() takes
the front if a process waits. -/
def nextQueue (s : Sys) (l : List Nat) : Act → List Nat
  | .wait p => if (s.sem.value - 1).toInt < 0 then l ++ [p] else l
  | .post _ => if (s.sem.value + 1).toInt ≤ 0 then l.tail else l
  | .leave _ | .kernel _ => l

theorem queued_step (h : Queued v s l) (ho : Orderly s a) (hm : Moves s a t) :
    Queued v t (nextQueue s l a) := by
  have hled := ledger_step h.toLedger hm
  have hlen := h.length
  cases hm with
  | passed p hfree hv =>
    rw [nextQueue, if_neg (by omega)]
    rw [h.toInt_pred] at hv
    refine ⟨hled, ?_, h.ring, h.nodup, h.waiting, ?_⟩
    · have := h.small
      simp only [Sys.tokens] at this ⊢
      omega
    · simp only [Sys.tokens] at hlen hv ⊢
      omega
  | blocked p hfree hv =>
    rw [nextQueue, if_pos hv]
    rw [h.toInt_pred] at hv
    obtain ⟨hnot, hroom⟩ := h.enqueue hfree
    refine ⟨hled, ?_, ?_, ?_, fun r => ?_, ?_⟩
    · have := h.small
      simp only [Sys.tokens] at this ⊢
      omega
    · have hpush := h.ring.push (by simpa using Nat.lt_of_succ_le hroom) (some p)
      simpa using hpush
    · exact List.Nodup.append h.nodup (nodup_singleton p) (by simpa using hnot)
    · rcases eq_or_ne r p with rfl | hrp
      · simp [Blocked, Sys.proc, Lifecycle.Sys.put, Proc.sleep]
      · simpa [Blocked, Sys.proc, put_other hrp, hrp] using h.waiting r
    · rw [length_append, length_singleton]
      simp only [Sys.tokens] at hlen hv ⊢
      omega
  | left p hin hrun =>
    refine ⟨hled, h.small, h.ring, h.nodup, fun r => ?_, h.length⟩
    rw [nextQueue, h.waiting r]
    rcases eq_or_ne r p with rfl | hrp
    · simp [Blocked, hrun]
    · simp [Blocked, Sys.proc, put_other hrp, hrp]
  | posted p hfree hv =>
    rw [nextQueue, if_neg (by omega)]
    rw [h.toInt_succ ho] at hv
    have hnow := h.toInt
    refine ⟨hled, ?_, h.ring, h.nodup, h.waiting, ?_⟩
    · rw [Orderly, hnow] at ho
      simp only [Sys.tokens] at ho ⊢
      omega
    · simp only [Sys.tokens] at hlen hv ⊢
      omega
  | woke p hfree hv =>
    rw [nextQueue, if_pos hv]
    rw [h.toInt_succ ho] at hv
    cases l with
    | nil =>
      simp only [length_nil] at hlen
      omega
    | cons q l =>
      obtain ⟨hfront, hq, hne⟩ := h.front hfree
      rw [hfront] at hled ⊢
      rw [tail_cons]
      refine ⟨hled, ?_, h.ring.pop.2, (nodup_cons.mp h.nodup).2, fun r => ?_, ?_⟩
      · have := h.small
        simp only [Sys.wakeup, Sys.tokens] at this hv ⊢
        omega
      · exact (h.rest r).trans (blocked_after_wakeup (s := { s with
          sem := { s.sem with value := s.sem.value + 1, head := (s.sem.head + 1) % NPROC }
          posts := s.posts + 1 }) h.own hq hne).symm
      · simp only [Sys.wakeup, Sys.tokens, length_cons] at hlen hv ⊢
        omega
  | kernel a k hc hk =>
    refine ⟨hled, h.small, h.ring, h.nodup, fun r => ?_, h.length⟩
    rw [nextQueue, h.waiting r]
    constructor
    · exact fun hb => h.kernel_blocked ho hk hb
    · intro hb
      exact ⟨hb.1, (sleeping_step hk (caller_ne hc hb.1) hb.2).1⟩

/-- The process has been taken out of the queue and has not run yet: it holds a token. -/
def Leaving (s : Sys) (p : Nat) : Prop := s.inside p = true ∧ ¬ (s.proc p).state = .sleeping

instance (s : Sys) : DecidablePred (Leaving s) := fun _ => inferInstanceAs (Decidable (_ ∧ _))

/-- No process that sem_post() has woken has still to return from sem_wait(). -/
def Settled (s : Sys) : Prop := ∀ r < NPROC, ¬ Leaving s r

instance (s : Sys) : Decidable (Settled s) := inferInstanceAs (Decidable (∀ r < NPROC, _))

/-- While a process is blocked, calls of sem_wait() have returned for all the tokens. -/
def Consumed (v : Nat) (s : Sys) : Prop := (∃ r, Blocked s r) → v + s.posts ≤ s.returned

/-- A sem_post() while processes are blocked lets one of them, and only that one, go on. -/
def Released (s : Sys) : Prop := ∀ p t, step s (.post p) = some t → (∃ r, Blocked s r) →
  ∃ q, Blocked s q ∧ (t.proc q).state = .runnable ∧ ∀ r, r ≠ q → Blocked s r → Blocked t r

theorem Queued.accounts (h : Queued v s l) (hb : ∃ r, Blocked s r) :
    v + s.posts = s.returned + tally NPROC (Leaving s) := by
  obtain ⟨r, hr⟩ := hb
  have hpos : 0 < l.length := length_pos_of_mem ((h.waiting r).mpr hr)
  have hlen := h.length
  have hin := h.inside
  have htally : tally NPROC (Blocked s) = l.length :=
    tally_eq_length h.nodup h.below h.waiting
  have hsplit : tally NPROC (s.inside · = true) =
      tally NPROC (Blocked s) + tally NPROC (Leaving s) :=
    tally_split NPROC (s.inside · = true) (fun r => (s.proc r).state = .sleeping)
  simp only [Sys.tokens] at hlen
  omega

theorem Queued.serves (h : Queued v s (q :: l)) (hs : step s (.post p) = some t) :
    (t.proc q).state = .runnable ∧ ∀ r, r ≠ q → Blocked s r → Blocked t r := by
  have hlen := h.length
  rw [length_cons] at hlen
  have hsucc := h.toInt_succ (by rw [h.toInt]; omega)
  cases step_moves hs with
  | posted p hfree hv =>
    rw [hsucc] at hv
    omega
  | woke p hfree hv =>
    obtain ⟨hfront, hq, hne⟩ := h.front hfree
    rw [hfront]
    constructor
    · exact woken_runnable (s := { s with
        sem := { s.sem with value := s.sem.value + 1, head := (s.sem.head + 1) % NPROC }
        posts := s.posts + 1 }) hq (h.own q hq) hne
    · intro r hrq hb
      exact wakes_one (s := { s with
        sem := { s.sem with value := s.sem.value + 1, head := (s.sem.head + 1) % NPROC }
        posts := s.posts + 1 }) (h.own r hb) p q hrq hb

theorem Queued.consumed_iff (h : Queued v s l) :
    Consumed v s ↔ ((∃ r, Blocked s r) → Settled s) := by
  have hsettled : tally NPROC (Leaving s) = 0 ↔ Settled s := by simp [tally, Settled]
  rw [← hsettled]
  refine forall_congr' fun hb => ?_
  have hacc := h.accounts hb
  omega

theorem Queued.released (h : Queued v s l) : Released s := by
  rintro p t hs ⟨r, hr⟩
  have hmem := (h.waiting r).mpr hr
  cases l with
  | nil => cases hmem
  | cons q l => exact ⟨q, (h.waiting q).mp mem_cons_self, h.serves hs⟩

theorem start_queued (hk : run Lifecycle.step Lifecycle.init ks = some k) (hv : v < 2 ^ 31) :
    Queued v (start k m v) [] := by
  refine ⟨start_ledger hk, ?_, ring_nil (show 0 < NPROC by decide) _, nodup_nil,
    fun r => ?_, ?_⟩
  · simp only [start, Sys.tokens]
    omega
  · simp [Blocked, start]
  · simp [start, Sys.tokens]

/-- In a run in which only sem_post() takes processes out of their sleep in sem_wait() and
the value stays within int, no token is lost: what is missing in the count of the calls that
returned is with the processes that only have to run to return. -/
theorem no_token_lost (hk : run Lifecycle.step Lifecycle.init ks = some k) (hv : v < 2 ^ 31)
    (hguard : Along step Orderly (start k m v) as)
    (hrun : run step (start k m v) as = some s) :
    Released s ∧ (Consumed v s ↔ ((∃ r, Blocked s r) → Settled s)) := by
  have hstep : ∀ s a t, (∃ l, Queued v s l) → Orderly s a → step s a = some t →
      ∃ l, Queued v t l := by
    intro s a t hq ho hs
    obtain ⟨l, hl⟩ := hq
    exact ⟨_, queued_step hl ho (step_moves hs)⟩
  obtain ⟨l, hl⟩ := along_invariant hstep ⟨[], start_queued hk hv⟩ hguard hrun
  exact ⟨hl.released, hl.consumed_iff⟩

/-- Two processes wait for a token, a third posts one and the first of the two returns. -/
def twoWaiters : List Act := [.wait 1, .wait 2, .post 0, .kernel (.sched 1), .leave 1]

theorem no_token_lost_two_waiters :
    ∃ s, run step (start threeRunning zeroed 0) twoWaiters = some s ∧ Blocked s 2 ∧
      s.posts = 1 ∧ s.returned = 1 ∧ Settled s ∧ Released s ∧ Consumed 0 s := by
  obtain ⟨s, hs, hb, hposts, hret, hset⟩ : ∃ s,
      run step (start threeRunning zeroed 0) twoWaiters = some s ∧ Blocked s 2 ∧
        s.posts = 1 ∧ s.returned = 1 ∧ Settled s := by decide +kernel
  obtain ⟨hrel, hiff⟩ := no_token_lost threeRunning_reached (by decide) (by decide +kernel) hs
  exact ⟨s, hs, hb, hposts, hret, hset, hrel, hiff.mpr fun _ => hset⟩

/-- The first of two waiting processes is killed and leaves. -/
def firstKilled : List Act :=
  [.wait 1, .wait 2, .kernel (.kill 1), .kernel (.sched 1), .leave 1]

/-- The sem_post() after that goes to the process that has left, while the other one sleeps
on. -/
theorem post_after_kill_lost :
    ∃ s t, run step (start threeRunning zeroed 0) firstKilled = some s ∧ Blocked s 2 ∧
      step s (.post 0) = some t ∧ ¬ ∃ q < NPROC, Blocked s q ∧ (t.proc q).state = .runnable := by
  obtain ⟨s, hs, hb, t, ht, hno⟩ : ∃ s,
      run step (start threeRunning zeroed 0) firstKilled = some s ∧ Blocked s 2 ∧
      ∃ t, step s (.post 0) = some t ∧
        ¬ ∃ q < NPROC, Blocked s q ∧ (t.proc q).state = .runnable := by decide +kernel
  exact ⟨s, t, hs, hb, ht, hno⟩

end Xv6.Sem
