import Xv6.Sem.Queue

namespace Xv6.Sem
open List Lib

/-- One more call of sem_wait() puts its caller behind all the others. -/
def called (l : List Nat) : Act → List Nat
  | .wait p => l.filter (· ≠ p) ++ [p]
  | .leave _ | .post _ | .kernel _ => l

/-- The processes that have called sem_wait(), in the order of their last calls. -/
def callOrder (as : List Act) : List Nat := as.foldl called []

/-- The processes asleep in sem_wait() after the steps as, in the order of their calls. -/
def line (as : List Act) (s : Sys) : List Nat := (callOrder as).filter (Blocked s)

/-- The queue is the line of the sleeping processes, and sem_post() serves its front. -/
structure Fifo (as : List Act) (s : Sys) : Prop where
  count : ((line as s).length : Int) = max 0 (- s.sem.value.toInt)
  entries : ∀ j < (line as s).length, s.sem.queue ((s.sem.head + j) % NPROC) = (line as s)[j]?
  tail : s.sem.tail = (s.sem.head + (line as s).length) % NPROC
  waiting : ∀ r, r ∈ line as s ↔ Blocked s r
  releases : ∀ p t, step s (.post p) = some t → s.sem.value.toInt < 0 →
    ∃ q, (line as s).head? = some q ∧ (t.proc q).state = .runnable ∧
      ∀ r, r ≠ q → Blocked s r → Blocked t r

/-- The queue l stands in the order of the calls L. -/
def InOrder (L l : List Nat) : Prop := L.filter (· ∈ l) = l

theorem InOrder.blocked (h : InOrder L l) (hnot : p ∉ l) :
    InOrder (L.filter (· ≠ p) ++ [p]) (l ++ [p]) := by
  rw [InOrder, filter_append, filter_filter]
  congr 1
  · refine Eq.trans (filter_congr (fun r _ => ?_)) h
    rcases eq_or_ne r p with rfl | hr
    · simp [hnot]
    · simp [hr]
  · simp

theorem InOrder.passed (h : InOrder L l) (hnot : p ∉ l) : InOrder (L.filter (· ≠ p) ++ [p]) l := by
  rw [InOrder, filter_append, filter_filter,
    filter_cons_of_neg (by simpa using hnot), filter_nil, append_nil]
  refine Eq.trans (filter_congr (fun r _ => ?_)) h
  rcases eq_or_ne r p with rfl | hr
  · simp [hnot]
  · simp [hr]

theorem InOrder.tail (h : InOrder L l) (hd : l.Nodup) : InOrder L l.tail := by
  cases l with
  | nil => exact h
  | cons q l =>
    have hq := (nodup_cons.mp hd).1
    have hsub : L.filter (· ∈ l) = (L.filter (· ∈ q :: l)).filter (· ∈ l) := by
      rw [filter_filter]
      refine filter_congr (fun r _ => ?_)
      by_cases hr : r ∈ l
      · simp [hr]
      · simp [hr]
    rw [tail_cons, InOrder, hsub, h, filter_cons_of_neg (by simpa using hq)]
    exact filter_eq_self.mpr (fun r hr => by simpa using hr)

theorem inOrder_step (h : Queued v s l) (ho : InOrder L l) (hm : Moves s a t) :
    InOrder (called L a) (nextQueue s l a) := by
  cases hm with
  | passed p hfree hv =>
    rw [called, nextQueue, if_neg (by omega)]
    exact ho.passed (h.enqueue hfree).1
  | blocked p hfree hv =>
    rw [called, nextQueue, if_pos hv]
    exact ho.blocked (h.enqueue hfree).1
  | posted p hfree hv =>
    rw [called, nextQueue, if_neg (by omega)]
    exact ho
  | woke p hfree hv =>
    rw [called, nextQueue, if_pos hv]
    exact ho.tail h.nodup
  | left p hin hrun => exact ho
  | kernel a k hc hk => exact ho

/-- The queue stays in the order of the calls through a run. -/
theorem inOrder_run (h : Queued v s l) (ho : InOrder L l) (hguard : Along step Orderly s as)
    (hrun : run step s as = some t) :
    ∃ l, Queued v t l ∧ InOrder (as.foldl called L) l := by
  induction as generalizing s L l with
  | nil =>
    cases hrun
    exact ⟨l, h, ho⟩
  | cons a as ih =>
    obtain ⟨u, hu, hrest⟩ := run_cons.mp hrun
    obtain ⟨horder, hguard⟩ := along_cons hguard hu
    have hm := step_moves hu
    exact ih (queued_step h horder hm) (inOrder_step h ho hm) hguard hrest

theorem Queued.line (h : Queued v s l) (ho : InOrder (callOrder as) l) : line as s = l := by
  refine Eq.trans (filter_congr (fun r _ => ?_)) ho
  rw [decide_eq_decide]
  exact (h.waiting r).symm

theorem Queued.fifo (h : Queued v s l) (ho : InOrder (callOrder as) l) : Fifo as s := by
  have hline := h.line ho
  have hlen := h.length
  rw [← h.toInt] at hlen
  refine ⟨?_, fun j hj => ?_, ?_, fun r => ?_, fun p t hs hneg => ?_⟩
  · rw [hline, hlen]
  · rw [hline] at hj ⊢
    rw [List.getElem?_eq_getElem hj]
    refine h.ring.cells j (some l[j]) ?_
    rw [List.getElem?_map, List.getElem?_eq_getElem hj, Option.map_some]
  · rw [hline, h.ring.stop, length_map]
  · rw [hline, h.waiting r]
  · rw [hline]
    cases l with
    | nil =>
      rw [length_nil] at hlen
      omega
    | cons q l => exact ⟨q, rfl, h.serves hs⟩

/-- Waiting processes get their tokens in the order of their calls of sem_wait(), in every run in
which only sem_post() takes them out of their sleep and the value stays within int. -/
theorem sem_handoff_fifo (hk : run Lifecycle.step Lifecycle.init ks = some k) (hv : v < 2 ^ 31)
    (hguard : Along step Orderly (start k m v) as)
    (hrun : run step (start k m v) as = some s) : Fifo as s := by
  obtain ⟨l, hq, ho⟩ := inOrder_run (start_queued hk hv) (L := []) rfl hguard hrun
  exact hq.fifo ho

theorem sem_handoff_fifo_two_waiters :
    ∃ s, run step (start threeRunning zeroed 0) [.wait 2, .wait 1] = some s ∧
      line [.wait 2, .wait 1] s = [2, 1] ∧ Fifo [.wait 2, .wait 1] s := by
  obtain ⟨s, hs, hl⟩ := (Option.any_eq_true _ _).mp (show (run step (start threeRunning zeroed 0)
    [.wait 2, .wait 1]).any (fun s => line [.wait 2, .wait 1] s = [2, 1]) = true by decide +kernel)
  exact ⟨s, hs, of_decide_eq_true hl,
    sem_handoff_fifo threeRunning_reached (by decide) (by decide +kernel) hs⟩

end Xv6.Sem
