import Mathlib.Data.List.Nodup
import Xv6.Proc.Alert

namespace Xv6.Lifecycle
open Function List Lib

/-- The incarnations of slots, the statuses they exited with and the ones wait() delivered. -/
structure History (s : Sys) : Prop where
  fresh : ∀ i, (s.procs i).state ≠ .unused → s.uid i < s.births
  distinct : ∀ i j, (s.procs i).state ≠ .unused → (s.procs j).state ≠ .unused →
    s.uid i = s.uid j → i = j
  zombie : ∀ i, (s.procs i).state = .zombie → s.exitOf i ∈ s.exits
  running : ∀ i, Alive (s.procs i) → ∀ e ∈ s.exits, e.uid ≠ s.uid i
  old : ∀ e ∈ s.exits, e.uid < s.births
  exited : (s.exits.map Exit.uid).Nodup
  reaped : ∀ r ∈ s.reaps, r ∈ s.exits
  gone : ∀ r ∈ s.reaps, ∀ i, (s.procs i).state ≠ .unused → r.uid ≠ s.uid i
  once : (s.reaps.map Exit.uid).Nodup

theorem History.put {r : Proc} (h : History s)
    (hu : r.state = .unused ↔ (s.procs i).state = .unused)
    (hz : r.state = .zombie ↔ (s.procs i).state = .zombie)
    (hx : r.pid = (s.procs i).pid ∧ r.xstate = (s.procs i).xstate ∨ r.state ≠ .zombie) :
    History (s.put i r) := by
  have hunused : ∀ j, ((s.put i r).procs j).state ≠ .unused ↔ (s.procs j).state ≠ .unused := by
    intro j
    rcases eq_or_ne j i with rfl | hj
    · simpa [Sys.put] using not_congr hu
    · simp [Sys.put, hj]
  have hzombie : ∀ j, ((s.put i r).procs j).state = .zombie ↔ (s.procs j).state = .zombie := by
    intro j
    rcases eq_or_ne j i with rfl | hj
    · simpa [Sys.put] using hz
    · simp [Sys.put, hj]
  refine ⟨fun j hj => h.fresh j ((hunused j).mp hj), fun j k hj hk => ?_, fun j hj => ?_,
    fun j hj => ?_, h.old, h.exited, h.reaped, fun e he j hj => ?_, h.once⟩
  · exact h.distinct j k ((hunused j).mp hj) ((hunused k).mp hk)
  · have hex := h.zombie j ((hzombie j).mp hj)
    rcases eq_or_ne j i with rfl | hji
    · rcases hx with ⟨hpid, hxs⟩ | hne
      · simpa [Sys.exitOf, Sys.put, hpid, hxs] using hex
      · exact absurd (by simpa [Sys.put] using hj) hne
    · simpa [Sys.exitOf, Sys.put, hji] using hex
  · exact h.running j ⟨(hunused j).mp hj.1, mt (hzombie j).mpr hj.2⟩
  · exact h.gone e he j ((hunused j).mp hj)

theorem History.birth {r : Proc} (h : History s) (hun : (s.procs np).state = .unused)
    (hr : r.state = .used) :
    History { s.put np r with
      uid := update s.uid np s.births
      births := s.births + 1 } := by
  have hlt : ∀ i, i ≠ np → ((s.put np r).procs i).state ≠ .unused → s.uid i < s.births :=
    fun i hi hu => h.fresh i (by simpa [Sys.put, hi] using hu)
  refine ⟨fun i hi => ?_, fun i j hi hj he => ?_, fun i hi => ?_, fun i hi e he => ?_,
    fun e he => ?_, h.exited, h.reaped, fun e he i hi => ?_, h.once⟩
  · rcases eq_or_ne i np with rfl | hin
    · simp
    · have := hlt i hin hi
      simp only [update_of_ne hin]
      omega
  · rcases eq_or_ne i np with rfl | hin
    · rcases eq_or_ne j i with rfl | hjn
      · rfl
      · have := hlt j hjn hj
        simp only [update_self, update_of_ne hjn] at he
        omega
    · rcases eq_or_ne j np with rfl | hjn
      · have := hlt i hin hi
        simp only [update_self, update_of_ne hin] at he
        omega
      · simp only [update_of_ne hin, update_of_ne hjn] at he
        exact h.distinct i j (by simpa [Sys.put, hin] using hi)
          (by simpa [Sys.put, hjn] using hj) he
  · rcases eq_or_ne i np with rfl | hin
    · simp [Sys.put, hr] at hi
    · simpa [Sys.exitOf, Sys.put, hin] using h.zombie i (by simpa [Sys.put, hin] using hi)
  · rcases eq_or_ne i np with rfl | hin
    · simpa using Nat.ne_of_lt (h.old e he)
    · simpa [hin] using h.running i (by simpa [Sys.put, hin] using hi) e he
  · exact Nat.lt_succ_of_lt (h.old e he)
  · rcases eq_or_ne i np with rfl | hin
    · simpa using Nat.ne_of_lt (h.old e (h.reaped e he))
    · simpa [hin] using h.gone e he i (by simpa [Sys.put, hin] using hi)

theorem History.die (h : History s) (hrun : (s.procs p).state = .running) :
    History { s.put p { s.procs p with xstate := status, state := .zombie } with
      exits := s.exits ++ [Exit.mk (s.uid p) (s.procs p).pid status] } := by
  have hlive : Alive (s.procs p) := by simp [Alive, hrun]
  have hunused : ∀ i,
      ((s.put p { s.procs p with xstate := status, state := .zombie }).procs i).state ≠ .unused →
        (s.procs i).state ≠ .unused := by
    intro i hi
    rcases eq_or_ne i p with rfl | hip
    · exact hlive.1
    · simpa [Sys.put, hip] using hi
  refine ⟨fun i hi => h.fresh i (hunused i hi), fun i j hi hj => ?_, fun i hi => ?_,
    fun i hi e he => ?_, fun e he => ?_, ?_, fun r hr => ?_, fun r hr i hi => ?_, h.once⟩
  · exact h.distinct i j (hunused i hi) (hunused j hj)
  · rcases eq_or_ne i p with rfl | hip
    · simp [Sys.exitOf, Sys.put]
    · refine mem_append_left _ ?_
      simpa [Sys.exitOf, Sys.put, hip] using h.zombie i (by simpa [Sys.put, hip] using hi)
  · have hip : i ≠ p := by
      rintro rfl
      exact hi.2 (by simp [Sys.put])
    have hi' : Alive (s.procs i) := by simpa [Sys.put, hip] using hi
    rcases mem_append.mp he with he | he
    · exact h.running i hi' e he
    · obtain rfl := mem_singleton.mp he
      exact fun huid => hip (h.distinct p i hlive.1 hi'.1 huid).symm
  · rcases mem_append.mp he with he | he
    · exact h.old e he
    · obtain rfl := mem_singleton.mp he
      exact h.fresh p hlive.1
  · rw [map_append, map_singleton]
    refine List.Nodup.append h.exited (nodup_singleton _) (fun u hu hs => ?_)
    obtain ⟨e, he, rfl⟩ := mem_map.mp hu
    exact h.running p hlive e he (mem_singleton.mp hs)
  · exact mem_append_left _ (h.reaped r hr)
  · exact h.gone r hr i (hunused i hi)

theorem History.bury (h : History s) (hst : (s.procs i).state = .zombie) :
    History { s.put i (s.procs i).freeproc with reaps := s.reaps ++ [s.exitOf i] } := by
  have hi : (s.procs i).state ≠ .unused := by simp [hst]
  have hunused : ∀ j, ((s.put i (s.procs i).freeproc).procs j).state ≠ .unused →
      j ≠ i ∧ (s.procs j).state ≠ .unused := by
    intro j hj
    rcases eq_or_ne j i with rfl | hji
    · simp [Sys.put, Proc.freeproc] at hj
    · exact ⟨hji, by simpa [Sys.put, hji] using hj⟩
  refine ⟨fun j hj => h.fresh j (hunused j hj).2, fun j k hj hk => ?_, fun j hj => ?_,
    fun j hj => ?_, h.old, h.exited, fun r hr => ?_, fun r hr j hj => ?_, ?_⟩
  · exact h.distinct j k (hunused j hj).2 (hunused k hk).2
  · have hz : ((s.put i (s.procs i).freeproc).procs j).state = .zombie := hj
    have hji := (hunused j (by simp [hz])).1
    simpa [Sys.exitOf, Sys.put, hji] using h.zombie j (by simpa [Sys.put, hji] using hj)
  · have hji := (hunused j hj.1).1
    exact h.running j (by simpa [Sys.put, hji] using hj)
  · rcases mem_append.mp hr with hr | hr
    · exact h.reaped r hr
    · obtain rfl := mem_singleton.mp hr
      exact h.zombie i hst
  · obtain ⟨hji, hj'⟩ := hunused j hj
    rcases mem_append.mp hr with hr | hr
    · exact h.gone r hr j hj'
    · obtain rfl := mem_singleton.mp hr
      exact fun huid => hji (h.distinct i j hi hj' huid).symm
  · rw [map_append, map_singleton]
    refine List.Nodup.append h.once (nodup_singleton _) (fun u hu hs => ?_)
    obtain ⟨r, hr, rfl⟩ := mem_map.mp hu
    exact h.gone r hr i hi (mem_singleton.mp hs)

theorem History.wakeSlot (h : History s) (p : Nat) (q : Option Nat) (j : Nat) :
    History (s.wakeSlot p q j) := by
  obtain he | ⟨hs, -, -, he⟩ := wakeSlot_cases s p q j
  · rw [he]
    exact h
  · rw [he]
    exact h.put (by simp [hs]) (by simp [hs]) (Or.inl ⟨rfl, rfl⟩)

theorem History.goto (h : History s) (lk : Option Nat) (p : Nat) (c : Pc) :
    History ({ s with waitLock := lk }.goto p c) :=
  { h with }

theorem history_step (h : History s) (hc : Coherent s) (hm : Moves s a t) : History t := by
  cases hm with
  | sched p hst => exact h.put (by simp [hst]) (by simp [hst]) (Or.inl ⟨rfl, rfl⟩)
  | yield p hrun hpc => exact h.put (by simp [hrun]) (by simp [hrun]) (Or.inl ⟨rfl, rfl⟩)
  | killed i hi =>
    obtain ⟨hk, -⟩ | ⟨hk, hs⟩ := kill_cases (s.procs i)
    · exact h.put (by rw [hk]) (by rw [hk]) (Or.inl ⟨rfl, rfl⟩)
    · exact h.put (by simp [hk, hs]) (by simp [hk, hs]) (Or.inl ⟨rfl, rfl⟩)
  | forkFailed p np hrun hpc hnp hun =>
    have hp : History (s.put np (s.procs np).freeproc) :=
      h.put (by simp [Proc.freeproc, hun]) (by simp [Proc.freeproc, hun])
        (Or.inr (by simp [Proc.freeproc]))
    exact { hp with }
  | forked p np hrun hpc hnp hun =>
    have hb := h.birth (r := { s.procs np with pid := s.nextpid, state := .used }) hun rfl
    exact { hb with }
  | published p np ok hrun hpc hfree =>
    have hp : History (s.put np { s.procs np with parent := some p }) :=
      h.put Iff.rfl Iff.rfl (Or.inl ⟨rfl, rfl⟩)
    exact { hp with }
  | started p np ok hrun hpc =>
    have hu := hc.used p np (by rw [hpc]; rfl)
    have hp : History (s.setState np .runnable) :=
      h.put (by simp [hu]) (by simp [hu]) (Or.inl ⟨rfl, rfl⟩)
    exact hp.goto _ p .user
  | handed p status i ok hrun hpc hi hparent =>
    have hp : History (s.put i { s.procs i with parent := some initproc }) :=
      h.put Iff.rfl Iff.rfl (Or.inl ⟨rfl, rfl⟩)
    exact { hp with }
  | wokeInit p status i j ok hrun hpc hj => exact (h.wakeSlot p (some initproc) j).goto _ p _
  | wokeParent p status j ok hrun hpc hj =>
    exact (h.wakeSlot p (s.procs p).parent j).goto _ p _
  | exited p status ok hrun hpc => exact (h.die hrun).goto none p .dead
  | reaped p i havekids hrun hpc hi hparent hst => exact (h.bury hst).goto none p .user
  | slept p ok hrun hpc =>
    have hp : History (s.put p ((s.procs p).sleep (.proc p))) :=
      h.put (by simp [Proc.sleep, hrun]) (by simp [Proc.sleep, hrun]) (Or.inl ⟨rfl, rfl⟩)
    exact hp.goto none p .asleep
  | resumed p ok hrun hpc =>
    have hp : History (s.put p { s.procs p with chan := none }) :=
      h.put Iff.rfl Iff.rfl (Or.inl ⟨rfl, rfl⟩)
    exact hp.goto _ p .reacquire
  | exiting | passed | handedAll | wokeInitAll | wokeParentAll | waiting | gaveUp | looked
  | decided | reacquired => exact h.goto _ _ _

structure Inv (s : Sys) : Prop where
  coherent : Coherent s
  family : Family s
  alert : Alert s
  history : History s

theorem init_state (i : Nat) :
    (init.procs i).state = if i = initproc then .runnable else .unused := by
  simp only [init, update_apply]
  split <;> rfl

theorem init_parent (i : Nat) : (init.procs i).parent = none := by
  simp only [init, update_apply]
  split <;> rfl

theorem init_awake (i : Nat) :
    (init.procs i).state ≠ .sleeping ∧ (init.procs i).state ≠ .zombie := by
  rw [init_state]
  split <;> simp

theorem init_only (h : (init.procs i).state ≠ .unused) : i = initproc := by
  rw [init_state] at h
  by_contra hi
  simp [hi] at h

theorem init_inv : Inv init := by
  constructor
  · refine ⟨⟨by simp [init, Pc.child], by simp [init, Pc.child]⟩, fun i => ?_, fun i => ?_,
      fun i hi => ?_⟩
    · rw [init_state]
      split <;> rfl
    · simp [init, Pc.holds]
    · rw [init_only hi]
      decide
  · refine ⟨fun i _ => init_parent i, fun i q hq => ?_, fun i hi hne _ => ?_, ?_, rfl,
      by simp [init, Pc.moved]⟩
    · simp [init_parent] at hq
    · exact absurd (init_only hi) hne
    · simp [Alive, init_state]
  · refine ⟨fun q hq => ?_, fun p q hq => ?_, by simp [init, Pc.seen], fun q i hq => ?_⟩
    · exact absurd hq (init_awake q).1
    · simp [init_parent] at hq
    · exact absurd hq (init_awake q).1
  · refine ⟨fun i _ => Nat.one_pos, fun i j hi hj _ => ?_, fun i hi => ?_, by simp [init],
      by simp [init], nodup_nil, by simp [init], by simp [init], nodup_nil⟩
    · rw [init_only hi, init_only hj]
    · exact absurd hi (init_awake i).2

theorem inv_step (h : Inv s) (hs : step s a = some t) : Inv t := by
  have hm := step_moves hs
  exact ⟨coherent_step h.coherent hm, family_step h.family h.coherent hm,
    alert_step h.alert h.coherent h.family hm, history_step h.history h.coherent hm⟩

theorem reachable_inv (h : run step init as = some s) : Inv s :=
  run_invariant (fun _ _ _ => inv_step) init_inv h

/-- fork() has set the parent pointer of the process in slot i and wait() has not freed it. -/
def Forked (s : Sys) (i : Nat) : Prop :=
  (s.procs i).state ≠ .unused ∧ i ≠ initproc ∧ ∀ p, s.pc p ≠ .forked i

/-- Every exited process is reaped at most once, by its parent, with the status it passed to
exit(), and nobody sleeps through the exit of a child. -/
structure Reaping (s : Sys) : Prop where
  parents : s.waitLock = none → ∀ i, Forked s i →
    ∃ q, (s.procs i).parent = some q ∧ Alive (s.procs q) ∧ s.uid q = s.parentUid i
  children : ∀ a t, step s a = some t → t.reaps = s.reaps ∨
    ∃ p i, a = .go p true ∧ (s.procs i).parent = some p ∧ (s.procs i).state = .zombie ∧
      t.reaps = s.reaps ++ [s.exitOf i]
  statuses : ∀ r ∈ s.reaps, r ∈ s.exits
  exited : (s.exits.map Exit.uid).Nodup
  once : (s.reaps.map Exit.uid).Nodup
  awake : s.waitLock = none → ∀ q i, s.pc q = .asleep → (s.procs q).state = .sleeping →
    (s.procs i).parent = some q → (s.procs i).state ≠ .zombie

theorem wakeSlot_reaps (s : Sys) (p : Nat) (q : Option Nat) (j : Nat) :
    (s.wakeSlot p q j).reaps = s.reaps := by
  obtain he | ⟨-, -, -, he⟩ := wakeSlot_cases s p q j
  · rw [he]
  · rw [he]
    rfl

theorem reaps_step (hm : Moves s a t) : t.reaps = s.reaps ∨
    ∃ p i, a = .go p true ∧ (s.procs i).parent = some p ∧ (s.procs i).state = .zombie ∧
      t.reaps = s.reaps ++ [s.exitOf i] := by
  cases hm with
  | reaped p i havekids hrun hpc hi hparent hst => exact Or.inr ⟨p, i, rfl, hparent, hst, rfl⟩
  | wokeInit p status i j ok hrun hpc hj => exact Or.inl (wakeSlot_reaps s p _ j)
  | wokeParent p status j ok hrun hpc hj => exact Or.inl (wakeSlot_reaps s p _ j)
  | _ => exact Or.inl rfl

/-- In every state that any interleaving of fork, exit, kill and wait reaches. -/
theorem reaping (h : run step init as = some s) : Reaping s := by
  have hinv := reachable_inv h
  refine ⟨fun _ i ⟨hu, hne, hf⟩ => ?_, fun a t hs => reaps_step (step_moves hs),
    hinv.history.reaped, hinv.history.exited, hinv.history.once, fun hfree q i _ hq hi hz => ?_⟩
  · obtain ⟨q, hq⟩ := Option.ne_none_iff_exists'.mp (hinv.family.known i hu hne hf)
    exact ⟨q, hq, hinv.family.alive i q hq⟩
  · obtain ⟨_, p, status, k, j, hpc, _⟩ := hinv.alert.awake q i hq hi hz
    have hlock := (hinv.coherent.lock p).mpr (by rw [hpc]; rfl)
    rw [hfree] at hlock
    cases hlock

/-- init forks a child, which exits with status 7, and then waits for it. -/
def oneChild : List Act :=
  [.sched 0, .fork 0 1 true, .go 0 true, .go 0 true, .sched 1, .exit 1 7] ++
    List.replicate (2 * NPROC + 3) (.go 1 true) ++ [.wait 0, .go 0 true, .go 0 true]

theorem reaping_one_child :
    ∃ s, run step init oneChild = some s ∧ s.reaps = [⟨1, 2, 7⟩] ∧ Reaping s := by
  obtain ⟨s, hs, hr⟩ := Option.map_eq_some_iff.mp (show (run step init oneChild).map (·.reaps) =
    some [⟨1, 2, 7⟩] by decide +kernel)
  exact ⟨s, hs, hr, reaping hs⟩

end Xv6.Lifecycle
