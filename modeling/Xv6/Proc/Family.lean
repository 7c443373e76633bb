import Xv6.Proc.Coherent

namespace Xv6.Lifecycle
open Lib

/-- A process that has not exited. -/
def Alive (r : Proc) : Prop := r.state ≠ .unused ∧ r.state ≠ .zombie

def Pc.exiting : Pc → Bool
  | .reparenting .. | .wakingInit .. | .wakingParent .. | .marking _ => true
  | _ => false

/-- How many slots reparent() has been through. -/
def Pc.moved : Pc → Nat
  | .reparenting _ i => i
  | .wakingInit _ i _ => i + 1
  | .wakingParent .. | .marking _ => NPROC
  | _ => 0

/-- Every parent pointer leads to a process that has not exited and that is still the one
it was set to. -/
structure Family (s : Sys) : Prop where
  orphan : ∀ i, (s.procs i).state = .unused → (s.procs i).parent = none
  alive : ∀ i q, (s.procs i).parent = some q → Alive (s.procs q) ∧ s.uid q = s.parentUid i
  known : ∀ i, (s.procs i).state ≠ .unused → i ≠ initproc → (∀ p, s.pc p ≠ .forked i) →
    (s.procs i).parent ≠ none
  init : Alive (s.procs initproc)
  stays : (s.pc initproc).exiting = false
  moved : ∀ p i, i < (s.pc p).moved → (s.procs i).parent ≠ some p

theorem Family.put {r : Proc} (h : Family s) (hp : r.parent = (s.procs i).parent)
    (hu : r.state = .unused ↔ (s.procs i).state = .unused)
    (hz : r.state = .zombie ↔ (s.procs i).state = .zombie) : Family (s.put i r) := by
  have hparent : ∀ j, ((s.put i r).procs j).parent = (s.procs j).parent := by
    intro j
    rcases eq_or_ne j i with rfl | hj
    · simpa [Sys.put] using hp
    · simp [Sys.put, hj]
  have hunused : ∀ j, ((s.put i r).procs j).state = .unused ↔ (s.procs j).state = .unused := by
    intro j
    rcases eq_or_ne j i with rfl | hj
    · simpa [Sys.put] using hu
    · simp [Sys.put, hj]
  have hzombie : ∀ j, ((s.put i r).procs j).state = .zombie ↔ (s.procs j).state = .zombie := by
    intro j
    rcases eq_or_ne j i with rfl | hj
    · simpa [Sys.put] using hz
    · simp [Sys.put, hj]
  have halive : ∀ j, Alive ((s.put i r).procs j) ↔ Alive (s.procs j) := by
    intro j
    simp only [Alive, ne_eq, hunused, hzombie]
  refine ⟨fun j hj => ?_, fun j q hq => ?_, fun j hj hi hf => ?_, (halive _).mpr h.init, h.stays,
    fun p j hj => ?_⟩
  · rw [hparent]
    exact h.orphan j ((hunused j).mp hj)
  · rw [hparent] at hq
    exact ⟨(halive q).mpr (h.alive j q hq).1, (h.alive j q hq).2⟩
  · rw [hparent]
    exact h.known j (mt (hunused j).mpr hj) hi hf
  · rw [hparent]
    exact h.moved p j hj

theorem Family.goto {c : Pc} (h : Family s)
    (hf : ∀ i, s.pc p = .forked i → (s.procs i).parent ≠ none)
    (hm : ∀ i, i < c.moved → (s.procs i).parent ≠ some p)
    (he : p = initproc → c.exiting = false) :
    Family ({ s with waitLock := l }.goto p c) := by
  refine ⟨h.orphan, h.alive, fun i hu hi hnf => ?_, h.init, ?_, fun q i hi => ?_⟩
  · by_cases hp : s.pc p = .forked i
    · exact hf i hp
    · refine h.known i hu hi (fun q hq => ?_)
      rcases eq_or_ne q p with rfl | hqp
      · exact hp hq
      · exact hnf q (by simpa [Sys.goto, hqp] using hq)
  · rcases eq_or_ne initproc p with rfl | hp
    · simpa [Sys.goto] using he rfl
    · simpa [Sys.goto, hp] using h.stays
  · rcases eq_or_ne q p with rfl | hqp
    · exact hm i (by simpa [Sys.goto] using hi)
    · exact h.moved q i (by simpa [Sys.goto, hqp] using hi)

/-- The part of the argument shared by all moves inside wait() and back to user code. -/
theorem Family.settle {c : Pc} (h : Family s)
    (hf : ∀ i, s.pc p = .forked i → (s.procs i).parent ≠ none)
    (hc : c.exiting = false) : Family ({ s with waitLock := l }.goto p c) := by
  refine h.goto hf (fun i hi => ?_) (fun _ => hc)
  cases c <;> simp [Pc.moved, Pc.exiting] at hi hc

theorem Pc.exiting_of_moved {c : Pc} (h : i < c.moved) : c.exiting = true := by
  cases c <;> simp [Pc.moved, Pc.exiting] at h ⊢

/-- allocproc() takes a slot that nobody points to, and its fork() has yet to set the parent. -/
theorem Family.birth {r : Proc} (h : Family s) (hun : (s.procs np).state = .unused)
    (hpar : r.parent = none) (hf : s.pc p = .forked np) :
    Family { s.put np r with uid := Function.update s.uid np n } := by
  have hlive : ∀ q, Alive (s.procs q) → q ≠ np := by
    rintro q ⟨hq, _⟩ rfl
    exact hq hun
  refine ⟨fun i hi => ?_, fun i q hq => ?_, fun i hi hne hnf => ?_, ?_, h.stays, fun q i hi => ?_⟩
  · rcases eq_or_ne i np with rfl | hin
    · simpa [Sys.put] using hpar
    · simpa [Sys.put, hin] using h.orphan i (by simpa [Sys.put, hin] using hi)
  · rcases eq_or_ne i np with rfl | hin
    · simp [Sys.put, hpar] at hq
    · obtain ⟨ha, hid⟩ := h.alive i q (by simpa [Sys.put, hin] using hq)
      simpa [Sys.put, hlive q ha] using And.intro ha hid
  · rcases eq_or_ne i np with rfl | hin
    · exact absurd hf (hnf p)
    · simpa [Sys.put, hin] using h.known i (by simpa [Sys.put, hin] using hi) hne hnf
  · simpa [Sys.put, hlive _ h.init] using h.init
  · rcases eq_or_ne i np with rfl | hin
    · simp [Sys.put, hpar]
    · simpa [Sys.put, hin] using h.moved q i hi

theorem Family.adopt (h : Family s) (hi : (s.procs i).state ≠ .unused) (hq : Alive (s.procs q))
    (hm : (s.pc q).exiting = false) :
    Family { s.put i { s.procs i with parent := some q } with
      parentUid := Function.update s.parentUid i (s.uid q) } := by
  have hst : ∀ j, ((s.put i { s.procs i with parent := some q }).procs j).state =
      (s.procs j).state := put_state rfl
  have halive : ∀ j, Alive ((s.put i { s.procs i with parent := some q }).procs j) ↔
      Alive (s.procs j) := by
    intro j
    simp only [Alive, hst]
  refine ⟨fun j hj => ?_, fun j q' hq' => ?_, fun j hj hne hnf => ?_, (halive _).mpr h.init,
    h.stays, fun p j hj => ?_⟩
  · have hu : (s.procs j).state = .unused := (hst j).symm.trans hj
    have hji : j ≠ i := by
      rintro rfl
      exact hi hu
    simpa [Sys.put, hji] using h.orphan j hu
  · rcases eq_or_ne j i with rfl | hji
    · have he : q = q' := by simpa [Sys.put] using hq'
      subst he
      exact ⟨(halive q).mpr hq, by simp [Sys.put]⟩
    · obtain ⟨ha, hid⟩ := h.alive j q' (by simpa [Sys.put, hji] using hq')
      exact ⟨(halive q').mpr ha, by simpa [Sys.put, hji] using hid⟩
  · rcases eq_or_ne j i with rfl | hji
    · simp [Sys.put]
    · simpa [Sys.put, hji] using h.known j ((hst j).symm.trans_ne hj) hne hnf
  · rcases eq_or_ne j i with rfl | hji
    · have hp : q ≠ p := by
        rintro rfl
        have hx : (s.pc q).exiting = true := Pc.exiting_of_moved hj
        rw [hm] at hx
        cases hx
      simpa [Sys.put] using hp
    · simpa [Sys.put, hji] using h.moved p j hj

theorem Family.leave {r : Proc} (h : Family s) (hi : i ≠ initproc)
    (hno : ∀ j, (s.procs j).parent ≠ some i)
    (hr : r.state = .unused ∧ r.parent = none ∨
      r.state ≠ .unused ∧ (s.procs i).state ≠ .unused ∧ r.parent = (s.procs i).parent) :
    Family (s.put i r) := by
  have hparent : ∀ j, ((s.put i r).procs j).parent = none ∨
      ((s.put i r).procs j).parent = (s.procs j).parent := by
    intro j
    rcases eq_or_ne j i with rfl | hj
    · rcases hr with ⟨_, hp⟩ | ⟨_, _, hp⟩
      · exact Or.inl (by simpa [Sys.put] using hp)
      · exact Or.inr (by simpa [Sys.put] using hp)
    · exact Or.inr (by simp [Sys.put, hj])
  have hkeep : ∀ j q, ((s.put i r).procs j).parent = some q → (s.procs j).parent = some q := by
    intro j q hq
    rcases hparent j with hp | hp
    · rw [hp] at hq
      cases hq
    · rw [← hp]
      exact hq
  refine ⟨fun j hj => ?_, fun j q hq => ?_, fun j hj hne hnf => ?_, ?_, h.stays,
    fun p j hj hq => ?_⟩
  · rcases eq_or_ne j i with rfl | hji
    · rcases hr with ⟨_, hp⟩ | ⟨hu, _⟩
      · simpa [Sys.put] using hp
      · exact absurd (by simpa [Sys.put] using hj) hu
    · simpa [Sys.put, hji] using h.orphan j (by simpa [Sys.put, hji] using hj)
  · have hq' := hkeep j q hq
    have hqi : q ≠ i := by
      rintro rfl
      exact hno j hq'
    simpa [Sys.put, hqi] using h.alive j q hq'
  · rcases eq_or_ne j i with rfl | hji
    · rcases hr with ⟨hu, _⟩ | ⟨_, hu, hp⟩
      · exact absurd (by simpa [Sys.put] using hu) hj
      · simpa [Sys.put, hp] using h.known j hu hne hnf
    · simpa [Sys.put, hji] using h.known j (by simpa [Sys.put, hji] using hj) hne hnf
  · simpa [Sys.put, Ne.symm hi] using h.init
  · exact h.moved p j hj (hkeep j p hq)

theorem Family.wakeSlot (h : Family s) (p : Nat) (q : Option Nat) (j : Nat) :
    Family (s.wakeSlot p q j) := by
  obtain he | ⟨hs, -, -, he⟩ := wakeSlot_cases s p q j
  · rw [he]
    exact h
  · rw [he]
    exact h.put rfl (by simp [hs]) (by simp [hs])

theorem Family.not_init (h : Family s) (hx : (s.pc p).exiting = true) : p ≠ initproc := by
  rintro rfl
  rw [h.stays] at hx
  cases hx

/-- A process goes on inside exit(), with nothing more to hand over. -/
theorem Family.advance {c : Pc} (h : Family s) (hx : (s.pc p).exiting = true)
    (hm : c.moved ≤ (s.pc p).moved) : Family (s.goto p c) := by
  refine h.goto (fun i hi => ?_) (fun i hi => h.moved p i (Nat.lt_of_lt_of_le hi hm))
    (fun he => absurd he (h.not_init hx))
  rw [hi] at hx
  cases hx

/-- reparent() has been through slot i and all before it. -/
theorem Family.moved_before (h : Family s) (hm : (s.pc p).moved = i) (hj : j < i + 1)
    (hji : j ≠ i) : (s.procs j).parent ≠ some p := by
  apply h.moved p j
  omega

theorem family_step (h : Family s) (hc : Coherent s) (hm : Moves s a t) : Family t := by
  cases hm with
  | sched p hst => exact h.put rfl (by simp [hst]) (by simp [hst])
  | yield p hrun hpc => exact h.put rfl (by simp [hrun]) (by simp [hrun])
  | killed i hi =>
    obtain ⟨hk, -⟩ | ⟨hk, hs⟩ := kill_cases (s.procs i)
    · exact h.put rfl (by rw [hk]) (by rw [hk])
    · exact h.put rfl (by simp [hk, hs]) (by simp [hk, hs])
  | forkFailed p np hrun hpc hnp hun =>
    have hp : Family (s.put np (s.procs np).freeproc) :=
      h.put (h.orphan np hun).symm (by simp [Proc.freeproc, hun]) (by simp [Proc.freeproc, hun])
    exact { hp with }
  | forked p np hrun hpc hnp hun =>
    have hne : p ≠ np := Table.ne_of_state hrun hun (by simp)
    have hfree := hc.idle hun
    have hnew : Family (s.goto np .user) :=
      h.settle (by rcases hfree with hf | hf <;> simp [hf]) rfl
    have hgo : Family ((s.goto np .user).goto p (.forked np)) :=
      hnew.settle (by simp [Sys.goto, hne, hpc]) rfl
    have hb := hgo.birth (p := p) (n := s.births) hun
      (r := { s.procs np with pid := s.nextpid, state := .used }) (h.orphan np hun)
      (by simp [Sys.goto])
    exact { hb with }
  | published p np ok hrun hpc hfree =>
    have hu := hc.used p np (by rw [hpc]; rfl)
    have hp := h.adopt (i := np) (q := p) (by simp [hu]) (by simp [Alive, hrun])
      (by rw [hpc]; rfl)
    refine hp.settle (fun i hi => ?_) rfl
    have he : np = i := by simpa [Sys.put, hpc] using hi
    simp [Sys.put, he]
  | started p np ok hrun hpc =>
    have hu := hc.used p np (by rw [hpc]; rfl)
    have hp : Family (s.setState np .runnable) := h.put rfl (by simp [hu]) (by simp [hu])
    exact hp.settle (by simp [Sys.setState, Sys.put, hpc]) rfl
  | exiting p status hrun hpc hp hfree =>
    exact h.goto (by simp [hpc]) (by simp [Pc.moved]) (fun he => absurd he hp)
  | handed p status i ok hrun hpc hi hparent =>
    have hp := h.not_init (p := p) (by rw [hpc]; rfl)
    have hu : (s.procs i).state ≠ .unused := by
      intro hu
      rw [h.orphan i hu] at hparent
      cases hparent
    have ha := h.adopt (i := i) hu h.init h.stays
    refine ha.goto (by simp [Sys.put, hpc]) (fun j hj => ?_) (fun he => absurd he hp)
    rcases eq_or_ne j i with rfl | hji
    · simpa [Sys.put] using Ne.symm hp
    · simpa [Sys.put, hji] using h.moved_before (by rw [hpc]; rfl) hj hji
  | passed p status i ok hrun hpc hi hparent =>
    refine h.goto (by simp [hpc]) (fun j hj => ?_)
      (fun he => absurd he (h.not_init (by rw [hpc]; rfl)))
    rcases eq_or_ne j i with rfl | hji
    · exact hparent
    · exact h.moved_before (by rw [hpc]; rfl) hj hji
  | handedAll p status i ok hrun hpc hi =>
    exact h.advance (by rw [hpc]; rfl) (by rw [hpc]; exact hi)
  | wokeInit p status i j ok hrun hpc hj =>
    exact (h.wakeSlot p (some initproc) j).advance (by rw [wakeSlot_pc, hpc]; rfl)
      (by rw [wakeSlot_pc, hpc]; exact Nat.le_refl _)
  | wokeInitAll p status i j ok hrun hpc hj =>
    exact h.advance (by rw [hpc]; rfl) (by rw [hpc]; exact Nat.le_refl _)
  | wokeParent p status j ok hrun hpc hj =>
    exact (h.wakeSlot p (s.procs p).parent j).advance (by rw [wakeSlot_pc, hpc]; rfl)
      (by rw [wakeSlot_pc, hpc]; exact Nat.le_refl _)
  | wokeParentAll p status j ok hrun hpc hj =>
    exact h.advance (by rw [hpc]; rfl) (by rw [hpc]; exact Nat.le_refl _)
  | exited p status ok hrun hpc =>
    have hno : ∀ j, (s.procs j).parent ≠ some p := by
      intro j hj
      by_cases hu : (s.procs j).state = .unused
      · rw [h.orphan j hu] at hj
        cases hj
      · exact h.moved p j (by rw [hpc]; exact hc.bound j hu) hj
    have hl := h.leave (r := { s.procs p with xstate := status, state := .zombie })
      (h.not_init (by rw [hpc]; rfl)) hno (Or.inr ⟨by simp, by simp [hrun], rfl⟩)
    have hg := hl.settle (p := p) (c := .dead) (l := none) (by simp [Sys.put, hpc]) rfl
    exact { hg with }
  | waiting p hrun hpc hfree => exact h.settle (by simp [hpc]) rfl
  | reaped p i havekids hrun hpc hi hparent hst =>
    have hdead : ¬ Alive (s.procs i) := fun ha => ha.2 hst
    have hl := h.leave (i := i) (r := (s.procs i).freeproc) (fun he => hdead (he ▸ h.init))
      (fun j hj => hdead (h.alive j i hj).1) (Or.inl ⟨rfl, rfl⟩)
    have hg := hl.settle (p := p) (c := .user) (l := none) (by simp [Sys.put, hpc]) rfl
    exact { hg with }
  | gaveUp p i havekids ok hrun hpc => exact h.settle (by simp [hpc]) rfl
  | looked p i havekids havekids' ok hrun hpc hst => exact h.settle (by simp [hpc]) rfl
  | decided p i ok hrun hpc hi => exact h.settle (by simp [hpc]) rfl
  | slept p ok hrun hpc =>
    have hp : Family (s.put p ((s.procs p).sleep (.proc p))) :=
      h.put rfl (by simp [Proc.sleep, hrun]) (by simp [Proc.sleep, hrun])
    exact hp.settle (by simp [Sys.put, hpc]) rfl
  | resumed p ok hrun hpc =>
    have hp : Family (s.put p { s.procs p with chan := none }) := h.put rfl Iff.rfl Iff.rfl
    exact hp.settle (by simp [Sys.put, hpc]) rfl
  | reacquired p ok hrun hpc hfree => exact h.settle (by simp [hpc]) rfl

end Xv6.Lifecycle
