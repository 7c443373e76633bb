import Xv6.Proc.Reap
import Xv6.Proc.Slots

namespace Xv6.Signal
open Function Lib
open Lifecycle (InUse Slot)

def SIGINT : Int := 2

abbrev Handler := BitVec 64

/-- Process control with sig_handlers[SIGINT] of every slot. installed is not in the source: it
keeps the handlers that the process in the slot has set since its last exec(), or had from its
parent. -/
structure Sys where
  life : Lifecycle.Sys
  handlers : Nat → Handler
  installed : Nat → List Handler

inductive Act where
  | life (a : Lifecycle.Act)
  | signal (p : Nat) (signum : Int) (handler : Handler)
  | exec (p : Nat) (ok : Bool)
  deriving DecidableEq

/-- procinit() sets the handlers of every slot to 0. -/
def init : Sys where
  life := Lifecycle.init
  handlers := fun _ => 0
  installed := fun _ => []

/-- A child may run with the handler that its parent has at the fork, if it is the parent's
own. -/
def inherit (s : Sys) : Lifecycle.Act → Nat → List Handler
  | .fork p np true => update s.installed np ((s.installed p).filter (· = s.handlers p))
  | _ => s.installed

/-- allocproc(), freeproc(), fork() and exec() leave the handlers of a slot as they are. -/
def step (s : Sys) : Act → Option Sys
  | .life a =>
    (Lifecycle.step s.life a).map fun t =>
      { s with life := t, installed := inherit s a }
  | .signal p signum handler =>
    if (s.life.procs p).state = .running ∧ s.life.pc p = .user then
      if signum ≠ SIGINT then some s
      else
        some { s with
          handlers := update s.handlers p handler
          installed := update s.installed p (handler :: s.installed p) }
    else none
  | .exec p ok =>
    if (s.life.procs p).state = .running ∧ s.life.pc p = .user then
      if ok then some { s with installed := update s.installed p [] } else some s
    else none

/-- A process runs with a handler of its own, or with none. -/
def HandlersOwn (s : Sys) : Prop :=
  ∀ i, InUse s.life i → s.handlers i ≠ 0 → s.handlers i ∈ s.installed i

/-- A process takes its handler back before it leaves its program. -/
def Tidy (s : Sys) : Act → Prop
  | .life (.exit p _) => s.handlers p = 0
  | .exec p ok => ok = true → s.handlers p = 0
  | _ => True

instance (s : Sys) (a : Act) : Decidable (Tidy s a) :=
  match a with
  | .life (.exit ..) => inferInstanceAs (Decidable (_ = _))
  | .exec .. => inferInstanceAs (Decidable (_ → _))
  | .signal .. | .life (.sched _) | .life (.yield _) | .life (.kill _) | .life (.fork ..)
  | .life (.wait _) | .life (.go ..) => isTrue trivial

/-- The slot is free, or its process is on the way out. -/
def Leaving (s : Lifecycle.Sys) (i : Nat) : Prop :=
  (s.procs i).state = .unused ∨ (s.procs i).state = .zombie ∨ (s.pc i).exiting = true

structure Inv (s : Sys) : Prop where
  own : HandlersOwn s
  gone : ∀ i, Leaving s.life i → s.handlers i = 0

theorem inherit_of_ne (s : Sys) (ha : ∀ p, a ≠ .fork p i true) :
    inherit s a i = s.installed i := by
  unfold inherit
  split
  · next p np =>
    apply update_of_ne
    intro he
    exact ha p (by rw [he])
  · rfl

/-- Nobody leaves in a step of process control who was not leaving, unless by exit(). -/
theorem leaving_of (hf : Lifecycle.Forking s) (hm : Lifecycle.Moves s a t) (h : Leaving t i) :
    Leaving s i ∨ ∃ status, a = .exit i status := by
  have hslot := hm.slot hf i
  obtain h | h | h := h
  · left
    cases hslot with
    | kept hpid hkilled huse hexit =>
      left
      by_contra hne
      exact huse.mpr hne h
    | killed ha he =>
      left
      by_contra hne
      rw [he] at h
      exact Lifecycle.kill_inUse.mpr hne h
    | freed hst he => exact hst.imp_right .inl
    | born p ha hun he =>
      rw [he] at h
      cases h
  · left
    cases hslot with
    | kept hpid hkilled huse hexit => exact .inr (hexit h)
    | killed ha he =>
      rw [he] at h
      unfold Proc.kill at h
      dsimp only at h
      split at h
      · cases h
      · exact .inr (.inl h)
    | freed hst he =>
      rw [he] at h
      cases h
    | born p ha hun he =>
      rw [he] at h
      cases h
  · obtain h | h := hm.exiting_of h
    · exact .inl (.inr (.inr h))
    · exact .inr h

theorem Inv.life (h : Inv s) (hf : Lifecycle.Forking s.life) (hg : Tidy s (.life a))
    (hm : Lifecycle.Moves s.life a t) :
    Inv { s with life := t, installed := inherit s a } := by
  constructor
  case own =>
    intro i hi hne
    dsimp only at hi hne ⊢
    have hold : InUse s.life i := fun hu => hne (h.gone i (.inl hu))
    rw [inherit_of_ne]
    · exact h.own i hold hne
    · intro p ha
      rw [ha] at hm
      exact hold (Lifecycle.forked_slot hm).1
  case gone =>
    intro i hi
    obtain hi | ⟨status, ha⟩ := leaving_of hf hm hi
    · exact h.gone i hi
    · rw [ha] at hg
      exact hg

theorem Inv.signal (h : Inv s) (hrun : (s.life.procs p).state = .running)
    (hpc : s.life.pc p = .user) :
    Inv { s with
      handlers := update s.handlers p handler
      installed := update s.installed p (handler :: s.installed p) } := by
  constructor
  case own =>
    intro i hi hne
    dsimp only at hi hne ⊢
    rcases eq_or_ne i p with rfl | hip
    · rw [update_self, update_self]
      exact List.mem_cons_self
    · rw [update_of_ne hip] at hne ⊢
      rw [update_of_ne hip]
      exact h.own i hi hne
  case gone =>
    intro i hi
    dsimp only at hi ⊢
    rcases eq_or_ne i p with rfl | hip
    · obtain hi | hi | hi := hi
      · rw [hrun] at hi
        cases hi
      · rw [hrun] at hi
        cases hi
      · rw [hpc] at hi
        cases hi
    · rw [update_of_ne hip]
      exact h.gone i hi

theorem Inv.exec (h : Inv s) (hp : s.handlers p = 0) :
    Inv { s with installed := update s.installed p [] } := by
  constructor
  case own =>
    intro i hi hne
    dsimp only at hi hne ⊢
    rcases eq_or_ne i p with rfl | hip
    · exact absurd hp hne
    · rw [update_of_ne hip]
      exact h.own i hi hne
  case gone => exact h.gone

theorem inv_step (hl : Lifecycle.Inv s.life) (h : Inv s) (hg : Tidy s a)
    (hst : step s a = some t) : Lifecycle.Inv t.life ∧ Inv t := by
  cases a with
  | life a =>
    obtain ⟨u, hu, ht⟩ := Option.map_eq_some_iff.mp hst
    subst ht
    exact ⟨Lifecycle.inv_step hl hu,
      h.life hl.coherent.toForking hg (Lifecycle.step_moves hu)⟩
  | signal p signum handler =>
    obtain ⟨⟨hrun, hpc⟩, hst⟩ := Option.ite_none_right_eq_some.mp hst
    split at hst
    · cases hst
      exact ⟨hl, h⟩
    · cases hst
      exact ⟨hl, h.signal hrun hpc⟩
  | exec p ok =>
    obtain ⟨⟨hrun, hpc⟩, hst⟩ := Option.ite_none_right_eq_some.mp hst
    split at hst
    · next hok =>
      cases hst
      exact ⟨hl, h.exec (hg hok)⟩
    · cases hst
      exact ⟨hl, h⟩

theorem inv_init : Inv init where
  own := fun _ _ hne => absurd rfl hne
  gone := fun _ _ => rfl

/-- If every process takes its handler back before it calls exec() or exit(), no process runs
with the handler of another program. -/
theorem handlers_own (hg : Along step Tidy init as) (h : run step init as = some s) :
    HandlersOwn s := by
  have hi : Lifecycle.Inv s.life ∧ Inv s :=
    along_invariant (I := fun s => Lifecycle.Inv s.life ∧ Inv s)
      (fun _ _ _ hs hg hst => inv_step hs.1 hs.2 hg hst) ⟨Lifecycle.init_inv, inv_init⟩ hg h
  exact hi.2.own

/-- The first process forks, its child in slot 1 starts to run. -/
def birth (p np : Nat) : List Act :=
  [.life (.fork p np true), .life (.go p true), .life (.go p true), .life (.sched np)]

/-- The child in slot 1 exits. -/
def death : List Act :=
  .life (.exit 1 0) :: List.replicate (NPROC + 1 + NPROC + 2) (.life (.go 1 true))

/-- The first process waits for the child. -/
def burial : List Act := [.life (.wait 0), .life (.go 0 true), .life (.go 0 true)]

/-- A child sets a handler, exits and is reaped. The next child gets its slot. -/
def inheritance : List Act :=
  [.life (.sched 0)] ++ birth 0 1 ++ [.signal 1 2 0x1000] ++ death ++ burial ++ birth 0 1

theorem handler_of_reaped_process :
    ∃ s, run step init inheritance = some s ∧ (s.life.procs 1).state = .running ∧
      (s.life.procs 1).pid = 3 ∧ s.handlers 1 = 0x1000 ∧ s.installed 1 = [] ∧
      ¬ HandlersOwn s := by
  obtain ⟨s, hs, hst, hpid, hh, hi⟩ : ∃ s, run step init inheritance = some s ∧
      (s.life.procs 1).state = .running ∧ (s.life.procs 1).pid = 3 ∧ s.handlers 1 = 0x1000 ∧
      s.installed 1 = [] := by decide +kernel
  refine ⟨s, hs, hst, hpid, hh, hi, ?_⟩
  intro ho
  have hm := ho 1 (by simp [InUse, hst]) (by rw [hh]; decide)
  rw [hi] at hm
  cases hm

/-- The same with the handler taken back. The second child has one of its own. -/
def replacement : List Act :=
  [.life (.sched 0)] ++ birth 0 1 ++ [.signal 1 2 0x1000, .signal 1 2 0] ++ death ++ burial ++
    birth 0 1 ++ [.signal 1 2 0x2000]

theorem handlers_own_replacement :
    ∃ s, run step init replacement = some s ∧ s.handlers 1 = 0x2000 ∧ HandlersOwn s := by
  obtain ⟨s, hs, hp⟩ : ∃ s, run step init replacement = some s ∧ s.handlers 1 = 0x2000 := by
    decide +kernel
  have hg : Along step Tidy init replacement := by decide +kernel
  exact ⟨s, hs, hp, handlers_own hg hs⟩

end Xv6.Signal
