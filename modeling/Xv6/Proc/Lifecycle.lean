import Mathlib.Data.BitVec
import Mathlib.Logic.Function.Basic
import Xv6.Lib.Run
import Xv6.Proc.Table

namespace Xv6.Lifecycle
open Function Lib

/-- userinit() runs first and finds the first slot. -/
def initproc : Nat := 0

/-- Where a process stands between two lock sections of fork, exit and wait. -/
inductive Pc where
  | user
  | forked (np : Nat)
  | parented (np : Nat)
  | reparenting (status : Int) (i : Nat)
  | wakingInit (status : Int) (i j : Nat)
  | wakingParent (status : Int) (j : Nat)
  | marking (status : Int)
  | dead
  | scanning (i : Nat) (havekids : Bool)
  | toSleep
  | asleep
  | reacquire
  deriving DecidableEq

/-- The code between acquire(&wait_lock) and its release, in exit and in wait. -/
def Pc.holds : Pc → Bool
  | .reparenting .. | .wakingInit .. | .wakingParent .. | .marking _ => true
  | .scanning .. | .toSleep => true
  | _ => false

/-- No spinlock is held, so that a timer interrupt can make the process yield. -/
def Pc.preemptible : Pc → Bool
  | .user | .forked _ | .parented _ | .reacquire => true
  | _ => false

/-- The end of one incarnation of a slot. -/
structure Exit where
  uid : Nat
  pid : Int
  status : Int
  deriving DecidableEq

/-- The kernel's process control. The fields from uid on are not in the source: they number
the incarnations of slots and keep what exit was called with and what wait delivered. -/
structure Sys where
  procs : Table
  waitLock : Option Nat
  pc : Nat → Pc
  nextpid : Int
  uid : Nat → Nat
  births : Nat
  parentUid : Nat → Nat
  exits : List Exit
  reaps : List Exit

inductive Act where
  | sched (p : Nat)
  | yield (p : Nat)
  | kill (i : Nat)
  | fork (p np : Nat) (ok : Bool)
  | exit (p : Nat) (status : Int)
  | wait (p : Nat)
  | go (p : Nat) (ok : Bool)
  deriving DecidableEq

/-- After userinit(). -/
def init : Sys where
  procs := update (fun _ => {}) initproc { state := .runnable, pid := 1 }
  waitLock := none
  pc := fun _ => .user
  nextpid := 2
  uid := fun _ => 0
  births := 1
  parentUid := fun _ => 0
  exits := []
  reaps := []

def Sys.goto (s : Sys) (p : Nat) (c : Pc) : Sys := { s with pc := update s.pc p c }

def Sys.put (s : Sys) (i : Nat) (r : Proc) : Sys :=
  { s with procs := update s.procs i r }

def Sys.setState (s : Sys) (p : Nat) (st : ProcState) : Sys :=
  s.put p { s.procs p with state := st }

def Sys.exitOf (s : Sys) (i : Nat) : Exit := ⟨s.uid i, (s.procs i).pid, (s.procs i).xstate⟩

/-- nextpid is an int. -/
def succPid (pid : Int) : Int := (pid + 1).bmod (2 ^ 32)

/-- allocproc() and the rest of fork()'s first section, on the slot that the scan found
UNUSED. The new process will start at forkret(). When memory runs out the slot is freed again
before its lock is released. -/
def forkAlloc (s : Sys) (p np : Nat) (ok : Bool) : Option Sys :=
  if np < NPROC ∧ (s.procs np).state = .unused then
    if ok then
      some ({ s.put np { s.procs np with pid := s.nextpid, state := .used } with
        nextpid := succPid s.nextpid
        uid := update s.uid np s.births
        births := s.births + 1 }.goto np .user |>.goto p (.forked np))
    else some { s.put np (s.procs np).freeproc with nextpid := succPid s.nextpid }
  else none

/-- The section of wakeup(q) on slot j, called by p. -/
def Sys.wakeSlot (s : Sys) (p : Nat) (q : Option Nat) (j : Nat) : Sys :=
  match q with
  | none => s
  | some q => if j = p then s else s.put j ((s.procs j).wakeup (.proc q))

def reparentAt (s : Sys) (p : Nat) (status : Int) (i : Nat) : Sys :=
  if i < NPROC then
    if (s.procs i).parent = some p then
      { s.put i { s.procs i with parent := some initproc } with
        parentUid := update s.parentUid i (s.uid initproc) }.goto p
          (.wakingInit status i 0)
    else s.goto p (.reparenting status (i + 1))
  else s.goto p (.wakingParent status 0)

/-- ok says whether copyout() of the status succeeds, if it comes to that. -/
def scanAt (s : Sys) (p i : Nat) (havekids ok : Bool) : Sys :=
  if i < NPROC then
    if (s.procs i).parent = some p then
      if (s.procs i).state = .zombie then
        if ok then
          { s.put i (s.procs i).freeproc with
            waitLock := none
            reaps := s.reaps ++ [s.exitOf i] }.goto p .user
        else { s with waitLock := none }.goto p .user
      else s.goto p (.scanning (i + 1) true)
    else s.goto p (.scanning (i + 1) havekids)
  else if !havekids || (s.procs p).killed then { s with waitLock := none }.goto p .user
  else s.goto p .toSleep

/-- The next section of a process that is inside fork, exit or wait. -/
def go (s : Sys) (p : Nat) (ok : Bool) : Option Sys :=
  match s.pc p with
  | .user | .dead => none
  | .forked np =>
    if s.waitLock = none then
      some ({ s.put np { s.procs np with parent := some p } with
        parentUid := update s.parentUid np (s.uid p) }.goto p (.parented np))
    else none
  | .parented np => some ((s.setState np .runnable).goto p .user)
  | .reparenting status i => some (reparentAt s p status i)
  | .wakingInit status i j =>
    if j < NPROC then some ((s.wakeSlot p (some initproc) j).goto p (.wakingInit status i (j + 1)))
    else some (s.goto p (.reparenting status (i + 1)))
  | .wakingParent status j =>
    if j < NPROC then
      some ((s.wakeSlot p (s.procs p).parent j).goto p (.wakingParent status (j + 1)))
    else some (s.goto p (.marking status))
  | .marking status =>
    some ({ s.put p { s.procs p with xstate := status, state := .zombie } with
      waitLock := none
      exits := s.exits ++ [Exit.mk (s.uid p) (s.procs p).pid status] }.goto p .dead)
  | .scanning i havekids => some (scanAt s p i havekids ok)
  | .toSleep =>
    some ({ s.put p ((s.procs p).sleep (.proc p)) with waitLock := none }.goto p .asleep)
  | .asleep => some ((s.put p { s.procs p with chan := none }).goto p .reacquire)
  | .reacquire =>
    if s.waitLock = none then
      some ({ s with waitLock := some p }.goto p (.scanning 0 false))
    else none

/-- Only a running process executes code of its own. kill() reaches any slot that carries the
pid it looks for. init does not exit: exit() panics. -/
def step (s : Sys) : Act → Option Sys
  | .sched p => if (s.procs p).state = .runnable then some (s.setState p .running) else none
  | .yield p =>
    if (s.procs p).state = .running ∧ (s.pc p).preemptible = true then
      some (s.setState p .runnable)
    else none
  | .kill i => if i < NPROC then some (s.put i (s.procs i).kill) else none
  | .fork p np ok =>
    if (s.procs p).state = .running ∧ s.pc p = .user then forkAlloc s p np ok else none
  | .exit p status =>
    if (s.procs p).state = .running ∧ s.pc p = .user ∧ p ≠ initproc ∧ s.waitLock = none then
      some ({ s with waitLock := some p }.goto p (.reparenting status 0))
    else none
  | .wait p =>
    if (s.procs p).state = .running ∧ s.pc p = .user ∧ s.waitLock = none then
      some ({ s with waitLock := some p }.goto p (.scanning 0 false))
    else none
  | .go p ok => if (s.procs p).state = .running then go s p ok else none

/-- Everything one step can do. -/
inductive Moves (s : Sys) : Act → Sys → Prop where
  | sched (p : Nat) (hst : (s.procs p).state = .runnable) :
      Moves s (.sched p) (s.setState p .running)
  | yield (p : Nat) (hrun : (s.procs p).state = .running) (hpc : (s.pc p).preemptible = true) :
      Moves s (.yield p) (s.setState p .runnable)
  | killed (i : Nat) (hi : i < NPROC) : Moves s (.kill i) (s.put i (s.procs i).kill)
  | forkFailed (p np : Nat) (hrun : (s.procs p).state = .running) (hpc : s.pc p = .user)
      (hnp : np < NPROC) (hun : (s.procs np).state = .unused) :
      Moves s (.fork p np false)
        { s.put np (s.procs np).freeproc with nextpid := succPid s.nextpid }
  | forked (p np : Nat) (hrun : (s.procs p).state = .running) (hpc : s.pc p = .user)
      (hnp : np < NPROC) (hun : (s.procs np).state = .unused) :
      Moves s (.fork p np true)
        ({ s.put np { s.procs np with pid := s.nextpid, state := .used } with
          nextpid := succPid s.nextpid
          uid := update s.uid np s.births
          births := s.births + 1 }.goto np .user |>.goto p (.forked np))
  | published (p np : Nat) (ok : Bool) (hrun : (s.procs p).state = .running)
      (hpc : s.pc p = .forked np) (hfree : s.waitLock = none) :
      Moves s (.go p ok)
        ({ s.put np { s.procs np with parent := some p } with
          parentUid := update s.parentUid np (s.uid p) }.goto p (.parented np))
  | started (p np : Nat) (ok : Bool) (hrun : (s.procs p).state = .running)
      (hpc : s.pc p = .parented np) :
      Moves s (.go p ok) ((s.setState np .runnable).goto p .user)
  | exiting (p : Nat) (status : Int) (hrun : (s.procs p).state = .running)
      (hpc : s.pc p = .user) (hp : p ≠ initproc) (hfree : s.waitLock = none) :
      Moves s (.exit p status) ({ s with waitLock := some p }.goto p (.reparenting status 0))
  | handed (p : Nat) (status : Int) (i : Nat) (ok : Bool) (hrun : (s.procs p).state = .running)
      (hpc : s.pc p = .reparenting status i) (hi : i < NPROC)
      (hparent : (s.procs i).parent = some p) :
      Moves s (.go p ok)
        ({ s.put i { s.procs i with parent := some initproc } with
          parentUid := update s.parentUid i (s.uid initproc) }.goto p
            (.wakingInit status i 0))
  | passed (p : Nat) (status : Int) (i : Nat) (ok : Bool) (hrun : (s.procs p).state = .running)
      (hpc : s.pc p = .reparenting status i) (hi : i < NPROC)
      (hparent : (s.procs i).parent ≠ some p) :
      Moves s (.go p ok) (s.goto p (.reparenting status (i + 1)))
  | handedAll (p : Nat) (status : Int) (i : Nat) (ok : Bool)
      (hrun : (s.procs p).state = .running) (hpc : s.pc p = .reparenting status i)
      (hi : NPROC ≤ i) :
      Moves s (.go p ok) (s.goto p (.wakingParent status 0))
  | wokeInit (p : Nat) (status : Int) (i j : Nat) (ok : Bool)
      (hrun : (s.procs p).state = .running) (hpc : s.pc p = .wakingInit status i j)
      (hj : j < NPROC) :
      Moves s (.go p ok)
        ((s.wakeSlot p (some initproc) j).goto p (.wakingInit status i (j + 1)))
  | wokeInitAll (p : Nat) (status : Int) (i j : Nat) (ok : Bool)
      (hrun : (s.procs p).state = .running) (hpc : s.pc p = .wakingInit status i j)
      (hj : NPROC ≤ j) :
      Moves s (.go p ok) (s.goto p (.reparenting status (i + 1)))
  | wokeParent (p : Nat) (status : Int) (j : Nat) (ok : Bool)
      (hrun : (s.procs p).state = .running) (hpc : s.pc p = .wakingParent status j)
      (hj : j < NPROC) :
      Moves s (.go p ok)
        ((s.wakeSlot p (s.procs p).parent j).goto p (.wakingParent status (j + 1)))
  | wokeParentAll (p : Nat) (status : Int) (j : Nat) (ok : Bool)
      (hrun : (s.procs p).state = .running) (hpc : s.pc p = .wakingParent status j)
      (hj : NPROC ≤ j) :
      Moves s (.go p ok) (s.goto p (.marking status))
  | exited (p : Nat) (status : Int) (ok : Bool) (hrun : (s.procs p).state = .running)
      (hpc : s.pc p = .marking status) :
      Moves s (.go p ok)
        ({ s.put p { s.procs p with xstate := status, state := .zombie } with
          waitLock := none
          exits := s.exits ++ [Exit.mk (s.uid p) (s.procs p).pid status] }.goto p .dead)
  | waiting (p : Nat) (hrun : (s.procs p).state = .running) (hpc : s.pc p = .user)
      (hfree : s.waitLock = none) :
      Moves s (.wait p) ({ s with waitLock := some p }.goto p (.scanning 0 false))
  | reaped (p i : Nat) (havekids : Bool) (hrun : (s.procs p).state = .running)
      (hpc : s.pc p = .scanning i havekids) (hi : i < NPROC)
      (hparent : (s.procs i).parent = some p) (hst : (s.procs i).state = .zombie) :
      Moves s (.go p true)
        ({ s.put i (s.procs i).freeproc with
          waitLock := none
          reaps := s.reaps ++ [s.exitOf i] }.goto p .user)
  | gaveUp (p i : Nat) (havekids ok : Bool) (hrun : (s.procs p).state = .running)
      (hpc : s.pc p = .scanning i havekids) :
      Moves s (.go p ok) ({ s with waitLock := none }.goto p .user)
  | looked (p i : Nat) (havekids havekids' ok : Bool) (hrun : (s.procs p).state = .running)
      (hpc : s.pc p = .scanning i havekids)
      (hst : (s.procs i).parent = some p → (s.procs i).state ≠ .zombie) :
      Moves s (.go p ok) (s.goto p (.scanning (i + 1) havekids'))
  | decided (p i : Nat) (ok : Bool) (hrun : (s.procs p).state = .running)
      (hpc : s.pc p = .scanning i true) (hi : NPROC ≤ i) :
      Moves s (.go p ok) (s.goto p .toSleep)
  | slept (p : Nat) (ok : Bool) (hrun : (s.procs p).state = .running) (hpc : s.pc p = .toSleep) :
      Moves s (.go p ok)
        ({ s.put p ((s.procs p).sleep (.proc p)) with waitLock := none }.goto p .asleep)
  | resumed (p : Nat) (ok : Bool) (hrun : (s.procs p).state = .running)
      (hpc : s.pc p = .asleep) :
      Moves s (.go p ok) ((s.put p { s.procs p with chan := none }).goto p .reacquire)
  | reacquired (p : Nat) (ok : Bool) (hrun : (s.procs p).state = .running)
      (hpc : s.pc p = .reacquire) (hfree : s.waitLock = none) :
      Moves s (.go p ok) ({ s with waitLock := some p }.goto p (.scanning 0 false))

/-- The section of wakeup() on a slot makes a sleeper runnable, or does nothing. -/
theorem wakeSlot_cases (s : Sys) (p : Nat) (q : Option Nat) (j : Nat) :
    s.wakeSlot p q j = s ∨ (s.procs j).state = .sleeping ∧
      (∃ r, q = some r ∧ (s.procs j).chan = some (.proc r)) ∧ j ≠ p ∧
      s.wakeSlot p q j = s.setState j .runnable := by
  cases q with
  | none => exact .inl rfl
  | some q =>
    simp only [Sys.wakeSlot]
    split
    · exact .inl rfl
    · next hj =>
      by_cases hw : (s.procs j).state = .sleeping ∧ (s.procs j).chan = some (.proc q)
      · rw [Proc.wakeup, if_pos hw]
        exact .inr ⟨hw.1, ⟨q, rfl, hw.2⟩, hj, rfl⟩
      · rw [Proc.wakeup, if_neg hw, Sys.put, update_eq_self]
        exact .inl rfl

theorem kill_cases (r : Proc) :
    r.kill.state = r.state ∧ r.state ≠ .sleeping ∨ r.kill.state = .runnable ∧
      r.state = .sleeping := by
  by_cases hs : r.state = .sleeping
  · simp [Proc.kill, hs]
  · simp [Proc.kill, hs]

theorem forkAlloc_moves (hrun : (s.procs p).state = .running) (hpc : s.pc p = .user)
    (h : forkAlloc s p np ok = some t) : Moves s (.fork p np ok) t := by
  unfold forkAlloc at h
  split at h
  · rename_i hnp
    cases ok with
    | false =>
      cases h
      exact .forkFailed p np hrun hpc hnp.1 hnp.2
    | true =>
      cases h
      exact .forked p np hrun hpc hnp.1 hnp.2
  · cases h

theorem reparentAt_moves (hrun : (s.procs p).state = .running)
    (hpc : s.pc p = .reparenting status i) (ok : Bool) :
    Moves s (.go p ok) (reparentAt s p status i) := by
  unfold reparentAt
  split
  · split
    · exact .handed p status i ok hrun hpc (by assumption) (by assumption)
    · exact .passed p status i ok hrun hpc (by assumption) (by assumption)
  · exact .handedAll p status i ok hrun hpc (by omega)

theorem scanAt_moves (hrun : (s.procs p).state = .running)
    (hpc : s.pc p = .scanning i havekids) (ok : Bool) :
    Moves s (.go p ok) (scanAt s p i havekids ok) := by
  unfold scanAt
  split
  · split
    · split
      · cases ok with
        | true =>
          exact .reaped p i havekids hrun hpc (by assumption) (by assumption) (by assumption)
        | false => exact .gaveUp p i havekids false hrun hpc
      · exact .looked p i havekids true ok hrun hpc (fun _ => by assumption)
    · exact .looked p i havekids havekids ok hrun hpc (fun h => absurd h (by assumption))
  · split
    · exact .gaveUp p i havekids ok hrun hpc
    · cases havekids with
      | true => exact .decided p i ok hrun hpc (by omega)
      | false => simp_all

theorem go_moves (hrun : (s.procs p).state = .running) (h : go s p ok = some t) :
    Moves s (.go p ok) t := by
  unfold go at h
  cases hpc : s.pc p with
  | user => simp [hpc] at h
  | dead => simp [hpc] at h
  | forked np =>
    simp only [hpc, Option.ite_none_right_eq_some, Option.some.injEq] at h
    obtain ⟨hfree, rfl⟩ := h
    exact .published p np ok hrun hpc hfree
  | parented np =>
    rw [hpc] at h
    cases h
    exact .started p np ok hrun hpc
  | reparenting status i =>
    rw [hpc] at h
    cases h
    exact reparentAt_moves hrun hpc ok
  | wakingInit status i j =>
    simp only [hpc] at h
    split at h
    · cases h
      exact .wokeInit p status i j ok hrun hpc (by assumption)
    · cases h
      exact .wokeInitAll p status i j ok hrun hpc (by omega)
  | wakingParent status j =>
    simp only [hpc] at h
    split at h
    · cases h
      exact .wokeParent p status j ok hrun hpc (by assumption)
    · cases h
      exact .wokeParentAll p status j ok hrun hpc (by omega)
  | marking status =>
    rw [hpc] at h
    cases h
    exact .exited p status ok hrun hpc
  | scanning i havekids =>
    rw [hpc] at h
    cases h
    exact scanAt_moves hrun hpc ok
  | toSleep =>
    rw [hpc] at h
    cases h
    exact .slept p ok hrun hpc
  | asleep =>
    rw [hpc] at h
    cases h
    exact .resumed p ok hrun hpc
  | reacquire =>
    simp only [hpc, Option.ite_none_right_eq_some, Option.some.injEq] at h
    obtain ⟨hfree, rfl⟩ := h
    exact .reacquired p ok hrun hpc hfree

theorem step_moves (h : step s a = some t) : Moves s a t := by
  cases a with
  | sched p =>
    simp only [step, Option.ite_none_right_eq_some, Option.some.injEq] at h
    obtain ⟨hst, rfl⟩ := h
    exact .sched p hst
  | yield p =>
    simp only [step, Option.ite_none_right_eq_some, Option.some.injEq] at h
    obtain ⟨⟨hrun, hpc⟩, rfl⟩ := h
    exact .yield p hrun hpc
  | kill i =>
    simp only [step, Option.ite_none_right_eq_some, Option.some.injEq] at h
    obtain ⟨hi, rfl⟩ := h
    exact .killed i hi
  | fork p np ok =>
    simp only [step, Option.ite_none_right_eq_some] at h
    obtain ⟨⟨hrun, hpc⟩, hf⟩ := h
    exact forkAlloc_moves hrun hpc hf
  | exit p status =>
    simp only [step, Option.ite_none_right_eq_some, Option.some.injEq] at h
    obtain ⟨⟨hrun, hpc, hp, hfree⟩, rfl⟩ := h
    exact .exiting p status hrun hpc hp hfree
  | wait p =>
    simp only [step, Option.ite_none_right_eq_some, Option.some.injEq] at h
    obtain ⟨⟨hrun, hpc, hfree⟩, rfl⟩ := h
    exact .waiting p hrun hpc hfree
  | go p ok =>
    simp only [step, Option.ite_none_right_eq_some] at h
    exact go_moves h.1 h.2

end Xv6.Lifecycle
