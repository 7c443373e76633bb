import Mathlib.Logic.Function.Basic
import Xv6.Lib.Run
import Xv6.Proc.Lifecycle

namespace Xv6.Sched
open Function Lib Lifecycle

abbrev Cpu := Fin NCPU

instance : NeZero NCPU := ⟨by decide⟩

/-- Where a cpu is in the code. From test to enter, and in back and leave, it is on the stack
of its scheduler(); from resumed to sched it is on the kernel stack of p. -/
inductive Point where
  | loop
  | test (p : Nat)
  | chosen (p : Nat)
  | enter (p : Nat)
  | resumed (p : Nat)
  | user (p : Nat)
  | own (p : Nat)
  | sched (p : Nat)
  | back (p : Nat)
  | leave (p : Nat)
  | visit (self : Option Nat) (q : Nat)
  deriving DecidableEq

/-- What p->context returns into. -/
inductive Ctx where
  | forkret
  | yield
  | sleep
  | exit
  deriving DecidableEq

/-- How far a process is in fork(), between its sections. -/
inductive Forking where
  | no
  | forked (np : Nat)
  | parented (np : Nat)
  deriving DecidableEq

def Forking.child : Forking → Option Nat
  | .no => none
  | .forked np | .parented np => some np

/-- The cpus and the process table. lock is the cpu in p->lock, proc is c->proc. -/
structure Sys where
  procs : Table
  nextpid : Int
  ctx : Nat → Ctx
  forking : Nat → Forking
  lock : Nat → Option Cpu
  proc : Cpu → Option Nat
  pt : Cpu → Point

/-- What a cpu does next. The loops over the table are left out, and so is wait_lock: a cpu
may take up any slot at any time. -/
inductive Op where
  | next
  | scan (p : Nat)
  | lock
  | yield
  | sleep (ch : Chan)
  | exit (status : Int)
  | visit (q : Nat)
  | wakeup (ch : Chan)
  | kill
  | fork (ok : Bool)
  | adopt
  | forkRun
  | reparent (i : Nat)
  | reap (q : Nat)
  deriving DecidableEq

/-- After userinit(), when every cpu has entered scheduler(). -/
def init : Sys where
  procs := update (fun _ => {}) initproc { state := .runnable, pid := 1 }
  nextpid := 2
  ctx := fun _ => .forkret
  forking := fun _ => .no
  lock := fun _ => none
  proc := fun _ => none
  pt := fun _ => .loop

def Sys.goto (s : Sys) (c : Cpu) (k : Point) : Sys := { s with pt := update s.pt c k }

def Sys.put (s : Sys) (i : Nat) (r : Proc) : Sys :=
  { s with procs := update s.procs i r }

def Sys.acquire (s : Sys) (c : Cpu) (q : Nat) : Sys :=
  { s with lock := update s.lock q (some c) }

def Sys.release (s : Sys) (q : Nat) : Sys := { s with lock := update s.lock q none }

def Sys.setProc (s : Sys) (c : Cpu) (p : Option Nat) : Sys :=
  { s with proc := update s.proc c p }

/-- The points with one way on. swtch() goes from enter to where p left off, and from sched
to back; p->lock is not touched on the way. sched() panics if p->lock is not held or p is
still RUNNING, and exit() if it gets control back. -/
def next (s : Sys) (c : Cpu) : Option Sys :=
  match s.pt c with
  | .test p =>
    if (s.procs p).state = .runnable then
      some ((s.put p { s.procs p with state := .running }).goto c (.chosen p))
    else some (s.goto c (.leave p))
  | .chosen p => some ((s.setProc c (some p)).goto c (.enter p))
  | .enter p => some (s.goto c (.resumed p))
  | .resumed p =>
    match s.ctx p with
    | .forkret | .yield => some ((s.release p).goto c (.user p))
    | .sleep => some (((s.put p { s.procs p with chan := none }).release p).goto c (.user p))
    | .exit => none
  | .sched p =>
    if s.lock p = some c ∧ (s.procs p).state ≠ .running then some (s.goto c (.back p)) else none
  | .back p => some ((s.setProc c none).goto c (.leave p))
  | .leave p => some ((s.release p).goto c .loop)
  | .visit self q => some ((s.release q).goto c (self.elim .loop .user))
  | .loop | .user _ | .own _ => none

/-- p has set its own state and calls sched(). -/
def Sys.part (s : Sys) (c : Cpu) (p : Nat) (r : Proc) (x : Ctx) : Sys :=
  { s.put p r with ctx := update s.ctx p x }.goto c (.sched p)

/-- acquire(&q->lock) by p, or by an interrupt handler that calls wakeup() in scheduler(). -/
def visit (s : Sys) (c : Cpu) (q : Nat) : Option Sys :=
  if q < NPROC ∧ s.lock q = none then
    match s.pt c with
    | .user p => some ((s.acquire c q).goto c (.visit (some p) q))
    | .loop => some ((s.acquire c q).goto c (.visit none q))
    | _ => none
  else none

/-- The first section of fork() by p, on the slot np that allocproc() found. -/
def fork (s : Sys) (p np : Nat) (ok : Bool) : Option Sys :=
  if s.forking p = .no ∧ (s.procs np).state = .unused then
    if ok then
      some { s.put np { s.procs np with pid := s.nextpid, state := .used } with
        nextpid := succPid s.nextpid
        ctx := update s.ctx np .forkret
        forking := update s.forking p (.forked np) }
    else some { s.put np (s.procs np).freeproc with nextpid := succPid s.nextpid }
  else none

/-- What p does with the lock of another slot, and of its own in kill(). -/
def inside (s : Sys) (p q : Nat) : Op → Option Sys
  | .kill => some (s.put q (s.procs q).kill)
  | .fork ok => fork s p q ok
  | .forkRun =>
    if s.forking p = .parented q then
      some { s.put q { s.procs q with state := .runnable } with
        forking := update s.forking p .no }
    else none
  | .reap i =>
    if i = q ∧ s.forking p = .no ∧ (s.procs q).parent = some p ∧ (s.procs q).state = .zombie then
      some (s.put q (s.procs q).freeproc)
    else none
  | _ => none

/-- What p does without any p->lock. -/
def outside (s : Sys) (c : Cpu) (p : Nat) : Op → Option Sys
  | .lock => if s.lock p = none then some ((s.acquire c p).goto c (.own p)) else none
  | .adopt =>
    match s.forking p with
    | .forked np =>
      some { s.put np { s.procs np with parent := some p } with
        forking := update s.forking p (.parented np) }
    | _ => none
  | .reparent i =>
    if (s.procs i).parent = some p then
      some (s.put i { s.procs i with parent := some initproc })
    else none
  | _ => none

/-- What p does under its own lock, on its way into sched(). -/
def away (s : Sys) (c : Cpu) (p : Nat) : Op → Option Sys
  | .yield => some (s.part c p { s.procs p with state := .runnable } .yield)
  | .sleep ch =>
    if s.forking p = .no then some (s.part c p ((s.procs p).sleep ch) .sleep) else none
  | .exit status =>
    if s.forking p = .no ∧ p ≠ initproc then
      some (s.part c p { s.procs p with xstate := status, state := .zombie } .exit)
    else none
  | _ => none

def step (s : Sys) (a : Cpu × Op) : Option Sys :=
  match a with
  | (c, .next) => next s c
  | (c, .scan p) =>
    if s.pt c = .loop ∧ p < NPROC ∧ s.lock p = none then
      some ((s.acquire c p).goto c (.test p))
    else none
  | (c, .visit q) => visit s c q
  | (c, .wakeup ch) =>
    match s.pt c with
    | .visit _ q => if s.proc c ≠ some q then some (s.put q ((s.procs q).wakeup ch)) else none
    | _ => none
  | (c, op) =>
    match s.pt c with
    | .user p => outside s c p op
    | .own p => away s c p op
    | .visit (some p) q => inside s p q op
    | _ => none

/-- The slot whose lock the code at this point holds. -/
def Point.holds : Point → Option Nat
  | .test p | .chosen p | .enter p | .resumed p => some p
  | .own p | .sched p | .back p | .leave p => some p
  | .visit _ q => some q
  | .loop | .user _ => none

/-- The process that this cpu counts as its own. -/
def Point.current : Point → Option Nat
  | .enter p | .resumed p | .user p | .own p | .sched p | .back p => some p
  | .visit self _ => self
  | .loop | .test _ | .chosen _ | .leave _ => none

/-- The process that is RUNNING because of this cpu. -/
def Point.runs : Point → Option Nat
  | .chosen p | .enter p | .resumed p | .user p | .own p => some p
  | .visit self _ => self
  | .loop | .test _ | .sched _ | .back _ | .leave _ => none

/-- The process that has left RUNNING and is still in c->proc. -/
def Point.parted : Point → Option Nat
  | .sched p | .back p => some p
  | _ => none

/-- What one step of a cpu can do, told by what changes. -/
inductive Moves (s : Sys) (c : Cpu) : Sys → Prop where
  | glide (j k : Point) (hpt : s.pt c = j) (hh : k.holds = j.holds) (hc : k.current = j.current)
      (hr : k.runs = j.runs) (hp : k.parted = j.parted) : Moves s c (s.goto c k)
  | setProc (j k : Point) (hpt : s.pt c = j) (hh : k.holds = j.holds) (hr : k.runs = j.runs)
      (hp : k.parted = none) : Moves s c ((s.setProc c k.current).goto c k)
  | acquire (q : Nat) (j k : Point) (hq : s.lock q = none) (hpt : s.pt c = j)
      (hh : j.holds = none) (hk : k.holds = some q) (hc : k.current = j.current)
      (hr : k.runs = j.runs) (hp : k.parted = none) : Moves s c ((s.acquire c q).goto c k)
  | release (q : Nat) (r : Proc) (j k : Point) (hst : r.state = (s.procs q).state)
      (hpt : s.pt c = j) (hh : j.holds = some q) (hk : k.holds = none)
      (hc : k.current = j.current) (hr : k.runs = j.runs) (hp : k.parted = none) :
      Moves s c (((s.put q r).release q).goto c k)
  | pick (p : Nat) (hpt : s.pt c = .test p) (hst : (s.procs p).state = .runnable) :
      Moves s c ((s.put p { s.procs p with state := .running }).goto c (.chosen p))
  | part (p : Nat) (r : Proc) (x : Ctx) (hpt : s.pt c = .own p) (hst : r.state ≠ .running)
      (hx : x = .exit → r.state = .zombie) : Moves s c (s.part c p r x)
  | edit (q : Nat) (r : Proc) (hst : r.state = (s.procs q).state ∨
      (s.procs q).state = .sleeping ∧ r.state = .runnable) : Moves s c (s.put q r)
  | forkFailed (q : Nat) (hst : (s.procs q).state = .unused) :
      Moves s c { s.put q (s.procs q).freeproc with nextpid := succPid s.nextpid }
  | forked (p q : Nat) (hf : s.forking p = .no) (hst : (s.procs q).state = .unused) :
      Moves s c { s.put q { s.procs q with pid := s.nextpid, state := .used } with
        nextpid := succPid s.nextpid
        ctx := update s.ctx q .forkret
        forking := update s.forking p (.forked q) }
  | adopt (p q : Nat) (hf : s.forking p = .forked q) :
      Moves s c { s.put q { s.procs q with parent := some p } with
        forking := update s.forking p (.parented q) }
  | forkRun (p q : Nat) (hf : s.forking p = .parented q) :
      Moves s c { s.put q { s.procs q with state := .runnable } with
        forking := update s.forking p .no }
  | reap (q : Nat) (hst : (s.procs q).state = .zombie) :
      Moves s c (s.put q (s.procs q).freeproc)

@[simp] theorem put_same (s : Sys) (p : Nat) : s.put p (s.procs p) = s := by
  simp [Sys.put]

theorem release_moves {j : Point} (hpt : s.pt c = j) (hh : j.holds = some q)
    (hk : k.holds = none) (hc : k.current = j.current) (hr : k.runs = j.runs)
    (hp : k.parted = none) : Moves s c ((s.release q).goto c k) := by
  have hm : Moves s c (((s.put q (s.procs q)).release q).goto c k) :=
    .release q _ j k rfl hpt hh hk hc hr hp
  rwa [put_same] at hm

theorem next_moves (h : next s c = some t) : Moves s c t := by
  unfold next at h
  cases hpt : s.pt c with
  | test p =>
    simp only [hpt] at h
    split at h
    · cases h
      exact .pick p hpt ‹_›
    · cases h
      exact .glide _ (.leave p) hpt rfl rfl rfl rfl
  | chosen p =>
    simp only [hpt, Option.some.injEq] at h
    subst h
    exact .setProc _ (.enter p) hpt rfl rfl rfl
  | enter p =>
    simp only [hpt, Option.some.injEq] at h
    subst h
    exact .glide _ (.resumed p) hpt rfl rfl rfl rfl
  | resumed p =>
    simp only [hpt] at h
    split at h
    · cases h
      exact release_moves hpt rfl rfl rfl rfl rfl
    · cases h
      exact release_moves hpt rfl rfl rfl rfl rfl
    · cases h
      exact .release p _ _ (.user p) rfl hpt rfl rfl rfl rfl rfl
    · cases h
  | sched p =>
    simp only [hpt] at h
    split at h
    · cases h
      exact .glide _ (.back p) hpt rfl rfl rfl rfl
    · cases h
  | back p =>
    simp only [hpt, Option.some.injEq] at h
    subst h
    exact .setProc _ (.leave p) hpt rfl rfl rfl
  | leave p =>
    simp only [hpt, Option.some.injEq] at h
    subst h
    exact release_moves hpt rfl rfl rfl rfl rfl
  | visit self q =>
    simp only [hpt, Option.some.injEq] at h
    subst h
    cases self with
    | none => exact release_moves hpt rfl rfl rfl rfl rfl
    | some p => exact release_moves hpt rfl rfl rfl rfl rfl
  | loop => simp [hpt] at h
  | user p => simp [hpt] at h
  | own p => simp [hpt] at h

theorem visit_moves (h : visit s c q = some t) : Moves s c t := by
  unfold visit at h
  split at h
  · rename_i hq
    split at h
    · rename_i p hpt
      cases h
      exact .acquire q _ _ hq.2 hpt rfl rfl rfl rfl rfl
    · rename_i hpt
      cases h
      exact .acquire q _ _ hq.2 hpt rfl rfl rfl rfl rfl
    · cases h
  · cases h

theorem kill_state (r : Proc) :
    r.kill.state = r.state ∨ r.state = .sleeping ∧ r.kill.state = .runnable := by
  by_cases hr : r.state = .sleeping
  · exact Or.inr ⟨hr, by simp [Proc.kill, hr]⟩
  · exact Or.inl (by simp [Proc.kill, hr])

theorem wakeup_state (ch : Chan) (r : Proc) :
    (r.wakeup ch).state = r.state ∨
      r.state = .sleeping ∧ (r.wakeup ch).state = .runnable := by
  unfold Proc.wakeup
  split
  · rename_i hr
    exact Or.inr ⟨hr.1, rfl⟩
  · exact Or.inl rfl

theorem inside_moves (h : inside s p q op = some t) : Moves s c t := by
  unfold inside at h
  split at h
  · cases h
    exact .edit q _ (kill_state _)
  · unfold fork at h
    split at h
    · rename_i hf
      split at h
      · cases h
        exact .forked p q hf.1 hf.2
      · cases h
        exact .forkFailed q hf.2
    · cases h
  · split at h
    · cases h
      exact .forkRun p q ‹_›
    · cases h
  · split at h
    · rename_i hz
      cases h
      exact .reap q hz.2.2.2
    · cases h
  · cases h

theorem outside_moves (hpt : s.pt c = .user p) (h : outside s c p op = some t) :
    Moves s c t := by
  unfold outside at h
  split at h
  · split at h
    · cases h
      exact .acquire p _ _ ‹_› hpt rfl rfl rfl rfl rfl
    · cases h
  · split at h
    · cases h
      exact .adopt p _ ‹_›
    · cases h
  · split at h
    · cases h
      exact .edit _ _ (Or.inl rfl)
    · cases h
  · cases h

theorem away_moves (hpt : s.pt c = .own p) (h : away s c p op = some t) : Moves s c t := by
  unfold away at h
  split at h
  · cases h
    exact .part p _ _ hpt (by simp) (by simp)
  · split at h
    · cases h
      exact .part p _ _ hpt (by simp [Proc.sleep]) (by simp)
    · cases h
  · split at h
    · cases h
      exact .part p _ _ hpt (by simp) (by simp)
    · cases h
  · cases h

theorem step_moves (h : step s (c, op) = some t) : Moves s c t := by
  unfold step at h
  split at h
  · rename_i heq
    cases heq
    exact next_moves h
  · rename_i heq
    cases heq
    split at h
    · rename_i hl
      cases h
      exact .acquire _ _ _ hl.2.2 hl.1 rfl rfl rfl rfl rfl
    · cases h
  · rename_i heq
    cases heq
    exact visit_moves h
  · rename_i heq
    cases heq
    split at h
    · split at h
      · cases h
        exact .edit _ _ (wakeup_state ..)
      · cases h
    · cases h
  · rename_i heq
    cases heq
    split at h
    · exact outside_moves ‹_› h
    · exact away_moves ‹_› h
    · exact inside_moves h
    · cases h

end Xv6.Sched
