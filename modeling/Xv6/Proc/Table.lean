import Mathlib.Logic.Function.Basic
import Xv6.Param

namespace Xv6

inductive ProcState where
  | unused
  | used
  | sleeping
  | runnable
  | running
  | zombie
  deriving DecidableEq, Repr

/-- The kernel addresses that processes sleep on. A process is named by its slot. -/
inductive Chan where
  | proc (p : Nat)
  | ticks
  | consR
  | pipeNread (pi : Nat)
  | pipeNwrite (pi : Nat)
  deriving DecidableEq, Repr

/-- struct proc, as far as process control reads and writes it. -/
structure Proc where
  state : ProcState := .unused
  chan : Option Chan := none
  killed : Bool := false
  xstate : Int := 0
  pid : Int := 0
  parent : Option Nat := none
  deriving DecidableEq

abbrev Table := Nat → Proc

theorem Table.ne_of_state {t : Table} (hp : (t p).state = x) (hq : (t q).state = y)
    (h : x ≠ y) : p ≠ q := by
  intro he
  rw [he, hq] at hp
  exact h hp.symm

/-- What freeproc leaves of a slot. -/
def Proc.freeproc (_ : Proc) : Proc := {}

/-- The part of sleep() done under p->lock. -/
def Proc.sleep (c : Chan) (p : Proc) : Proc := { p with chan := some c, state := .sleeping }

/-- The body of wakeup() for one process. -/
def Proc.wakeup (c : Chan) (p : Proc) : Proc :=
  if p.state = .sleeping ∧ p.chan = some c then { p with state := .runnable } else p

/-- The body of kill() for the process it finds. -/
def Proc.kill (p : Proc) : Proc :=
  { p with
    killed := true
    state := if p.state = .sleeping then .runnable else p.state }

/-- wakeup(chan) called by the process in slot self, or by an interrupt on an idle cpu. -/
def Table.wakeup (c : Chan) (self : Option Nat) (t : Table) : Table := fun i =>
  if self = some i then t i else (t i).wakeup c

/-- The slot kill(pid) acts on: the first one with this pid, in use or not. -/
def Table.killTarget (t : Table) (pid : Int) : Option Nat :=
  (List.range NPROC).find? (fun i => (t i).pid = pid)

def Table.kill (t : Table) (pid : Int) : Table × Int :=
  match t.killTarget pid with
  | some i => (Function.update t i (t i).kill, 0)
  | none => (t, -1)

end Xv6
