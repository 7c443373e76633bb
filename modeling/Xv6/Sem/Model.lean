import Xv6.Proc.Lifecycle

namespace Xv6.Sem

/-- The one semaphore of the kernel, without its lock: each operation is one section under
that lock. -/
structure Semaphore where
  value : BitVec 32
  queue : Nat → Option Nat
  head : Nat
  tail : Nat

/-- all_sem before any call of sem_init(). -/
def zeroed : Semaphore := ⟨0, fun _ => none, 0, 0⟩

def semInit (m : Semaphore) (value : BitVec 32) : Semaphore :=
  { m with value, head := 0, tail := 0 }

/-- sem_wait() up to its end or its sleep, and whether it sleeps. -/
def semWait (m : Semaphore) (p : Nat) : Semaphore × Bool :=
  let m := { m with value := m.value - 1 }
  if m.value.toInt < 0 then
    ({ m with
      queue := Function.update m.queue m.tail (some p)
      tail := (m.tail + 1) % NPROC }, true)
  else (m, false)

/-- sem_post(), and the process it passes to wakeup() if it takes one from the queue. -/
def semPost (m : Semaphore) : Semaphore × Option Nat :=
  let m := { m with value := m.value + 1 }
  if m.value.toInt ≤ 0 then ({ m with head := (m.head + 1) % NPROC }, m.queue m.head)
  else (m, none)

/-- sem_destroy(), or none where it panics. -/
def semDestroy (m : Semaphore) : Option Semaphore :=
  if m.head ≠ m.tail then none else some { m with value := 0, queue := fun _ => none }

end Xv6.Sem
