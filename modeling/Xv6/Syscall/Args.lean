import Mathlib.Data.BitVec
import Xv6.Param

namespace Xv6.Syscall

def SIGINT : BitVec 32 := 2

/-- The registers a0 to a5 in the caller's trapframe. -/
abbrev Regs := Fin 6 → BitVec 64

/-- What the kernel stack holds, before the call, in the word where the handler keeps its int
argument n. -/
abbrev Stack := Fin 6 → BitVec 32

def argraw (r : Regs) (n : Fin 6) : BitVec 64 := r n

def argaddr (r : Regs) (n : Fin 6) : BitVec 64 := argraw r n

/-- The argument register as a C int. -/
def asInt (r : Regs) (n : Fin 6) : BitVec 32 := (argraw r n).setWidth 32

/-- None when argint() returns -1: it has then left `*ip` alone. -/
def argint (r : Regs) (n : Fin 6) : Option (BitVec 32) :=
  if (asInt r n).toInt < 0 then none else some (asInt r n)

/-- The part of the kernel state that the handlers themselves look at. -/
structure Kernel where
  ofile : Nat → Option Nat

def argfd (k : Kernel) (fd : BitVec 32) : Option Nat :=
  if fd.toInt < 0 ∨ (NOFILE : Int) ≤ fd.toInt then none else k.ofile fd.toNat

/-- What a handler goes on to do: return -1, or call into the rest of the kernel. -/
inductive Request where
  | fail
  | exit (status : BitVec 32)
  | growproc (n : BitVec 32)
  | sleep (ticks : BitVec 32)
  | kill (pid : BitVec 32)
  | waitpid (pid : BitVec 32) (status : BitVec 64) (options : BitVec 32)
  | sigHandler (handler : BitVec 64)
  | semInit (semptr : BitVec 64) (value : BitVec 32)
  | dup (f : Nat)
  | fileread (f : Nat) (addr : BitVec 64) (n : BitVec 32)
  | filewrite (f : Nat) (addr : BitVec 64) (n : BitVec 32)
  | close (fd : BitVec 32) (f : Nat)
  | filestat (f : Nat) (addr : BitVec 64)
  | open (path : BitVec 64) (omode : BitVec 32)
  | mknod (path : BitVec 64) (major minor : BitVec 32)
  | shmget (key size shmflag : BitVec 32)
  | shmat (shmid : BitVec 32) (addr : BitVec 64) (shmflag : BitVec 32)
  | shmdt (shmid : BitVec 32)
  | shmctl (shmid cmd buf : BitVec 32)
  deriving DecidableEq

/-- A system call handler: the int arguments it fetches, whether it returns -1 when argint()
does, and what it makes of its locals. -/
structure Handler where
  ints : List (Fin 6)
  checked : Bool
  body : (Fin 6 → BitVec 32) → Regs → Kernel → Request

/-- The handler's int locals after the fetch, if it has not returned -1. A call of argint() whose
result is ignored leaves in the local what the stack held. -/
def Handler.locals (h : Handler) (r : Regs) (g : Stack) : Option (Fin 6 → BitVec 32) :=
  if h.checked ∧ ∃ n ∈ h.ints, argint r n = none then none
  else some (fun n => if n ∈ h.ints then (argint r n).getD (g n) else 0)

def Handler.request (h : Handler) (r : Regs) (g : Stack) (k : Kernel) : Request :=
  match h.locals r g with
  | none => .fail
  | some l => h.body l r k

def sysExit : Handler := ⟨[0], false, fun l _ _ => .exit (l 0)⟩

def sysSbrk : Handler := ⟨[0], false, fun l _ _ => .growproc (l 0)⟩

def sysSleep : Handler :=
  ⟨[0], false, fun l _ _ => .sleep (if (l 0).toInt < 0 then 0 else l 0)⟩

def sysKill : Handler := ⟨[0], false, fun l _ _ => .kill (l 0)⟩

def sysWaitpid : Handler := ⟨[0, 2], false, fun l r _ => .waitpid (l 0) (argaddr r 1) (l 2)⟩

def sysSignal : Handler :=
  ⟨[0], false, fun l r _ => if l 0 ≠ SIGINT then .fail else .sigHandler (argaddr r 1)⟩

def sysSemInit : Handler := ⟨[1], false, fun l r _ => .semInit (argaddr r 0) (l 1)⟩

def sysDup : Handler :=
  ⟨[0], false, fun l _ k => (argfd k (l 0)).elim .fail .dup⟩

def sysRead : Handler :=
  ⟨[2, 0], false, fun l r k => (argfd k (l 0)).elim .fail (.fileread · (argaddr r 1) (l 2))⟩

def sysWrite : Handler :=
  ⟨[2, 0], false, fun l r k => (argfd k (l 0)).elim .fail (.filewrite · (argaddr r 1) (l 2))⟩

def sysClose : Handler :=
  ⟨[0], false, fun l _ k => (argfd k (l 0)).elim .fail (.close (l 0))⟩

def sysFstat : Handler :=
  ⟨[0], false, fun l r k => (argfd k (l 0)).elim .fail (.filestat · (argaddr r 1))⟩

def sysOpen : Handler := ⟨[1], false, fun l r _ => .open (argaddr r 0) (l 1)⟩

def sysMknod : Handler := ⟨[1, 2], false, fun l r _ => .mknod (argaddr r 0) (l 1) (l 2)⟩

def sysShmget : Handler := ⟨[0, 1, 2], true, fun l _ _ => .shmget (l 0) (l 1) (l 2)⟩

def sysShmat : Handler := ⟨[0, 2], true, fun l r _ => .shmat (l 0) (argaddr r 1) (l 2)⟩

/-- The address is fetched with argint() and then not used. -/
def sysShmdt : Handler := ⟨[0, 1], true, fun l _ _ => .shmdt (l 0)⟩

def sysShmctl : Handler := ⟨[0, 1, 2], true, fun l _ _ => .shmctl (l 0) (l 1) (l 2)⟩

/-- The system calls with an int argument. -/
inductive Call where
  | exit | sbrk | sleep | kill | waitpid | signal | semInit
  | dup | read | write | close | fstat | open | mknod
  | shmget | shmat | shmdt | shmctl
  deriving DecidableEq

def handler : Call → Handler
  | .exit => sysExit
  | .sbrk => sysSbrk
  | .sleep => sysSleep
  | .kill => sysKill
  | .waitpid => sysWaitpid
  | .signal => sysSignal
  | .semInit => sysSemInit
  | .dup => sysDup
  | .read => sysRead
  | .write => sysWrite
  | .close => sysClose
  | .fstat => sysFstat
  | .open => sysOpen
  | .mknod => sysMknod
  | .shmget => sysShmget
  | .shmat => sysShmat
  | .shmdt => sysShmdt
  | .shmctl => sysShmctl

theorem argint_eq_none : argint r n = none ↔ (asInt r n).toInt < 0 := by
  by_cases h : (asInt r n).toInt < 0 <;> simp [argint, h]

theorem argint_of_nonneg (h : 0 ≤ (asInt r n).toInt) : argint r n = some (asInt r n) := by
  simp [argint, Int.not_lt.mpr h]

/-- The int arguments the handler works with are those in the registers. -/
def Handler.Reached (h : Handler) (r : Regs) (g : Stack) : Prop :=
  ∃ l, h.locals r g = some l ∧ ∀ n ∈ h.ints, l n = asInt r n

/-- With no negative argument the locals are the same over every stack. -/
theorem Handler.locals_of_nonneg {h : Handler}
    (hn : ∀ n ∈ h.ints, 0 ≤ (asInt r n).toInt) (g : Stack) :
    h.locals r g = some (fun n => if n ∈ h.ints then asInt r n else 0) := by
  have hall : ¬ (h.checked ∧ ∃ n ∈ h.ints, argint r n = none) := by
    intro hc
    obtain ⟨-, n, hm, he⟩ := hc
    have := argint_eq_none.mp he
    have := hn n hm
    omega
  rw [Handler.locals, if_neg hall, Option.some.injEq]
  funext n
  by_cases hm : n ∈ h.ints
  · simp [hm, argint_of_nonneg (hn n hm)]
  · simp [hm]

theorem Handler.reached_of_nonneg {h : Handler}
    (hn : ∀ n ∈ h.ints, 0 ≤ (asInt r n).toInt) (g : Stack) : h.Reached r g := by
  refine ⟨_, Handler.locals_of_nonneg hn g, ?_⟩
  intro n hm
  simp [hm]

/-- A negative argument either makes the handler give up or leaves its local as it was, which
need not be that argument. -/
theorem Handler.nonneg_of_reached {h : Handler} (hr : ∀ g, h.Reached r g) (hm : n ∈ h.ints) :
    0 ≤ (asInt r n).toInt := by
  by_contra hn
  have he : argint r n = none := argint_eq_none.mpr (by omega)
  obtain ⟨l, hl, hw⟩ := hr (fun _ => asInt r n + 1)
  rw [Handler.locals] at hl
  split at hl
  · cases hl
  · cases hl
    have := hw n hm
    simp [hm, he] at this

/-- An int argument reaches the kernel, and the call depends on the registers and the kernel state
alone, exactly when none of its int arguments is negative. -/
theorem int_arguments_reach_iff (c : Call) (r : Regs) :
    ((∀ g, (handler c).Reached r g) ∧
      ∀ g g' k, (handler c).request r g k = (handler c).request r g' k) ↔
    ∀ n ∈ (handler c).ints, 0 ≤ (asInt r n).toInt := by
  constructor
  · intro h n hm
    exact Handler.nonneg_of_reached h.1 hm
  · intro hn
    refine ⟨Handler.reached_of_nonneg hn, ?_⟩
    intro g g' k
    rw [Handler.request, Handler.request, Handler.locals_of_nonneg hn g,
      Handler.locals_of_nonneg hn g']

/-- sbrk(-4096) grows the process by what the stack held, exit(-1) reports it and waitpid(-1)
waits for that child. -/
theorem negative_argument_lost :
    let k : Kernel := ⟨fun _ => none⟩
    sysSbrk.request (fun _ => -4096) (fun _ => 4096) k = .growproc 4096 ∧
    sysSbrk.request (fun _ => -4096) (fun _ => 0) k = .growproc 0 ∧
    sysExit.request (fun _ => -1) (fun _ => 7) k = .exit 7 ∧
    sysWaitpid.request (Function.update 0 0 (-1)) (fun _ => 7) k = .waitpid 7 0 0 := by
  decide

end Xv6.Syscall
