import Xv6.Proc.Waitpid

namespace Xv6.Loops

open Function

abbrev Word := BitVec 32
abbrev Byte := BitVec 8

def PIPESIZE : Nat := 512
def INPUT_BUF_SIZE : Nat := 128

/-- C('D'), the character that ends input. -/
def ctrlD : Byte := 4
def newline : Byte := 10

structure Pipe where
  data : Nat → Byte
  nread : Word
  nwrite : Word
  readopen : Bool
  writeopen : Bool

/-- The console's input buffer, as far as consoleread() reads it. -/
structure Cons where
  buf : Nat → Byte
  r : Word
  w : Word

/-- The caller's user memory: what is there and what copyin and copyout let through. -/
structure UserMem where
  byte : Nat → Byte
  readable : Nat → Bool
  writable : Nat → Bool

def UserMem.copyout (m : UserMem) (addr : Nat) (b : Byte) : Option UserMem :=
  if m.writable addr then some { m with byte := update m.byte addr b } else none

def UserMem.copyin (m : UserMem) (addr : Nat) : Option Byte :=
  if m.readable addr then some (m.byte addr) else none

def UserMem.takes (m : UserMem) (len addr : Nat) : Bool :=
  (List.range len).all (fun k => m.writable (addr + k))

/-- copyout() of the four bytes of an exit status, as far as it gets. -/
def UserMem.copyoutInt (m : UserMem) (addr : Nat) (x : Int) : UserMem :=
  let v : Word := BitVec.ofInt 32 x
  { m with byte := fun a =>
      if addr ≤ a ∧ a < addr + 4 ∧ m.takes (a - addr + 1) addr = true then
        v.extractLsb' (8 * (a - addr)) 8
      else m.byte a }

/-- What the loops read and write. -/
structure World where
  procs : Table
  mem : UserMem
  pipe : Nat → Pipe
  cons : Cons
  ticks : Word

/-- A call of one of the six functions that sleep until something happens or the caller is
killed. -/
inductive Call where
  | wait (addr : Nat)
  | waitpid (pid : Int) (addr : Nat) (options : Int)
  | piperead (pi addr : Nat) (n : Int)
  | pipewrite (pi addr : Nat) (n : Int)
  | consoleread (dst : Nat) (n : Int)
  | sleep (n : Int)

/-- A call inside its loop, with the locals the loop changes or reads. -/
inductive Loop where
  | wait (addr : Nat)
  | waitpid (pid : Int) (addr : Nat) (options : Int)
  | piperead (pi addr : Nat) (n : Int)
  | pipewrite (pi addr : Nat) (n : Int) (i : Nat)
  | consoleread (dst : Nat) (n target : Int)
  | sleep (n : Int) (ticks0 : Word)
  deriving DecidableEq

/-- The code before the loop, up to the acquire of the lock that the loop holds. -/
def Call.loop (w : World) : Call → Loop
  | .wait addr => .wait addr
  | .waitpid pid addr options => .waitpid pid addr options
  | .piperead pi addr n => .piperead pi addr n
  | .pipewrite pi addr n => .pipewrite pi addr n 0
  | .consoleread dst n => .consoleread dst n n
  | .sleep n => .sleep (max n 0) w.ticks

def Loop.chan (p : Nat) : Loop → Chan
  | .wait _ | .waitpid .. => .proc p
  | .piperead pi .. => .pipeNread pi
  | .pipewrite pi .. => .pipeNwrite pi
  | .consoleread .. => .consR
  | .sleep .. => .ticks

/-- Where a piece of a loop leads: out of the function, to the test of killed(), to
sleep(), or back to the head of the loop. -/
inductive Next where
  | ret (w : World) (v : Int)
  | test
  | block (w : World)
  | again (w : World) (l : Loop)

def World.wakeup (w : World) (p : Nat) (c : Chan) : World :=
  { w with procs := w.procs.wakeup c (some p) }

/-- The copyout of child i's status in wait() and waitpid(). -/
def World.deliver (w : World) (addr i : Nat) : World :=
  { w with mem := if addr = 0 then w.mem else w.mem.copyoutInt addr (w.procs i).xstate }

def World.freeproc (w : World) (i : Nat) : World :=
  { w with procs := update w.procs i (w.procs i).freeproc }

/-- The copy loop of piperead(), with at most k bytes to go. -/
def readBytes (addr pi : Nat) : Nat → Nat → World → World × Nat
  | 0, i, w => (w, i)
  | k + 1, i, w =>
    let q := w.pipe pi
    if q.nread = q.nwrite then (w, i)
    else
      let w := { w with pipe := update w.pipe pi { q with nread := q.nread + 1 } }
      match w.mem.copyout (addr + i) (q.data (q.nread.toNat % PIPESIZE)) with
      | none => (w, i)
      | some m => readBytes addr pi k (i + 1) { w with mem := m }

/-- consoleread() with a character in the buffer. -/
def readChar (w : World) (dst : Nat) (n target : Int) : Next :=
  let c := w.cons.buf (w.cons.r.toNat % INPUT_BUF_SIZE)
  let w' := { w with cons := { w.cons with r := w.cons.r + 1 } }
  if c = ctrlD then
    if n < target then .ret w (target - n) else .ret w' (target - n)
  else
    match w'.mem.copyout dst c with
    | none => .ret w' (target - n)
    | some m =>
      if c = newline then .ret { w' with mem := m } (target - (n - 1))
      else .again { w' with mem := m } (.consoleread (dst + 1) (n - 1) target)

/-- From the head of the loop, with its lock held. -/
def Loop.head (p : Nat) (w : World) : Loop → Next
  | .wait addr =>
    match Wait.waitScan (w.mem.takes 4) w.procs p addr (List.range NPROC) false with
    | .reaped i => .ret ((w.deliver addr i).freeproc i) (w.procs i).pid
    | .fault i => .ret (w.deliver addr i) (-1)
    | .ended true => .test
    | _ => .ret w (-1)
  | .waitpid pid addr options =>
    match Wait.waitpid (w.mem.takes 4) w.procs p pid addr options with
    | .reaped i => .ret ((w.deliver addr i).freeproc i) (w.procs i).pid
    | .fault i => .ret (w.deliver addr i) (-1)
    | .notYet => .ret w 0
    | .sleeps => .block w
    | _ => .ret w (-1)
  | .piperead pi addr n =>
    if (w.pipe pi).nread = (w.pipe pi).nwrite ∧ (w.pipe pi).writeopen = true then .test
    else
      let (w, i) := readBytes addr pi n.toNat 0 w
      .ret (w.wakeup p (.pipeNwrite pi)) i
  | .pipewrite pi _ n i =>
    if i < n then
      if (w.pipe pi).readopen = false then .ret w (-1) else .test
    else .ret (w.wakeup p (.pipeNread pi)) i
  | .consoleread dst n target =>
    if 0 < n then
      if w.cons.r = w.cons.w then .test else readChar w dst n target
    else .ret w (target - n)
  | .sleep n ticks0 => if (w.ticks - ticks0).toNat < n then .test else .ret w 0

/-- From a test of killed() that found 0. Only pipewrite() makes the test before it knows
whether it has to wait. -/
def Loop.body (p : Nat) (w : World) : Loop → Next
  | .pipewrite pi addr n i =>
    let q := w.pipe pi
    if q.nwrite = q.nread + BitVec.ofNat 32 PIPESIZE then .block (w.wakeup p (.pipeNread pi))
    else
      match w.mem.copyin (addr + i) with
      | none => .ret (w.wakeup p (.pipeNread pi)) i
      | some ch =>
        let data := update q.data (q.nwrite.toNat % PIPESIZE) ch
        .again { w with pipe := update w.pipe pi { q with data, nwrite := q.nwrite + 1 } }
          (.pipewrite pi addr n (i + 1))
  | _ => .block w

end Xv6.Loops
