import Mathlib.Data.BitVec
import Xv6.Lib.Run
import Xv6.Proc.Loops

namespace Xv6.Console
open Lib
open Loops (Byte Word INPUT_BUF_SIZE ctrlD newline)

/-- The characters consoleintr() treats apart: C('P'), C('U'), C('H'), C('C'), the delete key,
C('L') and the carriage return. -/
def ctrlP : Byte := 0x10
def ctrlU : Byte := 0x15
def ctrlH : Byte := 0x08
def ctrlC : Byte := 0x03
def delete : Byte := 0x7f
def ctrlL : Byte := 0x0c
def carriageReturn : Byte := 0x0d

/-- The input buffer: read, write and edit index. -/
structure Cons where
  buf : Nat → Byte
  r : Word
  w : Word
  e : Word

def Cons.at (s : Cons) (i : Word) : Byte := s.buf (i.toNat % INPUT_BUF_SIZE)

/-- The loop of C('U'). It ends when e reaches w, if not before. -/
def Cons.killLine (s : Cons) : Nat → Cons
  | 0 => s
  | k + 1 =>
    if s.e ≠ s.w ∧ s.at (s.e - 1) ≠ newline then Cons.killLine { s with e := s.e - 1 } k else s

def Cons.erase (s : Cons) : Cons := if s.e ≠ s.w then { s with e := s.e - 1 } else s

/-- The default case. The flag says that a line has arrived and readers are to be woken. -/
def Cons.store (s : Cons) (c : Byte) : Cons × Bool :=
  if c ≠ 0 ∧ (s.e - s.r).toNat < INPUT_BUF_SIZE then
    let c := if c = carriageReturn then newline else c
    let buf := Function.update s.buf (s.e.toNat % INPUT_BUF_SIZE) c
    let e := s.e + 1
    if c = newline ∨ c = ctrlD ∨ (e - s.r).toNat = INPUT_BUF_SIZE then
      ({ s with buf, e, w := e }, true)
    else ({ s with buf, e }, false)
  else (s, false)

/-- What consoleintr() does to the buffer. C('P'), C('C') and C('L') leave it alone. -/
def Cons.intr (s : Cons) (c : Byte) : Cons × Bool :=
  if c = ctrlP then (s, false)
  else if c = ctrlU then (s.killLine (s.e - s.w).toNat, false)
  else if c = ctrlH then (s.erase, false)
  else if c = ctrlC then (s, false)
  else if c = delete then (s.erase, false)
  else if c = ctrlL then (s, false)
  else s.store c

/-- What the console is for: the bytes of finished lines, and the line that is being typed.
Only the latter can be edited. -/
structure Line where
  committed : List Byte
  line : List Byte
  deriving DecidableEq

/-- A character is added to the line while pending committed bytes have not been read. It is
dropped when there is no room. -/
def Line.add (pending : Nat) (c : Byte) (l : Line) : Line :=
  if c ≠ 0 ∧ pending + l.line.length < INPUT_BUF_SIZE then
    let c := if c = carriageReturn then newline else c
    let line := l.line ++ [c]
    if c = newline ∨ c = ctrlD ∨ pending + line.length = INPUT_BUF_SIZE then
      { committed := l.committed ++ line, line := [] }
    else { l with line }
  else l

def Line.input (pending : Nat) (c : Byte) (l : Line) : Line :=
  if c = ctrlP ∨ c = ctrlC ∨ c = ctrlL then l
  else if c = ctrlU then { l with line := [] }
  else if c = ctrlH ∨ c = delete then { l with line := l.line.dropLast }
  else l.add pending c

/-- What a reader gets: a byte of data, or a read that returns 0. -/
inductive Event where
  | byte (b : Byte)
  | eof
  deriving DecidableEq

def Event.of (b : Byte) : Event := if b = ctrlD then .eof else .byte b

/-- Where a process stands in consoleread(), with n of target bytes to go. At head and test it
holds cons.lock. -/
inductive Pc where
  | user (v : Int)
  | enter (n target : Int)
  | head (n target : Int)
  | test (n target : Int)
  | asleep (n target : Int)
  deriving DecidableEq

/-- spec and log are not in the source: the line as the user means it, and what the readers
have been given so far. -/
structure Sys where
  procs : Table
  cons : Cons
  lock : Option Nat
  pc : Nat → Pc
  spec : Line
  log : List Event

inductive Act where
  | sched (p : Nat)
  | yield (p : Nat)
  | kill (i : Nat)
  | elsewhere (p : Nat) (r : Proc)
  | intr (c : Byte) (current : Option Nat)
  | read (p : Nat) (n : Int)
  | go (p : Nat) (copied : Bool)
  deriving DecidableEq

/-- After consoleinit(). -/
def start (procs : Table) : Sys where
  procs
  cons := { buf := fun _ => 0, r := 0, w := 0, e := 0 }
  lock := none
  pc := fun _ => .user 0
  spec := { committed := [], line := [] }
  log := []

def Sys.goto (s : Sys) (p : Nat) (c : Pc) : Sys := { s with pc := Function.update s.pc p c }

def Sys.put (s : Sys) (i : Nat) (r : Proc) : Sys :=
  { s with procs := Function.update s.procs i r }

def Sys.setState (s : Sys) (p : Nat) (st : ProcState) : Sys :=
  s.put p { s.procs p with state := st }

/-- release(&cons.lock) and the return. -/
def Sys.ret (s : Sys) (p : Nat) (v : Int) : Sys :=
  { s with lock := none, log := if v = 0 then s.log ++ [Event.eof] else s.log }.goto p (.user v)

/-- C('C') marks the process that the interrupt found on the cpu. -/
def Sys.mark (s : Sys) (c : Byte) (current : Option Nat) : Sys :=
  match current with
  | none => s
  | some p => if c = ctrlC then s.put p { s.procs p with killed := true } else s

/-- consoleintr() holds cons.lock from its beginning to its end. -/
def Sys.intr (s : Sys) (c : Byte) (current : Option Nat) : Sys :=
  let s := s.mark c current
  let next := s.cons.intr c
  { s with
    cons := next.1
    procs := if next.2 then s.procs.wakeup .consR current else s.procs
    spec := s.spec.input (s.spec.committed.length - s.log.length) c }

/-- consoleread() with a character in the buffer. copied says whether either_copyout()
succeeds, if it comes to that. -/
def readChar (s : Sys) (p : Nat) (n target : Int) (copied : Bool) : Sys :=
  let c := s.cons.at s.cons.r
  let s := { s with cons := { s.cons with r := s.cons.r + 1 } }
  if c = ctrlD then
    if n < target then { s with cons := { s.cons with r := s.cons.r - 1 } }.ret p (target - n)
    else s.ret p (target - n)
  else if copied then
    let s := { s with log := s.log ++ [Event.byte c] }
    if c = newline then s.ret p (target - (n - 1)) else s.goto p (.head (n - 1) target)
  else s.ret p (target - n)

/-- The next section of a process that is inside consoleread(). -/
def go (s : Sys) (p : Nat) (copied : Bool) : Option Sys :=
  match s.pc p with
  | .user _ => none
  | .enter n target =>
    if s.lock = none then some ({ s with lock := some p }.goto p (.head n target)) else none
  | .head n target =>
    if 0 < n then
      if s.cons.r = s.cons.w then some (s.goto p (.test n target))
      else some (readChar s p n target copied)
    else some (s.ret p (target - n))
  | .test n target =>
    if (s.procs p).killed then some (s.ret p (-1))
    else
      some ({ s.put p ((s.procs p).sleep .consR) with lock := none }.goto p (.asleep n target))
  | .asleep n target =>
    some ((s.put p { s.procs p with chan := none }).goto p (.enter n target))

def Pc.isUser : Pc → Bool
  | .user _ => true
  | _ => false

/-- No spinlock is held, so that a timer interrupt can make the process yield. -/
def Pc.preemptible : Pc → Bool
  | .user _ | .enter .. => true
  | _ => false

def step (s : Sys) : Act → Option Sys
  | .sched p => if (s.procs p).state = .runnable then some (s.setState p .running) else none
  | .yield p =>
    if (s.procs p).state = .running ∧ (s.pc p).preemptible = true then
      some (s.setState p .runnable)
    else none
  | .kill i => some (s.put i (s.procs i).kill)
  | .elsewhere p r => if (s.pc p).isUser then some (s.put p r) else none
  | .intr c current => if s.lock = none then some (s.intr c current) else none
  | .read p n =>
    if (s.procs p).state = .running ∧ (s.pc p).isUser = true then
      some (s.goto p (.enter n n))
    else none
  | .go p copied => if (s.procs p).state = .running then go s p copied else none

end Xv6.Console
