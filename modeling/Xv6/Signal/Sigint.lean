import Xv6.Console.Model
import Xv6.Signal.Handlers

namespace Xv6.Signal
open Lib
open Loops (Byte)
open Console (ctrlC)

/-- The process that is current on a cpu, as far as signals go: handler is
sig_handlers[SIGINT], epc is in the trapframe. -/
structure Task where
  state : ProcState := .running
  killed : Bool := false
  epc : BitVec 64 := 0
  pending : BitVec 32 := 0
  handler : Handler := 0
  deriving DecidableEq

/-- Why usertrap() was entered. A store access fault and an unexpected scause end alike. -/
inductive Cause where
  | ecall
  | device
  | timer
  | fault
  deriving DecidableEq

/-- In kernel the process is between the entry of usertrap() and its last test of killed(). -/
inductive Mode where
  | user
  | kernel
  | exited
  | panicked
  deriving DecidableEq

structure Cpu where
  task : Task
  mode : Mode
  deriving DecidableEq

inductive Event where
  | trap (c : Cause) (sepc : BitVec 64)
  | key (c : Byte)
  | signal (signum : Int) (handler : Handler)
  | exec (entry : BitVec 64)
  | kill
  | ret
  deriving DecidableEq

def sigintMask : BitVec 32 := 1 <<< 2

def handleSignals (t : Task) : Task :=
  if t.pending &&& sigintMask ≠ 0 then
    let t := { t with pending := t.pending &&& ~~~sigintMask }
    if t.handler ≠ 0 then { t with epc := t.handler } else { t with killed := true }
  else t

/-- The part of usertrap() before syscall(), or up to the handling of the interrupt. -/
def usertrap (t : Task) (c : Cause) (sepc : BitVec 64) : Cpu :=
  let t := { t with epc := sepc }
  match c with
  | .ecall =>
    let t := if t.state = .running then handleSignals t else t
    if t.killed then ⟨t, .exited⟩ else ⟨{ t with epc := t.epc + 4 }, .kernel⟩
  | .device | .timer => ⟨t, .kernel⟩
  | .fault => ⟨{ t with killed := true }, .kernel⟩

section
-- What the processor does at an address in supervisor mode, with the kernel's page table: none
-- if it does not come back. No address of user space is mapped there, so that a jump to one is
-- a fault, and kerneltrap() panics.
variable (jump : Handler → Task → Option Task)

/-- The case of C('C') in consoleintr(): the handler is called there and then, or the default
one, and the process is marked either way. -/
def interrupt (t : Task) : Option Task :=
  (if t.handler ≠ 0 then jump t.handler t else some { t with killed := true }).map
    fun t => { t with killed := true }

def Cpu.key (s : Cpu) (c : Byte) : Cpu :=
  if c = ctrlC then
    match interrupt jump s.task with
    | some t => { s with task := t }
    | none => { s with mode := .panicked }
  else s

/-- A key is pressed while the process is in the kernel, where an interrupt from user space has
taken it too. sys_signal() and exec() are called by the process itself, kill() by any other. -/
def cpuStep (s : Cpu) (e : Event) : Option Cpu :=
  match e with
  | .trap c sepc => if s.mode = .user then some (usertrap s.task c sepc) else none
  | .key c => if s.mode = .kernel then some (s.key jump c) else none
  | .signal signum handler =>
    if s.mode = .kernel then
      if signum ≠ SIGINT then some s else some { s with task.handler := handler }
    else none
  | .exec entry => if s.mode = .kernel then some { s with task.epc := entry } else none
  | .kill => some { s with task.killed := true }
  | .ret =>
    if s.mode = .kernel then some { s with mode := if s.task.killed then .exited else .user }
    else none

/-- C('C') does not mark the process, and the next return to user space is to the handler. -/
def Delivered (s : Cpu) (h : Handler) : Prop :=
  ∃ t, cpuStep jump s (.key ctrlC) = some t ∧ (t.task.killed = true → s.task.killed = true) ∧
    ∃ es u, .ret ∉ es ∧ run (cpuStep jump) t (es ++ [.ret]) = some u ∧ u.mode = .user ∧
      u.task.epc = h

end

/-- The process is not in user space and will not come back to it. -/
def Doomed (s : Cpu) : Prop :=
  s.mode = .exited ∨ s.mode = .panicked ∨ s.mode = .kernel ∧ s.task.killed = true

variable {jump : Handler → Task → Option Task}

theorem interrupt_killed (h : interrupt jump t = some u) : u.killed = true := by
  obtain ⟨v, -, hv⟩ := Option.map_eq_some_iff.mp h
  rw [← hv]

/-- Whether the handler comes back or not, the process is done for. -/
theorem doomed_ctrlC {s : Cpu} (h : s.mode = .kernel) : Doomed (s.key jump ctrlC) := by
  unfold Cpu.key
  rw [if_pos rfl]
  cases hi : interrupt jump s.task with
  | none => exact .inr (.inl rfl)
  | some t => exact .inr (.inr ⟨h, interrupt_killed hi⟩)

theorem Doomed.step (h : Doomed s) (hs : cpuStep jump s e = some t) : Doomed t := by
  have hmode : s.mode = .kernel → s.task.killed = true := by
    intro hk
    obtain h | h | h := h
    · cases hk.symm.trans h
    · cases hk.symm.trans h
    · exact h.2
  cases e with
  | trap c sepc =>
    obtain ⟨hu, -⟩ := Option.ite_none_right_eq_some.mp hs
    obtain h | h | ⟨h, -⟩ := h <;> cases hu.symm.trans h
  | key c =>
    obtain ⟨hk, hs⟩ := Option.ite_none_right_eq_some.mp hs
    cases hs
    by_cases hc : c = ctrlC
    · rw [hc]
      exact doomed_ctrlC hk
    · rw [Cpu.key, if_neg hc]
      exact h
  | signal signum handler =>
    obtain ⟨hk, hs⟩ := Option.ite_none_right_eq_some.mp hs
    split at hs
    · cases hs
      exact h
    · cases hs
      exact .inr (.inr ⟨hk, hmode hk⟩)
  | exec entry =>
    obtain ⟨hk, hs⟩ := Option.ite_none_right_eq_some.mp hs
    cases hs
    exact .inr (.inr ⟨hk, hmode hk⟩)
  | kill =>
    cases hs
    exact h.imp_right (.imp_right fun hk => ⟨hk.1, rfl⟩)
  | ret =>
    obtain ⟨hk, hs⟩ := Option.ite_none_right_eq_some.mp hs
    cases hs
    left
    rw [hmode hk]
    rfl

theorem Doomed.not_user (h : Doomed s) : s.mode ≠ .user := by
  intro hu
  obtain h | h | ⟨h, -⟩ := h <;> cases hu.symm.trans h

theorem not_delivered (hk : s.mode = .kernel) : ¬ Delivered jump s h := by
  intro ⟨t, ht, _, es, u, _, hrun, hu, _⟩
  have hstep : cpuStep jump s (.key ctrlC) = some (s.key jump ctrlC) := if_pos hk
  rw [hstep] at ht
  cases ht
  have hd : Doomed u := run_invariant (fun _ _ _ => Doomed.step) (doomed_ctrlC hk) hrun
  exact hd.not_user hu

/-- C('C') calls a registered handler in the kernel and marks the process killed. It never
returns to user space. -/
theorem sigint_never_delivered (hh : h ≠ 0) (hreg : s.task.handler = h) (hk : s.mode = .kernel) :
    interrupt jump s.task = (jump h s.task).map (fun t => { t with killed := true }) ∧
      ¬ Delivered jump s h := by
  constructor
  · rw [interrupt, if_pos (hreg.symm ▸ hh), hreg]
  · exact not_delivered hk

/-- A program sets a handler and is interrupted by the console. -/
def registered : List Event :=
  [.trap .ecall 0x40, .signal 2 0x1000, .ret, .trap .device 0x50]

/-- No user address is mapped in the kernel's page table. -/
def faults : Handler → Task → Option Task := fun _ _ => none

theorem sigint_panics :
    ∃ s, run (cpuStep faults) ⟨{}, .user⟩ registered = some s ∧ s.task.handler = 0x1000 ∧
      s.task.killed = false ∧ (s.key faults ctrlC).mode = .panicked ∧
      (s.key (fun _ t => some t) ctrlC).task.killed = true ∧ ¬ Delivered faults s 0x1000 ∧
      ¬ Delivered (fun _ t => some t) s 0x1000 := by
  obtain ⟨s, hs, hh, hkilled, hk, h1, h2⟩ : ∃ s,
      run (cpuStep faults) ⟨{}, .user⟩ registered = some s ∧ s.task.handler = 0x1000 ∧
      s.task.killed = false ∧ s.mode = .kernel ∧ (s.key faults ctrlC).mode = .panicked ∧
      (s.key (fun _ t => some t) ctrlC).task.killed = true := by decide +kernel
  exact ⟨s, hs, hh, hkilled, h1, h2, not_delivered hk, not_delivered hk⟩

theorem sigint_never_delivered_registered :
    ∃ s, run (cpuStep faults) ⟨{}, .user⟩ registered = some s ∧ s.task.killed = false ∧
      interrupt faults s.task = none ∧ ¬ Delivered faults s 0x1000 := by
  obtain ⟨s, hs, hh, hkilled, hk⟩ : ∃ s, run (cpuStep faults) ⟨{}, .user⟩ registered = some s ∧
      s.task.handler = 0x1000 ∧ s.task.killed = false ∧ s.mode = .kernel := by decide +kernel
  exact ⟨s, hs, hkilled, sigint_never_delivered (by decide) hh hk⟩

end Xv6.Signal
