import Xv6.Lib.Run
import Xv6.Proc.Loops

namespace Xv6.Pipe
open Lib
open Loops (Pipe PIPESIZE Byte Word)

/-- A call inside its loop, with the locals the loop changes or reads. -/
inductive Loop where
  | read (n : Int)
  | write (n : Int) (i : Nat)
  deriving DecidableEq

inductive Call where
  | piperead
  | pipewrite
  | pipeclose (writable : Bool)
  deriving DecidableEq

def Loop.call : Loop → Call
  | .read _ => .piperead
  | .write .. => .pipewrite

/-- &pi->nread, where readers sleep, and &pi->nwrite, where writers do. -/
def Loop.chan : Loop → Chan
  | .read _ => .pipeNread 0
  | .write .. => .pipeNwrite 0

/-- The channel of the wakeup() that ends a call. -/
def Call.wakes : Call → Chan
  | .pipewrite | .pipeclose true => .pipeNread 0
  | .piperead | .pipeclose false => .pipeNwrite 0

/-- What follows a wakeup(): sleep() in a full pipe, or the end of the call. -/
inductive After where
  | sleep (n : Int) (i : Nat)
  | ret (v : Int)
  deriving DecidableEq

/-- Where a process stands. From head to leave it holds pi->lock, but not in dozing and
asleep: in dozing it holds its own p->lock inside sleep(). In user it is outside of the pipe's
code, with what its last call returned. -/
inductive Pc where
  | user (v : Int)
  | enter (l : Loop)
  | closing (writable : Bool)
  | head (l : Loop)
  | test (l : Loop)
  | body (n : Int) (i : Nat)
  | copy (n : Int) (i : Nat)
  | waking (c : Call) (j : Nat) (k : After)
  | block (l : Loop)
  | leave (c : Call) (v : Int)
  | dozing (l : Loop)
  | asleep (l : Loop)
  deriving DecidableEq

def Pc.call : Pc → Option Call
  | .user _ => none
  | .enter l | .head l | .test l | .block l | .dozing l | .asleep l => some l.call
  | .body .. => some .pipewrite
  | .copy .. => some .piperead
  | .closing w => some (.pipeclose w)
  | .waking c .. | .leave c _ => some c

def Pc.isUser : Pc → Bool
  | .user _ => true
  | _ => false

def Pc.isDozing : Pc → Bool
  | .dozing _ => true
  | _ => false

/-- No spinlock is held, so that a timer interrupt can make the process yield. -/
def Pc.preemptible : Pc → Bool
  | .user _ | .enter _ | .closing _ => true
  | _ => false

/-- One pipe and the processes that may use it. readRef and writeRef say whether an open file
still refers to the end. stored and removed are not in the source: they keep every byte put
into the buffer and every byte taken out, in order. -/
structure Sys where
  procs : Table
  pipe : Pipe
  lock : Option Nat
  pc : Nat → Pc
  readRef : Bool
  writeRef : Bool
  stored : List Byte
  removed : List Byte

inductive Act where
  | sched (p : Nat)
  | yield (p : Nat)
  | kill (i : Nat)
  | elsewhere (p : Nat) (r : Proc)
  | write (p : Nat) (n : Int)
  | read (p : Nat) (n : Int)
  | close (p : Nat) (writable : Bool)
  | go (p : Nat) (user : Option Byte)
  deriving DecidableEq

/-- After pipealloc(). The page that holds the pipe has any contents. -/
def start (procs : Table) (data : Nat → Byte) : Sys where
  procs
  pipe := { data, nread := 0, nwrite := 0, readopen := true, writeopen := true }
  lock := none
  pc := fun _ => .user 0
  readRef := true
  writeRef := true
  stored := []
  removed := []

def Sys.goto (s : Sys) (p : Nat) (c : Pc) : Sys := { s with pc := Function.update s.pc p c }

def Sys.put (s : Sys) (i : Nat) (r : Proc) : Sys :=
  { s with procs := Function.update s.procs i r }

def Sys.setState (s : Sys) (p : Nat) (st : ProcState) : Sys :=
  s.put p { s.procs p with state := st }

/-- pi->data[pi->nwrite++ % PIPESIZE] = ch -/
def Sys.store (s : Sys) (ch : Byte) : Sys :=
  { s with
    pipe := { s.pipe with
      data := Function.update s.pipe.data (s.pipe.nwrite.toNat % PIPESIZE) ch
      nwrite := s.pipe.nwrite + 1 }
    stored := s.stored ++ [ch] }

/-- ch = pi->data[pi->nread++ % PIPESIZE] -/
def Sys.remove (s : Sys) : Sys :=
  { s with
    pipe := { s.pipe with nread := s.pipe.nread + 1 }
    removed := s.removed ++ [s.pipe.data (s.pipe.nread.toNat % PIPESIZE)] }

/-- The section of wakeup() on slot j, called by p. -/
def Sys.wakeSlot (s : Sys) (p : Nat) (c : Chan) (j : Nat) : Sys :=
  if j = p then s else s.put j ((s.procs j).wakeup c)

/-- The loop conditions. pipewrite() tests readopen in the same place. -/
def headOf (s : Sys) : Loop → Pc
  | .write n i =>
    if (i : Int) < n then
      if s.pipe.readopen = false then .leave .pipewrite (-1) else .test (.write n i)
    else .waking .pipewrite 0 (.ret i)
  | .read n =>
    if s.pipe.nread = s.pipe.nwrite ∧ s.pipe.writeopen = true then .test (.read n) else .copy n 0

/-- After the test of killed(). -/
def testOf (killed : Bool) : Loop → Pc
  | .write n i => if killed then .leave .pipewrite (-1) else .body n i
  | .read n => if killed then .leave .piperead (-1) else .block (.read n)

/-- pipewrite() with i of n bytes written. user is what copyin() finds, if it does. -/
def bodyAt (s : Sys) (p : Nat) (n : Int) (i : Nat) (user : Option Byte) : Sys :=
  if s.pipe.nwrite = s.pipe.nread + BitVec.ofNat 32 PIPESIZE then
    s.goto p (.waking .pipewrite 0 (.sleep n i))
  else
    match user with
    | none => s.goto p (.waking .pipewrite 0 (.ret i))
    | some ch => (s.store ch).goto p (.head (.write n (i + 1)))

/-- piperead() with i of n bytes delivered. user says whether copyout() succeeds. -/
def copyAt (s : Sys) (p : Nat) (n : Int) (i : Nat) (user : Option Byte) : Sys :=
  if (i : Int) < n then
    if s.pipe.nread = s.pipe.nwrite then s.goto p (.waking .piperead 0 (.ret i))
    else
      match user with
      | none => s.remove.goto p (.waking .piperead 0 (.ret i))
      | some _ => s.remove.goto p (.copy n (i + 1))
  else s.goto p (.waking .piperead 0 (.ret i))

/-- The slots of a wakeup() one by one. A process inside sleep() keeps its lock until it is
SLEEPING. -/
def wakingAt (s : Sys) (p : Nat) (c : Call) (j : Nat) (k : After) : Option Sys :=
  if j < NPROC then
    if (s.pc j).isDozing then none
    else some ((s.wakeSlot p c.wakes j).goto p (.waking c (j + 1) k))
  else
    match k with
    | .sleep n i => some (s.goto p (.block (.write n i)))
    | .ret v => some (s.goto p (.leave c v))

def closeEnd (s : Sys) (writable : Bool) : Sys :=
  if writable then { s with pipe := { s.pipe with writeopen := false } }
  else { s with pipe := { s.pipe with readopen := false } }

/-- The next section of a process that is inside the pipe's code. -/
def go (s : Sys) (p : Nat) (user : Option Byte) : Option Sys :=
  match s.pc p with
  | .user _ => none
  | .enter l => if s.lock = none then some ({ s with lock := some p }.goto p (.head l)) else none
  | .closing w =>
    if s.lock = none then
      some ((closeEnd { s with lock := some p } w).goto p (.waking (.pipeclose w) 0 (.ret 0)))
    else none
  | .head l => some (s.goto p (headOf s l))
  | .test l => some (s.goto p (testOf (s.procs p).killed l))
  | .body n i => some (bodyAt s p n i user)
  | .copy n i => some (copyAt s p n i user)
  | .waking c j k => wakingAt s p c j k
  | .block l => some ({ s with lock := none }.goto p (.dozing l))
  | .leave _ v => some ({ s with lock := none }.goto p (.user v))
  | .dozing l => some ((s.put p ((s.procs p).sleep l.chan)).goto p (.asleep l))
  | .asleep l => some ((s.put p { s.procs p with chan := none }).goto p (.enter l))

/-- The caller of piperead() or pipewrite() holds an open file of that end until it returns, so
that fileclose() calls pipeclose() with nobody in such a call. -/
def Idle (s : Sys) (writable : Bool) : Prop :=
  ∀ q < NPROC, (s.pc q).call ≠ some (if writable then .pipewrite else .piperead)

instance (s : Sys) (w : Bool) : Decidable (Idle s w) := inferInstanceAs (Decidable (∀ q < NPROC, _))

def Ready (s : Sys) (p : Nat) : Prop :=
  p < NPROC ∧ (s.procs p).state = .running ∧ (s.pc p).isUser = true

instance (s : Sys) (p : Nat) : Decidable (Ready s p) := inferInstanceAs (Decidable (_ ∧ _ ∧ _))

/-- kill() and wakeup() take p->lock, which a process inside sleep() holds. Outside of the
pipe's code anything may happen to a process. -/
def step (s : Sys) : Act → Option Sys
  | .sched p => if (s.procs p).state = .runnable then some (s.setState p .running) else none
  | .yield p =>
    if (s.procs p).state = .running ∧ (s.pc p).preemptible = true then
      some (s.setState p .runnable)
    else none
  | .kill i => if (s.pc i).isDozing then none else some (s.put i (s.procs i).kill)
  | .elsewhere p r => if (s.pc p).isUser then some (s.put p r) else none
  | .write p n =>
    if Ready s p ∧ s.writeRef = true then some (s.goto p (.enter (.write n 0))) else none
  | .read p n =>
    if Ready s p ∧ s.readRef = true then some (s.goto p (.enter (.read n))) else none
  | .close p w =>
    if Ready s p ∧ Idle s w then
      if w then
        if s.writeRef then some ({ s with writeRef := false }.goto p (.closing w)) else none
      else
        if s.readRef then some ({ s with readRef := false }.goto p (.closing w)) else none
    else none
  | .go p user => if (s.procs p).state = .running then go s p user else none

/-- Everything one section of a process inside the pipe's code can do. -/
inductive Turn (s : Sys) (p : Nat) : Sys → Prop where
  | enter {l : Loop} (hpc : s.pc p = .enter l) (hfree : s.lock = none) :
      Turn s p ({ s with lock := some p }.goto p (.head l))
  | closing {w : Bool} (hpc : s.pc p = .closing w) (hfree : s.lock = none) :
      Turn s p ((closeEnd { s with lock := some p } w).goto p (.waking (.pipeclose w) 0 (.ret 0)))
  | head {l : Loop} (hpc : s.pc p = .head l) : Turn s p (s.goto p (headOf s l))
  | test {l : Loop} (hpc : s.pc p = .test l) :
      Turn s p (s.goto p (testOf (s.procs p).killed l))
  | full {n : Int} {i : Nat} (hpc : s.pc p = .body n i)
      (hfull : s.pipe.nwrite = s.pipe.nread + BitVec.ofNat 32 PIPESIZE) :
      Turn s p (s.goto p (.waking .pipewrite 0 (.sleep n i)))
  | faulted {n : Int} {i : Nat} (hpc : s.pc p = .body n i) :
      Turn s p (s.goto p (.waking .pipewrite 0 (.ret i)))
  | stored {n : Int} {i : Nat} (ch : Byte) (hpc : s.pc p = .body n i)
      (hroom : s.pipe.nwrite ≠ s.pipe.nread + BitVec.ofNat 32 PIPESIZE) :
      Turn s p ((s.store ch).goto p (.head (.write n (i + 1))))
  | drained {n : Int} {i : Nat} (hpc : s.pc p = .copy n i) :
      Turn s p (s.goto p (.waking .piperead 0 (.ret i)))
  | removed {n : Int} {i : Nat} (c : Pc) (hpc : s.pc p = .copy n i)
      (hsome : s.pipe.nread ≠ s.pipe.nwrite)
      (hc : c = .waking .piperead 0 (.ret i) ∨ c = .copy n (i + 1)) :
      Turn s p (s.remove.goto p c)
  | waking {c : Call} {j : Nat} {k : After} (hpc : s.pc p = .waking c j k) (hj : j < NPROC)
      (hdoze : (s.pc j).isDozing = false) :
      Turn s p ((s.wakeSlot p c.wakes j).goto p (.waking c (j + 1) k))
  | blocked {c : Call} {j : Nat} {n : Int} {i : Nat} (hpc : s.pc p = .waking c j (.sleep n i))
      (hj : NPROC ≤ j) : Turn s p (s.goto p (.block (.write n i)))
  | woke {c : Call} {j : Nat} {v : Int} (hpc : s.pc p = .waking c j (.ret v)) (hj : NPROC ≤ j) :
      Turn s p (s.goto p (.leave c v))
  | block {l : Loop} (hpc : s.pc p = .block l) :
      Turn s p ({ s with lock := none }.goto p (.dozing l))
  | leave {c : Call} {v : Int} (hpc : s.pc p = .leave c v) :
      Turn s p ({ s with lock := none }.goto p (.user v))
  | dozing {l : Loop} (hpc : s.pc p = .dozing l) :
      Turn s p ((s.put p ((s.procs p).sleep l.chan)).goto p (.asleep l))
  | asleep {l : Loop} (hpc : s.pc p = .asleep l) :
      Turn s p ((s.put p { s.procs p with chan := none }).goto p (.enter l))

/-- Everything one step can do. -/
inductive Moves (s : Sys) : Act → Sys → Prop where
  | sched (p : Nat) (hst : (s.procs p).state = .runnable) :
      Moves s (.sched p) (s.setState p .running)
  | yield (p : Nat) (hrun : (s.procs p).state = .running) (hpc : (s.pc p).preemptible = true) :
      Moves s (.yield p) (s.setState p .runnable)
  | kill (i : Nat) (hpc : (s.pc i).isDozing = false) :
      Moves s (.kill i) (s.put i (s.procs i).kill)
  | elsewhere (p : Nat) (r : Proc) (hpc : (s.pc p).isUser = true) :
      Moves s (.elsewhere p r) (s.put p r)
  | write (p : Nat) (n : Int) (hp : Ready s p) (href : s.writeRef = true) :
      Moves s (.write p n) (s.goto p (.enter (.write n 0)))
  | read (p : Nat) (n : Int) (hp : Ready s p) (href : s.readRef = true) :
      Moves s (.read p n) (s.goto p (.enter (.read n)))
  | closeWrite (p : Nat) (hp : Ready s p) (hidle : Idle s true) (href : s.writeRef = true) :
      Moves s (.close p true) ({ s with writeRef := false }.goto p (.closing true))
  | closeRead (p : Nat) (hp : Ready s p) (hidle : Idle s false) (href : s.readRef = true) :
      Moves s (.close p false) ({ s with readRef := false }.goto p (.closing false))
  | turn {p : Nat} {user : Option Byte} {t : Sys} (hrun : (s.procs p).state = .running)
      (h : Turn s p t) : Moves s (.go p user) t

theorem bodyAt_turn (hpc : s.pc p = .body n i) : Turn s p (bodyAt s p n i user) := by
  unfold bodyAt
  split
  · next hf => exact .full hpc hf
  · next hf =>
    cases user with
    | none => exact .faulted hpc
    | some ch => exact .stored ch hpc hf

theorem copyAt_turn (hpc : s.pc p = .copy n i) : Turn s p (copyAt s p n i user) := by
  unfold copyAt
  split
  · split
    · exact .drained hpc
    · next hne =>
      cases user with
      | none => exact .removed _ hpc hne (.inl rfl)
      | some ch => exact .removed _ hpc hne (.inr rfl)
  · exact .drained hpc

theorem wakingAt_turn (hpc : s.pc p = .waking c j k) (h : wakingAt s p c j k = some t) :
    Turn s p t := by
  unfold wakingAt at h
  split at h
  · next hj =>
    cases hd : (s.pc j).isDozing with
    | true => simp [hd] at h
    | false =>
      simp only [hd, Bool.false_eq_true, ↓reduceIte, Option.some.injEq] at h
      exact h ▸ .waking hpc hj hd
  · next hj =>
    cases k with
    | sleep n i => exact Option.some.inj h ▸ .blocked hpc (Nat.le_of_not_lt hj)
    | ret v => exact Option.some.inj h ▸ .woke hpc (Nat.le_of_not_lt hj)

theorem go_turn (h : go s p user = some t) : Turn s p t := by
  unfold go at h
  split at h
  · cases h
  · next l hpc =>
    obtain ⟨hf, h⟩ := Option.ite_none_right_eq_some.mp h
    exact Option.some.inj h ▸ .enter hpc hf
  · next w hpc =>
    obtain ⟨hf, h⟩ := Option.ite_none_right_eq_some.mp h
    exact Option.some.inj h ▸ .closing hpc hf
  · next l hpc => exact Option.some.inj h ▸ .head hpc
  · next l hpc => exact Option.some.inj h ▸ .test hpc
  · next n i hpc => exact Option.some.inj h ▸ bodyAt_turn hpc
  · next n i hpc => exact Option.some.inj h ▸ copyAt_turn hpc
  · next c j k hpc => exact wakingAt_turn hpc h
  · next l hpc => exact Option.some.inj h ▸ .block hpc
  · next c v hpc => exact Option.some.inj h ▸ .leave hpc
  · next l hpc => exact Option.some.inj h ▸ .dozing hpc
  · next l hpc => exact Option.some.inj h ▸ .asleep hpc

theorem step_moves (h : step s a = some t) : Moves s a t := by
  cases a with
  | sched p =>
    obtain ⟨hs, h⟩ := Option.ite_none_right_eq_some.mp h
    exact Option.some.inj h ▸ .sched p hs
  | yield p =>
    obtain ⟨⟨hs, hp⟩, h⟩ := Option.ite_none_right_eq_some.mp h
    exact Option.some.inj h ▸ .yield p hs hp
  | kill i =>
    obtain ⟨hd, h⟩ := Option.ite_none_left_eq_some.mp h
    exact Option.some.inj h ▸ .kill i (Bool.eq_false_iff.mpr hd)
  | elsewhere p r =>
    obtain ⟨hp, h⟩ := Option.ite_none_right_eq_some.mp h
    exact Option.some.inj h ▸ .elsewhere p r hp
  | write p n =>
    obtain ⟨⟨hp, hr⟩, h⟩ := Option.ite_none_right_eq_some.mp h
    exact Option.some.inj h ▸ .write p n hp hr
  | read p n =>
    obtain ⟨⟨hp, hr⟩, h⟩ := Option.ite_none_right_eq_some.mp h
    exact Option.some.inj h ▸ .read p n hp hr
  | close p w =>
    obtain ⟨⟨hp, hi⟩, h⟩ := Option.ite_none_right_eq_some.mp h
    cases w with
    | true =>
      obtain ⟨hr, h⟩ := Option.ite_none_right_eq_some.mp h
      exact Option.some.inj h ▸ .closeWrite p hp hi hr
    | false =>
      obtain ⟨hr, h⟩ := Option.ite_none_right_eq_some.mp h
      exact Option.some.inj h ▸ .closeRead p hp hi hr
  | go p user =>
    obtain ⟨hs, h⟩ := Option.ite_none_right_eq_some.mp h
    exact .turn hs (go_turn h)

end Xv6.Pipe
