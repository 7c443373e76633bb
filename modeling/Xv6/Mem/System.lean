import Xv6.Lib.Parts
import Xv6.Mem.Task
import Xv6.Proc.Lifecycle
import Xv6.Shm.Table

namespace Xv6.Mem
open Function Lib Lib.Radix

inductive FileType where
  | none
  | pipe (pi : Addr) (writable : Bool)
  | inode
  deriving DecidableEq

/-- The struct file. -/
structure OpenFile where
  ref : Nat := 0
  type : FileType := .none
  deriving DecidableEq

/-- The struct pipe in the page at pi. -/
structure Pipe where
  page : Addr
  readopen : Bool
  writeopen : Bool
  deriving DecidableEq

def Pipe.opens (q : Pipe) (writable : Bool) : Bool := if writable then q.writeopen else q.readopen

def Pipe.close (q : Pipe) (writable : Bool) : Pipe :=
  if writable then { q with writeopen := false } else { q with readopen := false }

/-- The kernel's memory and everything that has pages of it. `boot` are the pages that main() has
taken before userinit(): the kernel's page table and stacks and the ring of the disk. The last two
fields are not in the source: the page that shmat() has got for a segment, and those whose segment
has been removed. -/
structure Sys where
  k : Kmem
  procs : Fin NPROC → Task
  nextpid : Int
  files : Fin NFILE → OpenFile
  pipes : List Pipe
  shm : Shm.Table
  boot : List Addr
  shared : Shm.Slot → Option Addr
  lost : List Addr

/-- System calls, and with `store` what a process or the kernel writes to user memory. -/
inductive Call where
  | fork (p : Fin NPROC)
  | exec (p : Fin NPROC) (namei : List Byte → Option File) (upath uargv : Addr)
  | sbrk (p : Fin NPROC) (n : BitVec 32)
  | exit (p : Fin NPROC) (status : Int)
  | wait (p : Fin NPROC) (addr : Addr)
  | waitpid (p : Fin NPROC) (pid : Int) (addr : Addr)
  | store (p : Fin NPROC) (va : Addr) (bs : List Byte)
  | pipealloc
  | filealloc
  | filedup (f : Fin NFILE)
  | fileclose (f : Fin NFILE)
  | shmget (p : Fin NPROC) (key size shmflag : BitVec 32)
  | shmat (p : Fin NPROC) (shmid : BitVec 32) (userAddr : Addr)
  | shmdt (p : Fin NPROC) (shmid : BitVec 32)
  | shmctl (p : Fin NPROC) (shmid cmd buf : BitVec 32)

/-- The slot of the first process. -/
def init : Fin NPROC := ⟨Lifecycle.initproc, by decide⟩

/-- The process exists and has not exited. -/
def Sys.Runs (s : Sys) (p : Fin NPROC) : Prop :=
  (s.procs p).state ≠ .unused ∧ (s.procs p).state ≠ .zombie

instance (s : Sys) (p : Fin NPROC) : Decidable (s.Runs p) := inferInstanceAs (Decidable (_ ∧ _))

/-- The first slot of the process table that passes a test. -/
def Sys.first (s : Sys) (test : Task → Bool) : Option (Fin NPROC) :=
  (List.finRange NPROC).find? (fun i => test (s.procs i))

def Sys.setTask (s : Sys) (p : Fin NPROC) (t : Task) (k : Kmem) : Sys :=
  { s with k := k, procs := update s.procs p t }

def Sys.setFile (s : Sys) (f : Fin NFILE) (o : OpenFile) : Sys :=
  { s with files := update s.files f o }

/-- The pid, unless the int of allocpid() has run over to zero. -/
def Task.shmPid (t : Task) : Option Shm.Pid :=
  if h : BitVec.ofInt 32 t.pid = 0 then none else some ⟨BitVec.ofInt 32 t.pid, h⟩

/-- The state after memory operations that return. -/
def after (x : Km α) (k : Kmem) (f : α → Kmem → β) : Except Panic β :=
  match x.run k with
  | .ok (a, k') => .ok (f a k')
  | .error e => .error e

def exit (s : Sys) (p : Fin NPROC) (status : Int) : Sys :=
  -- reparent()
  let procs i := if (s.procs i).parent = some p.val then
    { s.procs i with parent := some Lifecycle.initproc } else s.procs i
  { s with procs := update procs p { procs p with state := .zombie, xstate := status } }

/-- The first struct file that is free. -/
def freeFile (files : Fin NFILE → OpenFile) : Option (Fin NFILE) :=
  (List.finRange NFILE).find? (fun f => (files f).ref = 0)

/-- The two files are allocated first, and closed again when there is no page. -/
def pipealloc (s : Sys) : Except Panic Sys :=
  match freeFile s.files with
  | none => .ok s
  | some f0 =>
    match freeFile (update s.files f0 { s.files f0 with ref := 1 }) with
    | none => .ok (s.setFile f0 {})
    | some f1 => after kalloc s.k (fun r k =>
      match r with
      | none => { (s.setFile f0 {}).setFile f1 {} with k := k }
      | some pi =>
        { (s.setFile f0 ⟨1, .pipe pi false⟩).setFile f1 ⟨1, .pipe pi true⟩ with
          k := k
          pipes := ⟨pi, true, true⟩ :: s.pipes })

/-- filealloc() for an inode or a device. -/
def filealloc (s : Sys) : Sys :=
  match freeFile s.files with
  | none => s
  | some f => s.setFile f ⟨1, .inode⟩

/-- When kalloc() is called there is a segment, and its page goes into the table. -/
def shmat (s : Sys) (q : Shm.Pid) (shmid : BitVec 32) (userAddr : Addr) :
    Except Panic (Sys × Shm.Attach) :=
  match (Shm.shmat s.shm q shmid userAddr 0).2, s.shm.slot shmid with
  | .noMemory, some i => after kalloc s.k (fun r k =>
    let (t, a) := Shm.shmat s.shm q shmid userAddr (r.getD 0)
    ({ s with k := k, shm := t, shared := update s.shared i r }, a))
  | a, _ => .ok ({ s with shm := (Shm.shmat s.shm q shmid userAddr 0).1 }, a)

/-- A removed segment gives nothing back. -/
def shmctl (s : Sys) (shmid cmd buf : BitVec 32) : Sys :=
  let s' := { s with shm := (Shm.shmctl s.shm shmid cmd buf).1 }
  match s.shm.slot shmid with
  | none => s'
  | some i =>
    if cmd = Shm.IPC_RMID then
      { s' with
        shared := update s.shared i none
        lost := (s.shared i).toList ++ s.lost }
    else s'

/-- The state after a userinit() that succeeds. -/
def start (boot : List Addr) (t : Task) (k : Kmem) : Sys where
  k := k
  procs := update (fun _ => {}) init t
  nextpid := 2
  files := fun _ => {}
  pipes := []
  shm := Shm.start
  boot := boot
  shared := fun _ => none
  lost := []

section Layout
variable [Image]

/-- wait() and waitpid() on a child that has exited. -/
def reap (s : Sys) (p i : Fin NPROC) (addr : Addr) : Except Panic Sys := do
  let (ok, k) ← (deliver (s.procs p) addr (s.procs i).xstate).run s.k
  if ok then after (freeproc (s.procs i)) k (fun t k => s.setTask i t k)
  else .ok { s with k := k }

def pipeclose (s : Sys) (pi : Addr) (writable : Bool) : Except Panic Sys :=
  match s.pipes.find? (·.page = pi) with
  | none => .ok s
  | some q =>
    if (q.close writable).readopen = false ∧ (q.close writable).writeopen = false then
      after (kfree pi) s.k (fun _ k => { s with k := k, pipes := s.pipes.erase q })
    else .ok { s with pipes := q.close writable :: s.pipes.erase q }

def fileclose (s : Sys) (f : Fin NFILE) : Except Panic Sys :=
  if 1 < (s.files f).ref then
    .ok (s.setFile f { s.files f with ref := (s.files f).ref - 1 })
  else
    match (s.files f).type with
    | .pipe pi writable => pipeclose (s.setFile f {}) pi writable
    | _ => .ok (s.setFile f {})

/-- The process that makes a call exists, and so does the file. A pid is zero only when the int of
allocpid() has run over; the shared segments take it for a free entry. -/
def Sys.Enabled (s : Sys) : Call → Prop
  | .fork p | .exec p .. | .sbrk p _ | .exit p _ | .wait p _ | .waitpid p .. | .store p ..
  | .shmctl p .. => s.Runs p
  | .shmget p .. | .shmat p .. | .shmdt p _ => s.Runs p ∧ (s.procs p).shmPid ≠ none
  | .pipealloc | .filealloc => True
  | .filedup f | .fileclose f => 1 ≤ (s.files f).ref

instance (s : Sys) (c : Call) : Decidable (s.Enabled c) :=
  match c with
  | .fork p | .exec p .. | .sbrk p _ | .exit p _ | .wait p _ | .waitpid p .. | .store p ..
  | .shmctl p .. => inferInstanceAs (Decidable (s.Runs p))
  | .shmget p .. | .shmat p .. | .shmdt p _ =>
    inferInstanceAs (Decidable (s.Runs p ∧ (s.procs p).shmPid ≠ none))
  | .pipealloc | .filealloc => isTrue trivial
  | .filedup f | .fileclose f => inferInstanceAs (Decidable (1 ≤ (s.files f).ref))

/-- A call on the shared segments, by a process with this slot. -/
def Sys.withPid (s : Sys) (p : Fin NPROC) (f : Shm.Pid → Except Panic Sys) : Except Panic Sys :=
  match (s.procs p).shmPid with
  | none => .ok s
  | some q => f q

/-- The state after a call, or the panic in it. -/
def perform (s : Sys) : Call → Except Panic Sys
  | .fork p =>
    match s.first (·.state = .unused) with
    | none => .ok s
    | some i => after (fork p.val (s.procs p) (s.procs i) s.nextpid) s.k (fun r k =>
      { s.setTask i r.1 k with nextpid := Lifecycle.succPid s.nextpid })
  | .exec p namei upath uargv =>
    after (execTask namei (s.procs p) upath uargv) s.k (fun r k => s.setTask p r.1 k)
  | .sbrk p n => after (growproc (s.procs p) n) s.k (fun r k => s.setTask p r.1 k)
  | .exit p status =>
    if p.val = Lifecycle.initproc then .error .initExiting else .ok (exit s p status)
  | .wait p addr =>
    match s.first (fun t => t.parent = some p.val ∧ t.state = .zombie) with
    | none => .ok s
    | some i => reap s p i addr
  | .waitpid p pid addr =>
    match s.first (fun t => t.parent = some p.val ∧ (t.pid = pid ∨ pid = -1)) with
    | none => .ok s
    | some i => if (s.procs i).state = .zombie then reap s p i addr else .ok s
  | .store p va bs => after (copyout (s.procs p).pagetable va bs) s.k (fun _ k => { s with k := k })
  | .pipealloc => pipealloc s
  | .filealloc => .ok (filealloc s)
  | .filedup f => .ok (s.setFile f { s.files f with ref := (s.files f).ref + 1 })
  | .fileclose f => fileclose s f
  | .shmget p key size shmflag => s.withPid p (fun q =>
    .ok { s with shm := (Shm.shmget s.shm q key size shmflag).1 })
  | .shmat p shmid userAddr => s.withPid p (fun q => (shmat s q shmid userAddr).map (·.1))
  | .shmdt p shmid => s.withPid p (fun q => .ok { s with shm := (Shm.shmdt s.shm q shmid).1 })
  | .shmctl _ shmid cmd buf => .ok (shmctl s shmid cmd buf)

def step (s : Sys) (c : Call) : Option Sys :=
  if s.Enabled c then (perform s c).toOption else none

/-- The allocations of main() between kinit() and userinit(). -/
def bootPages : Nat → Km (Option (List Addr))
  | 0 => pure (some [])
  | n + 1 => do
    match ← kalloc with
    | none => pure none
    | some x => do
      match ← bootPages n with
      | none => pure none
      | some l => pure (some (x :: l))

/-- The memory side of main(), with n pages for the kernel itself. None when something fails. -/
def boot (n : Nat) : Km (Option (List Addr × Task)) := do
  kinit
  match ← bootPages n with
  | none => pure none
  | some l => do
    match ← userinit with
    | none => pure none
    | some t => pure (some (l, t))

def main (n : Nat) (k : Kmem) : Option Sys :=
  match (boot n).run k with
  | .ok (some (l, t), k') => some (start l t k')
  | _ => none

end Layout

end Xv6.Mem
