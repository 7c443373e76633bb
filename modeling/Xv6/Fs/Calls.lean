import Xv6.Fs.Inode
import Xv6.Lib.Run

namespace Xv6.Fs

open Function

/-- FD_NONE, FD_PIPE, FD_INODE and FD_DEVICE. -/
inductive FileType where
  | none
  | pipe
  | inode
  | device
deriving DecidableEq, Repr

/-- struct file; ip is an index of the inode table, pipe the number of a pipe. -/
structure File where
  type : FileType
  ref : Nat
  readable : Bool
  writable : Bool
  pipe : Nat
  ip : Nat
  off : Nat
  major : BitVec 16

/-- A pipe without its buffer; freed counts how often its page went to kfree. -/
structure Pipe where
  readopen : Bool
  writeopen : Bool
  freed : Nat

inductive ProcState where
  | unused
  | used
  | zombie
deriving DecidableEq, Repr

structure Proc where
  state : ProcState
  cwd : Option Nat
  ofile : Nat → Option Nat

/-- Pipes are numbered in the order they are made. -/
structure Sys where
  core : Core
  ftable : Nat → File
  pipes : Nat → Pipe
  npipes : Nat
  procs : Nat → Proc

abbrev Sc := Lib.Prog Sys Panic

def onCore (m : Ic α) : Sc α := Lib.zoom Sys.core (fun s c => { s with core := c }) m

def Sys.setFile (s : Sys) (f : Nat) (file : File) : Sys :=
  { s with ftable := update s.ftable f file }

def Sys.setPipe (s : Sys) (n : Nat) (pi : Pipe) : Sys :=
  { s with pipes := update s.pipes n pi }

def Sys.setProc (s : Sys) (p : Nat) (proc : Proc) : Sys :=
  { s with procs := update s.procs p proc }

/-- p->ofile[fd] = f, or 0 for none. -/
def Sys.setFd (s : Sys) (p fd : Nat) (f : Option Nat) : Sys :=
  s.setProc p { s.procs p with ofile := update (s.procs p).ofile fd f }

def filealloc : Sc (Option Nat) := do
  let s ← get
  match (List.range NFILE).find? (fun f => (s.ftable f).ref == 0) with
  | some f => do
    set (s.setFile f { s.ftable f with ref := 1 })
    return some f
  | none => return none

def filedup (f : Nat) : Sc Unit := do
  let s ← get
  if (s.ftable f).ref < 1 then throw .filedup
  else set (s.setFile f { s.ftable f with ref := (s.ftable f).ref + 1 })

def Pipe.shut (pi : Pipe) (writable : Bool) : Pipe :=
  if writable then { pi with writeopen := false } else { pi with readopen := false }

/-- The page goes to kfree when both sides are closed. -/
def Pipe.reclaim (pi : Pipe) : Pipe :=
  if pi.readopen || pi.writeopen then pi else { pi with freed := pi.freed + 1 }

def pipeclose (n : Nat) (writable : Bool) : Sc Unit :=
  modify (fun s => s.setPipe n ((s.pipes n).shut writable).reclaim)

/-- What becomes of the object behind a file that has lost its last reference. -/
def release (file : File) : Sc Unit :=
  match file.type with
  | .pipe => pipeclose file.pipe file.writable
  | .inode => onCore (iput file.ip)
  | .device => onCore (iput file.ip)
  | .none => pure ()

def fileclose (f : Nat) : Sc Unit := do
  let s ← get
  if (s.ftable f).ref < 1 then throw .fileclose
  else if 1 < (s.ftable f).ref then
    set (s.setFile f { s.ftable f with ref := (s.ftable f).ref - 1 })
  else do
    set (s.setFile f { s.ftable f with ref := 0, type := .none })
    release (s.ftable f)

/-- The file behind a descriptor. A negative argument leaves fd unset, so fd is any int. -/
def argfd (p : Nat) (fd : Int) : Sc (Option (Nat × Nat)) := do
  let s ← get
  if 0 ≤ fd ∧ fd < NOFILE then
    return ((s.procs p).ofile fd.toNat).map (fun f => (fd.toNat, f))
  else return none

def fdalloc (p f : Nat) : Sc (Option Nat) := do
  let s ← get
  match (List.range NOFILE).find? (fun fd => (s.procs p).ofile fd == none) with
  | some fd => do
    set (s.setFd p fd (some f))
    return some fd
  | none => return none

/-- argstr: the string that starts the reachable bytes, if it ends within MAXPATH. -/
def argstr (bytes : List Byte) : Option (List Byte) :=
  if (bytes.take MAXPATH).contains 0 then some (bytes.takeWhile (fun c => c != 0)) else none

def sysDup (p : Nat) (fd : Int) : Sc Unit := do
  let r ← argfd p fd
  match r with
  | none => return
  | some (_, f) => do
    let r ← fdalloc p f
    match r with
    | none => return
    | some _ => filedup f

def sysClose (p : Nat) (fd : Int) : Sc Unit := do
  let r ← argfd p fd
  match r with
  | none => return
  | some (fd, f) => do
    modify (fun s => s.setFd p fd none)
    fileclose f

/-- fileread and filewrite move f->off by what was read or written. -/
def advance (f n : Nat) : Sc Unit :=
  modify (fun s => s.setFile f { s.ftable f with off := ((s.ftable f).off + n) % 4294967296 })

/-- fileread of n bytes to a destination of which dst bytes are writable; the data of pipes and
devices is not part of the state. -/
def fileread (sb : Superblock) (f dst n : Nat) : Sc Unit := do
  let s ← get
  let file := s.ftable f
  if file.readable = false then return
  else
    match file.type with
    | .pipe => return
    | .device => return
    | .none => throw .fileread
    | .inode => do
      onCore (ilock file.ip)
      let r ← onCore (onInode file.ip (fun _ ip => readi sb ip (some dst) file.off n))
      advance f (r.getD []).length
      onCore (iunlock file.ip)

def writeMax : Nat := (MAXOPBLOCKS - 1 - 1 - 2) / 2 * BSIZE

/-- The loop of filewrite; i bytes are written. -/
def filewriteLoop (sb : Superblock) (f n : Nat) (src : List Byte) : Nat → Nat → Sc Unit
  | 0, _ => return
  | fuel + 1, i =>
    if i < n then do
      let s ← get
      let file := s.ftable f
      let n1 := min (n - i) writeMax
      onCore (ilock file.ip)
      let r ← onCore (onInode file.ip (fun inum ip =>
        writei sb inum ip (src.drop i) file.off n1))
      advance f (r.getD 0)
      onCore (iunlock file.ip)
      if r = some n1 then filewriteLoop sb f n src fuel (i + n1) else return
    else return

/-- filewrite of n bytes, of which those in src are readable. -/
def filewrite (sb : Superblock) (f : Nat) (src : List Byte) (n : Nat) : Sc Unit := do
  let s ← get
  let file := s.ftable f
  if file.writable = false then return
  else
    match file.type with
    | .pipe => return
    | .device => return
    | .none => throw .filewrite
    | .inode => filewriteLoop sb f n src n 0

def sysRead (sb : Superblock) (p : Nat) (fd : Int) (dst n : Nat) : Sc Unit := do
  let r ← argfd p fd
  match r with
  | none => return
  | some (_, f) => fileread sb f dst n

def sysWrite (sb : Superblock) (p : Nat) (fd : Int) (src : List Byte) (n : Nat) : Sc Unit := do
  let r ← argfd p fd
  match r with
  | none => return
  | some (_, f) => filewrite sb f src n

/-- A call on a path that cannot be fetched returns -1; one by a process without a current
directory does not happen. -/
def withPath (p : Nat) (bytes : List Byte) (m : Nat → List Byte → Sc Unit) : Sc Unit := do
  let s ← get
  match (s.procs p).cwd, argstr bytes with
  | some cwd, some path => m cwd path
  | _, _ => return

def sysLink (sb : Superblock) (p : Nat) (old new : List Byte) : Sc Unit :=
  withPath p old (fun cwd old => withPath p new (fun _ new => do
    let _ ← onCore (link sb cwd old new)
    return))

def sysUnlink (sb : Superblock) (p : Nat) (path : List Byte) : Sc Unit :=
  withPath p path (fun cwd path => do
    let _ ← onCore (unlink sb cwd path)
    return)

/-- The end of mkdir() and mknod(). -/
def makeNode (sb : Superblock) (p : Nat) (path : List Byte) (type : Nat)
    (major minor : BitVec 16) : Sc Unit :=
  withPath p path (fun cwd path => do
    let r ← onCore (create sb cwd path type major minor)
    match r with
    | none => return
    | some x => onCore (iunlockput x))

def sysMkdir (sb : Superblock) (p : Nat) (path : List Byte) : Sc Unit :=
  makeNode sb p path T_DIR 0 0

def sysMknod (sb : Superblock) (p : Nat) (path : List Byte) (major minor : BitVec 16) : Sc Unit :=
  makeNode sb p path T_DEVICE major minor

def O_RDONLY : BitVec 32 := 0x000
def O_WRONLY : BitVec 32 := 0x001
def O_RDWR : BitVec 32 := 0x002
def O_CREATE : BitVec 32 := 0x200
def O_TRUNC : BitVec 32 := 0x400

/-- The inode open() is about, locked. -/
def openInode (sb : Superblock) (cwd : Nat) (path : List Byte) (omode : BitVec 32) :
    Ic (Option Nat) :=
  if omode &&& O_CREATE ≠ 0 then create sb cwd path T_FILE 0 0
  else do
    let r ← namei sb cwd path
    match r with
    | none => return none
    | some x => do
      ilock x
      let type ← itype x
      if type = T_DIR ∧ omode ≠ O_RDONLY then do
        iunlockput x
        return none
      else return some x

/-- filealloc and fdalloc, or neither. -/
def newFd (p : Nat) : Sc (Option Nat) := do
  let r ← filealloc
  match r with
  | none => return none
  | some f => do
    let r ← fdalloc p f
    match r with
    | none => do
      fileclose f
      return none
    | some _ => return some f

/-- The fields open() sets in the file structure. -/
def openFile (file : File) (x : Nat) (ip : Dinode) (omode : BitVec 32) : File :=
  { file with
    type := if ip.type = T_DEVICE then .device else .inode
    major := if ip.type = T_DEVICE then ip.major else file.major
    off := if ip.type = T_DEVICE then file.off else 0
    ip := x
    readable := omode &&& O_WRONLY == 0
    writable := omode &&& O_WRONLY != 0 || omode &&& O_RDWR != 0 }

def sysOpen (sb : Superblock) (p : Nat) (path : List Byte) (omode : BitVec 32) : Sc Unit :=
  withPath p path (fun cwd path => do
    let r ← onCore (openInode sb cwd path omode)
    match r with
    | none => return
    | some x => do
      let s ← get
      let ip := (s.core.itable x).copy
      if ip.type = T_DEVICE ∧ (ip.major.toInt < 0 ∨ (NDEV : Int) ≤ ip.major.toInt) then
        onCore (iunlockput x)
      else do
        let r ← newFd p
        match r with
        | none => onCore (iunlockput x)
        | some f => do
          modify (fun s => s.setFile f (openFile (s.ftable f) x ip omode))
          onlyIf (omode &&& O_TRUNC ≠ 0 ∧ ip.type = T_FILE)
            (onCore (onInode x (fun inum ip => do
              let ip ← itrunc inum ip
              return ((), ip))))
          onCore (iunlock x))

def sysChdir (sb : Superblock) (p : Nat) (path : List Byte) : Sc Unit :=
  withPath p path (fun cwd path => do
    let r ← onCore (namei sb cwd path)
    match r with
    | none => return
    | some x => do
      onCore (ilock x)
      let type ← onCore (itype x)
      if type = T_DIR then do
        onCore (iunlock x)
        onCore (iput cwd)
        modify (fun s => s.setProc p { s.procs p with cwd := some x })
      else onCore (iunlockput x))

/-- exec as far as the file system sees it: it reads pieces of the file and puts the inode on
every exit. -/
def sysExec (sb : Superblock) (p : Nat) (path : List Byte) (reads : List (Nat × Nat)) : Sc Unit :=
  withPath p path (fun cwd path => do
    let r ← onCore (namei sb cwd path)
    match r with
    | none => return
    | some x => do
      onCore (ilock x)
      reads.forM (fun r => do
        let _ ← onCore (onInode x (fun _ ip => readi sb ip none r.1 r.2))
        return)
      onCore (iunlockput x))

/-- The structures of both ends; mem tells whether kalloc finds a page. -/
def pipealloc (mem : Bool) : Sc (Option (Nat × Nat)) := do
  let r0 ← filealloc
  match r0 with
  | none => return none
  | some f0 => do
    let r1 ← filealloc
    match r1 with
    | none => do
      fileclose f0
      return none
    | some f1 =>
      if mem then do
        modify (fun s => { s.setPipe s.npipes ⟨true, true, 0⟩ with npipes := s.npipes + 1 })
        modify (fun s => s.setFile f0 { s.ftable f0 with
          type := .pipe, readable := true, writable := false, pipe := s.npipes - 1 })
        modify (fun s => s.setFile f1 { s.ftable f1 with
          type := .pipe, readable := false, writable := true, pipe := s.npipes - 1 })
        return some (f0, f1)
      else do
        fileclose f0
        fileclose f1
        return none

def closeBoth (rf wf : Nat) : Sc Unit := do
  fileclose rf
  fileclose wf

/-- pipe(); copied tells whether both numbers could be copied out. -/
def sysPipe (p : Nat) (mem copied : Bool) : Sc Unit := do
  let r ← pipealloc mem
  match r with
  | none => return
  | some (rf, wf) => do
    let r0 ← fdalloc p rf
    match r0 with
    | none => closeBoth rf wf
    | some fd0 => do
      let r1 ← fdalloc p wf
      match r1 with
      | none => do
        modify (fun s => s.setFd p fd0 none)
        closeBoth rf wf
      | some fd1 =>
        if copied then return
        else do
          modify (fun s => s.setFd p fd0 none)
          modify (fun s => s.setFd p fd1 none)
          closeBoth rf wf

/-- One turn of the loop of fork over the descriptors. -/
def dupFd (p np fd : Nat) : Sc Unit := do
  let s ← get
  match (s.procs p).ofile fd with
  | none => return
  | some f => do
    filedup f
    modify (fun s => s.setFd np fd (some f))

/-- mem tells whether there is memory for the child. -/
def sysFork (p : Nat) (mem : Bool) : Sc Unit := do
  let s ← get
  match (List.range NPROC).find? (fun q => (s.procs q).state == .unused), (s.procs p).cwd with
  | some np, some cwd =>
    if mem then do
      set (s.setProc np { s.procs np with state := .used })
      (List.range NOFILE).forM (dupFd p np)
      let x ← onCore (idup cwd)
      modify (fun s => s.setProc np { s.procs np with cwd := some x })
    else return
  | _, _ => return

/-- One turn of the loop of exit over the descriptors. -/
def closeFd (p fd : Nat) : Sc Unit := do
  let s ← get
  match (s.procs p).ofile fd with
  | none => return
  | some f => do
    fileclose f
    modify (fun s => s.setFd p fd none)

def sysExit (p : Nat) : Sc Unit := do
  let s ← get
  if p = 0 then throw .initExiting
  else
    match (s.procs p).cwd with
    | none => return
    | some cwd => do
      (List.range NOFILE).forM (closeFd p)
      onCore (iput cwd)
      modify (fun s => s.setProc p { s.procs p with state := .zombie, cwd := none })

/-- wait() by any process that reaps q. -/
def sysReap (q : Nat) : Sc Unit := do
  let s ← get
  if (s.procs q).state = .zombie then set (s.setProc q { s.procs q with state := .unused })
  else return

/-- The system calls, by process p. Strings are given as the bytes from their address on that can
be read, numbers as the variables of the handler hold them. -/
inductive Call where
  | open (p : Nat) (path : List Byte) (omode : BitVec 32)
  | close (p : Nat) (fd : Int)
  | dup (p : Nat) (fd : Int)
  | read (p : Nat) (fd : Int) (dst n : Nat)
  | write (p : Nat) (fd : Int) (src : List Byte) (n : Nat)
  | link (p : Nat) (old new : List Byte)
  | unlink (p : Nat) (path : List Byte)
  | mkdir (p : Nat) (path : List Byte)
  | mknod (p : Nat) (path : List Byte) (major minor : BitVec 16)
  | chdir (p : Nat) (path : List Byte)
  | exec (p : Nat) (path : List Byte) (reads : List (Nat × Nat))
  | pipe (p : Nat) (mem copied : Bool)
  | fork (p : Nat) (mem : Bool)
  | exit (p : Nat)
  | reap (p q : Nat)

def Call.proc : Call → Nat
  | .open p _ _ | .close p _ | .dup p _ | .read p _ _ _ | .write p _ _ _ | .link p _ _
  | .unlink p _ | .mkdir p _ | .mknod p _ _ _ | .chdir p _ | .exec p _ _ | .pipe p _ _
  | .fork p _ | .exit p | .reap p _ => p

def Call.run (sb : Superblock) : Call → Sc Unit
  | .open p path omode => sysOpen sb p path omode
  | .close p fd => sysClose p fd
  | .dup p fd => sysDup p fd
  | .read p fd dst n => sysRead sb p fd dst n
  | .write p fd src n => sysWrite sb p fd src n
  | .link p old new => sysLink sb p old new
  | .unlink p path => sysUnlink sb p path
  | .mkdir p path => sysMkdir sb p path
  | .mknod p path major minor => sysMknod sb p path major minor
  | .chdir p path => sysChdir sb p path
  | .exec p path reads => sysExec sb p path reads
  | .pipe p mem copied => sysPipe p mem copied
  | .fork p mem => sysFork p mem
  | .exit p => sysExit p
  | .reap _ q => sysReap q

/-- A call by a live process that returns; a panic ends the run. -/
def step (sb : Superblock) (s : Sys) (c : Call) : Option Sys :=
  if c.proc < NPROC ∧ (s.procs c.proc).state = .used then
    match (c.run sb).run s with
    | .ok r => some r.2
    | .error _ => none
  else none

/-- After userinit: the first process, whose current directory is what namei("/") returns. -/
def boot (disk : Disk) : Sys where
  core :=
    { disk := disk
      itable := fun x =>
        if x = 0 then ⟨ROOTDEV, ROOTINO, 1, false, false, Dinode.zero⟩
        else ⟨0, 0, 0, false, false, Dinode.zero⟩ }
  ftable := fun _ => ⟨.none, 0, false, false, 0, 0, 0, 0⟩
  pipes := fun _ => ⟨false, false, 0⟩
  npipes := 0
  procs := fun p => if p = 0 then ⟨.used, some 0, fun _ => none⟩ else ⟨.unused, none, fun _ => none⟩

end Xv6.Fs
