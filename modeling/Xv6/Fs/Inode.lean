import Xv6.Fs.Disk
import Xv6.Lib.Outcome

namespace Xv6.Fs

/-- struct inode: an entry of the inode table with its sleep lock and its copy of the disk
inode. -/
structure Inode where
  dev : Nat
  inum : Nat
  ref : Nat
  locked : Bool
  valid : Bool
  copy : Dinode

structure Core where
  disk : Disk
  itable : Nat → Inode

abbrev Ic := Lib.Prog Core Panic

/-- An if without else. -/
def onlyIf (c : Prop) [Decidable c] (m : Lib.Prog σ ε PUnit) : Lib.Prog σ ε PUnit :=
  if c then m else pure ⟨⟩

def Core.setInode (c : Core) (x : Nat) (ip : Inode) : Core :=
  { c with itable := Function.update c.itable x ip }

def onDisk (m : Dk α) : Ic α := Lib.zoom Core.disk (fun c d => { c with disk := d }) m

/-- An operation on the content of entry x: it works on the copy and leaves it changed. -/
def onInode (x : Nat) (m : Nat → Dinode → Dk (α × Dinode)) : Ic α := do
  let c ← get
  let (a, ip) ← onDisk (m (c.itable x).inum (c.itable x).copy)
  modify (fun c => c.setInode x { c.itable x with copy := ip })
  return a

/-- Assignments to fields of the copy, then iupdate. -/
def assign (x : Nat) (f : Dinode → Dinode) : Ic Unit :=
  onInode x (fun inum ip => do iupdate inum (f ip); return ((), f ip))

def iget (dev inum : Nat) : Ic Nat := do
  let c ← get
  match (List.range NINODE).find? (fun x =>
      decide (0 < (c.itable x).ref) && (c.itable x).dev == dev && (c.itable x).inum == inum) with
  | some x => do
    set (c.setInode x { c.itable x with ref := (c.itable x).ref + 1 })
    return x
  | none =>
    match (List.range NINODE).find? (fun x => (c.itable x).ref == 0) with
    | some x => do
      set (c.setInode x { c.itable x with dev := dev, inum := inum, ref := 1, valid := false })
      return x
    | none => throw .noInodes

def idup (x : Nat) : Ic Nat := do
  modify (fun c => c.setInode x { c.itable x with ref := (c.itable x).ref + 1 })
  return x

def ilock (x : Nat) : Ic Unit := do
  let c ← get
  if (c.itable x).ref < 1 then throw .ilock
  else if (c.itable x).locked then throw .deadlock
  else if (c.itable x).valid then set (c.setInode x { c.itable x with locked := true })
  else do
    set (c.setInode x { c.itable x with
      locked := true, valid := true, copy := c.disk.inodes (c.itable x).inum })
    if (c.disk.inodes (c.itable x).inum).type = 0 then throw .noType
    else pure ()

def iunlock (x : Nat) : Ic Unit := do
  let c ← get
  if (c.itable x).locked = false ∨ (c.itable x).ref < 1 then throw .iunlock
  else set (c.setInode x { c.itable x with locked := false })

/-- The inode has no links and no other references: truncate and free. -/
def ifree (x : Nat) : Ic Unit := do
  let c ← get
  if (c.itable x).locked then throw .deadlock
  else do
    onInode x (fun inum ip => do
      let ip ← itrunc inum ip
      return ((), ip))
    assign x (fun ip => { ip with type := 0 })
    modify (fun c => c.setInode x { c.itable x with valid := false })

def iput (x : Nat) : Ic Unit := do
  let c ← get
  onlyIf ((c.itable x).ref = 1 ∧ (c.itable x).valid = true ∧ (c.itable x).copy.nlink = 0) (ifree x)
  modify (fun c => c.setInode x { c.itable x with ref := (c.itable x).ref - 1 })

def iunlockput (x : Nat) : Ic Unit := do
  iunlock x
  iput x

def ialloc (sb : Superblock) (dev type : Nat) : Ic (Option Nat) := do
  let c ← get
  match (List.range sb.ninodes).find? (fun i =>
      decide (1 ≤ i) && (c.disk.inodes i).type == 0) with
  | some i => do
    onDisk (iupdate i { Dinode.zero with type := type })
    let x ← iget dev i
    return some x
  | none => return none

def itype (x : Nat) : Ic Nat := do
  let c ← get
  return (c.itable x).copy.type

/-- A loop over the entries of directory dp. -/
def scanDir (sb : Superblock) (bad : Panic) (p : Dirent → Bool) (dp off : Nat) :
    Ic (Nat × Option Dirent) :=
  onInode dp (fun _ ip => do
    let (off, de, ip) ← scan sb bad p ip.size ip off
    return ((off, de), ip))

def writeDirent (sb : Superblock) (dp off : Nat) (e : Dirent) : Ic (Option Nat) :=
  onInode dp (fun inum ip => writei sb inum ip e.bytes off direntSize)

/-- The entry found and its offset. -/
def dirlookup (sb : Superblock) (dp : Nat) (name : List Byte) : Ic (Option (Nat × Nat)) := do
  let type ← itype dp
  if type = T_DIR then do
    let (off, de) ← scanDir sb .dirlookupRead (fun e => e.inum != 0 && e.name == name) dp 0
    match de with
    | some e => do
      let c ← get
      let x ← iget (c.itable dp).dev e.inum
      return some (x, off)
    | none => return none
  else throw .notDir

def dirlink (sb : Superblock) (dp : Nat) (name : List Byte) (inum : Nat) : Ic Bool := do
  let found ← dirlookup sb dp name
  match found with
  | some (x, _) => do
    iput x
    return false
  | none => do
    let (off, _) ← scanDir sb .dirlinkRead (fun e => e.inum == 0) dp 0
    let r ← writeDirent sb dp off ⟨inum, name⟩
    return r == some direntSize

abbrev slash : Byte := 47

/-- The next element of the path, cut to DIRSIZ bytes, and what follows it. -/
def skipelem (path : List Byte) : Option (List Byte × List Byte) :=
  let path := path.dropWhile (· == slash)
  if path.isEmpty then none
  else some ((path.takeWhile (· != slash)).take DIRSIZ,
    (path.dropWhile (· != slash)).dropWhile (· == slash))

/-- The elements skipelem returns until the path is used up. -/
def elements : Nat → List Byte → List (List Byte)
  | 0, _ => []
  | fuel + 1, path =>
    match skipelem path with
    | none => []
    | some (name, rest) => name :: elements fuel rest

/-- The loop of namex at entry x. With parent set it stops one element early and also returns
that element. -/
def namexLoop (sb : Superblock) (parent : Bool) :
    List (List Byte) → Nat → Ic (Option (Nat × List Byte))
  | [], x =>
    if parent then do
      iput x
      return none
    else return some (x, [])
  | name :: rest, x => do
    ilock x
    let type ← itype x
    if type = T_DIR then
      if parent && rest.isEmpty then do
        iunlock x
        return some (x, name)
      else do
        let found ← dirlookup sb x name
        match found with
        | none => do
          iunlockput x
          return none
        | some (next, _) => do
          iunlockput x
          namexLoop sb parent rest next
    else do
      iunlockput x
      return none

/-- Where a path starts. -/
def startAt (cwd : Nat) (path : List Byte) : Ic Nat :=
  if path.head? = some slash then iget ROOTDEV ROOTINO else idup cwd

def namex (sb : Superblock) (cwd : Nat) (path : List Byte) (parent : Bool) :
    Ic (Option (Nat × List Byte)) := do
  let x ← startAt cwd path
  namexLoop sb parent (elements path.length path) x

def namei (sb : Superblock) (cwd : Nat) (path : List Byte) : Ic (Option Nat) := do
  let r ← namex sb cwd path false
  return r.map Prod.fst

def nameiparent (sb : Superblock) (cwd : Nat) (path : List Byte) :
    Ic (Option (Nat × List Byte)) := namex sb cwd path true

def dot : List Byte := [46]
def dotdot : List Byte := [46, 46]

/-- ip->nlink++ and ip->nlink--. -/
def Dinode.relink (ip : Dinode) (n : Int) : Dinode :=
  { ip with nlink := ip.nlink + BitVec.ofInt 16 n, links := ip.links + n }

/-- The entries of a new inode x: "." and ".." in a new directory, then its own in dp. -/
def linkNew (sb : Superblock) (dp x : Nat) (name : List Byte) (type : Nat) : Ic Bool := do
  let c ← get
  if type = T_DIR then do
    let ok ← dirlink sb x dot (c.itable x).inum
    if ok then do
      let ok ← dirlink sb x dotdot (c.itable dp).inum
      if ok then dirlink sb dp name (c.itable x).inum
      else return false
    else return false
  else dirlink sb dp name (c.itable x).inum

/-- The part of create after an inode has been allocated. -/
def fill (sb : Superblock) (dp x : Nat) (name : List Byte) (type : Nat)
    (major minor : BitVec 16) : Ic (Option Nat) := do
  ilock x
  assign x (fun ip => { ip with major := major, minor := minor, nlink := 1, links := 1 })
  let ok ← linkNew sb dp x name type
  if ok then do
    onlyIf (type = T_DIR) (assign dp (fun ip => ip.relink 1))
    iunlockput dp
    return some x
  else do
    assign x (fun ip => { ip with nlink := 0, links := 0 })
    iunlockput x
    iunlockput dp
    return none

/-- Returns a locked inode. -/
def create (sb : Superblock) (cwd : Nat) (path : List Byte) (type : Nat)
    (major minor : BitVec 16) : Ic (Option Nat) := do
  let r ← nameiparent sb cwd path
  match r with
  | none => return none
  | some (dp, name) => do
    ilock dp
    let found ← dirlookup sb dp name
    match found with
    | some (x, _) => do
      iunlockput dp
      ilock x
      let t ← itype x
      if type = T_FILE ∧ (t = T_FILE ∨ t = T_DEVICE) then return some x
      else do
        iunlockput x
        return none
    | none => do
      let c ← get
      let r ← ialloc sb (c.itable dp).dev type
      match r with
      | none => do
        iunlockput dp
        return none
      | some x => fill sb dp x name type major minor

/-- The end of a link() that failed. -/
def linkBad (x : Nat) : Ic Bool := do
  ilock x
  assign x (fun ip => ip.relink (-1))
  iunlockput x
  return false

def linkEntry (sb : Superblock) (dp x : Nat) (name : List Byte) : Ic Bool := do
  let c ← get
  if (c.itable dp).dev = (c.itable x).dev then dirlink sb dp name (c.itable x).inum
  else return false

/-- The part of link() after the count of x went up. -/
def linkTo (sb : Superblock) (cwd x : Nat) (new : List Byte) : Ic Bool := do
  let r ← nameiparent sb cwd new
  match r with
  | none => linkBad x
  | some (dp, name) => do
    ilock dp
    let ok ← linkEntry sb dp x name
    iunlockput dp
    if ok then do
      iput x
      return true
    else linkBad x

def link (sb : Superblock) (cwd : Nat) (old new : List Byte) : Ic Bool := do
  let r ← namei sb cwd old
  match r with
  | none => return false
  | some x => do
    ilock x
    let type ← itype x
    if type = T_DIR then do
      iunlockput x
      return false
    else do
      assign x (fun ip => ip.relink 1)
      iunlock x
      linkTo sb cwd x new

def isdirempty (sb : Superblock) (dp : Nat) : Ic Bool := do
  let (_, de) ← scanDir sb .isdirempty (fun e => e.inum != 0) dp (2 * direntSize)
  return de.isNone

/-- Is x a directory that still has entries? -/
def inUse (sb : Superblock) (x : Nat) : Ic Bool := do
  let type ← itype x
  if type = T_DIR then do
    let e ← isdirempty sb x
    return !e
  else return false

/-- The part of unlink() after both inodes are locked and the entry may go. -/
def remove (sb : Superblock) (dp x off : Nat) : Ic Bool := do
  let r ← writeDirent sb dp off ⟨0, []⟩
  if r = some direntSize then do
    let type ← itype x
    onlyIf (type = T_DIR) (assign dp (fun ip => ip.relink (-1)))
    iunlockput dp
    assign x (fun ip => ip.relink (-1))
    iunlockput x
    return true
  else throw .unlinkWrite

def unlink (sb : Superblock) (cwd : Nat) (path : List Byte) : Ic Bool := do
  let r ← nameiparent sb cwd path
  match r with
  | none => return false
  | some (dp, name) => do
    ilock dp
    if name = dot ∨ name = dotdot then do
      iunlockput dp
      return false
    else do
      let found ← dirlookup sb dp name
      match found with
      | none => do
        iunlockput dp
        return false
      | some (x, off) => do
        ilock x
        let c ← get
        if (c.itable x).copy.nlink.toInt < 1 then throw .nlink
        else do
          let full ← inUse sb x
          if full then do
            iunlockput x
            iunlockput dp
            return false
          else remove sb dp x off

end Xv6.Fs
