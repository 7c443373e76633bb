import Mathlib.Data.BitVec
import Xv6.Lib.Blocks
import Xv6.Param

namespace Xv6.Log
open Lib

abbrev Word := BitVec 32

instance : NeZero (BSIZE / 4) := ⟨by decide⟩

/-- One disk block, seen as the ints that a struct laid over its bytes shows. -/
abbrev Block := Fin (BSIZE / 4) → Word

abbrev Disk := Nat → Block

/-- log.start and log.size, as initlog takes them from the superblock. -/
structure Geometry where
  start : Nat
  size : Nat
  header : 0 < size

def Geometry.Area (g : Geometry) (b : Nat) : Prop := g.start ≤ b ∧ b < g.start + g.size

/-- The memory of a running kernel as the log sees it: what bread returns for each
block, the block numbers in log.lh, and the block writes issued so far. -/
structure Mem where
  cached : Disk
  lh : List Word
  issued : List (Nat × Block)

def Mem.bread (m : Mem) (b : Nat) : Block := m.cached b

def Mem.bwrite (m : Mem) (b : Nat) (data : Block) : Mem :=
  { m with
    cached := Function.update m.cached b data
    issued := m.issued ++ [(b, data)] }

/-- The field n of a struct logheader at the start of a block. -/
def headerN (hb : Block) : Nat := (hb 0).toInt.toNat

def headerBlock (hb : Block) (i : Nat) : Word :=
  if h : i + 1 < BSIZE / 4 then hb ⟨i + 1, h⟩ else 0

def headerList (hb : Block) : List Word := (List.range (headerN hb)).map (headerBlock hb)

/-- The buffer of the header block once n and the first n entries are stored in it. -/
def fillHeader (lh : List Word) (hb : Block) : Block := fun w =>
  if w.val = 0 then BitVec.ofNat 32 lh.length else lh.getD (w.val - 1) (hb w)

def readHead (g : Geometry) (m : Mem) : Mem :=
  { m with lh := headerList (m.bread g.start) }

def writeHead (g : Geometry) (m : Mem) : Mem :=
  m.bwrite g.start (fillHeader m.lh (m.bread g.start))

def installTrans (g : Geometry) (m : Mem) : Mem :=
  m.lh.zipIdx.foldl (fun m (b, tail) => m.bwrite b.toNat (m.bread (g.start + tail + 1))) m

def writeLog (g : Geometry) (m : Mem) : Mem :=
  m.lh.zipIdx.foldl (fun m (b, tail) => m.bwrite (g.start + tail + 1) (m.bread b.toNat)) m

def recoverFromLog (g : Geometry) (m : Mem) : Mem :=
  let m := readHead g m
  let m := installTrans g m
  writeHead g { m with lh := [] }

def commit (g : Geometry) (m : Mem) : Mem :=
  if m.lh.length > 0 then
    let m := writeLog g m
    let m := writeHead g m
    let m := installTrans g m
    writeHead g { m with lh := [] }
  else m

/-- The scan and the store of log_write: an entry already there is absorbed. -/
def absorb : List Word → Word → List Word
  | [], b => [b]
  | c :: cs, b => if c = b then b :: cs else c :: absorb cs b

/-- A caller changes the buffer of block b and passes it to log_write. -/
def Mem.update (m : Mem) (b : Word) (data : Block) : Mem :=
  { m with
    cached := Function.update m.cached b.toNat data
    lh := absorb m.lh b }

/-- What one group commit writes: distinct home blocks with their new contents, no
more of them than either of the two bounds log_write panics on. -/
structure Group (g : Geometry) where
  writes : List (Word × Block)
  nodup : (writes.map Prod.fst).Nodup
  home : ∀ w ∈ writes, ¬ g.Area w.1.toNat
  room : writes.length ≤ g.size - 1
  fits : writes.length ≤ LOGSIZE

def Mem.updateAll (m : Mem) (ws : List (Word × Block)) : Mem :=
  ws.foldl (fun m w => m.update w.1 w.2) m

/-- A powered machine between two commits. -/
structure Node where
  disk : Disk
  mem : Mem

def Node.commitWrites (g : Geometry) (n : Node) (G : Group g) : List (Nat × Block) :=
  (commit g (n.mem.updateAll G.writes)).issued

def Node.commit (g : Geometry) (n : Node) (G : Group g) : Node where
  disk := applyWrites (n.commitWrites g G) n.disk
  mem := { Log.commit g (n.mem.updateAll G.writes) with issued := [] }

/-- The disk when the power fails after the first k block writes of a commit. -/
def Node.crash (g : Geometry) (n : Node) (G : Group g) (k : Nat) : Disk :=
  applyWrites ((n.commitWrites g G).take k) n.disk

/-- An empty buffer cache: every bread goes to the disk. -/
def boot (d : Disk) : Mem := ⟨d, [], []⟩

def recoverWrites (g : Geometry) (d : Disk) : List (Nat × Block) :=
  (recoverFromLog g (boot d)).issued

/-- The disk when the power fails again after the first k writes of a recovery. -/
def retry (g : Geometry) (d : Disk) (k : Nat) : Disk :=
  applyWrites ((recoverWrites g d).take k) d

def restart (g : Geometry) (d : Disk) : Node where
  disk := applyWrites (recoverWrites g d) d
  mem := { recoverFromLog g (boot d) with issued := [] }

/-- From one completed recovery to the next: the commits that ran to their end, the
one cut after some of its writes, and the recoveries that were cut in turn. -/
structure Session (g : Geometry) where
  done : List (Group g)
  torn : Group g
  cut : Nat
  retries : List Nat

def Session.before (n : Node) (s : Session g) : Node := s.done.foldl (Node.commit g) n

def Session.run (n : Node) (s : Session g) : Node :=
  restart g (s.retries.foldl (retry g) ((s.before n).crash g s.torn s.cut))

/-- Some write of the header block was among those of the torn commit that reached the
disk. The first such write is the commit's first write_head. -/
def Session.headReached (n : Node) (s : Session g) : Bool :=
  (((s.before n).commitWrites g s.torn).take s.cut).any (fun w => w.1 == g.start)

def Session.committed (n : Node) (s : Session g) : List (Group g) :=
  if s.headReached n then s.done ++ [s.torn] else s.done

/-- The machine after a list of sessions, with the groups whose first write_head
reached the disk, oldest first. -/
def play (n : Node) : List (Session g) → Node × List (Group g)
  | [] => (n, [])
  | s :: ss =>
    let (m, cs) := play (s.run n) ss
    (m, s.committed n ++ cs)

/-- The writes of a group, aimed at their home locations. -/
def Group.homeWrites (G : Group g) : List (Nat × Block) :=
  G.writes.map (fun w => (w.1.toNat, w.2))

/-- A disk whose log is empty, as mkfs leaves it. -/
structure Formatted (g : Geometry) where
  disk : Disk
  empty : disk g.start 0 = 0

end Xv6.Log
