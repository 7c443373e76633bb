import Mathlib.Data.Finset.Insert
import Xv6.Lib.Dll
import Xv6.Log.Redo

namespace Xv6.Bio

open Function Lib

def NBUF : Nat := MAXOPBLOCKS * 3

/-- The only device that any caller of bread passes. -/
def ROOTDEV : Nat := 1

/-- The two buffers that commit has in hand: one of the log and one of a home location. -/
inductive Slot
  | log
  | home
  deriving DecidableEq, Repr

/-- One use of bread, by a system call or by commit. -/
inductive Handle
  | user (n : Nat)
  | commit (c : Slot)
  deriving DecidableEq, Repr

/-- How far a use of bread and brelse for block b has come: waiting for the sleep lock of buffer
i, holding it, or between releasesleep and the end of brelse. -/
inductive Hold
  | none
  | queued (i b : Nat)
  | held (i b : Nat)
  | unlocked (i b : Nat)
  deriving DecidableEq, Repr

structure Buf where
  valid : Bool
  dev : Nat
  blockno : Nat
  refcnt : Nat
  data : Log.Block
  lock : Option Handle

/-- The pointers of the buffers and, at index NBUF, of the list head. -/
structure Links where
  next : Nat → Nat
  prev : Nat → Nat

def head : Nat := NBUF

/-- Put b right after the head, store by store. -/
def Links.insert (c : Links) (b : Nat) : Links :=
  let c := { c with next := update c.next b (c.next head) }
  let c := { c with prev := update c.prev b head }
  let c := { c with prev := update c.prev (c.next head) b }
  { c with next := update c.next head b }

def Links.remove (c : Links) (b : Nat) : Links :=
  let c := { c with prev := update c.prev (c.next b) (c.prev b) }
  { c with next := update c.next (c.prev b) (c.next b) }

def binit : Links :=
  (List.range NBUF).foldl Links.insert ⟨fun _ => head, fun _ => head⟩

/-- The statements of commit that other processes can run in between. -/
inductive Micro
  | bget (c : Slot) (b : Nat)
  | take (c : Slot)
  | copyLog (lb db : Nat)
  | copyHome (lb db : Nat)
  | bunpin (b : Nat)
  | header (b : Nat)
  | unlock (c : Slot)
  | put (c : Slot)
  | clear
  deriving DecidableEq, Repr

/-- One turn of the loop of write_log. -/
def writeLogTurn (g : Log.Geometry) (p : Nat × Nat) : List Micro :=
  [.bget .log (g.start + p.2 + 1), .take .log, .bget .home p.1, .take .home,
    .copyLog (g.start + p.2 + 1) p.1, .unlock .home, .put .home, .unlock .log, .put .log]

/-- One turn of the loop of install_trans. -/
def installTurn (g : Log.Geometry) (p : Nat × Nat) : List Micro :=
  [.bget .log (g.start + p.2 + 1), .take .log, .bget .home p.1, .take .home,
    .copyHome (g.start + p.2 + 1) p.1, .bunpin p.1, .unlock .log, .put .log, .unlock .home,
    .put .home]

def writeHead (g : Log.Geometry) : List Micro :=
  [.bget .log g.start, .take .log, .header g.start, .unlock .log, .put .log]

def commit (g : Log.Geometry) (lh : List Nat) : List Micro :=
  if lh = [] then []
  else lh.zipIdx.flatMap (writeLogTurn g) ++ writeHead g ++ lh.zipIdx.flatMap (installTurn g) ++
    [.clear] ++ writeHead g

/-- The cache, the log header in memory and the disk. The users in writers have changed the data
of the buffer they hold and not yet called log_write or bwrite. The last fields record what
happened: the bytes last stored for each block, and when each buffer was last released by its
last user. -/
structure State where
  bufs : Nat → Buf
  links : Links
  disk : Nat → Log.Block
  hold : Handle → Hold
  writers : Finset Nat
  lh : List Nat
  todo : List Micro
  panicked : Bool
  stored : Nat → Log.Block
  released : Nat → Nat
  clock : Nat

def boot (disk : Nat → Log.Block) : State where
  bufs := fun _ => ⟨false, 0, 0, 0, fun _ => 0, none⟩
  links := binit
  disk := disk
  hold := fun _ => .none
  writers := ∅
  lh := []
  todo := []
  panicked := false
  stored := disk
  released := fun _ => 0
  clock := 1

/-- The part of bget under bcache.lock. -/
def bget (s : State) (h : Handle) (dev blockno : Nat) : State :=
  match walk s.links.next head
      (fun i => (s.bufs i).dev == dev && (s.bufs i).blockno == blockno) (NBUF + 1)
      (s.links.next head) with
  | some i => { s with
      bufs := update s.bufs i { s.bufs i with refcnt := (s.bufs i).refcnt + 1 }
      hold := update s.hold h (.queued i blockno) }
  | none =>
    match walk s.links.prev head (fun i => (s.bufs i).refcnt == 0) (NBUF + 1)
        (s.links.prev head) with
    | some i => { s with
        bufs := update s.bufs i
          { s.bufs i with dev := dev, blockno := blockno, valid := false, refcnt := 1 }
        hold := update s.hold h (.queued i blockno) }
    | none => { s with panicked := true }

/-- acquiresleep at the end of bget, and the rest of bread. -/
def take (s : State) (h : Handle) : Option State :=
  match s.hold h with
  | .queued i b =>
    if (s.bufs i).lock = none then some { s with
      bufs := update s.bufs i { s.bufs i with
        lock := some h
        data := if (s.bufs i).valid then (s.bufs i).data else s.disk (s.bufs i).blockno
        valid := true }
      hold := update s.hold h (.held i b) }
    else none
  | _ => none

/-- releasesleep in brelse. -/
def unlock (s : State) (h : Handle) : Option State :=
  match s.hold h with
  | .held i b => some { s with
      bufs := update s.bufs i { s.bufs i with lock := none }
      hold := update s.hold h (.unlocked i b) }
  | _ => none

/-- The part of brelse under bcache.lock. -/
def put (s : State) (h : Handle) : Option State :=
  match s.hold h with
  | .unlocked i _ =>
    let s := { s with
      bufs := update s.bufs i { s.bufs i with refcnt := (s.bufs i).refcnt - 1 }
      hold := update s.hold h .none }
    if (s.bufs i).refcnt = 0 then some { s with
      links := (s.links.remove i).insert i
      released := update s.released i s.clock
      clock := s.clock + 1 }
    else some s
  | _ => none

/-- Block b belongs to the log, or the commit in progress is copying it. -/
def State.Busy (g : Log.Geometry) (s : State) (b : Nat) : Prop :=
  (g.start ≤ b ∧ b < g.start + g.size) ∨ s.lh.contains b = true

instance (g : Log.Geometry) (s : State) (b : Nat) : Decidable (s.Busy g b) :=
  inferInstanceAs (Decidable (_ ∨ _))

/-- A user changes the bytes of a buffer. System calls do so inside a transaction, when no
commit runs; only the log itself writes its own blocks and the blocks it is committing. -/
def modify (g : Log.Geometry) (s : State) (n : Nat) (data : Log.Block) : Option State :=
  match s.hold (.user n) with
  | .held i b =>
    if s.todo ≠ [] ∧ s.Busy g b then none
    else some { s with
      bufs := update s.bufs i { s.bufs i with data := data }
      writers := insert n s.writers }
  | _ => none

/-- log_write, which runs inside a transaction and never on a block of the log. -/
def logWrite (g : Log.Geometry) (s : State) (n : Nat) : Option State :=
  match s.hold (.user n) with
  | .held i b =>
    if s.todo ≠ [] ∨ g.start ≤ b ∧ b < g.start + g.size then none
    else if LOGSIZE ≤ s.lh.length ∨ g.size ≤ s.lh.length + 1 then some { s with panicked := true }
    else
      let s := { s with
        writers := s.writers.erase n
        stored := update s.stored b (s.bufs i).data }
      if s.lh.contains b then some s
      else some { s with
        lh := s.lh ++ [b]
        bufs := update s.bufs i { s.bufs i with refcnt := (s.bufs i).refcnt + 1 } }
  | _ => none

def bwrite (s : State) (n : Nat) : Option State :=
  match s.hold (.user n) with
  | .held i b =>
    if n ∈ s.writers then some { s with
      writers := s.writers.erase n
      disk := update s.disk b (s.bufs i).data
      stored := update s.stored b (s.bufs i).data }
    else none
  | _ => none

/-- memmove from buffer j to buffer i, and bwrite of buffer i, which holds block b. -/
def copy (s : State) (i j b : Nat) : State :=
  { s with
    bufs := update s.bufs i { s.bufs i with data := (s.bufs j).data }
    disk := update s.disk b (s.bufs j).data }

/-- One statement of commit. -/
def micro (s : State) : Micro → Option State
  | .bget c b => if s.hold (.commit c) = .none then some (bget s (.commit c) ROOTDEV b) else none
  | .take c => take s (.commit c)
  | .copyLog _ _ =>
    match s.hold (.commit .log), s.hold (.commit .home) with
    | .held i b, .held j _ => some { copy s i j b with
        stored := update s.stored b (s.bufs j).data }
    | _, _ => none
  | .copyHome _ _ =>
    match s.hold (.commit .log), s.hold (.commit .home) with
    | .held j _, .held i b => some (copy s i j b)
    | _, _ => none
  | .bunpin _ =>
    match s.hold (.commit .home) with
    | .held i _ => some { s with
        bufs := update s.bufs i { s.bufs i with refcnt := (s.bufs i).refcnt - 1 } }
    | _ => none
  | .header _ =>
    match s.hold (.commit .log) with
    | .held i b =>
      let data := Log.fillHeader (s.lh.map (BitVec.ofNat 32)) (s.bufs i).data
      some { s with
        bufs := update s.bufs i { s.bufs i with data := data }
        disk := update s.disk b data
        stored := update s.stored b data }
    | _ => none
  | .unlock c => unlock s (.commit c)
  | .put c => put s (.commit c)
  | .clear => some { s with lh := [] }

inductive Act
  | bget (n b : Nat)
  | take (n : Nat)
  | modify (n : Nat) (data : Log.Block)
  | logWrite (n : Nat)
  | bwrite (n : Nat)
  | unlock (n : Nat)
  | put (n : Nat)
  | commit
  | micro

/-- One step of a user or of commit. A commit starts when no system call is in a transaction, so
nobody is between changing a buffer and log_write. -/
def step (g : Log.Geometry) (s : State) (a : Act) : Option State :=
  if s.panicked then none
  else
    match a with
    | .bget n b => if s.hold (.user n) = .none then some (bget s (.user n) ROOTDEV b) else none
    | .take n => take s (.user n)
    | .modify n data => modify g s n data
    | .logWrite n => logWrite g s n
    | .bwrite n => bwrite s n
    | .unlock n => if n ∈ s.writers then none else unlock s (.user n)
    | .put n => put s (.user n)
    | .commit =>
      if s.todo = [] ∧ s.writers = ∅ then some { s with todo := commit g s.lh } else none
    | .micro =>
      match s.todo with
      | [] => none
      | m :: ms => (micro s m).map (fun t => if t.panicked then t else { t with todo := ms })

end Xv6.Bio
