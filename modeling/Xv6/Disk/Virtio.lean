import Mathlib.Logic.Function.Basic
import Xv6.Param

namespace Xv6.Virtio

open Function

def NUM : Nat := 8
def VRING_DESC_F_NEXT : Nat := 1
def VRING_DESC_F_WRITE : Nat := 2

/-- The ring counters are 16 bits wide. -/
def IDX : Nat := 65536

inductive BlkType
  | blkIn
  | blkOut
  deriving DecidableEq, Repr

/-- The addresses the driver gives to the device. -/
inductive Ptr
  | null
  | op (i : Nat)
  | data (b : Nat)
  | status (i : Nat)
  deriving DecidableEq, Repr

structure VirtqDesc where
  addr : Ptr
  len : Nat
  flags : Nat
  next : Nat
  deriving DecidableEq, Repr

structure VirtioBlkReq where
  type : BlkType
  reserved : Nat
  sector : Nat
  deriving DecidableEq, Repr

/-- What the driver remembers of an operation, by the first descriptor of its chain. -/
structure Info where
  b : Option Nat
  status : Nat
  deriving DecidableEq, Repr

/-- A queue the driver or the device appends to. -/
structure Virtq where
  ring : Nat → Nat
  idx : Nat

structure Disk where
  free : Nat → Bool
  desc : Nat → VirtqDesc
  ops : Nat → VirtioBlkReq
  info : Nat → Info
  avail : Virtq
  used : Virtq
  usedIdx : Nat

inductive Panic
  | freeDesc1
  | freeDesc2
  | intrStatus
  | nullBuf
  deriving DecidableEq, Repr

/-- The three descriptors of a request. -/
structure Chain where
  head : Nat
  data : Nat
  status : Nat
  deriving DecidableEq, Repr

/-- The arguments of virtio_disk_rw, with the block number it reads from the buffer. -/
structure Request where
  b : Nat
  blockno : Nat
  write : Bool
  deriving DecidableEq, Repr

def noDesc : VirtqDesc := ⟨.null, 0, 0, 0⟩

def virtioDiskInit : Disk where
  free := fun i => decide (i < NUM)
  desc := fun _ => noDesc
  ops := fun _ => ⟨.blkIn, 0, 0⟩
  info := fun _ => ⟨none, 0⟩
  avail := ⟨fun _ => 0, 0⟩
  used := ⟨fun _ => 0, 0⟩
  usedIdx := 0

def allocDesc (d : Disk) : Option (Nat × Disk) :=
  match (List.range NUM).find? (fun i => d.free i) with
  | none => none
  | some i => some (i, { d with free := update d.free i false })

def freeDesc (d : Disk) (i : Nat) : Except Panic Disk :=
  if NUM ≤ i then .error .freeDesc1
  else if d.free i then .error .freeDesc2
  else .ok { d with
    desc := update d.desc i noDesc
    free := update d.free i true }

/-- The loop of free_chain. It frees a new descriptor each time, so it is over after NUM of them. -/
def freeChainFrom : Nat → Disk → Nat → Except Panic Disk
  | 0, _, _ => .error .freeDesc2
  | fuel + 1, d, i =>
    let flag := (d.desc i).flags
    let nxt := (d.desc i).next
    match freeDesc d i with
    | .error e => .error e
    | .ok d => if flag &&& VRING_DESC_F_NEXT ≠ 0 then freeChainFrom fuel d nxt else .ok d

def freeChain (d : Disk) (i : Nat) : Except Panic Disk :=
  freeChainFrom (NUM + 1) d i

def alloc3Desc (d : Disk) : Except Panic (Option Chain × Disk) :=
  match allocDesc d with
  | none => .ok (none, d)
  | some (i, d) =>
    match allocDesc d with
    | none => do
      let d ← freeDesc d i
      return (none, d)
    | some (j, d) =>
      match allocDesc d with
      | none => do
        let d ← freeDesc d i
        let d ← freeDesc d j
        return (none, d)
      | some (k, d) => .ok (some ⟨i, j, k⟩, d)

/-- virtio_disk_rw fills in the descriptors of a chain for the device. -/
def formatDesc (desc : Nat → VirtqDesc) (c : Chain) (r : Request) : Nat → VirtqDesc :=
  let desc := update desc c.head ⟨.op c.head, 16, VRING_DESC_F_NEXT, c.data⟩
  let desc := update desc c.data
    ⟨.data r.b, BSIZE, (if r.write then 0 else VRING_DESC_F_WRITE) ||| VRING_DESC_F_NEXT, c.status⟩
  update desc c.status ⟨.status c.head, 1, VRING_DESC_F_WRITE, 0⟩

/-- virtio_disk_rw up to the store of the head into the avail ring. -/
def format (d : Disk) (c : Chain) (r : Request) : Disk :=
  { d with
    ops := update d.ops c.head
      ⟨if r.write then .blkOut else .blkIn, 0, r.blockno * (BSIZE / 512) % 4294967296⟩
    desc := formatDesc d.desc c r
    info := update d.info c.head ⟨some r.b, 255⟩
    avail := { d.avail with ring := update d.avail.ring (d.avail.idx % NUM) c.head } }

/-- Where a process is in virtio_disk_rw. -/
inductive Pc
  | idle
  | alloc (r : Request)
  | ready (r : Request) (c : Chain)
  | wait (r : Request) (c : Chain)
  deriving DecidableEq, Repr

inductive Holder
  | proc (p : Nat)
  | intr
  deriving DecidableEq, Repr

/-- The device: how far it has read the avail ring, what it works on, and a head already
written to the used ring whose index it has not raised yet. -/
structure Device where
  seen : Nat
  taken : List Nat
  posting : Option Nat

/-- Driver, device and processes. A buffer's disk flag is b->disk, its lock is the sleep lock
that callers of virtio_disk_rw hold, and served counts the completions it has had since its
last request was made. -/
structure State where
  disk : Disk
  device : Device
  flag : Nat → Bool
  locked : Nat → Bool
  served : Nat → Nat
  pc : Nat → Pc
  lock : Option Holder
  panicked : Option Panic

def boot : State where
  disk := virtioDiskInit
  device := ⟨0, [], none⟩
  flag := fun _ => false
  locked := fun _ => false
  served := fun _ => 0
  pc := fun _ => .idle
  lock := none
  panicked := none

inductive Act
  | call (p : Nat) (r : Request)
  | alloc (p : Nat)
  | publish (p : Nat)
  | check (p : Nat)
  | intrEnter
  | intrStep
  | devTake
  | devFinish (k : Nat)
  | devPost
  deriving DecidableEq, Repr

/-- A caller holds the buffer's sleep lock. -/
def call (s : State) (p : Nat) (r : Request) : Option State :=
  match s.pc p with
  | .idle =>
    if s.locked r.b then none
    else some { s with
      pc := update s.pc p (.alloc r)
      locked := update s.locked r.b true }
  | _ => none

/-- One turn of the allocation loop. Without three descriptors the process sleeps, and the
lock is free again. -/
def alloc (s : State) (p : Nat) : Option State :=
  match s.pc p, s.lock with
  | .alloc r, none =>
    match alloc3Desc s.disk with
    | .error e => some { s with panicked := some e }
    | .ok (none, d) => some { s with disk := d }
    | .ok (some c, d) => some { s with
        disk := format d c r
        flag := update s.flag r.b true
        served := update s.served r.b 0
        pc := update s.pc p (.ready r c)
        lock := some (.proc p) }
  | _, _ => none

def publish (s : State) (p : Nat) : Option State :=
  match s.pc p with
  | .ready r c => some { s with
      disk := { s.disk with avail := { s.disk.avail with idx := (s.disk.avail.idx + 1) % IDX } }
      pc := update s.pc p (.wait r c) }
  | _ => none

/-- The end of virtio_disk_rw, once the disk is done with the buffer. -/
def finish (s : State) (p : Nat) (r : Request) (c : Chain) : State :=
  let d := { s.disk with
    info := update s.disk.info c.head { s.disk.info c.head with b := none } }
  match freeChain d c.head with
  | .error e => { s with panicked := some e }
  | .ok d => { s with
      disk := d
      pc := update s.pc p .idle
      locked := update s.locked r.b false
      lock := none }

/-- One test of b->disk, right after the notification or after a wakeup. The process sleeps
again, or it frees its chain and returns. -/
def check (s : State) (p : Nat) : Option State :=
  match s.pc p with
  | .wait r c =>
    if s.lock = none ∨ s.lock = some (.proc p) then
      if s.flag r.b then some { s with lock := none }
      else some (finish s p r c)
    else none
  | _ => none

def intrEnter (s : State) : Option State :=
  if s.lock = none then some { s with lock := some .intr } else none

/-- One turn of the loop of virtio_disk_intr, or its end. -/
def intrStep (s : State) : Option State :=
  if s.lock = some .intr then
    if s.disk.usedIdx ≠ s.disk.used.idx then
      let id := s.disk.used.ring (s.disk.usedIdx % NUM)
      if (s.disk.info id).status ≠ 0 then some { s with panicked := some .intrStatus }
      else
        match (s.disk.info id).b with
        | none => some { s with panicked := some .nullBuf }
        | some b => some { s with
            flag := update s.flag b false
            served := update s.served b (s.served b + 1)
            disk := { s.disk with usedIdx := (s.disk.usedIdx + 1) % IDX } }
    else some { s with lock := none }
  else none

/-- The device fetches the next published head. -/
def devTake (s : State) : Option State :=
  if s.device.seen ≠ s.disk.avail.idx then
    some { s with device := { s.device with
      seen := (s.device.seen + 1) % IDX
      taken := s.device.taken ++ [s.disk.avail.ring (s.device.seen % NUM)] } }
  else none

/-- The device stores a zero where a descriptor says the status goes. -/
def putStatus (info : Nat → Info) : Ptr → Nat → Info
  | .status i => update info i { info i with status := 0 }
  | _ => info

/-- The device walks the chain of the k-th head it has fetched to the status descriptor,
and writes the head to the used ring. -/
def devFinish (s : State) (k : Nat) : Option State :=
  match s.device.posting, s.device.taken[k]? with
  | none, some head =>
    let data := (s.disk.desc head).next
    let status := (s.disk.desc data).next
    some { s with
      disk := { s.disk with
        info := putStatus s.disk.info (s.disk.desc status).addr
        used := { s.disk.used with
          ring := update s.disk.used.ring (s.disk.used.idx % NUM) head } }
      device := { s.device with taken := s.device.taken.eraseIdx k, posting := some head } }
  | _, _ => none

def devPost (s : State) : Option State :=
  match s.device.posting with
  | some _ => some { s with
      disk := { s.disk with used := { s.disk.used with idx := (s.disk.used.idx + 1) % IDX } }
      device := { s.device with posting := none } }
  | none => none

def step (s : State) (a : Act) : Option State :=
  if s.panicked = none then
    match a with
    | .call p r => call s p r
    | .alloc p => alloc s p
    | .publish p => publish s p
    | .check p => check s p
    | .intrEnter => intrEnter s
    | .intrStep => intrStep s
    | .devTake => devTake s
    | .devFinish k => devFinish s k
    | .devPost => devPost s
  else none

end Xv6.Virtio
