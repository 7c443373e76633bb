import Xv6.Lib.Circuit
import Xv6.Lib.Run

namespace Xv6.User

open Lib

/-- What malloc() and free() work with: the fields of the header at each address, freep, and the
break of the process. A header has 16 bytes. -/
structure Heap where
  ptr : Nat → Nat
  size : Nat → Nat
  freep : Option Nat
  brk : Nat

def Heap.setPtr (h : Heap) (p q : Nat) : Heap := { h with ptr := Function.update h.ptr p q }

def Heap.setSize (h : Heap) (p n : Nat) : Heap := { h with size := Function.update h.size p n }

/-- An unsigned value where an int is expected. -/
def asInt (n : Nat) : Int := (BitVec.ofNat 32 n).toInt

/-- sbrk(n), when the kernel grants it: it returns the old break. A break that would fall below
zero stays as it is. -/
def sbrk (h : Heap) (granted : Bool) (n : Int) : Heap × Option Nat :=
  if granted then
    ({ h with brk := if 0 ≤ h.brk + n then (h.brk + n).toNat else h.brk }, some h.brk)
  else (h, none)

/-- Where the loop of free() stops. -/
def freeStop (h : Heap) (bp p : Nat) : Bool :=
  (decide (bp > p) && decide (bp < h.ptr p)) ||
    (decide (p ≥ h.ptr p) && (decide (bp > p) || decide (bp < h.ptr p)))

/-- Sizes are added as a uint. -/
def addSize (m n : Nat) : Nat := (m + n) % 4294967296

/-- bp takes in the block n if it ends there, and points to it otherwise. -/
def linkUpper (h : Heap) (bp n : Nat) : Heap :=
  if bp + 16 * h.size bp = n then
    (h.setSize bp (addSize (h.size bp) (h.size n))).setPtr bp (h.ptr n)
  else h.setPtr bp n

/-- p takes in the block bp if it ends there, and points to it otherwise. -/
def linkLower (h : Heap) (p bp : Nat) : Heap :=
  if p + 16 * h.size p = bp then
    (h.setSize p (addSize (h.size p) (h.size bp))).setPtr p (h.ptr bp)
  else h.setPtr p bp

/-- The part of free() behind its loop. -/
def link (h : Heap) (p bp : Nat) : Heap :=
  { linkLower (linkUpper h bp (h.ptr p)) p bp with freep := some p }

/-- None means that the loop is still running. -/
def free (fuel : Nat) (h : Heap) (ap : Nat) : Option Heap := do
  let bp := ap - 16
  let p ← h.freep
  let p ← seek (freeStop h bp) h.ptr fuel p
  return link h p bp

def morecore (fuel : Nat) (h : Heap) (granted : Bool) (nu : Nat) : Option (Heap × Option Nat) :=
  let nu := if nu < 4096 then 4096 else nu
  match sbrk h granted (asInt (nu * 16)) with
  | (h, none) => some (h, none)
  | (h, some hp) => do
    let h ← free fuel (h.setSize hp nu) (hp + 16)
    return (h, h.freep)

/-- The units for nbytes bytes and a header. -/
def unitsFor (nbytes : Nat) : Nat := (nbytes + 16 - 1) / 16 + 1

/-- The block p of the list, behind prevp, or its upper end. -/
def take (h : Heap) (prevp p nunits : Nat) : Heap × Option Nat :=
  if h.size p = nunits then
    ({ h.setPtr prevp (h.ptr p) with freep := some prevp }, some (p + 16))
  else
    let h := h.setSize p (h.size p - nunits)
    let p := p + 16 * h.size p
    ({ h.setSize p nunits with freep := some prevp }, some (p + 16))

/-- The loop of malloc(); luck has the answers of the kernel to sbrk(). -/
def mallocLoop (nunits : Nat) : Nat → Heap → List Bool → Nat → Nat → Option (Heap × Option Nat)
  | 0, _, _, _, _ => none
  | fuel + 1, h, luck, prevp, p =>
    if nunits ≤ h.size p then some (take h prevp p nunits)
    else if some p = h.freep then
      match morecore fuel h (luck.headD false) nunits with
      | none => none
      | some (h, none) => some (h, none)
      | some (h, some p) => mallocLoop nunits fuel h luck.tail p (h.ptr p)
    else mallocLoop nunits fuel h luck p (h.ptr p)

/-- The empty list at the first call. -/
def prepare (base : Nat) (h : Heap) : Heap :=
  match h.freep with
  | none => { (h.setPtr base base).setSize base 0 with freep := some base }
  | some _ => h

def malloc (base fuel : Nat) (h : Heap) (nbytes : Nat) (luck : List Bool) :
    Option (Heap × Option Nat) := do
  let h := prepare base h
  let prevp ← h.freep
  mallocLoop (unitsFor nbytes) fuel h luck prevp (h.ptr prevp)

/-- A program and its blocks: the pointers it got and has not freed, with their sizes. -/
structure Client where
  heap : Heap
  live : List (Nat × Nat)

/-- What a program does: it allocates, frees a block, or writes into the blocks it has. -/
inductive Op where
  | malloc (nbytes : Nat) (luck : List Bool)
  | free (ap : Nat)
  | write (ptr size : Nat → Nat)

/-- The header at a has a byte of a block. -/
def touches (live : List (Nat × Nat)) (a : Nat) : Bool :=
  live.any (fun q => decide (q.1 < a + 16) && decide (a < q.1 + q.2))

/-- Enough for a walk through every header below the break, twice. -/
def Heap.fuel (h : Heap) : Nat := 2 * h.brk + 8

/-- A step of a program. Without result it frees what is not its own, or a loop does not end. -/
def step (base : Nat) (s : Client) : Op → Option Client
  | .malloc nbytes luck =>
    match User.malloc base s.heap.fuel s.heap nbytes luck with
    | none => none
    | some (h, none) => some { s with heap := h }
    | some (h, some ap) => some ⟨h, (ap, nbytes) :: s.live⟩
  | .free ap =>
    if s.live.any (fun q => q.1 == ap) then do
      let h ← User.free s.heap.fuel s.heap ap
      return ⟨h, s.live.eraseP (fun q => q.1 == ap)⟩
    else none
  | .write ptr size =>
    some { s with heap := { s.heap with
      ptr := fun a => if touches s.live a then ptr a else s.heap.ptr a
      size := fun a => if touches s.live a then size a else s.heap.size a } }

/-- A program that has not called malloc() yet, with any memory. -/
def start (ptr size : Nat → Nat) (brk : Nat) : Client := ⟨⟨ptr, size, none, brk⟩, []⟩

/-- Two ranges of bytes have none in common. -/
def Apart (a m b n : Nat) : Prop := a + m ≤ b ∨ b + n ≤ a

/-- The list that freep leads through has a header at x. -/
def Heap.Listed (h : Heap) (x : Nat) : Prop := ∃ f k, h.freep = some f ∧ h.ptr^[k] f = x

/-- The blocks of a program lie in the memory from first on that sbrk() has granted. With their
headers, they have no byte in common with each other, with the blocks of the free list and their
headers, and with base. -/
structure Real (base first : Nat) (s : Client) : Prop where
  granted : ∀ q ∈ s.live, first + 16 ≤ q.1 ∧ q.1 + q.2 ≤ s.heap.brk
  exclusive : s.live.Pairwise (fun q r => Apart (q.1 - 16) (16 + q.2) (r.1 - 16) (16 + r.2))
  unlisted : ∀ q ∈ s.live, ∀ x, s.heap.Listed x →
    Apart (q.1 - 16) (16 + q.2) x (16 * max 1 (s.heap.size x))
  base : ∀ q ∈ s.live, Apart (q.1 - 16) (16 + q.2) base 16

end Xv6.User
