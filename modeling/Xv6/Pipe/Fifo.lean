import Mathlib.Data.BitVec
import Xv6.Lib.Window
import Xv6.Pipe.Model

namespace Xv6.Pipe
open Lib
open Loops (Pipe PIPESIZE Byte Word)

/-- The bytes l lie in the buffer, in the order in which they were stored. -/
structure Queue (s : Sys) (l : List Byte) : Prop where
  window : Window (2 ^ 32) PIPESIZE s.pipe.data s.pipe.nread.toNat s.pipe.nwrite.toNat l
  bytes : s.stored = s.removed ++ l

theorem queue_start (procs : Table) (data : Nat → Byte) : Queue (start procs data) [] :=
  ⟨window_nil (by decide) (by decide) data, rfl⟩

theorem Queue.count_eq (h : Queue s l) : (s.pipe.nwrite - s.pipe.nread).toNat = l.length := by
  rw [BitVec.toNat_sub]
  exact h.window.length_eq

theorem Queue.empty_iff (h : Queue s l) : s.pipe.nread = s.pipe.nwrite ↔ l = [] := by
  rw [← BitVec.toNat_inj]
  exact h.window.eq_iff

theorem Queue.full_iff (h : Queue s l) :
    s.pipe.nwrite = s.pipe.nread + BitVec.ofNat 32 PIPESIZE ↔ l.length = PIPESIZE := by
  rw [← BitVec.toNat_inj, BitVec.toNat_add]
  exact h.window.full_iff

/-- t has the buffer, the counters and the two histories of s. -/
structure SameBuffer (s t : Sys) : Prop where
  data : t.pipe.data = s.pipe.data
  nread : t.pipe.nread = s.pipe.nread
  nwrite : t.pipe.nwrite = s.pipe.nwrite
  stored : t.stored = s.stored
  removed : t.removed = s.removed

theorem Queue.congr (h : Queue s l) (hb : SameBuffer s t) : Queue t l := by
  constructor
  · rw [hb.data, hb.nread, hb.nwrite]
    exact h.window
  · rw [hb.stored, hb.removed]
    exact h.bytes

theorem Queue.room (h : Queue s l)
    (hroom : s.pipe.nwrite ≠ s.pipe.nread + BitVec.ofNat 32 PIPESIZE) : l.length < PIPESIZE :=
  Nat.lt_of_le_of_ne h.window.room (fun he => hroom (h.full_iff.mpr he))

theorem Queue.store (h : Queue s l)
    (hroom : s.pipe.nwrite ≠ s.pipe.nread + BitVec.ofNat 32 PIPESIZE) (ch : Byte) :
    Queue (s.store ch) (l ++ [ch]) := by
  have hl := h.room hroom
  constructor
  · have hw := (h.window.write hl ch).advance hl (Function.update_self ..)
    simpa [Sys.store, BitVec.toNat_add] using hw
  · simp [Sys.store, h.bytes]

theorem Queue.remove (h : Queue s l) (hsome : s.pipe.nread ≠ s.pipe.nwrite) :
    Queue s.remove l.tail := by
  cases l with
  | nil => exact absurd (h.empty_iff.mpr rfl) hsome
  | cons b l =>
    obtain ⟨hb, hw⟩ := h.window.pop
    constructor
    · simpa [Sys.remove, BitVec.toNat_add] using hw
    · simp [Sys.remove, h.bytes, hb]

/-- What one step does to the buffer. -/
inductive Buffered (s t : Sys) : Prop where
  | same (h : SameBuffer s t)
  | stored (ch : Byte) (hroom : s.pipe.nwrite ≠ s.pipe.nread + BitVec.ofNat 32 PIPESIZE)
      (h : SameBuffer (s.store ch) t)
  | removed (hsome : s.pipe.nread ≠ s.pipe.nwrite) (h : SameBuffer s.remove t)

theorem sameBuffer_closeEnd (s : Sys) (w : Bool) (q : Option Nat) :
    SameBuffer s (closeEnd { s with lock := q } w) := by
  cases w <;> exact ⟨rfl, rfl, rfl, rfl, rfl⟩

theorem sameBuffer_wakeSlot (s : Sys) (p : Nat) (c : Chan) (j : Nat) :
    SameBuffer s (s.wakeSlot p c j) := by
  unfold Sys.wakeSlot
  split <;> exact ⟨rfl, rfl, rfl, rfl, rfl⟩

theorem SameBuffer.goto (h : SameBuffer s t) (p : Nat) (c : Pc) : SameBuffer s (t.goto p c) :=
  ⟨h.data, h.nread, h.nwrite, h.stored, h.removed⟩

theorem Turn.buffered (h : Turn s p t) : Buffered s t := by
  cases h with
  | stored ch hpc hroom => exact .stored ch hroom ⟨rfl, rfl, rfl, rfl, rfl⟩
  | removed c hpc hsome hc => exact .removed hsome ⟨rfl, rfl, rfl, rfl, rfl⟩
  | closing hpc hfree => exact .same ((sameBuffer_closeEnd s _ _).goto _ _)
  | waking hpc hj hdoze => exact .same ((sameBuffer_wakeSlot s _ _ _).goto _ _)
  | _ => exact .same ⟨rfl, rfl, rfl, rfl, rfl⟩

theorem Moves.buffered (h : Moves s a t) : Buffered s t := by
  cases h with
  | turn hrun h => exact h.buffered
  | _ => exact .same ⟨rfl, rfl, rfl, rfl, rfl⟩

theorem Buffered.queue (hb : Buffered s t) (h : Queue s l) : ∃ l', Queue t l' := by
  cases hb with
  | same hs => exact ⟨l, h.congr hs⟩
  | stored ch hroom hs => exact ⟨_, (h.store hroom ch).congr hs⟩
  | removed hsome hs => exact ⟨_, (h.remove hsome).congr hs⟩

theorem queue_run {procs : Table} {data : Nat → Byte}
    (h : run step (start procs data) as = some s) : ∃ l, Queue s l := by
  apply run_invariant (I := fun s => ∃ l, Queue s l) ?_ ⟨[], queue_start procs data⟩ h
  intro s a t ⟨l, hl⟩ hst
  exact (step_moves hst).buffered.queue hl

/-- The slots between nread and nwrite keep their bytes in every step. -/
theorem Buffered.kept (hb : Buffered s t) (h : Queue s l) (hk : k < l.length) :
    t.pipe.data ((s.pipe.nread.toNat + k) % PIPESIZE) =
      s.pipe.data ((s.pipe.nread.toNat + k) % PIPESIZE) := by
  cases hb with
  | same hs => rw [hs.data]
  | removed hsome hs => rw [hs.data, Sys.remove]
  | stored ch hroom hs =>
    have hne : (s.pipe.nread.toNat + k) % PIPESIZE ≠ s.pipe.nwrite.toNat % PIPESIZE := by
      rw [h.window.slot]
      exact mod_ne_of_lt hk (h.room hroom)
    rw [hs.data]
    exact Function.update_of_ne hne ch s.pipe.data

/-- The bytes taken out so far are the first ones of those put in. The others lie between
nread and nwrite, which are at most PIPESIZE apart, and no step overwrites one of them. -/
structure Lossless (s : Sys) : Prop where
  order : s.removed <+: s.stored
  count : s.removed.length + (s.pipe.nwrite - s.pipe.nread).toNat = s.stored.length
  bound : (s.pipe.nwrite - s.pipe.nread).toNat ≤ PIPESIZE
  held : ∀ k b, s.stored[s.removed.length + k]? = some b →
    s.pipe.data ((s.pipe.nread.toNat + k) % PIPESIZE) = b
  kept : ∀ a t, step s a = some t → ∀ k < (s.pipe.nwrite - s.pipe.nread).toNat,
    t.pipe.data ((s.pipe.nread.toNat + k) % PIPESIZE) =
      s.pipe.data ((s.pipe.nread.toNat + k) % PIPESIZE)

theorem Queue.lossless (h : Queue s l) : Lossless s where
  order := by
    rw [h.bytes]
    exact List.prefix_append ..
  count := by rw [h.count_eq, h.bytes, List.length_append]
  bound := by
    rw [h.count_eq]
    exact h.window.room
  held := by
    intro k b hb
    rw [h.bytes, List.getElem?_append_right (Nat.le_add_right ..), Nat.add_sub_cancel_left] at hb
    exact h.window.cells k b hb
  kept := by
    intro a t hst k hk
    rw [h.count_eq] at hk
    exact (step_moves hst).buffered.kept h hk

/-- A pipe is a lossless queue of bytes. -/
theorem pipe_fifo {procs : Table} {data : Nat → Byte}
    (h : run step (start procs data) as = some s) : Lossless s := by
  obtain ⟨l, hl⟩ := queue_run h
  exact hl.lossless

/-- Two bytes are written to a new pipe and one is read. -/
def exchange : List Act :=
  [.write 1 2, .go 1 none, .go 1 none, .go 1 none, .go 1 (some 7), .go 1 none, .go 1 none,
    .go 1 (some 8)] ++ List.replicate 67 (.go 1 none) ++
  [.read 2 5, .go 2 none, .go 2 none, .go 2 (some 0)]

theorem pipe_fifo_exchange :
    ∃ s, run step (start (fun _ => { state := .running }) (fun _ => 5)) exchange = some s ∧
      s.stored = [7, 8] ∧ s.removed = [7] ∧ Lossless s := by
  obtain ⟨s, hs, h1, h2⟩ : ∃ s, run step (start (fun _ => { state := .running }) (fun _ => 5))
      exchange = some s ∧ s.stored = [7, 8] ∧ s.removed = [7] := by decide +kernel
  exact ⟨s, hs, h1, h2, pipe_fifo hs⟩

end Xv6.Pipe
