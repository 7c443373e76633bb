import Xv6.Proc.Killed

namespace Xv6.Loops
open Function Lib

/-- The number of bytes in the pipe. -/
def Pipe.held (q : Pipe) : Nat := (q.nwrite - q.nread).toNat

/-- The byte that is x places behind the next one to be read. -/
def Pipe.byteAt (q : Pipe) (x : Nat) : Byte :=
  q.data ((q.nread + BitVec.ofNat 32 x).toNat % PIPESIZE)

def Pipe.drop (q : Pipe) (x : Nat) : Pipe := { q with nread := q.nread + BitVec.ofNat 32 x }

/-- User memory with the first i bytes of the pipe at addr. -/
def delivered (m : UserMem) (q : Pipe) (addr i a : Nat) : Byte :=
  if addr ≤ a ∧ a < addr + i then q.byteAt (a - addr) else m.byte a

/-- A piperead() that returns i has removed i bytes from the pipe, and it has stored these bytes
at addr. -/
structure Accounts (w w' : World) (pi addr i : Nat) : Prop where
  held : i ≤ (w.pipe pi).held
  removed : w'.pipe pi = (w.pipe pi).drop i
  stored : w'.mem.byte = delivered w.mem (w.pipe pi) addr i

/-- The user can write every byte that piperead() comes to. -/
def Takes (w : World) (pi addr : Nat) (n : Int) : Prop :=
  ∀ x < min n.toNat (w.pipe pi).held, w.mem.writable (addr + x) = true

instance (w : World) (pi addr : Nat) (n : Int) : Decidable (Takes w pi addr n) :=
  inferInstanceAs (Decidable (∀ x < _, _))

theorem Pipe.held_eq_zero (q : Pipe) : q.held = 0 ↔ q.nread = q.nwrite := by
  rw [held, ← BitVec.toNat_zero, BitVec.toNat_inj, BitVec.sub_eq_iff_eq_add, BitVec.zero_add]
  exact eq_comm

theorem Pipe.held_drop (q : Pipe) (h : q.nread ≠ q.nwrite) : (q.drop 1).held = q.held - 1 := by
  have hpos : q.held ≠ 0 := fun h0 => h (q.held_eq_zero.mp h0)
  simp only [held, drop, BitVec.toNat_sub, BitVec.toNat_add, BitVec.toNat_ofNat] at hpos ⊢
  omega

theorem Pipe.drop_drop (q : Pipe) (x y : Nat) : (q.drop x).drop y = q.drop (x + y) := by
  simp only [drop, BitVec.ofNat_add, BitVec.add_assoc]

theorem Pipe.byteAt_drop (q : Pipe) (x y : Nat) : (q.drop x).byteAt y = q.byteAt (x + y) := by
  simp only [byteAt, drop, BitVec.ofNat_add, BitVec.add_assoc]

/-- What the copy loop has done: it has delivered d bytes, and lost is 1 when it has removed one
more that could not be delivered. -/
structure Copied (w w' : World) (pi addr k d lost : Nat) : Prop where
  removed : w'.pipe pi = (w.pipe pi).drop (d + lost)
  stored : w'.mem.byte = delivered w.mem (w.pipe pi) addr d
  held : d + lost ≤ min k (w.pipe pi).held
  taken : ∀ x < d, w.mem.writable (addr + x) = true
  full : lost = 0 → d = min k (w.pipe pi).held
  stuck : lost ≠ 0 → lost = 1 ∧ w.mem.writable (addr + d) = false

theorem delivered_zero (m : UserMem) (q : Pipe) (addr : Nat) : delivered m q addr 0 = m.byte := by
  funext a
  exact if_neg (by omega)

theorem Copied.nothing (w : World) (pi addr : Nat) (h : min k (w.pipe pi).held = 0) :
    Copied w w pi addr k 0 0 := by
  refine ⟨?_, (delivered_zero ..).symm, Nat.zero_le _, fun x hx => absurd hx (Nat.not_lt_zero x),
    fun _ => h.symm, fun h0 => absurd rfl h0⟩
  simp [Pipe.drop]

theorem Copied.cons {w : World} {q : Pipe} (hq : w.pipe pi = q) (hne : q.nread ≠ q.nwrite)
    (hc : w.mem.copyout addr (q.byteAt 0) = some m)
    (h : Copied { w with pipe := update w.pipe pi (q.drop 1), mem := m } w' pi (addr + 1)
      k d lost) : Copied w w' pi addr (k + 1) (d + 1) lost := by
  obtain ⟨hw, hm⟩ := Option.ite_none_right_eq_some.mp hc
  have hm := Option.some.inj hm
  have hpos : q.held ≠ 0 := fun h0 => hne (q.held_eq_zero.mp h0)
  obtain ⟨h1, h2, h3, h4, h5, h6⟩ := h
  simp only [update_self] at h1 h2 h3 h4 h5 h6
  rw [q.held_drop hne] at h3 h5
  subst hm hq
  refine ⟨?_, ?_, by omega, fun x hx => ?_, fun h0 => ?_, fun h0 => ?_⟩
  · rw [h1, Pipe.drop_drop]
    congr 1
    omega
  · rw [h2]
    funext a
    simp only [delivered, Pipe.byteAt_drop]
    rcases Nat.lt_trichotomy a addr with hlt | rfl | hgt
    · rw [if_neg (by omega), if_neg (by omega), update_of_ne (by omega)]
    · rw [if_neg (by omega), if_pos (by omega), update_self, Nat.sub_self]
    · rw [update_of_ne (by omega)]
      by_cases hin : a < addr + 1 + d
      · rw [if_pos (by omega), if_pos (by omega), show 1 + (a - (addr + 1)) = a - addr by omega]
      · rw [if_neg (by omega), if_neg (by omega)]
  · cases x with
    | zero => exact hw
    | succ x =>
      have := h4 x (by omega)
      rwa [Nat.add_assoc, Nat.add_comm 1 x] at this
  · have := h5 h0
    omega
  · obtain ⟨hone, hno⟩ := h6 h0
    rw [Nat.add_assoc, Nat.add_comm 1 d] at hno
    exact ⟨hone, hno⟩

theorem readBytes_copied (addr pi k i : Nat) (w : World) : ∃ d lost,
    (readBytes addr pi k i w).2 = i + d ∧
    Copied w (readBytes addr pi k i w).1 pi (addr + i) k d lost := by
  induction k generalizing i w with
  | zero => exact ⟨0, 0, rfl, .nothing w pi _ (Nat.zero_min _)⟩
  | succ k ih =>
    have hnext : (w.pipe pi).data ((w.pipe pi).nread.toNat % PIPESIZE) = (w.pipe pi).byteAt 0 := by
      simp [Pipe.byteAt]
    rw [readBytes]
    simp only
    split
    · rename_i he
      refine ⟨0, 0, rfl, .nothing w pi _ ?_⟩
      rw [(Pipe.held_eq_zero _).mpr he, Nat.min_zero]
    rename_i hne
    rw [hnext]
    have hpos : (w.pipe pi).held ≠ 0 := fun h0 => hne ((Pipe.held_eq_zero _).mp h0)
    cases hc : w.mem.copyout (addr + i) ((w.pipe pi).byteAt 0) with
    | none =>
      have hw : w.mem.writable (addr + i) = false := by
        rw [UserMem.copyout] at hc
        simpa using hc
      refine ⟨0, 1, rfl, ?_, ?_, by omega, fun x hx => absurd hx (Nat.not_lt_zero x), ?_, ?_⟩
      · exact update_self ..
      · exact (delivered_zero ..).symm
      · intro h0
        cases h0
      · exact fun _ => ⟨rfl, hw⟩
    | some m =>
      obtain ⟨d, lost, hr, hd⟩ := ih (i + 1)
        { w with pipe := update w.pipe pi ((w.pipe pi).drop 1), mem := m }
      refine ⟨d + 1, lost, ?_, ?_⟩
      · exact hr.trans (by omega)
      · exact Copied.cons rfl hne hc hd

theorem Copied.wakeup (h : Copied w w' pi addr k d lost) (p : Nat) (c : Chan) :
    Copied w (w'.wakeup p c) pi addr k d lost :=
  ⟨h.removed, h.stored, h.held, h.taken, h.full, h.stuck⟩

theorem Copied.accounts_iff (h : Copied w w' pi addr n.toNat d lost) :
    Accounts w w' pi addr d ↔ Takes w pi addr n := by
  constructor
  · intro ha
    have hlost : lost = 0 := by
      by_contra h0
      obtain ⟨rfl, -⟩ := h.stuck h0
      have he := congrArg Pipe.nread (h.removed.symm.trans ha.removed)
      simp only [Pipe.drop, BitVec.ofNat_add, ← BitVec.add_assoc] at he
      bv_omega
    rw [Takes, ← h.full hlost]
    exact h.taken
  · intro ht
    have hlost : lost = 0 := by
      by_contra h0
      obtain ⟨rfl, hno⟩ := h.stuck h0
      have hyes := ht d (Nat.lt_of_succ_le h.held)
      rw [hno] at hyes
      cases hyes
    subst hlost
    exact ⟨h.held.trans (Nat.min_le_right ..), h.removed, h.stored⟩

/-- A piperead() that returns a count accounts for every byte it has taken exactly when copyout()
never fails. -/
theorem piperead_accounts (hl : s.pt = .head (.piperead pi addr n)) (hs : step p s .go = some t)
    (hr : t.pt = .returned v) :
    ∃ i : Nat, v = i ∧ (Accounts s.world t.world pi addr i ↔ Takes s.world pi addr n) := by
  obtain ⟨-, hs⟩ := Option.ite_none_right_eq_some.mp hs
  simp only [go, hl, Option.some.injEq, Loop.head] at hs
  split at hs
  · subst hs
    cases hr
  · obtain ⟨d, lost, hd, hc⟩ := readBytes_copied addr pi n.toNat 0 s.world
    subst hs
    cases hr
    rw [Nat.zero_add] at hd
    rw [hd]
    have hwake := (hc.wakeup p (.pipeNwrite pi)).accounts_iff
    exact ⟨d, rfl, hwake⟩

/-- Process 0 reads from a pipe that holds the byte 7, into memory that it may write or not. -/
def reading (writable : Bool) : Sys where
  world := {
    procs := fun _ => { state := .running }
    mem := ⟨fun _ => 0, fun _ => true, fun _ => writable⟩
    pipe := fun _ => ⟨fun _ => 7, 0, 1, true, true⟩
    cons := ⟨fun _ => 0, 0, 0⟩
    ticks := 0 }
  pt := .head (.piperead 0 100 1)

def Pt.value : Pt → Option Int
  | .returned v => some v
  | _ => none

theorem eq_returned {pt : Pt} (h : pt.value = some v) : pt = .returned v := by
  cases pt <;> simp_all [Pt.value]

theorem piperead_accounts_seven : ∃ t, step 0 (reading true) .go = some t ∧
    Accounts (reading true).world t.world 0 100 1 := by
  obtain ⟨t, ht, hp⟩ : ∃ t, step 0 (reading true) .go = some t ∧ t.pt.value = some 1 := by
    decide +kernel
  obtain ⟨i, hi, hiff⟩ := piperead_accounts (s := reading true) rfl ht
    (eq_returned hp)
  obtain rfl : 1 = i := by omega
  exact ⟨t, ht, hiff.mpr (by decide)⟩

/-- The read returns 0, and the byte is gone. -/
theorem piperead_drops_byte : ∃ t, step 0 (reading false) .go = some t ∧ t.pt = .returned 0 ∧
    ((reading false).world.pipe 0).held = 1 ∧ (t.world.pipe 0).held = 0 ∧
    ¬ Accounts (reading false).world t.world 0 100 0 := by
  obtain ⟨t, ht, hv, h0⟩ : ∃ t, step 0 (reading false) .go = some t ∧ t.pt.value = some 0 ∧
      (t.world.pipe 0).held = 0 := by decide +kernel
  refine ⟨t, ht, eq_returned hv, by decide, h0, fun ha => ?_⟩
  rw [ha.removed] at h0
  exact absurd h0 (by decide)

end Xv6.Loops
