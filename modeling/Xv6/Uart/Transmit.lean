import Xv6.Lib.Monitor
import Xv6.Lib.Window

namespace Xv6.Uart

open Function Lib Lib.Monitor

def UART_TX_BUF_SIZE : Nat := 32

/-- uart_tx_w and uart_tx_r are of type uint64. -/
def WORDS : Nat := 18446744073709551616

/-- The output buffer with its counters, whether THR is full, and whether the interrupt for an empty
THR waits for uartintr(). Not in the source: the local c of uartstart(), and the bytes put into the
buffer and those written to THR, in order. -/
structure Tx where
  buf : Nat → BitVec 8
  w : Nat
  r : Nat
  busy : Bool
  raised : Bool
  c : Option (BitVec 8)
  put : List (BitVec 8)
  sent : List (BitVec 8)

/-- writeReg is the end of the loop of uartstart(), behind its wakeup(). -/
inductive Op where
  | uartputc (c : BitVec 8)
  | uartintr
  | uartstart
  | writeReg
  deriving DecidableEq

def uartputc (c : BitVec 8) (u : Tx) : Verdict Op Tx :=
  if u.w = (u.r + UART_TX_BUF_SIZE) % WORDS then .sleep
  else .go (some .uartstart) { u with
    buf := update u.buf (u.w % UART_TX_BUF_SIZE) c
    w := (u.w + 1) % WORDS
    put := u.put ++ [c] } false

def uartstart (u : Tx) : Verdict Op Tx :=
  -- ReadReg(ISR) takes the interrupt back
  if u.w = u.r then .go none { u with raised := false } false
  else if u.busy then .go none u false
  else .go (some .writeReg) { u with
    c := some (u.buf (u.r % UART_TX_BUF_SIZE))
    r := (u.r + 1) % WORDS } true

def writeReg (u : Tx) : Verdict Op Tx :=
  .go (some .uartstart) { u with busy := true, c := none, sent := u.sent ++ u.c.toList } false

/-- The transmitter takes the byte in THR, or uartputc_sync() writes another one, at any time. -/
def transmitter (full : Bool) (u : Tx) : Tx :=
  { u with busy := full, raised := u.raised || !full }

def uart : Code Op Tx Bool where
  exec _
    | .uartputc c => uartputc c
    | .uartintr => fun u => .go (some .uartstart) { u with raised := false } false
    | .uartstart => uartstart
    | .writeReg => writeReg
  env full u := some (transmitter full u)
  calls _
    | .uartputc _ | .uartintr => fun _ => true
    | _ => fun _ => false

def uartinit : Tx := ⟨fun _ => 0, 0, 0, false, false, none, [], []⟩

/-- The bytes l are in the buffer, behind those sent and the one in c. -/
structure Holds (u : Tx) (l : List (BitVec 8)) : Prop where
  window : Window WORDS UART_TX_BUF_SIZE u.buf u.r u.w l
  order : u.put = u.sent ++ (u.c.toList ++ l)

/-- When uartstart() has ended, bytes are left only if THR is full or will cause an interrupt. -/
def Rest (u : Tx) (l : List (BitVec 8)) : Option (Nat × Op) → Prop
  | some (_, .writeReg) => True
  | some (_, .uartstart) => u.c = none
  | _ => u.c = none ∧ (l = [] ∨ u.busy = true ∨ u.raised = true)

theorem uart_rules : Rules uart (fun x u => ∃ l, Holds u l ∧ Rest u l x) (fun _ _ _ => True)
    (fun _ _ u => u.w = (u.r + UART_TX_BUF_SIZE) % WORDS) where
  call _ _ := trivial
  enter {u p a} h _ := by
    obtain ⟨l, h, hx⟩ := h
    refine ⟨l, h, ?_⟩
    cases a with
    | uartputc c => exact hx
    | uartintr => exact hx
    | uartstart => exact hx.1
    | writeReg => trivial
  exec {p a u} h := by
    obtain ⟨l, h, hx⟩ := h
    cases a with
    | uartputc c =>
      simp only [uart, uartputc]
      split
      · rename_i hfull
        exact ⟨⟨l, h, hx⟩, trivial, hfull⟩
      · rename_i hfull
        have hroom : l.length < UART_TX_BUF_SIZE :=
          Nat.lt_of_le_of_ne h.window.room (mt h.window.full_iff.mpr hfull)
        have hl := (h.window.write hroom c).advance hroom (update_self ..)
        exact ⟨⟨_, ⟨hl, by simp [h.order]⟩, hx.1⟩, fun _ _ _ _ => ⟨trivial, fun _ hB =>
          absurd hB hfull⟩⟩
    | uartintr => exact ⟨⟨l, ⟨h.window, h.order⟩, hx.1⟩, fun _ _ _ _ => ⟨trivial, fun _ => id⟩⟩
    | uartstart =>
      simp only [uart, uartstart]
      split
      · rename_i hwr
        exact ⟨⟨l, ⟨h.window, h.order⟩, hx, .inl (h.window.eq_iff.mp hwr.symm)⟩,
          fun _ _ _ _ => ⟨trivial, fun _ => id⟩⟩
      · rename_i hwr
        split
        · rename_i hbusy
          exact ⟨⟨l, h, hx, .inr (.inl hbusy)⟩, fun _ _ _ _ => ⟨trivial, fun _ => id⟩⟩
        · cases l with
          | nil => exact absurd (h.window.eq_iff.mpr rfl).symm hwr
          | cons x l =>
            obtain ⟨rfl, hl⟩ := h.window.pop
            have hc : u.c = none := hx
            exact ⟨⟨l, ⟨hl, by simp [h.order, hc]⟩, trivial⟩, fun _ _ _ _ => ⟨trivial, by simp⟩⟩
    | writeReg =>
      exact ⟨⟨l, ⟨h.window, by simp [h.order]⟩, rfl⟩, fun _ _ _ _ => ⟨trivial, fun _ => id⟩⟩
  env {x u full v} h he := by
    obtain ⟨l, h, hx⟩ := h
    cases he
    have hgo : full = true ∨ (u.raised || !full) = true := by cases full <;> simp
    refine ⟨⟨l, ⟨h.window, h.order⟩, ?_⟩, fun _ _ _ => ⟨trivial, fun _ => id⟩⟩
    match x with
    | some (_, .writeReg) => trivial
    | some (_, .uartstart) => exact hx
    | some (_, .uartputc _) | some (_, .uartintr) | none => exact ⟨hx.1, .inr hgo⟩

theorem uart_reached (hr : run (step uart) (start uartinit) as = some s) :
    (∃ l, Holds s.data l ∧ Rest s.data l s.inside) ∧
      ∀ p a, s.pc p = .asleep a → s.data.w = (s.data.r + UART_TX_BUF_SIZE) % WORDS := by
  have hw := window_nil (m := WORDS) (n := UART_TX_BUF_SIZE) (by decide) (by decide) uartinit.buf
  have h := uart_rules.reached ⟨[], ⟨hw, rfl⟩, rfl, .inl rfl⟩ hr
  refine ⟨h.data, fun p a hp => ?_⟩
  have hst := h.stands p
  rw [hp] at hst
  exact hst.2

/-- Bytes leave the buffer in the order they were put in, and none is lost on the way to THR. -/
theorem uart_lossless (hr : run (step uart) (start uartinit) as = some s) :
    ∃ l, Window WORDS UART_TX_BUF_SIZE s.data.buf s.data.r s.data.w l ∧
      s.data.put = s.data.sent ++ (s.data.c.toList ++ l) ∧
      (s.inside = none → s.data.put = s.data.sent ++ l) := by
  obtain ⟨⟨l, hl, hx⟩, -⟩ := uart_reached hr
  refine ⟨l, hl.window, hl.order, fun hn => ?_⟩
  rw [hn] at hx
  simpa [hx.1] using hl.order

/-- The second byte waits in the buffer while THR has the first one. -/
def twoBytes : List (Act Op Bool) :=
  [.call 0 (.uartputc 65), .acquire 0, .exec, .exec, .exec, .exec, .call 1 (.uartputc 66),
    .acquire 1, .exec, .exec]

theorem uart_lossless_two : ∃ s, run (step uart) (start uartinit) twoBytes = some s ∧
    s.data.sent = [65] ∧ ∃ l, s.data.put = 65 :: l := by
  obtain ⟨s, hs, hx, hsent⟩ : ∃ s, run (step uart) (start uartinit) twoBytes = some s ∧
      s.inside = none ∧ s.data.sent = [65] := by decide +kernel
  obtain ⟨l, -, -, hl⟩ := uart_lossless hs
  exact ⟨s, hs, hsent, l, by simpa [hsent] using hl hx⟩

/-- A process sleeps in uartputc() only while the buffer is full, and bytes wait in the buffer only
while THR is full or its interrupt is on the way. -/
theorem uart_never_stalls (hr : run (step uart) (start uartinit) as = some s) :
    (∀ p a, s.pc p = .asleep a → s.data.w = (s.data.r + UART_TX_BUF_SIZE) % WORDS) ∧
    (s.inside = none → s.data.w ≠ s.data.r → s.data.busy = true ∨ s.data.raised = true) := by
  obtain ⟨⟨l, hl, hx⟩, hfull⟩ := uart_reached hr
  refine ⟨hfull, fun hn hne => ?_⟩
  rw [hn] at hx
  exact hx.2.resolve_left (fun he => hne (hl.window.eq_iff.mpr he).symm)

theorem uart_never_stalls_two : ∃ s, run (step uart) (start uartinit) twoBytes = some s ∧
    s.data.w ≠ s.data.r ∧ (s.data.busy = true ∨ s.data.raised = true) := by
  obtain ⟨s, hs, hx, hw⟩ : ∃ s, run (step uart) (start uartinit) twoBytes = some s ∧
      s.inside = none ∧ s.data.w ≠ s.data.r := by decide +kernel
  exact ⟨s, hs, hw, (uart_never_stalls hs).2 hx hw⟩

end Xv6.Uart
