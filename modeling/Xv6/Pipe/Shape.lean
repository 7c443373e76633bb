import Xv6.Pipe.Model

namespace Xv6.Pipe
open Function Lib
open Loops (Pipe PIPESIZE Byte Word)

/-- What a process in sleep() waits for has not happened. -/
def Loop.due (q : Pipe) : Loop → Prop
  | .read _ => q.nread = q.nwrite ∧ q.writeopen = true
  | .write .. => q.nwrite = q.nread + BitVec.ofNat 32 PIPESIZE ∧ q.readopen = true

instance (q : Pipe) (l : Loop) : Decidable (l.due q) :=
  match l with
  | .read _ | .write .. => inferInstanceAs (Decidable (_ ∧ _))

def Pc.isAsleep : Pc → Bool
  | .asleep _ => true
  | _ => false

/-- The process holds pi->lock. -/
def Pc.holds : Pc → Bool
  | .head _ | .test _ | .body .. | .copy .. | .waking .. | .block _ | .leave .. => true
  | _ => false

/-- What the holder of the lock has found out about the pipe and still relies on. -/
def Pc.firm (q : Pipe) : Pc → Prop
  | .test (.read n) => (Loop.read n).due q
  | .test (.write ..) | .body .. => q.readopen = true
  | .waking c _ (.sleep n i) => c = .pipewrite ∧ (Loop.write n i).due q
  | .block l => l.due q
  | _ => True

def Pc.isClosing (w : Bool) : Pc → Bool
  | .closing v => v == w
  | _ => false

/-- Who may be where, and how the locks and the ends of the pipe go with it. -/
structure Shape (s : Sys) : Prop where
  range : ∀ p, (s.pc p).isUser = false → p < NPROC
  holds : ∀ p, (s.pc p).holds = true → s.lock = some p
  chan : ∀ p l, s.pc p = .asleep l → (s.procs p).state = .sleeping →
    (s.procs p).chan = some l.chan
  writers : ∀ p, (s.pc p).call = some .pipewrite → s.writeRef = true
  readers : ∀ p, (s.pc p).call = some .piperead → s.readRef = true
  writeopen : s.writeRef = true → s.pipe.writeopen = true
  readopen : s.readRef = true → s.pipe.readopen = true
  closeWrite : ∀ p, (s.pc p).isClosing true = true → s.writeRef = false
  closeRead : ∀ p, (s.pc p).isClosing false = true → s.readRef = false
  firm : ∀ p, (s.pc p).firm s.pipe

theorem goto_pc_self {s : Sys} : (s.goto p c).pc p = c := update_self ..

theorem goto_pc_of_ne {s : Sys} (h : q ≠ p) : (s.goto p c).pc q = s.pc q :=
  update_of_ne h ..

theorem put_procs_self {s : Sys} : (s.put p r).procs p = r := update_self ..

theorem put_procs_of_ne {s : Sys} (h : q ≠ p) : (s.put p r).procs q = s.procs q :=
  update_of_ne h ..

theorem firm_of_not_holds (h : c.holds = false) : Pc.firm q c := by
  cases c with
  | test l => cases h
  | body n i => cases h
  | waking c j k => cases h
  | block l => cases h
  | _ => trivial

theorem Shape.others (hs : Shape s) (hp : (s.pc p).holds = true) (hq : q ≠ p) :
    (s.pc q).holds = false := by
  cases hh : (s.pc q).holds with
  | false => rfl
  | true =>
    have h1 := hs.holds q hh
    rw [hs.holds p hp] at h1
    exact absurd (Option.some.inj h1).symm hq

theorem Shape.nobody (hs : Shape s) (hfree : s.lock = none) (q : Nat) :
    (s.pc q).holds = false := by
  cases hh : (s.pc q).holds with
  | false => rfl
  | true => cases hfree.symm.trans (hs.holds q hh)

/-- One process goes on, from a call to the same call or out of it. If it changes the lock or
the pipe, nobody else holds the lock. -/
theorem Shape.move {t : Sys} (hs : Shape s) (hp : p < NPROC)
    (hpc : t.pc = update s.pc p c)
    (hother : (∀ q, q ≠ p → (s.pc q).holds = false) ∨ t.lock = s.lock ∧ t.pipe = s.pipe)
    (hlock : c.holds = true → t.lock = some p)
    (hprocs : ∀ q, q ≠ p → (t.procs q).state = .sleeping → t.procs q = s.procs q)
    (hsleep : ∀ l, c = .asleep l → (t.procs p).chan = some l.chan)
    (hcall : c.call = none ∨ c.call = (s.pc p).call) (hclosing : ∀ w, c.isClosing w = false)
    (hrefs : t.writeRef = s.writeRef ∧ t.readRef = s.readRef)
    (hopen : (t.writeRef = true → t.pipe.writeopen = true) ∧
      (t.readRef = true → t.pipe.readopen = true))
    (hfirm : c.firm t.pipe) : Shape t := by
  have hself : t.pc p = c := by rw [hpc, update_self]
  have hne : ∀ q, q ≠ p → t.pc q = s.pc q := by
    intro q hq
    rw [hpc, update_of_ne hq]
  have hpcall : ∀ k, c.call = some k → (s.pc p).call = some k := by
    intro k hk
    obtain h0 | h0 := hcall
    · cases hk.symm.trans h0
    · rw [← h0, hk]
  constructor
  case range =>
    intro q hq
    rcases eq_or_ne q p with rfl | h
    · exact hp
    · exact hs.range q (hne q h ▸ hq)
  case holds =>
    intro q hq
    rcases eq_or_ne q p with rfl | h
    · exact hlock (hself ▸ hq)
    · rw [hne q h] at hq
      obtain h0 | ⟨h0, -⟩ := hother
      · rw [h0 q h] at hq
        cases hq
      · rw [h0, hs.holds q hq]
  case chan =>
    intro q l hq hst
    rcases eq_or_ne q p with rfl | h
    · exact hsleep l (hself ▸ hq)
    · have he := hprocs q h hst
      rw [he] at hst ⊢
      exact hs.chan q l (hne q h ▸ hq) hst
  case writers =>
    intro q hq
    rw [hrefs.1]
    rcases eq_or_ne q p with rfl | h
    · exact hs.writers q (hpcall _ (hself ▸ hq))
    · exact hs.writers q (hne q h ▸ hq)
  case readers =>
    intro q hq
    rw [hrefs.2]
    rcases eq_or_ne q p with rfl | h
    · exact hs.readers q (hpcall _ (hself ▸ hq))
    · exact hs.readers q (hne q h ▸ hq)
  case writeopen => exact hopen.1
  case readopen => exact hopen.2
  case closeWrite =>
    intro q hq
    rw [hrefs.1]
    rcases eq_or_ne q p with rfl | h
    · rw [hself, hclosing] at hq
      cases hq
    · exact hs.closeWrite q (hne q h ▸ hq)
  case closeRead =>
    intro q hq
    rw [hrefs.2]
    rcases eq_or_ne q p with rfl | h
    · rw [hself, hclosing] at hq
      cases hq
    · exact hs.closeRead q (hne q h ▸ hq)
  case firm =>
    intro q
    rcases eq_or_ne q p with rfl | h
    · rw [hself]
      exact hfirm
    · rw [hne q h]
      obtain h0 | ⟨-, h0⟩ := hother
      · exact firm_of_not_holds (h0 q h)
      · rw [h0]
        exact hs.firm q

theorem not_closing_of_holds (h : c.holds = true) (w : Bool) : Pc.isClosing w c = false := by
  cases c with
  | closing v => cases h
  | _ => rfl

theorem Shape.lt (hs : Shape s) (hp : (s.pc p).holds = true) : p < NPROC := by
  apply hs.range p
  cases hc : s.pc p with
  | user v =>
    rw [hc] at hp
    cases hp
  | _ => rfl

/-- The holder of the lock goes on with it, and perhaps changes the buffer. -/
theorem Shape.keep {t : Sys} (hs : Shape s) (hp : (s.pc p).holds = true)
    (hpc : t.pc = update s.pc p c) (hlock : t.lock = s.lock)
    (hprocs : t.procs = s.procs)
    (hrefs : t.writeRef = s.writeRef ∧ t.readRef = s.readRef)
    (hopen : t.pipe.writeopen = s.pipe.writeopen ∧ t.pipe.readopen = s.pipe.readopen)
    (hc : c.holds = true) (hcall : c.call = (s.pc p).call) (hfirm : c.firm t.pipe) :
    Shape t := by
  apply hs.move (hs.lt hp) hpc (.inl fun q hq => hs.others hp hq)
  case hlock =>
    intro _
    rw [hlock, hs.holds p hp]
  case hprocs =>
    intro q _ _
    rw [hprocs]
  case hsleep =>
    intro l hl
    rw [hl] at hc
    cases hc
  case hcall => exact .inr hcall
  case hclosing => exact not_closing_of_holds hc
  case hrefs => exact hrefs
  case hopen =>
    rw [hopen.1, hopen.2, hrefs.1, hrefs.2]
    exact ⟨hs.writeopen, hs.readopen⟩
  case hfirm => exact hfirm

theorem Shape.goto (hs : Shape s) (hp : (s.pc p).holds = true) (hc : c.holds = true)
    (hcall : c.call = (s.pc p).call) (hfirm : c.firm s.pipe) : Shape (s.goto p c) :=
  hs.keep hp rfl rfl rfl ⟨rfl, rfl⟩ ⟨rfl, rfl⟩ hc hcall hfirm

theorem headOf_holds (s : Sys) (l : Loop) : (headOf s l).holds = true := by
  unfold headOf
  split
  · split
    · split <;> rfl
    · rfl
  · split <;> rfl

theorem headOf_call (s : Sys) (l : Loop) : (headOf s l).call = some l.call := by
  unfold headOf
  split
  · split
    · split <;> rfl
    · rfl
  · split <;> rfl

theorem headOf_firm (s : Sys) (l : Loop) : (headOf s l).firm s.pipe := by
  unfold headOf
  split
  · split
    · split
      · trivial
      · next h => exact (Bool.not_eq_false _).mp h
    · trivial
  · split
    · next h => exact h
    · trivial

theorem testOf_holds (k : Bool) (l : Loop) : (testOf k l).holds = true := by
  cases l <;> cases k <;> rfl

theorem testOf_call (k : Bool) (l : Loop) : (testOf k l).call = some l.call := by
  cases l <;> cases k <;> rfl

theorem testOf_firm {q : Pipe} (k : Bool) (h : (Pc.test l).firm q) : (testOf k l).firm q := by
  cases l with
  | read n =>
    cases k with
    | true => trivial
    | false => exact h
  | write n i =>
    cases k with
    | true => trivial
    | false => exact h

theorem closeEnd_writeopen (s : Sys) (w : Bool) :
    (closeEnd s w).pipe.writeopen = (!w && s.pipe.writeopen) := by
  cases w <;> simp [closeEnd]

theorem closeEnd_readopen (s : Sys) (w : Bool) :
    (closeEnd s w).pipe.readopen = (w && s.pipe.readopen) := by
  cases w <;> simp [closeEnd]

theorem Shape.closing (hs : Shape s) (hpc : s.pc p = .closing w) (hfree : s.lock = none) :
    Shape ((closeEnd { s with lock := some p } w).goto p (.waking (.pipeclose w) 0 (.ret 0))) := by
  have hp : p < NPROC := hs.range p (by rw [hpc]; rfl)
  have hw : w = true → s.writeRef = false := by
    intro h
    apply hs.closeWrite p
    rw [hpc, h]
    rfl
  have hr : w = false → s.readRef = false := by
    intro h
    apply hs.closeRead p
    rw [hpc, h]
    rfl
  have hrefs : (closeEnd { s with lock := some p } w).writeRef = s.writeRef ∧
      (closeEnd { s with lock := some p } w).readRef = s.readRef := by
    cases w <;> exact ⟨rfl, rfl⟩
  apply hs.move hp (c := .waking (.pipeclose w) 0 (.ret 0)) ?_
    (.inl fun q _ => hs.nobody hfree q)
  case hlock => cases w <;> exact fun _ => rfl
  case hprocs => cases w <;> exact fun _ _ _ => rfl
  case hsleep =>
    intro l hl
    cases hl
  case hcall =>
    right
    rw [hpc]
    rfl
  case hclosing => exact fun _ => rfl
  case hrefs => exact hrefs
  case hopen =>
    rw [show ∀ (t : Sys) c, (t.goto p c).writeRef = t.writeRef from fun _ _ => rfl,
      show ∀ (t : Sys) c, (t.goto p c).readRef = t.readRef from fun _ _ => rfl,
      show ∀ (t : Sys) c, (t.goto p c).pipe = t.pipe from fun _ _ => rfl,
      hrefs.1, hrefs.2, closeEnd_writeopen, closeEnd_readopen]
    cases w with
    | true =>
      rw [hw rfl]
      simpa using hs.readopen
    | false =>
      rw [hr rfl]
      simpa using hs.writeopen
  case hfirm => trivial
  cases w <;> rfl

theorem Proc.wakeup_sleeping {r : Proc} (h : (r.wakeup ch).state = .sleeping) :
    r.wakeup ch = r ∧ (r.chan = some ch → r.state ≠ .sleeping) := by
  unfold Proc.wakeup at h ⊢
  split at h
  · cases h
  · next hn =>
    rw [if_neg hn]
    exact ⟨rfl, fun hc hst => hn ⟨hst, hc⟩⟩

/-- Nobody falls asleep on another channel than before. -/
theorem Shape.setProcs (hs : Shape s) {f : Table}
    (h : ∀ q l, s.pc q = .asleep l → (f q).state = .sleeping →
      (s.procs q).state = .sleeping ∧ (f q).chan = (s.procs q).chan) :
    Shape { s with procs := f } where
  range := hs.range
  holds := hs.holds
  chan := by
    intro q l hq hst
    obtain ⟨h1, h2⟩ := h q l hq hst
    exact h2.trans (hs.chan q l hq h1)
  writers := hs.writers
  readers := hs.readers
  writeopen := hs.writeopen
  readopen := hs.readopen
  closeWrite := hs.closeWrite
  closeRead := hs.closeRead
  firm := hs.firm

theorem Shape.put (hs : Shape s)
    (h : ∀ l, s.pc p = .asleep l → r.state = .sleeping →
      (s.procs p).state = .sleeping ∧ r.chan = (s.procs p).chan) : Shape (s.put p r) := by
  apply hs.setProcs
  intro q l hq hst
  rcases eq_or_ne q p with rfl | hne
  · rw [update_self] at hst ⊢
    exact h l hq hst
  · rw [update_of_ne hne] at hst ⊢
    exact ⟨hst, rfl⟩

theorem Shape.wakeSlot (hs : Shape s) (p : Nat) (ch : Chan) (j : Nat) :
    Shape (s.wakeSlot p ch j) := by
  unfold Sys.wakeSlot
  split
  · exact hs
  · apply hs.put
    intro l _ hst
    have he := (Proc.wakeup_sleeping hst).1
    rw [he] at hst ⊢
    exact ⟨hst, rfl⟩

theorem wakeSlot_pc (s : Sys) (p : Nat) (ch : Chan) (j : Nat) : (s.wakeSlot p ch j).pc = s.pc := by
  unfold Sys.wakeSlot
  split <;> rfl

theorem wakeSlot_pipe (s : Sys) (p : Nat) (ch : Chan) (j : Nat) :
    (s.wakeSlot p ch j).pipe = s.pipe := by
  unfold Sys.wakeSlot
  split <;> rfl

theorem Shape.giveUp (hs : Shape s) (hp : (s.pc p).holds = true) (hc : c.holds = false)
    (ha : c.isAsleep = false) (hcl : ∀ w, c.isClosing w = false)
    (hcall : c.call = none ∨ c.call = (s.pc p).call) :
    Shape ({ s with lock := none }.goto p c) := by
  apply hs.move (hs.lt hp) rfl (.inl fun q hq => hs.others hp hq)
  case hlock =>
    rw [hc]
    intro h
    cases h
  case hprocs => exact fun _ _ _ => rfl
  case hsleep =>
    intro l hl
    rw [hl] at ha
    cases ha
  case hcall => exact hcall
  case hclosing => exact hcl
  case hrefs => exact ⟨rfl, rfl⟩
  case hopen => exact ⟨hs.writeopen, hs.readopen⟩
  case hfirm => exact firm_of_not_holds hc

theorem Shape.inSleep (hs : Shape s) (hp : p < NPROC) (hc : c.holds = false)
    (hcl : ∀ w, c.isClosing w = false) (hcall : c.call = (s.pc p).call)
    (hch : ∀ l, c = .asleep l → r.chan = some l.chan) : Shape ((s.put p r).goto p c) := by
  apply hs.move (t := (s.put p r).goto p c) hp rfl (.inr ⟨rfl, rfl⟩)
  case hlock =>
    rw [hc]
    intro h
    cases h
  case hprocs => exact fun q hq _ => update_of_ne hq ..
  case hsleep =>
    intro l hl
    have he : ((s.put p r).goto p c).procs p = r := update_self ..
    rw [he]
    exact hch l hl
  case hcall => exact .inr hcall
  case hclosing => exact hcl
  case hrefs => exact ⟨rfl, rfl⟩
  case hopen => exact ⟨hs.writeopen, hs.readopen⟩
  case hfirm => exact firm_of_not_holds hc

theorem Shape.turn (hs : Shape s) (h : Turn s p t) : Shape t := by
  have lt : ∀ {c : Pc}, s.pc p = c → c.isUser = false → p < NPROC := by
    intro c hc hu
    apply hs.range p
    rw [hc, hu]
  have holds : ∀ {c : Pc}, s.pc p = c → c.holds = true → (s.pc p).holds = true := by
    intro c hc hh
    rw [hc, hh]
  have firm : ∀ {c : Pc}, s.pc p = c → c.firm s.pipe := by
    intro c hc
    rw [← hc]
    exact hs.firm p
  cases h with
  | enter hpc hfree =>
    apply hs.move (lt hpc rfl) rfl (.inl fun q _ => hs.nobody hfree q)
    case hlock => exact fun _ => rfl
    case hprocs => exact fun _ _ _ => rfl
    case hsleep =>
      intro l hl
      cases hl
    case hcall =>
      right
      rw [hpc]
      rfl
    case hclosing => exact fun _ => rfl
    case hrefs => exact ⟨rfl, rfl⟩
    case hopen => exact ⟨hs.writeopen, hs.readopen⟩
    case hfirm => trivial
  | closing hpc hfree => exact hs.closing hpc hfree
  | head hpc =>
    apply hs.goto (holds hpc rfl) (headOf_holds ..) ?_ (headOf_firm ..)
    rw [hpc, headOf_call]
    rfl
  | test hpc =>
    apply hs.goto (holds hpc rfl) (testOf_holds ..) ?_ (testOf_firm _ (firm hpc))
    rw [hpc, testOf_call]
    rfl
  | full hpc hfull =>
    exact hs.goto (holds hpc rfl) rfl (by rw [hpc]; rfl) ⟨rfl, hfull, firm hpc⟩
  | faulted hpc => exact hs.goto (holds hpc rfl) rfl (by rw [hpc]; rfl) trivial
  | stored ch hpc hroom =>
    exact hs.keep (t := (s.store ch).goto p _) (holds hpc rfl) rfl rfl rfl ⟨rfl, rfl⟩ ⟨rfl, rfl⟩
      rfl (by rw [hpc]; rfl) trivial
  | drained hpc => exact hs.goto (holds hpc rfl) rfl (by rw [hpc]; rfl) trivial
  | removed c hpc hsome hc =>
    obtain rfl | rfl := hc
    · exact hs.keep (t := s.remove.goto p _) (holds hpc rfl) rfl rfl rfl ⟨rfl, rfl⟩ ⟨rfl, rfl⟩
        rfl (by rw [hpc]; rfl) trivial
    · exact hs.keep (t := s.remove.goto p _) (holds hpc rfl) rfl rfl rfl ⟨rfl, rfl⟩ ⟨rfl, rfl⟩
        rfl (by rw [hpc]; rfl) trivial
  | @waking c j k hpc hj hdoze =>
    apply (hs.wakeSlot p c.wakes j).goto
    · rw [wakeSlot_pc, hpc]
      rfl
    · rfl
    · rw [wakeSlot_pc, hpc]
      rfl
    · rw [wakeSlot_pipe]
      have hf := firm hpc
      cases k with
      | sleep n i => exact hf
      | ret v => trivial
  | @blocked c j n i hpc hj =>
    obtain ⟨hc, hd⟩ := firm hpc
    exact hs.goto (holds hpc rfl) rfl (by rw [hpc, hc]; rfl) hd
  | woke hpc hj => exact hs.goto (holds hpc rfl) rfl (by rw [hpc]; rfl) trivial
  | block hpc =>
    apply hs.giveUp (holds hpc rfl) rfl rfl (fun _ => rfl)
    right
    rw [hpc]
    rfl
  | leave hpc => exact hs.giveUp (holds hpc rfl) rfl rfl (fun _ => rfl) (.inl rfl)
  | dozing hpc =>
    apply hs.inSleep (lt hpc rfl) rfl (fun _ => rfl)
    · rw [hpc]
      rfl
    · intro l hl
      cases hl
      rfl
  | asleep hpc =>
    apply hs.inSleep (lt hpc rfl) rfl (fun _ => rfl)
    · rw [hpc]
      rfl
    · intro l hl
      cases hl

theorem forall_goto {s : Sys} {P : Nat → Pc → Prop} (h : ∀ q, P q (s.pc q)) (hp : P p c) (q : Nat) :
    P q ((s.goto p c).pc q) := by
  rcases eq_or_ne q p with rfl | hne
  · rw [goto_pc_self]
    exact hp
  · rw [goto_pc_of_ne hne]
    exact h q

theorem Shape.begins {e : Bool × Bool} (hs : Shape s) (hp : p < NPROC) (hc : c.holds = false)
    (ha : c.isAsleep = false) (hw : e.1 = true → s.writeRef = true)
    (hr : e.2 = true → s.readRef = true)
    (hws : ∀ q, (s.pc q).call = some .pipewrite → e.1 = true)
    (hrs : ∀ q, (s.pc q).call = some .piperead → e.2 = true)
    (hcw : c.call = some .pipewrite → e.1 = true)
    (hcr : c.call = some .piperead → e.2 = true)
    (hclw : c.isClosing true = true → e.1 = false)
    (hclr : c.isClosing false = true → e.2 = false) :
    Shape ({ s with writeRef := e.1, readRef := e.2 }.goto p c) := by
  have hnot : ∀ {a b : Bool}, (a = true → b = true) → b = false → a = false := by
    intro a b h hb
    cases a with
    | false => rfl
    | true => rw [h rfl] at hb; cases hb
  constructor
  case range =>
    exact forall_goto (P := fun q x => x.isUser = false → q < NPROC) hs.range fun _ => hp
  case holds =>
    apply forall_goto (P := fun q x => x.holds = true → s.lock = some q) hs.holds
    rw [hc]
    intro h
    cases h
  case chan =>
    apply forall_goto (P := fun q x => ∀ l, x = .asleep l → (s.procs q).state = .sleeping →
      (s.procs q).chan = some l.chan) hs.chan
    intro l hl
    rw [hl] at ha
    cases ha
  case writers => exact forall_goto (P := fun _ x => x.call = some .pipewrite → e.1 = true) hws hcw
  case readers => exact forall_goto (P := fun _ x => x.call = some .piperead → e.2 = true) hrs hcr
  case writeopen => exact fun h => hs.writeopen (hw h)
  case readopen => exact fun h => hs.readopen (hr h)
  case closeWrite =>
    exact forall_goto (P := fun _ x => x.isClosing true = true → e.1 = false)
      (fun q h => hnot hw (hs.closeWrite q h)) hclw
  case closeRead =>
    exact forall_goto (P := fun _ x => x.isClosing false = true → e.2 = false)
      (fun q h => hnot hr (hs.closeRead q h)) hclr
  case firm => exact forall_goto (P := fun _ x => x.firm s.pipe) hs.firm (firm_of_not_holds hc)

theorem Shape.idle (hs : Shape s) (h : Idle s w)
    (hc : (s.pc q).call = some (if w then .pipewrite else .piperead)) : False := by
  apply h q (hs.range q ?_) hc
  cases hq : s.pc q with
  | user v =>
    rw [hq] at hc
    cases hc
  | _ => rfl

theorem shape_step (hs : Shape s) (h : Moves s a t) : Shape t := by
  cases h with
  | turn hrun h => exact hs.turn h
  | sched p hst =>
    apply hs.put
    intro l _ h
    cases h
  | yield p hrun hpc =>
    apply hs.put
    intro l _ h
    cases h
  | kill i hpc =>
    apply hs.put
    intro l _ h
    unfold Proc.kill at h ⊢
    dsimp only at h ⊢
    split at h
    · cases h
    · exact ⟨h, rfl⟩
  | elsewhere p r hpc =>
    apply hs.put
    intro l hl
    rw [hl] at hpc
    cases hpc
  | write p n hp href =>
    exact hs.begins (e := ⟨s.writeRef, s.readRef⟩) hp.1 rfl rfl id id hs.writers hs.readers
      (fun _ => href) (fun h => by cases h) (fun h => by cases h) (fun h => by cases h)
  | read p n hp href =>
    exact hs.begins (e := ⟨s.writeRef, s.readRef⟩) hp.1 rfl rfl id id hs.writers hs.readers
      (fun h => by cases h) (fun _ => href) (fun h => by cases h) (fun h => by cases h)
  | closeWrite p hp hidle href =>
    exact hs.begins (e := ⟨false, s.readRef⟩) hp.1 rfl rfl (fun h => by cases h) id
      (fun q hq => (hs.idle hidle hq).elim) hs.readers (fun h => by cases h) (fun h => by cases h)
      (fun _ => rfl) (fun h => by cases h)
  | closeRead p hp hidle href =>
    exact hs.begins (e := ⟨s.writeRef, false⟩) hp.1 rfl rfl id (fun h => by cases h) hs.writers
      (fun q hq => (hs.idle hidle hq).elim) (fun h => by cases h) (fun h => by cases h)
      (fun h => by cases h) (fun _ => rfl)

theorem shape_start (procs : Table) (data : Nat → Byte) : Shape (start procs data) where
  range := fun _ h => by cases h
  holds := fun _ h => by cases h
  chan := fun _ _ h => by cases h
  writers := fun _ h => by cases h
  readers := fun _ h => by cases h
  writeopen := fun _ => rfl
  readopen := fun _ => rfl
  closeWrite := fun _ h => by cases h
  closeRead := fun _ h => by cases h
  firm := fun _ => trivial

end Xv6.Pipe
