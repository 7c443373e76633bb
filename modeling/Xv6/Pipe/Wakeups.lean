import Xv6.Pipe.Shape

namespace Xv6.Pipe
open Function Lib
open Loops (Pipe PIPESIZE Byte Word)

/-- With the pipe's lock free, nobody is asleep who should be awake. -/
def NoneLost (s : Sys) : Prop :=
  s.lock = none → ∀ p l, s.pc p = .asleep l → (s.procs p).state = .sleeping → l.due s.pipe

/-- The process is asleep, or about to be with only its own lock held. -/
def Waiting (s : Sys) (p : Nat) (l : Loop) : Prop :=
  s.pc p = .dozing l ∨ s.pc p = .asleep l ∧ (s.procs p).state = .sleeping

def Pc.isReader : Pc → Bool
  | .dozing (.read _) | .asleep (.read _) => true
  | _ => false

/-- A reader is asleep, or about to be. -/
def ReaderWaits (s : Sys) : Prop :=
  ∃ p < NPROC, (s.pc p).isReader = true ∧
    ((s.pc p).isAsleep = true → (s.procs p).state = .sleeping)

instance (s : Sys) : Decidable (ReaderWaits s) :=
  inferInstanceAs (Decidable (∃ p < NPROC, _))

/-- A writer at this point of its loop tests killed() again before it calls wakeup(), with
bytes in the pipe that no reader has been told of. -/
def Pc.cut (q : Pipe) : Pc → Prop
  | .head (.write n i) => (i : Int) < n ∧ q.nread ≠ q.nwrite
  | .test (.write ..) => q.nread ≠ q.nwrite
  | .body n i => (i : Int) + 1 < n
  | _ => False

instance (q : Pipe) (c : Pc) : Decidable (c.cut q) :=
  match c with
  | .head (.write ..) => inferInstanceAs (Decidable (_ ∧ _))
  | .test (.write ..) => inferInstanceAs (Decidable (_ ≠ _))
  | .body .. => inferInstanceAs (Decidable (_ < _))
  | .head (.read _) | .test (.read _) | .user _ | .enter _ | .closing _ | .copy .. | .waking ..
  | .block _ | .leave .. | .dozing _ | .asleep _ => isFalse id

/-- No kill() finds a process in the middle of pipewrite()'s copy loop while a reader sleeps. -/
def Spared (s : Sys) : Act → Prop
  | .kill i => ReaderWaits s → ¬ (s.pc i).cut s.pipe
  | _ => True

instance (s : Sys) (a : Act) : Decidable (Spared s a) :=
  match a with
  | .kill _ => inferInstanceAs (Decidable (_ → ¬ _))
  | .sched _ | .yield _ | .elsewhere .. | .write .. | .read .. | .close .. | .go .. =>
    isTrue trivial

/-- The process will wake slot p if it sleeps on this channel. -/
def Pc.owes (killed : Bool) (ch : Chan) (p : Nat) : Pc → Prop
  | .head (.write n i) => ch = .pipeNread 0 ∧ (n ≤ i ∨ killed = false)
  | .test (.write ..) => ch = .pipeNread 0 ∧ killed = false
  | .body n i => ch = .pipeNread 0 ∧ (n ≤ i + 1 ∨ killed = false)
  | .copy .. => ch = .pipeNwrite 0
  | .waking c j _ => ch = c.wakes ∧ j ≤ p
  | _ => False

/-- Whoever waits in vain will be woken by the process that holds the pipe's lock. -/
structure Alert (s : Sys) : Prop where
  waits : ∀ p l, Waiting s p l →
    l.due s.pipe ∨ ∃ h, (s.pc h).owes (s.procs h).killed l.chan p
  body : ∀ h n i q m, s.pc h = .body n i → Waiting s q (.read m) →
    n ≤ i + 1 ∨ (s.procs h).killed = false

theorem owes_holds (h : Pc.owes k ch p c) : c.holds = true := by
  cases c with
  | head l => rfl
  | test l => rfl
  | body n i => rfl
  | copy n i => rfl
  | waking c j k => rfl
  | _ => exact h.elim

theorem Waiting.not_user (h : Waiting s p l) : (s.pc p).isUser = false := by
  obtain h | ⟨h, -⟩ := h <;> rw [h] <;> rfl

theorem Waiting.call (h : Waiting s p l) : (s.pc p).call = some l.call := by
  obtain h | ⟨h, -⟩ := h <;> rw [h] <;> rfl

theorem Waiting.readerWaits (hs : Shape s) (h : Waiting s p (.read n)) : ReaderWaits s := by
  refine ⟨p, hs.range p h.not_user, ?_⟩
  obtain h | ⟨h, hst⟩ := h
  · rw [h]
    exact ⟨rfl, fun ha => by cases ha⟩
  · rw [h]
    exact ⟨rfl, fun _ => hst⟩

/-- One process goes on. Whoever then waits did so before, or has found the pipe as it needs it
with the lock in hand. -/
theorem Alert.move {t : Sys} (ha : Alert s) (hpc : t.pc = update s.pc p c)
    (hk : ∀ q, q ≠ p → (t.procs q).killed = (s.procs q).killed)
    (hwait : ∀ q l, Waiting t q l →
      Waiting s q l ∨ l.due t.pipe ∧ ∀ h, h ≠ p → (s.pc h).holds = false)
    (hdue : ∀ q l, Waiting t q l → Waiting s q l →
      l.due s.pipe ∨ (s.pc p).owes (s.procs p).killed l.chan q →
      l.due t.pipe ∨ c.owes (t.procs p).killed l.chan q)
    (hbody : ∀ n i q m, c = .body n i → Waiting t q (.read m) →
      n ≤ i + 1 ∨ (t.procs p).killed = false) : Alert t := by
  have hself : t.pc p = c := by rw [hpc, update_self]
  have hne : ∀ q, q ≠ p → t.pc q = s.pc q := by
    intro q hq
    rw [hpc, update_of_ne hq]
  have hown : ∀ q (l : Loop), l.due t.pipe ∨ c.owes (t.procs p).killed l.chan q →
      l.due t.pipe ∨ ∃ h, (t.pc h).owes (t.procs h).killed l.chan q := by
    intro q l h
    obtain h | h := h
    · exact .inl h
    · exact .inr ⟨p, hself.symm ▸ h⟩
  constructor
  case waits =>
    intro q l hq
    obtain hq' | ⟨hd, -⟩ := hwait q l hq
    · obtain hd | ⟨h, ho⟩ := ha.waits q l hq'
      · exact hown q l (hdue q l hq hq' (.inl hd))
      · rcases eq_or_ne h p with rfl | hhp
        · exact hown q l (hdue q l hq hq' (.inr ho))
        · right
          refine ⟨h, ?_⟩
          rw [hne h hhp, hk h hhp]
          exact ho
    · exact .inl hd
  case body =>
    intro h n i q m hb hq
    rcases eq_or_ne h p with rfl | hhp
    · exact hbody n i q m (hself ▸ hb) hq
    · rw [hk h hhp]
      rw [hne h hhp] at hb
      obtain hq' | ⟨-, hd⟩ := hwait q _ hq
      · exact ha.body h n i q m hb hq'
      · have hf := hd h hhp
        rw [hb] at hf
        cases hf

theorem waiting_goto (hd : c.isDozing = false) (ha : c.isAsleep = false)
    (h : Waiting (s.goto p c) q l) : Waiting s q l := by
  rcases eq_or_ne q p with rfl | hne
  · unfold Waiting at h
    rw [goto_pc_self] at h
    obtain h | ⟨h, -⟩ := h
    · rw [h] at hd
      cases hd
    · rw [h] at ha
      cases ha
  · unfold Waiting at h
    rw [goto_pc_of_ne hne] at h
    exact h

theorem awake_of_holds {c : Pc} (h : c.holds = true) : c.isDozing = false ∧ c.isAsleep = false := by
  cases c with
  | dozing l => cases h
  | asleep l => cases h
  | _ => exact ⟨rfl, rfl⟩

theorem Alert.goto {t : Sys} (ha : Alert s) (hd : c.isDozing = false) (hsl : c.isAsleep = false)
    (hpc : t.pc = update s.pc p c) (hprocs : t.procs = s.procs)
    (hdue : ∀ q l, Waiting s q l →
      l.due s.pipe ∨ (s.pc p).owes (s.procs p).killed l.chan q →
      l.due t.pipe ∨ c.owes (s.procs p).killed l.chan q)
    (hbody : ∀ n i q m, c = .body n i → Waiting s q (.read m) →
      n ≤ i + 1 ∨ (s.procs p).killed = false) : Alert t := by
  have hw : ∀ q l, Waiting t q l → Waiting s q l := by
    intro q l h
    apply waiting_goto hd hsl (p := p)
    unfold Waiting at h ⊢
    rw [hpc, hprocs] at h
    exact h
  apply ha.move hpc
  case hk =>
    intro q _
    rw [hprocs]
  case hwait => exact fun q l h => .inl (hw q l h)
  case hdue =>
    intro q l _ h
    rw [hprocs]
    exact hdue q l h
  case hbody =>
    intro n i q m hc h
    rw [hprocs]
    exact hbody n i q m hc (hw q _ h)

theorem Alert.enter (ha : Alert s) (hpc : s.pc p = .enter l) :
    Alert ({ s with lock := some p }.goto p (.head l)) := by
  refine ha.goto rfl rfl rfl rfl ?hdue ?hbody
  case hdue =>
    intro q l h hd
    rw [hpc] at hd
    exact .inl (hd.resolve_right id)
  case hbody =>
    intro n i q m hc
    cases hc

theorem Alert.closing (ha : Alert s) (hpc : s.pc p = .closing w) :
    Alert ((closeEnd { s with lock := some p } w).goto p (.waking (.pipeclose w) 0 (.ret 0))) := by
  apply ha.goto (c := .waking (.pipeclose w) 0 (.ret 0)) (p := p) rfl rfl
  case hpc => cases w <;> rfl
  case hprocs => cases w <;> rfl
  case hdue =>
    intro q l h hd
    rw [hpc] at hd
    replace hd := hd.resolve_right id
    -- the side that is closed is woken, the other one still waits for the same thing
    cases l with
    | read n =>
      cases w with
      | true => exact .inr ⟨rfl, Nat.zero_le q⟩
      | false => exact .inl hd
    | write n i =>
      cases w with
      | true => exact .inl hd
      | false => exact .inr ⟨rfl, Nat.zero_le q⟩
  case hbody =>
    intro n i q m hc
    cases hc

theorem Alert.head (hs : Shape s) (ha : Alert s) (hpc : s.pc p = .head l) :
    Alert (s.goto p (headOf s l)) := by
  obtain ⟨h1, h2⟩ := awake_of_holds (headOf_holds s l)
  refine ha.goto h1 h2 rfl rfl ?hdue ?hbody
  case hdue =>
    intro q l' hq hd
    rw [hpc] at hd
    obtain hd | hd := hd
    · exact .inl hd
    cases l with
    | read n => exact hd.elim
    | write n i =>
      obtain ⟨hch, hk⟩ := hd
      right
      unfold headOf
      dsimp only
      split
      · next hi =>
        split
        · next hro =>
          -- a waiting reader keeps its end open
          cases l' with
          | write n' i' => cases hch
          | read n' =>
            have hopen := hs.readopen (hs.readers q hq.call)
            rw [hro] at hopen
            cases hopen
        · exact ⟨hch, hk.resolve_left (Int.not_le.mpr hi)⟩
      · exact ⟨hch, Nat.zero_le q⟩
  case hbody =>
    intro n i q m hc
    unfold headOf at hc
    split at hc
    · split at hc
      · split at hc <;> cases hc
      · cases hc
    · split at hc <;> cases hc

theorem Alert.test (ha : Alert s) (hpc : s.pc p = .test l) :
    Alert (s.goto p (testOf (s.procs p).killed l)) := by
  obtain ⟨h1, h2⟩ := awake_of_holds (testOf_holds (s.procs p).killed l)
  refine ha.goto h1 h2 rfl rfl ?hdue ?hbody
  case hdue =>
    intro q l' hq hd
    rw [hpc] at hd
    obtain hd | hd := hd
    · exact .inl hd
    · cases l with
      | read n => exact hd.elim
      | write n i =>
        obtain ⟨hch, hk⟩ := hd
        rw [hk]
        exact .inr ⟨hch, .inr rfl⟩
  case hbody =>
    intro n i q m hc _
    right
    cases hk : (s.procs p).killed with
    | false => rfl
    | true =>
      rw [hk] at hc
      cases l <;> cases hc

/-- The writer leaves its loop through wakeup(), to sleep or to return. -/
theorem Alert.wakes (ha : Alert s) (hpc : s.pc p = .body n i) (k : After) :
    Alert (s.goto p (.waking .pipewrite 0 k)) := by
  refine ha.goto rfl rfl rfl rfl ?hdue ?hbody
  case hdue =>
    intro q l hq hd
    rw [hpc] at hd
    obtain hd | hd := hd
    · exact .inl hd
    · exact .inr ⟨hd.1, Nat.zero_le q⟩
  case hbody =>
    intro n i q m hc
    cases hc

theorem Alert.stored (ha : Alert s) (hpc : s.pc p = .body n i)
    (hroom : s.pipe.nwrite ≠ s.pipe.nread + BitVec.ofNat 32 PIPESIZE) (ch : Byte) :
    Alert ((s.store ch).goto p (.head (.write n (i + 1)))) := by
  refine ha.goto rfl rfl rfl rfl ?hdue ?hbody
  case hdue =>
    intro q l hq hd
    rw [hpc] at hd
    cases l with
    | read m => exact .inr ⟨rfl, ha.body p n i q m hpc hq⟩
    | write m j =>
      obtain ⟨hfull, -⟩ | ⟨hch, -⟩ := hd
      · exact absurd hfull hroom
      · cases hch
  case hbody =>
    intro n i q m hc
    cases hc

theorem Alert.drained (ha : Alert s) (hpc : s.pc p = .copy n i) (v : Int) :
    Alert (s.goto p (.waking .piperead 0 (.ret v))) := by
  refine ha.goto rfl rfl rfl rfl ?hdue ?hbody
  case hdue =>
    intro q l hq hd
    rw [hpc] at hd
    obtain hd | hd := hd
    · exact .inl hd
    · exact .inr ⟨hd, Nat.zero_le q⟩
  case hbody =>
    intro n i q m hc
    cases hc

theorem Alert.removed (ha : Alert s) (hpc : s.pc p = .copy n i)
    (hsome : s.pipe.nread ≠ s.pipe.nwrite) (hd : c.isDozing = false) (hsl : c.isAsleep = false)
    (hc : ∀ q, c.owes (s.procs p).killed (.pipeNwrite 0) q) (hb : ∀ n i, c ≠ .body n i) :
    Alert (s.remove.goto p c) := by
  refine ha.goto hd hsl rfl rfl ?hdue ?hbody
  case hdue =>
    intro q l hq hd
    rw [hpc] at hd
    cases l with
    | write m j => exact .inr (hc q)
    | read m =>
      obtain ⟨hempty, -⟩ | hch := hd
      · exact absurd hempty hsome
      · cases hch
  case hbody =>
    intro n i q m hc
    exact absurd hc (hb n i)

/-- The wakeup() is over: it has passed every slot. -/
theorem Alert.woke (hs : Shape s) (ha : Alert s) (hpc : s.pc p = .waking c j k)
    (hj : NPROC ≤ j) (hd : c'.isDozing = false) (hsl : c'.isAsleep = false)
    (hb : ∀ n i, c' ≠ .body n i) : Alert (s.goto p c') := by
  refine ha.goto hd hsl rfl rfl ?hdue ?hbody
  case hdue =>
    intro q l hq hd
    rw [hpc] at hd
    obtain hd | ⟨-, hq'⟩ := hd
    · exact .inl hd
    · have hlt := hs.range q hq.not_user
      omega
  case hbody =>
    intro n i q m hc
    exact absurd hc (hb n i)

theorem Alert.leave (ha : Alert s) (hpc : s.pc p = .leave c v) :
    Alert ({ s with lock := none }.goto p (.user v)) := by
  refine ha.goto rfl rfl rfl rfl ?hdue ?hbody
  case hdue =>
    intro q l h hd
    rw [hpc] at hd
    exact .inl (hd.resolve_right id)
  case hbody =>
    intro n i q m hc
    cases hc

theorem Alert.waking (hs : Shape s) (ha : Alert s) (hpc : s.pc p = .waking c j k)
    (hdoze : (s.pc j).isDozing = false) :
    Alert ((s.wakeSlot p c.wakes j).goto p (.waking c (j + 1) k)) := by
  have hprocs : ∀ q, (s.wakeSlot p c.wakes j).procs q =
      if q = j ∧ j ≠ p then (s.procs q).wakeup c.wakes else s.procs q := by
    intro q
    unfold Sys.wakeSlot
    rcases eq_or_ne j p with rfl | hjp
    · rw [if_pos rfl, if_neg fun h => h.2 rfl]
    · rw [if_neg hjp]
      rcases eq_or_ne q j with rfl | hqj
      · rw [if_pos ⟨rfl, hjp⟩]
        exact update_self ..
      · rw [if_neg fun h => hqj h.1]
        exact update_of_ne hqj ..
  have hkilled : ∀ q, ((s.wakeSlot p c.wakes j).procs q).killed = (s.procs q).killed := by
    intro q
    rw [hprocs]
    unfold Proc.wakeup
    split
    · split <;> rfl
    · rfl
  have hwait : ∀ q l, Waiting ((s.wakeSlot p c.wakes j).goto p (.waking c (j + 1) k)) q l →
      Waiting s q l ∧ (q = j → l.chan ≠ c.wakes) := by
    intro q l h
    have h1 := waiting_goto rfl rfl h
    unfold Waiting at h1
    rw [wakeSlot_pc, hprocs] at h1
    obtain h1 | ⟨h1, h2⟩ := h1
    · refine ⟨.inl h1, ?_⟩
      intro hq
      rw [← hq, h1] at hdoze
      cases hdoze
    split at h2
    · have hw := Proc.wakeup_sleeping h2
      rw [hw.1] at h2
      refine ⟨.inr ⟨h1, h2⟩, ?_⟩
      intro _ hch
      exact hw.2 (hch ▸ hs.chan q l h1 h2) h2
    next hn =>
    refine ⟨.inr ⟨h1, h2⟩, ?_⟩
    intro hq _
    have hp : j = p := by
      by_contra hne
      exact hn ⟨hq, hne⟩
    rw [hq, hp, hpc] at h1
    cases h1
  apply ha.move (p := p) (c := .waking c (j + 1) k)
  case hpc =>
    rw [← wakeSlot_pc s p c.wakes j]
    rfl
  case hk => exact fun q _ => hkilled q
  case hwait => exact fun q l h => .inl (hwait q l h).1
  case hdue =>
    intro q l ht _ hd
    rw [hpc] at hd
    obtain hd | ⟨hch, hq⟩ := hd
    · left
      rw [show ((s.wakeSlot p c.wakes j).goto p (.waking c (j + 1) k)).pipe = s.pipe from
        wakeSlot_pipe ..]
      exact hd
    · right
      refine ⟨hch, ?_⟩
      have hne : q ≠ j := fun he => (hwait q l ht).2 he hch
      omega
  case hbody =>
    intro n i q m hc
    cases hc

/-- sleep() gives up the pipe's lock, with the pipe as the caller has found it. -/
theorem Alert.block (hs : Shape s) (ha : Alert s) (hpc : s.pc p = .block l) :
    Alert ({ s with lock := none }.goto p (.dozing l)) := by
  have hp : (s.pc p).holds = true := by
    rw [hpc]
    rfl
  have hfirm := hs.firm p
  rw [hpc] at hfirm
  refine ha.move rfl (fun _ _ => rfl) ?hwait ?hdue ?hbody
  case hwait =>
    intro q l' h
    unfold Waiting at h
    rcases eq_or_ne q p with rfl | hne
    · right
      rw [goto_pc_self] at h
      obtain h | ⟨h, -⟩ := h
      · cases h
        exact ⟨hfirm, fun h hh => hs.others hp hh⟩
      · cases h
    · left
      rw [goto_pc_of_ne hne] at h
      exact h
  case hdue =>
    intro q l' _ _ hd
    rw [hpc] at hd
    exact .inl (hd.resolve_right id)
  case hbody =>
    intro n i q m hc
    cases hc

/-- A process without the lock goes on inside sleep(), asleep only if it was waiting. -/
theorem Alert.inSleep (ha : Alert s) (hp : (s.pc p).holds = false) (hc : c.holds = false)
    (hw : ∀ l, Waiting ((s.put p r).goto p c) p l → Waiting s p l) :
    Alert ((s.put p r).goto p c) := by
  refine ha.move rfl ?hk ?hwait ?hdue ?hbody
  case hk =>
    intro q hq
    rw [show ((s.put p r).goto p c).procs q = s.procs q from update_of_ne hq ..]
  case hwait =>
    intro q l h
    left
    rcases eq_or_ne q p with rfl | hne
    · exact hw l h
    · unfold Waiting at h
      rw [show ((s.put p r).goto p c).procs q = s.procs q from put_procs_of_ne hne,
        goto_pc_of_ne hne] at h
      exact h
  case hdue =>
    intro q l _ _ hd
    obtain hd | ho := hd
    · exact .inl hd
    · rw [owes_holds ho] at hp
      cases hp
  case hbody =>
    intro n i q m hb
    rw [hb] at hc
    cases hc

theorem Alert.turn (hs : Shape s) (ha : Alert s) (h : Turn s p t) : Alert t := by
  cases h with
  | enter hpc hfree => exact ha.enter hpc
  | closing hpc hfree => exact ha.closing hpc
  | head hpc => exact Alert.head hs ha hpc
  | test hpc => exact ha.test hpc
  | full hpc hfull => exact ha.wakes hpc _
  | faulted hpc => exact ha.wakes hpc _
  | stored ch hpc hroom => exact ha.stored hpc hroom ch
  | drained hpc => exact ha.drained hpc _
  | removed c hpc hsome hc =>
    obtain rfl | rfl := hc
    · exact ha.removed hpc hsome rfl rfl (fun q => ⟨rfl, Nat.zero_le q⟩)
        (fun n i hb => by cases hb)
    · exact ha.removed hpc hsome rfl rfl (fun q => rfl) (fun n i hb => by cases hb)
  | waking hpc hj hdoze => exact Alert.waking hs ha hpc hdoze
  | blocked hpc hj => exact Alert.woke hs ha hpc hj rfl rfl (fun n i hb => by cases hb)
  | woke hpc hj => exact Alert.woke hs ha hpc hj rfl rfl (fun n i hb => by cases hb)
  | block hpc => exact Alert.block hs ha hpc
  | leave hpc => exact ha.leave hpc
  | @dozing l hpc =>
    apply ha.inSleep (by rw [hpc]; rfl) rfl
    intro l' h
    unfold Waiting at h
    rw [goto_pc_self] at h
    obtain h | ⟨h, -⟩ := h
    · cases h
    · cases h
      exact .inl hpc
  | @asleep l hpc =>
    apply ha.inSleep (by rw [hpc]; rfl) rfl
    intro l' h
    unfold Waiting at h
    rw [goto_pc_self] at h
    obtain h | ⟨h, -⟩ := h
    · cases h
    · cases h

theorem Alert.put (ha : Alert s)
    (hst : (s.pc p).isAsleep = true → r.state = .sleeping → (s.procs p).state = .sleeping)
    (hk : ∀ q l, Waiting s q l → (s.pc p).owes (s.procs p).killed l.chan q →
      l.due s.pipe ∨ (s.pc p).owes r.killed l.chan q)
    (hb : ∀ n i q m, s.pc p = .body n i → Waiting s q (.read m) →
      n ≤ i + 1 ∨ r.killed = false) : Alert (s.put p r) := by
  have hself : (s.put p r).procs p = r := put_procs_self
  have hne : ∀ q, q ≠ p → (s.put p r).procs q = s.procs q :=
    fun q hq => put_procs_of_ne hq
  have hw : ∀ q l, Waiting (s.put p r) q l → Waiting s q l := by
    intro q l h
    obtain h | ⟨h, h2⟩ := h
    · exact .inl h
    refine .inr ⟨h, ?_⟩
    rcases eq_or_ne q p with rfl | hqp
    · rw [hself] at h2
      refine hst ?_ h2
      rw [show s.pc q = .asleep l from h]
      rfl
    · rw [hne q hqp] at h2
      exact h2
  constructor
  case waits =>
    intro q l h
    obtain hd | ⟨x, ho⟩ := ha.waits q l (hw q l h)
    · exact .inl hd
    · rcases eq_or_ne x p with rfl | hxp
      · obtain hd | ho := hk q l (hw q l h) ho
        · exact .inl hd
        · exact .inr ⟨x, hself.symm ▸ ho⟩
      · exact .inr ⟨x, (hne x hxp).symm ▸ ho⟩
  case body =>
    intro x n i q m hx hq
    rcases eq_or_ne x p with rfl | hxp
    · rw [hself]
      exact hb n i q m hx (hw q _ hq)
    · rw [hne x hxp]
      exact ha.body x n i q m hx (hw q _ hq)

theorem Alert.setState (ha : Alert s) (hst : st ≠ .sleeping) : Alert (s.setState p st) :=
  ha.put (fun _ h => absurd h hst) (fun _ _ _ ho => .inr ho)
    (fun n i q m hb hq => ha.body p n i q m hb hq)

theorem Alert.kill (hs : Shape s) (ha : Alert s) (hg : Spared s (.kill p)) :
    Alert (s.put p (s.procs p).kill) := by
  have hcut : ∀ q m, Waiting s q (.read m) → ¬ (s.pc p).cut s.pipe :=
    fun q m hq => hg (hq.readerWaits hs)
  apply ha.put
  case hst =>
    intro _ h
    unfold Proc.kill at h
    dsimp only at h
    split at h
    · cases h
    · exact h
  case hk =>
    intro q l hq ho
    cases hpc : s.pc p with
    | head l' =>
      cases l' with
      | read n =>
        rw [hpc] at ho
        exact ho.elim
      | write n i =>
        rw [hpc] at ho
        cases l with
        | write m j => cases ho.1
        | read m =>
          rcases Int.lt_or_le (i : Int) n with hlt | hle
          · have hne := hcut q m hq
            rw [hpc] at hne
            have he : s.pipe.nread = s.pipe.nwrite := by
              by_contra h
              exact hne ⟨hlt, h⟩
            exact .inl ⟨he, hs.writeopen (hs.writers p (by rw [hpc]; rfl))⟩
          · exact .inr ⟨rfl, .inl hle⟩
    | test l' =>
      cases l' with
      | read n =>
        rw [hpc] at ho
        exact ho.elim
      | write n i =>
        rw [hpc] at ho
        cases l with
        | write m j => cases ho.1
        | read m =>
          have hne := hcut q m hq
          rw [hpc] at hne
          have he : s.pipe.nread = s.pipe.nwrite := by
            by_contra h
            exact hne h
          exact .inl ⟨he, hs.writeopen (hs.writers p (by rw [hpc]; rfl))⟩
    | body n i =>
      rw [hpc] at ho
      cases l with
      | write m j => cases ho.1
      | read m =>
        have hne := hcut q m hq
        rw [hpc] at hne
        exact .inr ⟨rfl, .inl (Int.not_lt.mp hne)⟩
    | copy n i =>
      rw [hpc] at ho
      exact .inr ho
    | waking c j k =>
      rw [hpc] at ho
      exact .inr ho
    | _ =>
      rw [hpc] at ho
      exact ho.elim
  case hb =>
    intro n i q m hpc hq
    have hne := hcut q m hq
    rw [hpc] at hne
    exact .inl (Int.not_lt.mp hne)

theorem Alert.begins {t : Sys} (ha : Alert s) (hu : (s.pc p).isUser = true)
    (hd : c.isDozing = false) (hsl : c.isAsleep = false) (hc : c.holds = false)
    (hpc : t.pc = update s.pc p c) (hprocs : t.procs = s.procs)
    (hpipe : t.pipe = s.pipe) : Alert t := by
  refine ha.goto hd hsl hpc hprocs ?hdue ?hbody
  case hdue =>
    intro q l _ hd
    rw [hpipe]
    obtain hd | ho := hd
    · exact .inl hd
    · cases hp : s.pc p with
      | user v =>
        rw [hp] at ho
        exact ho.elim
      | _ =>
        rw [hp] at hu
        cases hu
  case hbody =>
    intro n i q m hb
    rw [hb] at hc
    cases hc

theorem alert_step (hs : Shape s) (ha : Alert s) (hg : Spared s a) (h : Moves s a t) :
    Alert t := by
  cases h with
  | turn hrun h => exact Alert.turn hs ha h
  | sched p hst => exact ha.setState (by decide)
  | yield p hrun hpc => exact ha.setState (by decide)
  | kill i hpc => exact Alert.kill hs ha hg
  | elsewhere p r hpc =>
    have hno : (s.pc p).isAsleep = false ∧ (s.pc p).holds = false := by
      cases hp : s.pc p with
      | user v => exact ⟨rfl, rfl⟩
      | _ =>
        rw [hp] at hpc
        cases hpc
    apply ha.put
    case hst =>
      rw [hno.1]
      intro h
      cases h
    case hk =>
      intro q l _ ho
      rw [owes_holds ho] at hno
      cases hno.2
    case hb =>
      intro n i q m hb
      rw [hb] at hno
      cases hno.2
  | write p n hp href => exact ha.begins hp.2.2 rfl rfl rfl rfl rfl rfl
  | read p n hp href => exact ha.begins hp.2.2 rfl rfl rfl rfl rfl rfl
  | closeWrite p hp hidle href => exact ha.begins hp.2.2 rfl rfl rfl rfl rfl rfl
  | closeRead p hp hidle href => exact ha.begins hp.2.2 rfl rfl rfl rfl rfl rfl

theorem alert_start (procs : Table) (data : Nat → Byte) : Alert (start procs data) where
  waits := by
    intro p l h
    obtain h | ⟨h, -⟩ := h <;> cases h
  body := by
    intro h n i q m hb
    cases hb

theorem Alert.noneLost (hs : Shape s) (ha : Alert s) : NoneLost s := by
  intro hfree p l hpc hst
  obtain hd | ⟨h, ho⟩ := ha.waits p l (.inr ⟨hpc, hst⟩)
  · exact hd
  · have hh := hs.nobody hfree h
    rw [owes_holds ho] at hh
    cases hh

/-- No wakeup is lost on a pipe as long as no kill() reaches a writer in its copy loop that
has readers asleep. -/
theorem no_wakeup_lost {procs : Table} {data : Nat → Byte}
    (hg : Along step Spared (start procs data) as)
    (h : run step (start procs data) as = some s) : NoneLost s := by
  have hinv : Shape s ∧ Alert s := by
    apply along_invariant (I := fun s => Shape s ∧ Alert s) ?_
      ⟨shape_start procs data, alert_start procs data⟩ hg h
    intro s a t ⟨hs, ha⟩ hg hst
    have hm := step_moves hst
    exact ⟨shape_step hs hm, alert_step hs ha hg hm⟩
  exact hinv.2.noneLost hinv.1

/-- A reader goes to sleep on the empty pipe, a writer stores the first of its bytes. -/
def firstByte : List Act :=
  [.read 1 1, .go 1 none, .go 1 none, .go 1 none, .go 1 none, .go 1 none,
    .write 2 2, .go 2 none, .go 2 none, .go 2 none, .go 2 (some 7)]

/-- The writer is killed there, and returns. -/
def killedWriter : List Act := firstByte ++ [.kill 2, .go 2 none, .go 2 none, .go 2 none]

theorem killed_writer_leaves_reader_asleep :
    ∃ s, run step (start (fun _ => { state := .running }) (fun _ => 5)) killedWriter = some s ∧
      s.lock = none ∧ s.pc 1 = .asleep (.read 1) ∧ (s.procs 1).state = .sleeping ∧
      s.stored = [7] ∧ s.removed = [] ∧ ¬ NoneLost s := by
  obtain ⟨s, hs, hlock, hpc, hst, h1, h2, hnot⟩ : ∃ s,
      run step (start (fun _ => { state := .running }) (fun _ => 5)) killedWriter = some s ∧
      s.lock = none ∧ s.pc 1 = .asleep (.read 1) ∧ (s.procs 1).state = .sleeping ∧
      s.stored = [7] ∧ s.removed = [] ∧ ¬ (Loop.read 1).due s.pipe := by
    decide +kernel
  exact ⟨s, hs, hlock, hpc, hst, h1, h2, fun hn => hnot (hn hlock 1 _ hpc hst)⟩

/-- The same without the kill(): the writer goes on to wake the reader. -/
def wakingWriter : List Act :=
  firstByte ++ [.go 2 none, .go 2 none, .go 2 (some 8)] ++ List.replicate 67 (.go 2 none)

theorem no_wakeup_lost_two_bytes :
    ∃ s, run step (start (fun _ => { state := .running }) (fun _ => 5)) wakingWriter = some s ∧
      s.stored = [7, 8] ∧ (s.procs 1).state = .runnable ∧ NoneLost s := by
  obtain ⟨s, hs, h1, h2⟩ : ∃ s, run step (start (fun _ => { state := .running }) (fun _ => 5))
      wakingWriter = some s ∧ s.stored = [7, 8] ∧ (s.procs 1).state = .runnable := by decide +kernel
  have hg : Along step Spared (start (fun _ => { state := .running }) (fun _ => 5))
      wakingWriter := by decide +kernel
  exact ⟨s, hs, h1, h2, no_wakeup_lost hg hs⟩

end Xv6.Pipe
