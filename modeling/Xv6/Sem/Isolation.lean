import Xv6.Sem.Model

namespace Xv6.Sem

open List

inductive Op where
  | init (value : BitVec 32)
  | wait
  | post
  | destroy
  deriving DecidableEq

/-- A system call on the semaphore at a user address. -/
structure Call where
  proc : Nat
  addr : Nat
  op : Op
  deriving DecidableEq

/-- Whether copyin() and copyout() of a struct semaphore succeed. -/
structure Pages where
  readable : Nat → Nat → Bool
  writable : Nat → Nat → Bool

/-- What the caller sees. A process asleep in sem_wait() makes no call. -/
inductive Outcome where
  | absent
  | returns (v : Int)
  | blocks
  | panics
  deriving DecidableEq

structure Calls where
  sem : Semaphore
  asleep : Nat → Bool
  panicked : Bool

def boot : Calls := ⟨zeroed, fun _ => false, false⟩

/-- The struct that was copied in goes back to the user unchanged. -/
def copyBack (pg : Pages) (c : Call) : Outcome :=
  .returns (if pg.writable c.proc c.addr then 0 else -1)

def Calls.wakeup (s : Calls) : Option Nat → Calls
  | some q => { s with asleep := Function.update s.asleep q false }
  | none => s

/-- sys_sem_init, sys_sem_wait, sys_sem_post and sys_sem_destroy. The last one calls copyout()
with the length sizeof(ksem)<0, that is 0, which always succeeds. -/
def call (pg : Pages) (s : Calls) (c : Call) : Calls × Outcome :=
  if s.panicked || s.asleep c.proc then (s, .absent)
  else if !pg.readable c.proc c.addr then (s, .returns (-1))
  else
    match c.op with
    | .init value => ({ s with sem := semInit s.sem value }, copyBack pg c)
    | .wait =>
      match semWait s.sem c.proc with
      | (m, true) => ({ s with sem := m, asleep := Function.update s.asleep c.proc true }, .blocks)
      | (m, false) => ({ s with sem := m }, copyBack pg c)
    | .post =>
      match semPost s.sem with
      | (m, q) => ({ s with sem := m }.wakeup q, copyBack pg c)
    | .destroy =>
      match semDestroy s.sem with
      | some m => ({ s with sem := m }, .returns 0)
      | none => ({ s with panicked := true }, .panics)

/-- What the callers on the semaphore at a see in a sequence of calls. -/
def outcomes (pg : Pages) (a : Nat) : Calls → List Call → List Outcome
  | _, [] => []
  | s, c :: cs =>
    let (t, o) := call pg s c
    if c.addr = a then o :: outcomes pg a t cs else outcomes pg a t cs

/-- Every caller is awake when its call comes. -/
def executes (pg : Pages) : Calls → List Call → Bool
  | _, [] => true
  | s, c :: cs => !(s.panicked || s.asleep c.proc) && executes pg (call pg s c).1 cs

/-- In every sequence that can be executed and whose calls on b are bs, the callers on a see
what they see without these calls. -/
def Isolated (pg : Pages) (a b : Nat) (bs : List Call) : Prop :=
  ∀ cs, cs.filter (·.addr = b) = bs → executes pg boot cs = true →
    outcomes pg a boot cs = outcomes pg a boot (cs.filter (·.addr ≠ b))

theorem call_refused (hr : pg.readable c.proc c.addr = false) (s : Calls) :
    (call pg s c).1 = s := by
  unfold call
  split
  · rfl
  · simp [hr]

/-- Calls that copyin() refuses are not seen by anyone. -/
theorem outcomes_refused (hab : a ≠ b)
    (hr : ∀ c ∈ cs, c.addr = b → pg.readable c.proc b = false) (s : Calls) :
    outcomes pg a s cs = outcomes pg a s (cs.filter (·.addr ≠ b)) := by
  induction cs generalizing s with
  | nil => rfl
  | cons c cs ih =>
    have ih' := ih (fun d hd => hr d (mem_cons_of_mem c hd))
    by_cases hb : c.addr = b
    · have hread : pg.readable c.proc c.addr = false := by
        rw [hb]
        exact hr c mem_cons_self hb
      have hne : ¬ b = a := fun he => hab he.symm
      simp only [outcomes, hb, hne, ↓reduceIte, call_refused hread, ih', ne_eq, not_true_eq_false,
        decide_false, filter_cons, Bool.false_eq_true]
    · simp only [outcomes, ih', filter_cons, ne_eq, hb, not_false_eq_true, decide_true,
        ↓reduceIte]

/-- The state after a sequence of calls. -/
def after (pg : Pages) (s : Calls) (cs : List Call) : Calls :=
  cs.foldl (fun s c => (call pg s c).1) s

theorem outcomes_append (s : Calls) (cs ds : List Call) :
    outcomes pg a s (cs ++ ds) = outcomes pg a s cs ++ outcomes pg a (after pg s cs) ds := by
  induction cs generalizing s with
  | nil => rfl
  | cons c cs ih =>
    rw [cons_append]
    simp only [outcomes, ih]
    split
    · rfl
    · rfl

theorem executes_append (s : Calls) (cs ds : List Call) :
    executes pg s (cs ++ ds) = (executes pg s cs && executes pg (after pg s cs) ds) := by
  induction cs generalizing s with
  | nil => rfl
  | cons c cs ih =>
    rw [cons_append]
    simp only [executes, ih, Bool.and_assoc]
    rfl

theorem after_append (s : Calls) (cs ds : List Call) :
    after pg s (cs ++ ds) = after pg (after pg s cs) ds := foldl_append

theorem after_refused (h : ∀ c ∈ cs, pg.readable c.proc c.addr = false) (s : Calls) :
    after pg s cs = s := by
  induction cs generalizing s with
  | nil => rfl
  | cons c cs ih =>
    change after pg (call pg s c).1 cs = s
    rw [call_refused (h c mem_cons_self)]
    exact ih (fun d hd => h d (mem_cons_of_mem c hd)) s

structure Calls.Awake (s : Calls) : Prop where
  running : s.panicked = false
  awake : ∀ q, s.asleep q = false

theorem Calls.Awake.executes_refused (hs : s.Awake)
    (h : ∀ c ∈ cs, pg.readable c.proc c.addr = false) : executes pg s cs = true := by
  induction cs with
  | nil => rfl
  | cons c cs ih =>
    simp only [executes, call_refused (h c mem_cons_self), hs.running, hs.awake c.proc,
      Bool.or_self, Bool.not_false, Bool.true_and]
    exact ih (fun d hd => h d (mem_cons_of_mem c hd))

/-- A process that is awake blocks in sem_wait() by the value alone. -/
theorem call_wait (hr : pg.readable q a = true) (hs : s.Awake) :
    (call pg s ⟨q, a, .wait⟩).2 =
      if (s.sem.value - 1).toInt < 0 then .blocks else copyBack pg ⟨q, a, .wait⟩ := by
  by_cases hv : (s.sem.value - 1).toInt < 0
  · simp only [call, hr, hs.running, hs.awake q, semWait, if_pos hv, Bool.or_self,
      Bool.false_eq_true, ↓reduceIte, Bool.not_true]
  · simp only [call, hr, hs.running, hs.awake q, semWait, if_neg hv, Bool.or_self,
      Bool.false_eq_true, ↓reduceIte, Bool.not_true]

/-- A value for which the call decides whether the next sem_wait() blocks. -/
def Op.probe : Op → BitVec 32
  | .init value => if (value - 1).toInt < 0 then 1 else 0
  | .wait | .destroy => 1
  | .post => 0

/-- What sem_init() leaves, whoever calls it. -/
structure Calls.Fresh (s : Calls) (w : BitVec 32) : Prop extends s.Awake where
  value : s.sem.value = w
  empty : s.sem.head = s.sem.tail

theorem call_init (hs : s.Awake) (hr : pg.readable q a = true) (w : BitVec 32) :
    (call pg s ⟨q, a, .init w⟩).1.Fresh w := by
  have hc : (call pg s ⟨q, a, .init w⟩).1 = { s with sem := semInit s.sem w } := by
    simp [call, hs.running, hs.awake q, hr]
  rw [hc]
  exact ⟨⟨hs.running, hs.awake⟩, rfl, rfl⟩

/-- After its probe value a call leaves everybody awake, and it turns the next sem_wait() from
one that passes into one that blocks, or the other way round. -/
theorem call_probe (hs : s.Fresh c.op.probe) (hr : pg.readable c.proc c.addr = true) :
    (call pg s c).1.Awake ∧
    (((call pg s c).1.sem.value - 1).toInt < 0 ↔ ¬ (c.op.probe - 1).toInt < 0) := by
  obtain ⟨p, a, op⟩ := c
  have hr' : pg.readable p a = true := hr
  cases op with
  | init value =>
    have hi := call_init hs.toAwake hr' value
    refine ⟨hi.toAwake, ?_⟩
    rw [hi.value]
    by_cases hn : (value - 1).toInt < 0
    · simp only [Op.probe, hn, ↓reduceIte, true_iff]
      decide
    · simp only [Op.probe, hn, ↓reduceIte, false_iff, not_not]
      decide
  | wait =>
    have hw : semWait s.sem p = ({ s.sem with value := 0 }, false) := by
      have hv : s.sem.value = 1 := hs.value
      simp [semWait, hv]
    have hc : (call pg s ⟨p, a, .wait⟩).1 = { s with sem := { s.sem with value := 0 } } := by
      simp [call, hs.running, hs.awake p, hr', hw]
    rw [hc]
    refine ⟨⟨hs.running, hs.awake⟩, ?_⟩
    change ((0 : BitVec 32) - 1).toInt < 0 ↔ ¬ ((1 : BitVec 32) - 1).toInt < 0
    decide
  | post =>
    have hw : semPost s.sem = ({ s.sem with value := 1 }, none) := by
      have hv : s.sem.value = 0 := hs.value
      simp [semPost, hv]
    have hc : (call pg s ⟨p, a, .post⟩).1 = { s with sem := { s.sem with value := 1 } } := by
      simp [call, hs.running, hs.awake p, hr', hw, Calls.wakeup]
    rw [hc]
    refine ⟨⟨hs.running, hs.awake⟩, ?_⟩
    change ((1 : BitVec 32) - 1).toInt < 0 ↔ ¬ ((0 : BitVec 32) - 1).toInt < 0
    decide
  | destroy =>
    have hc : (call pg s ⟨p, a, .destroy⟩).1 =
        { s with sem := { s.sem with value := 0, queue := fun _ => none } } := by
      simp [call, hs.running, hs.awake p, hr', semDestroy, hs.empty]
    rw [hc]
    refine ⟨⟨hs.running, hs.awake⟩, ?_⟩
    change ((0 : BitVec 32) - 1).toInt < 0 ↔ ¬ ((1 : BitVec 32) - 1).toInt < 0
    decide

theorem call_awake (hs : s.Fresh c.op.probe) : (call pg s c).1.Awake := by
  cases hr : pg.readable c.proc c.addr with
  | false =>
    rw [call_refused hr]
    exact hs.toAwake
  | true => exact (call_probe hs hr).1

/-- q sets the semaphore at a to the probe value of c. -/
def setup (q a : Nat) (c : Call) : Call := ⟨q, a, .init c.op.probe⟩

def primed (q a : Nat) (cs : List Call) : List Call := cs.flatMap (fun c => [setup q a c, c])

theorem setup_fresh (hq : pg.readable q a = true) (hs : s.Awake) (c : Call) :
    (call pg s (setup q a c)).1.Fresh c.op.probe := call_init hs hq c.op.probe

theorem primed_awake (hq : pg.readable q a = true) (hs : s.Awake) (cs : List Call) :
    (after pg s (primed q a cs)).Awake ∧ executes pg s (primed q a cs) = true := by
  induction cs generalizing s with
  | nil => exact ⟨hs, rfl⟩
  | cons c cs ih =>
    have hi := setup_fresh hq hs c
    obtain ⟨ha, he⟩ := ih (call_awake hi)
    refine ⟨ha, ?_⟩
    change executes pg s (setup q a c :: c :: primed q a cs) = true
    simp only [executes, hs.running, hs.awake, hi.running, hi.awake c.proc, Bool.or_self,
      Bool.not_false, Bool.true_and]
    exact he

theorem setups_awake (hq : pg.readable q a = true) (hs : s.Awake) (cs : List Call) :
    (after pg s (cs.map (setup q a))).Awake := by
  induction cs generalizing s with
  | nil => exact hs
  | cons c cs ih => exact ih (setup_fresh hq hs c).toAwake

theorem primed_filter (hab : a ≠ b) {cs : List Call} (hcs : ∀ c ∈ cs, c.addr = b) (q : Nat) :
    (primed q a cs).filter (·.addr = b) = cs ∧
    (primed q a cs).filter (·.addr ≠ b) = cs.map (setup q a) := by
  induction cs with
  | nil => exact ⟨rfl, rfl⟩
  | cons c cs ih =>
    obtain ⟨hb, ha⟩ := ih (fun d hd => hcs d (mem_cons_of_mem c hd))
    have hc := hcs c mem_cons_self
    constructor
    · change (setup q a c :: c :: primed q a cs).filter (·.addr = b) = c :: cs
      simpa [filter_cons, setup, hab, hc] using hb
    · change (setup q a c :: c :: primed q a cs).filter (·.addr ≠ b) = _
      simpa [filter_cons, setup, hab, hc] using ha

theorem filter_all {cs : List Call} (h : ∀ c ∈ cs, c.addr = b) :
    cs.filter (·.addr = b) = cs ∧ cs.filter (·.addr ≠ b) = [] := by
  refine ⟨filter_eq_self.mpr (fun c hc => ?_), filter_eq_nil_iff.mpr (fun c hc => ?_)⟩
  · simpa using h c hc
  · simpa using h c hc

theorem boot_awake : boot.Awake := ⟨rfl, fun _ => rfl⟩

/-- The value a sem_wait() finds after the probe and the call, and after the probe alone. -/
theorem wait_differs (hq : pg.readable q a = true) (hr : pg.readable c.proc c.addr = true)
    (xs : List Call) :
    (call pg (after pg boot (primed q a (xs ++ [c]))) ⟨q, a, .wait⟩).2 ≠
      (call pg (after pg boot ((xs ++ [c]).map (setup q a))) ⟨q, a, .wait⟩).2 := by
  have hfull := setup_fresh hq (primed_awake hq boot_awake xs).1 c
  have hless := setup_fresh hq (setups_awake hq boot_awake xs) c
  obtain ⟨hawake, hflip⟩ := call_probe hfull hr
  have hprimed : after pg boot (primed q a (xs ++ [c])) =
      (call pg (call pg (after pg boot (primed q a xs)) (setup q a c)).1 c).1 := by
    rw [primed, flatMap_append, after_append]
    rfl
  have hsetups : after pg boot ((xs ++ [c]).map (setup q a)) =
      (call pg (after pg boot (xs.map (setup q a))) (setup q a c)).1 := by
    rw [map_append, after_append]
    rfl
  rw [hprimed, hsetups]
  intro he
  have hw := (call_wait hq hawake).symm.trans (he.trans (call_wait hq hless.toAwake))
  rw [hless.value] at hw
  by_cases hn : (c.op.probe - 1).toInt < 0
  · rw [if_neg (fun hlt => hflip.mp hlt hn), if_pos hn] at hw
    simp [copyBack] at hw
  · rw [if_pos (hflip.mpr hn), if_neg hn] at hw
    simp [copyBack] at hw

/-- The last call on b that copyin() lets through decides whether a sem_wait() on a after it
blocks. -/
theorem not_isolated (hab : a ≠ b) (hq : pg.readable q a = true)
    (hxs : ∀ d ∈ xs, d.addr = b) (hc : c.addr = b) (hr : pg.readable c.proc b = true)
    (hys : ∀ d ∈ ys, d.addr = b) (href : ∀ d ∈ ys, pg.readable d.proc b = false) :
    ¬ Isolated pg a b (xs ++ c :: ys) := by
  intro h
  have hxc : ∀ d ∈ xs ++ [c], d.addr = b := by
    intro d hd
    rcases mem_append.mp hd with hd | hd
    · exact hxs d hd
    · rw [mem_singleton.mp hd, hc]
  have hrefused : ∀ d ∈ ys, pg.readable d.proc d.addr = false := by
    intro d hd
    rw [hys d hd]
    exact href d hd
  obtain ⟨hpb, hpa⟩ := primed_filter hab hxc q
  obtain ⟨hyb, hya⟩ := filter_all hys
  obtain ⟨hawake, hexec⟩ := primed_awake hq boot_awake (xs ++ [c])
  have hafter : after pg boot (primed q a (xs ++ [c]) ++ ys) =
      after pg boot (primed q a (xs ++ [c])) := by
    rw [after_append, after_refused hrefused]
  have hrun : executes pg boot (primed q a (xs ++ [c]) ++ ys ++ [⟨q, a, .wait⟩]) = true := by
    rw [executes_append, executes_append, hexec, hawake.executes_refused hrefused, hafter]
    simp [executes, hawake.running, hawake.awake q]
  have hkeep : (primed q a (xs ++ [c]) ++ ys ++ [Call.mk q a .wait]).filter (·.addr ≠ b) =
      (xs ++ [c]).map (setup q a) ++ [⟨q, a, .wait⟩] := by
    rw [filter_append, filter_append, hpa, hya]
    simp [hab]
  have hcs := h _ (by simp [filter_append, hpb, hyb, hab]) hrun
  rw [hkeep, outcomes_append boot (primed q a (xs ++ [c]) ++ ys), hafter,
    outcomes_append boot ((xs ++ [c]).map (setup q a))] at hcs
  have hlast := append_inj_right' hcs (by simp [outcomes])
  simp only [outcomes, ↓reduceIte, List.cons.injEq, and_true] at hlast
  exact wait_differs hq (by rw [hc]; exact hr) xs hlast

/-- Calls on b leave the semaphore at a alone exactly when copyin() refuses all of them. -/
theorem isolated_iff (hab : a ≠ b) (hq : pg.readable q a = true) (hbs : ∀ c ∈ bs, c.addr = b) :
    Isolated pg a b bs ↔ ∀ c ∈ bs, pg.readable c.proc b = false := by
  constructor
  · intro h
    cases hf : bs.reverse.find? (fun c => pg.readable c.proc b) with
    | none =>
      intro c hc
      simpa using List.find?_eq_none.mp hf c (mem_reverse.mpr hc)
    | some c =>
      obtain ⟨hr, ys, xs, hrev, hys⟩ := List.find?_eq_some_iff_append.mp hf
      have hsplit : bs = xs.reverse ++ c :: ys.reverse := by
        rw [← reverse_reverse bs, hrev]
        simp
      subst hsplit
      refine absurd h (not_isolated hab hq (fun d hd => hbs d (mem_append_left _ hd))
        (hbs c (by simp)) hr (fun d hd => hbs d (by simp_all)) (fun d hd => ?_))
      simpa using hys d (mem_reverse.mp hd)
  · intro hr cs hcs _
    refine outcomes_refused hab (fun c hc hb => hr c ?_) boot
    rw [← hcs]
    exact mem_filter.mpr ⟨hc, by simpa using hb⟩

/-- Address 2 is not mapped and all others are. -/
def unmappedTwo : Pages := ⟨fun _ addr => addr ≠ 2, fun _ addr => addr ≠ 2⟩

theorem isolated_iff_unmapped : Isolated unmappedTwo 1 2 [⟨0, 2, .post⟩] := by
  refine (isolated_iff (q := 0) (by decide) rfl ?_).mpr ?_
  · simp
  · simp [unmappedTwo]

/-- A semaphore of value 1 at address 100, and a sem_init(0) of another one before the wait. -/
def twoSemaphores : List Call := [⟨0, 100, .init 1⟩, ⟨0, 200, .init 0⟩, ⟨0, 100, .wait⟩]

def allMapped : Pages := ⟨fun _ _ => true, fun _ _ => true⟩

theorem second_init_blocks_first :
    executes allMapped boot twoSemaphores = true ∧
    outcomes allMapped 100 boot twoSemaphores = [.returns 0, .blocks] ∧
    outcomes allMapped 100 boot (twoSemaphores.filter (·.addr ≠ 200)) =
      [.returns 0, .returns 0] := by
  decide

end Xv6.Sem
