import Xv6.Lib.Run
import Xv6.Proc.Loops

namespace Xv6.Loops
open Function Lib

/-- Where the process in slot p is. From head to block it holds the lock of its loop, which
kill() does not take. -/
inductive Pt where
  | user
  | trapped (c : Call)
  | enter (c : Call)
  | head (l : Loop)
  | test (l : Loop)
  | body (l : Loop)
  | block (l : Loop)
  | asleep (l : Loop)
  | woken (l : Loop)
  | recheck (l : Loop)
  | returned (v : Int)
  | exiting

structure Sys where
  world : World
  pt : Pt

/-- One section of the process, a call of kill() or wakeup() by another one, a turn of the
scheduler, or anything else that happens in the kernel. -/
inductive Act where
  | trap (c : Call)
  | go
  | kill (pid : Int)
  | wakeup (c : Chan)
  | sched
  | yield
  | interfere (w : World)

def Next.sys (s : Sys) (l : Loop) : Next → Sys
  | .ret w v => ⟨w, .returned v⟩
  | .test => ⟨s.world, .test l⟩
  | .block w => ⟨w, .block l⟩
  | .again w l' => ⟨w, .head l'⟩

def Sys.setProc (s : Sys) (p : Nat) (r : Proc) (pt : Pt) : Sys :=
  ⟨{ s.world with procs := update s.world.procs p r }, pt⟩

/-- The next section of the running process. A trap ends with the tests of killed() in
usertrap(), before the call and after it. -/
def go (p : Nat) (s : Sys) : Option Sys :=
  let me := s.world.procs p
  match s.pt with
  | .user | .exiting => none
  | .trapped c => some { s with pt := if me.killed then .exiting else .enter c }
  | .enter c => some { s with pt := .head (c.loop s.world) }
  | .head l => some ((l.head p s.world).sys s l)
  | .test l => some { s with pt := if me.killed then .returned (-1) else .body l }
  | .body l => some ((l.body p s.world).sys s l)
  | .block l => some (s.setProc p (me.sleep (l.chan p)) (.asleep l))
  | .asleep l => some (s.setProc p { me with chan := none } (.woken l))
  | .woken l =>
    match l with
    | .waitpid .. => some { s with pt := .recheck l }
    | _ => some { s with pt := .head l }
  | .recheck l => some { s with pt := if me.killed then .returned (-1) else .head l }
  | .returned _ => some { s with pt := if me.killed then .exiting else .user }

/-- Interrupts are on, so that a timer tick can take the cpu away. -/
def Pt.preemptible : Pt → Bool
  | .user | .enter _ | .woken _ => true
  | _ => false

/-- The rest of the kernel leaves the process's own fields alone. -/
def Spares (p : Nat) (w w' : World) : Prop :=
  (w'.procs p).state = (w.procs p).state ∧ (w'.procs p).chan = (w.procs p).chan ∧
    (w'.procs p).killed = (w.procs p).killed

instance (p : Nat) (w w' : World) : Decidable (Spares p w w') :=
  inferInstanceAs (Decidable (_ ∧ _ ∧ _))

/-- What wait_lock guards of a slot: whether it is a child of p, with its pid and whether it has
exited. -/
def childOf (p : Nat) (r : Proc) : Option (Int × Bool) :=
  if r.parent = some p then some (r.pid, r.state = .zombie) else none

/-- Others leave alone what the lock of the loop guards: wait_lock, pi->lock, cons.lock or
tickslock. -/
def Loop.Kept (p : Nat) (w w' : World) : Loop → Prop
  | .wait _ | .waitpid .. => ∀ i < NPROC, childOf p (w'.procs i) = childOf p (w.procs i)
  | .piperead pi .. | .pipewrite pi .. =>
    (w'.pipe pi).nread = (w.pipe pi).nread ∧ (w'.pipe pi).nwrite = (w.pipe pi).nwrite ∧
      (w'.pipe pi).readopen = (w.pipe pi).readopen ∧
      (w'.pipe pi).writeopen = (w.pipe pi).writeopen ∧
      ∀ i < PIPESIZE, (w'.pipe pi).data i = (w.pipe pi).data i
  | .consoleread .. => w'.cons.r = w.cons.r ∧ w'.cons.w = w.cons.w ∧
      ∀ i < INPUT_BUF_SIZE, w'.cons.buf i = w.cons.buf i
  | .sleep .. => w'.ticks = w.ticks

instance (p : Nat) (w w' : World) (l : Loop) : Decidable (l.Kept p w w') :=
  match l with
  | .wait _ | .waitpid .. => inferInstanceAs (Decidable (∀ i < NPROC, _))
  | .piperead .. | .pipewrite .. => inferInstanceAs (Decidable (_ ∧ _ ∧ _ ∧ _ ∧ _))
  | .consoleread .. => inferInstanceAs (Decidable (_ ∧ _ ∧ _))
  | .sleep .. => inferInstanceAs (Decidable (_ = _))

/-- The loop whose lock the process holds. -/
def Pt.locked : Pt → Option Loop
  | .head l | .test l | .body l | .block l | .recheck l => some l
  | _ => none

def step (p : Nat) (s : Sys) : Act → Option Sys
  | .trap c =>
    match s.pt with
    | .user => if (s.world.procs p).state = .running then some { s with pt := .trapped c } else none
    | _ => none
  | .go => if (s.world.procs p).state = .running then go p s else none
  | .kill pid => some { s with world.procs := (s.world.procs.kill pid).1 }
  | .wakeup c => some { s with world.procs := s.world.procs.wakeup c none }
  | .sched =>
    let me := s.world.procs p
    if me.state = .runnable then some (s.setProc p { me with state := .running } s.pt) else none
  | .yield =>
    let me := s.world.procs p
    if me.state = .running ∧ s.pt.preemptible = true then
      some (s.setProc p { me with state := .runnable } s.pt)
    else none
  | .interfere w =>
    if Spares p s.world w ∧ ∀ l ∈ s.pt.locked, l.Kept p s.world w then some { s with world := w }
    else none

/-- The process has made its last test of p->killed and goes on to sleep(), in pipewrite() only
if the pipe is full. A blocking waitpid() makes no test after the one in usertrap(), or the one
after a sleep. With wait_lock held the table says whether it sleeps, before that it is open. -/
def Sys.committed (p : Nat) (s : Sys) : Bool :=
  match s.pt with
  | .block _ => true
  | .body (.pipewrite pi ..) =>
    (s.world.pipe pi).nwrite = (s.world.pipe pi).nread + BitVec.ofNat 32 PIPESIZE
  | .body _ => true
  | .head (.waitpid pid addr options) =>
    Wait.waitpid (s.world.mem.takes 4) s.world.procs p pid addr options = .sleeps
  | .enter (.waitpid _ _ options) => options = 0
  | _ => false

/-- No kill() finds the process between that test and sleep(). -/
def Unhurried (p : Nat) (s : Sys) : Act → Prop
  | .kill pid => s.world.procs.killTarget pid = some p → s.committed p = false
  | _ => True

instance (p : Nat) (s : Sys) (a : Act) : Decidable (Unhurried p s a) :=
  match a with
  | .kill _ => inferInstanceAs (Decidable (_ → _))
  | .trap _ | .go | .wakeup _ | .sched | .yield | .interfere _ => isTrue trivial

def Pt.inSleep : Pt → Bool
  | .asleep _ => true
  | _ => false

/-- The process is marked killed and asleep in one of the loops. -/
def Stuck (p : Nat) (s : Sys) : Prop :=
  (s.world.procs p).killed = true ∧ (s.world.procs p).state = .sleeping ∧ s.pt.inSleep = true

instance (p : Nat) (s : Sys) : Decidable (Stuck p s) := inferInstanceAs (Decidable (_ ∧ _ ∧ _))

/-- Nothing in w' has marked the process killed or put it to sleep. -/
structure Quiet (p : Nat) (w w' : World) : Prop where
  killed : (w'.procs p).killed = true → (w.procs p).killed = true
  state : (w'.procs p).state = .sleeping → (w.procs p).state = .sleeping

theorem Quiet.of_eq (h : w'.procs = w.procs) : Quiet p w w' := by
  constructor
  · rw [h]
    exact id
  · rw [h]
    exact id

theorem Quiet.trans (h : Quiet p u v) (h' : Quiet p v w) : Quiet p u w :=
  ⟨fun hk => h.killed (h'.killed hk), fun hs => h.state (h'.state hs)⟩

theorem Quiet.spared (h : Quiet p w w') (hk : (w.procs p).killed = false) :
    (w'.procs p).killed = false := by
  cases hk' : (w'.procs p).killed with
  | false => rfl
  | true => simp [h.killed hk'] at hk

theorem wakeup_proc (c : Chan) (r : Proc) : (r.wakeup c).killed = r.killed ∧
    ((r.wakeup c).state = .sleeping → r.state = .sleeping) ∧
    childOf p (r.wakeup c) = childOf p r := by
  unfold Proc.wakeup
  split
  · next hr => simp [childOf, hr.1]
  · exact ⟨rfl, id, rfl⟩

theorem quiet_wakeup (w : World) : Quiet p w (w.wakeup q c) := by
  obtain ⟨hk, hs, -⟩ := wakeup_proc (p := p) c (w.procs p)
  by_cases hq : q = p
  · constructor <;> simp [World.wakeup, Table.wakeup, hq]
  · constructor
    · simp [World.wakeup, Table.wakeup, hq, hk]
    · simpa [World.wakeup, Table.wakeup, hq] using hs

theorem quiet_freeproc (w : World) : Quiet p w (w.freeproc i) := by
  by_cases hi : p = i
  · subst hi
    constructor
    · simp [World.freeproc, Proc.freeproc]
    · simp [World.freeproc, Proc.freeproc]
  · constructor
    · simp [World.freeproc, hi]
    · simp [World.freeproc, hi]

theorem readBytes_procs (addr pi k i : Nat) (w : World) :
    (readBytes addr pi k i w).1.procs = w.procs := by
  induction k generalizing i w with
  | zero => rfl
  | succ k ih =>
    simp only [readBytes]
    split
    · rfl
    · split
      · rfl
      · rw [ih]

/-- What a piece of a loop, with the process at pt, may do to its own process. -/
def Next.Calm (p : Nat) (w : World) (pt : Pt) : Next → Prop
  | .ret w' _ => Quiet p w w'
  | .test => True
  | .block w' => Quiet p w w' ∧ Sys.committed p ⟨w, pt⟩ = true
  | .again w' l' => Quiet p w w' ∧ Sys.committed p ⟨w', .head l'⟩ = false

theorem readChar_calm (p : Nat) (w : World) (dst : Nat) (n target : Int) (pt : Pt) :
    (readChar w dst n target).Calm p w pt := by
  simp only [readChar]
  split
  · split
    · exact Quiet.of_eq rfl
    · exact Quiet.of_eq rfl
  · split
    · exact Quiet.of_eq rfl
    · split
      · exact Quiet.of_eq rfl
      · exact ⟨Quiet.of_eq rfl, rfl⟩

theorem waitpid_sleeps (h : Wait.waitpid copyout t p pid addr options = .sleeps) :
    options = 0 := by
  by_contra ho
  rw [Wait.waitpid, Wait.waitpidScan_find] at h
  split at h
  · cases h
  · split at h
    · exact Wait.reap_ne_sleeps h
    · cases h

theorem quiet_reap (p : Nat) (w : World) (addr i : Nat) :
    Quiet p w ((w.deliver addr i).freeproc i) := by
  have hq : Quiet p w (w.deliver addr i) := Quiet.of_eq rfl
  exact hq.trans (quiet_freeproc _)

theorem head_calm (p : Nat) (w : World) (l : Loop) : (l.head p w).Calm p w (.head l) := by
  cases l with
  | wait addr =>
    simp only [Loop.head]
    split
    · exact quiet_reap p w addr _
    · exact Quiet.of_eq rfl
    · trivial
    · exact Quiet.of_eq rfl
  | waitpid pid addr options =>
    simp only [Loop.head]
    split
    · exact quiet_reap p w addr _
    · exact Quiet.of_eq rfl
    · exact Quiet.of_eq rfl
    · next hw => exact ⟨Quiet.of_eq rfl, by simp [Sys.committed, hw]⟩
    · exact Quiet.of_eq rfl
  | piperead pi addr n =>
    simp only [Loop.head]
    split
    · trivial
    · have hq : Quiet p w (readBytes addr pi n.toNat 0 w).1 :=
        Quiet.of_eq (readBytes_procs addr pi n.toNat 0 w)
      exact hq.trans (quiet_wakeup _)
  | pipewrite pi addr n i =>
    simp only [Loop.head]
    split
    · split
      · exact Quiet.of_eq rfl
      · trivial
    · exact quiet_wakeup w
  | consoleread dst n target =>
    simp only [Loop.head]
    split
    · split
      · trivial
      · exact readChar_calm p w dst n target _
    · exact Quiet.of_eq rfl
  | sleep n ticks0 =>
    simp only [Loop.head]
    split
    · trivial
    · exact Quiet.of_eq rfl

theorem body_calm (p : Nat) (w : World) (l : Loop) : (l.body p w).Calm p w (.body l) := by
  cases l with
  | pipewrite pi addr n i =>
    simp only [Loop.body]
    split
    · next hfull => exact ⟨quiet_wakeup w, by simp [Sys.committed, hfull]⟩
    · split
      · exact quiet_wakeup w
      · exact ⟨Quiet.of_eq rfl, rfl⟩
  | _ => exact ⟨Quiet.of_eq rfl, rfl⟩

theorem waitpidScan_sleeps_congr (ids : List Nat)
    (h : ∀ i ∈ ids, childOf p (t' i) = childOf p (t i)) :
    Wait.waitpidScan copyout' t' p pid addr options ids = .sleeps ↔
      Wait.waitpidScan copyout t p pid addr options ids = .sleeps := by
  induction ids with
  | nil => simp [Wait.waitpidScan]
  | cons i rest ih =>
    have hi := h i List.mem_cons_self
    have ih := ih fun j hj => h j (List.mem_cons_of_mem i hj)
    simp only [childOf] at hi
    -- the slot is a child in both tables or in neither
    by_cases hc : (t i).parent = some p <;> by_cases hc' : (t' i).parent = some p <;>
      simp only [hc, hc', if_true, if_false, reduceCtorEq, Option.some.injEq, Prod.mk.injEq,
        decide_eq_decide] at hi
    · obtain ⟨hpid, hz⟩ := hi
      simp only [Wait.waitpidScan, Wait.Matches, hc, hc', hpid, hz, and_true, true_and]
      split
      · split
        · simp [Wait.reap_ne_sleeps]
        · rfl
      · exact ih
    · simp [Wait.waitpidScan, Wait.Matches, hc, hc', ih]

/-- Whether the process goes on to sleep() does not change while it holds the lock. -/
theorem committed_kept {s : Sys} (h : ∀ l ∈ s.pt.locked, l.Kept p s.world w) :
    Sys.committed p { s with world := w } = s.committed p := by
  obtain ⟨world, pt⟩ := s
  cases pt with
  | head l =>
    cases l with
    | waitpid pid addr options =>
      have hk := h _ rfl
      exact decide_eq_decide.mpr
        (waitpidScan_sleeps_congr _ fun i hi => hk i (List.mem_range.mp hi))
    | _ => rfl
  | body l =>
    cases l with
    | pipewrite pi addr n i =>
      obtain ⟨hr, hw, -⟩ := h _ rfl
      simp only [Sys.committed, hr, hw]
    | _ => rfl
  | enter c => cases c <;> rfl
  | _ => rfl

theorem childOf_update {t : Table} (h : childOf p r = childOf p (t i)) (j : Nat) :
    childOf p (update t i r j) = childOf p (t j) := by
  rcases eq_or_ne j i with rfl | hj
  · rw [update_self, h]
  · rw [update_of_ne hj]

/-- A process that is asleep, or on its way to sleep with no test left, is not marked
killed. -/
structure Inv (p : Nat) (s : Sys) : Prop where
  tested : s.committed p = true → (s.world.procs p).killed = false
  asleep : (s.world.procs p).state = .sleeping → (s.world.procs p).killed = false

theorem Inv.goto {pt : Pt} (h : Inv p s)
    (hpt : Sys.committed p ⟨s.world, pt⟩ = true → (s.world.procs p).killed = false) :
    Inv p { s with pt := pt } :=
  ⟨hpt, h.asleep⟩

/-- A change of the process table that leaves what wait_lock guards. -/
theorem Inv.procs {s : Sys} {t : Table} (hv : ∀ i, childOf p (t i) = childOf p (s.world.procs i))
    (hk : s.committed p = true → (t p).killed = false)
    (hs : (t p).state = .sleeping → (t p).killed = false) :
    Inv p { s with world.procs := t } := by
  refine ⟨fun hc => hk ?_, hs⟩
  rwa [committed_kept (w := { s.world with procs := t })] at hc
  intro l _
  cases l with
  | wait | waitpid => exact fun i _ => hv i
  | piperead | pipewrite => exact ⟨rfl, rfl, rfl, rfl, fun _ _ => rfl⟩
  | consoleread => exact ⟨rfl, rfl, fun _ _ => rfl⟩
  | sleep => rfl

/-- The process goes on or off the cpu. -/
theorem Inv.dispatch {x : ProcState} (h : Inv p s) (hold : (s.world.procs p).state ≠ .zombie)
    (hz : x ≠ .zombie) (hx : x ≠ .sleeping) :
    Inv p (s.setProc p { s.world.procs p with state := x } s.pt) := by
  apply Inv.procs (childOf_update (by simp [childOf, hold, hz]))
  · simpa using h.tested
  · simp [hx]

/-- A test of p->killed that leads away from the loop if it is set. -/
theorem Inv.test (h : Inv p s) {x y : Pt} (hx : Sys.committed p ⟨s.world, x⟩ = false) :
    Inv p { s with pt := if (s.world.procs p).killed then x else y } := by
  apply h.goto
  cases (s.world.procs p).killed with
  | true => simp [hx]
  | false => simp

theorem Next.Calm.inv {n : Next} (hc : n.Calm p s.world s.pt) (h : Inv p s)
    (hrun : (s.world.procs p).state = .running) : Inv p (n.sys s l) := by
  cases n with
  | ret w v =>
    refine ⟨nofun, fun hs => ?_⟩
    simp [hc.state hs] at hrun
  | test => exact ⟨nofun, h.asleep⟩
  | block w =>
    obtain ⟨hq, hw⟩ := hc
    have hk := hq.spared (h.tested hw)
    exact ⟨fun _ => hk, fun _ => hk⟩
  | again w l' =>
    obtain ⟨hq, hw⟩ := hc
    refine ⟨fun h' => ?_, fun hs => ?_⟩
    · simp [Next.sys, hw] at h'
    · simp [hq.state hs] at hrun

theorem go_inv (h : Inv p s) (hrun : (s.world.procs p).state = .running)
    (hg : go p s = some t) : Inv p t := by
  obtain ⟨w, pt⟩ := s
  cases pt with
  | user | exiting => cases hg
  | trapped | test | recheck | returned =>
    cases hg
    exact h.test rfl
  | enter c =>
    cases hg
    apply h.goto
    cases c with
    | waitpid pid addr options =>
      intro hc
      exact h.tested (decide_eq_true (waitpid_sleeps (of_decide_eq_true hc)))
    | _ => exact nofun
  | head l =>
    cases hg
    exact (head_calm p w l).inv h hrun
  | body l =>
    cases hg
    exact (body_calm p w l).inv h hrun
  | block l =>
    cases hg
    refine ⟨nofun, fun _ => ?_⟩
    simpa [Sys.setProc, Proc.sleep] using h.tested rfl
  | asleep l =>
    cases hg
    exact ⟨nofun, by simpa [Sys.setProc] using h.asleep⟩
  | woken l =>
    cases l <;> cases hg <;> exact h.goto nofun

/-- kill() reaches the process only where it still tests p->killed, or wakes it up. -/
theorem kill_inv (h : Inv p s) (hw : Unhurried p s (.kill pid)) :
    Inv p { s with world.procs := (s.world.procs.kill pid).1 } := by
  cases ht : s.world.procs.killTarget pid with
  | none =>
    simp only [Table.kill, ht]
    exact ⟨h.tested, h.asleep⟩
  | some i =>
    simp only [Table.kill, ht]
    refine Inv.procs (childOf_update ?_) (fun hc => ?_) ?_
    · by_cases hs : (s.world.procs i).state = .sleeping <;> simp [childOf, Proc.kill, hs]
    · have hi : p ≠ i := by
        rintro rfl
        simp [hw ht] at hc
      rw [update_of_ne hi]
      exact h.tested hc
    · rcases eq_or_ne p i with rfl | hi
      · simp only [update_self, Proc.kill]
        split <;> simp_all
      · rw [update_of_ne hi]
        exact h.asleep

theorem wakeup_inv (h : Inv p s) : Inv p { s with world.procs := s.world.procs.wakeup c none } := by
  obtain ⟨hk, hs, -⟩ := wakeup_proc (p := p) c (s.world.procs p)
  exact Inv.procs (fun i => (wakeup_proc c _).2.2) (fun hc => hk.trans (h.tested hc))
    (fun hst => hk.trans (h.asleep (hs hst)))

theorem step_inv (h : Inv p s) (hw : Unhurried p s a) (hs : step p s a = some t) : Inv p t := by
  cases a with
  | trap c =>
    simp only [step] at hs
    split at hs
    · split at hs
      · cases hs
        exact h.goto nofun
      · cases hs
    · cases hs
  | go =>
    simp only [step, Option.ite_none_right_eq_some] at hs
    exact go_inv h hs.1 hs.2
  | kill pid =>
    cases hs
    exact kill_inv h hw
  | wakeup c =>
    cases hs
    exact wakeup_inv h
  | sched =>
    simp only [step, Option.ite_none_right_eq_some, Option.some.injEq] at hs
    obtain ⟨hr, rfl⟩ := hs
    exact h.dispatch (by simp [hr]) nofun nofun
  | yield =>
    simp only [step, Option.ite_none_right_eq_some, Option.some.injEq] at hs
    obtain ⟨hr, rfl⟩ := hs
    exact h.dispatch (by simp [hr.1]) nofun nofun
  | interfere w =>
    simp only [step, Option.ite_none_right_eq_some, Option.some.injEq] at hs
    obtain ⟨⟨⟨hst, hch, hk⟩, hkept⟩, rfl⟩ := hs
    constructor
    · intro hc
      exact hk.trans (h.tested (committed_kept hkept ▸ hc))
    · intro hs
      exact hk.trans (h.asleep (hst ▸ hs))

def init (w : World) : Sys := ⟨w, .user⟩

/-- In a run in which no kill() falls between a last test of p->killed and sleep(), the
process is never asleep in a loop with p->killed set. -/
theorem killed_never_asleep (hstart : (w.procs p).state = .running)
    (hguard : Along (step p) (Unhurried p) (init w) as)
    (hrun : run (step p) (init w) as = some s) : ¬ Stuck p s := by
  have hinit : Inv p (init w) := by
    refine ⟨nofun, fun hs => ?_⟩
    rw [init, hstart] at hs
    cases hs
  have hinv : Inv p s := along_invariant (fun _ _ _ => step_inv) hinit hguard hrun
  intro hstuck
  obtain ⟨hk, hs, _⟩ := hstuck
  rw [hinv.asleep hs] at hk
  cases hk

/-- Slot 1 is running with a child in slot 2. Pipe 0 is empty, pipe 1 is full and no input
has arrived. -/
def quietWorld : World where
  procs
    | 1 => { state := .running, pid := 1 }
    | 2 => { state := .runnable, pid := 2, parent := some 1 }
    | _ => {}
  mem := ⟨fun _ => 0, fun _ => true, fun _ => true⟩
  pipe
    | 1 => ⟨fun _ => 0, 0, BitVec.ofNat 32 PIPESIZE, true, true⟩
    | _ => ⟨fun _ => 0, 0, 0, true, true⟩
  cons := ⟨fun _ => 0, 0, 0⟩
  ticks := 0

/-- kill() comes after the test of p->killed and before sleep(). -/
def killBeforeSleep (c : Call) : List Act :=
  [.trap c, .go, .go, .go, .go, .kill 1, .go, .go]

/-- kill() finds the process asleep. -/
def killInSleep (c : Call) : List Act :=
  [.trap c, .go, .go, .go, .go, .go, .go, .kill 1, .sched]

/-- In the second run kill() comes behind the test, and there is room in the pipe. -/
theorem killed_never_asleep_in_wait :
    (∃ s, run (step 1) (init quietWorld) (killInSleep (.wait 0)) = some s ∧ ¬ Stuck 1 s) ∧
    ∃ s, run (step 1) (init quietWorld) (killBeforeSleep (.pipewrite 0 0 1)) = some s ∧
      ¬ Stuck 1 s := by
  obtain ⟨s, hs⟩ := Option.isSome_iff_exists.mp (show (run (step 1) (init quietWorld)
    (killInSleep (.wait 0))).isSome = true by decide +kernel)
  obtain ⟨t, ht⟩ := Option.isSome_iff_exists.mp (show (run (step 1) (init quietWorld)
    (killBeforeSleep (.pipewrite 0 0 1))).isSome = true by decide +kernel)
  exact ⟨⟨s, hs, killed_never_asleep rfl (by decide +kernel) hs⟩,
    t, ht, killed_never_asleep rfl (by decide +kernel) ht⟩

/-- Each of the six calls, made where it has to wait. -/
def blockingCalls : List Call :=
  [.wait 0, .waitpid (-1) 0 0, .piperead 0 0 1, .pipewrite 1 0 1, .consoleread 0 1, .sleep 1]

/-- The kill comes one section earlier in waitpid(), which has no test to pass. -/
def missedKill : Call → List Act
  | .waitpid pid addr options =>
    [.trap (.waitpid pid addr options), .go, .go, .go, .kill 1, .go]
  | c => killBeforeSleep c

theorem killed_goes_to_sleep : blockingCalls.Forall (fun c =>
    ∃ s, run (step 1) (init quietWorld) (missedKill c) = some s ∧ Stuck 1 s) := by
  apply List.forall_iff_forall_mem.mpr
  decide +kernel

end Xv6.Loops
