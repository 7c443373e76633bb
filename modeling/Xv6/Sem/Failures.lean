import Xv6.Mem.Args
import Xv6.Mem.Transfer
import Xv6.Sem.Isolation
import Xv6.Sem.Tokens

namespace Xv6.Sem
open Lib
open Mem (Addr Byte Kmem Km UserPages Writable Readable ptPages)

/-- The size of a struct semaphore: the value, the lock, the queue of pointers, head and tail. -/
def SEMSIZE : Nat := 8 + 24 + 8 * NPROC + 8

/-- What a call gives to its caller. A call that sleeps copies its struct out when it goes on. -/
inductive Reply where
  | returns (v : Int)
  | sleeps (ksem : List Byte)
  | panics
  deriving DecidableEq

/-- The end of sys_sem_init(), sys_sem_wait() and sys_sem_post(). -/
def giveBack (pagetable semptr : Addr) (ksem : List Byte) : Km Int := do
  let r ← Mem.copyout pagetable semptr ksem
  pure (if r < 0 then -1 else 0)

/-- A call that leaves t of the state s, and may sleep before its end. -/
def semCall (pagetable semptr : Addr) (s t : Sys) (sleeps : Bool) : Km (Sys × Reply) := do
  match ← Mem.copyin pagetable semptr SEMSIZE with
  | none => pure (s, .returns (-1))
  | some ksem =>
    if sleeps then pure (t, .sleeps ksem)
    else do
      let v ← giveBack pagetable semptr ksem
      pure (t, .returns v)

def sysSemInit (pagetable semptr : Addr) (s : Sys) (value : BitVec 32) : Km (Sys × Reply) :=
  semCall pagetable semptr s { s with sem := semInit s.sem value } false

def sysSemWait (pagetable semptr : Addr) (p : Nat) (s : Sys) : Km (Sys × Reply) :=
  semCall pagetable semptr s (stepWait s p) (semWait s.sem p).2

def sysSemPost (pagetable semptr : Addr) (p : Nat) (s : Sys) : Km (Sys × Reply) :=
  semCall pagetable semptr s (stepPost s p) false

/-- The length of its copyout() is sizeof(ksem)<0. -/
def sysSemDestroy (pagetable semptr : Addr) (s : Sys) : Km (Sys × Reply) := do
  match ← Mem.copyin pagetable semptr SEMSIZE with
  | none => pure (s, .returns (-1))
  | some ksem =>
    match semDestroy s.sem with
    | none => pure (s, .panics)
    | some m => do
      let r ← Mem.copyout pagetable semptr (ksem.take (if SEMSIZE < 0 then 1 else 0))
      pure ({ s with sem := m }, .returns (if r ≠ 0 then -1 else 0))

def sysSem (pagetable semptr : Addr) (p : Nat) (s : Sys) : Op → Km (Sys × Reply)
  | .init value => sysSemInit pagetable semptr s value
  | .wait => sysSemWait pagetable semptr p s
  | .post => sysSemPost pagetable semptr p s
  | .destroy => sysSemDestroy pagetable semptr s

/-- What the caller can get. While it sleeps memory may change, but not its page table. -/
inductive Answers (pagetable semptr : Addr) (k : Kmem) : Reply → Int → Prop where
  | now (v : Int) : Answers pagetable semptr k (.returns v) v
  | later (ksem : List Byte) (k1 k2 : Kmem) (v : Int)
      (htable : ∀ x ∈ ptPages k.mem pagetable, k1.mem x = k.mem x)
      (hrun : (giveBack pagetable semptr ksem).run k1 = .ok (v, k2)) :
      Answers pagetable semptr k (.sleeps ksem) v

def CanRead (k : Kmem) (pagetable semptr : Addr) : Prop :=
  ∀ j < SEMSIZE, Readable k.mem pagetable (semptr.toNat + j)

def CanWrite (k : Kmem) (pagetable semptr : Addr) : Prop :=
  ∀ j < SEMSIZE, Writable k.mem pagetable (semptr.toNat + j)

/-- A call with the answer -1 has changed nothing, and a struct that the user may not write gets
that answer. -/
structure FailsClean (pagetable semptr : Addr) (k : Kmem) (s t : Sys) (r : Reply) : Prop where
  unchanged : Answers pagetable semptr k r (-1) → t.sem = s.sem ∧ ∀ q, t.proc q = s.proc q
  refuses : ¬ CanWrite k pagetable semptr →
    r ≠ .panics ∧ ∀ v, Answers pagetable semptr k r v → v = -1

theorem canWrite_congr {k k' : Kmem} (h : ∀ x ∈ ptPages k.mem root, k'.mem x = k.mem x) :
    CanWrite k' root semptr ↔ CanWrite k root semptr := by
  simp only [CanWrite, Writable, Mem.userPte_congr h]

theorem giveBack_ends (h : UserPages k.mem root) (hlen : ksem.length = SEMSIZE) :
    Ends (giveBack root semptr ksem) k (fun v _ =>
      (v = 0 ∨ v = -1) ∧ (v = 0 ↔ CanWrite k root semptr)) := by
  rw [giveBack]
  refine (Mem.copyout_copies h semptr ksem).bind (fun r k' hk => ?_)
  have hsuccess := hk.1.success
  rw [hlen] at hsuccess
  rw [ends_pure]
  rcases hk.1.result with rfl | rfl
  · exact ⟨.inl rfl, hsuccess⟩
  · exact ⟨.inr rfl, hsuccess⟩

/-- The answer of a call whose struct could be read. -/
theorem Answers.writable (h : UserPages k.mem root) (hlen : ksem.length = SEMSIZE)
    (ha : Answers root semptr k (.sleeps ksem) v) :
    (v = 0 ∨ v = -1) ∧ (v = 0 ↔ CanWrite k root semptr) := by
  cases ha with
  | later _ k1 k2 v htable hrun =>
    obtain ⟨v', k', hrun', hv⟩ : Ends (giveBack root semptr ksem) k1 _ :=
      giveBack_ends (h.congr htable) hlen
    rw [hrun] at hrun'
    cases hrun'
    rwa [canWrite_congr htable] at hv

theorem returns_answers (ha : Answers root semptr k (.returns v) u) : u = v := by
  cases ha
  rfl

/-- A reply that says whether the struct could be written back is clean if it could, or if there
was nothing to undo. -/
theorem failsClean_iff (hne : r ≠ .panics) (hsome : ∃ v, Answers root semptr k r v)
    (hall : ∀ v, Answers root semptr k r v →
      (v = 0 ∨ v = -1) ∧ (v = 0 ↔ CanWrite k root semptr))
    (hdone : t.sem = s.sem → ∀ q, t.proc q = s.proc q) :
    FailsClean root semptr k s t r ↔ CanWrite k root semptr ∨ t.sem = s.sem := by
  constructor
  · intro hf
    obtain ⟨v, hv⟩ := hsome
    obtain ⟨rfl | rfl, hiff⟩ := hall v hv
    · exact .inl (hiff.mp rfl)
    · exact .inr (hf.unchanged hv).1
  · intro hw
    refine ⟨fun hv => ?_, fun hno => ⟨hne, fun v hv => ?_⟩⟩
    · have hiff := (hall _ hv).2
      have hsem := hw.resolve_left (fun hc => (nomatch hiff.mpr hc))
      exact ⟨hsem, hdone hsem⟩
    · obtain ⟨hval, hiff⟩ := hall v hv
      exact hval.resolve_left (fun h0 => hno (hiff.mp h0))

/-- A struct that cannot be read is refused before anything is done. -/
theorem failsClean_refused : FailsClean root semptr k s s (.returns (-1)) :=
  ⟨fun _ => ⟨rfl, fun _ => rfl⟩, fun _ => ⟨fun he => (nomatch he), fun _ hv => returns_answers hv⟩⟩

theorem semCall_clean_iff (h : UserPages k.mem root)
    (hdone : t.sem = s.sem → ∀ q, t.proc q = s.proc q) :
    Ends (semCall root semptr s t b) k (fun r _ => FailsClean root semptr k s r.1 r.2 ↔
      ¬ CanRead k root semptr ∨ CanWrite k root semptr ∨ t.sem = s.sem) := by
  rw [semCall]
  refine (Mem.copyin_reads h semptr SEMSIZE).bind (fun r k' hk => ?_)
  obtain ⟨hsame, hread, hbytes⟩ := hk
  rw [hsame]
  cases r with
  | none =>
    have hno : ¬ CanRead k root semptr := fun hr => (nomatch hread.mpr hr)
    exact ends_pure.mpr ⟨fun _ => .inl hno, fun _ => failsClean_refused⟩
  | some ksem =>
    have hlen := (hbytes ksem rfl).1
    have hcan : CanRead k root semptr := hread.mp rfl
    rw [or_iff_right (not_not.mpr hcan)]
    cases b with
    | true =>
      obtain ⟨v, k1, hrun, -⟩ : Ends (giveBack root semptr ksem) k _ := giveBack_ends h hlen
      refine ends_pure.mpr (failsClean_iff (fun he => (nomatch he)) ?_ (fun v hv => ?_) hdone)
      · exact ⟨v, .later ksem k k1 v (fun _ _ => rfl) hrun⟩
      · exact hv.writable h hlen
    | false =>
      change Ends (giveBack root semptr ksem >>= fun v => pure (t, Reply.returns v)) k _
      refine (giveBack_ends h hlen).bind (fun v _ hv => ends_pure.mpr ?_)
      refine failsClean_iff (fun he => (nomatch he)) ⟨v, .now v⟩ (fun u hu => ?_) hdone
      rw [returns_answers hu]
      exact hv

theorem value_pred_ne (v : BitVec 32) : v - 1 ≠ v := by
  intro h
  have := congrArg BitVec.toNat h
  rw [BitVec.toNat_sub] at this
  have hv := v.isLt
  have h1 : (1 : BitVec 32).toNat = 1 := rfl
  omega

theorem value_succ_ne (v : BitVec 32) : v + 1 ≠ v := by
  intro h
  have := congrArg BitVec.toNat h
  rw [BitVec.toNat_add] at this
  have hv := v.isLt
  have h1 : (1 : BitVec 32).toNat = 1 := rfl
  omega

theorem stepWait_sem_ne (s : Sys) (p : Nat) : (stepWait s p).sem ≠ s.sem := by
  intro h
  have hv := congrArg Semaphore.value h
  unfold stepWait semWait at hv
  by_cases hneg : (s.sem.value - 1).toInt < 0
  · simp only [hneg, if_true] at hv
    exact value_pred_ne _ hv
  · simp only [hneg, if_false] at hv
    exact value_pred_ne _ hv

theorem stepPost_sem_ne (s : Sys) (p : Nat) : (stepPost s p).sem ≠ s.sem := by
  intro h
  have hv := congrArg Semaphore.value h
  have hsem : ∀ (u : Sys) q, (u.wakeup p q).sem = u.sem := by
    intro u q
    cases q <;> rfl
  unfold stepPost semPost at hv
  rw [hsem] at hv
  by_cases hle : (s.sem.value + 1).toInt ≤ 0
  · simp only [hle, if_true] at hv
    exact value_succ_ne _ hv
  · simp only [hle, if_false] at hv
    exact value_succ_ne _ hv

/-- sys_sem_destroy() never answers -1 once it has read the struct. -/
theorem sysSemDestroy_clean_iff (h : UserPages k.mem root) :
    Ends (sysSemDestroy root semptr s) k (fun r _ => FailsClean root semptr k s r.1 r.2 ↔
      ¬ CanRead k root semptr ∨ CanWrite k root semptr) := by
  rw [sysSemDestroy]
  refine (Mem.copyin_reads h semptr SEMSIZE).bind (fun r k' hk => ?_)
  obtain ⟨hsame, hread, -⟩ := hk
  rw [hsame]
  cases r with
  | none =>
    have hno : ¬ CanRead k root semptr := fun hr => (nomatch hread.mpr hr)
    exact ends_pure.mpr ⟨fun _ => .inl hno, fun _ => failsClean_refused⟩
  | some ksem =>
    have hcan : CanRead k root semptr := hread.mp rfl
    rw [or_iff_right (not_not.mpr hcan)]
    cases hd : semDestroy s.sem with
    | none =>
      refine ends_pure.mpr
        ⟨fun hf => ?_, fun hw => ⟨fun hv => (nomatch hv), fun hno => absurd hw hno⟩⟩
      by_contra hno
      exact (hf.refuses hno).1 rfl
    | some m =>
      have hnil : ksem.take (if SEMSIZE < 0 then 1 else 0) = [] := by
        rw [if_neg (by decide), List.take_zero]
      simp only [hnil]
      rw [ends_bind, Mem.copyout, Mem.copyoutLoop_nil, if_neg (by decide), ends_pure]
      refine ⟨fun hf => ?_, fun hw => ⟨fun hv => ?_, fun hno => absurd hw hno⟩⟩
      · by_contra hno
        exact absurd ((hf.refuses hno).2 0 (.now 0)) (by decide)
      · exact absurd (returns_answers hv) (by decide)

theorem semInit_eq_self : semInit m value = m ↔ value = m.value ∧ m.head = 0 ∧ m.tail = 0 := by
  obtain ⟨v, queue, head, tail⟩ := m
  simp [semInit, eq_comm]

/-- The four calls fail clean unless the struct can be read and not written, apart from a
sem_init() that changes nothing. -/
theorem sem_calls_fail_clean_iff (h : UserPages k.mem root) (semptr : Addr) (p : Nat) (s : Sys)
    (op : Op) :
    Ends (sysSem root semptr p s op) k (fun r _ => FailsClean root semptr k s r.1 r.2 ↔
      ¬ CanRead k root semptr ∨ CanWrite k root semptr ∨
        (op = .init s.sem.value ∧ s.sem.head = 0 ∧ s.sem.tail = 0)) := by
  cases op with
  | init value =>
    have hiff : Ends (sysSemInit root semptr s value) k _ :=
      semCall_clean_iff h (fun _ _ => rfl)
    exact hiff.mono (fun r _ hr => hr.trans (by simp [semInit_eq_self]))
  | wait =>
    have hiff : Ends (sysSemWait root semptr p s) k _ :=
      semCall_clean_iff h (fun he => absurd he (stepWait_sem_ne s p))
    exact hiff.mono (fun r _ hr => hr.trans (by simp [stepWait_sem_ne]))
  | post =>
    have hiff : Ends (sysSemPost root semptr p s) k _ :=
      semCall_clean_iff h (fun he => absurd he (stepPost_sem_ne s p))
    exact hiff.mono (fun r _ hr => hr.trans (by simp [stepPost_sem_ne]))
  | destroy =>
    have hiff : Ends (sysSemDestroy root semptr s) k _ := sysSemDestroy_clean_iff h
    exact hiff.mono (fun r _ hr => hr.trans (by simp))

/-- The first process posts on a struct in its only page, which it may write. -/
theorem sem_calls_fail_clean_boot : ∃ ms r k', Mem.trace [] = some ms ∧
    (sysSem (ms.procs Mem.init).pagetable 0 0 (start threeRunning zeroed 0) .post).run ms.k =
      .ok (r, k') ∧
    FailsClean (ms.procs Mem.init).pagetable 0 ms.k (start threeRunning zeroed 0) r.1 r.2 := by
  have hd : (Mem.trace []).any (fun ms => decide ((ms.procs Mem.init).state ≠ .unused) &&
      (Mem.userPte ms.k.mem (ms.procs Mem.init).pagetable 0).any (fun w =>
        decide (Mem.Has w Mem.PTE_W))) = true := by decide +kernel
  obtain ⟨ms, hs, hp⟩ := (Option.any_eq_true _ _).mp hd
  rw [Bool.and_eq_true, decide_eq_true_eq] at hp
  obtain ⟨w, hw, hwr⟩ := (Option.any_eq_true _ _).mp hp.2
  have hcan : CanWrite ms.k (ms.procs Mem.init).pagetable 0 := by
    intro j hj
    have hsize : SEMSIZE = 552 := rfl
    have h0 : (0 : Addr).toNat = 0 := rfl
    exact ⟨w, Mem.userPte_page hw (by omega), of_decide_eq_true hwr⟩
  obtain ⟨r, k', hr, hiff⟩ := sem_calls_fail_clean_iff
    (@Mem.Reachable.userPages _ _ Mem.small (Mem.reachable_trace hs) hp.1) 0 0
    (start threeRunning zeroed 0) .post
  exact ⟨ms, r, k', hs, hr, hiff.mpr (.inr (.inl hcan))⟩

/-- The first process becomes a program whose text cannot be written. -/
def runsText : List Mem.Call := [.exec Mem.init (fun _ => some (Mem.fileOf Mem.tinyElf)) 64 128]

/-- On a struct in the text sem_post() counts and then answers -1, and sem_destroy() answers 0. -/
theorem sem_calls_on_text : ∃ ms t t' k' k'', Mem.trace runsText = some ms ∧
    ¬ CanWrite ms.k (ms.procs Mem.init).pagetable 0 ∧
    (sysSemPost (ms.procs Mem.init).pagetable 0 0 (start threeRunning zeroed 0)).run ms.k =
      .ok ((t, .returns (-1)), k') ∧
    (start threeRunning zeroed 0).sem.value = 0 ∧ t.sem.value = 1 ∧
    (sysSemDestroy (ms.procs Mem.init).pagetable 0 (start threeRunning zeroed 0)).run ms.k =
      .ok ((t', .returns 0), k'') := by
  have hd : (Mem.trace runsText).any (fun ms =>
      !(Mem.userPte ms.k.mem (ms.procs Mem.init).pagetable 0).any (fun w =>
        decide (Mem.Has w Mem.PTE_W)) &&
      ((sysSemPost (ms.procs Mem.init).pagetable 0 0 (start threeRunning zeroed 0)).run
        ms.k).toOption.any (fun r => decide (r.1.2 = .returns (-1) ∧ r.1.1.sem.value = 1)) &&
      ((sysSemDestroy (ms.procs Mem.init).pagetable 0 (start threeRunning zeroed 0)).run
        ms.k).toOption.any (fun r => decide (r.1.2 = .returns 0))) = true := by decide +kernel
  obtain ⟨ms, hs, hp⟩ := (Option.any_eq_true _ _).mp hd
  rw [Bool.and_eq_true, Bool.and_eq_true, Bool.not_eq_true'] at hp
  have hno : ¬ CanWrite ms.k (ms.procs Mem.init).pagetable 0 := by
    intro hcan
    obtain ⟨w, hw, hwr⟩ := hcan 0 (by decide)
    rw [show (0 : Addr).toNat + 0 = 0 from rfl] at hw
    rw [hw, Option.any_some] at hp
    exact of_decide_eq_false hp.1.1 hwr
  obtain ⟨⟨⟨t, r⟩, k'⟩, hpost, hq⟩ := ok_of_any hp.1.2
  obtain ⟨rfl, hv⟩ := of_decide_eq_true hq
  obtain ⟨⟨⟨t', r'⟩, k''⟩, hdestroy, hq'⟩ := ok_of_any hp.2
  obtain rfl := of_decide_eq_true hq'
  exact ⟨ms, t, t', k', k'', hs, hno, hpost, rfl, hv, hdestroy⟩

end Xv6.Sem
