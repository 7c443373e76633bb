import Xv6.Fs.Runs
import Xv6.Mem.Isolation
import Xv6.Mem.Luck

namespace Xv6
open Function Lib

/-- The memory of the kernel with its process table, and the file system with the descriptors of
the same processes. -/
structure Kernel where
  mem : Mem.Sys
  fs : Fs.Sys

inductive Kernel.Stop where
  | mem (e : Mem.Panic)
  | fs (e : Fs.Panic)

/-- The state of a slot as far as the file system tells it. -/
def ProcState.fs : ProcState → Fs.ProcState
  | .unused => .unused
  | .zombie => .zombie
  | _ => .used

/-- fork() by p: the slot and the memory of the child, then its descriptors and directory. -/
def Kernel.fork [Mem.Image] (s : Kernel) (p : Fin NPROC) : Except Stop (Kernel × Int) :=
  match s.mem.first (·.state = .unused) with
  | none => .ok (s, -1)
  | some i =>
    match (Mem.fork p.val (s.mem.procs p) (s.mem.procs i) s.mem.nextpid).run s.mem.k with
    | .error e => .error (.mem e)
    | .ok ((np, r), k) =>
      let mem := { s.mem.setTask i np k with nextpid := Lifecycle.succPid s.mem.nextpid }
      if np.state = .unused then .ok (⟨mem, s.fs⟩, r)
      else
        match (Fs.sysFork p.val true).run s.fs with
        | .error e => .error (.fs e)
        | .ok (_, fs) => .ok (⟨mem, fs⟩, r)

/-- Both halves are states that system calls lead to, and they know the same processes. -/
structure Kernel.Reachable [Mem.Image] (s : Kernel) : Prop where
  mem : Mem.Reachable s.mem
  fs : ∃ sb disk cs, Fs.Consistent sb disk ∧ run (Fs.step sb) (Fs.boot disk) cs = some s.fs
  agree : ∀ p : Fin NPROC, (s.fs.procs p.val).state = (s.mem.procs p).state.fs

section Layout
variable [Mem.Image] {s t : Kernel} {p i : Fin NPROC}

theorem Kernel.Reachable.sysOk (h : s.Reachable) : ∃ sb, Fs.SysOk sb s.fs := by
  obtain ⟨sb, disk, cs, hc, hr⟩ := h.fs
  exact ⟨sb, Fs.sysOk_run hc hr⟩

/-- The file system takes the slot that allocproc() has taken. -/
theorem Kernel.Reachable.slot (h : s.Reachable)
    (hi : s.mem.first (·.state = .unused) = some i) :
    (List.range NPROC).find? (fun q => (s.fs.procs q).state == .unused) = some i.val := by
  have hfs : ∀ q : Fin NPROC, ((s.fs.procs q.val).state == .unused) =
      decide ((s.mem.procs q).state = .unused) := by
    intro q
    rw [h.agree q]
    cases (s.mem.procs q).state <;> rfl
  rw [← List.map_coe_finRange_eq_range, List.find?_map]
  simp only [comp_def, hfs]
  rw [Mem.Sys.first] at hi
  rw [hi]
  rfl

theorem Kernel.Reachable.runs (h : s.Reachable) (hp : s.mem.Runs p) :
    (s.fs.procs p.val).state = .used ∧ ∃ cwd, (s.fs.procs p.val).cwd = some cwd := by
  have hu : (s.fs.procs p.val).state = .used := by
    obtain ⟨h1, h2⟩ := hp
    rw [h.agree p]
    cases hst : (s.mem.procs p).state <;> simp_all [ProcState.fs]
  obtain ⟨sb, hok⟩ := h.sysOk
  exact ⟨hu, Option.ne_none_iff_exists'.mp ((hok.procs p.val).mpr ⟨p.isLt, hu⟩)⟩

/-- The child in slot i of t has what p has in s, and its pages are mapped by nobody else. -/
structure Kernel.Duplicate (s t : Kernel) (p i : Fin NPROC) : Prop where
  pages : ∀ n < Mem.pagesUp (s.mem.procs p).sz, ∃ w v,
    Mem.lookup s.mem.k.mem (s.mem.procs p).pagetable n = some w ∧
    Mem.lookup t.mem.k.mem (t.mem.procs i).pagetable n = some v ∧
    Mem.pteFlags v = Mem.pteFlags w ∧
    t.mem.k.mem (Mem.pte2pa v) = s.mem.k.mem (Mem.pte2pa w) ∧
    ∀ q ≠ i, (t.mem.procs q).state ≠ .unused →
      ∀ u, ¬ (t.mem.procs q).Uses t.mem.k.mem u (Mem.pte2pa v)
  sz : (t.mem.procs i).sz = (s.mem.procs p).sz
  regs : ∀ r : Fin 512, r.val < 36 → t.mem.k.mem (t.mem.procs i).trapframe r =
    if r = Mem.tfA0 then 0 else s.mem.k.mem (s.mem.procs p).trapframe r
  ofile : (t.fs.procs i.val).ofile = (s.fs.procs p.val).ofile
  cwd : (t.fs.procs i.val).cwd = (s.fs.procs p.val).cwd

/-- The processes and their memory, the files and the free pages are the same in both states, and
the slots that were free are free and empty. -/
structure Kernel.NoTrace (s t : Kernel) : Prop where
  free : ∀ x, t.mem.k.Free x ↔ s.mem.k.Free x
  tasks : ∀ q, (s.mem.procs q).state ≠ .unused → t.mem.procs q = s.mem.procs q
  memory : ∀ q, ∀ x ∈ s.mem.taskPages q, t.mem.k.mem x = s.mem.k.mem x
  slots : ∀ q, (s.mem.procs q).state = .unused → (t.mem.procs q).state = .unused ∧
    (t.mem.procs q).trapframe = 0 ∧ (t.mem.procs q).pagetable = 0 ∧ (t.mem.procs q).sz = 0 ∧
    ∀ fd, (t.fs.procs q.val).ofile fd = none
  fs : t.fs = s.fs

/-- The state after a fork() whose memory is there. -/
def Kernel.forked (s : Kernel) (i : Fin NPROC) (np : Mem.Task) (k : Mem.Kmem) (fs : Fs.Sys) :
    Kernel :=
  ⟨{ s.mem.setTask i np k with nextpid := Lifecycle.succPid s.mem.nextpid }, fs⟩

/-- fork() finds no slot or no memory, or it makes a child. -/
theorem Kernel.Reachable.fork_cases (h : s.Reachable) (hp : s.mem.Runs p) :
    s.fork p = .ok (s, -1) ∨
    ∃ i np k, (s.mem.procs i).state = .unused ∧
      Mem.Keeps (s.mem.others i) s.mem.k k ∧
      (s.fork p = .ok (s.forked i {} k s.fs, -1) ∧ Mem.Owned (s.mem.others i) k ∨
        ∃ fs, s.fork p = .ok (s.forked i np k fs, s.mem.nextpid) ∧
          Mem.Holds (s.mem.others i) np k ∧ Mem.Lucky s.mem.k k ∧
          Mem.Forked p.val (s.mem.procs p) np s.mem.nextpid s.mem.k k ∧
          (fs.procs i.val).ofile = (s.fs.procs p.val).ofile ∧
          (fs.procs i.val).cwd = (s.fs.procs p.val).cwd) := by
  cases hi : s.mem.first (·.state = .unused) with
  | none =>
    left
    rw [Kernel.fork, hi]
  | some i =>
    have hun : (s.mem.procs i).state = .unused := by simpa using Mem.first_test hi
    obtain ⟨⟨np, r⟩, k, hr, hk, hres⟩ := h.mem.inv.fork_ends hp hun
    refine .inr ⟨i, np, k, hun, hk, ?_⟩
    rcases hres with ⟨he, ho⟩ | ⟨hpid, hh, hf⟩
    · obtain ⟨rfl, rfl⟩ := Prod.mk.inj he
      refine .inl ⟨?_, ho⟩
      simp only [Kernel.fork, hi, hr]
      rfl
    right
    simp only at hpid hh hf
    subst hpid
    have hlive : np.state ≠ .unused := by
      rw [hf.state]
      decide
    obtain ⟨hu, cwd, hcwd⟩ := h.runs hp
    obtain ⟨sb, hok⟩ := h.sysOk
    obtain ⟨u, fs, hfs, -, hof, hcw⟩ := hok.files.sysFork_ends hu (h.slot hi) hcwd
    refine ⟨fs, ?_, hh, Mem.fork_lucky _ _ _ hr hlive, hf, hof, hcw.trans hcwd.symm⟩
    simp only [Kernel.fork, hi, hr, if_neg hlive, hfs]
    rfl

theorem Kernel.Reachable.inv_forked (h : s.Reachable)
    (hk : Mem.Keeps (s.mem.others i) s.mem.k k) (ht : Mem.Holds (s.mem.others i) np k)
    (g : Fs.Sys) : Mem.Inv (s.forked i np k g).mem := by
  obtain ⟨ho, hg, hpipes, hsh⟩ := h.mem.inv.setTask hk ht
  exact ⟨ho, hg, hpipes, hsh⟩

theorem Kernel.duplicate_of_forked (h : s.Reachable) (hp : s.mem.Runs p) (hpi : p ≠ i)
    {g : Fs.Sys} (hk : Mem.Keeps (s.mem.others i) s.mem.k k)
    (ht : Mem.Holds (s.mem.others i) np k) (hf : Mem.Forked p.val (s.mem.procs p) np pid s.mem.k k)
    (hof : (g.procs i.val).ofile = (s.fs.procs p.val).ofile)
    (hcw : (g.procs i.val).cwd = (s.fs.procs p.val).cwd) :
    s.Duplicate (s.forked i np k g) p i := by
  have hinv := h.inv_forked hk ht g
  have hchild : (s.forked i np k g).mem.procs i = np := update_self ..
  have hlive : np.state ≠ .unused := by
    rw [hf.state]
    decide
  have hsame : ∀ x ∈ s.mem.taskPages p, k.mem x = s.mem.k.mem x :=
    fun x hx => hk x (Mem.Sys.mem_others hpi hx)
  have hpages : s.mem.taskPages p = Mem.withSpace s.mem.k.mem (s.mem.procs p).pagetable
      (Mem.lookup s.mem.k.mem (s.mem.procs p).pagetable) (Mem.pagesUp (s.mem.procs p).sz)
      {(s.mem.procs p).trapframe} := if_neg hp.1
  have hlookup : Mem.lookup k.mem (s.mem.procs p).pagetable =
      Mem.lookup s.mem.k.mem (s.mem.procs p).pagetable := by
    refine Mem.lookup_congr (fun x hx => hsame x ?_)
    rw [hpages]
    exact Multiset.mem_add.mpr (.inl hx)
  refine ⟨fun n hn => ?_, ?_, ?_, hof, hcw⟩
  · obtain ⟨w, v, hw, hv, hflags, hmem⟩ := hf.pages n hn
    rw [hlookup] at hw
    rw [hchild]
    refine ⟨w, v, hw, hv, hflags, ?_, fun q hq hql u hu => ?_⟩
    · refine hmem.trans (hsame _ ?_)
      rw [hpages]
      exact Multiset.mem_add.mpr (.inr (Multiset.mem_add.mpr (.inl (Mem.mem_pagesOf hw hn))))
    · obtain ⟨l, -, hl⟩ := hinv.chain
      have hbound := ((h.mem.inv.good p).live hp.1).exact.bound
      have hown : (s.forked i np k g).mem.Owns l (.task i (.leaf n)) (Mem.pte2pa v) := by
        refine ⟨?_, v, ?_, .inr (by omega), rfl⟩
        · rw [hchild]
          exact hlive
        · rw [hchild]
          exact hv
      have hown' : (s.forked i np k g).mem.Owns l (.task q u) (Mem.pte2pa v) := ⟨hql, hu⟩
      have heq := hinv.owner_unique hl hown hown'
      simp only [Mem.Owner.task.injEq] at heq
      exact hq heq.1.symm
  · rw [hchild]
    exact hf.sz
  · rw [hchild]
    exact hf.regs

/-- The child of fork() is a copy of its parent, and neither can change what the other reads. -/
theorem fork_duplicates (h : s.Reachable) (hp : s.mem.Runs p) (hr : s.fork p = .ok (t, pid))
    (hpid : 0 < pid) :
    ∃ i, (s.mem.procs i).state = .unused ∧ (t.mem.procs i).pid = pid ∧ s.Duplicate t p i ∧
      ∀ q q', q = p ∧ q' = i ∨ q = i ∧ q' = p →
        ∀ ws u, run Mem.step t.mem (Mem.stores q ws) = some u →
          ∀ a, (u.procs q').readable u.k.mem a = (t.mem.procs q').readable t.mem.k.mem a := by
  rcases h.fork_cases hp with hnone | ⟨i, np, k, hi, hk, ⟨hbad, -⟩ | ⟨fs, hok, ht, -, hf, hof, hcw⟩⟩
  · rw [hnone] at hr
    cases hr
    omega
  · rw [hbad] at hr
    cases hr
    omega
  rw [hok] at hr
  cases hr
  have hpi : p ≠ i := fun he => hp.1 (he ▸ hi)
  have hinv := h.inv_forked hk ht fs
  have hchild : (s.forked i np k fs).mem.procs i = np := update_self ..
  have hparent : (s.forked i np k fs).mem.procs p = s.mem.procs p :=
    update_of_ne hpi _ _
  refine ⟨i, hi, ?_, Kernel.duplicate_of_forked h hp hpi hk ht hf hof hcw, ?_⟩
  · rw [hchild]
    exact hf.pid
  · intro q q' hqq ws u hu a
    rcases hqq with ⟨rfl, rfl⟩ | ⟨rfl, rfl⟩
    · refine hinv.stores_apart hu hpi.symm ?_ a
      rw [hchild, hf.state]
      decide
    · refine hinv.stores_apart hu hpi ?_ a
      rw [hparent]
      exact hp.1

theorem Kernel.noTrace_refl (h : s.Reachable) : s.NoTrace s := by
  obtain ⟨sb, hok⟩ := h.sysOk
  refine ⟨fun x => Iff.rfl, fun _ _ => rfl, fun _ _ _ => rfl, fun q hq => ?_, rfl⟩
  refine ⟨hq, ?_⟩
  obtain ⟨h1, h2, h3⟩ := (h.mem.inv.good q).free hq
  refine ⟨h1, h2, h3, hok.files.idle q.val ?_⟩
  rw [h.agree q, hq]
  decide

theorem Kernel.noTrace_forked (h : s.Reachable) (hi : (s.mem.procs i).state = .unused)
    (hk : Mem.Keeps (s.mem.others i) s.mem.k k) (ho : Mem.Owned (s.mem.others i) k) :
    s.NoTrace (s.forked i {} k s.fs) := by
  have hrefl := Kernel.noTrace_refl h
  have ho' := (h.mem.inv.holds i).owned
  rw [Mem.Task.pages_free _ hi, Multiset.zero_add] at ho'
  have hself : (s.forked i {} k s.fs).mem.procs i = {} := update_self ..
  have hother : ∀ q, q ≠ i → (s.forked i {} k s.fs).mem.procs q = s.mem.procs q :=
    fun q hq => update_of_ne hq _ _
  refine ⟨fun x => ?_, fun q hq => ?_, fun q x hx => ?_, fun q hq => ?_, rfl⟩
  · exact ho.free_iff.trans ho'.free_iff.symm
  · exact hother q (fun he => hq (he ▸ hi))
  · rcases eq_or_ne q i with rfl | hqi
    · rw [Mem.Sys.taskPages, Mem.Task.pages_free _ hi] at hx
      exact absurd hx (Multiset.notMem_zero x)
    · exact hk x (Mem.Sys.mem_others hqi hx)
  · rcases eq_or_ne q i with rfl | hqi
    · rw [hself]
      exact ⟨rfl, rfl, rfl, rfl, (hrefl.slots q hq).2.2.2.2⟩
    · rw [hother q hqi]
      exact hrefl.slots q hq

/-- fork() makes a child with every page it has asked for, or returns -1 and leaves no trace. -/
theorem failed_fork_leaves_no_trace (h : s.Reachable) (hp : s.mem.Runs p) :
    ∃ t r, s.fork p = .ok (t, r) ∧
      ((∃ i, (s.mem.procs i).state = .unused ∧ (t.mem.procs i).state = .runnable) ∧
          r = s.mem.nextpid ∧ Mem.Lucky s.mem.k t.mem.k ∨
        r = -1 ∧ s.NoTrace t) ∧
      ∀ j, (s.mem.k.luck = fun n => decide (n ≠ j)) → (∀ n, t.mem.k.luck n = true) →
        r = -1 ∧ s.NoTrace t := by
  have hsingle : ∀ t r, ((∃ i, (s.mem.procs i).state = .unused ∧
      (t.mem.procs i).state = .runnable) ∧ r = s.mem.nextpid ∧ Mem.Lucky s.mem.k t.mem.k ∨
        r = -1 ∧ s.NoTrace t) →
      ∀ j, (s.mem.k.luck = fun n => decide (n ≠ j)) → (∀ n, t.mem.k.luck n = true) →
        r = -1 ∧ s.NoTrace t := by
    intro t r ht j hj hall
    rcases ht with ⟨-, -, hl⟩ | ht
    · obtain ⟨n, hn⟩ := hl.single hj
      rw [hall n] at hn
      cases hn
    · exact ht
  rcases h.fork_cases hp with hnone | ⟨i, np, k, hi, hk, ⟨hbad, ho⟩ | ⟨fs, hok, ht, hl, hf, -⟩⟩
  · have hres := Kernel.noTrace_refl h
    exact ⟨s, -1, hnone, .inr ⟨rfl, hres⟩, hsingle _ _ (.inr ⟨rfl, hres⟩)⟩
  · have hres := Kernel.noTrace_forked h hi hk ho
    exact ⟨_, -1, hbad, .inr ⟨rfl, hres⟩, hsingle _ _ (.inr ⟨rfl, hres⟩)⟩
  · have hchild : (s.forked i np k fs).mem.procs i = np := update_self ..
    have hres : (∃ i', (s.mem.procs i').state = .unused ∧
        ((s.forked i np k fs).mem.procs i').state = .runnable) ∧
        s.mem.nextpid = s.mem.nextpid ∧ Mem.Lucky s.mem.k (s.forked i np k fs).mem.k :=
      ⟨⟨i, hi, by rw [hchild]; exact hf.state⟩, rfl, hl⟩
    exact ⟨_, _, hok, .inl hres, hsingle _ _ (.inl hres)⟩

end Layout

/-- The kernel with some memory and with the files of the first process, which has opened a
directory twice. -/
def withFiles (m : Option Mem.Sys) : Option Kernel :=
  m.bind (fun m => (run (Fs.step Fs.mkfsSb) (Fs.boot Fs.fresh) [.open 0 [47, 0] 0, .dup 0 0]).map
    (fun fs => ⟨m, fs⟩))

theorem reachable_withFiles (hm : ∀ m, mem = some m → @Mem.Reachable Mem.small m)
    (hs : withFiles mem = some s)
    (ha : ∀ p : Fin NPROC, (s.fs.procs p.val).state = (s.mem.procs p).state.fs) :
    @Kernel.Reachable Mem.small s := by
  obtain ⟨m, hmem, hf⟩ := Option.bind_eq_some_iff.mp hs
  obtain ⟨fs, hfs, rfl⟩ := Option.map_eq_some_iff.mp hf
  exact @Kernel.Reachable.mk Mem.small ⟨m, fs⟩ (hm m hmem)
    ⟨_, _, _, Fs.fresh_consistent, hfs⟩ ha

/-- fork() returns, and with this number. -/
def Kernel.Returns (r : Except Kernel.Stop (Kernel × Int)) (pid : Int) : Prop :=
  ∃ t, r = .ok (t, pid)

instance (r : Except Kernel.Stop (Kernel × Int)) (pid : Int) : Decidable (Kernel.Returns r pid) :=
  match r with
  | .error _ => isFalse (fun h => by obtain ⟨t, ht⟩ := h; cases ht)
  | .ok (t, n) =>
    if h : n = pid then isTrue ⟨t, by rw [h]⟩
    else isFalse (fun ⟨u, hu⟩ => h (by cases hu; rfl))

/-- A process of three pages with a few bytes in the second. -/
def grown : Option Mem.Sys :=
  Mem.trace [.sbrk Mem.init 5000, .store Mem.init 4100 [1, 2, 3]]

theorem fork_duplicates_grown : ∃ s t i, withFiles grown = some s ∧
    @Kernel.fork Mem.small s Mem.init = .ok (t, 2) ∧ s.Duplicate t Mem.init i ∧
    (t.fs.procs i.val).ofile 1 = some 0 ∧
    ∀ ws u, run (@Mem.step Mem.small) t.mem (Mem.stores i ws) = some u →
      ∀ a, (u.procs Mem.init).readable u.k.mem a =
        (t.mem.procs Mem.init).readable t.mem.k.mem a := by
  obtain ⟨s, hs, ha, hruns, hfd, t, ht⟩ : ∃ s, withFiles grown = some s ∧ (∀ p : Fin NPROC,
      (s.fs.procs p.val).state = (s.mem.procs p).state.fs) ∧ s.mem.Runs Mem.init ∧
      (s.fs.procs 0).ofile 1 = some 0 ∧ Kernel.Returns (@Kernel.fork Mem.small s Mem.init) 2 := by
    decide +kernel
  have hreach := reachable_withFiles (fun m hm => Mem.reachable_trace hm) hs ha
  obtain ⟨i, -, -, hdup, hread⟩ :=
    @fork_duplicates Mem.small s t Mem.init 2 hreach hruns ht (by decide)
  refine ⟨s, t, i, hs, ht, hdup, ?_, ?_⟩
  · rw [hdup.ofile]
    exact hfd
  · intro ws u hu
    exact hread i Mem.init (.inr ⟨rfl, rfl⟩) ws u hu

/-- Memory before the boot, on a machine where the twelfth kalloc() fails. -/
def unlucky : Mem.Kmem := ⟨fun _ _ => 0, 0, fun n => decide (n ≠ 11)⟩

theorem failed_fork_leaves_no_trace_unlucky :
    ∃ s t, withFiles (@Mem.main Mem.small 1 unlucky) = some s ∧
      @Kernel.fork Mem.small s Mem.init = .ok (t, -1) ∧ @Kernel.NoTrace s t := by
  obtain ⟨s, hs, ha, hruns, hpid, t, ht⟩ : ∃ s, withFiles (@Mem.main Mem.small 1 unlucky) = some s ∧
      (∀ p : Fin NPROC, (s.fs.procs p.val).state = (s.mem.procs p).state.fs) ∧ s.mem.Runs Mem.init ∧
      s.mem.nextpid = 2 ∧ Kernel.Returns (@Kernel.fork Mem.small s Mem.init) (-1) := by
    decide +kernel
  have hreach := reachable_withFiles (fun m hm => ⟨1, unlucky, m, [], rfl, hm, rfl⟩) hs ha
  obtain ⟨u, r, hu, hres, -⟩ := @failed_fork_leaves_no_trace Mem.small s Mem.init hreach hruns
  rw [ht] at hu
  cases hu
  rcases hres with ⟨-, hr, -⟩ | ⟨-, htrace⟩
  · rw [hpid] at hr
    omega
  · exact ⟨s, t, hs, ht, htrace⟩

end Xv6
