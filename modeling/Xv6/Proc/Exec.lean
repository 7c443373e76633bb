import Xv6.Mem.Args
import Xv6.Proc.Fork

namespace Xv6
open Lib

/-- What exec() works on: memory, the inodes, the transactions that have begun, and the fields of
its process. -/
structure Execing where
  k : Mem.Kmem
  core : Fs.Core
  outstanding : Nat
  pagetable : Mem.Addr
  sz : Mem.Addr
  name : List Fs.Byte

abbrev Ex := Prog Execing Kernel.Stop

def onMem (x : Mem.Km α) : Ex α := within Execing.k (fun s k => { s with k := k }) .mem x

def onInodes (x : Fs.Ic α) : Ex α := within Execing.core (fun s c => { s with core := c }) .fs x

def beginOp : Ex Unit := modify (fun s => { s with outstanding := s.outstanding + 1 })

def endOp : Ex Unit := modify (fun s => { s with outstanding := s.outstanding - 1 })

/-- The part of the path after its last slash. -/
def lastName : List Fs.Byte → List Fs.Byte → List Fs.Byte
  | last, [] => last
  | last, c :: s => lastName (if c = Fs.slash then s else last) s

/-- exec() with the inodes and the log. The bytes of the file are given by ip, and none is the
result -1. -/
def execFile [Mem.Image] (sb : Fs.Superblock) (cwd : Nat) (trapframe : Mem.Addr)
    (path : List Fs.Byte) (ip : Mem.File) (argv : List (List Mem.Byte)) : Ex (Option Nat) := do
  beginOp
  match ← onInodes (Fs.namei sb cwd path) with
  | none => do
    endOp
    pure none
  | some x => do
    onInodes (Fs.ilock x)
    match ← onMem (Mem.execLoad trapframe ip) with
    | .bad pagetable sz => do
      let _ ← onMem (Mem.execUndo pagetable sz)
      onInodes (Fs.iunlockput x)
      endOp
      pure none
    | .ready pagetable sz => do
      onInodes (Fs.iunlockput x)
      endOp
      match ← onMem (Mem.execStack pagetable sz) with
      | .bad pagetable sz => do
        let _ ← onMem (Mem.execUndo pagetable sz)
        pure none
      | .ready pagetable sz => do
        let s ← get
        match ← onMem (Mem.execCommit trapframe s.pagetable s.sz pagetable sz
          (Mem.Elfhdr.ofBytes (ip.read 0 64)).entry argv) with
        | none => pure none
        | some p => do
          modify (fun s => { s with
            pagetable := p.pagetable, sz := p.sz, name := (lastName path path).take 15 })
          pure (some p.argc)

/-- exec() has left no trace: its process and the memory of every process are as before, the
same pages are free, and no reference, lock or transaction is kept. -/
structure Execing.NoTrace (m : Mem.Sys) (s t : Execing) : Prop where
  pagetable : t.pagetable = s.pagetable
  sz : t.sz = s.sz
  name : t.name = s.name
  memory : ∀ q, ∀ x ∈ m.taskPages q, t.k.mem x = s.k.mem x
  free : ∀ x, t.k.Free x ↔ s.k.Free x
  refs : ∀ x < Fs.NINODE, (t.core.itable x).ref = (s.core.itable x).ref
  locks : ∀ x < Fs.NINODE, (t.core.itable x).locked = false
  outstanding : t.outstanding = s.outstanding

/-- exec() by process p starts. -/
def Execing.start (m : Mem.Sys) (p : Fin NPROC) (core : Fs.Core) (name : List Fs.Byte) (n : Nat) :
    Execing := ⟨m.k, core, n, (m.procs p).pagetable, (m.procs p).sz, name⟩

/-- No lock is held, and every inode has the references it has in c. -/
def Fs.Core.Released (c c' : Fs.Core) : Prop :=
  ∀ x < Fs.NINODE, (c'.itable x).ref = (c.itable x).ref ∧ (c'.itable x).locked = false

/-- The inode that exec() has found can be locked, and iunlockput() gives it back. -/
theorem Fs.Mid.found {g : Fs.Sys} (h : Fs.Mid sb e 0 ∅ g) (hc : (g.procs p).cwd = some cwd)
    (hn : (Fs.namei sb cwd path).run g.core = .ok (some x, c))
    (ht : (c.disk.inodes (c.itable x).inum).type ≠ 0) :
    Ends (Fs.ilock x) c (fun _ c1 =>
      Ends (Fs.iunlockput x) c1 (fun _ c2 => g.core.Released c2)) := by
  have A : Fs.Permits (fun _ => True) (fun _ => True) e g :=
    ⟨⟨fun _ _ _ => trivial, fun _ _ _ _ _ _ => trivial, fun _ _ _ => trivial⟩, trivial,
      fun _ _ _ => trivial⟩
  obtain ⟨hcnt, hR⟩ := A.caller h hc
  obtain ⟨-, -, hsome⟩ := (Fs.Ok.namei A.lookup (by simp) (fun j hj => hj.held 0) h.core hcnt
    A.root hR (.refl _ _) path).returns hn
  obtain ⟨i, hok, -⟩ := hsome x rfl
  have hmem : (x, i) ∈ ((x, i) ::ₘ 0 : Fs.Locals) := Multiset.mem_cons_self _ _
  have hnum : (c.itable x).inum = i := (hok.inside _ hmem).2
  have hlock := hok.lock (E := fun _ => False) hmem (fun hx => absurd hx (Finset.notMem_empty x))
    (fun hz => ht (by rw [hnum, ← Fs.view_type]; exact hz))
  refine hlock.ends.mono (fun _ c1 h1 => ?_)
  have hput := h1.1.iunlockput (Finset.mem_insert_self _ _) (E := fun _ => False)
  refine hput.ends.mono (fun _ c2 h2 y hy => ?_)
  have href : (c2.itable y).ref = (g.core.itable y).ref := by
    rw [h2.1.ref y hy, h.core.ref y hy]
  refine ⟨href, ?_⟩
  have hnot : y ∉ (insert x (∅ : Finset Nat)).erase x := by simp
  rw [← Bool.not_eq_true, h2.1.locks y hy]
  exact hnot

section Layout
variable [Mem.Image]

/-- The state when exec() returns -1. -/
theorem noTrace_of_none (h : Mem.Inv m) (hp : m.Runs p) {core c : Fs.Core}
    (hk : Mem.ExecEnds (m.others p) (m.procs p).pagetable (m.procs p).trapframe
      (Mem.pagesUp (m.procs p).sz) (Mem.lookup m.k.mem (m.procs p).pagetable) m.k none k)
    (hc : core.Released c) (name : List Fs.Byte) (n : Nat) :
    Execing.NoTrace m (.start m p core name n)
      ⟨k, c, n, (m.procs p).pagetable, (m.procs p).sz, name⟩ := by
  obtain ⟨ho, hk⟩ := hk
  have ho' := (h.space hp.1).table.owned
  refine ⟨rfl, rfl, rfl, fun q x hx => hk x ?_, fun x => ?_, fun x hx => (hc x hx).1,
    fun x hx => (hc x hx).2, rfl⟩
  · rcases eq_or_ne q p with rfl | hq
    · rw [Mem.Sys.taskPages, Mem.Task.pages, if_neg hp.1] at hx
      refine Multiset.mem_of_le ?_ hx
      refine Multiset.add_le_add_left (Multiset.add_le_add_left ?_)
      exact Multiset.singleton_le.mpr (Multiset.mem_cons_self _ _)
    · refine Multiset.mem_add.mpr (.inr (Multiset.mem_add.mpr (.inr ?_)))
      exact Multiset.mem_cons_of_mem (Mem.Sys.mem_others hq hx)
  · exact ho.free_iff.trans ho'.free_iff.symm

/-- exec() of a file that has been found returns, whatever is in the file and whenever kalloc()
fails, and when it returns -1 it leaves no trace. -/
theorem exec_safe_and_atomic (hm : Mem.Reachable m) (hp : m.Runs p) (hd : Fs.Consistent sb disk)
    (hg : run (Fs.step sb) (Fs.boot disk) cs = some g) (hc : (g.procs q).cwd = some cwd)
    (hn : (Fs.namei sb cwd path).run g.core = .ok (some x, c))
    (ht : (c.disk.inodes (c.itable x).inum).type ≠ 0) (ip : Mem.File)
    (argv : List (List Mem.Byte)) (name : List Fs.Byte) (n : Nat) :
    Ends (execFile sb cwd (m.procs p).trapframe path ip argv) (.start m p g.core name n)
      (fun r t => r = none → Execing.NoTrace m (.start m p g.core name n) t) := by
  obtain ⟨e, hmid⟩ := (Fs.sysOk_run hd hg).mid
  obtain ⟨_, c1, hl, hput⟩ := hmid.found hc hn ht
  have h0 := hm.inv.space hp.1
  have hfail : ∀ k c2, Mem.ExecEnds (m.others p) (m.procs p).pagetable (m.procs p).trapframe
      (Mem.pagesUp (m.procs p).sz) (Mem.lookup m.k.mem (m.procs p).pagetable) m.k none k →
      g.core.Released c2 → Execing.NoTrace m (.start m p g.core name n)
        ⟨k, c2, n, (m.procs p).pagetable, (m.procs p).sz, name⟩ :=
    fun k c2 hk hc2 => noTrace_of_none hm.inv hp hk hc2 name n
  rw [execFile, ends_bind, beginOp, ends_modify, ends_bind]
  refine .within ⟨_, _, hn, ?_⟩
  simp only
  rw [ends_bind]
  refine .within ⟨_, _, hl, ?_⟩
  simp only
  rw [ends_bind]
  refine .within ((Mem.execLoad_ends h0.table.owned _ ip).mono (fun r k1 h1 => ?_))
  cases r with
  | bad pt sz =>
    simp only
    rw [ends_bind]
    refine .within (((h1.execUndo (fun _ _ => rfl)).and h1.undo_none).mono (fun r k2 h2 => ?_))
    obtain ⟨h2, rfl⟩ := h2
    rw [ends_bind]
    refine .within (hput.mono (fun _ c2 hc2 => ?_))
    rw [ends_bind, endOp, ends_modify, ends_pure]
    intro _
    exact hfail k2 c2 h2 hc2
  | ready pt sz =>
    simp only
    rw [ends_bind]
    refine .within (hput.mono (fun _ c2 hc2 => ?_))
    rw [ends_bind, endOp, ends_modify, ends_bind]
    refine .within (h1.2.execStack.mono (fun r k2 h2 => ?_))
    cases r with
    | bad pt' sz' =>
      simp only
      rw [ends_bind]
      refine .within (((h2.execUndo h1.1).and h2.undo_none).mono (fun r k3 h3 => ?_))
      obtain ⟨h3, rfl⟩ := h3
      rw [ends_pure]
      intro _
      exact hfail k3 c2 h3 hc2
    | ready pt' sz' =>
      obtain ⟨hk2, rfl, j, f, hf⟩ := h2
      simp only
      rw [ends_bind, ends_get, ends_bind]
      refine .within ((h0.execCommit hf.commit (h1.1.trans hk2)).mono (fun r k3 h3 => ?_))
      cases r with
      | none =>
        simp only
        rw [ends_pure]
        intro _
        exact hfail k3 c2 h3 hc2
      | some q =>
        simp only
        rw [ends_bind, ends_modify, ends_pure]
        intro hr
        cases hr

end Layout

/-- A file that ends before the segment that its headers announce. -/
def cutElf : Mem.File := Mem.fileOf (Mem.tinyElf.take 120)

theorem exec_safe_and_atomic_cut : ∃ m t, Mem.trace [] = some m ∧
    (@execFile Mem.small Fs.mkfsSb 0 (m.procs Mem.init).trapframe [47] cutElf [[97]]).run
      (.start m Mem.init (Fs.boot Fs.fresh).core [] 0) = .ok (none, t) ∧
    Execing.NoTrace m (.start m Mem.init (Fs.boot Fs.fresh).core [] 0) t := by
  have hd : (Mem.trace []).any (fun m => decide (m.Runs Mem.init) &&
      ((@execFile Mem.small Fs.mkfsSb 0 (m.procs Mem.init).trapframe [47] cutElf [[97]]).run
        (.start m Mem.init (Fs.boot Fs.fresh).core [] 0)).toOption.any (fun r => r.1.isNone)) =
      true := by decide +kernel
  have hf : ((Fs.namei Fs.mkfsSb 0 [47]).run (Fs.boot Fs.fresh).core).toOption.any (fun r =>
      r.1.any (fun x => decide ((r.2.disk.inodes (r.2.itable x).inum).type ≠ 0))) = true := by
    decide +kernel
  obtain ⟨m, hm, hp⟩ := (Option.any_eq_true _ _).mp hd
  rw [Bool.and_eq_true] at hp
  obtain ⟨⟨x, c⟩, hn, hx⟩ := ok_of_any hf
  obtain ⟨x, rfl, ht⟩ := (Option.any_eq_true _ _).mp hx
  obtain ⟨r, t, hr, hres⟩ := @exec_safe_and_atomic Mem.small m Mem.init Fs.mkfsSb Fs.fresh []
    (Fs.boot Fs.fresh) 0 0 [47] x c (Mem.reachable_trace hm) (of_decide_eq_true hp.1)
    Fs.fresh_consistent rfl rfl hn (of_decide_eq_true ht) cutElf [[97]] [] 0
  rw [hr] at hp
  cases r with
  | some q => cases hp.2
  | none => exact ⟨m, t, hm, hr, hres rfl⟩

end Xv6
