import Xv6.Fs.Files
import Xv6.Fs.Image

namespace Xv6.Fs

open Function Lib

section
variable {s t : Sys}

theorem FilesOk.sysDup (h : FilesOk 0 s) (hp : p < NPROC) (hu : (s.procs p).state = .used)
    (fd : Int) : Filed 0 (sysDup p fd) s := by
  rw [Filed, Fs.sysDup]
  refine (h.argfd p fd).bind ?_
  rintro r t ⟨rfl, hr⟩
  split
  · exact h
  rename_i d f
  refine (h.fdalloc hp hu (hr d f rfl).2).bind ?_
  rintro r' u ⟨hnone, hsome⟩
  split
  · rw [hnone rfl]
    exact h
  · rename_i fd'
    refine ((hsome fd' rfl).1.filedup f).imp ?_
    rintro _ v ⟨-, hv⟩
    rwa [sub_add_cancel] at hv

theorem FilesOk.sysClose (h : FilesOk 0 s) (p : Nat) (fd : Int) :
    Filed 0 (sysClose p fd) s := by
  rw [Filed, Fs.sysClose]
  refine (h.argfd p fd).bind ?_
  rintro r t ⟨rfl, hr⟩
  split
  · exact h
  · rename_i d f
    rw [outcome_bind, outcome_modify]
    refine ((h.take (hr d f rfl).1).fileclose f).imp ?_
    rintro _ v ⟨-, hv⟩
    rwa [add_sub_cancel_right] at hv

theorem FilesOk.sysRead (h : FilesOk 0 s) (sb : Superblock) (p : Nat) (fd : Int) (dst n : Nat) :
    Filed 0 (sysRead sb p fd dst n) s := by
  rw [Filed, Fs.sysRead]
  refine (h.argfd p fd).bind ?_
  rintro r t ⟨rfl, -⟩
  split
  · exact h
  · exact h.fileread sb _ dst n

theorem FilesOk.sysWrite (h : FilesOk 0 s) (sb : Superblock) (p : Nat) (fd : Int)
    (src : List Byte) (n : Nat) :
    Filed 0 (sysWrite sb p fd src n) s := by
  rw [Filed, Fs.sysWrite]
  refine (h.argfd p fd).bind ?_
  rintro r t ⟨rfl, -⟩
  split
  · exact h
  · exact h.filewrite sb _ src n

theorem FilesOk.withPath (h : FilesOk e s) {m : Nat → List Byte → Sc Unit}
    (hm : ∀ cwd path, Filed e (m cwd path) s) :
    Filed e (withPath p bytes m) s := by
  rw [Filed, Fs.withPath, outcome_bind, outcome_get]
  split
  · exact hm _ _
  · exact h

theorem FilesOk.sysLink (h : FilesOk 0 s) (sb : Superblock) (p : Nat) (old new : List Byte) :
    Filed 0 (sysLink sb p old new) s := by
  refine h.withPath (fun cwd old => h.withPath (fun _ new => ?_))
  exact (h.below _).bind (fun _ _ ht => ht)

theorem FilesOk.sysUnlink (h : FilesOk 0 s) (sb : Superblock) (p : Nat) (path : List Byte) :
    Filed 0 (sysUnlink sb p path) s := by
  refine h.withPath (fun cwd path => ?_)
  exact (h.below _).bind (fun _ _ ht => ht)

theorem FilesOk.makeNode (h : FilesOk 0 s) (sb : Superblock) (p : Nat) (path : List Byte)
    (type : Nat) (major minor : BitVec 16) :
    Filed 0 (makeNode sb p path type major minor) s := by
  refine h.withPath (fun cwd path => ?_)
  refine (h.below _).bind (fun r t ht => ?_)
  split
  · exact ht
  · exact ht.below _

theorem FilesOk.sysOpen (h : FilesOk 0 s) (hp : p < NPROC) (hu : (s.procs p).state = .used)
    (sb : Superblock) (path : List Byte) (omode : BitVec 32) :
    Filed 0 (sysOpen sb p path omode) s := by
  refine h.withPath (fun cwd path => ?_)
  refine (h.onCore _).bind ?_
  rintro r s1 ⟨h1, hp1⟩
  split
  · exact h1
  rename_i x
  rw [outcome_bind, outcome_get]
  refine Outcome.ite (fun _ => h1.below _) (fun _ => ?_)
  refine (h1.newFd hp (by rw [hp1]; exact hu)).bind ?_
  rintro r' s2 ⟨h2, hf⟩
  split
  · exact h2.below _
  rename_i f
  rw [outcome_bind, outcome_modify, outcome_bind]
  have h3 := h2.openFile (hf f rfl).1 (hf f rfl).2 x (s1.core.itable x).copy omode
  have h4 : Filed 0 (onlyIf (omode &&& O_TRUNC ≠ 0 ∧ (s1.core.itable x).copy.type = T_FILE)
      (Fs.onCore (onInode x (fun inum ip => do
        let ip ← itrunc inum ip
        return ((), ip)))))
      (s2.setFile f (Fs.openFile (s2.ftable f) x (s1.core.itable x).copy omode)) := by
    unfold onlyIf
    exact Outcome.ite (fun _ => h3.below _) (fun _ => h3)
  exact h4.imp (fun _ s4 h4 => h4.below _)

theorem FilesOk.sysChdir (h : FilesOk 0 s) (hu : (s.procs p).state = .used) (sb : Superblock)
    (path : List Byte) :
    Filed 0 (sysChdir sb p path) s := by
  refine h.withPath (fun cwd path => ?_)
  refine (h.onCore _).bind ?_
  rintro r s1 ⟨h1, hp1⟩
  split
  · exact h1
  refine (h1.onCore _).bind ?_
  rintro _ s2 ⟨h2, hp2⟩
  refine (h2.onCore _).bind ?_
  rintro type s3 ⟨h3, hp3⟩
  refine Outcome.ite (fun _ => ?_) (fun _ => h3.below _)
  refine (h3.onCore _).bind ?_
  rintro _ s4 ⟨h4, hp4⟩
  refine (h4.onCore _).bind ?_
  rintro _ s5 ⟨h5, hp5⟩
  rw [outcome_modify]
  refine h5.setProc rfl ?_
  intro hn
  refine absurd ?_ hn
  change (s5.procs p).state = .used
  rw [hp5, hp4, hp3, hp2, hp1]
  exact hu

theorem FilesOk.sysExec (h : FilesOk 0 s) (sb : Superblock) (p : Nat) (path : List Byte)
    (reads : List (Nat × Nat)) :
    Filed 0 (sysExec sb p path reads) s := by
  refine h.withPath (fun cwd path => ?_)
  refine (h.below _).bind (fun r s1 h1 => ?_)
  split
  · exact h1
  · refine (h1.below _).bind (fun _ s2 h2 => ?_)
    refine (Outcome.forM (fun _ t => FilesOk 0 t) ?_ h2).bind (fun _ s3 h3 => h3.below _)
    intro r _ t ht
    exact (ht.below _).bind (fun _ _ hu => hu)

theorem FilesOk.sysReap (h : FilesOk 0 s) (q : Nat) :
    Filed 0 (sysReap q) s := by
  rw [Filed, Fs.sysReap, outcome_bind, outcome_get]
  refine Outcome.ite (fun hz => ?_) (fun _ => h)
  rw [outcome_set]
  exact h.setProc rfl (fun _ => h.idle q (by simp [hz]))

theorem FilesOk.sysExit (h : FilesOk 0 s) (p : Nat) :
    Filed 0 (sysExit p) s := by
  rw [Filed, Fs.sysExit, outcome_bind, outcome_get]
  refine Outcome.ite (fun _ => trivial) (fun _ => ?_)
  split
  · exact h
  refine (h.closeAll p).bind ?_
  rintro _ s1 ⟨h1, hnone, -⟩
  refine (h1.onCore _).bind ?_
  rintro _ s2 ⟨h2, hp2⟩
  rw [outcome_modify]
  refine h2.setProc rfl (fun _ fd => ?_)
  rw [Sys.fds, hp2]
  exact hnone fd

theorem FilesOk.sysPipe (h : FilesOk 0 s) (hp : p < NPROC) (hu : (s.procs p).state = .used)
    (mem copied : Bool) :
    Filed 0 (sysPipe p mem copied) s := by
  rw [Filed, Fs.sysPipe]
  refine (h.pipealloc mem).bind ?_
  rintro r s1 ⟨hp1, hnone, hsome⟩
  split
  · exact hnone rfl
  rename_i rf wf
  obtain ⟨hrf, hwf, h1⟩ := hsome rf wf rfl
  have hu1 : (s1.procs p).state = .used := by rw [hp1]; exact hu
  refine (h1.fdalloc hp hu1 hrf).bind ?_
  rintro r0 s2 ⟨hnone0, hsome0⟩
  split
  · rw [hnone0 rfl]
    exact h1.closeBoth
  rename_i fd0
  obtain ⟨h2, -, -, rfl⟩ := hsome0 fd0 rfl
  rw [add_sub_cancel_left] at h2
  have hu2 : ((s1.setFd p fd0 (some rf)).procs p).state = .used := by
    rw [state_setFd]
    exact hu1
  have hfd0 : (s1.setFd p fd0 (some rf)).fds (p, fd0) = some rf := by simp [fds_setFd]
  refine (h2.fdalloc hp hu2 hwf).bind ?_
  rintro r1 s3 ⟨hnone1, hsome1⟩
  split
  · rw [hnone1 rfl, outcome_bind, outcome_modify]
    have h3 := h2.take hfd0
    rw [add_comm] at h3
    exact h3.closeBoth
  rename_i fd1
  obtain ⟨h3, -, hfree, rfl⟩ := hsome1 fd1 rfl
  rw [sub_self] at h3
  have hne : ((p, fd0) : Nat × Nat) ≠ (p, fd1) := by
    intro he
    rw [← he, hfd0] at hfree
    cases hfree
  refine Outcome.ite (fun _ => h3) (fun _ => ?_)
  rw [outcome_bind, outcome_modify, outcome_bind, outcome_modify]
  have hs0 : ((s1.setFd p fd0 (some rf)).setFd p fd1 (some wf)).fds (p, fd0) = some rf := by
    rw [fds_setFd, update_of_ne hne]
    exact hfd0
  have hs1 : (((s1.setFd p fd0 (some rf)).setFd p fd1 (some wf)).setFd p fd0 none).fds
      (p, fd1) = some wf := by
    simp [fds_setFd, hne.symm]
  have h4 := (h3.take hs0).take hs1
  rw [zero_add] at h4
  exact h4.closeBoth

/-- fork() gives the child the descriptors and the directory of its parent. -/
theorem FilesOk.sysFork_ends (h : FilesOk 0 s) (hu : (s.procs p).state = .used)
    (hnp : (List.range NPROC).find? (fun q => (s.procs q).state == .unused) = some np)
    (hcwd : (s.procs p).cwd = some cwd) :
    Ends (Fs.sysFork p true) s (fun _ t => FilesOk 0 t ∧
      (t.procs np).ofile = (s.procs p).ofile ∧ (t.procs np).cwd = some cwd) := by
  have hun : (s.procs np).state = .unused := by simpa using List.find?_some hnp
  have hlt : np < NPROC := List.mem_range.mp (List.mem_of_find?_eq_some hnp)
  have hne : p ≠ np := by
    rintro rfl
    rw [hu] at hun
    cases hun
  have h1 : FilesOk 0 (s.setProc np { s.procs np with state := .used }) :=
    h.setProc rfl (by simp)
  have hfds : (s.setProc np { s.procs np with state := .used }).fds = s.fds := by
    funext q
    rcases eq_or_ne q.1 np with hq | hq <;> simp [Sys.fds, Sys.setProc, hq]
  rw [Fs.sysFork, ends_bind, ends_get, hnp, hcwd]
  simp only [ite_true]
  rw [ends_bind, ends_set, ends_bind]
  -- the child has the descriptors of the turns that are over
  refine (Ends.forM (fun fds t => FilesOk 0 t ∧ fds.Nodup ∧ (t.procs np).state = .used ∧
    (∀ fd, t.fds (p, fd) = s.fds (p, fd)) ∧
    ∀ fd, t.fds (np, fd) = if fd ∈ fds then none else s.fds (p, fd)) ?_ ?_).mono ?_
  · rintro fd fds t ⟨ht, hnd, hst, hpar, hchild⟩
    obtain ⟨hnot, hnd⟩ := List.nodup_cons.mp hnd
    have hnone : t.fds (np, fd) = none := by simp [hchild fd]
    refine (ht.dupFd_ends hlt hst hnone).mono (fun _ u hu' => ?_)
    obtain ⟨huok, hfd, hst', -⟩ := hu'
    refine ⟨huok, hnd, (hst' np).trans hst, fun d => ?_, fun d => ?_⟩
    · rw [hfd, update_of_ne (by simp [hne])]
      exact hpar d
    · rcases eq_or_ne d fd with rfl | hd
      · rw [hfd, update_self, if_neg hnot, hpar]
      · rw [hfd, update_of_ne (by simp [hd]), hchild d]
        simp [hd]
  · refine ⟨h1, List.nodup_range, by simp [Sys.setProc], fun fd => by rw [hfds], fun fd => ?_⟩
    rw [hfds, h.idle np (by simp [hun]) fd]
    by_cases hfd : fd ∈ List.range NOFILE
    · rw [if_pos hfd]
    · rw [if_neg hfd]
      cases hf : s.fds (p, fd) with
      | none => rfl
      | some f => exact absurd (List.mem_range.mpr (h.bound p fd f hf).2.1) hfd
  · rintro _ t ⟨ht, -, hst, -, hchild⟩
    refine ⟨(), _, rfl, (ht.core _).setProc rfl (fun hn => absurd hst hn), ?_, ?_⟩
    · funext fd
      have := hchild fd
      simp only [List.not_mem_nil, if_false] at this
      simp only [Sys.setProc, update_self]
      exact this
    · simp [Sys.setProc]

theorem FilesOk.sysFork (h : FilesOk 0 s) (hu : (s.procs p).state = .used) (mem : Bool) :
    Filed 0 (sysFork p mem) s := by
  cases hnp : (List.range NPROC).find? (fun q => (s.procs q).state == .unused) with
  | none => simpa [Filed, Fs.sysFork, hnp] using h
  | some np =>
    cases hcwd : (s.procs p).cwd with
    | none => simpa [Filed, Fs.sysFork, hnp, hcwd] using h
    | some cwd =>
      cases mem with
      | false => simpa [Filed, Fs.sysFork, hnp, hcwd] using h
      | true => exact (h.sysFork_ends hu hnp hcwd).outcome.imp (fun _ _ ht => ht.1)

theorem FilesOk.call (h : FilesOk 0 s) (sb : Superblock) (c : Call) (hp : c.proc < NPROC)
    (hu : (s.procs c.proc).state = .used) :
    Filed 0 (c.run sb) s := by
  cases c with
  | «open» p path omode => exact h.sysOpen hp hu sb path omode
  | close p fd => exact h.sysClose p fd
  | dup p fd => exact h.sysDup hp hu fd
  | read p fd dst n => exact h.sysRead sb p fd dst n
  | write p fd src n => exact h.sysWrite sb p fd src n
  | link p old new => exact h.sysLink sb p old new
  | unlink p path => exact h.sysUnlink sb p path
  | mkdir p path => exact h.makeNode sb p path T_DIR 0 0
  | mknod p path major minor => exact h.makeNode sb p path T_DEVICE major minor
  | chdir p path => exact h.sysChdir hu sb path
  | exec p path reads => exact h.sysExec sb p path reads
  | pipe p mem copied => exact h.sysPipe hp hu mem copied
  | fork p mem => exact h.sysFork hu mem
  | exit p => exact h.sysExit p
  | reap p q => exact h.sysReap q

theorem step_run (hs : step sb s c = some t) :
    c.proc < NPROC ∧ (s.procs c.proc).state = .used ∧ (c.run sb).run s = .ok ((), t) := by
  unfold step at hs
  split at hs
  · rename_i hc
    refine ⟨hc.1, hc.2, ?_⟩
    cases hr : (c.run sb).run s with
    | ok r =>
      rw [hr] at hs
      cases hs
      rfl
    | error e =>
      rw [hr] at hs
      cases hs
  · cases hs

theorem FilesOk.step (h : FilesOk 0 s) (hs : step sb s c = some t) : FilesOk 0 t := by
  obtain ⟨hp, hu, hr⟩ := step_run hs
  exact (h.call sb c hp hu).returns hr

theorem filesOk_boot (disk : Disk) : FilesOk 0 (boot disk) := by
  have hfds : ∀ q, (boot disk).fds q = none := by
    intro q
    unfold Sys.fds boot
    dsimp only
    split <;> rfl
  have hend : ∀ f n w, ¬ ((boot disk).ftable f).IsEnd n w := by
    intro f n w
    simp [File.IsEnd, boot]
  refine ⟨?_, ?_, fun _ _ => rfl, fun p _ fd => hfds (p, fd), ?_⟩
  · intro f
    exact ⟨0, census_none (by simp [hfds]), rfl⟩
  · intro p fd f hf
    rw [hfds] at hf
    cases hf
  · refine ⟨?_, ?_, ?_, ?_, ?_⟩
    · intro f n w hf
      exact absurd hf (hend f n w)
    · intro f g n w hf
      exact absurd hf (hend f n w)
    all_goals
      intro n hn
      exact absurd hn (by simp [boot])

/-- How many descriptors of all processes point to file f. -/
def fdRefs (s : Sys) (f : Nat) : Nat :=
  ((Finset.range NPROC ×ˢ Finset.range NOFILE).filter
    (fun q => (s.procs q.1).ofile q.2 = some f)).card

/-- Reference counts of files, descriptors of free slots, and the two sides of every pipe. -/
structure FilesExact (s : Sys) : Prop where
  ref : ∀ f < NFILE, (s.ftable f).ref = fdRefs s f
  unused : ∀ p < NPROC, (s.procs p).state = .unused →
    ∀ fd < NOFILE, (s.procs p).ofile fd = none
  readopen : ∀ n < s.npipes, (s.pipes n).readopen = true ↔
    ∃ f < NFILE, 0 < (s.ftable f).ref ∧ (s.ftable f).IsEnd n false
  writeopen : ∀ n < s.npipes, (s.pipes n).writeopen = true ↔
    ∃ f < NFILE, 0 < (s.ftable f).ref ∧ (s.ftable f).IsEnd n true
  freed : ∀ n < s.npipes,
    (s.pipes n).freed = (!((s.pipes n).readopen || (s.pipes n).writeopen)).toNat

theorem FilesOk.ref_eq (h : FilesOk 0 s) (f : Nat) : (s.ftable f).ref = fdRefs s f := by
  obtain ⟨n, ⟨F, hF, rfl⟩, hr⟩ := h.counted f
  have hset : F = (Finset.range NPROC ×ˢ Finset.range NOFILE).filter
      (fun q => (s.procs q.1).ofile q.2 = some f) := by
    ext q
    rw [hF q, Finset.mem_filter, Finset.mem_product, Finset.mem_range, Finset.mem_range]
    constructor
    · intro hq
      obtain ⟨hp, hfd, -⟩ := h.bound q.1 q.2 f hq
      exact ⟨⟨hp, hfd⟩, hq⟩
    · exact fun hq => hq.2
  rw [fdRefs, ← hset]
  simpa using hr

theorem FilesOk.lt_of_ref (h : FilesOk 0 s) (hr : (s.ftable f).ref ≠ 0) : f < NFILE := by
  by_contra hge
  obtain ⟨n, hc, hn⟩ := h.counted f
  have hnone : Census (· = some f) s.fds 0 :=
    census_none (fun q hq => hge (h.bound q.1 q.2 f hq).2.2)
  have hz := hc.unique hnone
  simp only [hz, Nat.cast_zero, Pi.zero_apply] at hn
  omega

theorem FilesOk.isEnd_iff (h : FilesOk 0 s) (n : Nat) (w : Bool) :
    (∃ f, (s.ftable f).IsEnd n w) ↔
      ∃ f < NFILE, 0 < (s.ftable f).ref ∧ (s.ftable f).IsEnd n w := by
  constructor
  · rintro ⟨f, hf⟩
    have hr : (s.ftable f).ref ≠ 0 := by
      intro hz
      have ht := hf.1
      rw [h.closed f hz] at ht
      cases ht
    exact ⟨f, h.lt_of_ref hr, Nat.pos_of_ne_zero hr, hf⟩
  · rintro ⟨f, -, -, hf⟩
    exact ⟨f, hf⟩

theorem FilesOk.exact (h : FilesOk 0 s) : FilesExact s := by
  refine ⟨fun f _ => h.ref_eq f, ?_, ?_, ?_, h.pipes.freed⟩
  · intro p _ hp fd _
    exact h.idle p (by simp [hp]) fd
  · intro n hn
    rw [h.pipes.reading n hn, h.isEnd_iff]
  · intro n hn
    rw [h.pipes.writing n hn, h.isEnd_iff]

/-- After every sequence of calls from boot on, on any disk, counts of files are exact. -/
theorem files_exact (sb : Superblock) (disk : Disk) (cs : List Call)
    (hr : run (step sb) (boot disk) cs = some s) : FilesExact s := by
  have hinv : FilesOk 0 s := by
    refine run_invariant ?_ (filesOk_boot disk) hr
    intro s c t h hs
    exact h.step hs
  exact hinv.exact

/-- A directory opened and duplicated, a pipe shared with a child, a pipe() that fails, and both
ends of the first pipe closed by everybody. -/
def sharedPipe : List Call :=
  [.open 0 [47, 0] 0, .dup 0 0, .pipe 0 true true, .fork 0 true, .close 1 3, .pipe 1 true false,
    .exit 1, .reap 0 1, .close 0 2, .close 0 3]

theorem files_exact_sharedPipe : ∃ s, run (step mkfsSb) (boot fresh) sharedPipe = some s ∧
    FilesExact s ∧ (s.ftable 0).ref = 2 ∧ (s.pipes 0).freed = 1 := by
  obtain ⟨s, hs, hp⟩ : ∃ s, run (step mkfsSb) (boot fresh) sharedPipe = some s ∧
      (s.ftable 0).ref = 2 ∧ (s.pipes 0).freed = 1 := by decide +kernel
  exact ⟨s, hs, files_exact mkfsSb fresh sharedPipe hs, hp⟩

end

end Xv6.Fs
