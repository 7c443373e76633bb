import Mathlib.Logic.Relation
import Xv6.Fs.Layout
import Xv6.Fs.Reach
import Xv6.Log.Crash

namespace Xv6.Fs

open List Lib

/-- The bytes of the blocks the log handles as words. -/
def bytesOf (d : Log.Disk) : Image := fun b o =>
  if h : o / 4 < BSIZE / 4 then (d b ⟨o / 4, h⟩).extractLsb' (8 * (o % 4)) 8 else 0

def wordsOf (img : Image) : Log.Disk := fun b w =>
  img b (4 * w + 3) ++ img b (4 * w + 2) ++ img b (4 * w + 1) ++ img b (4 * w)

/-- A kernel with its disk. -/
structure Machine where
  sys : Sys
  node : Log.Node

/-- What happens to a machine. A crash comes after the first k block writes of a commit, and some
recoveries after it are cut in turn. -/
inductive Event (g : Log.Geometry) where
  | call (c : Call)
  | commit (G : Log.Group g)
  | crash (G : Log.Group g) (k : Nat) (retries : List Nat)

/-- The log is recovered, the inode table is empty. -/
def reboot (sb : Superblock) (g : Log.Geometry) (d : Log.Disk) : Machine :=
  ⟨boot (decode sb (bytesOf (Log.restart g d).disk)), Log.restart g d⟩

/-- With the group installed the disk holds what the calls so far have made of the tree. -/
def Machine.Flushes (sb : Superblock) (m : Machine) (G : Log.Group g) : Prop :=
  Shows sb (bytesOf (G.install m.node.disk)) m.sys.core.disk

/-- end_op() commits after one or more calls; an empty group stands for a crash between commits. -/
inductive Machine.Step (sb : Superblock) (g : Log.Geometry) (m : Machine) :
    Event g → Machine → Prop
  | call (hs : Fs.step sb m.sys c = some s) : Machine.Step sb g m (.call c) ⟨s, m.node⟩
  | commit (hG : m.Flushes sb G) :
      Machine.Step sb g m (.commit G) ⟨m.sys, m.node.commit g G⟩
  | crash (hG : G.writes = [] ∨ m.Flushes sb G) :
      Machine.Step sb g m (.crash G k retries)
        (reboot sb g (retries.foldl (Log.retry g) (m.node.crash g G k)))

/-- unlink() takes the last link of no inode that is open or a current directory. -/
def Call.unheld (s : Sys) : Call → Bool
  | .unlink p path => ((argstr path).bind (s.lookup p)).all fun i =>
      (s.view i).nlink != 1 || (List.range NINODE).all fun x =>
        (s.core.itable x).ref == 0 || (s.core.itable x).inum != i
  | _ => true

def Event.Safe (m : Machine) : Event g → Prop
  | .call c => c.careful m.sys = true ∧ c.unheld m.sys = true
  | _ => True

/-- From m to m' by events that are safe where they happen. -/
def Machine.Reaches (sb : Superblock) (g : Log.Geometry) : Machine → Machine → Prop :=
  Relation.ReflTransGen fun m m' => ∃ e : Event g, e.Safe m ∧ m.Step sb g e m'

/-- Every inode on the disk has a link. -/
def NoLeak (sb : Superblock) (d : Log.Disk) : Prop :=
  ∀ i < sb.ninodes, (dinodeAt sb (bytesOf d) i).type ≠ 0 →
    1 ≤ (dinodeAt sb (bytesOf d) i).nlink.toInt

/-- Every allocated inode has a link. -/
def AllLinked (V : View) : Prop := ∀ i, (V i).type ≠ 0 → (V i).nlink ≠ 0

/-- A disk with a tree on it, and an empty log before the inodes. -/
structure TreeDisk (sb : Superblock) (g : Log.Geometry) (d : Log.Disk) : Prop where
  area : g.start + g.size ≤ sb.inodestart
  size : sb.datastart ≤ sb.size
  empty : d g.start 0 = 0
  tree : TreeImage sb (decode sb (bytesOf d))
  linked : AllLinked (decode sb (bytesOf d)).view

/-- Between events: the tree in memory, and on the disk the tree of the last commit. -/
structure Durable (sb : Superblock) (g : Log.Geometry) (m : Machine) : Prop where
  kept : Kept sb m.sys
  linked : AllLinked m.sys.view
  rest : Log.Rest m.node
  clean : Log.Clean g m.node.disk m.node.disk
  image : ∃ d, Shows sb (bytesOf m.node.disk) d ∧ TreeImage sb d ∧ AllLinked d.view

section
variable {sb : Superblock} {g : Log.Geometry} {m m' : Machine} {s t : Sys} {d d' : Log.Disk}
  {disk : Disk} {c : Call}

/-- The first j transactions of a write of n bytes are those of a shorter write. -/
theorem filewriteLoop_cut (sb : Superblock) (f n : Nat) (src : List Byte) (j i fuel : Nat)
    (hf : min n (i + j * writeMax) ≤ i + fuel) :
    filewriteLoop sb f n src j i = filewriteLoop sb f (min n (i + j * writeMax)) src fuel i := by
  have hmax : writeMax = 3072 := rfl
  induction j generalizing i fuel with
  | zero => cases fuel <;> simp [filewriteLoop]
  | succ j ih =>
    simp only [hmax] at hf ih ⊢
    by_cases hi : i < n
    · obtain ⟨fuel, rfl⟩ : ∃ k, fuel = k + 1 := ⟨fuel - 1, by omega⟩
      rw [filewriteLoop, filewriteLoop, if_pos hi, if_pos (by omega)]
      dsimp only
      rw [ih _ fuel (by omega), show min n (i + min (n - i) writeMax + j * 3072) =
          min n (i + (j + 1) * 3072) by omega,
        show min (min n (i + (j + 1) * 3072) - i) writeMax = min (n - i) writeMax by omega]
    · cases fuel <;> simp [filewriteLoop, hi]

/-- Closing a file looks at no process. -/
theorem outcome_release_setFd {Q : Unit → Sys → Prop} :
    Outcome (release file) (s.setFd p fd o) E Q ↔
      Outcome (release file) s E (fun a t => Q a (t.setFd p fd o)) := by
  unfold release
  split
  · exact Iff.rfl
  · rw [outcome_onCore, outcome_onCore]
    exact Iff.rfl
  · rw [outcome_onCore, outcome_onCore]
    exact Iff.rfl
  · exact Iff.rfl

theorem outcome_fileclose_setFd {Q : Unit → Sys → Prop} :
    Outcome (fileclose f) (s.setFd p fd o) E Q ↔
      Outcome (fileclose f) s E (fun a t => Q a (t.setFd p fd o)) := by
  unfold fileclose
  rw [outcome_bind, outcome_get, outcome_bind, outcome_get,
    show (s.setFd p fd o).ftable = s.ftable from rfl]
  split
  · exact Iff.rfl
  · split
    · exact Iff.rfl
    · rw [outcome_bind, outcome_set, outcome_bind, outcome_set]
      exact outcome_release_setFd (s := s.setFile f _)

/-- exit() closes a file as close() does. -/
theorem outcome_closeFd {Q : Unit → Sys → Prop} (hfd : fd < NOFILE) :
    Outcome (closeFd p fd) s E Q ↔ Outcome (sysClose p fd) s E Q := by
  have hrange : (0 : Int) ≤ fd ∧ (fd : Int) < NOFILE := ⟨by omega, by omega⟩
  simp only [closeFd, sysClose, argfd, outcome_bind, outcome_get, if_pos hrange, outcome_pure,
    Int.toNat_natCast]
  cases (s.procs p).ofile fd with
  | none => exact Iff.rfl
  | some f =>
    show Outcome (fileclose f >>= fun _ => modify fun s => s.setFd p fd none) s E Q ↔
      Outcome (modify (fun s => s.setFd p fd none) >>= fun _ => fileclose f) s E Q
    rw [outcome_bind, outcome_bind, outcome_modify]
    exact outcome_fileclose_setFd.symm

theorem closeFd_state (p fd : Nat) : Outcome (closeFd p fd) s (fun _ => True)
    (fun _ t => (t.procs p).state = (s.procs p).state) := by
  have hcore : ∀ (m : Ic Unit) (u : Sys),
      Outcome (onCore m) u (fun _ => True) (fun _ t => t.procs = u.procs) := by
    intro m u
    rw [outcome_onCore, Outcome]
    split <;> trivial
  have hclose : ∀ f, Outcome (fileclose f) s (fun _ => True) (fun _ t => t.procs = s.procs) := by
    intro f
    rw [fileclose, outcome_bind, outcome_get]
    refine Outcome.ite (fun _ => trivial) (fun _ => Outcome.ite (fun _ => rfl) (fun _ => ?_))
    rw [outcome_bind, outcome_set]
    unfold release
    split
    · rfl
    · exact hcore _ _
    · exact hcore _ _
    · rfl
  rw [closeFd, outcome_bind, outcome_get]
  cases (s.procs p).ofile fd with
  | none => rfl
  | some f =>
    show Outcome (fileclose f >>= fun _ => modify fun s => s.setFd p fd none) s _ _
    refine (hclose f).bind ?_
    intro _ t ht
    rw [outcome_modify, Sys.setFd, Sys.setProc]
    simp [ht]

/-- The files exit() has closed when one of its transactions ends are closed by close(). -/
theorem exit_cut {fds : List Nat} (hp : p < NPROC) (hu : (s.procs p).state = .used)
    (hfds : ∀ fd ∈ fds, fd < NOFILE)
    (hr : Outcome (fds.forM (closeFd p)) s (fun _ => False) (fun _ u => u = t)) :
    run (Fs.step sb) s (fds.map fun fd : Nat => .close p fd) = some t := by
  induction fds generalizing s with
  | nil =>
    cases hr
    rfl
  | cons fd fds ih =>
    have hfd := hfds fd mem_cons_self
    have hr : Outcome (closeFd p fd >>= fun _ => fds.forM (closeFd p)) s (fun _ => False)
        (fun _ u => u = t) := hr
    rw [outcome_bind] at hr
    obtain ⟨r, u, hclose, hrest⟩ := hr.ends
    have hstate := (closeFd_state p fd).returns hclose
    have hsame : Outcome (sysClose p fd) s (fun _ => False) (fun _ v => v = u) := by
      rw [← outcome_closeFd hfd, Outcome, hclose]
    obtain ⟨r, v, hrun, rfl⟩ := hsame.ends
    have hstep : Fs.step sb s (.close p fd) = some v := step_of_run hp hu hrun
    rw [map_cons, run, hstep]
    exact ih (hstate.trans hu) (fun x hx => hfds x (mem_cons_of_mem _ hx)) hrest

/-- The second descriptor of a file that another process has open, too. -/
def twice : Sys := ((boot fresh).setFile 0 ⟨.device, 2, true, true, 0, 0, 0, 0⟩).setFd 0 1 (some 0)

theorem exit_cut_twice : ∃ t, run (Fs.step mkfsSb) twice
    ([0, 1].map fun fd : Nat => .close 0 fd) = some t ∧ (t.ftable 0).ref = 1 :=
  ⟨_, exit_cut (by decide) rfl (by decide) rfl, rfl⟩

theorem extract_append (x y z w : Byte) :
    (x ++ y ++ z ++ w).extractLsb' 0 8 = w ∧ (x ++ y ++ z ++ w).extractLsb' 8 8 = z ∧
      (x ++ y ++ z ++ w).extractLsb' 16 8 = y ∧ (x ++ y ++ z ++ w).extractLsb' 24 8 = x := by
  refine ⟨?_, ?_, ?_, ?_⟩
  all_goals
    apply BitVec.eq_of_getLsbD_eq
    intro i hi
    simp only [BitVec.getLsbD_extractLsb', BitVec.getLsbD_append]
  · simp [hi]
  · simp [hi]
  · simp [hi, show ¬ 16 + i < 8 by omega, show 16 + i - 8 = 8 + i by omega]
  · simp [hi, show ¬ 24 + i < 8 by omega, show 24 + i - 8 = 16 + i by omega,
      show ¬ 16 + i < 8 by omega, show 16 + i - 8 = 8 + i by omega]

theorem bytesOf_wordsOf (img : Image) (b : Nat) (ho : o < BSIZE) :
    bytesOf (wordsOf img) b o = img b o := by
  have hlt : o / 4 < BSIZE / 4 := by
    unfold BSIZE at *
    omega
  rw [bytesOf, dif_pos hlt]
  unfold wordsOf
  dsimp only
  have hq : 4 * (o / 4) + o % 4 = o := Nat.div_add_mod o 4
  have hj : o % 4 < 4 := Nat.mod_lt _ (by decide)
  generalize o / 4 = q at hq
  generalize o % 4 = j at hq hj
  subst hq
  obtain ⟨h0, h1, h2, h3⟩ := extract_append (img b (4 * q + 3)) (img b (4 * q + 2))
    (img b (4 * q + 1)) (img b (4 * q))
  match j, hj with
  | 0, _ => exact h0
  | 1, _ => exact h1
  | 2, _ => exact h2
  | 3, _ => exact h3

/-- The log does not touch what the file system looks at. -/
theorem Shows.of_clean (h : Shows sb (bytesOf d') disk) (hc : Log.Clean g d d')
    (hg : g.start + g.size ≤ sb.inodestart) : Shows sb (bytesOf d) disk := by
  apply h.congr
  intro b hb _ o _
  have hout : ¬ g.Area b := by
    rintro ⟨-, hlt⟩
    omega
  rw [bytesOf, bytesOf, hc.home b hout]

theorem TreeImage.of_shows (h : Shows sb img disk) (ht : TreeImage sb disk)
    (hsz : sb.datastart ≤ sb.size) : TreeImage sb (decode sb img) ∧
      (decode sb img).view = disk.view := by
  have hfs := ht.consistent.fs
  have hview : (decode sb img).view = disk.view := by
    apply h.view hfs
    intro i hi
    have := ht.counts.nlink i
    unfold Disk.view at this
    simpa [hi] using this
  refine ⟨⟨⟨h.fsOk hfs hsz, ?_⟩, ht.few, ?_, ?_⟩, hview⟩
  · rw [h.type_eq hfs]
    exact ht.consistent.root
  · rw [hview]
    exact ht.counts
  · rw [hview]
    exact ht.rooted

theorem Kept.tree (h : Kept sb s) (hN : sb.ninodes ≤ 32765) : TreeImage sb s.core.disk := by
  obtain ⟨e, hm⟩ := h.sys.mid
  refine ⟨⟨hm.core.fs, ?_⟩, hN, h.counts, h.rooted⟩
  rw [← view_type]
  exact h.rooted.dir

/-- The machine is fine after a reboot from any disk that recovers to a good image. -/
theorem Durable.reboot (hg : g.start + g.size ≤ sb.inodestart) (hsz : sb.datastart ≤ sb.size)
    (hc : Log.Clean g (Log.restart g d).disk d') (hs : Shows sb (bytesOf d') disk)
    (ht : TreeImage sb disk) (hl : AllLinked disk.view) : Durable sb g (reboot sb g d) := by
  have hs' := hs.of_clean hc hg
  obtain ⟨ht', hview⟩ := ht.of_shows hs' hsz
  refine ⟨kept_boot ht', ?_, Log.restart_rest g d, ⟨hc.empty, fun _ _ => rfl⟩,
    disk, hs', ht, hl⟩
  show AllLinked (decode sb (bytesOf (Log.restart g d).disk)).view
  rw [hview]
  exact hl

theorem SysOk.unlink_settles (h : SysOk sb s) (hst : Fs.step sb s (.unlink p bytes) = some t) :
    ∃ e, Mid sb e 0 ∅ s ∧ Settled e s.view t.view := by
  obtain ⟨e, hm⟩ := h.mid
  obtain ⟨-, -, hr⟩ := step_run hst
  have A : Permits (fun _ => True) (fun _ => True) e s :=
    ⟨⟨fun _ _ _ => trivial, fun _ _ _ _ _ _ => trivial, fun _ _ _ => trivial⟩, trivial,
      fun _ _ _ => trivial⟩
  have hout := hm.sysUnlink_settles (D := fun _ => False) h.procs A
    ⟨fun _ _ _ _ _ _ _ _ _ => trivial, fun _ _ _ _ _ _ _ => trivial⟩ p bytes
  exact ⟨e, hm, (hout.returns hr).2⟩

theorem Counts.nlink_pos (h : Counts sb X V) (hn : (V i).nlink ≠ 0) : 1 ≤ (V i).nlink.toInt := by
  have hne : (V i).nlink.toInt ≠ 0 := fun h0 => hn (BitVec.eq_of_toInt_eq h0)
  have hpos := h.covered.nonneg i
  rw [h.nlink i] at hne ⊢
  unfold owed at hpos
  split at hpos <;> omega

/-- The inode whose last link unlink() took had one. -/
theorem Effect.last_link (h : Effect sb H P V V') (hP : ∀ a, P a → a.Removes i)
    (hi : (V' i).type ≠ 0) (hn : (V' i).nlink = 0) :
    (V i).nlink = 0 ∨ (V i).nlink = 1 := by
  rcases h with ht | ⟨V1, V2, a, h1, ha, hm, h2⟩
  · left
    rwa [ht.eq_of_type hi] at hn
  rw [h2.eq_of_type hi] at hn
  rcases h1 i with he | ⟨-, hz, -⟩
  · cases hm with
    | unlink hd hk hl hi0 hne ht hdot hpos hempty =>
      have hij := hP _ ha
      cases hij
      rw [Function.update_self] at hn
      right
      rw [← he]
      have hn : (V1 i).nlink + BitVec.ofInt 16 (-1) = 0 := hn
      rw [add_eq_zero_iff_eq_neg.mp hn]
      rfl
    | create hv hn' hne hfree hi' ht => exact (hP _ ha).elim
    | link hv hn' hne hi' h0' ht => exact (hP _ ha).elim
  · exact .inl hz

theorem Mid.not_held (h : Mid sb e 0 ∅ s)
    (hall : ∀ x < NINODE, (s.core.itable x).ref = 0 ∨ (s.core.itable x).inum ≠ i) :
    ¬ e.Holds i := by
  rintro ⟨x, hx, hnum⟩
  obtain ⟨hlt, hinum, -⟩ := h.core.outside x hx
  rcases hall x hlt with h0 | hne
  · have href := h.core.ref x hlt
    omega
  · exact hne (hinum.trans hnum)

/-- A call that takes the last link of no inode in use leaves none without a link. -/
theorem Kept.step_linked (h : Kept sb s) (hl : AllLinked s.view) (hN : sb.ninodes ≤ 32765)
    (hc : c.careful s = true) (hu : c.unheld s = true) (hst : Fs.step sb s c = some t) :
    AllLinked t.view := by
  intro i hi hn
  obtain ⟨hp, hused, -⟩ := step_run hst
  obtain ⟨hcount, -⟩ := Bool.and_eq_true_iff.mp hc
  obtain ⟨-, hd⟩ := h.sys.step hst
  obtain ⟨-, hcounts, hkeep, hnew⟩ := h.rooted.effect h.counts hN hd.effect
    (fun a ha => ⟨Call.countable_spare hcount ha, h.within hp hused ha⟩)
  have hunlinked : ¬ Linked t.view i := fun hli => hcounts.linked_nlink hli hn
  have h0 : (s.view i).type ≠ 0 := fun h0 => hunlinked (hnew i h0 hi)
  have hlinked : Linked s.view i := by
    apply h.linked
    rw [← h.counts.nlink i]
    exact h.counts.nlink_pos (hl i h0)
  obtain ⟨a, ha, hrem⟩ : ∃ a, c.Makes s a ∧ a.Removes i := by
    by_contra hno
    push Not at hno
    exact hunlinked (hkeep i hlinked hno)
  obtain ⟨p, bytes, path, rfl, hpath, hlook⟩ := Call.removes ha hrem
  have hone : (s.view i).nlink = 1 := by
    refine (hd.effect.last_link ?_ hi hn).resolve_left (hl i h0)
    intro a' ha'
    obtain ⟨d, name, j, rfl⟩ : ∃ d name j, a' = .unlink d name j := by
      obtain ⟨-, d, name, j, -, he, -⟩ := ha'
      exact ⟨d, name, j, he⟩
    obtain ⟨p', bytes', path', hcall, hpath', hlook'⟩ := Call.removes ha' (i := j) rfl
    cases hcall
    rw [hpath] at hpath'
    cases hpath'
    rw [hlook] at hlook'
    exact Option.some.inj hlook'
  obtain ⟨e, hm, hset⟩ := h.sys.unlink_settles hst
  simp only [Call.unheld, hpath, Option.bind_some, hlook, Option.all_some, hone, bne_self_eq_false,
    Bool.false_or, all_eq_true, mem_range, Bool.or_eq_true, beq_iff_eq,
    bne_iff_ne] at hu
  exact hl i h0 (hset i (hm.not_held hu) hi hn)

/-- The disk after a crash: the group was installed, or nothing of it was. -/
theorem crash_clean {n : Log.Node} (hr : Log.Rest n) (hc : Log.Clean g n.disk n.disk)
    (G : Log.Group g) (k : Nat) (retries : List Nat) :
    ∃ d, Log.Clean g (Log.restart g (retries.foldl (Log.retry g) (n.crash g G k))).disk d ∧
      (d = n.disk ∨ d = G.install n.disk) := by
  have h := Log.session_clean hr hc ⟨[], G, k, retries⟩
  unfold Log.Session.committed at h
  split at h
  · exact ⟨_, h, .inr rfl⟩
  · exact ⟨_, h, .inl rfl⟩

theorem Durable.step (h : Durable sb g m) (hg : g.start + g.size ≤ sb.inodestart)
    (hsz : sb.datastart ≤ sb.size) (hN : sb.ninodes ≤ 32765) {e : Event g} (he : e.Safe m)
    (hst : m.Step sb g e m') : Durable sb g m' := by
  obtain ⟨disk, hshow, htree, hall⟩ := h.image
  cases hst with
  | call hs =>
    exact ⟨h.kept.step hN he.1 hs, h.kept.step_linked h.linked hN he.1 he.2 hs, h.rest, h.clean,
      disk, hshow, htree, hall⟩
  | commit hG =>
    rename_i G
    have hc := Log.commit_clean h.rest h.clean G
    exact ⟨h.kept, h.linked, Log.commit_rest h.rest G, ⟨hc.empty, fun _ _ => rfl⟩,
      m.sys.core.disk, Shows.of_clean hG hc hg, h.kept.tree hN, h.linked⟩
  | crash hG =>
    rename_i G k retries
    obtain ⟨d, hc, hd | hd⟩ := crash_clean h.rest h.clean G k retries
    · rw [hd] at hc
      exact Durable.reboot hg hsz hc hshow htree hall
    · rw [hd] at hc
      rcases hG with hempty | hG
      · rw [Log.install_empty G _ hempty] at hc
        exact Durable.reboot hg hsz hc hshow htree hall
      · exact Durable.reboot hg hsz hc hG (h.kept.tree hN) h.linked

theorem durable_reboot (h : TreeDisk sb g d) : Durable sb g (reboot sb g d) :=
  Durable.reboot h.area h.size (Log.restart_clean ⟨h.empty, fun _ _ => rfl⟩) (shows_decode sb _)
    h.tree h.linked

theorem Durable.noLeak (h : Durable sb g m) : NoLeak sb m.node.disk := by
  obtain ⟨disk, hshow, htree, hall⟩ := h.image
  intro i hi ht
  rw [hshow.types i hi] at ht
  have hpos := htree.counts.nlink_pos (hall i (by rwa [view_type]))
  rw [view_nlink ht] at hpos
  rwa [(hshow.inodes i hi ht).nlink]

/-- Every inode that is on the disk after a crash has a link, if no unlink() took the last link
of an inode in use. -/
theorem crash_leaks_nothing (h : TreeDisk sb g d) (hr : Machine.Reaches sb g (reboot sb g d) m) :
    NoLeak sb m.node.disk := by
  suffices hd : Durable sb g m from hd.noLeak
  induction hr with
  | refl => exact durable_reboot h
  | tail _ hstep ih =>
    obtain ⟨e, he, hst⟩ := hstep
    exact ih.step h.area h.size h.tree.few he hst

theorem nlog_pos : 0 < 30 := by decide

/-- The log of mkfs: 30 blocks behind the super block. -/
def mkfsLog : Log.Geometry := ⟨2, 30, nlog_pos⟩

/-- The empty file system on a disk. -/
def freshDisk : Log.Disk := wordsOf (encode mkfsSb fresh)

/-- A commit of the inode blocks, the bitmap and the first data block. -/
def mkfsGroup (d : Disk) : Log.Group mkfsLog where
  writes := (List.range' 32 15).map fun b => (BitVec.ofNat 32 b, wordsOf (encode mkfsSb d) b)
  nodup := by
    rw [map_map]
    exact (by decide : ((List.range' 32 15).map (BitVec.ofNat 32)).Nodup)
  home := by
    intro w hw
    obtain ⟨b, hb, rfl⟩ := mem_map.mp hw
    have hb := mem_range'_1.mp hb
    rintro ⟨-, hlt⟩
    have hlt : (BitVec.ofNat 32 b).toNat < 32 := hlt
    rw [BitVec.toNat_ofNat, Nat.mod_eq_of_lt (by omega)] at hlt
    omega
  room := by
    rw [length_map, length_range']
    decide
  fits := by
    rw [length_map, length_range']
    decide

theorem mkfsGroup_install (d : Disk) (raw : Log.Disk) (hb : 32 ≤ b ∧ b < 47) :
    (mkfsGroup d).install raw b = wordsOf (encode mkfsSb d) b := by
  apply applyWrites_mem _ _ (mkfsGroup d).home_nodup (w := (b, wordsOf (encode mkfsSb d) b))
  refine mem_map.mpr ⟨(BitVec.ofNat 32 b, wordsOf (encode mkfsSb d) b), ?_, ?_⟩
  · exact mem_map.mpr ⟨b, mem_range'_1.mpr ⟨hb.1, by omega⟩, rfl⟩
  · rw [BitVec.toNat_ofNat, Nat.mod_eq_of_lt (by omega)]

/-- No inode has a block besides the first data block. -/
def Disk.oneBlock (d : Disk) : Bool :=
  (List.range 200).all fun i => decide ((d.inodes i).type < 65536) &&
    (decide ((d.inodes i).type = 0) || (List.range 13).all fun k =>
      decide ((d.inodes i).addrs k = 0 ∨ k < 12 ∧ (d.inodes i).addrs k = 46))

theorem oneBlock_flushes {d : Disk} (hf : FsOk mkfsSb d) (h : d.oneBlock = true) (raw : Log.Disk) :
    Shows mkfsSb (bytesOf ((mkfsGroup d).install raw)) d := by
  simp only [Disk.oneBlock, all_eq_true, mem_range, Bool.and_eq_true, Bool.or_eq_true,
    decide_eq_true_eq] at h
  apply (encode_shows hf fun i hi => (h i hi).1).congr
  intro b hb hin o ho
  have hlt : b < 47 := by
    rcases hin with hlt | ⟨-, i, k, ho, -⟩
    · exact Nat.lt_succ_of_lt hlt
    obtain ⟨ht, hs, h0⟩ := owns_eq_some.mp ho
    have haddr := (h i (hf.inum i ht).2).2.resolve_left ht
    have hind : (d.inodes i).addrs NDIRECT = 0 :=
      (haddr 12 (by omega)).resolve_right (fun hk => absurd hk.1 (by omega))
    by_cases hk : k ≤ NDIRECT
    · rw [slotAddr_le hk] at hs
      have := haddr k (Nat.lt_succ_of_le hk)
      omega
    · rw [slotAddr, if_neg hk, if_neg (fun hc => hc.2 hind)] at hs
      exact absurd hs.symm h0
  rw [show bytesOf ((mkfsGroup d).install raw) b o = bytesOf (wordsOf (encode mkfsSb d)) b o by
    rw [bytesOf, bytesOf, mkfsGroup_install d raw ⟨hb, hlt⟩], bytesOf_wordsOf _ _ ho]

theorem fresh_types : ∀ i < mkfsSb.ninodes, (fresh.inodes i).type < 65536 := by
  intro i _
  unfold fresh
  dsimp only
  split
  · decide
  · decide

theorem freshDisk_shows : Shows mkfsSb (bytesOf freshDisk) fresh := by
  apply (encode_shows fresh_consistent.fs fresh_types).congr
  intro b _ _ o ho
  exact bytesOf_wordsOf _ _ ho

theorem freshDisk_tree : TreeDisk mkfsSb mkfsLog freshDisk := by
  obtain ⟨ht, hview⟩ := fresh_tree.of_shows freshDisk_shows (by decide)
  refine ⟨by decide, by decide, rfl, ht, ?_⟩
  rw [hview]
  intro i hi
  rw [view_type] at hi
  rw [view_nlink hi]
  unfold fresh at hi ⊢
  dsimp only at hi ⊢
  split at hi
  · rw [if_pos (by assumption)]
    decide
  · exact absurd rfl hi

/-- No writes. -/
def noGroup (g : Log.Geometry) : Log.Group g := ⟨[], nodup_nil, by simp, by simp, by simp⟩

/-- A crash after a commit leaves the committed state on the disk. -/
theorem committed_shows {n : Log.Node} {G : Log.Group g} (hr : Log.Rest n)
    (hc : Log.Clean g n.disk n.disk) (hs : Shows sb (bytesOf (G.install n.disk)) disk)
    (hg : g.start + g.size ≤ sb.inodestart) :
    Shows sb (bytesOf (reboot sb g ((n.commit g G).crash g (noGroup g) 0)).node.disk) disk := by
  have hcommit := Log.commit_clean hr hc G
  obtain ⟨d, hcrash, hd⟩ := crash_clean (Log.commit_rest hr G) ⟨hcommit.empty, fun _ _ => rfl⟩
    (noGroup g) 0 []
  rw [Log.install_empty (noGroup g) _ rfl, or_self] at hd
  rw [hd] at hcrash
  exact (hs.of_clean hcommit hg).of_clean hcrash hg

theorem Shows.leaks (h : Shows sb (bytesOf d) disk) (hi : i < sb.ninodes)
    (ht : (disk.inodes i).type ≠ 0) (hn : (disk.inodes i).nlink = 0) : ¬ NoLeak sb d := by
  intro hno
  have hpos := hno i hi (by rwa [h.types i hi])
  rw [(h.inodes i hi ht).nlink, hn] at hpos
  exact absurd hpos (by decide)

/-- The state after calls on the empty file system, committed before the power fails. -/
theorem committed_calls
    (hs : run (Fs.step mkfsSb) (reboot mkfsSb mkfsLog freshDisk).sys cs = some s)
    (hone : s.core.disk.oneBlock = true) :
    Machine.Flushes mkfsSb ⟨s, (reboot mkfsSb mkfsLog freshDisk).node⟩ (mkfsGroup s.core.disk) ∧
    Shows mkfsSb (bytesOf (reboot mkfsSb mkfsLog
      (((reboot mkfsSb mkfsLog freshDisk).node.commit mkfsLog (mkfsGroup s.core.disk)).crash mkfsLog
        (noGroup mkfsLog) 0)).node.disk) s.core.disk := by
  have hstart := durable_reboot freshDisk_tree
  have hok := run_invariant (fun _ _ _ hi hst => (SysOk.step hi hst).1) hstart.kept.sys hs
  obtain ⟨e, hm⟩ := hok.mid
  have hG := oneBlock_flushes hm.core.fs hone (reboot mkfsSb mkfsLog freshDisk).node.disk
  exact ⟨hG, committed_shows hstart.rest hstart.clean hG (by decide)⟩

/-- A file is removed while it is open. -/
def leaking : List Call := [.open 0 [102, 0] 0x202, .unlink 0 [102, 0]]

/-- The power fails before the file is closed. -/
theorem open_file_leaks : ∃ s m m',
    run (Fs.step mkfsSb) (reboot mkfsSb mkfsLog freshDisk).sys leaking = some s ∧
    Machine.Step mkfsSb mkfsLog ⟨s, (reboot mkfsSb mkfsLog freshDisk).node⟩
      (.commit (mkfsGroup s.core.disk)) m ∧
    m.Step mkfsSb mkfsLog (.crash (noGroup mkfsLog) 0 []) m' ∧
    (dinodeAt mkfsSb (bytesOf m'.node.disk) 2).type = T_FILE ∧
    (dinodeAt mkfsSb (bytesOf m'.node.disk) 2).nlink = 0 ∧ ¬ NoLeak mkfsSb m'.node.disk := by
  have hd : (run (Fs.step mkfsSb) (reboot mkfsSb mkfsLog freshDisk).sys leaking).any (fun s =>
      s.core.disk.oneBlock && decide ((s.core.disk.inodes 2).type = T_FILE ∧
        (s.core.disk.inodes 2).nlink = 0)) = true := by
    decide +kernel
  obtain ⟨s, hs, hp⟩ := (Option.any_eq_true _ _).mp hd
  obtain ⟨hone, hfile⟩ := Bool.and_eq_true_iff.mp hp
  obtain ⟨htype, hnlink⟩ := of_decide_eq_true hfile
  obtain ⟨hG, hshow⟩ := committed_calls hs hone
  have h2 : (2 : Nat) < mkfsSb.ninodes := by decide
  have htype' := (hshow.types 2 h2).trans htype
  have hnlink' := (hshow.inodes 2 h2 (by rw [htype]; decide)).nlink.trans hnlink
  exact ⟨s, _, _, hs, .commit hG, .crash (.inl rfl), htype', hnlink',
    hshow.leaks h2 (by rw [htype]; decide) hnlink⟩

theorem reaches_calls {n : Log.Node}
    (hg : Along (Fs.step sb) (fun s c => c.careful s = true ∧ c.unheld s = true) s cs)
    (hr : run (Fs.step sb) s cs = some t) : Machine.Reaches sb g ⟨s, n⟩ ⟨t, n⟩ := by
  induction cs generalizing s with
  | nil =>
    cases hr
    exact .refl
  | cons c cs ih =>
    obtain ⟨u, hu, ht⟩ := run_cons.mp hr
    obtain ⟨hc, hg⟩ := along_cons hg hu
    exact .head ⟨.call c, hc, .call hu⟩ (ih hg ht)

/-- A file is given another name and loses its first one while it is open. -/
def retaining : List Call :=
  [.open 0 [102, 0] 0x202, .link 0 [102, 0] [103, 0], .unlink 0 [102, 0]]

theorem crash_leaks_nothing_retaining :
    ∃ m, Machine.Reaches mkfsSb mkfsLog (reboot mkfsSb mkfsLog freshDisk) m ∧
      (dinodeAt mkfsSb (bytesOf m.node.disk) 2).type = T_FILE ∧ NoLeak mkfsSb m.node.disk := by
  have hd : (run (Fs.step mkfsSb) (reboot mkfsSb mkfsLog freshDisk).sys retaining).any (fun s =>
      s.core.disk.oneBlock && decide ((s.core.disk.inodes 2).type = T_FILE)) = true := by
    decide +kernel
  have hg : Along (Fs.step mkfsSb) (fun s c => c.careful s = true ∧ c.unheld s = true)
      (reboot mkfsSb mkfsLog freshDisk).sys retaining := by
    decide +kernel
  obtain ⟨s, hs, hp⟩ := (Option.any_eq_true _ _).mp hd
  obtain ⟨hone, hfile⟩ := Bool.and_eq_true_iff.mp hp
  have htype := of_decide_eq_true hfile
  obtain ⟨hG, hshow⟩ := committed_calls hs hone
  have hreach : Machine.Reaches mkfsSb mkfsLog (reboot mkfsSb mkfsLog freshDisk) _ :=
    ((reaches_calls hg hs).tail ⟨.commit _, trivial, .commit hG⟩).tail
      ⟨.crash (noGroup mkfsLog) 0 [], trivial, .crash (.inl rfl)⟩
  exact ⟨_, hreach, (hshow.types 2 (by decide)).trans htype,
    crash_leaks_nothing freshDisk_tree hreach⟩

end

end Xv6.Fs
