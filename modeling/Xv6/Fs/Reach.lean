import Xv6.Fs.LinkCount
import Xv6.Fs.Rooted

namespace Xv6.Fs

open Lib

/-- unlink() does not remove the current directory of a process. -/
def Call.polite (s : Sys) : Call → Bool
  | .unlink p path => ((argstr path).bind (s.lookup p)).all fun i =>
      (List.range NPROC).all fun q => s.dir q != some i
  | _ => true

def Call.careful (s : Sys) (c : Call) : Bool := c.countable s && c.polite s

/-- An image that is a tree, with exact link counts. -/
structure TreeImage (sb : Superblock) (disk : Disk) : Prop where
  consistent : Consistent sb disk
  few : sb.ninodes ≤ 32765
  counts : Counts sb True disk.view
  rooted : Rooted disk.view

/-- Between two calls the tree is rooted, and all processes are in linked directories. -/
structure Kept (sb : Superblock) (s : Sys) : Prop where
  sys : SysOk sb s
  counts : Counts sb True s.view
  rooted : Rooted s.view
  cwds : ∀ p j, s.dir p = some j → Linked s.view j

/-- Every inode with a link is named in an allocated directory. -/
def AllNamed (s : Sys) : Prop :=
  ∀ i, (s.core.disk.inodes i).type ≠ 0 → 1 ≤ (s.core.disk.inodes i).nlink.toInt → i ≠ ROOTINO →
    ∃ d k name, (s.core.disk.inodes d).type = T_DIR ∧ 2 ≤ k ∧
      (entries s.core.disk.data (s.core.disk.inodes d))[k]? = some ⟨i, name⟩

/-- No call by a live process locks a free inode. -/
def NoFreeLock (sb : Superblock) (s : Sys) : Prop :=
  ∀ c : Call, c.proc < NPROC → (s.procs c.proc).state = .used →
    (c.run sb).run s ≠ .error .noType

section
variable {sb : Superblock} {s t : Sys} {disk : Disk} {c : Call} {V : View}

theorem walk_concat (hw : walk V i front = some d) (hd : (V d).type = T_DIR)
    (hl : (V d).lookup name = some j) : walk V i (front ++ [name]) = some j := by
  induction front generalizing i with
  | nil =>
    cases hw
    simp [walk, hd, hl]
  | cons first rest ih =>
    unfold walk at hw
    rw [List.cons_append]
    unfold walk
    split at hw
    · rename_i hi
      rw [if_pos hi]
      split at hw
      · cases hw
      · exact ih hw
    · cases hw

theorem lookup_dir (s : Disk) (h : (s.view d).lookup name = some j) : (s.view d).type = T_DIR := by
  obtain ⟨-, k, hk⟩ := lookup_eq_some h
  rw [view_type]
  by_contra hd
  have hnil : (s.view d).entries = [] := by
    unfold Disk.view
    split
    · rfl
    · rfl
  rw [hnil] at hk
  cases hk

theorem step_of_run (hp : c.proc < NPROC) (hu : (s.procs c.proc).state = .used)
    (hr : (c.run sb).run s = .ok ((), t)) : step sb s c = some t := by
  rw [step, if_pos ⟨hp, hu⟩, hr]

/-- Only unlink() removes, and what its path names. -/
theorem Call.removes (ha : c.Makes s a) (hrem : a.Removes i) :
    ∃ p bytes path, c = .unlink p bytes ∧ argstr bytes = some path ∧ s.lookup p path = some i := by
  cases c with
  | unlink p bytes =>
    obtain ⟨path, d, name, j, hpath, rfl, ⟨front, hel, hw⟩, hl⟩ := ha
    have hij : i = j := hrem
    refine ⟨p, bytes, path, rfl, hpath, ?_⟩
    rw [Sys.lookup, hel, hij]
    exact walk_concat hw (lookup_dir _ hl) hl
  | link p old new =>
    obtain ⟨-, -, d, name, j, -, -, rfl, -⟩ := ha
    exact hrem.elim
  | «open» p path omode =>
    obtain ⟨-, -, d, name, j, -, rfl, -⟩ := ha
    exact hrem.elim
  | mkdir p path =>
    obtain ⟨-, d, name, j, -, rfl, -⟩ := ha
    exact hrem.elim
  | mknod p path major minor =>
    obtain ⟨-, d, name, j, -, rfl, -⟩ := ha
    exact hrem.elim
  | _ => exact ha.elim

theorem Call.polite_spares (hp : Procs s) (h : c.polite s = true) (ha : c.Makes s a)
    (hj : s.dir q = some j) : ¬ a.Removes j := by
  intro hrem
  obtain ⟨p, bytes, path, rfl, hpath, hlook⟩ := Call.removes ha hrem
  have hq : q < NPROC := by
    apply ((hp q).mp _).1
    intro hc
    simp [Sys.dir, hc] at hj
  simp only [Call.polite, hpath, Option.bind_some, hlook, Option.all_some,
    List.all_eq_true, List.mem_range, bne_iff_ne] at h
  exact h q hq hj

theorem Kept.start (h : Kept sb s) (hp : p < NPROC) (hu : (s.procs p).state = .used)
    (path : List Byte) : Linked s.view (s.start p path) := by
  unfold Sys.start
  split
  · exact .inl rfl
  · have hc := (h.sys.procs p).mpr ⟨hp, hu⟩
    obtain ⟨x, hx⟩ := Option.ne_none_iff_exists'.mp hc
    have hdir : s.dir p = some (s.core.itable x).inum := by simp [Sys.dir, hx]
    rw [hdir]
    exact h.cwds p _ hdir

theorem Kept.parent (h : Kept sb s) (hp : p < NPROC) (hu : (s.procs p).state = .used)
    (hpar : s.Parent p path d name) : Linked s.view d := by
  obtain ⟨front, -, hw⟩ := hpar
  exact h.rooted.walk h.counts.tree (h.start hp hu path) hw

/-- Entries are made in linked directories. -/
theorem Kept.within (h : Kept sb s) (hp : c.proc < NPROC) (hu : (s.procs c.proc).state = .used)
    (ha : c.Makes s a) : a.Within s.view := by
  cases c with
  | unlink p path =>
    obtain ⟨-, d, name, i, -, rfl, -⟩ := ha
    trivial
  | link p old new =>
    obtain ⟨-, new', d, name, i, -, -, rfl, -, hpar⟩ := ha
    exact h.parent hp hu hpar
  | «open» p path omode =>
    obtain ⟨-, path', d, name, i, -, rfl, hpar⟩ := ha
    exact h.parent hp hu hpar
  | mkdir p path =>
    obtain ⟨path', d, name, i, -, rfl, hpar⟩ := ha
    exact h.parent hp hu hpar
  | mknod p path major minor =>
    obtain ⟨path', d, name, i, -, rfl, hpar⟩ := ha
    exact h.parent hp hu hpar
  | _ => exact ha.elim

theorem Kept.step (h : Kept sb s) (hN : sb.ninodes ≤ 32765) (hg : c.careful s = true)
    (hst : step sb s c = some t) : Kept sb t := by
  obtain ⟨hp, hu, -⟩ := step_run hst
  obtain ⟨hcount, hpolite⟩ := Bool.and_eq_true_iff.mp hg
  obtain ⟨hs, hd⟩ := h.sys.step hst
  obtain ⟨hrooted, hcounts, hkeep, -⟩ := h.rooted.effect h.counts hN hd.effect
    (fun a ha => ⟨Call.countable_spare hcount ha, h.within hp hu ha⟩)
  refine ⟨hs, hcounts, hrooted, ?_⟩
  intro p j hj
  rcases hd.dirs p j hj with ⟨q, hq⟩ | henter
  · exact hkeep j (h.cwds q j hq) fun a ha => Call.polite_spares h.sys.procs hpolite ha hq
  · -- only chdir() enters a directory, and it changes no entry
    cases c with
    | chdir p' bytes =>
      obtain ⟨path, -, hl, -⟩ := henter
      refine hkeep j ?_ fun a ha => ha.elim
      exact h.rooted.walk h.counts.tree (h.start hp hu path) hl
    | _ => exact henter.elim

theorem dir_boot (hj : (boot disk).dir p = some j) : j = ROOTINO := by
  rcases eq_or_ne p 0 with rfl | hp
  · cases hj
    rfl
  · simp [Sys.dir, boot, hp] at hj

theorem kept_boot (h : TreeImage sb disk) : Kept sb (boot disk) :=
  ⟨sysOk_boot h.consistent, h.counts, h.rooted, fun _ _ hj => .inl (dir_boot hj)⟩

theorem kept_run (h : TreeImage sb disk)
    (hg : Along (Fs.step sb) (fun s c => c.careful s = true) (boot disk) cs)
    (hr : run (Fs.step sb) (boot disk) cs = some s) : Kept sb s :=
  along_invariant (fun _ _ _ hs hg hst => hs.step h.few hg hst) (kept_boot h) hg hr

theorem Kept.linked (h : Kept sb s) (hn : 1 ≤ (s.view i).links) : Linked s.view i := by
  by_cases hroot : i = ROOTINO
  · exact .inl hroot
  have hlinks : 1 ≤ owed s.view i := by
    rw [owed, if_neg hroot]
    omega
  obtain ⟨⟨q, b⟩, hp⟩ := h.counts.covered.pointed (.inl trivial) hlinks
  cases b with
  | false => exact .inr ⟨q, hp⟩
  | true =>
    obtain ⟨rfl, j, hj, -⟩ := token_true.mp hp
    exact h.rooted.linked q.1 q.2 j hj

theorem Kept.allNamed (h : Kept sb s) : AllNamed s := by
  intro i hi hn hroot
  have hlinks : 1 ≤ (s.view i).links := by
    rwa [← h.counts.nlink i, show (s.view i).nlink = _ from view_nlink hi]
  obtain ⟨⟨d, k⟩, hq⟩ := (h.linked hlinks).resolve_left hroot
  obtain ⟨hd, hk, -, name, he⟩ := slot_eq_some.mp hq
  have hd' : (s.core.disk.inodes d).type = T_DIR := by
    rw [← view_type]
    exact hd
  refine ⟨d, k, name, hd', hk, ?_⟩
  rw [← view_entries hd']
  exact he

theorem Kept.noFreeLock (h : Kept sb s) : NoFreeLock sb s := by
  intro c hp hu he
  refine (h.sys.call (E := fun e => e ≠ .noType) (R := Linked s.view) ?_ ?_ ?_ hp hu).stops he rfl
  · intro e
    refine ⟨⟨by simp, ?_, ?_⟩, .inl rfl, h.cwds⟩
    · intro i name j hi hd hl
      exact h.rooted.closed h.counts.tree hi hd hl
    · intro i hi hbad
      rcases hbad with h0 | ⟨hn, -⟩
      · exact absurd h0 (h.counts.linked_type hi)
      · exact absurd hn (h.counts.linked_nlink hi)
  · exact ⟨by simp, by simp⟩
  · exact ⟨by simp, by simp, by simp, by simp, by simp⟩

/-- Nothing with a link is lost, if no current directory is removed. -/
theorem linked_inodes_named (h : TreeImage sb disk)
    (hg : Along (Fs.step sb) (fun s c => c.careful s = true) (boot disk) cs)
    (hr : run (Fs.step sb) (boot disk) cs = some s) : AllNamed s :=
  (kept_run h hg hr).allNamed

/-- No path leads to a free inode, if no current directory is removed. -/
theorem lookups_find_allocated (h : TreeImage sb disk)
    (hg : Along (Fs.step sb) (fun s c => c.careful s = true) (boot disk) cs)
    (hr : run (Fs.step sb) (boot disk) cs = some s) : NoFreeLock sb s :=
  (kept_run h hg hr).noFreeLock

theorem fresh_rooted : Rooted fresh.view := by
  refine ⟨?_, ?_, rfl, ?_, ?_⟩
  · intro d k i hq
    rw [fresh_slot] at hq
    cases hq
  · intro d k i hq
    rw [fresh_slot] at hq
    cases hq
  · rw [view_entries rfl, fresh_entries]
    rfl
  · intro q hq
    rw [fresh_slot] at hq
    cases hq

theorem fresh_tree : TreeImage mkfsSb fresh :=
  ⟨fresh_consistent, by decide, fresh_counts _, fresh_rooted⟩

/-- A file is made in a directory that was removed while it was the current one. Then the process
leaves the directory. -/
def orphaning : List Call :=
  [.mkdir 0 [97, 0], .chdir 0 [97, 0], .unlink 0 [47, 97, 0], .open 0 [102, 0] 0x202, .close 0 0,
    .chdir 0 [47, 0]]

theorem orphan_in_removed_directory :
    ∃ s, run (Fs.step mkfsSb) (boot fresh) orphaning = some s ∧
      (s.core.disk.inodes 3).type = T_FILE ∧ (s.core.disk.inodes 3).nlink = 1 ∧ ¬ AllNamed s := by
  obtain ⟨s, hs, h1, h2, h3⟩ : ∃ s, run (Fs.step mkfsSb) (boot fresh) orphaning = some s ∧
      (s.core.disk.inodes 3).type = T_FILE ∧ (s.core.disk.inodes 3).nlink = 1 ∧
      ∀ d ∈ List.range 200, (s.core.disk.inodes d).type = T_DIR →
        ∀ e ∈ entries s.core.disk.data (s.core.disk.inodes d), e.inum ≠ 3 := by decide +kernel
  refine ⟨s, hs, h1, h2, ?_⟩
  intro hall
  obtain ⟨d, k, name, hdir, -, he⟩ := hall 3 (by rw [h1]; decide) (by rw [h2]; decide) (by decide)
  obtain ⟨e, hm⟩ := (sysOk_run fresh_consistent hs).mid
  have hlt := (hm.core.fs.inum d (by rw [hdir]; decide)).2
  exact h3 d (List.mem_range.mpr hlt) hdir _ (List.mem_of_getElem? he) rfl

/-- The current directory is removed, and then the one it was in. -/
def stranding : List Call :=
  [.mkdir 0 [97, 0], .mkdir 0 [97, 47, 98, 0], .chdir 0 [97, 47, 98, 0],
    .unlink 0 [47, 97, 47, 98, 0], .unlink 0 [47, 97, 0]]

theorem parent_of_removed_directory :
    ∃ s, run (Fs.step mkfsSb) (boot fresh) stranding = some s ∧
      ¬ NoFreeLock mkfsSb s := by
  have hd : (run (Fs.step mkfsSb) (boot fresh) stranding).any (fun s => decide (
      (s.procs 0).state = .used) && match (Call.run mkfsSb (.open 0 [46, 46, 0] 0)).run s with
        | .error e => decide (e = .noType)
        | .ok _ => false) = true := by decide +kernel
  obtain ⟨s, hs, hp⟩ := (Option.any_eq_true _ _).mp hd
  obtain ⟨h1, h2⟩ := Bool.and_eq_true_iff.mp hp
  refine ⟨s, hs, ?_⟩
  intro hno
  apply hno (.open 0 [46, 46, 0] 0) (by decide) (of_decide_eq_true h1)
  split at h2
  · rename_i e he
    rw [he, of_decide_eq_true h2]
  · cases h2

/-- A directory is removed after the process has left it. -/
def leaving : List Call :=
  [.mkdir 0 [97, 0], .chdir 0 [97, 0], .open 0 [102, 0] 0x202, .link 0 [102, 0] [47, 103, 0],
    .unlink 0 [102, 0], .chdir 0 [46, 46, 0], .unlink 0 [97, 0]]

theorem leaving_runs :
    ∃ s, run (Fs.step mkfsSb) (boot fresh) leaving = some s ∧
      (s.core.disk.inodes 2).type = 0 ∧ (s.core.disk.inodes 3).nlink = 1 := by
  obtain ⟨s, hs, hp⟩ : ∃ s, run (Fs.step mkfsSb) (boot fresh) leaving = some s ∧
      (s.core.disk.inodes 2).type = 0 ∧ (s.core.disk.inodes 3).nlink = 1 := by decide +kernel
  exact ⟨s, hs, hp⟩

theorem leaving_careful :
    Along (Fs.step mkfsSb) (fun s c => c.careful s = true) (boot fresh) leaving := by
  decide +kernel

theorem linked_inodes_named_leaving :
    ∃ s, run (Fs.step mkfsSb) (boot fresh) leaving = some s ∧
      (s.core.disk.inodes 3).nlink = 1 ∧ AllNamed s := by
  obtain ⟨s, hs, -, h3⟩ := leaving_runs
  exact ⟨s, hs, h3, linked_inodes_named fresh_tree leaving_careful hs⟩

theorem lookups_find_allocated_leaving :
    ∃ s, run (Fs.step mkfsSb) (boot fresh) leaving = some s ∧
      (s.core.disk.inodes 2).type = 0 ∧ NoFreeLock mkfsSb s := by
  obtain ⟨s, hs, h2, -⟩ := leaving_runs
  exact ⟨s, hs, h2, lookups_find_allocated fresh_tree leaving_careful hs⟩

end

end Xv6.Fs
