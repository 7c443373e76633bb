import Xv6.Fs.Handlers
import Xv6.Fs.FileCalls
import Mathlib.Data.Finset.Sum

namespace Xv6.Fs

open Finset Lib

/-- The changes a call can make to the tree. -/
def Call.Makes (s : Sys) : Call → Change → Prop
  | .open p path omode, a => omode &&& O_CREATE ≠ 0 ∧ MakesNode s p path T_FILE a
  | .mkdir p path, a => MakesNode s p path T_DIR a
  | .mknod p path _ _, a => MakesNode s p path T_DEVICE a
  | .link p old new, a => MakesLink s p old new a
  | .unlink p path, a => Removes s p path a
  | _, _ => False

/-- The directories a call can take a process to. -/
def Call.Enters (s : Sys) : Call → Nat → Prop
  | .chdir p path, j => EntersDir s p path j
  | _, _ => False

/-- Files, processes and the inode table between two calls. -/
structure SysOk (sb : Superblock) (s : Sys) : Prop where
  files : FilesOk 0 s
  procs : Procs s
  mid : ∃ e, Mid sb e 0 ∅ s

/-- Panics that are not about the tree. -/
structure FilePanics (E : Panic → Prop) : Prop where
  filedup : E .filedup
  fileclose : E .fileclose
  fileread : E .fileread
  filewrite : E .filewrite
  initExiting : E .initExiting

section
variable {sb : Superblock} {e : Ext} {s t : Sys} {E : Panic → Prop} {R : Nat → Prop} {c : Call}
  {disk : Disk}

theorem Mid.call (h : Mid sb e 0 ∅ s) (hF : FilesOk 0 s) (hp : Procs s) (A : Permits E R e s)
    (U : AllowsUnlink E s.view R) (F : FilePanics E) (c : Call) :
    Outcome (c.run sb) s E (fun _ t => Done sb s (c.Makes s) (c.Enters s) t) := by
  cases c with
  | «open» p path omode => exact h.sysOpen hp A F.fileclose p path omode
  | close p fd => exact h.sysClose hp F.fileclose p fd
  | dup p fd => exact h.sysDup hF hp F.filedup p fd
  | read p fd dst n => exact h.sysRead hF hp F.fileread p fd dst n
  | write p fd src n => exact h.sysWrite hF hp F.filewrite p fd src n
  | link p old new => exact h.sysLink hp A p old new
  | unlink p path => exact h.sysUnlink hp A U p path
  | mkdir p path => exact h.makeNode hp A p path (by decide) 0 0
  | mknod p path major minor => exact h.makeNode hp A p path (by decide) major minor
  | chdir p path => exact h.sysChdir hp A p path
  | exec p path reads => exact h.sysExec hp A p path reads
  | pipe p mem copied => exact h.sysPipe hp F.fileclose p mem copied
  | fork p mem => exact h.sysFork hp F.filedup p mem
  | exit p => exact h.sysExit hp F.fileclose F.initExiting p
  | reap p q => exact h.sysReap hp q

theorem SysOk.call (h : SysOk sb s) (A : ∀ e, Permits E R e s) (U : AllowsUnlink E s.view R)
    (F : FilePanics E) (hp : c.proc < NPROC) (hu : (s.procs c.proc).state = .used) :
    Outcome (c.run sb) s E (fun _ t => SysOk sb t ∧ Done sb s (c.Makes s) (c.Enters s) t) := by
  obtain ⟨e, hm⟩ := h.mid
  refine ((hm.call h.files h.procs (A e) U F c).and (h.files.call sb c hp hu)).imp ?_
  rintro _ t ⟨hd, hf⟩
  exact ⟨⟨hf, hd.procs, hd.mid⟩, hd⟩

/-- All that can be said without looking at the tree: blocks are never freed twice. -/
theorem SysOk.anyCall (h : SysOk sb s) (hp : c.proc < NPROC) (hu : (s.procs c.proc).state = .used) :
    Outcome (c.run sb) s (fun e => e ≠ Panic.freeingFree) (fun _ t =>
      SysOk sb t ∧ Done sb s (c.Makes s) (c.Enters s) t) := by
  refine h.call (R := fun _ => True) ?_ ?_ ?_ hp hu
  · intro e
    refine ⟨⟨?_, fun _ _ _ _ _ _ => trivial, ?_⟩, trivial, fun _ _ _ => trivial⟩
    · simp
    · simp
  · exact ⟨by simp, by simp⟩
  · exact ⟨by simp, by simp, by simp, by simp, by simp⟩

theorem SysOk.step (h : SysOk sb s) (hs : step sb s c = some t) :
    SysOk sb t ∧ Done sb s (c.Makes s) (c.Enters s) t := by
  obtain ⟨hp, hu, hr⟩ := step_run hs
  exact (h.anyCall hp hu).returns hr

/-- A consistent image with a root directory. -/
structure Consistent (sb : Superblock) (disk : Disk) : Prop where
  fs : FsOk sb disk
  root : (disk.inodes ROOTINO).type = T_DIR

theorem points_boot (disk : Disk) :
    (boot disk).points = Function.update (fun _ => none) (.inl 0) (some 0) := by
  funext q
  cases q with
  | inl p =>
    rcases eq_or_ne p 0 with rfl | hp
    · simp [Sys.points, boot]
    · simp [Sys.points, boot, hp]
  | inr f => simp [Sys.points, boot, File.inode]

theorem itable_boot (disk : Disk) (hx : x ≠ 0) :
    (boot disk).core.itable x = ⟨0, 0, 0, false, false, Dinode.zero⟩ := by
  simp [boot, hx]

def bootExt : Ext := Ext.add ⟨fun _ => 0, fun _ => 0⟩ 0 ROOTINO

theorem ok_boot (h : Consistent sb disk) : Ok sb bootExt 0 ∅ (boot disk).core := by
  have hzero : ∀ x, 0 < ((boot disk).core.itable x).ref → x = 0 := by
    intro x hx
    by_contra hne
    simp [itable_boot disk hne] at hx
  refine ⟨h.fs, ?_, ?_, by simp, ?_, ?_, ?_, ?_, by simp⟩
  · intro x _
    rcases eq_or_ne x 0 with rfl | hx
    · rfl
    · rw [itable_boot disk hx, bootExt, add_cnt_of_ne _ _ hx]
      rfl
  · intro x hx
    have hx0 : x = 0 := by
      by_contra hne
      rw [bootExt, add_cnt_of_ne _ _ hne] at hx
      exact absurd hx (by simp)
    subst hx0
    rw [bootExt, add_num_self]
    refine ⟨by decide, rfl, ?_⟩
    change (disk.inodes ROOTINO).type ≠ 0
    rw [h.root]
    decide
  · intro x _ hx
    rw [hzero x hx]
    rfl
  · intro x _ y _ hx hy _
    rw [hzero x hx, hzero y hy]
  · intro x _ hx hv
    rw [hzero x hx] at hv
    cases hv
  · intro x _
    rcases eq_or_ne x 0 with rfl | hx
    · simp [boot]
    · simp [itable_boot disk hx]

theorem sysOk_boot (h : Consistent sb disk) : SysOk sb (boot disk) := by
  refine ⟨filesOk_boot disk, ?_, bootExt, ?_, ok_boot h, ?_, fun _ _ => rfl⟩
  · intro p
    rcases eq_or_ne p 0 with rfl | hp
    · simp [boot, NPROC]
    · simp [boot, hp]
  · intro x
    rw [points_boot]
    exact census_point (fun _ => census_none (by simp)) rfl 0 x
  · intro f x hf
    simp [boot, File.inode] at hf

theorem sysOk_run (h : Consistent sb disk) (hr : run (step sb) (boot disk) cs = some s) :
    SysOk sb s := by
  refine run_invariant ?_ (sysOk_boot h) hr
  intro s c t hs ht
  exact (hs.step ht).1

end

/-- The processes whose current directory is entry x of the inode table. -/
def cwdRefs (s : Sys) (x : Nat) : Finset Nat :=
  (Finset.range NPROC).filter (fun p => (s.procs p).cwd = some x)

/-- The open FD_INODE and FD_DEVICE files on entry x. -/
def fileRefs (s : Sys) (x : Nat) : Finset Nat :=
  (Finset.range NFILE).filter (fun f => 0 < (s.ftable f).ref ∧
    ((s.ftable f).type = .inode ∨ (s.ftable f).type = .device) ∧ (s.ftable f).ip = x)

/-- Reference counts of inodes, their locks, and one entry for each inode. -/
structure RefsExact (s : Sys) : Prop where
  ref : ∀ x < NINODE, (s.core.itable x).ref = (cwdRefs s x).card + (fileRefs s x).card
  unlocked : ∀ x < NINODE, (s.core.itable x).locked = false
  unique : ∀ x < NINODE, ∀ y < NINODE, 0 < (s.core.itable x).ref → 0 < (s.core.itable y).ref →
    (s.core.itable x).dev = (s.core.itable y).dev →
    (s.core.itable x).inum = (s.core.itable y).inum → x = y

section
variable {sb : Superblock} {e : Ext} {s t : Sys} {disk : Disk} {c : Call}

theorem inode_eq_some {file : File} : file.inode = some x ↔
    0 < file.ref ∧ (file.type = .inode ∨ file.type = .device) ∧ file.ip = x := by
  unfold File.inode
  split
  · rename_i h
    simp [h]
  · rename_i h
    constructor
    · intro hx
      cases hx
    · rintro ⟨h1, h2, -⟩
      exact absurd ⟨h1, h2⟩ h

theorem SysOk.cnt_eq (h : SysOk sb s) (hm : Mid sb e 0 ∅ s) (x : Nat) :
    e.cnt x = (cwdRefs s x).card + (fileRefs s x).card := by
  obtain ⟨F, hF, hc⟩ := hm.points x
  have hset : F = (cwdRefs s x).disjSum (fileRefs s x) := by
    ext q
    rw [hF]
    cases q with
    | inl p =>
      rw [inl_mem_disjSum, cwdRefs, mem_filter, mem_range]
      constructor
      · intro hp
        have hc : (s.procs p).cwd = some x := hp
        exact ⟨((h.procs p).mp (by simp [hc])).1, hp⟩
      · exact fun hp => hp.2
    | inr f =>
      rw [inr_mem_disjSum, fileRefs, mem_filter, mem_range, ← inode_eq_some]
      constructor
      · intro hf
        refine ⟨h.files.lt_of_ref ?_, hf⟩
        exact Nat.ne_of_gt (inode_eq_some.mp hf).1
      · exact fun hf => hf.2
  rw [← hc, hset, card_disjSum]

theorem SysOk.refsExact (h : SysOk sb s) : RefsExact s := by
  obtain ⟨e, hm⟩ := h.mid
  refine ⟨?_, ?_, ?_⟩
  · intro x hx
    rw [hm.core.ref x hx, ← h.cnt_eq hm x]
    rfl
  · intro x hx
    exact (hm.core.locked_iff hx).mpr (notMem_empty x)
  · intro x hx y hy hrx hry _ he
    exact hm.core.unique x hx y hy hrx hry he

theorem fresh_inodes (hi : i ≠ ROOTINO) : fresh.inodes i = Dinode.zero := by simp [fresh, hi]

theorem fresh_owns : fresh.owns q = some b ↔ q = (ROOTINO, 0) ∧ b = 46 := by
  obtain ⟨i, k⟩ := q
  rw [owns_eq_some]
  rcases eq_or_ne i ROOTINO with rfl | hi
  · have hslot : slotAddr fresh.data freshRoot k = if k = 0 then 46 else 0 := by
      unfold slotAddr freshRoot
      by_cases hk : k ≤ NDIRECT
      · simp [hk]
      · have hk0 : k ≠ 0 := by
          rintro rfl
          exact hk (Nat.zero_le _)
        simp [hk0, NDIRECT]
    change freshRoot.type ≠ 0 ∧ slotAddr fresh.data freshRoot k = b ∧ b ≠ 0 ↔ _
    rw [hslot]
    by_cases hk : k = 0
    · subst hk
      simp only [if_true, true_and]
      constructor
      · exact fun h => h.2.1.symm
      · rintro rfl
        exact ⟨by decide, rfl, by decide⟩
    · simp only [hk, if_false, Prod.mk.injEq, and_false, false_and, iff_false]
      rintro ⟨-, h1, h2⟩
      exact h2 h1.symm
  · simp [fresh_inodes hi, Dinode.zero, hi]

theorem fresh_consistent : Consistent mkfsSb fresh := by
  have hroot : ∀ i, (fresh.inodes i).type ≠ 0 → i = ROOTINO := by
    intro i hi
    by_contra hne
    rw [fresh_inodes hne] at hi
    exact hi rfl
  refine ⟨⟨?_, ⟨?_, ?_⟩, ?_, ?_, ?_, ?_⟩, rfl⟩
  · intro i hi
    rw [hroot i hi]
    decide
  · intro b
    constructor
    · rintro ⟨h1, -, h2⟩
      have hb : b < 47 := of_decide_eq_true h2
      have hd : mkfsSb.datastart = 46 := rfl
      exact ⟨(ROOTINO, 0), fresh_owns.mpr ⟨rfl, by omega⟩⟩
    · rintro ⟨q, hq⟩
      rw [(fresh_owns.mp hq).2]
      decide
  · intro q q' b hq hq'
    rw [(fresh_owns.mp hq).1, (fresh_owns.mp hq').1]
  · intro b hb
    have hd : mkfsSb.datastart = 46 := rfl
    exact decide_eq_true (by omega)
  · intro i hi bn hbn
    rw [hroot i hi] at hbn ⊢
    have hsz : (fresh.inodes ROOTINO).size = BSIZE := rfl
    rw [hsz] at hbn
    have hbn0 : bn = 0 := by
      unfold BSIZE at hbn
      omega
    subst hbn0
    decide
  · intro i hi
    rw [hroot i hi]
    decide
  · intro i hi
    have hi0 : (fresh.inodes i).type ≠ 0 := by
      rw [hi]
      decide
    rw [hroot i hi0]
    decide

/-- After every sequence of calls on a consistent image, counts of references to inodes are
exact. -/
theorem refs_exact (sb : Superblock) (disk : Disk) (h : Consistent sb disk) (cs : List Call)
    (hr : run (step sb) (boot disk) cs = some s) : RefsExact s :=
  (sysOk_run h hr).refsExact

/-- A directory opened and entered, a file made there, linked by a child that then fails to remove
the directory and exits. -/
def roaming : List Call :=
  [.mkdir 0 [97, 0], .open 0 [97, 47, 46, 0] 0, .chdir 0 [97, 0], .open 0 [102, 0] 0x202,
    .fork 0 true, .link 1 [102, 0] [103, 0], .exec 1 [103, 0] [(0, 16)],
    .unlink 1 [46, 46, 47, 97, 0], .exit 1]

theorem refs_exact_roaming : ∃ s, run (step mkfsSb) (boot fresh) roaming = some s ∧ RefsExact s ∧
    (s.core.itable 1).inum = 2 ∧ (s.core.itable 1).ref = 2 := by
  obtain ⟨s, hs, hp⟩ : ∃ s, run (step mkfsSb) (boot fresh) roaming = some s ∧
      (s.core.itable 1).inum = 2 ∧ (s.core.itable 1).ref = 2 := by decide +kernel
  exact ⟨s, hs, refs_exact mkfsSb fresh fresh_consistent roaming hs, hp⟩

/-- The bitmap marks the blocks in front of the data and those that occur exactly once in the
slots of allocated inodes; no block occurs twice. -/
structure BlocksExact (sb : Superblock) (d : Disk) : Prop where
  bitmap : ∀ b < sb.size, d.bitmap b = true ↔
    b < sb.datastart ∨ ∃! q : Nat × Nat, d.owns q = some b
  once : ∀ q q' b, d.owns q = some b → d.owns q' = some b → q = q'

theorem FsOk.blocksExact {d : Disk} (h : FsOk sb d) : BlocksExact sb d := by
  refine ⟨?_, h.marks.exclusive⟩
  intro b hb
  constructor
  · intro hm
    rcases Nat.lt_or_ge b sb.datastart with hlt | hge
    · exact .inl hlt
    · obtain ⟨q, hq⟩ := (h.marks.marked b).mp ⟨hge, hb, hm⟩
      exact .inr ⟨q, hq, fun q' hq' => h.marks.exclusive q' q b hq' hq⟩
  · rintro (hlt | ⟨q, hq, -⟩)
    · exact h.reserved b hlt
    · exact ((h.marks.marked b).mpr ⟨q, hq⟩).2.2

/-- After every sequence of calls on a consistent image without holes, the blocks are accounted
for, and no call frees a free block. -/
theorem blocks_exact (sb : Superblock) (disk : Disk) (h : Consistent sb disk) (cs : List Call)
    (hr : run (step sb) (boot disk) cs = some s) :
    BlocksExact sb s.core.disk ∧
    ∀ c : Call, c.proc < NPROC → (s.procs c.proc).state = .used →
      (c.run sb).run s ≠ .error .freeingFree := by
  have hs := sysOk_run h hr
  obtain ⟨e, hm⟩ := hs.mid
  refine ⟨hm.core.fs.blocksExact, ?_⟩
  intro c hp hu he
  exact (hs.anyCall hp hu).stops he rfl

/-- A file is written, truncated, written again with an address that can be read only in part, and
removed while it is open. -/
def churning : List Call :=
  [.open 0 [102, 0] 0x202, .write 0 0 (List.replicate 2100 7) 2100, .open 0 [102, 0] 0x601,
    .write 0 1 (List.replicate 1030 8) 2000, .unlink 0 [102, 0], .close 0 0]

theorem blocks_exact_churning : ∃ s, run (step mkfsSb) (boot fresh) churning = some s ∧
    (BlocksExact mkfsSb s.core.disk ∧
    ∀ c : Call, c.proc < NPROC → (s.procs c.proc).state = .used →
      (c.run mkfsSb).run s ≠ .error .freeingFree) ∧
    s.core.disk.owns (2, 0) = some 47 ∧ s.core.disk.bitmap 49 = false := by
  obtain ⟨s, hs, hp⟩ : ∃ s, run (step mkfsSb) (boot fresh) churning = some s ∧
      s.core.disk.owns (2, 0) = some 47 ∧ s.core.disk.bitmap 49 = false := by decide +kernel
  exact ⟨s, hs, blocks_exact mkfsSb fresh fresh_consistent churning hs, hp⟩

end

end Xv6.Fs
