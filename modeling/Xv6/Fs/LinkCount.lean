import Xv6.Fs.Tree

namespace Xv6.Fs

open Lib

/-- link() finds a count that can go up. -/
def Call.countable (s : Sys) : Call → Bool
  | .link p old _ => ((argstr old).bind (s.lookup p)).all fun i => (s.view i).nlink != 32767
  | _ => true

/-- An image whose link counts cover its entries. -/
structure CountedImage (sb : Superblock) (disk : Disk) : Prop where
  consistent : Consistent sb disk
  few : sb.ninodes ≤ 32765
  counts : Counts sb False disk.view

/-- The field nlink is the number of increments minus decrements, and unlink() finds none below
one. -/
structure LinksExact (sb : Superblock) (s : Sys) : Prop where
  exact : ∀ i, (s.core.disk.inodes i).type ≠ 0 →
    (s.core.disk.inodes i).nlink.toInt = (s.core.disk.inodes i).links ∧
    0 ≤ (s.core.disk.inodes i).links
  unlink : ∀ c : Call, c.proc < NPROC → (s.procs c.proc).state = .used →
    (c.run sb).run s ≠ .error .nlink

section
variable {sb : Superblock} {s t : Sys} {disk : Disk} {c : Call}

theorem toInt_lt_of_ne {x : BitVec 16} (h : x ≠ 32767) : x.toInt < 32767 := by
  have hlt := x.toInt_lt
  have hne : x.toInt ≠ (32767 : BitVec 16).toInt := fun he => h (BitVec.eq_of_toInt_eq he)
  rw [show (32767 : BitVec 16).toInt = 32767 from rfl] at hne
  omega

theorem Call.countable_spare (h : c.countable s = true) (ha : c.Makes s a) : Spare s.view a := by
  cases c with
  | link p old new =>
    obtain ⟨old', new', d, name, i, hold, -, rfl, hl, -⟩ := ha
    have hne : (s.view i).nlink ≠ 32767 := by
      simpa [Call.countable, hold, hl] using h
    exact toInt_lt_of_ne hne
  | unlink p path =>
    obtain ⟨-, d, name, i, -, rfl, -⟩ := ha
    trivial
  | «open» p path omode =>
    obtain ⟨-, -, d, name, i, -, rfl, -⟩ := ha
    trivial
  | mkdir p path =>
    obtain ⟨-, d, name, i, -, rfl, -⟩ := ha
    trivial
  | mknod p path major minor =>
    obtain ⟨-, d, name, i, -, rfl, -⟩ := ha
    trivial
  | _ => exact ha.elim

theorem SysOk.linksExact (h : SysOk sb s) (hc : Counts sb X s.view) : LinksExact sb s := by
  constructor
  · intro i hi
    have hlinks : (s.view i).links = (s.core.disk.inodes i).links := by
      simp [Sys.view, Disk.view, hi]
    have hpos := hc.covered.nonneg i
    have hexact := hc.nlink i
    rw [show (s.view i).nlink = _ from view_nlink hi, hlinks] at hexact
    refine ⟨hexact, ?_⟩
    rw [owed, hlinks] at hpos
    split at hpos <;> omega
  · intro c hp hu he
    refine (h.call (E := fun e => e ≠ .nlink) (R := fun _ => True) ?_ ?_ ?_ hp hu).stops he rfl
    · intro e
      refine ⟨⟨by simp, fun _ _ _ _ _ _ => trivial, by simp⟩, trivial, fun _ _ _ => trivial⟩
    · refine ⟨?_, by simp⟩
      intro d name i _ hd hl hlow h1 h2
      have := hc.lookup_pos hd hl h1 h2
      omega
    · exact ⟨by simp, by simp, by simp, by simp, by simp⟩

/-- Link counts are exact as long as link() does not raise one beyond 32767. -/
theorem link_counts_exact (h : CountedImage sb disk)
    (hg : Along (step sb) (fun s c => c.countable s = true) (boot disk) cs)
    (hr : run (step sb) (boot disk) cs = some s) : LinksExact sb s := by
  have hinv : SysOk sb s ∧ Counts sb False s.view := by
    apply along_invariant (I := fun s => SysOk sb s ∧ Counts sb False s.view) ?_
      ⟨sysOk_boot h.consistent, h.counts⟩ hg hr
    intro s c t ⟨hs, hc⟩ hg hst
    obtain ⟨hs', hd⟩ := hs.step hst
    exact ⟨hs', hc.effect h.few hd.effect fun a ha => Call.countable_spare hg ha⟩
  exact hinv.1.linksExact hinv.2

theorem fresh_view_free (hi : i ≠ ROOTINO) : fresh.view i = Node.free :=
  view_free (by rw [fresh_inodes hi]; rfl)

theorem fresh_slot (q : Nat × Nat) : slot fresh.view q = none := by
  cases hs : slot fresh.view q with
  | none => rfl
  | some i =>
    obtain ⟨hd, hk, hi, name, he⟩ := slot_eq_some.mp hs
    have hroot : q.1 = ROOTINO := by
      by_contra hne
      rw [fresh_view_free hne] at hd
      cases hd
    rw [hroot, view_entries rfl] at he
    exact absurd (fresh_empty hk he) hi

theorem fresh_counts (X : Prop) : Counts mkfsSb X fresh.view := by
  have htoken : ∀ p, token fresh.view p = none := by
    intro ⟨q, b⟩
    cases b with
    | false => exact fresh_slot q
    | true => simp [token, fresh_slot]
  refine ⟨fresh_good.tree, ?_, ?_, ?_, ?_, ?_⟩
  · intro i hi
    rw [view_type] at hi
    exact view_free hi
  · intro i hi
    rw [view_type] at hi
    exact (fresh_consistent.fs.inum i hi).2
  · intro i
    rcases eq_or_ne i ROOTINO with rfl | hi
    · rfl
    · rw [fresh_view_free hi]
      rfl
  · intro q q' i hq
    rw [fresh_slot] at hq
    cases hq
  · intro i
    have howed : owed fresh.view i = 0 := by
      rcases eq_or_ne i ROOTINO with rfl | hi
      · rfl
      · rw [owed, fresh_view_free hi, if_neg hi]
        rfl
    refine ⟨0, census_none (by simp [htoken]), by rw [howed]; exact le_refl _, ?_⟩
    exact fun _ => howed

theorem fresh_counted : CountedImage mkfsSb fresh := ⟨fresh_consistent, by decide, fresh_counts _⟩

/-- A file with two names and a directory that lost its only entry. -/
def relinking : List Call :=
  [.open 0 [102, 0] 0x202, .mkdir 0 [97, 0], .link 0 [102, 0] [97, 47, 103, 0],
    .mkdir 0 [97, 47, 98, 0], .unlink 0 [97, 47, 98, 0]]

theorem link_counts_exact_relinking :
    ∃ s, run (step mkfsSb) (boot fresh) relinking = some s ∧
      (s.core.disk.inodes 2).nlink = 2 ∧ (s.core.disk.inodes 3).nlink = 1 ∧
      LinksExact mkfsSb s := by
  obtain ⟨s, hs, h1, h2⟩ : ∃ s, run (step mkfsSb) (boot fresh) relinking = some s ∧
      (s.core.disk.inodes 2).nlink = 2 ∧ (s.core.disk.inodes 3).nlink = 1 := by decide +kernel
  have hg : Along (step mkfsSb) (fun s c => c.countable s = true) (boot fresh) relinking := by
    decide +kernel
  exact ⟨s, hs, h1, h2, link_counts_exact fresh_counted hg hs⟩

end

end Xv6.Fs
