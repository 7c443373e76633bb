import Xv6.Fs.Points

namespace Xv6.Fs

open Lib

section
variable {sb : Superblock} {e : Ext} {L : Locals} {K : Finset Nat} {c : Core} {s t u : Sys}
  {E : Panic → Prop}

theorem Ok.live (h : Ok sb e L K c) (hk : x ∈ K) :
    (c.disk.inodes (c.itable x).inum).type ≠ 0 := by
  obtain ⟨hx, hr, hv⟩ := h.locked x hk
  obtain ⟨hc, ht⟩ := h.clean x hx hr hv
  rwa [hc] at ht

/-- Reading and writing the content of a locked inode, as long as the tree stays the same. -/
theorem Ok.content (h : Ok sb e L K c) (hk : x ∈ K) {m : Nat → Dinode → Dk (α × Dinode)}
    (hm : Ends (m (c.itable x).inum (c.disk.inodes (c.itable x).inum)) c.disk (fun r d =>
      FsOk sb d ∧ (∀ j, j ≠ (c.itable x).inum → d.inodes j = c.disk.inodes j) ∧
      d.inodes (c.itable x).inum = r.2 ∧ r.2.type ≠ 0 ∧ d.view = c.disk.view)) :
    Outcome (Fs.onInode x m) c E (fun _ c' => Ok sb e L K c' ∧ c'.disk.view = c.disk.view) := by
  obtain ⟨hx, hr, hv⟩ := h.locked x hk
  refine (h.onInode (Q := fun _ d => d.view = c.disk.view) hx hr hv hm).imp ?_
  rintro _ c' ⟨h1, h2, -⟩
  exact ⟨h1, h2⟩

theorem Ok.readi (h : Ok sb e L K c) (hk : x ∈ K) (dst : Option Nat) (off n : Nat) :
    Outcome (Fs.onInode x (fun _ ip => Fs.readi sb ip dst off n)) c E (fun _ c' =>
      Ok sb e L K c' ∧ c'.disk.view = c.disk.view) := by
  have ht := h.live hk
  refine h.content hk ?_
  refine (readi_spec (h.fs.dense ht) dst off n).mono ?_
  rintro r d ⟨rfl, hr, -⟩
  rw [hr]
  exact ⟨h.fs, fun _ _ => rfl, rfl, ht, rfl⟩

theorem Ok.writei (h : Ok sb e L K c) (hk : x ∈ K)
    (hd : (c.disk.view (c.itable x).inum).type ≠ T_DIR) (src : List Byte) (off n : Nat) :
    Outcome (Fs.onInode x (fun inum ip => Fs.writei sb inum ip src off n)) c E (fun _ c' =>
      Ok sb e L K c' ∧ c'.disk.view = c.disk.view) := by
  have ht := h.live hk
  rw [view_type] at hd
  refine h.content hk ?_
  refine (writei_spec h.fs ht hd src off n).mono ?_
  rintro r d ⟨hedit, hin, hsame⟩
  refine ⟨hedit.ok, hedit.others, hin, by rw [hsame]; exact ht, ?_⟩
  rw [← hin] at hsame
  exact hedit.view_same h.fs hsame (fun hd' => absurd hd' hd)

theorem Ok.trunc (h : Ok sb e L K c) (hk : x ∈ K)
    (hd : (c.disk.view (c.itable x).inum).type ≠ T_DIR) :
    Outcome (Fs.onInode x (fun inum ip => do
      let ip ← itrunc inum ip
      return ((), ip))) c E (fun _ c' => Ok sb e L K c' ∧ c'.disk.view = c.disk.view) := by
  have ht := h.live hk
  rw [view_type] at hd
  refine h.content hk ?_
  refine (itrunc_spec h.fs ht).bind ?_
  rintro ip d ⟨hip, hfs, hin, hdata⟩
  rw [ends_pure]
  have hself : d.inodes (c.itable x).inum = ip := by rw [hin, Function.update_self]
  have hoth : ∀ j, j ≠ (c.itable x).inum → d.inodes j = c.disk.inodes j := by
    intro j hj
    rw [hin, Function.update_of_ne hj]
  refine ⟨hfs, hoth, hself, by rw [hip]; exact ht, ?_⟩
  funext j
  rcases eq_or_ne j (c.itable x).inum with rfl | hj
  · simp [Disk.view, hself, hip, hd]
  · apply view_congr (hoth j hj)
    intro _ pos _
    rw [hdata]

end

/-- Nobody holds a reference. -/
abbrev Nobody : Nat → Prop := fun _ => False

/-- Part of a call that changes neither names nor processes. -/
structure Quiet (s t : Sys) : Prop where
  thin : Thin Nobody s.view t.view
  dir : t.dir = s.dir
  procs : ∀ p, (t.procs p).cwd = (s.procs p).cwd ∧ (t.procs p).state = (s.procs p).state

section
variable {sb : Superblock} {e : Ext} {L : Locals} {K : Finset Nat} {c : Core} {s t u : Sys}
  {E : Panic → Prop}

theorem Quiet.refl (s : Sys) : Quiet s s := ⟨.refl _ _, rfl, fun _ => ⟨rfl, rfl⟩⟩

theorem Quiet.trans (h : Quiet s t) (h' : Quiet t u) : Quiet s u := by
  refine ⟨h.thin.trans h'.thin, h'.dir.trans h.dir, ?_⟩
  intro p
  exact ⟨(h'.procs p).1.trans (h.procs p).1, (h'.procs p).2.trans (h.procs p).2⟩

theorem Quiet.of_core (hc : t.core = s.core)
    (hp : ∀ p, (t.procs p).cwd = (s.procs p).cwd ∧ (t.procs p).state = (s.procs p).state) :
    Quiet s t := by
  refine ⟨?_, ?_, hp⟩
  · unfold Sys.view
    rw [hc]
    exact .refl _ _
  · funext p
    unfold Sys.dir
    rw [(hp p).1, hc]

theorem Quiet.setFile (s : Sys) (f : Nat) (file : File) : Quiet s (s.setFile f file) :=
  .of_core rfl (fun _ => ⟨rfl, rfl⟩)

theorem Quiet.setFd (s : Sys) (p fd : Nat) (v : Option Nat) : Quiet s (s.setFd p fd v) := by
  refine .of_core rfl ?_
  intro q
  refine ⟨?_, state_setFd⟩
  rcases eq_or_ne q p with rfl | hq
  · simp [Sys.setFd, Sys.setProc]
  · simp [Sys.setFd, Sys.setProc, hq]

theorem Mid.setFd (h : Mid sb e L K s) (p fd : Nat) (v : Option Nat) :
    Mid sb e L K (s.setFd p fd v) := h.setProc rfl

/-- What goes on below the file table and leaves the tree alone except for inodes nobody needs. -/
theorem Mid.lift_thin (h : Mid sb e L K s) (hok : Ok sb e L' K' c)
    (hthin : Thin e.Holds s.view c.disk.view) :
    Mid sb e L' K' { s with core := c } ∧ Quiet s { s with core := c } := by
  have hty : ∀ i, e.Holds i → (c.disk.view i).type = (s.view i).type := by
    intro i hi
    rw [hthin.held hi]
  obtain ⟨hmid, hdir⟩ := h.lift hok hty
  exact ⟨hmid, hthin.mono (fun _ hn => hn.elim), hdir, fun _ => ⟨rfl, rfl⟩⟩

theorem Mid.quiet (h : Mid sb e L K s) {m : Ic α} {Q : α → Core → Prop}
    (hm : Outcome m s.core E (fun r c => Ok sb e L' K' c ∧ Thin e.Holds s.view c.disk.view ∧
      Q r c)) :
    Outcome (Fs.onCore m) s E (fun r t => Mid sb e L' K' t ∧ Quiet s t ∧ Q r t.core ∧
      t = { s with core := t.core }) := by
  rw [outcome_onCore]
  refine hm.imp ?_
  rintro r c ⟨hok, hthin, hq⟩
  obtain ⟨hmid, hquiet⟩ := h.lift_thin hok hthin
  exact ⟨hmid, hquiet, hq, rfl⟩

theorem Mid.iput (h : Mid sb e ((x, i) ::ₘ L) ∅ s) :
    Outcome (Fs.onCore (Fs.iput x)) s E (fun _ t => Mid sb e L ∅ t ∧ Quiet s t ∧
      t = { s with core := t.core }) := by
  have hput : Outcome (Fs.iput x) s.core E (fun _ c => Ok sb e L ∅ c ∧
      Thin e.Holds s.view c.disk.view ∧ True) := by
    refine (h.core.iput (.inl (Finset.notMem_empty x))).imp ?_
    rintro _ c ⟨hok, hthin⟩
    exact ⟨hok, hthin.mono fun j hj => hj.held L, trivial⟩
  refine (h.quiet (Q := fun _ _ => True) hput).imp ?_
  rintro _ t ⟨ht, hq, -, heq⟩
  exact ⟨ht, hq, heq⟩

theorem Mid.filealloc (h : Mid sb e L K s) :
    Outcome filealloc s E (fun r t => Mid sb e L K t ∧ t.core = s.core ∧ t.procs = s.procs ∧
      ∀ f, r = some f → (s.ftable f).ref = 0 ∧ (t.ftable f).ref = 1 ∧ (t.ftable f).type = .none ∧
        ∀ g, g ≠ f → t.ftable g = s.ftable g) := by
  rw [Fs.filealloc, outcome_bind, outcome_get]
  split
  · rename_i f hf
    have hr : (s.ftable f).ref = 0 := by simpa using List.find?_some hf
    have ht := h.closed f hr
    rw [outcome_bind, outcome_set, outcome_pure]
    refine ⟨h.setFile ?_ ?_ (by simp), rfl, rfl, ?_⟩
    · simp [File.inode, hr, ht]
    · simp [File.inode, ht]
    · intro g hg
      cases hg
      refine ⟨hr, by simp [Sys.setFile], by simp [Sys.setFile, ht], ?_⟩
      intro g hg
      simp [Sys.setFile, hg]
  · rw [outcome_pure]
    exact ⟨h, rfl, rfl, by simp⟩

theorem Mid.setRef (h : Mid sb e L K s) (hr : 0 < (s.ftable f).ref) (hn : 0 < n) :
    Mid sb e L K (s.setFile f { s.ftable f with ref := n }) := by
  refine h.setFile ?_ (fun _ => rfl) ?_
  · simp [File.inode, hr, hn]
  · intro h0
    dsimp only at h0
    omega

theorem Mid.filedup (h : Mid sb e L K s) (hE : E .filedup) (f : Nat) :
    Outcome (filedup f) s E (fun _ t => Mid sb e L K t ∧ Quiet s t) := by
  rw [Fs.filedup, outcome_bind, outcome_get]
  refine Outcome.ite (fun _ => hE) (fun hr => ?_)
  rw [outcome_set]
  exact ⟨h.setRef (by omega) (by omega), .setFile ..⟩

/-- A file that was never opened is closed again. -/
theorem Mid.fileclose_none (h : Mid sb e L K s) (hE : E .fileclose)
    (ht : (s.ftable f).type = .none) :
    Outcome (fileclose f) s E (fun _ t => Mid sb e L K t ∧ t.core = s.core ∧ t.procs = s.procs ∧
      ∀ g, g ≠ f → t.ftable g = s.ftable g) := by
  have hg : ∀ file g, g ≠ f → (s.setFile f file).ftable g = s.ftable g := by
    intro file g hg
    simp [Sys.setFile, hg]
  rw [Fs.fileclose, outcome_bind, outcome_get]
  refine Outcome.ite (fun _ => hE) (fun hr => Outcome.ite (fun hgt => ?_) (fun hle => ?_))
  · rw [outcome_set]
    exact ⟨h.setRef (by omega) (by omega), rfl, rfl, hg _⟩
  · rw [outcome_bind, outcome_set, release, ht]
    dsimp only
    rw [outcome_pure]
    refine ⟨h.setFile ?_ ?_ (fun _ => rfl), rfl, rfl, hg _⟩
    · simp [File.inode, ht]
    · simp [File.inode]

theorem Mid.fileclose (h : Mid sb e L ∅ s) (hE : E .fileclose) (f : Nat) :
    Outcome (fileclose f) s E (fun _ t => ∃ e', Mid sb e' L ∅ t ∧ Quiet s t ∧
      t.procs = s.procs) := by
  rw [Fs.fileclose, outcome_bind, outcome_get]
  refine Outcome.ite (fun _ => hE) (fun hr => Outcome.ite (fun hgt => ?_) (fun hle => ?_))
  · rw [outcome_set]
    exact ⟨e, h.setRef (by omega) (by omega), .setFile .., rfl⟩
  rw [outcome_bind, outcome_set]
  have hpos : 0 < (s.ftable f).ref := by omega
  have hput : (s.ftable f).inode = some (s.ftable f).ip →
      Outcome (Fs.onCore (Fs.iput (s.ftable f).ip))
        (s.setFile f { s.ftable f with ref := 0, type := .none }) E (fun _ t =>
          ∃ e', Mid sb e' L ∅ t ∧ Quiet s t ∧ t.procs = s.procs) := by
    intro hi
    have hmid : Mid sb _ _ ∅ (s.setFile f { s.ftable f with ref := 0, type := .none }) :=
      h.closeFile hi rfl rfl
    refine hmid.iput.imp ?_
    rintro _ t ⟨ht, hq, heq⟩
    refine ⟨_, ht, (Quiet.setFile s f _).trans hq, ?_⟩
    rw [heq]
    rfl
  unfold release
  split
  · rename_i ht
    rw [pipeclose, outcome_modify]
    have hmid : Mid sb e L ∅ (s.setFile f { s.ftable f with ref := 0, type := .none }) := by
      refine h.setFile ?_ ?_ (fun _ => rfl)
      · simp [File.inode, ht]
      · simp [File.inode]
    refine ⟨e, ⟨hmid.points, hmid.core, hmid.readonly, hmid.closed⟩, ?_, rfl⟩
    exact .of_core rfl (fun _ => ⟨rfl, rfl⟩)
  · rename_i ht
    exact hput (by simp [File.inode, ht, hpos])
  · rename_i ht
    exact hput (by simp [File.inode, ht, hpos])
  · rename_i ht
    rw [outcome_pure]
    refine ⟨e, h.setFile ?_ ?_ (fun _ => rfl), .setFile .., rfl⟩
    · simp [File.inode, ht]
    · simp [File.inode]

theorem Mid.argfd (hF : FilesOk 0 s) (p : Nat) (fd : Int) :
    Outcome (argfd p fd) s E (fun r t => t = s ∧
      ∀ d f, r = some (d, f) → 0 < (s.ftable f).ref) := by
  rw [Fs.argfd, outcome_bind, outcome_get]
  refine Outcome.ite (fun _ => ?_) (fun _ => ⟨rfl, by simp⟩)
  rw [outcome_pure]
  refine ⟨rfl, ?_⟩
  intro d f hr
  obtain ⟨g, hg, he⟩ := Option.map_eq_some_iff.mp hr
  cases he
  obtain ⟨n, hc, hn⟩ := hF.counted f
  have hpos : 0 < n := hc.pos (p := (p, fd.toNat)) hg
  simp only [Pi.zero_apply, add_zero] at hn
  omega

theorem Mid.fdalloc (h : Mid sb e L K s) (p f : Nat) :
    Outcome (fdalloc p f) s E (fun r t => Mid sb e L K t ∧ Quiet s t ∧ t.core = s.core ∧
      t.ftable = s.ftable ∧ (r = none → t = s)) := by
  rw [Fs.fdalloc, outcome_bind, outcome_get]
  split
  · rw [outcome_bind, outcome_set, outcome_pure]
    exact ⟨h.setFd p _ _, .setFd .., rfl, rfl, by simp⟩
  · rw [outcome_pure]
    exact ⟨h, .refl s, rfl, rfl, fun _ => rfl⟩

theorem Mid.newFd (h : Mid sb e L K s) (hE : E .fileclose) (p : Nat) :
    Outcome (newFd p) s E (fun r t => Mid sb e L K t ∧ Quiet s t ∧ t.core = s.core ∧
      ∀ f, r = some f → (t.ftable f).type = .none ∧ (t.ftable f).ref = 1) := by
  rw [Fs.newFd]
  refine h.filealloc.bind ?_
  rintro r s1 ⟨h1, hc1, hp1, hsome⟩
  have hq1 : Quiet s s1 := .of_core hc1 (by simp [hp1])
  split
  · rw [outcome_pure]
    exact ⟨h1, hq1, hc1, by simp⟩
  rename_i f
  obtain ⟨-, hr1, ht1, -⟩ := hsome f rfl
  refine (h1.fdalloc p f).bind ?_
  rintro r' s2 ⟨h2, hq2, hc2, hf2, hnone⟩
  split
  · rw [hnone rfl]
    refine (h1.fileclose_none hE ht1).bind ?_
    rintro _ s3 ⟨h3, hc3, hp3, -⟩
    rw [outcome_pure]
    exact ⟨h3, .of_core (hc3.trans hc1) (by simp [hp3, hp1]), hc3.trans hc1, by simp⟩
  · rw [outcome_pure]
    refine ⟨h2, hq1.trans hq2, hc2.trans hc1, ?_⟩
    intro g hg
    cases hg
    rw [hf2]
    exact ⟨ht1, hr1⟩

end

end Xv6.Fs
