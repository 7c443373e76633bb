import Xv6.Fs.SysCalls

namespace Xv6.Fs

open Finset Function Lib

/-- The change of a call that makes an inode of the given type. -/
def MakesNode (s : Sys) (p : Nat) (bytes : List Byte) (type : Nat) (a : Change) : Prop :=
  ∃ path d name i, argstr bytes = some path ∧ a = .create d name i type ∧ s.Parent p path d name

/-- The change link() makes. -/
def MakesLink (s : Sys) (p : Nat) (old new : List Byte) (a : Change) : Prop :=
  ∃ old' new' d name i, argstr old = some old' ∧ argstr new = some new' ∧ a = .link d name i ∧
    s.lookup p old' = some i ∧ s.Parent p new' d name

/-- The change unlink() makes. -/
def Removes (s : Sys) (p : Nat) (bytes : List Byte) (a : Change) : Prop :=
  ∃ path d name i, argstr bytes = some path ∧ a = .unlink d name i ∧ s.Parent p path d name ∧
    (s.view d).lookup name = some i

section
variable {sb : Superblock} {e : Ext} {L : Locals} {K : Finset Nat} {s t u : Sys}
  {E : Panic → Prop} {P : Change → Prop} {D R : Nat → Prop}

theorem Mid.sysClose (h : Mid sb e 0 ∅ s) (hp : Procs s) (hE : E .fileclose) (p : Nat) (fd : Int) :
    Outcome (sysClose p fd) s E (fun _ t => Done sb s P D t) := by
  rw [Fs.sysClose, outcome_bind, Fs.argfd, outcome_bind, outcome_get]
  refine Outcome.ite (fun _ => ?_) (fun _ => (Quiet.refl s).done hp h)
  rw [outcome_pure]
  split
  · exact (Quiet.refl s).done hp h
  · rename_i d f _
    rw [outcome_bind, outcome_modify]
    refine ((h.setFd p d none).fileclose hE f).imp ?_
    rintro _ t ⟨e', ht, hq, -⟩
    exact ((Quiet.setFd s p d none).trans hq).done hp ht

theorem Mid.sysDup (h : Mid sb e 0 ∅ s) (hF : FilesOk 0 s) (hp : Procs s) (hE : E .filedup)
    (p : Nat) (fd : Int) : Outcome (sysDup p fd) s E (fun _ t => Done sb s P D t) := by
  rw [Fs.sysDup]
  refine (Mid.argfd hF p fd).bind ?_
  rintro r t ⟨rfl, -⟩
  split
  · exact (Quiet.refl t).done hp h
  rename_i d f
  refine (h.fdalloc p f).bind ?_
  rintro r s1 ⟨h1, hq1, -⟩
  split
  · exact hq1.done hp h1
  · refine (h1.filedup hE f).imp ?_
    rintro _ s2 ⟨h2, hq2⟩
    exact (hq1.trans hq2).done hp h2

theorem Mid.sysRead (h : Mid sb e 0 ∅ s) (hF : FilesOk 0 s) (hp : Procs s) (hE : E .fileread)
    (p : Nat) (fd : Int) (dst n : Nat) :
    Outcome (sysRead sb p fd dst n) s E (fun _ t => Done sb s P D t) := by
  rw [Fs.sysRead]
  refine (Mid.argfd hF p fd).bind ?_
  rintro r t ⟨rfl, hr⟩
  split
  · exact (Quiet.refl t).done hp h
  · rename_i d f
    refine (h.fileread hE (hr d f rfl) dst n).imp ?_
    rintro _ s1 ⟨h1, hq1⟩
    exact hq1.done hp h1

theorem Mid.sysWrite (h : Mid sb e 0 ∅ s) (hF : FilesOk 0 s) (hp : Procs s) (hE : E .filewrite)
    (p : Nat) (fd : Int) (src : List Byte) (n : Nat) :
    Outcome (sysWrite sb p fd src n) s E (fun _ t => Done sb s P D t) := by
  rw [Fs.sysWrite]
  refine (Mid.argfd hF p fd).bind ?_
  rintro r t ⟨rfl, hr⟩
  split
  · exact (Quiet.refl t).done hp h
  · rename_i d f
    refine (h.filewrite hE (hr d f rfl) src n).imp ?_
    rintro _ s1 ⟨h1, hq1⟩
    exact hq1.done hp h1

/-- link(): the entry is made, or nothing happens for one of the reasons in LinkFails. -/
theorem Mid.link (h : Mid sb e 0 ∅ s) (hp : Procs s) (A : Permits E R e s)
    (hc : (s.procs p).cwd = some cwd) (hn : (0 : Byte) ∉ new) (old : List Byte) :
    Outcome (Fs.onCore (link sb cwd old new)) s E (fun _ t =>
      Done sb s (Links e s.view cwd old new) D t ∧
      (Moved sb Nobody (Links e s.view cwd old new) s.view t.view ∨
        LinkFails sb e s.view cwd old new)) := by
  obtain ⟨hcnt, hR⟩ := A.caller h hc
  rw [outcome_onCore]
  refine (Ok.link A.lookup h.core hcnt A.root hR hn old).imp ?_
  rintro r c ⟨hok, htrue, hfalse⟩
  cases r with
  | true =>
    obtain ⟨V1, V2, a, h1, ha, hm, h2⟩ := htrue rfl
    refine ⟨.of_effect h hp hok (.inr ⟨V1, V2, a, h1, ha, hm, h2⟩), .inl ?_⟩
    exact ⟨V1, V2, a, h1.mono (fun _ hn => hn.elim), ha, hm, h2.mono (fun _ hn => hn.elim)⟩
  | false => exact ⟨.of_effect h hp hok (.inl (hfalse rfl).1), .inr (hfalse rfl).2⟩

theorem Mid.sysLink (h : Mid sb e 0 ∅ s) (hp : Procs s) (A : Permits E R e s) (p : Nat)
    (old new : List Byte) :
    Outcome (sysLink sb p old new) s E (fun _ t => Done sb s (MakesLink s p old new) D t) := by
  refine withPath_outcome ((Quiet.refl s).done hp h) ?_
  intro cwd old' hc hold
  refine withPath_outcome ((Quiet.refl s).done hp h) ?_
  intro _ new' _ hnew
  refine (h.link (D := D) hp A hc (argstr_ok hnew) old').bind ?_
  rintro _ t ⟨hdone, -⟩
  refine hdone.mono ?_
  rintro a ⟨d, name, i, rfl, hl, hpar⟩
  rw [h.lookup_eq hc] at hl
  exact ⟨old', new', d, name, i, hold, hnew, rfl, hl, h.parent hc hpar⟩

/-- unlink(), with what becomes of the inode it takes the last link from. -/
theorem Mid.sysUnlink_settles (h : Mid sb e 0 ∅ s) (hp : Procs s) (A : Permits E R e s)
    (U : AllowsUnlink E s.view R) (p : Nat) (bytes : List Byte) :
    Outcome (sysUnlink sb p bytes) s E (fun _ t => Done sb s (Removes s p bytes) D t ∧
      Settled e s.view t.view) := by
  refine withPath_outcome ⟨(Quiet.refl s).done hp h, (Thin.refl Nobody _).settled⟩ ?_
  intro cwd path hc hpath
  obtain ⟨hcnt, hR⟩ := A.caller h hc
  rw [outcome_bind, outcome_onCore]
  refine (Ok.unlink A.lookup U h.core hcnt A.root hR path).imp ?_
  rintro _ c ⟨hok, heff, hset⟩
  refine ⟨.of_effect h hp hok (heff.mono (fun _ hi => hi) ?_), hset⟩
  rintro a ⟨d, name, i, rfl, hpar, hl⟩
  exact ⟨path, d, name, i, hpath, rfl, h.parent hc hpar, hl⟩

theorem Mid.sysUnlink (h : Mid sb e 0 ∅ s) (hp : Procs s) (A : Permits E R e s)
    (U : AllowsUnlink E s.view R) (p : Nat) (bytes : List Byte) :
    Outcome (sysUnlink sb p bytes) s E (fun _ t => Done sb s (Removes s p bytes) D t) :=
  (h.sysUnlink_settles hp A U p bytes).imp fun _ _ hd => hd.1

theorem Mid.creates (h : Mid sb e 0 ∅ s) (hc : (s.procs p).cwd = some cwd)
    (hpath : argstr bytes = some path) (ha : Creates e s.view cwd path type a) :
    MakesNode s p bytes type a := by
  obtain ⟨d, name, i, rfl, hpar⟩ := ha
  exact ⟨path, d, name, i, hpath, rfl, h.parent hc hpar⟩

theorem Mid.iunlockput (h : Mid sb e ((x, i) ::ₘ L) (insert x ∅) s) :
    Outcome (Fs.onCore (Fs.iunlockput x)) s E (fun _ t => Mid sb e L ∅ t ∧ Quiet s t ∧
      t = { s with core := t.core }) := by
  rw [outcome_onCore]
  refine (h.core.iunlockput (mem_insert_self _ _)).imp ?_
  rintro _ c ⟨hok, hthin⟩
  obtain ⟨hmid, hq⟩ := h.lift_thin hok (hthin.mono fun j hj => hj.held L)
  exact ⟨by simpa using hmid, hq, rfl⟩

theorem Mid.makeNode (h : Mid sb e 0 ∅ s) (hp : Procs s) (A : Permits E R e s) (p : Nat)
    (bytes : List Byte) (ht : type ≠ 0) (major minor : BitVec 16) :
    Outcome (makeNode sb p bytes type major minor) s E (fun _ t =>
      Done sb s (MakesNode s p bytes type) D t) := by
  refine withPath_outcome ((Quiet.refl s).done hp h) ?_
  intro cwd path hc hpath
  obtain ⟨hcnt, hR⟩ := A.caller h hc
  rw [outcome_bind, outcome_onCore]
  refine (Ok.create A.lookup h.core hcnt A.root hR (argstr_ok hpath) ht major minor).imp ?_
  rintro r c ⟨hnone, hsome⟩
  split
  · obtain ⟨hok, hthin⟩ := hnone rfl
    exact .of_effect h hp hok (.inl hthin)
  · rename_i x
    obtain ⟨i, hok, -, heff⟩ := hsome x rfl
    obtain ⟨hmid, hdir⟩ := h.lift_effect hok heff
    refine (Mid.iunlockput (L := 0) hmid).imp ?_
    rintro _ t ⟨ht', hq, -⟩
    refine .of_quiet (heff.mono (fun _ hn => hn.elim) ?_) hdir hp hq ht'
    exact fun a ha => h.creates hc hpath ha

/-- open() gets at its inode: an existing one, or a new one. Only files and devices are opened for
writing. -/
theorem Mid.openInode (h : Mid sb e 0 ∅ s) (A : Permits E R e s)
    (hc : (s.procs p).cwd = some cwd) (hpath : argstr bytes = some path) (omode : BitVec 32) :
    Outcome (openInode sb cwd path omode) s.core E (fun r c =>
      Effect sb e.Holds (fun a => omode &&& O_CREATE ≠ 0 ∧ MakesNode s p bytes T_FILE a)
        s.view c.disk.view ∧
      (r = none → Ok sb e 0 ∅ c) ∧
      ∀ x, r = some x → ∃ i, Ok sb e {(x, i)} (insert x ∅) c ∧
        ((c.disk.view i).type = T_DIR → omode = O_RDONLY)) := by
  obtain ⟨hcnt, hR⟩ := A.caller h hc
  unfold Fs.openInode
  refine Outcome.ite (fun hcr => ?_) (fun hcr => ?_)
  · refine (Ok.create A.lookup h.core hcnt A.root hR (argstr_ok hpath) (by decide) 0 0).imp ?_
    rintro r c ⟨hnone, hsome⟩
    cases r with
    | none => exact ⟨.inl (hnone rfl).2, fun _ => (hnone rfl).1, by simp⟩
    | some x =>
      obtain ⟨i, hok, hnd, heff⟩ := hsome x rfl
      refine ⟨heff.mono (fun _ hi => hi) (fun a ha => ⟨hcr, h.creates hc hpath ha⟩), by simp, ?_⟩
      intro y hy
      cases hy
      exact ⟨i, hok, fun hd => absurd hd (hnd (by decide))⟩
  · refine (Ok.namei A.lookup (by simp) (fun j hj => hj.held 0) h.core hcnt A.root hR (.refl _ _)
      path).bind ?_
    rintro r c1 ⟨hthin1, hnone, hsome⟩
    split
    · rw [outcome_pure]
      exact ⟨.inl hthin1, fun _ => (hnone rfl).1, by simp⟩
    rename_i x
    obtain ⟨i, h1, hw⟩ := hsome x rfl
    have hmem : (x, i) ∈ ((x, i) ::ₘ 0 : Locals) := Multiset.mem_cons_self _ _
    have hk : x ∈ insert x (∅ : Finset Nat) := mem_insert_self _ _
    have hRi : R i := walk_reach A.lookup (e.reach_start A.root hR path) hw
    refine (h1.lock hmem (fun hx => absurd hx (notMem_empty x))
      (fun hz => A.lookup.noType_of_thin hRi hthin1 hz)).bind ?_
    rintro _ c2 ⟨h2, hd2, -⟩
    rw [outcome_bind, outcome_itype, (h2.copy_eq hmem hk).1, ← view_type]
    refine Outcome.ite (fun _ => ?_) (fun hmode => ?_)
    · refine (h2.iunlockput hk).bind ?_
      rintro _ c3 ⟨h3, hthin3⟩
      rw [hd2] at hthin3
      rw [outcome_pure]
      refine ⟨.inl (hthin1.trans (hthin3.mono fun j hj => hj.held 0)), fun _ => ?_, by simp⟩
      simpa using h3
    · rw [outcome_pure]
      refine ⟨.inl (by rw [hd2]; exact hthin1), by simp, ?_⟩
      intro y hy
      cases hy
      refine ⟨i, h2, fun hd => ?_⟩
      by_contra hne
      exact hmode ⟨hd, hne⟩

theorem Mid.sysOpen (h : Mid sb e 0 ∅ s) (hp : Procs s) (A : Permits E R e s) (hE : E .fileclose)
    (p : Nat) (bytes : List Byte) (omode : BitVec 32) :
    Outcome (sysOpen sb p bytes omode) s E (fun _ t =>
      Done sb s (fun a => omode &&& O_CREATE ≠ 0 ∧ MakesNode s p bytes T_FILE a) D t) := by
  refine withPath_outcome ((Quiet.refl s).done hp h) ?_
  intro cwd path hc hpath
  rw [outcome_bind, outcome_onCore]
  refine (h.openInode A hc hpath omode).imp ?_
  rintro r c ⟨heff, hnone, hsome⟩
  split
  · exact .of_effect h hp (hnone rfl) heff
  rename_i x
  obtain ⟨i, hok, hmode⟩ := hsome x rfl
  obtain ⟨h1, hdir1⟩ := h.lift_effect hok heff
  have heff1 : Effect sb Nobody _ s.view c.disk.view :=
    heff.mono (fun _ hn => hn.elim) (fun _ ha => ha)
  have hmem : (x, i) ∈ ({(x, i)} : Locals) := Multiset.mem_singleton_self _
  have hk : x ∈ insert x (∅ : Finset Nat) := mem_insert_self _ _
  obtain ⟨hcopy, htype⟩ := h1.core.copy_eq hmem hk
  dsimp only at hcopy htype
  -- exits that give the inode back
  have hback : ∀ s2, Mid sb e ((x, i) ::ₘ 0) (insert x ∅) s2 → Quiet { s with core := c } s2 →
      Outcome (Fs.onCore (Fs.iunlockput x)) s2 E (fun _ t => Done sb s
        (fun a => omode &&& O_CREATE ≠ 0 ∧ MakesNode s p bytes T_FILE a) D t) := by
    intro s2 h2 hq2
    refine h2.iunlockput.imp ?_
    rintro _ t ⟨ht, hq, -⟩
    exact .of_quiet heff1 hdir1 hp (hq2.trans hq) ht
  rw [outcome_bind, outcome_get]
  refine Outcome.ite (fun _ => hback _ h1 (.refl _)) (fun _ => ?_)
  refine (h1.newFd hE p).bind ?_
  rintro r s2 ⟨h2, hq2, hc2, hf2⟩
  dsimp only at hc2
  split
  · exact hback s2 h2 hq2
  rename_i f
  obtain ⟨htf, hrf⟩ := hf2 f rfl
  rw [outcome_bind, outcome_modify, outcome_bind]
  have hview2 : s2.view = c.disk.view := by rw [Sys.view, hc2]
  have h3 : Mid sb (e.add x i) 0 (insert x ∅)
      (s2.setFile f (Fs.openFile (s2.ftable f) x (c.itable x).copy omode)) := by
    refine Mid.openFile (L := 0) h2 ?_ ?_ ?_ ?_
    · simp [File.inode, htf]
    · unfold File.inode Fs.openFile
      rw [if_pos]
      refine ⟨by dsimp only; omega, ?_⟩
      by_cases hdev : (c.itable x).copy.type = T_DEVICE
      · exact .inr (if_pos hdev)
      · exact .inl (if_neg hdev)
    · rw [hview2, view_type]
      exact htype
    · intro hw hd
      rw [hview2] at hd
      rw [hmode hd] at hw
      simp [Fs.openFile, O_RDONLY] at hw
  have h4 : Outcome (onlyIf (omode &&& O_TRUNC ≠ 0 ∧ (c.itable x).copy.type = T_FILE)
      (Fs.onCore (onInode x (fun inum ip => do
        let ip ← itrunc inum ip
        return ((), ip)))))
      (s2.setFile f (Fs.openFile (s2.ftable f) x (c.itable x).copy omode)) E (fun _ t =>
        Mid sb (e.add x i) 0 (insert x ∅) t ∧ Quiet { s with core := c } t) := by
    have hq3 := hq2.trans
      (Quiet.setFile s2 f (Fs.openFile (s2.ftable f) x (c.itable x).copy omode))
    unfold onlyIf
    refine Outcome.ite (fun htr => ?_) (fun _ => ⟨h3, hq3⟩)
    have hnum : (s2.core.itable x).inum = i := by
      rw [hc2]
      exact (h1.core.inside _ hmem).2
    refine (h3.content (h3.core.trunc hk ?_)).imp ?_
    · change (s2.view (s2.core.itable x).inum).type ≠ T_DIR
      rw [hnum, hview2, view_type, ← hcopy, htr.2]
      decide
    · rintro _ t ⟨ht, hq, -⟩
      exact ⟨ht, hq3.trans hq⟩
  refine h4.imp ?_
  rintro _ s4 ⟨h4, hq4⟩
  refine h4.iunlock.imp ?_
  rintro _ t ⟨ht, hq, -⟩
  exact .of_quiet heff1 hdir1 hp (hq4.trans hq) ht

/-- A path of chdir() and exec() leads to an inode, which is locked. -/
theorem Mid.nameLock (h : Mid sb e 0 ∅ s) (A : Permits E R e s)
    (hc : (s.procs p).cwd = some cwd) (path : List Byte) :
    Outcome (namei sb cwd path) s.core E (fun r c =>
      (r = none → Ok sb e 0 ∅ c ∧ Thin e.Holds s.view c.disk.view) ∧
      ∀ x, r = some x → Outcome (Fs.ilock x) c E (fun _ c' => ∃ i,
        Ok sb e {(x, i)} (insert x ∅) c' ∧ Thin e.Holds s.view c'.disk.view ∧
        c'.disk.view i = s.view i ∧ s.lookup p path = some i)) := by
  obtain ⟨hcnt, hR⟩ := A.caller h hc
  refine (Ok.namei A.lookup (by simp) (fun j hj => hj.held 0) h.core hcnt A.root hR (.refl _ _)
    path).imp ?_
  rintro r c1 ⟨hthin1, hnone, hsome⟩
  refine ⟨fun hr => ⟨(hnone hr).1, hthin1⟩, ?_⟩
  intro x hr
  obtain ⟨i, h1, hw⟩ := hsome x hr
  have hmem : (x, i) ∈ ((x, i) ::ₘ 0 : Locals) := Multiset.mem_cons_self _ _
  have hRi : R i := walk_reach A.lookup (e.reach_start A.root hR path) hw
  refine (h1.lock hmem (fun hx => absurd hx (notMem_empty x))
    (fun hz => A.lookup.noType_of_thin hRi hthin1 hz)).imp ?_
  rintro _ c2 ⟨h2, hd2, -, ht⟩
  refine ⟨i, h2, by rw [hd2]; exact hthin1, ?_, ?_⟩
  · rw [hd2]
    exact hthin1.eq_of_type ht
  · rw [← h.lookup_eq hc]
    exact hw

theorem Mid.sysExec (h : Mid sb e 0 ∅ s) (hp : Procs s) (A : Permits E R e s) (p : Nat)
    (bytes : List Byte) (reads : List (Nat × Nat)) :
    Outcome (sysExec sb p bytes reads) s E (fun _ t => Done sb s P D t) := by
  refine withPath_outcome ((Quiet.refl s).done hp h) ?_
  intro cwd path hc _
  rw [outcome_bind, outcome_onCore]
  refine (h.nameLock A hc path).imp ?_
  rintro r c ⟨hnone, hsome⟩
  split
  · obtain ⟨hok, hthin⟩ := hnone rfl
    exact .of_effect h hp hok (.inl hthin)
  rename_i x
  rw [outcome_bind, outcome_onCore]
  refine (hsome x rfl).imp ?_
  rintro _ c1 ⟨i, hok, hthin, -⟩
  obtain ⟨h1, hq1⟩ := h.lift_thin hok hthin
  refine (Outcome.forM (fun _ t => Mid sb e {(x, i)} (insert x ∅) t ∧ Quiet s t) ?_
    ⟨h1, hq1⟩).bind ?_
  · rintro r _ t ⟨ht, hq⟩
    refine (ht.content (ht.core.readi (mem_insert_self _ _) _ _ _)).bind ?_
    rintro _ u ⟨hu, hqu, -⟩
    exact ⟨hu, hq.trans hqu⟩
  · rintro _ t ⟨ht, hq⟩
    refine (Mid.iunlockput (L := 0) ht).imp ?_
    rintro _ u ⟨hu, hqu, -⟩
    exact (hq.trans hqu).done hp hu

/-- The directory chdir() goes to. -/
def EntersDir (s : Sys) (p : Nat) (bytes : List Byte) (j : Nat) : Prop :=
  ∃ path, argstr bytes = some path ∧ s.lookup p path = some j ∧ (s.view j).type = T_DIR

@[simp]
theorem setProc_setProc (s : Sys) (p : Nat) (proc proc' : Proc) :
    (s.setProc p proc).setProc p proc' = s.setProc p proc' := by
  simp [Sys.setProc]

theorem dir_setProc_of_ne (s : Sys) (proc : Proc) (h : q ≠ p) :
    (s.setProc p proc).dir q = s.dir q := by
  simp [Sys.dir, Sys.setProc, h]

theorem dir_setProc_self (s : Sys) (p : Nat) (proc : Proc) :
    (s.setProc p proc).dir p = proc.cwd.map (fun x => (s.core.itable x).inum) := by
  simp [Sys.dir, Sys.setProc]

theorem Mid.putDir (h : Mid sb e L ∅ s) (hc : (s.procs p).cwd = some cwd) :
    Outcome (Fs.onCore (Fs.iput cwd)) s E (fun _ t => t = { s with core := t.core } ∧
      Thin (Held (e.drop cwd) L) s.view t.view ∧
      ∀ proc, proc.cwd = none → Mid sb (e.drop cwd) L ∅ (t.setProc p proc)) := by
  have hleave : ∀ proc, proc.cwd = none →
      Mid sb (e.drop cwd) ((cwd, e.num cwd) ::ₘ L) ∅ (s.setProc p proc) :=
    fun proc hn => h.leaveDir hc hn
  have h1 := hleave { s.procs p with cwd := none } rfl
  rw [outcome_onCore]
  refine (h1.core.iput (.inl (notMem_empty cwd))).imp ?_
  rintro _ c ⟨hok, hthin⟩
  refine ⟨rfl, hthin, ?_⟩
  intro proc hn
  exact ((hleave proc hn).lift_thin hok (hthin.mono fun j hj => hj.held L)).1

/-- Whoever stays where he is still is there when another process has left its directory. -/
theorem Mid.dir_left (h : Mid sb e L ∅ s) (ht : Mid sb (e.drop x) L' ∅ (t.setProc p proc))
    (hp : t.procs = s.procs) (hq : q ≠ p) : (t.setProc p proc).dir q = s.dir q := by
  rw [ht.dir_eq, h.dir_eq]
  simp only [Sys.setProc, update_of_ne hq, hp]
  rfl

theorem Mid.sysChdir (h : Mid sb e 0 ∅ s) (hp : Procs s) (A : Permits E R e s) (p : Nat)
    (bytes : List Byte) :
    Outcome (sysChdir sb p bytes) s E (fun _ t => Done sb s P (EntersDir s p bytes) t) := by
  refine withPath_outcome ((Quiet.refl s).done hp h) ?_
  intro cwd path hc hpath
  rw [outcome_bind, outcome_onCore]
  refine (h.nameLock A hc path).imp ?_
  rintro r c ⟨hnone, hsome⟩
  split
  · obtain ⟨hok, hthin⟩ := hnone rfl
    exact .of_effect h hp hok (.inl hthin)
  rename_i x
  rw [outcome_bind, outcome_onCore]
  refine (hsome x rfl).imp ?_
  rintro _ c1 ⟨i, hok, hthin, hview, hlook⟩
  obtain ⟨h1, hq1⟩ := h.lift_thin hok hthin
  have hmem : (x, i) ∈ ({(x, i)} : Locals) := Multiset.mem_singleton_self _
  have hk : x ∈ insert x (∅ : Finset Nat) := mem_insert_self _ _
  rw [outcome_bind, outcome_onCore, outcome_itype]
  dsimp only
  rw [(hok.copy_eq hmem hk).1]
  refine Outcome.ite (fun hd => ?_) (fun _ => ?_)
  · rw [← view_type, hview] at hd
    refine h1.iunlock.bind ?_
    rintro _ s2 ⟨h2, hq2, heq2, hdisk2⟩
    have hc2 : (s2.procs p).cwd = some cwd := by rw [heq2]; exact hc
    refine (h2.putDir hc2).bind ?_
    rintro _ s3 ⟨heq3, hthin3, h3⟩
    rw [outcome_modify]
    have hprocs : s3.procs = s.procs := by rw [heq3, heq2]
    have hinum : (s3.core.itable x).inum = i :=
      ((h3 { s3.procs p with cwd := none } rfl).core.inside _ hmem).2
    -- the reference namei returned becomes that of the process
    have hfin : Mid sb ((e.drop cwd).add x i) 0 ∅
        (s3.setProc p { s3.procs p with cwd := some x }) := by
      rw [← setProc_setProc s3 p { s3.procs p with cwd := none }]
      refine Mid.enterDir (L := 0) (h3 { s3.procs p with cwd := none } rfl)
        (by simp [Sys.setProc]) rfl ?_
      change (s3.view i).type ≠ 0
      rw [hthin3.held (.inr ⟨x, hmem⟩), Sys.view, hdisk2, hview, hd]
      decide
    refine ⟨⟨_, hfin⟩, ?_, .inl ?_, ?_⟩
    · intro q
      rcases eq_or_ne q p with rfl | hqp
      · have hpq := hp q
        simp only [Sys.setProc, update_self, hprocs]
        rw [← hpq, hc]
        simp
      · simp only [Sys.setProc, update_of_ne hqp, hprocs]
        exact hp q
    · exact (hq1.thin.trans hq2.thin).trans (hthin3.mono fun _ hn => hn.elim)
    · intro q j hj
      rcases eq_or_ne q p with rfl | hqp
      · rw [dir_setProc_self] at hj
        simp only [Option.map_some, hinum, Option.some.injEq] at hj
        subst hj
        exact .inr ⟨path, hpath, hlook, hd⟩
      · rw [dir_setProc_of_ne _ _ hqp,
          ← dir_setProc_of_ne s3 { s3.procs p with cwd := none } hqp,
          h2.dir_left (h3 _ rfl) (by rw [heq3]) hqp, hq2.dir, hq1.dir] at hj
        exact .inl ⟨q, hj⟩
  · refine (Mid.iunlockput (L := 0) h1).imp ?_
    rintro _ t ⟨ht, hq, -⟩
    exact (hq1.trans hq).done hp ht

theorem Mid.closeFd (h : Mid sb e 0 ∅ s) (hE : E .fileclose) (p fd : Nat) :
    Outcome (closeFd p fd) s E (fun _ t => ∃ e', Mid sb e' 0 ∅ t ∧ Quiet s t) := by
  rw [Fs.closeFd, outcome_bind, outcome_get]
  split
  · exact ⟨e, h, .refl s⟩
  · refine (h.fileclose hE _).bind ?_
    rintro _ t ⟨e', ht, hq, -⟩
    rw [outcome_modify]
    exact ⟨e', ht.setFd p fd none, hq.trans (.setFd ..)⟩

theorem Mid.sysExit (h : Mid sb e 0 ∅ s) (hp : Procs s) (hE : E .fileclose)
    (hinit : E .initExiting) (p : Nat) :
    Outcome (sysExit p) s E (fun _ t => Done sb s P D t) := by
  rw [Fs.sysExit, outcome_bind, outcome_get]
  refine Outcome.ite (fun _ => hinit) (fun _ => ?_)
  split
  · exact (Quiet.refl s).done hp h
  rename_i cwd hc
  refine (Outcome.forM (fun _ t => ∃ e', Mid sb e' 0 ∅ t ∧ Quiet s t) ?_
    ⟨e, h, .refl s⟩).bind ?_
  · rintro fd _ t ⟨e', ht, hq⟩
    refine (ht.closeFd hE p fd).imp ?_
    rintro _ u ⟨e'', hu, hqu⟩
    exact ⟨e'', hu, hq.trans hqu⟩
  rintro _ s1 ⟨e', h1, hq1⟩
  have hc1 : (s1.procs p).cwd = some cwd := by rw [(hq1.procs p).1]; exact hc
  refine (h1.putDir hc1).bind ?_
  rintro _ s2 ⟨heq2, hthin2, h2⟩
  rw [outcome_modify]
  have hprocs : s2.procs = s1.procs := by rw [heq2]
  have hmid := h2 { s2.procs p with state := .zombie, cwd := none } rfl
  refine ⟨⟨_, hmid⟩, ?_, .inl ?_, ?_⟩
  · intro q
    rcases eq_or_ne q p with rfl | hqp
    · simp [Sys.setProc]
    · simp only [Sys.setProc, update_of_ne hqp, hprocs]
      exact hq1.procsOk hp q
  · exact hq1.thin.trans (hthin2.mono fun _ hn => hn.elim)
  · intro q j hj
    rcases eq_or_ne q p with rfl | hqp
    · rw [dir_setProc_self] at hj
      cases hj
    · rw [h1.dir_left hmid hprocs hqp, hq1.dir] at hj
      exact .inl ⟨q, hj⟩

theorem Mid.sysReap (h : Mid sb e 0 ∅ s) (hp : Procs s) (q : Nat) :
    Outcome (sysReap q) s E (fun _ t => Done sb s P D t) := by
  rw [Fs.sysReap, outcome_bind, outcome_get]
  refine Outcome.ite (fun hz => ?_) (fun _ => (Quiet.refl s).done hp h)
  rw [outcome_set]
  have hcwd : (s.procs q).cwd = none := by
    by_contra hne
    have := ((hp q).mp hne).2
    rw [hz] at this
    cases this
  refine ⟨⟨e, h.setProc rfl⟩, ?_, .inl (.refl _ _), ?_⟩
  · intro p
    rcases eq_or_ne p q with rfl | hpq
    · simp [Sys.setProc, hcwd]
    · simp only [Sys.setProc, update_of_ne hpq]
      exact hp p
  · intro p j hj
    rcases eq_or_ne p q with rfl | hpq
    · rw [dir_setProc_self] at hj
      simp [hcwd] at hj
    · rw [dir_setProc_of_ne _ _ hpq] at hj
      exact .inl ⟨p, hj⟩

theorem Mid.dupFd (h : Mid sb e 0 ∅ s) (hE : E .filedup) (p np fd : Nat) :
    Outcome (dupFd p np fd) s E (fun _ t => Mid sb e 0 ∅ t ∧ Quiet s t) := by
  rw [Fs.dupFd, outcome_bind, outcome_get]
  split
  · exact ⟨h, .refl s⟩
  · refine (h.filedup hE _).bind ?_
    rintro _ t ⟨ht, hq⟩
    rw [outcome_modify]
    exact ⟨ht.setFd np fd _, hq.trans (.setFd ..)⟩

theorem Mid.sysFork (h : Mid sb e 0 ∅ s) (hp : Procs s) (hE : E .filedup) (p : Nat) (mem : Bool) :
    Outcome (sysFork p mem) s E (fun _ t => Done sb s P D t) := by
  rw [Fs.sysFork, outcome_bind, outcome_get]
  split
  · rename_i np cwd hnp hcwd
    have hun : (s.procs np).state = .unused := by simpa using List.find?_some hnp
    have hlt : np < NPROC := List.mem_range.mp (List.mem_of_find?_eq_some hnp)
    have hnone : (s.procs np).cwd = none := by
      by_contra hne
      have := ((hp np).mp hne).2
      rw [hun] at this
      cases this
    have hne : p ≠ np := by
      rintro rfl
      rw [hnone] at hcwd
      cases hcwd
    refine Outcome.ite (fun _ => ?_) (fun _ => (Quiet.refl s).done hp h)
    rw [outcome_bind, outcome_set, outcome_bind]
    have h1 : Mid sb e 0 ∅ (s.setProc np { s.procs np with state := .used }) := h.setProc rfl
    have hdir1 : (s.setProc np { s.procs np with state := .used }).dir = s.dir := by
      funext q
      rcases eq_or_ne q np with rfl | hq
      · rw [dir_setProc_self]
        rfl
      · exact dir_setProc_of_ne _ _ hq
    refine (Outcome.forM (fun _ t => Mid sb e 0 ∅ t ∧
      Quiet (s.setProc np { s.procs np with state := .used }) t) ?_ ⟨h1, .refl _⟩).imp ?_
    · rintro fd _ t ⟨ht, hq⟩
      refine (ht.dupFd hE p np fd).imp ?_
      rintro _ u ⟨hu, hqu⟩
      exact ⟨hu, hq.trans hqu⟩
    rintro _ s2 ⟨h2, hq2⟩
    have hp1 : ∀ q, q ≠ np → (s.setProc np { s.procs np with state := .used }).procs q =
        s.procs q := by
      intro q hq
      simp [Sys.setProc, hq]
    have hx : s2.points (.inl p) = some cwd := by
      change (s2.procs p).cwd = some cwd
      rw [(hq2.procs p).1, hp1 p hne]
      exact hcwd
    have hnp2 : (s2.procs np).cwd = none ∧ (s2.procs np).state = .used := by
      rw [(hq2.procs np).1, (hq2.procs np).2]
      simp [Sys.setProc, hnone]
    rw [outcome_bind, outcome_onCore]
    refine (h2.core.idup (h2.cnt_pos hx)).imp ?_
    rintro y c ⟨hok, hd⟩
    obtain ⟨h3, hq3⟩ := h2.lift_thin hok (by rw [hd]; exact .refl _ _)
    rw [outcome_modify]
    have hfin : Mid sb (e.add y (e.num cwd)) 0 ∅ (Sys.setProc { s2 with core := c } np
        { s2.procs np with cwd := some y }) := by
      refine Mid.enterDir (L := 0) h3 hnp2.1 rfl ?_
      change (c.disk.view (e.num cwd)).type ≠ 0
      rw [hd, view_type]
      exact (h2.core.outside cwd (h2.cnt_pos hx)).2.2
    refine ⟨⟨_, hfin⟩, ?_, .inl (hq2.trans hq3).thin, ?_⟩
    · intro q
      rcases eq_or_ne q np with rfl | hq
      · simp [Sys.setProc, hnp2.2, hlt]
      · simp only [Sys.setProc, update_of_ne hq]
        rw [(hq2.procs q).1, (hq2.procs q).2, hp1 q hq]
        exact hp q
    · intro q j hj
      rcases eq_or_ne q np with rfl | hq
      · rw [dir_setProc_self] at hj
        simp only [Option.map_some, Option.some.injEq] at hj
        rw [(hok.inside _ (Multiset.mem_cons_self _ _)).2] at hj
        dsimp only at hj
        refine .inl ⟨p, ?_⟩
        rw [h.dir_eq, hcwd, Option.map_some, hj]
      · rw [dir_setProc_of_ne _ _ hq, hq3.dir, hq2.dir, hdir1] at hj
        exact .inl ⟨q, hj⟩
  · exact (Quiet.refl s).done hp h

theorem Mid.congr (h : Mid sb e L K s) (hc : t.core = s.core) (hf : t.ftable = s.ftable)
    (hp : t.procs = s.procs) : Mid sb e L K t := by
  have hpts : t.points = s.points := by
    funext q
    cases q with
    | inl p => simp [Sys.points, hp]
    | inr f => simp [Sys.points, hf]
  refine ⟨by rw [hpts]; exact h.points, by rw [hc]; exact h.core, ?_, by rw [hf]; exact h.closed⟩
  rw [hf, Sys.view, hc]
  exact h.readonly

theorem Mid.setPipeEnd (h : Mid sb e L K s) (ht : (s.ftable f).type = .none)
    (hp : file.type = .pipe) (hr : file.ref ≠ 0) : Mid sb e L K (s.setFile f file) := by
  refine h.setFile ?_ ?_ (fun h0 => absurd h0 hr)
  · simp [File.inode, hp, ht]
  · simp [File.inode, hp]

theorem Mid.pipealloc (h : Mid sb e 0 ∅ s) (hE : E .fileclose) (mem : Bool) :
    Outcome (pipealloc mem) s E (fun _ t => ∃ e', Mid sb e' 0 ∅ t ∧ Quiet s t) := by
  rw [Fs.pipealloc]
  refine h.filealloc.bind ?_
  rintro r0 s1 ⟨h1, hc1, hp1, hsome0⟩
  have hq1 : Quiet s s1 := .of_core hc1 (by simp [hp1])
  split
  · rw [outcome_pure]
    exact ⟨e, h1, hq1⟩
  rename_i f0
  obtain ⟨-, hr0, ht0, -⟩ := hsome0 f0 rfl
  refine h1.filealloc.bind ?_
  rintro r1 s2 ⟨h2, hc2, hp2, hsome1⟩
  have hq2 : Quiet s s2 := hq1.trans (.of_core hc2 (by simp [hp2]))
  split
  · refine (h2.fileclose hE f0).bind ?_
    rintro _ s3 ⟨e', h3, hq3, -⟩
    rw [outcome_pure]
    exact ⟨e', h3, hq2.trans hq3⟩
  rename_i f1
  obtain ⟨hfree, hr1, ht1, hothers⟩ := hsome1 f1 rfl
  have hne : f0 ≠ f1 := by
    rintro rfl
    omega
  refine Outcome.ite (fun _ => ?_) (fun _ => ?_)
  · rw [outcome_bind, outcome_modify, outcome_bind, outcome_modify, outcome_bind,
      outcome_modify, outcome_pure]
    have h3 : Mid sb e 0 ∅ { s2.setPipe s2.npipes ⟨true, true, 0⟩ with
        npipes := s2.npipes + 1 } := h2.congr rfl rfl rfl
    refine ⟨e, Mid.setPipeEnd (Mid.setPipeEnd h3 ?_ rfl ?_) ?_ rfl ?_, ?_⟩
    · change (s2.ftable f0).type = .none
      rw [hothers f0 hne]
      exact ht0
    · change (s2.ftable f0).ref ≠ 0
      rw [hothers f0 hne]
      omega
    · simp [Sys.setFile, Sys.setPipe, hne.symm, ht1]
    · simp [Sys.setFile, Sys.setPipe, hne.symm, hr1]
    · exact hq2.trans (.of_core rfl (fun _ => ⟨rfl, rfl⟩))
  · refine (h2.fileclose hE f0).bind ?_
    rintro _ s3 ⟨e', h3, hq3, -⟩
    refine (h3.fileclose hE f1).bind ?_
    rintro _ s4 ⟨e'', h4, hq4, -⟩
    rw [outcome_pure]
    exact ⟨e'', h4, (hq2.trans hq3).trans hq4⟩

theorem Mid.closeBoth (h : Mid sb e 0 ∅ s) (hE : E .fileclose) (rf wf : Nat) :
    Outcome (closeBoth rf wf) s E (fun _ t => ∃ e', Mid sb e' 0 ∅ t ∧ Quiet s t) := by
  rw [Fs.closeBoth]
  refine (h.fileclose hE rf).bind ?_
  rintro _ s1 ⟨e1, h1, hq1, -⟩
  refine (h1.fileclose hE wf).imp ?_
  rintro _ s2 ⟨e2, h2, hq2, -⟩
  exact ⟨e2, h2, hq1.trans hq2⟩

theorem Mid.sysPipe (h : Mid sb e 0 ∅ s) (hp : Procs s) (hE : E .fileclose) (p : Nat)
    (mem copied : Bool) : Outcome (sysPipe p mem copied) s E (fun _ t => Done sb s P D t) := by
  have hquiet : Outcome (Fs.sysPipe p mem copied) s E (fun _ t =>
      ∃ e', Mid sb e' 0 ∅ t ∧ Quiet s t) := by
    rw [Fs.sysPipe]
    refine (h.pipealloc hE mem).bind ?_
    rintro r s1 ⟨e1, h1, hq1⟩
    have hclose : ∀ rf wf s', Mid sb e1 0 ∅ s' → Quiet s s' →
        Outcome (Fs.closeBoth rf wf) s' E (fun _ t => ∃ e', Mid sb e' 0 ∅ t ∧ Quiet s t) := by
      intro rf wf s' h' hq'
      refine (h'.closeBoth hE rf wf).imp ?_
      rintro _ t ⟨e', ht, hq⟩
      exact ⟨e', ht, hq'.trans hq⟩
    split
    · exact ⟨e1, h1, hq1⟩
    rename_i rf wf
    refine (h1.fdalloc p rf).bind ?_
    rintro r0 s2 ⟨h2, hq2, -⟩
    have hq2 := hq1.trans hq2
    split
    · exact hclose rf wf s2 h2 hq2
    rename_i fd0
    refine (h2.fdalloc p wf).bind ?_
    rintro r1 s3 ⟨h3, hq3, -⟩
    have hq3 := hq2.trans hq3
    split
    · rw [outcome_bind, outcome_modify]
      exact hclose rf wf _ (h3.setFd p fd0 none) (hq3.trans (.setFd ..))
    · rename_i fd1
      refine Outcome.ite (fun _ => ⟨e1, h3, hq3⟩) (fun _ => ?_)
      rw [outcome_bind, outcome_modify, outcome_bind, outcome_modify]
      exact hclose rf wf _ ((h3.setFd p fd0 none).setFd p fd1 none)
        ((hq3.trans (.setFd ..)).trans (.setFd ..))
  refine hquiet.imp ?_
  rintro _ t ⟨e', ht, hq⟩
  exact hq.done hp ht

end

end Xv6.Fs
