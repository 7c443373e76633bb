import Xv6.Fs.Steps

namespace Xv6.Fs

open Lib

/-- The live processes are those with a current directory. -/
def Procs (s : Sys) : Prop :=
  ∀ p, (s.procs p).cwd ≠ none ↔ p < NPROC ∧ (s.procs p).state = .used

/-- A call has returned: at most one change in P was made to the tree, and processes are in
directories they were in before, or in one of D. -/
structure Done (sb : Superblock) (s : Sys) (P : Change → Prop) (D : Nat → Prop) (t : Sys) :
    Prop where
  mid : ∃ e, Mid sb e 0 ∅ t
  procs : Procs t
  effect : Effect sb Nobody P s.view t.view
  dirs : ∀ p j, t.dir p = some j → (∃ q, s.dir q = some j) ∨ D j

section
variable {sb : Superblock} {e : Ext} {L : Locals} {K : Finset Nat} {c : Core} {s t u : Sys}
  {E : Panic → Prop} {P : Change → Prop} {D : Nat → Prop}

theorem Quiet.procsOk (h : Quiet s t) (hp : Procs s) : Procs t := by
  intro p
  rw [(h.procs p).1, (h.procs p).2]
  exact hp p

theorem Quiet.done (h : Quiet s t) (hp : Procs s) (hm : Mid sb e 0 ∅ t) : Done sb s P D t := by
  refine ⟨⟨e, hm⟩, h.procsOk hp, (.inl h.thin), ?_⟩
  intro p j hj
  rw [h.dir] at hj
  exact .inl ⟨p, hj⟩

theorem Mid.ilock (h : Mid sb e L ∅ s) (hx : s.points q = some x) :
    Outcome (Fs.onCore (ilock x)) s E (fun _ t => Mid sb e L (insert x ∅) t ∧ Quiet s t ∧
      t = { s with core := t.core }) := by
  obtain ⟨hlt, hnum, ht⟩ := h.core.outside x (h.cnt_pos hx)
  have hr : 0 < (s.core.itable x).ref := by
    have := h.cnt_pos hx
    rw [h.core.ref x hlt]
    omega
  have hlock : Outcome (Fs.ilock x) s.core E (fun _ c => Ok sb e L (insert x ∅) c ∧
      Thin e.Holds s.view c.disk.view ∧ True) := by
    refine (h.core.ilock hlt hr (fun hk => absurd hk (Finset.notMem_empty x)) ?_).imp ?_
    · intro h0
      rw [hnum] at h0
      exact absurd h0 ht
    · rintro _ c ⟨hok, hd, -⟩
      refine ⟨hok, ?_, trivial⟩
      rw [hd]
      exact .refl _ _
  refine (h.quiet (Q := fun _ _ => True) hlock).imp ?_
  rintro _ t ⟨ht, hq, -, heq⟩
  exact ⟨ht, hq, heq⟩

theorem Mid.iunlock (h : Mid sb e L (insert x ∅) s) :
    Outcome (Fs.onCore (iunlock x)) s E (fun _ t => Mid sb e L ∅ t ∧ Quiet s t ∧
      t = { s with core := t.core } ∧ t.core.disk = s.core.disk) := by
  have hunlock : Outcome (Fs.iunlock x) s.core E (fun _ c => Ok sb e L ∅ c ∧
      Thin e.Holds s.view c.disk.view ∧ c.disk = s.core.disk) := by
    refine (h.core.iunlock (Finset.mem_insert_self _ _)).imp ?_
    rintro _ c ⟨hok, hd, -⟩
    refine ⟨by simpa using hok, ?_, hd⟩
    rw [hd]
    exact .refl _ _
  refine (h.quiet (Q := fun _ c => c.disk = s.core.disk) hunlock).imp ?_
  rintro _ t ⟨ht, hq, hd, heq⟩
  exact ⟨ht, hq, heq, hd⟩

theorem Mid.content (h : Mid sb e L K s) {m : Ic α}
    (hm : Outcome m s.core E (fun _ c => Ok sb e L K c ∧ c.disk.view = s.view)) :
    Outcome (Fs.onCore m) s E (fun _ t => Mid sb e L K t ∧ Quiet s t ∧
      t = { s with core := t.core } ∧ t.view = s.view) := by
  have hm' : Outcome m s.core E (fun _ c => Ok sb e L K c ∧ Thin e.Holds s.view c.disk.view ∧
      c.disk.view = s.view) := by
    refine hm.imp ?_
    rintro _ c ⟨hok, hv⟩
    refine ⟨hok, ?_, hv⟩
    rw [hv]
    exact .refl _ _
  refine (h.quiet (Q := fun _ c => c.disk.view = s.view) hm').imp ?_
  rintro _ t ⟨ht, hq, hv, heq⟩
  exact ⟨ht, hq, heq, hv⟩

theorem Mid.advance (h : Mid sb e L K s) (f n : Nat) :
    Outcome (advance f n) s E (fun _ t => Mid sb e L K t ∧ Quiet s t ∧ t.core = s.core ∧
      (t.ftable f).inode = (s.ftable f).inode ∧ (t.ftable f).ip = (s.ftable f).ip ∧
      (t.ftable f).writable = (s.ftable f).writable) := by
  rw [Fs.advance, outcome_modify]
  refine ⟨h.setFile rfl (fun _ => rfl) (h.closed f), .setFile .., rfl, ?_, by simp [Sys.setFile],
    by simp [Sys.setFile]⟩
  simp only [Sys.setFile, Function.update_self]
  rfl

theorem Mid.fileread (h : Mid sb e 0 ∅ s) (hE : E .fileread) (hr : 0 < (s.ftable f).ref)
    (dst n : Nat) :
    Outcome (fileread sb f dst n) s E (fun _ t => Mid sb e 0 ∅ t ∧ Quiet s t) := by
  rw [Fs.fileread, outcome_bind, outcome_get]
  refine Outcome.ite (fun _ => ⟨h, .refl s⟩) (fun _ => ?_)
  split
  · exact ⟨h, .refl s⟩
  · exact ⟨h, .refl s⟩
  · exact hE
  · rename_i ht
    have hx : s.points (.inr f) = some (s.ftable f).ip := by simp [Sys.points, File.inode, hr, ht]
    refine (h.ilock hx).bind ?_
    rintro _ s1 ⟨h1, hq1, -⟩
    refine (h1.content (h1.core.readi (Finset.mem_insert_self _ _) _ _ _)).bind ?_
    rintro r s2 ⟨h2, hq2, -⟩
    refine (h2.advance f _).bind ?_
    rintro _ s3 ⟨h3, hq3, -⟩
    refine h3.iunlock.imp ?_
    rintro _ s4 ⟨h4, hq4, -⟩
    exact ⟨h4, ((hq1.trans hq2).trans hq3).trans hq4⟩

theorem Mid.filewriteLoop (h : Mid sb e 0 ∅ s) (hi : (s.ftable f).inode = some (s.ftable f).ip)
    (hw : (s.ftable f).writable = true) (n : Nat) (src : List Byte) (fuel i : Nat) :
    Outcome (filewriteLoop sb f n src fuel i) s E (fun _ t => Mid sb e 0 ∅ t ∧ Quiet s t) := by
  induction fuel generalizing s i with
  | zero => exact ⟨h, .refl s⟩
  | succ fuel ih =>
    rw [Fs.filewriteLoop]
    refine Outcome.ite (fun _ => ?_) (fun _ => ⟨h, .refl s⟩)
    have hx : s.points (.inr f) = some (s.ftable f).ip := hi
    rw [outcome_bind, outcome_get]
    refine (h.ilock hx).bind ?_
    rintro _ s1 ⟨h1, hq1, heq1⟩
    have hfile1 : s1.ftable = s.ftable := by rw [heq1]
    -- the file is open for writing, so it is no directory
    have hdir : (s1.view (s1.core.itable (s.ftable f).ip).inum).type ≠ T_DIR := by
      have hx1 : s1.points (.inr f) = some (s.ftable f).ip := by
        rw [Sys.points, hfile1]
        exact hi
      rw [(h1.core.outside _ (h1.cnt_pos hx1)).2.1]
      exact h1.readonly f _ hx1 (by rw [hfile1]; exact hw)
    refine (h1.content (h1.core.writei (Finset.mem_insert_self _ _) hdir _ _ _)).bind ?_
    rintro r s2 ⟨h2, hq2, heq2, -⟩
    refine (h2.advance f _).bind ?_
    rintro _ s3 ⟨h3, hq3, -, hi3, hip3, hw3⟩
    refine h3.iunlock.bind ?_
    rintro _ s4 ⟨h4, hq4, heq4, -⟩
    have hq := ((hq1.trans hq2).trans hq3).trans hq4
    have hfile2 : s2.ftable = s.ftable := by rw [heq2]; exact hfile1
    have hfile4 : s4.ftable = s3.ftable := by rw [heq4]
    refine Outcome.ite (fun _ => ?_) (fun _ => ⟨h4, hq⟩)
    refine (ih h4 ?_ ?_ _).imp ?_
    · rw [hfile4, hi3, hip3, hfile2]
      exact hi
    · rw [hfile4, hw3, hfile2]
      exact hw
    · rintro _ t ⟨ht, hqt⟩
      exact ⟨ht, hq.trans hqt⟩

theorem Mid.filewrite (h : Mid sb e 0 ∅ s) (hE : E .filewrite) (hr : 0 < (s.ftable f).ref)
    (src : List Byte) (n : Nat) :
    Outcome (filewrite sb f src n) s E (fun _ t => Mid sb e 0 ∅ t ∧ Quiet s t) := by
  rw [Fs.filewrite, outcome_bind, outcome_get]
  refine Outcome.ite (fun _ => ⟨h, .refl s⟩) (fun hw => ?_)
  split
  · exact ⟨h, .refl s⟩
  · exact ⟨h, .refl s⟩
  · exact hE
  · rename_i ht
    exact h.filewriteLoop (by simp [File.inode, hr, ht]) (by simpa using hw) n src n 0

end

/-- Where a path starts for process p, the inode it names, and the directory and last element. -/
def Sys.start (s : Sys) (p : Nat) (path : List Byte) : Nat :=
  if path.head? = some slash then ROOTINO else (s.dir p).getD 0

def Sys.lookup (s : Sys) (p : Nat) (path : List Byte) : Option Nat :=
  walk s.view (s.start p path) (elements path.length path)

def Sys.Parent (s : Sys) (p : Nat) (path : List Byte) (d : Nat) (name : List Byte) : Prop :=
  ∃ front, elements path.length path = front ++ [name] ∧
    walk s.view (s.start p path) front = some d

/-- The panics a call may end in; its paths reach only inodes in R. -/
structure Permits (E : Panic → Prop) (R : Nat → Prop) (e : Ext) (s : Sys) : Prop where
  lookup : Allows E e e.Holds s.view R
  root : R ROOTINO
  dirs : ∀ p j, s.dir p = some j → R j

section
variable {sb : Superblock} {e : Ext} {L : Locals} {K : Finset Nat} {c : Core} {s t u : Sys}
  {E : Panic → Prop} {P : Change → Prop} {D R : Nat → Prop}

theorem Mid.start_eq (h : Mid sb e L K s) (hc : (s.procs p).cwd = some cwd) (path : List Byte) :
    e.start cwd path = s.start p path := by
  unfold Ext.start Sys.start
  rw [h.dir_eq, hc]
  rfl

theorem Mid.lookup_eq (h : Mid sb e L K s) (hc : (s.procs p).cwd = some cwd) (path : List Byte) :
    e.lookup s.view cwd path = s.lookup p path := by
  rw [Ext.lookup, h.start_eq hc, Sys.lookup]

theorem Mid.parent (h : Mid sb e L K s) (hc : (s.procs p).cwd = some cwd)
    (hp : e.Parent s.view cwd path d name) : s.Parent p path d name := by
  obtain ⟨front, he, hw⟩ := hp
  rw [h.start_eq hc] at hw
  exact ⟨front, he, hw⟩

theorem argstr_ok (h : argstr bytes = some path) : (0 : Byte) ∉ path := by
  unfold argstr at h
  split at h
  · cases h
    intro hm
    have := List.all_eq_true.mp List.all_takeWhile _ hm
    simp at this
  · cases h

theorem withPath_outcome {m : Nat → List Byte → Sc Unit} {Q : Unit → Sys → Prop}
    (hn : Q () s)
    (hm : ∀ cwd path, (s.procs p).cwd = some cwd → argstr bytes = some path →
      Outcome (m cwd path) s E Q) : Outcome (withPath p bytes m) s E Q := by
  rw [withPath, outcome_bind, outcome_get]
  split
  · rename_i cwd path hc hp
    exact hm cwd path hc hp
  · exact hn

theorem Permits.caller (A : Permits E R e s) (h : Mid sb e L K s)
    (hc : (s.procs p).cwd = some cwd) : 0 < e.cnt cwd ∧ R (e.num cwd) := by
  have hx : s.points (.inl p) = some cwd := hc
  refine ⟨h.cnt_pos hx, A.dirs p _ ?_⟩
  rw [h.dir_eq, hc]
  rfl

theorem Mid.lift_effect (h : Mid sb e L K s) (hok : Ok sb e L' K' c)
    (heff : Effect sb e.Holds P s.view c.disk.view) :
    Mid sb e L' K' { s with core := c } ∧ Sys.dir { s with core := c } = s.dir := by
  refine h.lift hok ?_
  rintro i ⟨x, hx, rfl⟩
  refine heff.type_eq ⟨x, hx, rfl⟩ ?_
  rw [view_type]
  exact (h.core.outside x hx).2.2

theorem Done.of_effect (h : Mid sb e 0 ∅ s) (hp : Procs s) (hok : Ok sb e 0 ∅ c)
    (heff : Effect sb e.Holds P s.view c.disk.view) : Done sb s P D { s with core := c } := by
  obtain ⟨hmid, hdir⟩ := h.lift_effect hok heff
  refine ⟨⟨e, hmid⟩, hp, heff.mono (fun _ hn => hn.elim) (fun _ ha => ha), ?_⟩
  intro p j hj
  rw [hdir] at hj
  exact .inl ⟨p, hj⟩

/-- After a change in P, the rest of the call leaves the names alone. -/
theorem Done.of_quiet (heff : Effect sb Nobody P s.view t.view) (hdir : t.dir = s.dir)
    (hp : Procs t) (hq : Quiet t u) (hm : Mid sb e 0 ∅ u) : Done sb s P D u := by
  refine ⟨⟨e, hm⟩, hq.procsOk hp, heff.thin hq.thin, ?_⟩
  intro p j hj
  rw [hq.dir, hdir] at hj
  exact .inl ⟨p, hj⟩

theorem Done.mono (h : Done sb s P D t) (hP : ∀ a, P a → P' a) : Done sb s P' D t :=
  ⟨h.mid, h.procs, h.effect.mono (fun _ hn => hn) hP, h.dirs⟩

end

end Xv6.Fs
