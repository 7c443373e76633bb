import Xv6.Fs.Create
import Xv6.Fs.Files

namespace Xv6.Fs

open Function Lib

/-- The entry of the inode table that an open file points to. -/
def File.inode (file : File) : Option Nat :=
  if 0 < file.ref ∧ (file.type = .inode ∨ file.type = .device) then some file.ip else none

/-- The pointers into the inode table: current directories of processes, and open files. -/
def Sys.points (s : Sys) : Nat ⊕ Nat → Option Nat
  | .inl p => (s.procs p).cwd
  | .inr f => (s.ftable f).inode

abbrev Sys.view (s : Sys) : View := s.core.disk.view

/-- The inode number of the current directory of process p. -/
def Sys.dir (s : Sys) (p : Nat) : Option Nat :=
  (s.procs p).cwd.map (fun x => (s.core.itable x).inum)

/-- The system within a call that holds the references L and has locked K: every pointer is
counted in e, and no file is open for writing on a directory. -/
structure Mid (sb : Superblock) (e : Ext) (L : Locals) (K : Finset Nat) (s : Sys) : Prop where
  points : ∀ x, Census (· = some x) s.points (e.cnt x)
  core : Ok sb e L K s.core
  readonly : ∀ f x, (s.ftable f).inode = some x → (s.ftable f).writable = true →
    (s.view (e.num x)).type ≠ T_DIR
  closed : ∀ f, (s.ftable f).ref = 0 → (s.ftable f).type = .none

def Ext.add (e : Ext) (x i : Nat) : Ext :=
  ⟨update e.cnt x (e.cnt x + 1), update e.num x i⟩

def Ext.drop (e : Ext) (x : Nat) : Ext := ⟨update e.cnt x (e.cnt x - 1), e.num⟩

section
variable {sb : Superblock} {e : Ext} {L : Locals} {K : Finset Nat} {c : Core} {s t : Sys}
  {E : Panic → Prop}

@[simp]
theorem add_cnt_self (e : Ext) (x i : Nat) : (e.add x i).cnt x = e.cnt x + 1 :=
  update_self ..

theorem add_cnt_of_ne (e : Ext) (i : Nat) (h : y ≠ x) : (e.add x i).cnt y = e.cnt y :=
  update_of_ne h ..

@[simp]
theorem add_num_self (e : Ext) (x i : Nat) : (e.add x i).num x = i := update_self ..

theorem add_num_of_ne (e : Ext) (i : Nat) (h : y ≠ x) : (e.add x i).num y = e.num y :=
  update_of_ne h ..

@[simp]
theorem drop_cnt_self (e : Ext) (x : Nat) : (e.drop x).cnt x = e.cnt x - 1 :=
  update_self ..

theorem drop_cnt_of_ne (e : Ext) (h : y ≠ x) : (e.drop x).cnt y = e.cnt y :=
  update_of_ne h ..

/-- A reference of the call becomes one from outside. -/
theorem Ok.give (h : Ok sb e ((x, i) ::ₘ L) K c) (ht : (c.disk.view i).type ≠ 0) :
    Ok sb (e.add x i) L K c := by
  obtain ⟨hx, hnum⟩ := h.inside _ (Multiset.mem_cons_self _ _)
  dsimp only at hx hnum
  refine ⟨h.fs, ?_, ?_, fun q hq => h.inside q (Multiset.mem_cons_of_mem hq), h.dev, h.unique,
    h.clean, h.locks, h.locked⟩
  · intro y hy
    have hr := h.ref y hy
    rcases eq_or_ne y x with rfl | hyx
    · rw [count_cons_self] at hr
      rw [hr, add_cnt_self]
      omega
    · rw [count_cons_of_ne L _ hyx] at hr
      rw [hr, add_cnt_of_ne e i hyx]
  · intro y hy
    rcases eq_or_ne y x with rfl | hyx
    · rw [add_num_self, ← view_type]
      exact ⟨hx, hnum, ht⟩
    · rw [add_cnt_of_ne e i hyx] at hy
      rw [add_num_of_ne e i hyx]
      exact h.outside y hy

/-- A reference from outside becomes one of the call. -/
theorem Ok.take (h : Ok sb e L K c) (hc : 0 < e.cnt x) :
    Ok sb (e.drop x) ((x, e.num x) ::ₘ L) K c := by
  obtain ⟨hx, hnum, -⟩ := h.outside x hc
  refine ⟨h.fs, ?_, ?_, ?_, h.dev, h.unique, h.clean, h.locks, h.locked⟩
  · intro y hy
    have hr := h.ref y hy
    rcases eq_or_ne y x with rfl | hyx
    · rw [count_cons_self, hr, drop_cnt_self]
      omega
    · rw [count_cons_of_ne L _ hyx, hr, drop_cnt_of_ne e hyx]
  · intro y hy
    rcases eq_or_ne y x with rfl | hyx
    · exact h.outside y hc
    · rw [drop_cnt_of_ne e hyx] at hy
      exact h.outside y hy
  · intro q hq
    rcases Multiset.mem_cons.mp hq with rfl | hq
    · exact ⟨hx, hnum⟩
    · exact h.inside q hq

theorem Mid.cnt_pos (h : Mid sb e L K s) (hq : s.points q = some x) : 0 < e.cnt x :=
  (h.points x).pos hq

theorem Mid.holds (h : Mid sb e L K s) (hq : s.points q = some x) : e.Holds (e.num x) :=
  ⟨x, h.cnt_pos hq, rfl⟩

theorem Mid.dir_eq (h : Mid sb e L K s) (p : Nat) : s.dir p = (s.procs p).cwd.map e.num := by
  unfold Sys.dir
  cases hc : (s.procs p).cwd with
  | none => rfl
  | some x =>
    have hx : s.points (.inl p) = some x := hc
    simp only [Option.map_some]
    rw [(h.core.outside x (h.cnt_pos hx)).2.1]

theorem outcome_onCore {m : Ic α} {Q : α → Sys → Prop} :
    Outcome (onCore m) s E Q ↔ Outcome m s.core E (fun a c => Q a { s with core := c }) :=
  outcome_zoom

/-- What a call does below the file table, if it keeps the types of the inodes in use. -/
theorem Mid.lift (h : Mid sb e L K s) (hok : Ok sb e L' K' c)
    (hty : ∀ i, e.Holds i → (c.disk.view i).type = (s.view i).type) :
    Mid sb e L' K' { s with core := c } ∧ Sys.dir { s with core := c } = s.dir := by
  have hmid : Mid sb e L' K' { s with core := c } := by
    refine ⟨h.points, hok, ?_, h.closed⟩
    intro f x hf hw
    have hx : s.points (.inr f) = some x := hf
    change (c.disk.view (e.num x)).type ≠ T_DIR
    rw [hty _ (h.holds hx)]
    exact h.readonly f x hf hw
  refine ⟨hmid, ?_⟩
  funext p
  rw [hmid.dir_eq, h.dir_eq]

theorem points_setFile (f : Nat) (file : File) :
    (s.setFile f file).points = update s.points (.inr f) file.inode := by
  funext q
  cases q with
  | inl p => rfl
  | inr g =>
    rcases eq_or_ne g f with rfl | hg
    · simp [Sys.points, Sys.setFile]
    · simp [Sys.points, Sys.setFile, hg]

theorem points_setProc (p : Nat) (proc : Proc) :
    (s.setProc p proc).points = update s.points (.inl p) proc.cwd := by
  funext q
  cases q with
  | inl q =>
    rcases eq_or_ne q p with rfl | hq
    · simp [Sys.points, Sys.setProc]
    · simp [Sys.points, Sys.setProc, hq]
  | inr g => simp [Sys.points, Sys.setProc]

theorem Mid.setFile (h : Mid sb e L K s) (hi : file.inode = (s.ftable f).inode)
    (hw : file.inode ≠ none → file.writable = (s.ftable f).writable)
    (hc : file.ref = 0 → file.type = .none) : Mid sb e L K (s.setFile f file) := by
  refine ⟨?_, h.core, ?_, reclose h.closed hc⟩
  · intro x
    rw [points_setFile, hi]
    exact (h.points x).keep Iff.rfl
  · intro g x hg hwr
    rcases eq_or_ne g f with rfl | hgf
    · simp only [Sys.setFile, update_self] at hg hwr
      rw [hw (by simp [hg])] at hwr
      rw [hi] at hg
      exact h.readonly g x hg hwr
    · simp only [Sys.setFile, update_of_ne hgf] at hg hwr
      exact h.readonly g x hg hwr

theorem Mid.openFile (h : Mid sb e ((x, i) ::ₘ L) K s) (hf : (s.ftable f).inode = none)
    (hi : file.inode = some x) (ht : (s.view i).type ≠ 0)
    (hw : file.writable = true → (s.view i).type ≠ T_DIR) :
    Mid sb (e.add x i) L K (s.setFile f file) := by
  have hnum : 0 < e.cnt x → e.num x = i := by
    intro hc
    exact (h.core.outside x hc).2.1.symm.trans (h.core.inside _ (Multiset.mem_cons_self _ _)).2
  have hq : s.points (.inr f) = none := hf
  refine ⟨?_, h.core.give ht, ?_, reclose h.closed ?_⟩
  · intro y
    rw [points_setFile, hi]
    exact census_point h.points hq x y
  · intro g y hg hwr
    rcases eq_or_ne g f with rfl | hgf
    · simp only [Sys.setFile, update_self] at hg hwr
      rw [hi] at hg
      cases hg
      rw [add_num_self]
      exact hw hwr
    simp only [Sys.setFile, update_of_ne hgf] at hg hwr
    have hro := h.readonly g y hg hwr
    rcases eq_or_ne y x with rfl | hyx
    · have hy : s.points (.inr g) = some y := hg
      rw [hnum (h.cnt_pos hy)] at hro
      rw [add_num_self]
      exact hro
    · rw [add_num_of_ne e i hyx]
      exact hro
  · intro hr
    simp [File.inode, hr] at hi

theorem Mid.closeFile (h : Mid sb e L K s) (hf : (s.ftable f).inode = some x)
    (hr : file.ref = 0) (ht : file.type = .none) :
    Mid sb (e.drop x) ((x, e.num x) ::ₘ L) K (s.setFile f file) := by
  have hx : s.points (.inr f) = some x := hf
  have hnone : file.inode = none := by simp [File.inode, hr]
  refine ⟨?_, h.core.take (h.cnt_pos hx), ?_, reclose h.closed (fun _ => ht)⟩
  · intro y
    rw [points_setFile, hnone]
    exact census_unpoint h.points hx y
  · intro g y hg hwr
    rcases eq_or_ne g f with rfl | hgf
    · simp only [Sys.setFile, update_self] at hg
      rw [hnone] at hg
      cases hg
    · simp only [Sys.setFile, update_of_ne hgf] at hg hwr
      exact h.readonly g y hg hwr

theorem Mid.setProc (h : Mid sb e L K s) (hc : proc.cwd = (s.procs p).cwd) :
    Mid sb e L K (s.setProc p proc) := by
  refine ⟨?_, h.core, h.readonly, h.closed⟩
  intro x
  rw [points_setProc, hc]
  exact (h.points x).keep Iff.rfl

theorem Mid.leaveDir (h : Mid sb e L K s) (hp : (s.procs p).cwd = some x) (hc : proc.cwd = none) :
    Mid sb (e.drop x) ((x, e.num x) ::ₘ L) K (s.setProc p proc) := by
  have hx : s.points (.inl p) = some x := hp
  refine ⟨?_, h.core.take (h.cnt_pos hx), h.readonly, h.closed⟩
  intro y
  rw [points_setProc, hc]
  exact census_unpoint h.points hx y

theorem Mid.enterDir (h : Mid sb e ((x, i) ::ₘ L) K s) (hp : (s.procs p).cwd = none)
    (hc : proc.cwd = some x) (ht : (s.view i).type ≠ 0) :
    Mid sb (e.add x i) L K (s.setProc p proc) := by
  have hx : s.points (.inl p) = none := hp
  refine ⟨?_, h.core.give ht, ?_, h.closed⟩
  · intro y
    rw [points_setProc, hc]
    exact census_point h.points hx x y
  · intro g y hg hwr
    have hro := h.readonly g y hg hwr
    rcases eq_or_ne y x with rfl | hyx
    · have hy : s.points (.inr g) = some y := hg
      rw [← (h.core.outside y (h.cnt_pos hy)).2.1,
        (h.core.inside _ (Multiset.mem_cons_self _ _)).2] at hro
      rw [add_num_self]
      exact hro
    · rw [add_num_of_ne e i hyx]
      exact hro

end

end Xv6.Fs
