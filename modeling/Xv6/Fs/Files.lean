import Xv6.Fs.Calls
import Xv6.Lib.Census
import Mathlib.Algebra.Group.Pi.Lemmas
import Mathlib.Data.Finset.Prod
import Mathlib.Tactic.Abel

namespace Xv6.Fs

open Function Lib

/-- What descriptor q.2 of process q.1 points to. -/
def Sys.fds (s : Sys) (q : Nat × Nat) : Option Nat := (s.procs q.1).ofile q.2

/-- The file is the write end (w) or the read end of pipe n. -/
def File.IsEnd (file : File) (n : Nat) (w : Bool) : Prop :=
  file.type = .pipe ∧ file.pipe = n ∧ file.writable = w

/-- Each side of a pipe is open as long as one file is its end; the page is freed once, with the
second side. -/
structure PipesOk (s : Sys) : Prop where
  made : ∀ f n w, (s.ftable f).IsEnd n w → n < s.npipes
  one : ∀ f g n w, (s.ftable f).IsEnd n w → (s.ftable g).IsEnd n w → f = g
  reading : ∀ n < s.npipes, (s.pipes n).readopen = true ↔ ∃ f, (s.ftable f).IsEnd n false
  writing : ∀ n < s.npipes, (s.pipes n).writeopen = true ↔ ∃ f, (s.ftable f).IsEnd n true
  freed : ∀ n < s.npipes,
    (s.pipes n).freed = (!((s.pipes n).readopen || (s.pipes n).writeopen)).toNat

/-- The count of every file is its number of descriptors and e, what the running call holds. -/
structure FilesOk (e : Nat → Int) (s : Sys) : Prop where
  counted : ∀ f, ∃ n, Census (· = some f) s.fds n ∧ ((s.ftable f).ref : Int) = n + e f
  bound : ∀ p fd f, s.fds (p, fd) = some f → p < NPROC ∧ fd < NOFILE ∧ f < NFILE
  closed : ∀ f, (s.ftable f).ref = 0 → (s.ftable f).type = .none
  idle : ∀ p, (s.procs p).state ≠ .used → ∀ fd, s.fds (p, fd) = none
  pipes : PipesOk s

section
variable {s t : Sys} {e : Nat → Int}

theorem PipesOk.congr (h : PipesOk s)
    (hf : ∀ f n w, (t.ftable f).IsEnd n w ↔ (s.ftable f).IsEnd n w)
    (hp : t.pipes = s.pipes) (hn : t.npipes = s.npipes) : PipesOk t := by
  refine ⟨?_, ?_, ?_, ?_, ?_⟩
  · intro f n w hw
    rw [hn]
    exact h.made f n w ((hf f n w).mp hw)
  · intro f g n w hw hg
    exact h.one f g n w ((hf f n w).mp hw) ((hf g n w).mp hg)
  · intro n hlt
    simp only [hp, hf]
    exact h.reading n (hn ▸ hlt)
  · intro n hlt
    simp only [hp, hf]
    exact h.writing n (hn ▸ hlt)
  · intro n hlt
    rw [hp]
    exact h.freed n (hn ▸ hlt)

@[simp]
theorem readopen_close (pi : Pipe) (w : Bool) :
    (pi.shut w).reclaim.readopen = (pi.readopen && w) := by
  cases w <;> cases h : pi.readopen <;> cases h' : pi.writeopen <;>
    simp [Pipe.shut, Pipe.reclaim, h, h']

@[simp]
theorem writeopen_close (pi : Pipe) (w : Bool) :
    (pi.shut w).reclaim.writeopen = (pi.writeopen && !w) := by
  cases w <;> cases h : pi.readopen <;> cases h' : pi.writeopen <;>
    simp [Pipe.shut, Pipe.reclaim, h, h']

/-- Closing the file of one end closes that side, and frees the page if it was the last. -/
theorem PipesOk.close (h : PipesOk s) (hf : (s.ftable f).IsEnd n w) (hfile : file.type ≠ .pipe) :
    PipesOk ((s.setFile f file).setPipe n ((s.pipes n).shut w).reclaim) := by
  have hends : ∀ g m v, ((s.setFile f file).ftable g).IsEnd m v ↔
      g ≠ f ∧ (s.ftable g).IsEnd m v := by
    intro g m v
    rcases eq_or_ne g f with rfl | hg
    · simp [Sys.setFile, File.IsEnd, hfile]
    · simp [Sys.setFile, hg]
  have hothers : ∀ m v, (m, v) ≠ (n, w) →
      ((∃ g, g ≠ f ∧ (s.ftable g).IsEnd m v) ↔ ∃ g, (s.ftable g).IsEnd m v) := by
    intro m v hne
    constructor
    · rintro ⟨g, -, hg⟩
      exact ⟨g, hg⟩
    · rintro ⟨g, hg⟩
      refine ⟨g, ?_, hg⟩
      rintro rfl
      exact hne (Prod.ext (hg.2.1.symm.trans hf.2.1) (hg.2.2.symm.trans hf.2.2))
  have hgone : ¬ ∃ g, g ≠ f ∧ (s.ftable g).IsEnd n w := by
    rintro ⟨g, hne, hg⟩
    exact hne (h.one g f n w hg hf)
  have hn := h.made f n w hf
  refine ⟨?_, ?_, ?_, ?_, ?_⟩
  · intro g m v hg
    exact h.made g m v ((hends g m v).mp hg).2
  · intro g g' m v hg hg'
    exact h.one g g' m v ((hends g m v).mp hg).2 ((hends g' m v).mp hg').2
  · intro m hm
    simp only [Sys.setPipe, hends]
    rcases eq_or_ne m n with rfl | hmn
    · rw [update_self, readopen_close]
      cases w with
      | false => simpa using hgone
      | true => simpa [hothers m false (by simp)] using h.reading m hm
    · rw [update_of_ne hmn, hothers m false (by simp [hmn])]
      exact h.reading m hm
  · intro m hm
    simp only [Sys.setPipe, hends]
    rcases eq_or_ne m n with rfl | hmn
    · rw [update_self, writeopen_close]
      cases w with
      | false => simpa [hothers m true (by simp)] using h.writing m hm
      | true => simpa using hgone
    · rw [update_of_ne hmn, hothers m true (by simp [hmn])]
      exact h.writing m hm
  · intro m hm
    simp only [Sys.setPipe]
    rcases eq_or_ne m n with rfl | hmn
    · rw [update_self]
      have hfreed := h.freed m hm
      cases w with
      | false =>
        have hr : (s.pipes m).readopen = true := (h.reading m hm).mpr ⟨f, hf⟩
        cases hw : (s.pipes m).writeopen <;> simp_all [Pipe.shut, Pipe.reclaim]
      | true =>
        have hw : (s.pipes m).writeopen = true := (h.writing m hm).mpr ⟨f, hf⟩
        cases hr : (s.pipes m).readopen <;> simp_all [Pipe.shut, Pipe.reclaim]
    · rw [update_of_ne hmn]
      exact h.freed m hm

theorem FilesOk.core (h : FilesOk e s) (c : Core) : FilesOk e { s with core := c } :=
  ⟨h.counted, h.bound, h.closed, h.idle, h.pipes.congr (fun _ _ _ => Iff.rfl) rfl rfl⟩

/-- The program ends with counts that are off by e, or in a panic. -/
abbrev Filed (e : Nat → Int) (m : Sc α) (s : Sys) : Prop :=
  Outcome m s (fun _ => True) (fun _ t => FilesOk e t)

/-- What the file system does below the file table is of no concern here. -/
theorem FilesOk.onCore (h : FilesOk e s) (m : Ic α) :
    Outcome (onCore m) s (fun _ => True) (fun _ t => FilesOk e t ∧ t.procs = s.procs) := by
  rw [Fs.onCore, outcome_zoom]
  unfold Outcome
  cases m.run s.core with
  | ok r => exact ⟨h.core _, rfl⟩
  | error _ => trivial

theorem FilesOk.below (h : FilesOk e s) (m : Ic α) : Filed e (Fs.onCore m) s :=
  (h.onCore m).imp (fun _ _ ht => ht.1)

theorem fds_congr (hp : t.procs = s.procs) : t.fds = s.fds := by
  funext q
  simp [Sys.fds, hp]

theorem fds_setFd : (s.setFd p fd v).fds = update s.fds (p, fd) v := by
  funext q
  obtain ⟨p', fd'⟩ := q
  by_cases hp : p' = p
  · subst hp
    by_cases hf : fd' = fd
    · subst hf
      simp [Sys.fds, Sys.setFd, Sys.setProc]
    · have hne : ((p', fd') : Nat × Nat) ≠ (p', fd) := by simp [hf]
      simp [Sys.fds, Sys.setFd, Sys.setProc, hf]
  · have hne : ((p', fd') : Nat × Nat) ≠ (p, fd) := by simp [hp]
    simp [Sys.fds, Sys.setFd, Sys.setProc, hp]

theorem state_setFd : ((s.setFd p fd v).procs q).state = (s.procs q).state := by
  by_cases hq : q = p
  · subst hq
    simp [Sys.setFd, Sys.setProc]
  · simp [Sys.setFd, Sys.setProc, hq]

/-- A reference the call holds goes into a free descriptor. -/
theorem FilesOk.hand (h : FilesOk e s) (hp : p < NPROC) (hu : (s.procs p).state = .used)
    (hfd : fd < NOFILE) (hn : s.fds (p, fd) = none) (hf : f < NFILE) :
    FilesOk (e - Pi.single f 1) (s.setFd p fd (some f)) := by
  refine ⟨?_, ?_, h.closed, ?_, h.pipes.congr (fun _ _ _ => Iff.rfl) rfl rfl⟩
  · intro g
    obtain ⟨n, hc, hr⟩ := h.counted g
    rw [fds_setFd]
    rcases eq_or_ne g f with rfl | hg
    · refine ⟨n + 1, hc.enter (by simp [hn]) rfl, ?_⟩
      change ((s.ftable g).ref : Int) = _
      rw [hr]
      simp only [Pi.sub_apply, Pi.single_eq_same, Nat.cast_add, Nat.cast_one]
      omega
    · refine ⟨n, hc.keep ?_, ?_⟩
      · simp [hn, Ne.symm hg]
      · change ((s.ftable g).ref : Int) = _
        simp [hr, Pi.single_eq_of_ne hg]
  · intro q d g hq
    rw [fds_setFd] at hq
    by_cases he : ((q, d) : Nat × Nat) = (p, fd)
    · cases he
      rw [update_self] at hq
      cases hq
      exact ⟨hp, hfd, hf⟩
    · rw [update_of_ne he] at hq
      exact h.bound q d g hq
  · intro q hq d
    rw [state_setFd] at hq
    rw [fds_setFd, update_of_ne ?_]
    · exact h.idle q hq d
    · intro he
      cases he
      exact hq hu

/-- The call takes the reference out of a descriptor. -/
theorem FilesOk.take (h : FilesOk e s) (hn : s.fds (p, fd) = some f) :
    FilesOk (e + Pi.single f 1) (s.setFd p fd none) := by
  refine ⟨?_, ?_, h.closed, ?_, h.pipes.congr (fun _ _ _ => Iff.rfl) rfl rfl⟩
  · intro g
    obtain ⟨n, hc, hr⟩ := h.counted g
    rw [fds_setFd]
    rcases eq_or_ne g f with rfl | hg
    · have hl : 0 < n ∧ Census (· = some g) (update s.fds (p, fd) none) (n - 1) :=
        hc.leave hn (by simp)
      refine ⟨n - 1, hl.2, ?_⟩
      change ((s.ftable g).ref : Int) = _
      rw [hr]
      simp only [Pi.add_apply, Pi.single_eq_same]
      omega
    · refine ⟨n, hc.keep ?_, ?_⟩
      · simp [hn, Ne.symm hg]
      · change ((s.ftable g).ref : Int) = _
        simp [hr, Pi.single_eq_of_ne hg]
  · intro q d g hq
    rw [fds_setFd] at hq
    by_cases he : ((q, d) : Nat × Nat) = (p, fd)
    · cases he
      simp at hq
    · rw [update_of_ne he] at hq
      exact h.bound q d g hq
  · intro q hq d
    rw [state_setFd] at hq
    rw [fds_setFd]
    by_cases he : ((q, d) : Nat × Nat) = (p, fd)
    · cases he
      simp
    · rw [update_of_ne he]
      exact h.idle q hq d

theorem FilesOk.recount (h : FilesOk e s) (hd : (file.ref : Int) = (s.ftable f).ref + d) :
    ∀ g, ∃ n, Census (· = some g) (s.setFile f file).fds n ∧
      (((s.setFile f file).ftable g).ref : Int) = n + (e + (Pi.single f d : Nat → Int)) g := by
  intro g
  obtain ⟨n, hc, hr⟩ := h.counted g
  refine ⟨n, hc, ?_⟩
  rcases eq_or_ne g f with rfl | hg
  · simp only [Sys.setFile, update_self, Pi.add_apply, Pi.single_eq_same]
    omega
  · simp [Sys.setFile, hg, hr]

theorem reclose (h : ∀ g, (s.ftable g).ref = 0 → (s.ftable g).type = .none)
    (hc : file.ref = 0 → file.type = .none) :
    ∀ g, ((s.setFile f file).ftable g).ref = 0 → ((s.setFile f file).ftable g).type = .none := by
  intro g hg
  rcases eq_or_ne g f with rfl | hne
  · simp only [Sys.setFile, update_self] at hg ⊢
    exact hc hg
  · simp only [Sys.setFile, update_of_ne hne] at hg ⊢
    exact h g hg

theorem FilesOk.setFile (h : FilesOk e s) (hd : (file.ref : Int) = (s.ftable f).ref + d)
    (hc : file.ref = 0 → file.type = .none)
    (he : ∀ n w, file.IsEnd n w ↔ (s.ftable f).IsEnd n w) :
    FilesOk (e + Pi.single f d) (s.setFile f file) := by
  refine ⟨h.recount hd, h.bound, reclose h.closed hc, h.idle, h.pipes.congr ?_ rfl rfl⟩
  intro g n w
  rcases eq_or_ne g f with rfl | hg
  · simp [Sys.setFile, he]
  · simp [Sys.setFile, hg]

theorem FilesOk.filealloc (h : FilesOk e s) :
    Outcome filealloc s (fun _ => True) (fun r t => t.procs = s.procs ∧
      (r = none → FilesOk e t) ∧
      ∀ f, r = some f → f < NFILE ∧ (s.ftable f).ref = 0 ∧ (t.ftable f).type = .none ∧
        (∀ g, g ≠ f → t.ftable g = s.ftable g) ∧ FilesOk (e + Pi.single f 1) t) := by
  rw [Fs.filealloc, outcome_bind, outcome_get]
  split
  · rename_i f hf
    have hr : (s.ftable f).ref = 0 := by simpa using List.find?_some hf
    have hlt : f < NFILE := List.mem_range.mp (List.mem_of_find?_eq_some hf)
    have hnone := h.closed f hr
    rw [outcome_bind, outcome_set, outcome_pure]
    refine ⟨rfl, by simp, ?_⟩
    rintro g ⟨⟩
    refine ⟨hlt, hr, by simpa [Sys.setFile] using hnone, ?_, ?_⟩
    · intro g hg
      simp [Sys.setFile, hg]
    · exact h.setFile (by simp [hr]) (by simp) (fun _ _ => Iff.rfl)
  · exact ⟨rfl, fun _ => h, by simp⟩

theorem FilesOk.filedup (h : FilesOk e s) (f : Nat) :
    Outcome (filedup f) s (fun _ => True) (fun _ t =>
      t.procs = s.procs ∧ FilesOk (e + Pi.single f 1) t) := by
  rw [Fs.filedup, outcome_bind, outcome_get]
  refine Outcome.ite (fun _ => trivial) (fun _ => ?_)
  rw [outcome_set]
  refine ⟨rfl, h.setFile (by simp) (by simp) ?_⟩
  exact fun _ _ => Iff.rfl

theorem FilesOk.fdalloc (h : FilesOk e s) (hp : p < NPROC) (hu : (s.procs p).state = .used)
    (hf : f < NFILE) :
    Outcome (fdalloc p f) s (fun _ => True) (fun r t =>
      (r = none → t = s) ∧
      ∀ fd, r = some fd → FilesOk (e - Pi.single f 1) t ∧ fd < NOFILE ∧
        s.fds (p, fd) = none ∧ t = s.setFd p fd (some f)) := by
  rw [Fs.fdalloc, outcome_bind, outcome_get]
  split
  · rename_i fd hfd
    have hn : s.fds (p, fd) = none := by simpa [Sys.fds] using List.find?_some hfd
    have hlt : fd < NOFILE := List.mem_range.mp (List.mem_of_find?_eq_some hfd)
    rw [outcome_bind, outcome_set, outcome_pure]
    refine ⟨by simp, ?_⟩
    rintro d ⟨⟩
    exact ⟨h.hand hp hu hlt hn hf, hlt, hn, rfl⟩
  · exact ⟨fun _ => rfl, by simp⟩

theorem sub_single : e - Pi.single f 1 = e + Pi.single f (-1) := by
  rw [Pi.single_neg, sub_eq_add_neg]

/-- The last reference to a file goes, and then what it was about. -/
theorem FilesOk.drop (h : FilesOk e s) (hr : (s.ftable f).ref = 1) :
    Outcome (release (s.ftable f)) (s.setFile f { s.ftable f with ref := 0, type := .none })
      (fun _ => True) (fun _ t => t.procs = s.procs ∧ FilesOk (e - Pi.single f 1) t) := by
  have hd : ((0 : Nat) : Int) = (s.ftable f).ref + (-1) := by simp [hr]
  rw [sub_single]
  have hother : (s.ftable f).type ≠ .pipe →
      FilesOk (e + Pi.single f (-1)) (s.setFile f { s.ftable f with ref := 0, type := .none }) := by
    intro ht
    refine h.setFile hd (fun _ => rfl) ?_
    intro n w
    simp [File.IsEnd, ht]
  unfold release
  split
  · rename_i ht
    rw [pipeclose, outcome_modify]
    refine ⟨rfl, h.recount hd, h.bound, reclose h.closed (fun _ => rfl), h.idle, ?_⟩
    exact h.pipes.close ⟨ht, rfl, rfl⟩ (by simp)
  · rename_i ht
    exact ((hother (by simp [ht])).onCore _).imp (fun _ _ ht => ⟨ht.2, ht.1⟩)
  · rename_i ht
    exact ((hother (by simp [ht])).onCore _).imp (fun _ _ ht => ⟨ht.2, ht.1⟩)
  · rename_i ht
    exact ⟨rfl, hother (by simp [ht])⟩

theorem FilesOk.fileclose (h : FilesOk e s) (f : Nat) :
    Outcome (fileclose f) s (fun _ => True) (fun _ t =>
      t.procs = s.procs ∧ FilesOk (e - Pi.single f 1) t) := by
  rw [Fs.fileclose, outcome_bind, outcome_get]
  refine Outcome.ite (fun _ => trivial) (fun hpos => Outcome.ite (fun hgt => ?_) (fun hle => ?_))
  · rw [outcome_set]
    refine ⟨rfl, ?_⟩
    rw [sub_single]
    refine h.setFile ?_ ?_ (fun _ _ => Iff.rfl)
    · change (((s.ftable f).ref - 1 : Nat) : Int) = _
      omega
    · intro hz
      have : (s.ftable f).ref - 1 = 0 := hz
      omega
  · rw [outcome_bind, outcome_set]
    exact h.drop (by omega)

theorem FilesOk.argfd (h : FilesOk e s) (p : Nat) (fd : Int) :
    Outcome (argfd p fd) s (fun _ => True) (fun r t => t = s ∧
      ∀ d f, r = some (d, f) → s.fds (p, d) = some f ∧ f < NFILE) := by
  rw [Fs.argfd, outcome_bind, outcome_get]
  refine Outcome.ite (fun _ => ?_) (fun _ => ⟨rfl, by simp⟩)
  rw [outcome_pure]
  refine ⟨rfl, ?_⟩
  intro d f hr
  obtain ⟨g, hg, he⟩ := Option.map_eq_some_iff.mp hr
  cases he
  exact ⟨hg, (h.bound p _ _ hg).2.2⟩

theorem FilesOk.advance (h : FilesOk e s) (f n : Nat) :
    Filed e (advance f n) s := by
  rw [Filed, Fs.advance, outcome_modify]
  have hf : FilesOk (e + Pi.single f 0)
      (s.setFile f { s.ftable f with off := ((s.ftable f).off + n) % 4294967296 }) :=
    h.setFile (by simp) (h.closed f) (fun _ _ => Iff.rfl)
  rwa [Pi.single_zero, add_zero] at hf

theorem FilesOk.fileread (h : FilesOk e s) (sb : Superblock) (f dst n : Nat) :
    Filed e (fileread sb f dst n) s := by
  rw [Filed, Fs.fileread, outcome_bind, outcome_get]
  refine Outcome.ite (fun _ => h) (fun _ => ?_)
  split
  · exact h
  · exact h
  · trivial
  · refine (h.below _).bind (fun _ s1 h1 => ?_)
    refine (h1.below _).bind (fun r s2 h2 => ?_)
    refine (h2.advance f _).bind (fun _ s3 h3 => ?_)
    exact h3.below _

theorem FilesOk.filewriteLoop (h : FilesOk e s) (sb : Superblock) (f n : Nat) (src : List Byte)
    (fuel i : Nat) : Filed e (filewriteLoop sb f n src fuel i) s := by
  induction fuel generalizing s i with
  | zero => exact h
  | succ fuel ih =>
    rw [Filed, Fs.filewriteLoop]
    refine Outcome.ite (fun _ => ?_) (fun _ => h)
    rw [outcome_bind, outcome_get]
    refine (h.below _).bind (fun _ s1 h1 => ?_)
    refine (h1.below _).bind (fun r s2 h2 => ?_)
    refine (h2.advance f _).bind (fun _ s3 h3 => ?_)
    refine (h3.below _).bind (fun _ s4 h4 => ?_)
    exact Outcome.ite (fun _ => ih h4 _) (fun _ => h4)

theorem FilesOk.filewrite (h : FilesOk e s) (sb : Superblock) (f : Nat) (src : List Byte)
    (n : Nat) : Filed e (filewrite sb f src n) s := by
  rw [Filed, Fs.filewrite, outcome_bind, outcome_get]
  refine Outcome.ite (fun _ => h) (fun _ => ?_)
  split
  · exact h
  · exact h
  · trivial
  · exact h.filewriteLoop sb f n src n 0

theorem FilesOk.newFd (h : FilesOk 0 s) (hp : p < NPROC) (hu : (s.procs p).state = .used) :
    Outcome (newFd p) s (fun _ => True) (fun r t => FilesOk 0 t ∧
      ∀ f, r = some f → (t.ftable f).type = .none ∧ 0 < (t.ftable f).ref) := by
  rw [Fs.newFd]
  refine h.filealloc.bind ?_
  rintro r s1 ⟨hp1, hnone, hsome⟩
  split
  · exact ⟨hnone rfl, by simp⟩
  rename_i f
  obtain ⟨hlt, -, htype, -, h1⟩ := hsome f rfl
  have hu1 : (s1.procs p).state = .used := by rw [hp1]; exact hu
  refine (h1.fdalloc hp hu1 hlt).bind ?_
  rintro r' s2 ⟨hnone', hsome'⟩
  split
  · rw [hnone' rfl]
    refine (h1.fileclose f).bind ?_
    rintro _ s3 ⟨-, h3⟩
    rw [add_sub_cancel_right] at h3
    exact ⟨h3, by simp⟩
  rename_i fd
  obtain ⟨h2, -, -, rfl⟩ := hsome' fd rfl
  rw [add_sub_cancel_right] at h2
  refine ⟨h2, ?_⟩
  rintro g ⟨⟩
  obtain ⟨n, hc, hr⟩ := h1.counted f
  refine ⟨htype, ?_⟩
  change 0 < (s1.ftable f).ref
  simp only [Pi.add_apply, Pi.zero_apply, Pi.single_eq_same] at hr
  omega

theorem FilesOk.openFile (h : FilesOk 0 s) (ht : (s.ftable f).type = .none)
    (hr : 0 < (s.ftable f).ref) (x : Nat) (ip : Dinode) (omode : BitVec 32) :
    FilesOk 0 (s.setFile f (openFile (s.ftable f) x ip omode)) := by
  have hf : FilesOk (0 + Pi.single f 0) (s.setFile f (Fs.openFile (s.ftable f) x ip omode)) := by
    refine h.setFile (by simp [Fs.openFile]) ?_ ?_
    · intro hz
      have : (s.ftable f).ref = 0 := hz
      omega
    · intro n w
      have hne : (Fs.openFile (s.ftable f) x ip omode).type ≠ .pipe := by
        unfold Fs.openFile
        by_cases hd : ip.type = T_DEVICE <;> simp [hd]
      simp [File.IsEnd, ht, hne]
  rwa [Pi.single_zero, add_zero] at hf

theorem FilesOk.setProc (h : FilesOk e s) (ho : proc.ofile = (s.procs p).ofile)
    (hi : proc.state ≠ .used → ∀ fd, s.fds (p, fd) = none) : FilesOk e (s.setProc p proc) := by
  have hfds : (s.setProc p proc).fds = s.fds := by
    funext q
    by_cases hq : q.1 = p
    · subst hq
      simp [Sys.fds, Sys.setProc, ho]
    · simp [Sys.fds, Sys.setProc, hq]
  refine ⟨?_, ?_, h.closed, ?_, h.pipes.congr (fun _ _ _ => Iff.rfl) rfl rfl⟩
  · rw [hfds]
    exact h.counted
  · rw [hfds]
    exact h.bound
  · intro q hq fd
    rw [hfds]
    rcases eq_or_ne q p with rfl | hqp
    · simp only [Sys.setProc, update_self] at hq
      exact hi hq fd
    · simp only [Sys.setProc, update_of_ne hqp] at hq
      exact h.idle q hq fd

theorem FilesOk.closeFd (h : FilesOk 0 s) (p fd : Nat) :
    Outcome (closeFd p fd) s (fun _ => True) (fun _ t => FilesOk 0 t ∧
      t.fds = update s.fds (p, fd) none ∧ ∀ q, (t.procs q).state = (s.procs q).state) := by
  rw [Fs.closeFd, outcome_bind, outcome_get]
  split
  · rename_i hn
    refine ⟨h, ?_, fun _ => rfl⟩
    rw [eq_update_self_iff]
    exact hn
  rename_i f hf
  refine (h.fileclose f).bind ?_
  rintro _ t ⟨hp, ht⟩
  have hfds := fds_congr hp
  rw [outcome_modify, fds_setFd, hfds]
  refine ⟨?_, rfl, ?_⟩
  · have hs : t.fds (p, fd) = some f := by rw [hfds]; exact hf
    have h2 := ht.take hs
    rwa [sub_add_cancel] at h2
  · intro q
    rw [state_setFd, hp]

/-- After the loop of exit no descriptor is left. -/
theorem FilesOk.closeAll (h : FilesOk 0 s) (p : Nat) :
    Outcome ((List.range NOFILE).forM (Fs.closeFd p)) s (fun _ => True) (fun _ t =>
      FilesOk 0 t ∧ (∀ fd, t.fds (p, fd) = none) ∧ ∀ q, (t.procs q).state = (s.procs q).state) := by
  refine (Outcome.forM (fun fds t => FilesOk 0 t ∧ (∀ fd f, t.fds (p, fd) = some f → fd ∈ fds) ∧
    ∀ q, (t.procs q).state = (s.procs q).state) ?_ ⟨h, ?_, fun _ => rfl⟩).imp ?_
  · rintro fd fds t ⟨ht, hin, hst⟩
    refine (ht.closeFd p fd).imp ?_
    rintro _ u ⟨hu, hfds, hst'⟩
    refine ⟨hu, ?_, fun q => (hst' q).trans (hst q)⟩
    intro d f hd
    rw [hfds] at hd
    by_cases he : ((p, d) : Nat × Nat) = (p, fd)
    · cases he
      simp at hd
    · rw [update_of_ne he] at hd
      rcases List.mem_cons.mp (hin d f hd) with rfl | hm
      · exact absurd rfl he
      · exact hm
  · intro fd f hf
    exact List.mem_range.mpr (h.bound p fd f hf).2.1
  · rintro _ t ⟨ht, hin, hst⟩
    refine ⟨ht, ?_, hst⟩
    intro fd
    cases hf : t.fds (p, fd) with
    | none => rfl
    | some f => exact absurd (hin fd f hf) (by simp)

theorem PipesOk.make (h : PipesOk s) (f0 f1 : Nat) (hn : t.npipes = s.npipes + 1)
    (hp : t.pipes = update s.pipes s.npipes ⟨true, true, 0⟩)
    (hf : ∀ g m v, (t.ftable g).IsEnd m v ↔
      (s.ftable g).IsEnd m v ∨ m = s.npipes ∧ g = bif v then f1 else f0) : PipesOk t := by
  have hold : ∀ m v, m < s.npipes →
      ((∃ g, (t.ftable g).IsEnd m v) ↔ ∃ g, (s.ftable g).IsEnd m v) := by
    intro m v hm
    simp [hf, Nat.ne_of_lt hm]
  have hnew : ∀ v, ∃ g, (t.ftable g).IsEnd s.npipes v := by
    intro v
    exact ⟨bif v then f1 else f0, (hf _ _ _).mpr (.inr ⟨rfl, rfl⟩)⟩
  have hlast : ∀ m < t.npipes, m ≠ s.npipes → m < s.npipes := by
    intro m hm hne
    omega
  refine ⟨?_, ?_, ?_, ?_, ?_⟩
  · intro g m v hg
    rcases (hf g m v).mp hg with hg | ⟨rfl, -⟩
    · have := h.made g m v hg
      omega
    · omega
  · intro g g' m v hg hg'
    rcases (hf g m v).mp hg with hg | ⟨rfl, rfl⟩
    · have hm := h.made g m v hg
      rcases (hf g' m v).mp hg' with hg' | ⟨rfl, -⟩
      · exact h.one g g' m v hg hg'
      · omega
    · rcases (hf g' _ v).mp hg' with hg' | ⟨-, rfl⟩
      · have := h.made g' _ v hg'
        omega
      · rfl
  · intro m hm
    rcases eq_or_ne m s.npipes with rfl | hne
    · simp [hp, hnew]
    · rw [hp, update_of_ne hne, hold m false (hlast m hm hne)]
      exact h.reading m (hlast m hm hne)
  · intro m hm
    rcases eq_or_ne m s.npipes with rfl | hne
    · simp [hp, hnew]
    · rw [hp, update_of_ne hne, hold m true (hlast m hm hne)]
      exact h.writing m (hlast m hm hne)
  · intro m hm
    rcases eq_or_ne m s.npipes with rfl | hne
    · simp [hp]
    · rw [hp, update_of_ne hne]
      exact h.freed m (hlast m hm hne)

theorem FilesOk.ref_pos (h : FilesOk e s) (he : 0 < e f) : 0 < (s.ftable f).ref := by
  obtain ⟨n, -, hr⟩ := h.counted f
  omega

theorem FilesOk.makePipe (h : FilesOk e s) (hne : f0 ≠ f1) (h0 : 0 < (s.ftable f0).ref)
    (h1 : 0 < (s.ftable f1).ref) (ht0 : (s.ftable f0).type = .none)
    (ht1 : (s.ftable f1).type = .none) (hp : t.procs = s.procs) (hn : t.npipes = s.npipes + 1)
    (hpi : t.pipes = update s.pipes s.npipes ⟨true, true, 0⟩)
    (hf0 : t.ftable f0 = { s.ftable f0 with
      type := .pipe, readable := true, writable := false, pipe := s.npipes })
    (hf1 : t.ftable f1 = { s.ftable f1 with
      type := .pipe, readable := false, writable := true, pipe := s.npipes })
    (hf : ∀ g, g ≠ f0 → g ≠ f1 → t.ftable g = s.ftable g) : FilesOk e t := by
  have hfds := fds_congr hp
  have href : ∀ g, (t.ftable g).ref = (s.ftable g).ref := by
    intro g
    rcases eq_or_ne g f0 with rfl | hg0
    · simp [hf0]
    · rcases eq_or_ne g f1 with rfl | hg1
      · simp [hf1]
      · rw [hf g hg0 hg1]
  refine ⟨?_, ?_, ?_, ?_, h.pipes.make f0 f1 hn hpi ?_⟩
  · intro g
    rw [hfds, href]
    exact h.counted g
  · rw [hfds]
    exact h.bound
  · intro g hg
    rw [href] at hg
    have hg0 : g ≠ f0 := by
      rintro rfl
      omega
    have hg1 : g ≠ f1 := by
      rintro rfl
      omega
    rw [hf g hg0 hg1]
    exact h.closed g hg
  · rw [hp, hfds]
    exact h.idle
  · intro g m v
    rcases eq_or_ne g f0 with rfl | hg0
    · cases v with
      | false => simpa [File.IsEnd, hf0, ht0] using eq_comm
      | true => simp [File.IsEnd, hf0, ht0, hne]
    · rcases eq_or_ne g f1 with rfl | hg1
      · cases v with
        | false => simp [File.IsEnd, hf1, ht1, hg0]
        | true => simpa [File.IsEnd, hf1, ht1] using eq_comm
      · rw [hf g hg0 hg1]
        cases v <;> simp [hg0, hg1]

theorem FilesOk.pipealloc (h : FilesOk 0 s) (mem : Bool) :
    Outcome (pipealloc mem) s (fun _ => True) (fun r t => t.procs = s.procs ∧
      (r = none → FilesOk 0 t) ∧ ∀ f0 f1, r = some (f0, f1) →
        f0 < NFILE ∧ f1 < NFILE ∧ FilesOk (Pi.single f0 1 + Pi.single f1 1) t) := by
  rw [Fs.pipealloc]
  refine h.filealloc.bind ?_
  rintro r s1 ⟨hp1, hnone, hsome⟩
  split
  · exact ⟨hp1, fun _ => hnone rfl, by simp⟩
  rename_i f0
  obtain ⟨hlt0, -, ht0, -, h1⟩ := hsome f0 rfl
  rw [zero_add] at h1
  refine h1.filealloc.bind ?_
  rintro r' s2 ⟨hp2, hnone', hsome'⟩
  split
  · refine ((hnone' rfl).fileclose f0).bind ?_
    rintro _ s3 ⟨hp3, h3⟩
    rw [sub_self] at h3
    exact ⟨(hp3.trans hp2).trans hp1, fun _ => h3, by simp⟩
  rename_i f1
  obtain ⟨hlt1, hr1, ht1, hsame, h2⟩ := hsome' f1 rfl
  have hne : f0 ≠ f1 := by
    rintro rfl
    have := h1.ref_pos (f := f0) (by simp)
    omega
  refine Outcome.ite (fun _ => ?_) (fun _ => ?_)
  · simp only [outcome_bind, outcome_modify, outcome_pure]
    refine ⟨hp2.trans hp1, by simp, ?_⟩
    intro g0 g1 hg
    simp only [Option.some.injEq, Prod.mk.injEq] at hg
    obtain ⟨rfl, rfl⟩ := hg
    refine ⟨hlt0, hlt1,
      h2.makePipe hne (h2.ref_pos ?_) (h2.ref_pos ?_) ?_ ht1 ?_ ?_ ?_ ?_ ?_ ?_⟩
    · simp [hne]
    · simp [hne.symm]
    · rw [hsame f0 hne]
      exact ht0
    · rfl
    · rfl
    · rfl
    · simp [Sys.setFile, Sys.setPipe, hne]
    · simp [Sys.setFile, Sys.setPipe, hne.symm]
    · intro g hg0 hg1
      simp [Sys.setFile, Sys.setPipe, hg0, hg1]
  · refine (h2.fileclose f0).bind ?_
    rintro _ s3 ⟨hp3, h3⟩
    rw [add_sub_cancel_left] at h3
    refine (h3.fileclose f1).bind ?_
    rintro _ s4 ⟨hp4, h4⟩
    rw [sub_self] at h4
    exact ⟨((hp4.trans hp3).trans hp2).trans hp1, fun _ => h4, by simp⟩

theorem FilesOk.closeBoth (h : FilesOk (Pi.single rf 1 + Pi.single wf 1) s) :
    Filed 0 (closeBoth rf wf) s := by
  rw [Fs.closeBoth]
  refine (h.fileclose rf).bind ?_
  rintro _ t ⟨-, ht⟩
  rw [add_sub_cancel_left] at ht
  refine (ht.fileclose wf).imp ?_
  rintro _ u ⟨-, hu⟩
  rwa [sub_self] at hu

theorem FilesOk.ref_of_fd (h : FilesOk 0 s) (hf : s.fds q = some f) : 0 < (s.ftable f).ref := by
  obtain ⟨n, ⟨F, hF, rfl⟩, hr⟩ := h.counted f
  have hpos : 0 < F.card := Finset.card_pos.mpr ⟨q, (hF q).mpr hf⟩
  simp only [Pi.zero_apply] at hr
  omega

/-- One turn of the loop of fork: the child gets the descriptor, the file a reference. -/
theorem FilesOk.dupFd_ends (h : FilesOk 0 s) (hnp : np < NPROC) (hu : (s.procs np).state = .used)
    (hn : s.fds (np, fd) = none) :
    Ends (Fs.dupFd p np fd) s (fun _ t => FilesOk 0 t ∧
      t.fds = update s.fds (np, fd) (s.fds (p, fd)) ∧
      (∀ q, (t.procs q).state = (s.procs q).state) ∧ ∀ q, (t.procs q).cwd = (s.procs q).cwd) := by
  rw [Fs.dupFd, ends_bind, ends_get]
  cases hf : (s.procs p).ofile fd with
  | none =>
    have hp : s.fds (p, fd) = none := hf
    refine ends_pure.mpr ⟨h, ?_, fun _ => rfl, fun _ => rfl⟩
    rw [hp, ← hn, update_eq_self]
  | some f =>
    have hp : s.fds (p, fd) = some f := hf
    obtain ⟨-, hfd, hlt⟩ := h.bound p fd f hf
    have hpos : ¬ (s.ftable f).ref < 1 := Nat.not_lt.mpr (h.ref_of_fd hp)
    have h1 : FilesOk (0 + Pi.single f 1)
        (s.setFile f { s.ftable f with ref := (s.ftable f).ref + 1 }) :=
      h.setFile (by simp) (by simp) (fun _ _ => Iff.rfl)
    have h2 := h1.hand hnp hu hfd hn hlt
    rw [add_sub_cancel_right] at h2
    simp only [Fs.filedup, ends_bind, ends_get, if_neg hpos, ends_set, ends_modify]
    refine ⟨h2, ?_, fun q => state_setFd .., fun q => ?_⟩
    · rw [fds_setFd, hp]
      rfl
    · rcases eq_or_ne q np with rfl | hq
      · simp [Sys.setFd, Sys.setProc, Sys.setFile]
      · simp [Sys.setFd, Sys.setProc, Sys.setFile, hq]

end

end Xv6.Fs
