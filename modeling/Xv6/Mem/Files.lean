import Xv6.Mem.System

namespace Xv6.Mem

open Function

/-- Each end of a pipe that is open has its own struct file, and these files are in use. -/
structure PipesOk (files : Fin NFILE → OpenFile) (pipes : List Pipe) : Prop where
  unused : ∀ f, (files f).ref = 0 → (files f).type = .none
  opens : ∀ f pi w, (files f).type = .pipe pi w → ∃ q ∈ pipes, q.page = pi ∧ q.opens w = true
  file : ∀ q ∈ pipes, ∀ w, q.opens w = true → ∃ f, (files f).type = .pipe q.page w
  unique : ∀ f g pi w, (files f).type = .pipe pi w → (files g).type = .pipe pi w → f = g
  alive : ∀ q ∈ pipes, ∃ w, q.opens w = true

variable {files : Fin NFILE → OpenFile} {pipes : List Pipe} {f : Fin NFILE} {q : Pipe}

@[simp]
theorem Pipe.close_page (q : Pipe) (w : Bool) : (q.close w).page = q.page := by
  cases w <;> rfl

theorem Pipe.opens_close (q : Pipe) (w w' : Bool) :
    (q.close w).opens w' = (q.opens w' && w' != w) := by
  cases w <;> cases w' <;> simp [Pipe.close, Pipe.opens]

/-- pipeclose() frees the page when no end is open. -/
theorem Pipe.closed_iff (q : Pipe) :
    (q.readopen = false ∧ q.writeopen = false) ↔ ∀ w, q.opens w = false := by
  constructor
  · intro h w
    cases w
    · exact h.1
    · exact h.2
  · intro h
    exact ⟨h false, h true⟩

theorem type_of_ref (h : PipesOk files pipes) (hr : (files f).ref = 0) (pi : Addr) (w : Bool) :
    (files f).type ≠ .pipe pi w := by
  rw [h.unused f hr]
  exact FileType.noConfusion

theorem PipesOk.setOther (h : PipesOk files pipes) (hf : ∀ pi w, (files f).type ≠ .pipe pi w)
    (ho : ∀ pi w, o.type ≠ .pipe pi w) (hu : o.ref = 0 → o.type = .none) :
    PipesOk (update files f o) pipes := by
  have hpipe : ∀ g pi w, (update files f o g).type = .pipe pi w ↔
      (files g).type = .pipe pi w := by
    intro g pi w
    rcases eq_or_ne g f with rfl | hg
    · rw [update_self]
      exact ⟨fun he => absurd he (ho pi w), fun he => absurd he (hf pi w)⟩
    · rw [update_of_ne hg]
  refine ⟨fun g hg => ?_, fun g pi w hg => ?_, fun r hr w hw => ?_, fun g g' pi w hg hg' => ?_,
    h.alive⟩
  · rcases eq_or_ne g f with rfl | hne
    · rw [update_self] at hg ⊢
      exact hu hg
    · rw [update_of_ne hne] at hg ⊢
      exact h.unused g hg
  · exact h.opens g pi w ((hpipe g pi w).mp hg)
  · obtain ⟨g, hg⟩ := h.file r hr w hw
    exact ⟨g, (hpipe g r.page w).mpr hg⟩
  · exact h.unique g g' pi w ((hpipe g pi w).mp hg) ((hpipe g' pi w).mp hg')

theorem PipesOk.setRef (h : PipesOk files pipes) (hn : n ≠ 0) :
    PipesOk (update files f { files f with ref := n }) pipes := by
  have htype : ∀ g, (update files f { files f with ref := n } g).type =
      (files g).type := by
    intro g
    rcases eq_or_ne g f with rfl | hg
    · rw [update_self]
    · rw [update_of_ne hg]
  refine ⟨fun g hg => ?_, fun g pi w hg => ?_, fun r hr w hw => ?_, fun g g' pi w hg hg' => ?_,
    h.alive⟩
  · rcases eq_or_ne g f with rfl | hne
    · rw [update_self] at hg
      exact absurd hg hn
    · rw [update_of_ne hne] at hg ⊢
      exact h.unused g hg
  · exact h.opens g pi w (htype g ▸ hg)
  · obtain ⟨g, hg⟩ := h.file r hr w hw
    exact ⟨g, (htype g).trans hg⟩
  · exact h.unique g g' pi w (htype g ▸ hg) (htype g' ▸ hg')

theorem PipesOk.add (h : PipesOk files pipes) (hne : f1 ≠ f0) (h0 : (files f0).ref = 0)
    (h1 : (files f1).ref = 0) (hpi : ∀ q ∈ pipes, q.page ≠ pi) :
    PipesOk (update (update files f0 ⟨1, .pipe pi false⟩) f1 ⟨1, .pipe pi true⟩)
      (⟨pi, true, true⟩ :: pipes) := by
  have hpipe : ∀ g pi' w, (update (update files f0 ⟨1, .pipe pi false⟩) f1
      ⟨1, .pipe pi true⟩ g).type = .pipe pi' w ↔
      (pi' = pi ∧ g = (if w then f1 else f0)) ∨ (files g).type = .pipe pi' w := by
    intro g pi' w
    rcases eq_or_ne g f1 with rfl | hg1
    · have := type_of_ref h h1 pi' w
      cases w <;> simp [this, hne, eq_comm]
    · rcases eq_or_ne g f0 with rfl | hg0
      · have := type_of_ref h h0 pi' w
        cases w <;> simp [this, hne.symm, eq_comm]
      · cases w <;> simp [hg0, hg1]
  have hold : ∀ g w, (files g).type ≠ .pipe pi w := by
    intro g w hg
    obtain ⟨r, hr, hpage, -⟩ := h.opens g pi w hg
    exact hpi r hr hpage
  refine ⟨fun g hg => ?_, fun g pi' w hg => ?_, fun r hr w hw => ?_, fun g g' pi' w hg hg' => ?_,
    fun r hr => ?_⟩
  · rcases eq_or_ne g f1 with rfl | hg1
    · simp at hg
    · rcases eq_or_ne g f0 with rfl | hg0
      · simp [hg1] at hg
      · simp only [update_of_ne hg1, update_of_ne hg0] at hg ⊢
        exact h.unused g hg
  · rcases (hpipe g pi' w).mp hg with ⟨rfl, -⟩ | hg
    · exact ⟨_, List.mem_cons_self, rfl, by cases w <;> rfl⟩
    · obtain ⟨r, hr, hrest⟩ := h.opens g pi' w hg
      exact ⟨r, List.mem_cons_of_mem _ hr, hrest⟩
  · rcases List.mem_cons.mp hr with rfl | hr
    · exact ⟨_, (hpipe _ pi w).mpr (.inl ⟨rfl, rfl⟩)⟩
    · obtain ⟨g, hg⟩ := h.file r hr w hw
      exact ⟨g, (hpipe g r.page w).mpr (.inr hg)⟩
  · rcases (hpipe g pi' w).mp hg with ⟨rfl, rfl⟩ | ht
    · rcases (hpipe g' pi' w).mp hg' with ⟨-, rfl⟩ | ht'
      · rfl
      · exact absurd ht' (hold g' w)
    · rcases (hpipe g' pi' w).mp hg' with ⟨rfl, -⟩ | ht'
      · exact absurd ht (hold g w)
      · exact h.unique g g' pi' w ht ht'
  · rcases List.mem_cons.mp hr with rfl | hr
    · exact ⟨true, rfl⟩
    · exact h.alive r hr

theorem eq_of_page (hn : (pipes.map (·.page)).Nodup) (hq : q ∈ pipes) (hr : r ∈ pipes)
    (he : r.page = q.page) : r = q :=
  List.inj_on_of_nodup_map hn hr hq he

theorem mem_erase_page (hn : (pipes.map (·.page)).Nodup) (hq : q ∈ pipes) :
    r ∈ pipes.erase q ↔ r ∈ pipes ∧ r.page ≠ q.page := by
  rw [(List.Nodup.of_map _ hn).mem_erase_iff]
  constructor
  · intro h
    exact ⟨h.2, fun he => h.1 (eq_of_page hn hq h.2 he)⟩
  · intro h
    exact ⟨fun he => h.2 (he ▸ rfl), h.1⟩

/-- The last fileclose() of one end of a pipe. -/
theorem PipesOk.closeEnd (h : PipesOk files pipes) (hn : (pipes.map (·.page)).Nodup)
    (hq : q ∈ pipes) (hf : (files f).type = .pipe q.page w)
    (hl : ∀ r, r ∈ pipes' ↔ r ∈ pipes.erase q ∨ r = q.close w ∧ ∃ w', (q.close w).opens w' = true) :
    PipesOk (update files f {}) pipes' := by
  have hpipe : ∀ g pi w', (update files f {} g).type = .pipe pi w' ↔
      g ≠ f ∧ (files g).type = .pipe pi w' := by
    intro g pi w'
    rcases eq_or_ne g f with rfl | hg
    · simp
    · simp [hg]
  have hother : ∀ g w', g ≠ f → (files g).type = .pipe q.page w' → (q.close w).opens w' = true := by
    intro g w' hg ht
    obtain ⟨r, hr, hpage, hopen⟩ := h.opens g q.page w' ht
    rw [eq_of_page hn hq hr hpage] at hopen
    have hw : w' ≠ w := fun he => hg (h.unique g f q.page w (he ▸ ht) hf)
    rw [Pipe.opens_close, hopen]
    simp [hw]
  refine ⟨fun g hg => ?_, fun g pi w' hg => ?_, fun r hr w' hw' => ?_, fun g g' pi w' hg hg' => ?_,
    fun r hr => ?_⟩
  · rcases eq_or_ne g f with rfl | hne
    · rw [update_self]
    · rw [update_of_ne hne] at hg ⊢
      exact h.unused g hg
  · obtain ⟨hne, hg⟩ := (hpipe g pi w').mp hg
    obtain ⟨r, hr, rfl, hopen⟩ := h.opens g pi w' hg
    rcases eq_or_ne r.page q.page with he | he
    · have hclose := hother g w' hne (he ▸ hg)
      exact ⟨q.close w, (hl _).mpr (.inr ⟨rfl, w', hclose⟩), by simp [he], hclose⟩
    · exact ⟨r, (hl r).mpr (.inl ((mem_erase_page hn hq).mpr ⟨hr, he⟩)), rfl, hopen⟩
  · rcases (hl r).mp hr with hr | ⟨rfl, -⟩
    · obtain ⟨hr, he⟩ := (mem_erase_page hn hq).mp hr
      obtain ⟨g, hg⟩ := h.file r hr w' hw'
      refine ⟨g, (hpipe g r.page w').mpr ⟨fun hgf => ?_, hg⟩⟩
      rw [hgf, hf, FileType.pipe.injEq] at hg
      exact he hg.1.symm
    · rw [Pipe.opens_close, Bool.and_eq_true] at hw'
      obtain ⟨g, hg⟩ := h.file q hq w' hw'.1
      rw [Pipe.close_page]
      refine ⟨g, (hpipe g q.page w').mpr ⟨fun hgf => ?_, hg⟩⟩
      rw [hgf, hf, FileType.pipe.injEq] at hg
      simp [hg.2] at hw'
  · exact h.unique g g' pi w' ((hpipe g pi w').mp hg).2 ((hpipe g' pi w').mp hg').2
  · rcases (hl r).mp hr with hr | ⟨rfl, hw'⟩
    · exact h.alive r (List.mem_of_mem_erase hr)
    · exact hw'

end Xv6.Mem
