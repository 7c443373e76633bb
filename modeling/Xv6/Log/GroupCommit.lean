import Xv6.Lib.Census
import Xv6.Log.Protocol

namespace Xv6.Log
open Function Lib

def InOp : Pc → Prop
  | .inOp _ _ => True
  | _ => False

/-- In end_op between setting log.committing and clearing it. -/
def Committer : Pc → Prop
  | .committing | .committed => True
  | _ => False

@[simp] theorem wakeup_inOp (pc : Nat → Pc) (q : Nat) : InOp (wakeup pc q) ↔ InOp (pc q) := by
  unfold wakeup
  split
  · rename_i h
    simp [h, InOp]
  · rfl

@[simp] theorem wakeup_committer (pc : Nat → Pc) (q : Nat) :
    Committer (wakeup pc q) ↔ Committer (pc q) := by
  unfold wakeup
  split
  · rename_i h
    simp [h, Committer]
  · rfl

@[simp] theorem wakeup_not_asleep (pc : Nat → Pc) (q : Nat) : wakeup pc q ≠ .asleep := by
  unfold wakeup
  split
  · simp
  · assumption

theorem wakeup_eq_inOp (h : wakeup pc q = .inOp e bs) : pc q = .inOp e bs := by
  unfold wakeup at h
  split at h
  · simp at h
  · exact h

/-- log.outstanding counts the processes between begin_op and end_op. -/
def Counted (s : Sys) : Prop := ∃ n : Nat, Census InOp s.pc n ∧ s.log.outstanding = n

theorem counted_step (h : Counted s) (hm : Moves s a t) : Counted t := by
  obtain ⟨n, hn, ho⟩ := h
  cases hm with
  | began p hpc hfree hroom =>
    refine ⟨n + 1, hn.enter ?_ trivial, by simp [Sys.goto, ho]⟩
    rcases hpc with h | h <;> simp [h, InOp]
  | slept p hpc hwait =>
    refine ⟨n, hn.keep ?_, ho⟩
    rcases hpc with h | h <;> simp [h, InOp]
  | logged p b e bs hpc hcap => exact ⟨n, hn.keep (by simp [hpc, InOp]), ho⟩
  | tooBig p b e bs hpc hcap => exact ⟨n, hn, ho⟩
  | outside p b e bs hpc hcap hout => exact ⟨n, hn, ho⟩
  | last p e bs hpc hfree hone =>
    obtain ⟨hpos, hl⟩ := hn.leave (c := Pc.committing) (by simp [hpc, InOp] : InOp (s.pc p)) id
    refine ⟨n - 1, hl, ?_⟩
    simp only [Sys.goto]
    omega
  | ended p e bs hpc hfree hmore =>
    obtain ⟨hpos, hl⟩ := hn.leave (c := Pc.idle) (by simp [hpc, InOp] : InOp (s.pc p)) id
    refine ⟨n - 1, hl.congr (wakeup_inOp _), ?_⟩
    simp only
    omega
  | busy p e bs hpc hbusy => exact ⟨n, hn, ho⟩
  | committed p hpc => exact ⟨n, hn.keep (by simp [hpc, InOp]), ho⟩
  | reopened p hpc =>
    have hk : Census InOp (update s.pc p .idle) n := hn.keep (by simp [hpc, InOp])
    exact ⟨n, hk.congr (wakeup_inOp _), ho⟩
  | killed p hpc => exact ⟨n, hn.keep (by simp [hpc, InOp]), ho⟩

/-- The commit flag is up exactly while one process is in the unlocked part of end_op,
and no operation is open then. -/
structure Exclusive (s : Sys) : Prop where
  flag : s.log.committing = true → ∃ p, Committer (s.pc p)
  committer : ∀ p, Committer (s.pc p) → s.log.committing = true
  single : ∀ p q, Committer (s.pc p) → Committer (s.pc q) → p = q
  quiet : s.log.committing = true → ∀ p, ¬ InOp (s.pc p)

theorem Exclusive.idle (h : Exclusive s) (hf : s.log.committing = false) (p : Nat) :
    ¬ Committer (s.pc p) := by
  intro hc
  simp [h.committer p hc] at hf

/-- A move of one process that neither was nor becomes a committer. -/
theorem Exclusive.move (h : Exclusive s) (hp : ¬ Committer (s.pc p)) (hc : ¬ Committer c)
    (hi : s.log.committing = true → ¬ InOp c) (hpc : t.pc = update s.pc p c)
    (hflag : t.log.committing = s.log.committing) : Exclusive t := by
  have hsame : ∀ q, Committer (t.pc q) ↔ Committer (s.pc q) := by
    intro q
    rw [hpc]
    by_cases hq : q = p
    · subst q
      simp [hp, hc]
    · simp [hq]
  refine ⟨?_, ?_, ?_, ?_⟩
  · intro hf
    obtain ⟨q, hq⟩ := h.flag (hflag ▸ hf)
    exact ⟨q, (hsame q).mpr hq⟩
  · intro q hq
    rw [hflag]
    exact h.committer q ((hsame q).mp hq)
  · intro q r hq hr
    exact h.single q r ((hsame q).mp hq) ((hsame r).mp hr)
  · intro hf q
    rw [hpc]
    by_cases hq : q = p
    · subst q
      simpa using hi (hflag ▸ hf)
    · simpa [hq] using h.quiet (hflag ▸ hf) q

theorem Exclusive.wake (h : Exclusive s) : Exclusive { s with pc := wakeup s.pc } := by
  refine ⟨?_, ?_, ?_, ?_⟩
  · intro hf
    obtain ⟨q, hq⟩ := h.flag hf
    exact ⟨q, (wakeup_committer _ _).mpr hq⟩
  · intro q hq
    exact h.committer q ((wakeup_committer _ _).mp hq)
  · intro q r hq hr
    exact h.single q r ((wakeup_committer _ _).mp hq) ((wakeup_committer _ _).mp hr)
  · intro hf q hq
    exact h.quiet hf q ((wakeup_inOp _ _).mp hq)

/-- The last operation to end is alone, so nobody else can still log a block. -/
theorem last_alone (hc : Counted s) (hpc : InOp (s.pc p)) (hone : s.log.outstanding = 1)
    (hq : q ≠ p) : ¬ InOp (s.pc q) := by
  obtain ⟨n, hn, ho⟩ := hc
  obtain ⟨_, hl⟩ := hn.leave (c := Pc.idle) hpc id
  have hz : n - 1 = 0 := by omega
  rw [hz] at hl
  simpa [hq] using hl.zero q

theorem exclusive_step (hc : Counted s) (h : Exclusive s) (hm : Moves s a t) : Exclusive t := by
  cases hm with
  | began p hpc hfree hroom =>
    exact h.move (h.idle hfree p) id (by simp [hfree]) rfl rfl
  | slept p hpc hwait =>
    refine h.move ?_ id (fun _ => id) rfl rfl
    rcases hpc with hp | hp <;> simp [hp, Committer]
  | logged p b e bs hpc hcap =>
    refine h.move (by simp [hpc, Committer]) id ?_ rfl rfl
    intro hf
    exact absurd (by simp [hpc, InOp]) (h.quiet hf p)
  | tooBig p b e bs hpc hcap => exact ⟨h.flag, h.committer, h.single, h.quiet⟩
  | outside p b e bs hpc hcap hout => exact ⟨h.flag, h.committer, h.single, h.quiet⟩
  | last p e bs hpc hfree hone =>
    have hin : InOp (s.pc p) := by simp [hpc, InOp]
    have honly : ∀ q, Committer (update s.pc p .committing q) → q = p := by
      intro q hq
      by_contra hne
      exact h.idle hfree q (by simpa [hne] using hq)
    refine ⟨?_, fun _ _ => rfl, ?_, ?_⟩
    · intro _
      exact ⟨p, by simp [Sys.goto, Committer]⟩
    · intro q r hq hr
      rw [honly q hq, honly r hr]
    · intro _ q hq
      by_cases he : q = p
      · subst q
        simp [Sys.goto, InOp] at hq
      · exact last_alone hc hin hone he (by simpa [Sys.goto, he] using hq)
  | ended p e bs hpc hfree hmore =>
    have hi : Exclusive (s.goto p .idle) :=
      h.move (by simp [hpc, Committer]) id (fun _ => id) rfl rfl
    exact ⟨hi.wake.flag, hi.wake.committer, hi.wake.single, hi.wake.quiet⟩
  | busy p e bs hpc hbusy => exact ⟨h.flag, h.committer, h.single, h.quiet⟩
  | committed p hpc =>
    have hp : Committer (s.pc p) := by simp [hpc, Committer]
    have hsame : ∀ q, Committer (update s.pc p .committed q) → Committer (s.pc q) := by
      intro q hq
      by_cases he : q = p
      · exact he ▸ hp
      · simpa [he] using hq
    refine ⟨?_, ?_, ?_, ?_⟩
    · intro _
      exact ⟨p, by simp [Sys.goto, Committer]⟩
    · intro q hq
      exact h.committer q (hsame q hq)
    · intro q r hq hr
      exact h.single q r (hsame q hq) (hsame r hr)
    · intro hf q hq
      by_cases he : q = p
      · subst q
        simp [Sys.goto, InOp] at hq
      · exact h.quiet hf q (by simpa [Sys.goto, he] using hq)
  | reopened p hpc =>
    have hnone : ∀ q, ¬ Committer (update s.pc p .idle q) := by
      intro q hq
      by_cases he : q = p
      · subst q
        simp [Committer] at hq
      · have hcq : Committer (s.pc q) := by simpa [he] using hq
        exact he (h.single q p hcq (by simp [hpc, Committer]))
    refine ⟨by simp, ?_, ?_, by simp⟩
    · intro q hq
      exact absurd ((wakeup_committer _ _).mp hq) (hnone q)
    · intro q r hq
      exact absurd ((wakeup_committer _ _).mp hq) (hnone q)
  | killed p hpc => exact h.move (by simp [hpc, Committer]) id (fun _ => id) rfl rfl

theorem mem_absorb {l : List Word} {b c : Word} : c ∈ absorb l b ↔ c = b ∨ c ∈ l := by
  induction l with
  | nil => simp [absorb]
  | cons a l ih =>
    by_cases ha : a = b
    · simp [absorb, ha]
    · simp only [absorb, ha, ↓reduceIte, List.mem_cons, ih]
      tauto

theorem absorb_nodup {l : List Word} (b : Word) (h : l.Nodup) : (absorb l b).Nodup := by
  induction l with
  | nil => simp [absorb]
  | cons a l ih =>
    simp only [List.nodup_cons] at h
    by_cases ha : a = b
    · subst a
      simpa [absorb] using h
    · simp only [absorb, ha, ↓reduceIte, List.nodup_cons, mem_absorb, false_or]
      exact ⟨h.1, ih h.2⟩

theorem absorb_length (l : List Word) (b : Word) : l.length ≤ (absorb l b).length := by
  induction l with
  | nil => simp
  | cons a l ih =>
    by_cases ha : a = b
    · simp [absorb, ha]
    · simpa [absorb, ha] using ih

/-- The blocks written by commit number e, counted from 0. The commit still to come
will write what log.lh names when it runs. -/
def Sys.written (s : Sys) (e : Nat) : List Word := (s.commits ++ [s.log.block]).getD e []

theorem written_past {s : Sys} (h : e < s.commits.length) : s.written e = s.commits.getD e [] := by
  simp [Sys.written, List.getElem?_append_left h]

theorem written_next (s : Sys) : s.written s.commits.length = s.log.block := by
  simp [Sys.written]

/-- Every operation, open or ended, has all its blocks in the one commit that its
begin_op preceded. -/
structure Recorded (s : Sys) : Prop where
  distinct : s.log.block.Nodup
  running : ∀ p e bs, s.pc p = .inOp e bs → e = s.commits.length ∧ bs ⊆ s.written e
  ended : ∀ r ∈ s.finished, r.1 ≤ s.commits.length ∧ r.2 ⊆ s.written r.1

/-- A move that writes no commit and loses no block. -/
theorem Recorded.extend (h : Recorded s) (hd : t.log.block.Nodup)
    (hb : s.log.block ⊆ t.log.block) (hcom : t.commits = s.commits)
    (hrun : ∀ p e bs, t.pc p = .inOp e bs → e = s.commits.length ∧ bs ⊆ t.log.block)
    (hfin : ∀ r ∈ t.finished, r ∈ s.finished ∨ (r.1 = s.commits.length ∧ r.2 ⊆ t.log.block)) :
    Recorded t := by
  refine ⟨hd, ?_, ?_⟩
  · intro p e bs hp
    obtain ⟨he, hs⟩ := hrun p e bs hp
    rw [he, ← hcom, written_next]
    exact ⟨rfl, hs⟩
  · intro r hr
    rw [hcom]
    rcases hfin r hr with hold | ⟨he, hs⟩
    · obtain ⟨hle, hs⟩ := h.ended r hold
      refine ⟨hle, ?_⟩
      rcases Nat.lt_or_eq_of_le hle with hlt | heq
      · rw [written_past (by rwa [hcom]), hcom, ← written_past hlt]
        exact hs
      · rw [heq, written_next] at hs
        rw [heq, ← hcom, written_next]
        exact fun b hm => hb (hs hm)
    · rw [he, ← hcom, written_next]
      exact ⟨Nat.le_refl _, hs⟩

theorem Recorded.running_block (h : Recorded s) (hp : s.pc p = .inOp e bs) :
    e = s.commits.length ∧ bs ⊆ s.log.block := by
  obtain ⟨he, hs⟩ := h.running p e bs hp
  rw [he, written_next] at hs
  exact ⟨he, hs⟩

/-- A commit closes the record of every operation that was waiting for it. -/
theorem Recorded.commit (h : Recorded s) (hq : ∀ p, ¬ InOp (s.pc p))
    (hpc : t.pc = update s.pc p .committed) (hb : t.log.block = [])
    (hcom : t.commits = s.commits ++ [s.log.block]) (hfin : t.finished = s.finished) :
    Recorded t := by
  refine ⟨by simp [hb], ?_, ?_⟩
  · intro q e bs hin
    rw [hpc] at hin
    by_cases he : q = p
    · subst q
      simp at hin
    · exact absurd (by simp [show s.pc q = .inOp e bs by simpa [he] using hin, InOp]) (hq q)
  · intro r hr
    obtain ⟨hle, hs⟩ := h.ended r (hfin ▸ hr)
    have hlt : r.1 < t.commits.length := by
      rw [hcom, List.length_append]
      simp only [List.length_singleton]
      omega
    refine ⟨Nat.le_of_lt hlt, ?_⟩
    rw [written_past hlt, hcom]
    exact hs

theorem recorded_step (hx : Exclusive s) (h : Recorded s) (hm : Moves s a t) : Recorded t := by
  have hkeep : ∀ p c, (∀ e bs, c = Pc.inOp e bs → e = s.commits.length ∧ bs ⊆ s.log.block) →
      ∀ q e bs, update s.pc p c q = .inOp e bs →
        e = s.commits.length ∧ bs ⊆ s.log.block := by
    intro p c hc q e bs hq
    by_cases he : q = p
    · subst q
      exact hc e bs (by simpa using hq)
    · exact h.running_block (p := q) (by simpa [he] using hq)
  cases hm with
  | began p hpc hfree hroom =>
    refine h.extend h.distinct (fun _ => id) rfl (hkeep p _ ?_) (fun r hr => Or.inl hr)
    intro e bs he
    cases he
    simp
  | slept p hpc hwait =>
    exact h.extend h.distinct (fun _ => id) rfl (hkeep p _ (by simp)) (fun r hr => Or.inl hr)
  | logged p b e bs hpc hcap =>
    have hgrow : s.log.block ⊆ absorb s.log.block b := fun c hc => mem_absorb.mpr (Or.inr hc)
    refine h.extend (absorb_nodup b h.distinct) hgrow rfl ?_ (fun r hr => Or.inl hr)
    intro q e' bs' hq
    by_cases he : q = p
    · subst q
      simp only [Sys.goto, update_self, Pc.inOp.injEq] at hq
      obtain ⟨rfl, rfl⟩ := hq
      obtain ⟨hc, hs⟩ := h.running_block hpc
      refine ⟨hc, ?_⟩
      intro c hm
      rcases List.mem_append.mp hm with hm | hm
      · exact hgrow (hs hm)
      · exact mem_absorb.mpr (Or.inl (List.mem_singleton.mp hm))
    · have hq' : s.pc q = .inOp e' bs' := by simpa [Sys.goto, he] using hq
      obtain ⟨hc, hs⟩ := h.running_block hq'
      exact ⟨hc, fun c hm => hgrow (hs hm)⟩
  | tooBig p b e bs hpc hcap => exact ⟨h.distinct, h.running, h.ended⟩
  | outside p b e bs hpc hcap hout => exact ⟨h.distinct, h.running, h.ended⟩
  | last p e bs hpc hfree hone =>
    refine h.extend h.distinct (fun _ => id) rfl (hkeep p _ (by simp)) ?_
    intro r hr
    rcases List.mem_append.mp hr with hr | hr
    · exact Or.inl hr
    · rw [List.mem_singleton.mp hr]
      exact Or.inr (h.running_block hpc)
  | ended p e bs hpc hfree hmore =>
    refine h.extend h.distinct (fun _ => id) rfl ?_ ?_
    · intro q e' bs' hq
      exact hkeep p .idle (by simp) q e' bs' (wakeup_eq_inOp hq)
    · intro r hr
      rcases List.mem_append.mp hr with hr | hr
      · exact Or.inl hr
      · rw [List.mem_singleton.mp hr]
        exact Or.inr (h.running_block hpc)
  | busy p e bs hpc hbusy => exact ⟨h.distinct, h.running, h.ended⟩
  | committed p hpc =>
    have hf : s.log.committing = true := hx.committer p (by simp [hpc, Committer])
    exact h.commit (hx.quiet hf) rfl rfl rfl rfl
  | reopened p hpc =>
    refine h.extend h.distinct (fun _ => id) rfl ?_ (fun r hr => Or.inl hr)
    intro q e bs hq
    exact hkeep p .idle (by simp) q e bs (wakeup_eq_inOp hq)
  | killed p hpc =>
    exact h.extend h.distinct (fun _ => id) rfl (hkeep p _ (by simp)) (fun r hr => Or.inl hr)

/-- A process asleep in begin_op still has a reason to be. -/
def Awaited (s : Sys) : Prop :=
  ∀ p, s.pc p = .asleep → s.log.committing = true ∨ s.log.Tight

theorem tight_mono {l l' : LogState} (h : l.Tight) (hn : l.block.length ≤ l'.block.length)
    (ho : l.outstanding ≤ l'.outstanding) : l'.Tight := by
  unfold LogState.Tight at h ⊢
  have : (MAXOPBLOCKS : Int) = 10 := rfl
  rw [this] at h ⊢
  omega

theorem Awaited.move (h : Awaited s) (hpc : t.pc = update s.pc p c)
    (hc : c = .asleep → t.log.committing = true ∨ t.log.Tight)
    (hl : s.log.committing = true ∨ s.log.Tight → t.log.committing = true ∨ t.log.Tight) :
    Awaited t := by
  intro q hq
  rw [hpc] at hq
  by_cases he : q = p
  · subst q
    exact hc (by simpa using hq)
  · exact hl (h q (by simpa [he] using hq))

theorem awaited_step (hx : Exclusive s) (h : Awaited s) (hm : Moves s a t) : Awaited t := by
  cases hm with
  | began p hpc hfree hroom =>
    refine h.move rfl (by simp) ?_
    intro hw
    rcases hw with hf | ht
    · exact Or.inl hf
    · exact Or.inr (tight_mono ht (Nat.le_refl _) (by simp [Sys.goto]))
  | slept p hpc hwait => exact h.move rfl (fun _ => hwait) id
  | logged p b e bs hpc hcap =>
    refine h.move rfl (by simp) ?_
    intro hw
    rcases hw with hf | ht
    · exact Or.inl hf
    · exact Or.inr (tight_mono ht (absorb_length _ b) (Int.le_refl _))
  | tooBig p b e bs hpc hcap => exact h
  | outside p b e bs hpc hcap hout => exact h
  | last p e bs hpc hfree hone => exact fun _ _ => Or.inl rfl
  | ended p e bs hpc hfree hmore => exact fun q hq => absurd hq (wakeup_not_asleep _ q)
  | busy p e bs hpc hbusy => exact h
  | committed p hpc => exact fun _ _ => Or.inl (hx.committer p (by simp [hpc, Committer]))
  | reopened p hpc => exact fun q hq => absurd hq (wakeup_not_asleep _ q)
  | killed p hpc => exact h.move rfl (by simp) id

structure Inv (s : Sys) : Prop where
  counted : Counted s
  exclusive : Exclusive s
  recorded : Recorded s
  awaited : Awaited s

theorem init_inv (size : Nat) : Inv (init size) := by
  refine ⟨⟨0, census_none (by simp [init, InOp]), rfl⟩, ⟨?_, ?_, ?_, ?_⟩, ⟨?_, ?_, ?_⟩, ?_⟩
  all_goals simp [init, Committer, InOp, Awaited]

theorem step_inv (h : Inv s) (hs : step s a = some t) : Inv t := by
  obtain ⟨_, hm⟩ := step_moves hs
  exact ⟨counted_step h.counted hm, exclusive_step h.counted h.exclusive hm,
    recorded_step h.exclusive h.recorded hm, awaited_step h.exclusive h.awaited hm⟩

theorem reachable_inv (hr : run step (init size) as = some s) : Inv s :=
  run_invariant (fun _ _ _ h hs => step_inv h hs) (init_inv size) hr

/-- What the group commit protocol guarantees of a state between two steps. -/
structure GroupCommit (s : Sys) : Prop where
  exclusive : s.log.committing = true → s.log.outstanding = 0
  quiet : (∃ p, Committer (s.pc p)) → ∀ q b, step s (.logWrite q b) = none
  distinct : s.log.block.Nodup
  running : ∀ p e bs, s.pc p = .inOp e bs → e = s.commits.length ∧ bs ⊆ s.written e
  ended : ∀ r ∈ s.finished, r.1 ≤ s.commits.length ∧ r.2 ⊆ s.written r.1
  awaited : ∀ p, s.pc p = .asleep → s.log.committing = true ∨ s.log.Tight

/-- The protocol holds in every state that any interleaving of any number of processes
reaches. -/
theorem group_commit (hr : run step (init size) as = some s) : GroupCommit s := by
  have h := reachable_inv hr
  refine ⟨?_, ?_, h.recorded.distinct, h.recorded.running, h.recorded.ended, h.awaited⟩
  · intro hf
    obtain ⟨n, ⟨F, hF, hc⟩, ho⟩ := h.counted
    have he : F = ∅ := by
      apply Finset.eq_empty_of_forall_notMem
      intro p hp
      exact h.exclusive.quiet hf p ((hF p).mp hp)
    rw [ho, ← hc, he]
    rfl
  · intro hex q b
    obtain ⟨p, hp⟩ := hex
    have hq := h.exclusive.quiet (h.exclusive.committer p hp) q
    unfold step stepLogWrite
    split_ifs
    · rfl
    · cases hpc : s.pc q with
      | inOp e bs => exact absurd (by simp [hpc, InOp]) hq
      | _ => simp [hpc]

/-- Two operations share a commit while a third sleeps in begin_op. -/
def twoWriters : List Act :=
  [.beginOp 0, .beginOp 1, .logWrite 0 40, .logWrite 1 41, .endOp 0, .logWrite 1 40,
    .endOp 1, .beginOp 2, .commit 1]

theorem group_commit_two_writers :
    ∃ s, run step (init nlog) twoWriters = some s ∧
      (s.commits, s.pc 2) = ([[40, 41]], Pc.asleep) ∧ GroupCommit s := by
  obtain ⟨s, hs, hv⟩ := Option.map_eq_some_iff.mp
    (show (run step (init nlog) twoWriters).map (fun s => (s.commits, s.pc 2)) =
      some ([[40, 41]], .asleep) by decide)
  exact ⟨s, hs, hv, group_commit hs⟩

end Xv6.Log
