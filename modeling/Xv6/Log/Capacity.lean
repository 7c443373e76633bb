import Mathlib.Data.List.Dedup
import Xv6.Log.GroupCommit

namespace Xv6.Log
open Function List Lib

def Pc.blocks : Pc → List Word
  | .inOp _ bs => bs
  | _ => []

/-- The promise behind MAXOPBLOCKS: no operation logs more distinct blocks than that. -/
def OpLimit (s : Sys) : Act → Prop
  | .logWrite p b => ((s.pc p).blocks ++ [b]).dedup.length ≤ MAXOPBLOCKS
  | _ => True

instance (s : Sys) (a : Act) : Decidable (OpLimit s a) :=
  match a with
  | .logWrite _ _ => inferInstanceAs (Decidable (_ ≤ _))
  | .beginOp _ | .endOp _ | .commit _ | .endCommit _ | .kill _ => isTrue trivial

/-- The operations since the last commit have so far passed fewer distinct blocks to
log_write than the log has data blocks on disk. -/
def Room (s : Sys) : Act → Prop
  | .logWrite _ _ => s.logged.dedup.length < nlog - 1
  | _ => True

/-- Three admitted operations that each use their whole reservation. -/
def threeFullOps : List Act :=
  [.beginOp 0, .beginOp 1, .beginOp 2] ++
    (List.range 30).map (fun i => .logWrite (i / 10) (BitVec.ofNat 32 (100 + i)))

theorem three_full_ops_panic :
    Along step OpLimit (init nlog) threeFullOps ∧
      (run step (init nlog) threeFullOps).map (·.panic) = some (some .tooBig) := by
  decide +kernel

/-- log.lh names each block passed to log_write since the last commit exactly once. -/
structure Tallied (s : Sys) : Prop where
  distinct : s.log.block.Nodup
  same : ∀ b, b ∈ s.log.block ↔ b ∈ s.logged
  size : s.log.size = nlog

theorem Tallied.count (h : Tallied s) : s.log.block.length = s.logged.dedup.length := by
  apply List.Perm.length_eq
  rw [perm_ext_iff_of_nodup h.distinct (nodup_dedup _)]
  intro b
  rw [mem_dedup, h.same b]

theorem tallied_step (h : Tallied s) (hm : Moves s a t) : Tallied t := by
  cases hm with
  | logged p b e bs hpc hcap =>
    refine ⟨absorb_nodup b h.distinct, ?_, h.size⟩
    intro c
    simp only [Sys.goto, mem_absorb, mem_append, mem_singleton, h.same c]
    exact or_comm
  | committed p hpc => exact ⟨nodup_nil, by simp [Sys.goto], h.size⟩
  | _ => exact ⟨h.distinct, h.same, h.size⟩

/-- One step panics over the size of the transaction exactly when it is a log_write
without room. -/
theorem tooBig_step (h : Tallied s) (hp : s.panic = none) (hm : Moves s a t) :
    t.panic ≠ some .tooBig ↔ Room s a := by
  have hn := h.count
  have hz := h.size
  have hlog : nlog = 30 := rfl
  have hsize : LOGSIZE = 30 := rfl
  cases hm with
  | logged p b e bs hpc hcap =>
    simp only [Sys.goto, hp, Room]
    simp only [ne_eq, reduceCtorEq, not_false_eq_true, true_iff]
    omega
  | tooBig p b e bs hpc hcap =>
    simp only [Room, ne_eq, not_true_eq_false, false_iff]
    omega
  | outside p b e bs hpc hcap hout =>
    simp only [Room, ne_eq, Option.some.injEq, reduceCtorEq, not_false_eq_true, true_iff]
    omega
  | busy p e bs hpc hbusy => simp [Room]
  | began | slept | last | ended | committed | reopened | killed => simp [Sys.goto, hp, Room]

theorem step_after_panic {s : Sys} (hp : s.panic ≠ none) (a : Act) : step s a = none := by
  unfold step
  rw [if_pos (by simpa [Option.isSome_iff_ne_none] using hp)]

theorem run_after_panic {s : Sys} (hp : s.panic ≠ none) (hr : run step s as = some t) :
    as = [] ∧ t = s := by
  cases as with
  | nil =>
    cases hr
    exact ⟨rfl, rfl⟩
  | cons a as =>
    obtain ⟨u, hu, _⟩ := run_cons.mp hr
    rw [step_after_panic hp a] at hu
    cases hu

theorem tooBig_run (h : Tallied s) (hp : s.panic = none) (hr : run step s as = some t) :
    t.panic ≠ some .tooBig ↔ Along step Room s as := by
  induction as generalizing s with
  | nil =>
    cases hr
    simp [hp, Along]
  | cons a as ih =>
    obtain ⟨u, hu, hr⟩ := run_cons.mp hr
    have hm := (step_moves hu).2
    have hone := tooBig_step h hp hm
    simp only [Along, hu]
    by_cases hup : u.panic = none
    · have hroom : Room s a := hone.mp (by simp [hup])
      simp only [hroom, true_and]
      exact ih (tallied_step h hm) hup hr
    · obtain ⟨rfl, rfl⟩ := run_after_panic hup hr
      simpa [Along] using hone

/-- With the log that mkfs lays out, a run is free of "too big a transaction" exactly
when no log_write comes after nlog - 1 distinct blocks of one group. -/
theorem too_big_iff (hr : run step (init nlog) as = some s) :
    s.panic ≠ some .tooBig ↔ Along step Room (init nlog) as :=
  tooBig_run ⟨nodup_nil, by simp [init], rfl⟩ rfl hr

/-- With 29 blocks the three operations are within the log, and the 30th is one too many. -/
theorem too_big_iff_full_group :
    (∃ s, run step (init nlog) (threeFullOps.take 32) = some s ∧ s.log.block.length = 29 ∧
      s.panic ≠ some .tooBig ∧ Along step Room (init nlog) (threeFullOps.take 32)) ∧
    ∃ s, run step (init nlog) threeFullOps = some s ∧
      ¬ s.panic ≠ some .tooBig ∧ ¬ Along step Room (init nlog) threeFullOps := by
  obtain ⟨s, hs, hn, hp⟩ : ∃ s, run step (init nlog) (threeFullOps.take 32) = some s ∧
      s.log.block.length = 29 ∧ s.panic ≠ some .tooBig := by decide +kernel
  obtain ⟨t, ht, hbig⟩ : ∃ t, run step (init nlog) threeFullOps = some t ∧
      ¬ t.panic ≠ some .tooBig := by decide +kernel
  exact ⟨⟨s, hs, hn, hp, (too_big_iff hs).mp hp⟩, t, ht, hbig, mt (too_big_iff ht).mpr hbig⟩

end Xv6.Log
