import Xv6.Proc.Reap
import Xv6.Proc.Slots

namespace Xv6.Lifecycle
open Function Lib

/-- A step of process control, or the system call kill(pid). -/
inductive Call where
  | act (a : Act)
  | kill (pid : Int)
  deriving DecidableEq

def Act.isKill : Act → Bool
  | .kill _ => true
  | _ => false

def call (s : Sys) : Call → Option Sys
  | .act a => if a.isKill then none else step s a
  | .kill pid => some { s with procs := (s.procs.kill pid).1 }

/-- kill(pid) finds the process that has this pid, and nothing else. -/
structure KillsNamed (t : Table) (pid : Int) : Prop where
  returns : (t.kill pid).2 = 0 ↔ ∃ i < NPROC, (t i).state ≠ .unused ∧ (t i).pid = pid
  only : (t.kill pid).2 = 0 → ∃ i < NPROC, (t i).state ≠ .unused ∧ (t i).pid = pid ∧
    ∀ j, j ≠ i → (t.kill pid).1 j = t j
  otherwise : (t.kill pid).2 ≠ 0 → (t.kill pid).2 = -1 ∧ (t.kill pid).1 = t

/-- The scan of kill() stops at no free slot, or at one it has marked before, while there is a
process with this pid: the pids have then wrapped to 0. -/
def Aimed (t : Table) (pid : Int) : Prop :=
  ∀ i ∈ t.killTarget pid, (t i).state = .unused →
    (t i).killed = true ∧ ∃ k < NPROC, (t k).state ≠ .unused ∧ (t k).pid = pid

instance (t : Table) (pid : Int) : Decidable (Aimed t pid) :=
  inferInstanceAs (Decidable (∀ i ∈ t.killTarget pid, _))

def CallAimed (s : Sys) : Call → Prop
  | .kill pid => Aimed s.procs pid
  | .act _ => True

instance (s : Sys) (c : Call) : Decidable (CallAimed s c) :=
  match c with
  | .kill _ => inferInstanceAs (Decidable (Aimed _ _))
  | .act _ => isTrue trivial

/-- A slot that holds no process is marked by nothing that happened before. -/
def Clean (s : Sys) : Prop := ∀ i, (s.procs i).state = .unused →
  (s.procs i).pid = 0 ∧ (s.procs i).killed = false

theorem killTarget_some {t : Table} (h : t.killTarget pid = some i) :
    i < NPROC ∧ (t i).pid = pid := by
  have hm := List.mem_of_find?_eq_some h
  have hp := List.find?_some h
  exact ⟨List.mem_range.mp hm, of_decide_eq_true hp⟩

theorem killTarget_none {t : Table} (h : t.killTarget pid = none) (hi : i < NPROC) :
    (t i).pid ≠ pid := by
  have hp := List.find?_eq_none.mp h i (List.mem_range.mpr hi)
  simpa using hp

theorem Clean.step (h : Clean s) (hf : Forking s) (hn : a.isKill = false) (hm : Moves s a t) :
    Clean t := by
  intro i hi
  cases hm.slot hf i with
  | kept hpid hkilled huse hexit =>
    have hs : (s.procs i).state = .unused := by
      by_contra hne
      exact huse.mpr hne hi
    rw [hpid, hkilled]
    exact h i hs
  | killed ha h =>
    rw [ha] at hn
    cases hn
  | freed hst h =>
    rw [h]
    exact ⟨rfl, rfl⟩
  | born p ha hun h =>
    rw [h] at hi
    cases hi

theorem Clean.kill (h : Clean s) (ha : Aimed s.procs pid) :
    Clean { s with procs := (s.procs.kill pid).1 } := by
  intro i hi
  dsimp only at hi ⊢
  unfold Table.kill at hi ⊢
  cases ht : s.procs.killTarget pid with
  | none =>
    rw [ht] at hi
    exact h i hi
  | some j =>
    rw [ht] at hi
    dsimp only at hi ⊢
    rcases eq_or_ne i j with rfl | hne
    · rw [update_self] at hi
      have hu : (s.procs i).state = .unused := by
        by_contra hne
        exact kill_inUse.mpr hne hi
      have hmarked := (ha i ht hu).1
      rw [(h i hu).2] at hmarked
      cases hmarked
    · rw [update_of_ne hne] at hi ⊢
      exact h i hi

theorem kill_some {t : Table} (h : t.killTarget pid = some i) :
    t.kill pid = (update t i (t i).kill, 0) := by
  rw [Table.kill, h]

theorem kill_none {t : Table} (h : t.killTarget pid = none) : t.kill pid = (t, -1) := by
  rw [Table.kill, h]

/-- The system call is one of the kills that process control allows for, or does nothing. -/
theorem kill_step (s : Sys) (pid : Int) :
    { s with procs := (s.procs.kill pid).1 } = s ∨
      ∃ i, step s (.kill i) = some { s with procs := (s.procs.kill pid).1 } := by
  cases ht : s.procs.killTarget pid with
  | none =>
    rw [kill_none ht]
    exact .inl rfl
  | some i =>
    right
    refine ⟨i, ?_⟩
    rw [kill_some ht]
    exact if_pos (killTarget_some ht).1

theorem call_inv (h : Inv s) (hc : call s c = some t) : Inv t := by
  cases c with
  | act a => exact inv_step h (Option.ite_none_left_eq_some.mp hc).2
  | kill pid =>
    cases hc
    obtain he | ⟨i, hi⟩ := kill_step s pid
    · rw [he]
      exact h
    · exact inv_step h hi

theorem Clean.call (h : Clean s) (hi : Inv s) (hg : CallAimed s c) (hc : call s c = some t) :
    Clean t := by
  cases c with
  | act a =>
    obtain ⟨hn, hc⟩ := Option.ite_none_left_eq_some.mp hc
    exact h.step hi.coherent.toForking (by simpa using hn) (step_moves hc)
  | kill pid =>
    cases hc
    exact h.kill hg

theorem clean_init : Clean init := by
  intro i hi
  rw [init_state] at hi
  have hne : i ≠ initproc := by
    intro he
    rw [if_pos he] at hi
    cases hi
  have he : init.procs i = {} := update_of_ne (f := fun _ => ({} : Proc)) hne _
  rw [he]
  exact ⟨rfl, rfl⟩

theorem kill_marked {q : Proc} (hu : q.state = .unused) (hk : q.killed = true) : q.kill = q := by
  cases q
  cases hu
  cases hk
  rfl

/-- Aimed at a process, kill() does what it should. -/
theorem killsNamed_of_aimed (h : Aimed t pid) : KillsNamed t pid := by
  cases ht : t.killTarget pid with
  | none =>
    constructor
    case returns =>
      rw [kill_none ht]
      constructor
      · intro h0
        cases h0
      · intro ⟨i, hi, _, hp⟩
        exact absurd hp (killTarget_none ht hi)
    case only =>
      rw [kill_none ht]
      intro h0
      cases h0
    case otherwise =>
      rw [kill_none ht]
      exact fun _ => ⟨rfl, rfl⟩
  | some i =>
    obtain ⟨hi, hp⟩ := killTarget_some ht
    have hlive : ∃ k < NPROC, (t k).state ≠ .unused ∧ (t k).pid = pid ∧
        ∀ j, j ≠ k → update t i (t i).kill j = t j := by
      by_cases hu : (t i).state = .unused
      · obtain ⟨hmarked, k, hk, hne, hpid⟩ := h i ht hu
        exact ⟨k, hk, hne, hpid, fun j _ => by rw [kill_marked hu hmarked, update_eq_self]⟩
      · exact ⟨i, hi, hu, hp, fun j hj => update_of_ne hj ..⟩
    constructor
    case returns =>
      rw [kill_some ht]
      obtain ⟨k, hk, hne, hpid, _⟩ := hlive
      exact ⟨fun _ => ⟨k, hk, hne, hpid⟩, fun _ => rfl⟩
    case only =>
      rw [kill_some ht]
      exact fun _ => hlive
    case otherwise =>
      rw [kill_some ht]
      intro h0
      exact absurd rfl h0

/-- Aimed at a free slot, it changes that slot. -/
theorem aimed_of_killsNamed (h : KillsNamed t pid) : Aimed t pid := by
  intro i ht hu
  have ho := h.only
  rw [kill_some ht] at ho
  obtain ⟨k, hlt, hk, hpid, hsame⟩ := ho rfl
  have hik : i ≠ k := by
    intro he
    rw [he] at hu
    exact hk hu
  have he := hsame i hik
  dsimp only at he
  rw [update_self] at he
  exact ⟨(congrArg Proc.killed he).symm, k, hlt, hk, hpid⟩

/-- In every state kill(pid) acts on the named process alone exactly when it does not stop at a
free slot. As long as no kill() does, every new process starts unmarked. -/
theorem kill_affects_named_only (h : run call init as = some s) :
    (∀ pid, KillsNamed s.procs pid ↔ Aimed s.procs pid) ∧
      (Along call CallAimed init as →
        ∀ p np t, step s (.fork p np true) = some t → (t.procs np).killed = false) := by
  refine ⟨fun pid => ⟨aimed_of_killsNamed, killsNamed_of_aimed⟩, fun hg p np t hst => ?_⟩
  have hi : Inv s ∧ Clean s := by
    apply along_invariant (I := fun s => Inv s ∧ Clean s) ?_ ⟨init_inv, clean_init⟩ hg h
    intro s c t ⟨hi, hcl⟩ hg hst
    exact ⟨call_inv hi hst, hcl.call hi hg hst⟩
  obtain ⟨hun, he⟩ := forked_slot (step_moves hst)
  rw [he]
  exact (hi.2 np hun).2

/-- kill(0) finds the first free slot. The process that is put there next is born killed. -/
theorem kill_zero_marks_free_slot :
    (init.procs.kill 0).2 = 0 ∧ ¬ KillsNamed init.procs 0 ∧
      ∃ s, run call init [.kill 0, .act (.sched 0), .act (.fork 0 1 true)] = some s ∧
        (s.procs 1).state = .used ∧ (s.procs 1).killed = true := by
  have hnot : ¬ Aimed init.procs 0 := by decide +kernel
  obtain ⟨s, hs, hp⟩ : ∃ s,
      run call init [.kill 0, .act (.sched 0), .act (.fork 0 1 true)] = some s ∧
      (s.procs 1).state = .used ∧ (s.procs 1).killed = true := by decide +kernel
  refine ⟨by decide +kernel, ?_, s, hs, hp⟩
  exact fun h => hnot (aimed_of_killsNamed h)

/-- A child is killed by its pid, and another one is forked. -/
def killChild : List Call :=
  [.act (.sched 0), .act (.fork 0 1 true), .kill 2, .kill 7, .act (.go 0 true), .act (.go 0 true),
    .act (.fork 0 2 true)]

theorem kill_affects_named_only_one_child :
    ∃ s, run call init killChild = some s ∧ (s.procs 1).killed = true ∧
      (∀ pid, KillsNamed s.procs pid ↔ Aimed s.procs pid) ∧
      ∀ p np t, step s (.fork p np true) = some t → (t.procs np).killed = false := by
  obtain ⟨s, hs, hp⟩ : ∃ s, run call init killChild = some s ∧ (s.procs 1).killed = true := by
    decide +kernel
  have hg : Along call CallAimed init killChild := by decide +kernel
  obtain ⟨hiff, hfork⟩ := kill_affects_named_only hs
  exact ⟨s, hs, hp, hiff, hfork hg⟩

end Xv6.Lifecycle
