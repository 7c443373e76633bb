import Xv6.Lib.Success
import Xv6.Mem.Task

namespace Xv6.Mem
open Lib

/-- From k to k' kalloc() has been called c times, and none of these calls was made to fail. -/
def LuckyFor (c : Nat) (k k' : Kmem) : Prop :=
  (k'.luck = fun n => k.luck (n + c)) ∧ ∀ j < c, k.luck j = true

/-- No call of kalloc() from k to k' was made to fail. -/
def Lucky (k k' : Kmem) : Prop := ∃ c, LuckyFor c k k'

theorem Lucky.of_eq (h : k'.luck = k.luck) : Lucky k k' :=
  ⟨0, h, fun j hj => absurd hj (Nat.not_lt_zero j)⟩

instance : Std.Refl Lucky := ⟨fun _ => .of_eq rfl⟩

instance : IsTrans Kmem Lucky := by
  refine ⟨fun k k' k'' h h' => ?_⟩
  obtain ⟨c, hl, hc⟩ := h
  obtain ⟨d, hl', hd⟩ := h'
  refine ⟨d + c, ?_, fun j hj => ?_⟩
  · funext n
    simp only [hl', hl, Nat.add_assoc]
  · rcases Nat.lt_or_ge j c with hjc | hjc
    · exact hc j hjc
    · have := hd (j - c) (by omega)
      simp only [hl, Nat.sub_add_cancel hjc] at this
      exact this

/-- A call that was made to fail comes after the ones that were made. -/
theorem Lucky.single (h : Lucky k k') (hk : k.luck = fun n => decide (n ≠ j)) :
    ∃ n, k'.luck n = false := by
  obtain ⟨c, hl, hc⟩ := h
  have hle : c ≤ j := by
    by_contra hlt
    have := hc j (by omega)
    simp [hk] at this
  refine ⟨j - c, ?_⟩
  rw [hl, hk]
  simp [Nat.sub_add_cancel hle]

theorem kalloc_lucky : Succeeds Lucky kalloc (· ≠ none) := by
  intro k r k' hr hg
  change (if k.luck 0 = false ∨ k.freelist = 0 then _ else _) = _ at hr
  split at hr
  · cases hr
    exact absurd rfl hg
  · rename_i hl
    cases hr
    refine ⟨1, rfl, fun j hj => ?_⟩
    obtain rfl : j = 0 := by omega
    exact Bool.eq_true_of_not_eq_false (not_or.mp hl).1

theorem load_lucky : Succeeds Lucky (load x i) (fun _ => True) := by
  intro k r k' hr _
  cases hr
  exact .of_eq rfl

theorem store_lucky : Succeeds Lucky (store x i w) (fun _ => True) := by
  intro k r k' hr _
  cases hr
  exact .of_eq rfl

theorem setPage_lucky : Succeeds Lucky (setPage x p) (fun _ => True) := by
  intro k r k' hr _
  cases hr
  exact .of_eq rfl

theorem getPage_lucky : Succeeds Lucky (getPage x) (fun _ => True) := by
  intro k r k' hr _
  cases hr
  exact .of_eq rfl

theorem panic_fails {good : α → Prop} : Fails (panic e) good := by
  intro k r k' hr
  cases hr

/-- A step that always succeeds, before the rest of a program. -/
theorem lucky_then {x : Km α} {f : α → Km β} {good : β → Prop}
    (hx : Succeeds Lucky x (fun _ => True)) (hf : ∀ a, Succeeds Lucky (f a) good) :
    Succeeds Lucky (x >>= f) good :=
  succeeds_bind hx (fun a _ => hf a) (fun _ ha => absurd trivial ha)

/-- A step that returns none when it fails. -/
theorem lucky_some {x : Km (Option α)} {f : Option α → Km β} {good : β → Prop}
    (hx : Succeeds Lucky x (· ≠ none)) (hf : ∀ a, Succeeds Lucky (f (some a)) good)
    (hbad : Fails (f none) good) : Succeeds Lucky (x >>= f) good := by
  refine succeeds_bind hx (fun r hr => ?_) (fun r hr => ?_)
  · cases r with
    | none => exact absurd rfl hr
    | some a => exact hf a
  · rw [not_not] at hr
    exact hr ▸ hbad

theorem walkFrom_lucky : Succeeds Lucky (walkFrom va alloc l r) (· ≠ none) := by
  induction l generalizing r with
  | zero => exact succeeds_pure
  | succ l ih =>
    rw [walkFrom]
    apply lucky_then load_lucky
    intro pte
    refine succeeds_ite (fun _ => ih) (fun _ => ?_)
    refine succeeds_ite (fun _ => succeeds_pure) (fun _ => ?_)
    refine lucky_some kalloc_lucky (fun x => ?_) (fails_pure (not_not.mpr rfl))
    apply lucky_then setPage_lucky
    intro _
    exact lucky_then store_lucky (fun _ => ih)

theorem walk_lucky : Succeeds Lucky (walk root va alloc) (· ≠ none) := by
  rw [walk]
  exact succeeds_ite (fun _ => panic_fails.succeeds) (fun _ => walkFrom_lucky)

theorem mapLoop_lucky : Succeeds Lucky (mapLoop root last perm n a pa) (fun r => ¬ r < 0) := by
  induction n generalizing a pa with
  | zero => exact panic_fails.succeeds
  | succ n ih =>
    rw [mapLoop]
    refine lucky_some walk_lucky (fun s => ?_) (fails_pure (by decide))
    apply lucky_then load_lucky
    intro pte
    refine succeeds_ite (fun _ => panic_fails.succeeds) (fun _ => ?_)
    apply lucky_then store_lucky
    intro _
    exact succeeds_ite (fun _ => succeeds_pure) (fun _ => ih)

theorem mappages_lucky : Succeeds Lucky (mappages root va size pa perm) (fun r => ¬ r < 0) := by
  rw [mappages]
  refine succeeds_ite (fun _ => panic_fails.succeeds) (fun _ => ?_)
  refine succeeds_ite (fun _ => panic_fails.succeeds) (fun _ => ?_)
  exact succeeds_ite (fun _ => panic_fails.succeeds) (fun _ => mapLoop_lucky)

theorem uvmcreate_lucky : Succeeds Lucky uvmcreate (· ≠ none) := by
  rw [uvmcreate]
  refine lucky_some kalloc_lucky (fun x => ?_) (fails_pure (not_not.mpr rfl))
  exact lucky_then setPage_lucky (fun _ => succeeds_pure)

/-- mappages() and the test of its result, with a way out that fails. -/
theorem lucky_mappages {bad : Km β} {f : Km β} {good : β → Prop} (hf : Succeeds Lucky f good)
    (hbad : Fails bad good) :
    Succeeds Lucky (do
      let r ← mappages root va size pa perm
      if r < 0 then bad else f) good := by
  refine succeeds_bind mappages_lucky (fun r hr => ?_) (fun r hr => ?_)
  · rw [if_neg hr]
    exact hf
  · rw [if_pos (not_not.mp hr)]
    exact hbad

theorem copyTrapframe_lucky : Succeeds Lucky (copyTrapframe src dst) (fun _ => True) := by
  apply lucky_then getPage_lucky
  intro t
  apply lucky_then getPage_lucky
  intro t'
  exact setPage_lucky

section Layout
variable [Image]

theorem procPagetable_lucky : Succeeds Lucky (procPagetable tf) (· ≠ none) := by
  have hnone : Fails (pure none : Km (Option Addr)) (· ≠ none) := fails_pure (not_not.mpr rfl)
  rw [procPagetable]
  refine lucky_some uvmcreate_lucky (fun pagetable => ?_) hnone
  refine lucky_mappages ?_ (fails_bind (fun _ => hnone))
  refine lucky_mappages succeeds_pure ?_
  exact fails_bind (fun _ => fails_bind (fun _ => hnone))

theorem copyLoop_lucky : Succeeds Lucky (copyLoop old new sz n i) (fun r => ¬ r < 0) := by
  have hbad : Fails (pure (-1) : Km Int) (fun r => ¬ r < 0) := fails_pure (by decide)
  induction n generalizing i with
  | zero => exact panic_fails.succeeds
  | succ n ih =>
    rw [copyLoop]
    refine succeeds_ite (fun _ => ?_) (fun _ => succeeds_pure)
    refine lucky_some walk_lucky (fun s => ?_) panic_fails
    apply lucky_then load_lucky
    intro pte
    refine succeeds_ite (fun _ => panic_fails.succeeds) (fun _ => ?_)
    refine lucky_some kalloc_lucky (fun mem => ?_) (fails_bind (fun _ => hbad))
    apply lucky_then getPage_lucky
    intro p
    apply lucky_then setPage_lucky
    intro _
    refine succeeds_bind mappages_lucky (fun r _ => ?_) (fun r hr => ?_)
    · refine succeeds_ite (fun _ => ?_) (fun _ => ih)
      exact (fails_bind (fun _ => fails_bind (fun _ => hbad))).succeeds
    · rw [if_pos (by omega)]
      exact fails_bind (fun _ => fails_bind (fun _ => hbad))

theorem freeproc_eq (hr : (freeproc t).run k = .ok (t', k')) : t' = {} := by
  rw [freeproc] at hr
  obtain ⟨_, k1, -, hr⟩ := run_bind_ok hr
  obtain ⟨_, k2, -, hr⟩ := run_bind_ok hr
  cases hr
  rfl

theorem freeproc_fails {f : Task → Km β} {good : β → Prop} (h : Fails (f {}) good) :
    Fails (freeproc t >>= f) good := by
  intro k b k' hr
  obtain ⟨t', u, ht, hf⟩ := run_bind_ok hr
  rw [freeproc_eq ht] at hf
  exact h u b k' hf

/-- What allocproc() returns when it fails is a free slot. -/
theorem allocproc_lucky :
    Succeeds Lucky (allocproc t pid) (fun r => r.1 = true ∨ r.2.state ≠ .unused) := by
  have hbad : Fails (pure (false, {}) : Km (Bool × Task))
      (fun r => r.1 = true ∨ r.2.state ≠ .unused) := fails_pure (by simp)
  rw [allocproc]
  refine lucky_some kalloc_lucky (fun tf => ?_) (freeproc_fails hbad)
  exact lucky_some procPagetable_lucky (fun pt => succeeds_pure) (freeproc_fails hbad)

/-- A fork() that leaves a child has got every page it asked for. -/
theorem fork_lucky : Succeeds Lucky (fork self p np pid) (fun r => r.1.state ≠ .unused) := by
  rw [fork]
  refine succeeds_bind allocproc_lucky (fun r hr => ?_) (fun r hr => ?_)
  · obtain ⟨ok, np⟩ := r
    cases ok with
    | false => exact succeeds_pure
    | true =>
      refine succeeds_bind copyLoop_lucky (fun r hr => ?_) (fun r hr => ?_)
      · rw [if_neg hr]
        exact lucky_then copyTrapframe_lucky (fun _ => succeeds_pure)
      · rw [if_pos (not_not.mp hr)]
        exact freeproc_fails (fails_pure (by simp))
  · obtain ⟨ok, np⟩ := r
    obtain ⟨hok, hst⟩ := not_or.mp hr
    obtain rfl : ok = false := Bool.eq_false_of_not_eq_true hok
    exact fails_pure hst

end Layout

end Xv6.Mem
