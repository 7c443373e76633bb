import Mathlib.Algebra.BigOperators.Group.Finset.Basic
import Mathlib.Data.Fintype.Basic
import Mathlib.Data.Multiset.Fintype

namespace Xv6.Lib.Radix

open Function Multiset

/-- Tables of words that lie in memory under addresses of A and have one word for each index. A word
may point to a table of the next level. -/
structure Scheme (A W ι : Type) where
  next : W → Option A

variable {A W ι : Type} [Fintype ι] {S : Scheme A W ι}
  {m m' : A → ι → W} {r c : A} {i : ι} {l : Nat} {key key' : Nat → ι} {P : W → Prop}

/-- The tables of a tree with root r and l further levels. -/
def tables (S : Scheme A W ι) (m : A → ι → W) : Nat → A → Multiset A
  | 0, r => {r}
  | l + 1, r => r ::ₘ ∑ i, (S.next (m r i)).elim 0 (tables S m l)

/-- The table and index where a key ends; its index at each level is known beforehand. -/
def slot (S : Scheme A W ι) (m : A → ι → W) (key : Nat → ι) : Nat → A → Option (A × ι)
  | 0, r => some (r, key 0)
  | l + 1, r => (S.next (m r (key (l + 1)))).bind (slot S m key l)

/-- The word found for a key. -/
def entry (S : Scheme A W ι) (m : A → ι → W) (key : Nat → ι) (l : Nat) (r : A) : Option W :=
  (slot S m key l r).map (fun s => m s.1 s.2)

/-- Every pointer of the tree satisfies P. -/
def Pointers (S : Scheme A W ι) (P : W → Prop) (m : A → ι → W) : Nat → A → Prop
  | 0, _ => True
  | l + 1, r => ∀ i c, S.next (m r i) = some c → P (m r i) ∧ Pointers S P m l c

theorem root_mem : r ∈ tables S m l r := by
  cases l with
  | zero => exact mem_singleton_self r
  | succ l => exact mem_cons_self r _

theorem tables_zero : tables S m 0 r = {r} := by
  rw [tables]

theorem tables_eq_sum : tables S m (l + 1) r =
    r ::ₘ ∑ i, (S.next (m r i)).elim 0 (tables S m l) := by
  rw [tables]

variable [DecidableEq ι]

/-- The tables below all indices but i. -/
def others (S : Scheme A W ι) (m : A → ι → W) (l : Nat) (r : A) (i : ι) : Multiset A :=
  ∑ j ∈ Finset.univ.erase i, (S.next (m r j)).elim 0 (tables S m l)

theorem tables_succ (i : ι) : tables S m (l + 1) r =
    r ::ₘ ((S.next (m r i)).elim 0 (tables S m l) + others S m l r i) := by
  have h := Finset.add_sum_erase Finset.univ
    (fun j => (S.next (m r j)).elim 0 (tables S m l)) (Finset.mem_univ i)
  rw [tables, others, ← h]

theorem tables_of_next (h : S.next (m r i) = some c) :
    tables S m (l + 1) r = r ::ₘ (tables S m l c + others S m l r i) := by
  rw [tables_succ i, h]
  rfl

theorem tables_of_none (h : S.next (m r i) = none) :
    tables S m (l + 1) r = r ::ₘ others S m l r i := by
  rw [tables_succ i, h]
  exact congrArg _ (zero_add _)

theorem mem_of_child (h : S.next (m r i) = some c) (hx : x ∈ tables S m l c) :
    x ∈ tables S m (l + 1) r := by
  rw [tables_of_next h]
  exact mem_cons_of_mem (mem_add.mpr (.inl hx))

theorem mem_others (h : S.next (m r i) = some c) (hij : i ≠ j) (hx : x ∈ tables S m l c) :
    x ∈ others S m l r j := by
  rw [others, mem_sum]
  refine ⟨i, Finset.mem_erase.mpr ⟨hij, Finset.mem_univ i⟩, ?_⟩
  rw [h]
  exact hx

/-- What lies outside the tables of a tree does not matter to it. -/
theorem tables_congr (h : ∀ x ∈ tables S m l r, m' x = m x) : tables S m' l r = tables S m l r := by
  induction l generalizing r with
  | zero => rfl
  | succ l ih =>
    rw [tables, tables, h r root_mem]
    congr 1
    refine Finset.sum_congr rfl (fun i _ => ?_)
    cases hn : S.next (m r i) with
    | none => rfl
    | some c => exact ih (fun x hx => h x (mem_of_child hn hx))

theorem slot_congr (h : ∀ x ∈ tables S m l r, m' x = m x) :
    slot S m' key l r = slot S m key l r := by
  induction l generalizing r with
  | zero => rfl
  | succ l ih =>
    rw [slot, slot, h r root_mem]
    cases hn : S.next (m r (key (l + 1))) with
    | none => rfl
    | some c => exact ih (fun x hx => h x (mem_of_child hn hx))

theorem pointers_congr (h : ∀ x ∈ tables S m l r, m' x = m x) (hp : Pointers S P m l r) :
    Pointers S P m' l r := by
  induction l generalizing r with
  | zero => trivial
  | succ l ih =>
    intro i c hn
    rw [h r root_mem] at hn ⊢
    obtain ⟨hw, hc⟩ := hp i c hn
    exact ⟨hw, ih (fun x hx => h x (mem_of_child hn hx)) hc⟩

theorem slot_mem (h : slot S m key l r = some s) : s.1 ∈ tables S m l r := by
  induction l generalizing r with
  | zero =>
    cases h
    exact mem_singleton_self r
  | succ l ih =>
    obtain ⟨c, hn, hs⟩ := Option.bind_eq_some_iff.mp h
    exact mem_of_child hn (ih hs)

theorem entry_congr (h : ∀ x ∈ tables S m l r, m' x = m x) :
    entry S m' key l r = entry S m key l r := by
  rw [entry, entry, slot_congr h]
  cases hs : slot S m key l r with
  | none => rfl
  | some s =>
    rw [Option.map_some, Option.map_some, h s.1 (slot_mem hs)]

theorem others_congr (hr : ∀ j, j ≠ i → m' r j = m r j)
    (h : ∀ x ∈ others S m l r i, m' x = m x) : others S m' l r i = others S m l r i := by
  refine Finset.sum_congr rfl (fun j hj => ?_)
  have hji := Finset.ne_of_mem_erase hj
  rw [hr j hji]
  cases hn : S.next (m r j) with
  | none => rfl
  | some c => exact tables_congr (fun x hx => h x (mem_others hn hji hx))

/-- The tree below one index changes and the rest of it stays. -/
theorem tables_of_child_changed (hn : S.next (m r i) = some c) (hr : m' r = m r)
    (h : ∀ x ∈ others S m l r i, m' x = m x) :
    tables S m' (l + 1) r = r ::ₘ (tables S m' l c + others S m l r i) := by
  rw [tables_of_next (hr ▸ hn), others_congr (fun j _ => congrFun hr j) h]

theorem pointers_of_child_changed (hp : Pointers S P m (l + 1) r) (hn : S.next (m r i) = some c)
    (hr : m' r = m r) (h : ∀ x ∈ others S m l r i, m' x = m x) (hc : Pointers S P m' l c) :
    Pointers S P m' (l + 1) r := by
  intro j d hd
  rw [hr] at hd ⊢
  obtain ⟨hw, hj⟩ := hp j d hd
  rcases eq_or_ne j i with rfl | hji
  · rw [hn, Option.some.injEq] at hd
    exact ⟨hw, hd ▸ hc⟩
  · exact ⟨hw, pointers_congr (fun x hx => h x (mem_others hd hji hx)) hj⟩

theorem slot_of_child_changed (hn : S.next (m r i) = some c) (hr : m' r = m r)
    (h : ∀ x ∈ others S m l r i, m' x = m x) (key : Nat → ι) :
    slot S m' key (l + 1) r =
      if key (l + 1) = i then slot S m' key l c else slot S m key (l + 1) r := by
  rw [slot, slot, hr]
  by_cases hk : key (l + 1) = i
  · rw [if_pos hk, hk, hn]
    rfl
  · rw [if_neg hk]
    cases hd : S.next (m r (key (l + 1))) with
    | none => rfl
    | some d => exact slot_congr (fun x hx => h x (mem_others hd hk hx))

omit [Fintype ι] [DecidableEq ι] in
theorem slot_of_child (hn : S.next (m r (key (l + 1))) = some c) :
    slot S m key (l + 1) r = slot S m key l c := by
  rw [slot, hn]
  rfl

omit [Fintype ι] [DecidableEq ι] in
theorem entry_of_child (hn : S.next (m r (key (l + 1))) = some c) :
    entry S m key (l + 1) r = entry S m key l c := by
  rw [entry, entry, slot_of_child hn]

theorem entry_of_child_changed (hn : S.next (m r i) = some c) (hr : m' r = m r)
    (h : ∀ x ∈ others S m l r i, m' x = m x) (key : Nat → ι) :
    entry S m' key (l + 1) r =
      if key (l + 1) = i then entry S m' key l c else entry S m key (l + 1) r := by
  by_cases hk : key (l + 1) = i
  · rw [if_pos hk, entry_of_child]
    rw [hr, hk]
    exact hn
  · rw [if_neg hk]
    cases hd : S.next (m r (key (l + 1))) with
    | none => rw [entry, entry, slot, slot, hr, hd]; rfl
    | some d =>
      have hd' : S.next (m' r (key (l + 1))) = some d := hr ▸ hd
      rw [entry_of_child hd', entry_of_child hd]
      exact entry_congr (fun x hx => h x (mem_others hd hk hx))

omit [Fintype ι] [DecidableEq ι] in
/-- Only the indices at the levels of the tree matter. -/
theorem entry_key_congr (h : ∀ j ≤ l, key j = key' j) : entry S m key l r = entry S m key' l r := by
  have hs : slot S m key l r = slot S m key' l r := by
    induction l generalizing r with
    | zero => rw [slot, slot, h 0 (Nat.le_refl 0)]
    | succ l ih =>
      rw [slot, slot, h (l + 1) (Nat.le_refl _)]
      congr 1
      funext c
      exact ih (fun j hj => h j (Nat.le_succ_of_le hj))
  rw [entry, entry, hs]

/-- In a tree without sharing a slot belongs to one key. -/
theorem slot_injective (hd : (tables S m l r).Nodup) (h : slot S m key l r = some s)
    (h' : slot S m key' l r = some s) : ∀ j ≤ l, key j = key' j := by
  induction l generalizing r with
  | zero =>
    intro j hj
    cases h
    cases Nat.le_zero.mp hj
    simpa [slot, eq_comm] using h'
  | succ l ih =>
    obtain ⟨c, hc, hs⟩ := Option.bind_eq_some_iff.mp h
    obtain ⟨c', hc', hs'⟩ := Option.bind_eq_some_iff.mp h'
    rw [tables_of_next hc, nodup_cons, nodup_add] at hd
    have hk : key' (l + 1) = key (l + 1) := by
      by_contra hne
      exact disjoint_left.mp hd.2.2.2 (slot_mem hs) (mem_others hc' hne (slot_mem hs'))
    rw [hk, hc, Option.some.injEq] at hc'
    subst hc'
    intro j hj
    rcases Nat.le_succ_iff.mp hj with hj | rfl
    · exact ih hd.2.1 hs hs' j hj
    · exact hk.symm

omit [DecidableEq ι] in
theorem tables_empty (h : ∀ j, S.next (m x j) = none) (l : Nat) : tables S m l x = {x} := by
  cases l with
  | zero => rfl
  | succ l =>
    rw [tables, Finset.sum_eq_zero]
    · rfl
    · intro j _
      rw [h j]
      rfl

omit [DecidableEq ι] [Fintype ι] in
theorem slot_empty (h : ∀ j, S.next (m x j) = none) (hs : slot S m key l x = some s) :
    s.1 = x := by
  cases l with
  | zero =>
    cases hs
    rfl
  | succ l =>
    rw [slot, h] at hs
    cases hs

/-- A table without pointers is put below a free index. -/
structure Attached (S : Scheme A W ι) (m m' : A → ι → W) (r : A) (i : ι) (x : A) (w : W) :
    Prop where
  free : S.next (m r i) = none
  points : S.next w = some x
  root : m' r = update (m r) i w
  empty : ∀ j, S.next (m' x j) = none
  rest : ∀ y, y ≠ r → y ≠ x → m' y = m y

theorem Attached.others_eq (h : Attached S m m' r i x w) (hx : x ∉ tables S m (l + 1) r)
    (hd : (tables S m (l + 1) r).Nodup) : ∀ y ∈ others S m l r i, m' y = m y := by
  rw [tables_of_none h.free] at hx hd
  intro y hy
  refine h.rest y (fun he => ?_) (fun he => ?_)
  · exact (nodup_cons.mp hd).1 (he ▸ hy)
  · exact hx (mem_cons_of_mem (he ▸ hy))

omit [Fintype ι] in
theorem Attached.next_eq (h : Attached S m m' r i x w) : S.next (m' r i) = some x := by
  rw [h.root, update_self]
  exact h.points

theorem Attached.tables_eq (h : Attached S m m' r i x w) (hx : x ∉ tables S m (l + 1) r)
    (hd : (tables S m (l + 1) r).Nodup) :
    tables S m' (l + 1) r = x ::ₘ tables S m (l + 1) r := by
  have ho := others_congr (l := l) (S := S) (m := m)
    (fun j hj => by rw [h.root, update_of_ne hj]) (h.others_eq hx hd)
  rw [tables_of_next h.next_eq, tables_empty h.empty, ho, tables_of_none h.free,
    singleton_add, cons_swap]

theorem Attached.pointers (h : Attached S m m' r i x w) (hx : x ∉ tables S m (l + 1) r)
    (hd : (tables S m (l + 1) r).Nodup) (hp : Pointers S P m (l + 1) r) (hw : P w) :
    Pointers S P m' (l + 1) r := by
  have ho := h.others_eq hx hd
  intro j d hn
  rcases eq_or_ne j i with rfl | hji
  · rw [h.next_eq, Option.some.injEq] at hn
    subst hn
    rw [h.root, update_self]
    refine ⟨hw, ?_⟩
    cases l with
    | zero => trivial
    | succ l =>
      intro e f he
      rw [h.empty e] at he
      cases he
  · rw [h.root, update_of_ne hji] at hn ⊢
    obtain ⟨hj, hd'⟩ := hp j d hn
    exact ⟨hj, pointers_congr (fun y hy => ho y (mem_others hn hji hy)) hd'⟩

/-- The keys through the new table find words of that table only; the others find what they
found. -/
theorem Attached.entry_eq (h : Attached S m m' r i x w) (hx : x ∉ tables S m (l + 1) r)
    (hd : (tables S m (l + 1) r).Nodup) (key : Nat → ι) :
    entry S m' key (l + 1) r = entry S m key (l + 1) r ∨
    entry S m key (l + 1) r = none ∧ ∀ v, entry S m' key (l + 1) r = some v → ∃ j, v = m' x j := by
  have ho := h.others_eq hx hd
  by_cases hk : key (l + 1) = i
  · right
    refine ⟨?_, fun v hv => ?_⟩
    · rw [entry, slot, hk, h.free]
      rfl
    · rw [entry, slot_of_child (hk ▸ h.next_eq)] at hv
      obtain ⟨s, hs, rfl⟩ := Option.map_eq_some_iff.mp hv
      exact ⟨s.2, by rw [slot_empty h.empty hs]⟩
  · left
    rw [entry, entry, slot, slot, h.root, update_of_ne hk]
    cases hn : S.next (m r (key (l + 1))) with
    | none => rfl
    | some c => exact entry_congr (fun y hy => ho y (mem_others hn hk hy))

variable [DecidableEq A]

/-- One word of a table is written. -/
def write (m : A → ι → W) (s : A × ι) (w : W) : A → ι → W :=
  update m s.1 (update (m s.1) s.2 w)

omit [Fintype ι] in
theorem write_of_ne (h : x ≠ s.1) : write m s w x = m x := update_of_ne h ..

/-- Writing the word of a key moves no table, no pointer and no slot. -/
theorem write_slot (hd : (tables S m l r).Nodup) (h : slot S m key l r = some s) (w : W) :
    tables S (write m s w) l r = tables S m l r ∧
    (Pointers S P m l r → Pointers S P (write m s w) l r) ∧
    ∀ key', slot S (write m s w) key' l r = slot S m key' l r := by
  induction l generalizing r with
  | zero => exact ⟨rfl, id, fun _ => rfl⟩
  | succ l ih =>
    obtain ⟨c, hc, hs⟩ := Option.bind_eq_some_iff.mp h
    have hmem := slot_mem hs
    rw [tables_of_next hc, nodup_cons, nodup_add] at hd
    have hr : write m s w r = m r := by
      refine write_of_ne (fun he => hd.1 ?_)
      rw [he]
      exact mem_add.mpr (.inl hmem)
    have ho : ∀ x ∈ others S m l r (key (l + 1)), write m s w x = m x := by
      intro x hx
      refine write_of_ne (fun he => ?_)
      exact disjoint_left.mp hd.2.2.2 hmem (he ▸ hx)
    obtain ⟨ht, hp, hk⟩ := ih hd.2.1 hs
    refine ⟨?_, ?_, ?_⟩
    · rw [tables_of_child_changed hc hr ho, ht, tables_of_next hc]
    · intro hm
      exact pointers_of_child_changed hm hc hr ho (hp (hm _ c hc).2)
    · intro key'
      rw [slot_of_child_changed hc hr ho]
      split
      · rename_i he
        rw [hk, ← slot_of_child (he ▸ hc)]
      · rfl

/-- Afterwards the key has that word and the other keys have the words they had. -/
theorem entry_write (hd : (tables S m l r).Nodup) (h : slot S m key l r = some s) (w : W) :
    entry S (write m s w) key' l r =
      if slot S m key' l r = some s then some w else entry S m key' l r := by
  rw [entry, entry, (write_slot (P := fun _ => True) hd h w).2.2]
  cases hs : slot S m key' l r with
  | none => rfl
  | some s' =>
    simp only [Option.map_some, Option.some.injEq]
    by_cases he : s' = s
    · subst he
      simp [write]
    · rw [if_neg he, Option.some.injEq]
      by_cases h1 : s'.1 = s.1
      · have h2 : s'.2 ≠ s.2 := fun h2 => he (Prod.ext h1 h2)
        simp [write, h1, h2]
      · rw [write_of_ne h1]

-- Sums over a concrete index type must not be computed by unification.
attribute [irreducible] tables others

end Xv6.Lib.Radix
