import Mathlib.Algebra.BigOperators.Fin
import Mathlib.Algebra.Order.BigOperators.Group.List
import Mathlib.Data.Multiset.OrderedMonoid
import Mathlib.Tactic.IntervalCases
import Xv6.Mem.Map

namespace Xv6.Mem
open Function Lib.Radix Multiset Lib

section Layout
variable [Image]

/-- The source does not bound the depth; a page table of xv6 has three levels. -/
def freewalk : Nat → Addr → Km Unit
  | 0, _ => panic .deep
  | depth + 1, pagetable => do
    (List.finRange 512).forM (fun i => do
      let pte ← load pagetable i
      if Has pte PTE_V ∧ ¬ Has pte (PTE_R ||| PTE_W ||| PTE_X) then do
        freewalk depth (pte2pa pte)
        store pagetable i 0
      else if Has pte PTE_V then panic .leaf
      else pure ())
    kfree pagetable

def uvmfree (pagetable sz : Addr) : Km Unit :=
  if 0 < sz then do
    uvmunmap pagetable 0 (pgroundup sz / PGSIZE) true
    freewalk 3 pagetable
  else freewalk 3 pagetable

end Layout

/-- The tables below an entry. -/
def below (m : Addr → Page) (l : Nat) (w : Word) : Multiset Addr :=
  (sv39.next w).elim 0 (tables sv39 m l)

theorem tables_eq_list (m : Addr → Page) (l : Nat) (r : Addr) : tables sv39 m (l + 1) r =
    r ::ₘ ((List.finRange 512).map (fun i => below m l (m r i))).sum := by
  rw [tables_eq_sum, Fin.sum_univ_def]
  rfl

theorem pointer_no_leaf (h : pteFlags w = PTE_V) : ¬ Has w (PTE_R ||| PTE_W ||| PTE_X) := by
  intro hl
  exact flags_ne_valid (by decide) (by decide) hl h

theorem leaf_of_child (hn : sv39.next (m r i) = some c) (key : Nat → Fin 512) :
    leaf m key l c = leaf m (update key (l + 1) i) (l + 1) r := by
  have hk : sv39.next (m r (update key (l + 1) i (l + 1))) = some c := by
    rw [update_self]
    exact hn
  rw [leaf, leaf, entry_of_child hk]
  congr 1
  refine entry_key_congr (fun j hj => ?_)
  rw [update_of_ne (by omega)]

theorem leaf_congr (h : ∀ x ∈ tables sv39 m l r, m' x = m x) (key : Nat → Fin 512) :
    leaf m' key l r = leaf m key l r := by
  rw [leaf, leaf, entry_congr h]

/-- A map without entries has no valid word at the last level. -/
theorem leaf_of_lookup (h : lookup m root = fun _ => none) (key : Nat → Fin 512) :
    leaf m key 2 root = none := by
  have h0 := (key 0).isLt
  have h1 := (key 1).isLt
  have h2 := (key 2).isLt
  have hn := congrFun h ((key 0).val + 512 * (key 1).val + 262144 * (key 2).val)
  rw [lookup, if_pos (by rw [VPNS]; omega)] at hn
  rw [← hn, leaf, leaf]
  congr 1
  refine entry_key_congr (fun j hj => ?_)
  apply Fin.ext
  rw [keyOf]
  interval_cases j <;> simp <;> omega

/-- How many pages sz bytes take. -/
def pagesUp (sz : Addr) : Nat := (sz.toNat + 4095) / 4096

theorem pgroundup_pg (h : sz.toNat + 4095 < 2 ^ 64) : pgroundup sz = pg (pagesUp sz) := by
  apply BitVec.eq_of_toNat_eq
  rw [pgroundup_toNat h, pg, BitVec.toNat_ofNat, pagesUp]
  omega

section Layout
variable [Image]

/-- The state of freewalk()'s loop with the entries of L still to do. -/
structure Freeing (R : Multiset Addr) (l : Nat) (r : Addr) (k : Kmem) (L : List (Fin 512))
    (k' : Kmem) : Prop where
  nodup : L.Nodup
  owned : Owned (r ::ₘ (L.map (fun i => below k.mem l (k.mem r i))).sum + R) k'
  root : ∀ i ∈ L, k'.mem r i = k.mem r i
  below : ∀ i ∈ L, ∀ y ∈ below k.mem l (k.mem r i), k'.mem y = k.mem y
  keeps : Keeps R k k'

/-- The subtree of the first entry is gone, its entry is cleared. -/
theorem Freeing.next (h : Freeing R l r k (i :: L) k1)
    (ho : Owned (r ::ₘ (L.map (fun i => Mem.below k.mem l (k.mem r i))).sum + R) k2)
    (hk : Keeps (r ::ₘ (L.map (fun i => Mem.below k.mem l (k.mem r i))).sum + R) k1 k2) :
    Freeing R l r k L (k2.put r (update (k2.mem r) i 0)) := by
  have hr : r ∈ r ::ₘ (L.map (fun i => Mem.below k.mem l (k.mem r i))).sum + R :=
    mem_add.mpr (.inl (mem_cons_self _ _))
  have hnd := ho.nodup
  rw [cons_add, nodup_cons] at hnd
  obtain ⟨hi, hL⟩ := List.nodup_cons.mp h.nodup
  refine ⟨hL, ho.put hr _, fun j hj => ?_, fun j hj y hy => ?_, fun y hy => ?_⟩
  · have hji : j ≠ i := fun he => hi (he ▸ hj)
    rw [put_self, update_of_ne hji, hk r hr, h.root j (List.mem_cons_of_mem _ hj)]
  · have hsum : y ∈ (L.map (fun i => Mem.below k.mem l (k.mem r i))).sum := by
      refine mem_of_le (List.single_le_sum (by simp) _ ?_) hy
      exact List.mem_map.mpr ⟨j, hj, rfl⟩
    have hyr : y ≠ r := fun he => hnd.1 (mem_add.mpr (.inl (he ▸ hsum)))
    rw [put_of_ne _ _ hyr, hk y (mem_add.mpr (.inl (mem_cons_of_mem hsum))),
      h.below j (List.mem_cons_of_mem _ hj) y hy]
  · have hyr : y ≠ r := fun he => hnd.1 (mem_add.mpr (.inr (he ▸ hy)))
    rw [put_of_ne _ _ hyr, hk y (mem_add.mpr (.inr hy)), h.keeps y hy]

theorem Freeing.skip (h : Freeing R l r k (i :: L) k') (hn : sv39.next (k.mem r i) = none) :
    Freeing R l r k L k' := by
  have ho := h.owned
  rw [List.map_cons, List.sum_cons, Mem.below, hn, Option.elim_none, zero_add] at ho
  exact ⟨(List.nodup_cons.mp h.nodup).2, ho, fun j hj => h.root j (List.mem_cons_of_mem _ hj),
    fun j hj => h.below j (List.mem_cons_of_mem _ hj), h.keeps⟩

theorem freewalk_ends (ho : Owned (tables sv39 k.mem l r + R) k) (hp : PointersOk k.mem l r)
    (hl : ∀ key, leaf k.mem key l r = none) (hd : l < depth) :
    Ends (freewalk depth r) k (fun _ k' => Owned R k' ∧ Keeps R k k') := by
  induction l generalizing r k R depth with
  | zero =>
    obtain ⟨depth, rfl⟩ : ∃ d, depth = d + 1 := ⟨depth - 1, by omega⟩
    have hinv : ∀ i, ¬ Has (k.mem r i) PTE_V := by
      intro i hv
      have := hl (fun _ => i)
      simp [leaf, entry, slot, hv] at this
    rw [freewalk]
    refine (Ends.forM (fun _ k' => k' = k) (fun i L k' hk => ?_) rfl).bind (fun _ k' hk => ?_)
    · rw [hk, ends_bind, ends_load, if_neg (fun h => hinv i h.1), if_neg (hinv i), ends_pure]
    · subst hk
      rw [tables_zero, singleton_add] at ho
      exact (kfree_keeps ho).mono (fun _ k' h => ⟨h.2, h.1⟩)
  | succ l ih =>
    obtain ⟨depth, rfl⟩ : ∃ d, depth = d + 1 := ⟨depth - 1, by omega⟩
    have hstart : Freeing R l r k (List.finRange 512) k :=
      ⟨List.nodup_finRange 512, tables_eq_list k.mem l r ▸ ho, fun _ _ => rfl, fun _ _ _ _ => rfl,
        fun _ _ => rfl⟩
    rw [freewalk]
    refine (Ends.forM (Freeing R l r k) (fun i L k1 h => ?_) hstart).bind (fun _ k1 h => ?_)
    · have hroot := h.root i List.mem_cons_self
      rw [ends_bind, ends_load, hroot]
      cases hn : sv39.next (k.mem r i) with
      | none =>
        have hv := next_eq_none.mp hn
        rw [if_neg (fun h => hv h.1), if_neg hv, ends_pure]
        exact h.skip hn
      | some c =>
        obtain ⟨hv, rfl⟩ := next_eq_some.mp hn
        obtain ⟨hw, hc⟩ := hp i _ hn
        have hb : below k.mem l (k.mem r i) = tables sv39 k.mem l (pte2pa (k.mem r i)) := by
          rw [below, hn]
          rfl
        have hsame : ∀ y ∈ tables sv39 k.mem l (pte2pa (k.mem r i)), k1.mem y = k.mem y := by
          rw [← hb]
          exact h.below i List.mem_cons_self
        have hown := h.owned
        rw [List.map_cons, List.sum_cons, hb, cons_add_left, ← tables_congr hsame] at hown
        rw [if_pos ⟨hv, pointer_no_leaf hw⟩, ends_bind]
        refine (ih hown (pointers_congr hsame hc) (fun key => ?_) (by omega)).mono
          (fun _ k2 h2 => ?_)
        · rw [leaf_congr hsame, leaf_of_child hn]
          exact hl _
        · rw [ends_store]
          exact h.next h2.1 h2.2
    · have hown := h.owned
      rw [List.map_nil, List.sum_nil, cons_add, zero_add] at hown
      exact (kfree_keeps hown).mono (fun _ k' hk => ⟨hk.2, h.keeps.trans hk.1⟩)

/-- A page table without entries gives all its pages back. -/
theorem PageTable.freewalk (hp : PageTable R root (fun _ => none) k) :
    Ends (freewalk 3 root) k (fun _ k' => Owned R k' ∧ Keeps R k k') :=
  freewalk_ends hp.owned hp.pointers (leaf_of_lookup hp.map) (by omega)

/-- The user pages are given back and then the page table. -/
theorem PageTable.uvmfree (hp : PageTable (pagesOf f 0 (pagesUp sz) + R) root f k)
    (hn : pagesUp sz ≤ USERPAGES)
    (hl : ∀ i < pagesUp sz, ∃ w, f i = some w ∧ pteFlags w ≠ PTE_V)
    (hr : ∀ i, pagesUp sz ≤ i → f i = none) :
    Ends (uvmfree root sz) k (fun _ k' => Owned R k' ∧ Keeps R k k') := by
  have hnone : unmapped f 0 (pagesUp sz) = fun _ => none := by
    funext i
    rw [unmapped]
    split
    · rfl
    · exact hr i (by omega)
  rw [Mem.uvmfree, ends_ite]
  by_cases h0 : (0 : Addr) < sz
  · have hsz : sz.toNat + 4095 < 2 ^ 64 := by
      rw [pagesUp, USERPAGES] at hn
      omega
    have hpages : (pgroundup sz / PGSIZE).toNat = pagesUp sz := by
      rw [BitVec.toNat_udiv, pgroundup_toNat hsz, pgsize_toNat, pagesUp]
      omega
    rw [if_pos h0, ends_bind]
    have hu : PageTable (freed true f 0 (pagesUp sz) + R) root f k := hp
    refine (hu.uvmunmap hpages (by omega) (fun i _ hi => hl i (by omega))).mono (fun _ k1 h1 => ?_)
    rw [hnone] at h1
    exact h1.1.freewalk.mono (fun _ k2 h2 => ⟨h2.1, h1.2.trans h2.2⟩)
  · have hz : pagesUp sz = 0 := by
      rw [BitVec.lt_def] at h0
      rw [pagesUp]
      simp at h0
      simp [h0]
    rw [if_neg h0]
    rw [hz, pagesOf_zero, zero_add] at hp
    rw [hz, unmapped_zero] at hnone
    exact (hnone ▸ hp).freewalk

end Layout

end Xv6.Mem
