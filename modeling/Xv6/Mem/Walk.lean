import Xv6.Lib.Radix
import Xv6.Mem.Phys

namespace Xv6.Mem
open Lib.Radix Multiset Lib

/-- A valid entry of a page table above the last level points to a table. -/
def sv39 : Scheme Addr Word (Fin 512) := ⟨fun w => if Has w PTE_V then some (pte2pa w) else none⟩

/-- The loop of walk(). -/
def walkFrom (va : Addr) (alloc : Bool) : Nat → Addr → Km (Option (Addr × Fin 512))
  | 0, pagetable => pure (some (pagetable, px 0 va))
  | level + 1, pagetable => do
    let pte ← load pagetable (px (level + 1) va)
    if Has pte PTE_V then walkFrom va alloc level (pte2pa pte)
    else if alloc = false then pure none
    else
      match ← kalloc with
      | none => pure none
      | some x => do
        setPage x 0
        store pagetable (px (level + 1) va) (pa2pte x ||| PTE_V)
        walkFrom va alloc level x

/-- The slot of the PTE for va: a page and the index in it. -/
def walk (pagetable va : Addr) (alloc : Bool) : Km (Option (Addr × Fin 512)) :=
  if MAXVA ≤ va then panic .walk else walkFrom va alloc 2 pagetable

/-- The valid entry that a key leads to. -/
def leaf (m : Addr → Page) (key : Nat → Fin 512) (l : Nat) (r : Addr) : Option Word :=
  (entry sv39 m key l r).filter (fun w => Has w PTE_V)

/-- The entries above the last level are valid and have no other flag. -/
abbrev PointersOk (m : Addr → Page) (l : Nat) (r : Addr) : Prop :=
  Pointers sv39 (fun w => pteFlags w = PTE_V) m l r

theorem next_eq_some : sv39.next w = some c ↔ Has w PTE_V ∧ pte2pa w = c := by
  by_cases h : Has w PTE_V <;> simp [sv39, h]

theorem next_eq_none : sv39.next w = none ↔ ¬ Has w PTE_V := by
  by_cases h : Has w PTE_V <;> simp [sv39, h]

theorem next_zero : sv39.next 0 = none := rfl

theorem has_pointer (x : Addr) : Has (pa2pte x ||| PTE_V) PTE_V := has_or.mpr (.inr (by decide))

theorem mkPte_zero (x : Addr) : mkPte x 0 = pa2pte x ||| PTE_V := by
  simp [mkPte]

theorem next_pointer (h : x.toNat % 4096 = 0) : sv39.next (pa2pte x ||| PTE_V) = some x := by
  refine next_eq_some.mpr ⟨has_pointer x, ?_⟩
  rw [← mkPte_zero]
  exact pte2pa_mkPte h (by decide)

theorem flags_pointer (h : x.toNat % 4096 = 0) : pteFlags (pa2pte x ||| PTE_V) = PTE_V := by
  rw [← mkPte_zero, pteFlags_mkPte h (by decide)]
  rfl

theorem walkFrom_read : Ends (walkFrom va false l r) k Q ↔
    Q (slot sv39 k.mem (fun level => px level va) l r) k := by
  induction l generalizing r with
  | zero => exact ends_pure
  | succ l ih =>
    rw [walkFrom, ends_bind, ends_load, ends_ite, slot]
    by_cases h : Has (k.mem r (px (l + 1) va)) PTE_V
    · rw [if_pos h, ih, next_eq_some.mpr ⟨h, rfl⟩]
      rfl
    · rw [if_neg h, if_pos rfl, ends_pure, next_eq_none.mpr h]
      rfl

theorem cons_add_left (r : Addr) (T O R : Multiset Addr) :
    r ::ₘ (T + O) + R = T + (r ::ₘ O + R) := by
  rw [cons_add, cons_add, add_cons, add_assoc]

section Layout
variable [Image]

/-- From k to k' the tree at r may have got more tables, and nothing else has happened to it or to
the pages of R. -/
structure Grown (R : Multiset Addr) (l : Nat) (r : Addr) (k k' : Kmem) : Prop where
  owned : Owned (tables sv39 k'.mem l r + R) k'
  pointers : PointersOk k'.mem l r
  leaf : ∀ key, leaf k'.mem key l r = leaf k.mem key l r
  keeps : Keeps R k k'

theorem Grown.refl (ho : Owned (tables sv39 k.mem l r + R) k) (hp : PointersOk k.mem l r) :
    Grown R l r k k := ⟨ho, hp, fun _ => rfl, fun _ _ => rfl⟩

theorem Grown.trans (h : Grown R l r k k') (h' : Grown R l r k' k'') : Grown R l r k k'' :=
  ⟨h'.owned, h'.pointers, fun key => (h'.leaf key).trans (h.leaf key), h.keeps.trans h'.keeps⟩

/-- A subtree is one part of the tree; its root's table and the other subtrees are in the frame. -/
theorem owned_child (hn : sv39.next (k.mem r i) = some c)
    (ho : Owned (tables sv39 k.mem (l + 1) r + R) k) :
    Owned (tables sv39 k.mem l c + (r ::ₘ others sv39 k.mem l r i + R)) k := by
  rw [tables_of_next hn, cons_add_left] at ho
  exact ho

theorem Grown.child (hn : sv39.next (k.mem r i) = some c) (hp : PointersOk k.mem (l + 1) r)
    (hg : Grown (r ::ₘ others sv39 k.mem l r i + R) l c k k') : Grown R (l + 1) r k k' := by
  have hr : k'.mem r = k.mem r :=
    hg.keeps r (mem_add.mpr (.inl (mem_cons_self _ _)))
  have ho : ∀ x ∈ others sv39 k.mem l r i, k'.mem x = k.mem x := fun x hx =>
    hg.keeps x (mem_add.mpr (.inl (mem_cons_of_mem hx)))
  refine ⟨?_, pointers_of_child_changed hp hn hr ho hg.pointers, fun key => ?_, fun y hy => ?_⟩
  · rw [tables_of_child_changed hn hr ho, cons_add_left]
    exact hg.owned
  · rw [Mem.leaf, entry_of_child_changed hn hr ho]
    by_cases hk : key (l + 1) = i
    · rw [if_pos hk, Mem.leaf, entry_of_child (hk ▸ hn)]
      exact hg.leaf key
    · rw [if_neg hk]
      rfl
  · exact hg.keeps y (mem_add.mpr (.inr hy))

/-- walk() hangs a fresh, zeroed page below an invalid entry. -/
theorem Grown.attach (hn : sv39.next (k.mem r i) = none)
    (ho : Owned (x ::ₘ (tables sv39 k.mem (l + 1) r + R)) k') (hk : ∀ y, y ≠ x → k'.mem y = k.mem y)
    (hp : PointersOk k.mem (l + 1) r)
    (he : k'' = (k'.put x 0).put r (Function.update ((k'.put x 0).mem r) i (pa2pte x ||| PTE_V))) :
    Grown R (l + 1) r k k'' ∧ sv39.next (k''.mem r i) = some x := by
  have hx := page_aligned (ho.mem_pages (mem_cons_self _ _))
  have hnd := nodup_cons.mp ho.nodup
  have hxt : x ∉ tables sv39 k.mem (l + 1) r := fun h => hnd.1 (mem_add.mpr (.inl h))
  have hd : (tables sv39 k.mem (l + 1) r).Nodup := (nodup_add.mp hnd.2).1
  have hrx : r ≠ x := fun h => hxt (h ▸ root_mem)
  have hother : ∀ y, y ≠ r → y ≠ x → k''.mem y = k.mem y := by
    intro y hyr hyx
    rw [he, put_of_ne _ _ hyr, put_of_ne _ _ hyx, hk y hyx]
  have hat : Attached sv39 k.mem k''.mem r i x (pa2pte x ||| PTE_V) := by
    refine ⟨hn, next_pointer hx, ?_, ?_, hother⟩
    · rw [he, put_self, put_of_ne _ _ hrx, hk r hrx]
    · intro j
      rw [he, put_of_ne _ _ hrx.symm, put_self]
      exact next_zero
  refine ⟨⟨?_, hat.pointers hxt hd hp (flags_pointer hx), fun key => ?_, fun y hy => ?_⟩,
    hat.next_eq⟩
  · rw [hat.tables_eq hxt hd, cons_add, he]
    refine (ho.put (mem_cons_self _ _) _).put ?_ _
    exact mem_cons_of_mem (mem_add.mpr (.inl root_mem))
  · rcases hat.entry_eq hxt hd key with hsame | ⟨hnone, hnew⟩
    · rw [Mem.leaf, hsame]
      rfl
    · rw [Mem.leaf, Mem.leaf, hnone]
      cases hv : entry sv39 k''.mem key (l + 1) r with
      | none => rfl
      | some v =>
        obtain ⟨j, rfl⟩ := hnew v hv
        have hz := next_eq_none.mp (hat.empty j)
        simp [hz]
  · refine hother y (fun hyr => ?_) (fun hyx => ?_)
    · exact disjoint_left.mp (nodup_add.mp hnd.2).2.2 root_mem (hyr ▸ hy)
    · exact hnd.1 (mem_add.mpr (.inr (hyx ▸ hy)))

theorem walkFrom_ends (va : Addr) (ho : Owned (tables sv39 k.mem l r + R) k)
    (hp : PointersOk k.mem l r) :
    Ends (walkFrom va true l r) k (fun s k' => Grown R l r k k' ∧
      ∀ t, s = some t → slot sv39 k'.mem (fun level => px level va) l r = some t) := by
  induction l generalizing r k R with
  | zero =>
    refine ends_pure.mpr ⟨.refl ho hp, ?_⟩
    intro t ht
    exact ht
  | succ l ih =>
    have hdown : ∀ c k R, sv39.next (k.mem r (px (l + 1) va)) = some c →
        Owned (tables sv39 k.mem (l + 1) r + R) k → PointersOk k.mem (l + 1) r →
        Ends (walkFrom va true l c) k (fun s k' => Grown R (l + 1) r k k' ∧
          ∀ t, s = some t → slot sv39 k'.mem (fun level => px level va) (l + 1) r = some t) := by
      intro c k R hn ho hp
      refine (ih (owned_child hn ho) (hp _ c hn).2).mono (fun s k' h => ?_)
      refine ⟨h.1.child hn hp, fun t ht => ?_⟩
      have hr := h.1.keeps r (mem_add.mpr (.inl (mem_cons_self _ _)))
      rw [slot_of_child (hr ▸ hn)]
      exact h.2 t ht
    rw [walkFrom, ends_bind, ends_load, ends_ite]
    by_cases hv : Has (k.mem r (px (l + 1) va)) PTE_V
    · rw [if_pos hv]
      exact hdown _ k R (next_eq_some.mpr ⟨hv, rfl⟩) ho hp
    rw [if_neg hv, if_neg (by decide)]
    refine (kalloc_ends ho).bind (fun s k' h => ?_)
    cases s with
    | none =>
      refine ends_pure.mpr
        ⟨⟨h.2 ▸ h.1, h.2 ▸ hp, fun key => by rw [h.2], fun y _ => by rw [h.2]⟩, ?_⟩
      intro t ht
      cases ht
    | some x =>
      simp only [ends_bind, ends_setPage, ends_store]
      obtain ⟨hg, hn⟩ := Grown.attach (next_eq_none.mpr hv) h.1 h.2 hp rfl
      refine (hdown x _ R hn hg.owned hg.pointers).mono (fun s k'' h' => ?_)
      exact ⟨hg.trans h'.1, h'.2⟩

end Layout

end Xv6.Mem
