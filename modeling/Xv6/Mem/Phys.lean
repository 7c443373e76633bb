import Mathlib.Data.Multiset.Basic
import Xv6.Lib.Prog
import Xv6.Lib.Tally
import Xv6.Mem.Pte

namespace Xv6.Mem
open Function Multiset Lib

/-- What the linker decides: the first address after the kernel and the page with the code of the
trampoline. -/
class Image where
  kend : Addr
  trampoline : Addr
  kend_ge : KERNBASE.toNat ≤ kend.toNat
  kend_le : kend.toNat ≤ PHYSTOP.toNat
  trampoline_aligned : trampoline.toNat % 4096 = 0

/-- Physical memory and its allocator. The free pages are chained through their first words. `luck`
says of each coming kalloc() whether it may succeed; it is not in the source. -/
structure Kmem where
  mem : Addr → Page
  freelist : Addr
  luck : Nat → Bool

/-- The calls of panic() in kalloc.c, vm.c and exec.c, and the first one of exit(). -/
inductive Panic where
  | kfree
  | walk
  | mapVa
  | mapSize
  | mapZero
  | remap
  | unmapAlign
  | unmapWalk
  | notMapped
  | notLeaf
  | copyPte
  | copyPresent
  | clear
  | leaf
  | first
  | loadseg
  /-- freewalk() goes on below the third level. -/
  | deep
  /-- A loop goes round more than LOOPS times. -/
  | endless
  | initExiting
  deriving DecidableEq

abbrev Km := Prog Kmem Panic

def Kmem.put (k : Kmem) (x : Addr) (p : Page) : Kmem :=
  { k with mem := update k.mem x p }

def load (x : Addr) (i : Fin 512) : Km Word := fun k => .ok (k.mem x i, k)

def store (x : Addr) (i : Fin 512) (w : Word) : Km Unit :=
  fun k => .ok ((), k.put x (update (k.mem x) i w))

/-- memset() and memmove() of a whole page. -/
def setPage (x : Addr) (p : Page) : Km Unit := fun k => .ok ((), k.put x p)

def getPage (x : Addr) : Km Page := fun k => .ok (k.mem x, k)

def panic (e : Panic) : Km α := fun _ => .error e

def kalloc : Km (Option Addr) := fun k =>
  let k' := { k with luck := fun n => k.luck (n + 1) }
  if k.luck 0 = false ∨ k.freelist = 0 then .ok (none, k')
  else
    .ok (some k.freelist,
      { k' with freelist := k.mem k.freelist 0 }.put k.freelist (fun _ => 0x0505050505050505))

/-- The free list as it lies in memory. -/
inductive Chain (m : Addr → Page) : Addr → List Addr → Prop where
  | nil : Chain m 0 []
  | cons (x : Addr) (l : List Addr) (ne : x ≠ 0) (tail : Chain m (m x 0) l) : Chain m x (x :: l)

theorem Chain.head (h : Chain m x l) (hx : x ≠ 0) :
    ∃ l', l = x :: l' ∧ Chain m (m x 0) l' := by
  cases h with
  | nil => exact absurd rfl hx
  | cons x l ne tail => exact ⟨l, rfl, tail⟩

theorem Chain.unique (h : Chain m x l) (h' : Chain m x l') : l = l' := by
  induction h generalizing l' with
  | nil =>
    cases h' with
    | nil => rfl
    | cons x l ne tail => exact absurd rfl ne
  | cons x l ne tail ih =>
    obtain ⟨l'', rfl, ht⟩ := h'.head ne
    rw [ih ht]

theorem Chain.congr {l : List Addr} (h : Chain m x l) (hm : ∀ y ∈ l, m' y = m y) :
    Chain m' x l := by
  induction h with
  | nil => exact .nil
  | cons x l ne tail ih =>
    refine .cons x l ne ?_
    rw [hm x List.mem_cons_self]
    exact ih (fun y hy => hm y (List.mem_cons_of_mem x hy))

/-- The pages of R are as before. -/
def Keeps (R : Multiset Addr) (k k' : Kmem) : Prop := ∀ y ∈ R, k'.mem y = k.mem y

theorem Keeps.trans (h : Keeps R k k') (h' : Keeps R k' k'') : Keeps R k k'' :=
  fun y hy => (h' y hy).trans (h y hy)

theorem Keeps.mono (h : Keeps R k k') (hs : S ≤ R) : Keeps S k k' :=
  fun y hy => h y (mem_of_le hs hy)

@[simp]
theorem ends_load : Ends (load x i) k Q ↔ Q (k.mem x i) k := by
  constructor
  · intro h
    obtain ⟨w, k', hr, hq⟩ := h
    cases hr
    exact hq
  · intro h
    exact ⟨_, _, rfl, h⟩

@[simp]
theorem ends_getPage : Ends (getPage x) k Q ↔ Q (k.mem x) k := by
  constructor
  · intro h
    obtain ⟨p, k', hr, hq⟩ := h
    cases hr
    exact hq
  · intro h
    exact ⟨_, _, rfl, h⟩

@[simp]
theorem ends_store :
    Ends (store x i w) k Q ↔ Q () (k.put x (update (k.mem x) i w)) := by
  constructor
  · intro h
    obtain ⟨u, k', hr, hq⟩ := h
    cases hr
    exact hq
  · intro h
    exact ⟨_, _, rfl, h⟩

@[simp]
theorem ends_setPage : Ends (setPage x p) k Q ↔ Q () (k.put x p) := by
  constructor
  · intro h
    obtain ⟨u, k', hr, hq⟩ := h
    cases hr
    exact hq
  · intro h
    exact ⟨_, _, rfl, h⟩

theorem endsOr_load {f : Word → Km α} (h : EndsOr (f (k.mem x i)) k E Q) :
    EndsOr (load x i >>= f) k E Q := by
  refine .bind (Q := fun w t => w = k.mem x i ∧ t = k) ⟨_, _, rfl, rfl, rfl⟩ ?_
  intro w t hw
  rw [hw.1, hw.2]
  exact h

theorem endsOr_store {f : Unit → Km α}
    (h : EndsOr (f ()) (k.put x (update (k.mem x) i w)) E Q) :
    EndsOr (store x i w >>= f) k E Q := by
  refine .bind (Q := fun _ t => t = k.put x (update (k.mem x) i w)) ⟨_, _, rfl, rfl⟩ ?_
  intro _ t ht
  rw [ht]
  exact h

@[simp]
theorem put_self (k : Kmem) (x : Addr) (p : Page) : (k.put x p).mem x = p :=
  update_self ..

@[simp]
theorem put_of_ne (k : Kmem) (p : Page) (h : y ≠ x) : (k.put x p).mem y = k.mem y :=
  update_of_ne h ..

section Layout
variable [Image]

def kfree (pa : Addr) : Km Unit := fun k =>
  if pa % PGSIZE ≠ 0 ∨ pa < Image.kend ∨ PHYSTOP ≤ pa then .error .kfree
  else
    .ok ((), { k with freelist := pa }.put pa
      (update (fun _ => 0x0101010101010101) 0 k.freelist))

/-- The pages that freerange() gives to the allocator. -/
def pageCount : Nat := (PHYSTOP.toNat - (pgroundup Image.kend).toNat) / 4096

def pageAt (i : Nat) : Addr := BitVec.ofNat 64 ((pgroundup Image.kend).toNat + 4096 * i)

def pages : Multiset Addr := ((List.range pageCount).map pageAt : List Addr)

theorem pgroundup_kend :
    (pgroundup Image.kend).toNat = (Image.kend.toNat + 4095) / 4096 * 4096 := by
  have := Image.kend_le
  have hs : PHYSTOP.toNat = 2281701376 := by decide
  exact pgroundup_toNat (by omega)

theorem pageAt_toNat (h : i < pageCount) :
    (pageAt i).toNat = (pgroundup Image.kend).toNat + 4096 * i := by
  have hs : PHYSTOP.toNat = 2281701376 := by decide
  rw [pageCount] at h
  rw [pageAt, BitVec.toNat_ofNat]
  omega

theorem mem_pages {x : Addr} : x ∈ pages ↔
    x.toNat % 4096 = 0 ∧ Image.kend.toNat ≤ x.toNat ∧ x.toNat < PHYSTOP.toNat := by
  have hr := pgroundup_kend
  have hs : PHYSTOP.toNat = 2281701376 := by decide
  rw [pages, mem_coe, List.mem_map]
  constructor
  · intro h
    obtain ⟨i, hi, rfl⟩ := h
    rw [List.mem_range] at hi
    rw [pageAt_toNat hi]
    rw [pageCount] at hi
    omega
  · intro h
    have hi : (x.toNat - (pgroundup Image.kend).toNat) / 4096 < pageCount := by
      rw [pageCount]
      omega
    refine ⟨_, List.mem_range.mpr hi, ?_⟩
    apply BitVec.eq_of_toNat_eq
    rw [pageAt_toNat hi]
    omega

theorem nodup_pages : pages.Nodup := by
  rw [pages, coe_nodup]
  refine List.Nodup.map_on ?_ List.nodup_range
  intro i hi j hj he
  have := congrArg BitVec.toNat he
  rw [pageAt_toNat (List.mem_range.mp hi), pageAt_toNat (List.mem_range.mp hj)] at this
  omega

theorem card_pages : pages.card ≤ 32768 := by
  have := Image.kend_ge
  have hr := pgroundup_kend
  have hk : KERNBASE.toNat = 2147483648 := by decide
  have hs : PHYSTOP.toNat = 2281701376 := by decide
  simp only [pages, coe_card, List.length_map, List.length_range, pageCount]
  omega

theorem page_aligned {x : Addr} (h : x ∈ pages) : x.toNat % 4096 = 0 := (mem_pages.mp h).1

theorem page_ne_zero {x : Addr} (h : x ∈ pages) : x ≠ 0 := by
  intro he
  have hk : KERNBASE.toNat = 2147483648 := by decide
  have := (mem_pages.mp h).2.1
  have := Image.kend_ge
  rw [he] at *
  simp at *
  omega

/-- Every page the allocator was given is free or counted in R, once. -/
def Owned (R : Multiset Addr) (k : Kmem) : Prop :=
  ∃ l, Chain k.mem k.freelist l ∧ (l : Multiset Addr) + R = pages

theorem Owned.nodup (h : Owned R k) : R.Nodup := by
  obtain ⟨l, -, he⟩ := h
  exact (nodup_add.mp (he ▸ nodup_pages)).2.1

/-- The page is on the free list. -/
def Kmem.Free (k : Kmem) (x : Addr) : Prop := ∃ l, Chain k.mem k.freelist l ∧ x ∈ l

theorem Owned.free_iff (h : Owned R k) : k.Free x ↔ x ∈ pages ∧ x ∉ R := by
  obtain ⟨l, hc, he⟩ := h
  have hd := (nodup_add.mp (he ▸ nodup_pages)).2.2
  constructor
  · intro hf
    obtain ⟨l', hc', hx⟩ := hf
    rw [hc'.unique hc] at hx
    rw [← he]
    exact ⟨mem_add.mpr (.inl hx), disjoint_left.mp hd hx⟩
  · intro hx
    rw [← he] at hx
    exact ⟨l, hc, (mem_add.mp hx.1).resolve_right hx.2⟩

theorem Owned.mem_pages (h : Owned R k) (hx : x ∈ R) : x ∈ pages := by
  obtain ⟨l, -, he⟩ := h
  rw [← he]
  exact mem_add.mpr (.inr hx)

/-- Writing to a page in use does not touch the free list. -/
theorem Owned.put (h : Owned R k) (hx : x ∈ R) (p : Page) : Owned R (k.put x p) := by
  obtain ⟨l, hc, he⟩ := h
  refine ⟨l, hc.congr (fun y hy => ?_), he⟩
  have hd := (nodup_add.mp (he ▸ nodup_pages)).2.2
  have hne : y ≠ x := by
    intro hyx
    exact disjoint_left.mp hd (mem_coe.mpr hy) (hyx ▸ hx)
  exact update_of_ne hne _ _

theorem kalloc_ends (h : Owned R k) : Ends kalloc k (fun r k' =>
    match r with
    | none => Owned R k' ∧ k'.mem = k.mem
    | some x => Owned (x ::ₘ R) k' ∧ ∀ y, y ≠ x → k'.mem y = k.mem y) := by
  obtain ⟨l, hc, he⟩ := h
  by_cases hl : k.luck 0 = false ∨ k.freelist = 0
  · exact ⟨none, _, if_pos hl, ⟨l, hc, he⟩, rfl⟩
  refine ⟨some k.freelist, _, if_neg hl, ?_, ?_⟩
  · obtain ⟨l, rfl, tail⟩ := hc.head (not_or.mp hl).2
    have hd : k.freelist ∉ l := by
      have := coe_nodup.mp (nodup_add.mp (he ▸ nodup_pages)).1
      exact (List.nodup_cons.mp this).1
    refine ⟨l, tail.congr (fun y hy => ?_), ?_⟩
    · exact put_of_ne _ _ (fun hyx => hd (hyx ▸ hy))
    · rw [← he, ← cons_coe, cons_add, add_cons]
  · intro y hy
    exact put_of_ne _ _ hy

theorem kfree_ends (h : Owned (x ::ₘ R) k) : Ends (kfree x) k (fun _ k' =>
    Owned R k' ∧ ∀ y, y ≠ x → k'.mem y = k.mem y) := by
  have hx := h.mem_pages (mem_cons_self x R)
  obtain ⟨ha, hlo, hhi⟩ := mem_pages.mp hx
  have hok : ¬ (x % PGSIZE ≠ 0 ∨ x < Image.kend ∨ PHYSTOP ≤ x) := by
    rw [BitVec.lt_def, BitVec.le_def, not_or, not_or, not_not]
    refine ⟨BitVec.eq_of_toNat_eq ?_, by omega, by omega⟩
    rw [BitVec.toNat_umod]
    exact ha
  obtain ⟨l, hc, he⟩ := h
  refine ⟨(), _, if_neg hok, ⟨x :: l, ?_, ?_⟩, ?_⟩
  · have hd : x ∉ l := by
      have hn := (nodup_add.mp (he ▸ nodup_pages)).2.2
      intro hm
      exact disjoint_left.mp hn (mem_coe.mpr hm) (mem_cons_self x R)
    refine .cons x l (page_ne_zero hx) ?_
    rw [put_self, update_self]
    exact hc.congr (fun y hy => put_of_ne _ _ (fun hyx => hd (hyx ▸ hy)))
  · rw [← he, ← cons_coe, cons_add, add_cons]
  · intro y hy
    exact put_of_ne _ _ hy

/-- A page from kalloc() or for kfree() is none of the others in use. -/
theorem Owned.keeps (h : Owned (x ::ₘ R) k0) (hm : ∀ y, y ≠ x → k'.mem y = k.mem y) :
    Keeps R k k' := by
  have hx := (nodup_cons.mp h.nodup).1
  exact fun y hy => hm y (fun he => hx (he ▸ hy))

theorem kalloc_keeps (h : Owned R k) : Ends kalloc k (fun r k' => Keeps R k k' ∧
    match r with
    | none => Owned R k'
    | some x => Owned (x ::ₘ R) k') := by
  refine (kalloc_ends h).mono (fun r k' hk => ?_)
  cases r with
  | none => exact ⟨fun y _ => by rw [hk.2], hk.1⟩
  | some x => exact ⟨hk.1.keeps hk.2, hk.1⟩

theorem kfree_keeps (h : Owned (x ::ₘ R) k) :
    Ends (kfree x) k (fun _ k' => Keeps R k k' ∧ Owned R k') :=
  (kfree_ends h).mono (fun _ _ hk => ⟨h.keeps hk.2, hk.1⟩)

/-- No loop over the pages of an address space goes round more often. -/
def LOOPS : Nat := 2 ^ 52

def freerange (paEnd : Addr) : Nat → Addr → Km Unit
  | 0, _ => pure ()
  | n + 1, p =>
    if p + PGSIZE ≤ paEnd then do
      kfree p
      freerange paEnd n (p + PGSIZE)
    else pure ()

def kinit : Km Unit := freerange PHYSTOP LOOPS (pgroundup Image.kend)

theorem freerange_ends (hi : i + c = pageCount) (hf : c ≤ fuel)
    (h : Owned ((List.range' i c).map pageAt : List Addr) k) :
    Ends (freerange PHYSTOP fuel (pageAt i)) k (fun _ k' => Owned 0 k') := by
  induction fuel generalizing i c k with
  | zero =>
    obtain rfl : c = 0 := by omega
    exact ends_pure.mpr h
  | succ fuel ih =>
    have hr := pgroundup_kend
    have := Image.kend_le
    have hs : PHYSTOP.toNat = 2281701376 := by decide
    have hc : pageCount = (PHYSTOP.toNat - (pgroundup Image.kend).toNat) / 4096 := rfl
    have ha : (pageAt i + PGSIZE).toNat = (pgroundup Image.kend).toNat + 4096 * (i + 1) := by
      rw [BitVec.toNat_add, pageAt, BitVec.toNat_ofNat, pgsize_toNat]
      omega
    rw [freerange, ends_ite]
    cases c with
    | zero =>
      rw [if_neg]
      · exact ends_pure.mpr h
      · rw [BitVec.le_def, ha]
        omega
    | succ c =>
      have hnext : pageAt i + PGSIZE = pageAt (i + 1) := by
        apply BitVec.eq_of_toNat_eq
        rw [ha, pageAt, BitVec.toNat_ofNat]
        omega
      rw [if_pos, ends_bind]
      · have h' : Owned (pageAt i ::ₘ ((List.range' (i + 1) c).map pageAt : List Addr)) k := h
        refine (kfree_ends h').mono (fun _ k' hk => ?_)
        rw [hnext]
        exact ih (by omega) (by omega) hk.1
      · rw [BitVec.le_def, ha]
        omega

/-- kinit() puts every page on the free list. -/
theorem kinit_ends (h : k.freelist = 0) : Ends kinit k (fun _ k' => Owned 0 k') := by
  have hstart : pgroundup Image.kend = pageAt 0 := by
    rw [pageAt]
    simp
  have hown : Owned ((List.range' 0 pageCount).map pageAt : List Addr) k := by
    refine ⟨[], h ▸ .nil, ?_⟩
    rw [← List.range_eq_range']
    simp [pages]
  have hcount : pageCount ≤ LOOPS := by
    have := card_pages
    simp only [pages, coe_card, List.length_map, List.length_range] at this
    exact this.trans (by decide)
  rw [kinit, hstart]
  exact freerange_ends (Nat.zero_add _) hcount hown

end Layout

/-- The loop of memfree(). -/
def memfreeLoop (m : Addr → Page) : Nat → Addr → Word → Word
  | 0, _, count => count
  | n + 1, r, count => if r = 0 then count else memfreeLoop m n (m r 0) (count + 4096)

def memfree (k : Kmem) : Word := memfreeLoop k.mem LOOPS k.freelist 0

theorem memfreeLoop_eq (h : Chain m r l) (hn : l.length ≤ n) (c : Word) :
    memfreeLoop m n r c = c + BitVec.ofNat 64 (4096 * l.length) := by
  induction h generalizing n c with
  | nil =>
    cases n with
    | zero => simp [memfreeLoop]
    | succ n => simp [memfreeLoop]
  | cons x l ne tail ih =>
    cases n with
    | zero => cases hn
    | succ n =>
      rw [memfreeLoop, if_neg ne, ih (Nat.le_of_succ_le_succ hn), BitVec.add_assoc,
        List.length_cons, Nat.mul_succ, Nat.add_comm, BitVec.ofNat_add]
      rfl

theorem Chain.suffix {l : List Addr} (h : Chain m r l) (hx : x ∈ l) :
    ∃ l', Chain m x l' ∧ l'.length ≤ l.length := by
  induction h with
  | nil => cases hx
  | cons y l ne tail ih =>
    cases hx with
    | head => exact ⟨_, .cons x l ne tail, Nat.le_refl _⟩
    | tail _ hx =>
      obtain ⟨l', hl', hlen⟩ := ih hx
      exact ⟨l', hl', Nat.le_succ_of_le hlen⟩

theorem Chain.nodup {l : List Addr} (h : Chain m r l) : l.Nodup := by
  induction h with
  | nil => exact List.nodup_nil
  | cons x l ne tail ih =>
    refine List.nodup_cons.mpr ⟨?_, ih⟩
    intro hx
    -- the suffix that starts at x would be the whole list
    obtain ⟨l', hl', hlen⟩ := tail.suffix hx
    rw [hl'.unique (.cons x l ne tail), List.length_cons] at hlen
    omega

theorem Chain.ne_zero {l : List Addr} (h : Chain m r l) (hx : x ∈ l) : x ≠ 0 := by
  induction h with
  | nil => cases hx
  | cons y l ne tail ih =>
    cases hx with
    | head => exact ne
    | tail _ hx => exact ih hx

/-- The pages of the list are aligned and distinct, so the loop of memfree() ends. -/
theorem Chain.length_lt {l : List Addr} (h : Chain m r l) (ha : ∀ x ∈ l, x.toNat % 4096 = 0) :
    l.length < LOOPS := by
  have hpos : ∀ x ∈ l, 0 < x.toNat := fun x hx =>
    Nat.pos_of_ne_zero fun h0 => h.ne_zero hx (BitVec.eq_of_toNat_eq h0)
  have hnodup : (l.map fun x => x.toNat / 4096 - 1).Nodup := by
    apply h.nodup.map_on
    intro x hx y hy hxy
    have := ha x hx
    have := ha y hy
    have := hpos x hx
    have := hpos y hy
    apply BitVec.eq_of_toNat_eq
    omega
  have hlen : (l.map fun x => x.toNat / 4096 - 1).length ≤ 2 ^ 52 - 1 := by
    apply length_le_of_nodup hnodup
    intro n hn
    obtain ⟨x, hx, rfl⟩ := List.mem_map.mp hn
    have := x.isLt
    have := ha x hx
    have := hpos x hx
    omega
  rw [List.length_map] at hlen
  rw [LOOPS]
  omega

theorem memfree_eq {k : Kmem} (h : Chain k.mem k.freelist free)
    (ha : ∀ x ∈ free, x.toNat % 4096 = 0) : memfree k = BitVec.ofNat 64 (4096 * free.length) := by
  rw [memfree, memfreeLoop_eq h (h.length_lt ha).le, zero_add]

-- Unification must not count the loops down.
attribute [irreducible] LOOPS

end Xv6.Mem
