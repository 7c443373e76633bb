import Xv6.Mem.Free

namespace Xv6.Mem
open BitVec Function Lib.Radix Lib

/-- The page numbers of TRAPFRAME and TRAMPOLINE. -/
def TRAPPAGE : Nat := 2 ^ 26 - 2
def TRAMPAGE : Nat := 2 ^ 26 - 1

theorem trapframe_eq : TRAPFRAME = pg TRAPPAGE := by decide

theorem trampoline_eq : TRAMPOLINE = pg TRAMPAGE := by decide

section Layout
variable [Image]

/-- The int npages is what the compiler makes of the quotient. -/
def uvmdealloc (pagetable oldsz newsz : Addr) : Km Addr :=
  if oldsz ≤ newsz then pure oldsz
  else if pgroundup newsz < pgroundup oldsz then do
    let npages : BitVec 32 := ((pgroundup oldsz - pgroundup newsz) / PGSIZE).setWidth 32
    uvmunmap pagetable (pgroundup newsz) (npages.signExtend 64) true
    pure newsz
  else pure newsz

/-- The loop of uvmalloc(), where oldsz has been rounded up. -/
def allocLoop (pagetable oldsz newsz : Addr) (xperm : Word) : Nat → Addr → Km Addr
  | 0, _ => panic .endless
  | n + 1, a =>
    if a < newsz then do
      match ← kalloc with
      | none => do
        let _ ← uvmdealloc pagetable a oldsz
        pure 0
      | some mem => do
        setPage mem 0
        let r ← mappages pagetable a PGSIZE mem (PTE_R ||| PTE_U ||| xperm)
        if r ≠ 0 then do
          kfree mem
          let _ ← uvmdealloc pagetable a oldsz
          pure 0
        else allocLoop pagetable oldsz newsz xperm n (a + PGSIZE)
    else pure newsz

def uvmalloc (pagetable oldsz newsz : Addr) (xperm : Word) : Km Addr :=
  if newsz < oldsz then pure oldsz
  else allocLoop pagetable (pgroundup oldsz) newsz xperm LOOPS (pgroundup oldsz)

/-- Here `trapframe` is that of the process. -/
def procPagetable (trapframe : Addr) : Km (Option Addr) := do
  match ← uvmcreate with
  | none => pure none
  | some pagetable => do
    let r ← mappages pagetable TRAMPOLINE PGSIZE Image.trampoline (PTE_R ||| PTE_X)
    if r < 0 then do
      uvmfree pagetable 0
      pure none
    else do
      let r ← mappages pagetable TRAPFRAME PGSIZE trapframe (PTE_R ||| PTE_W)
      if r < 0 then do
        uvmunmap pagetable TRAMPOLINE 1 false
        uvmfree pagetable 0
        pure none
      else pure (some pagetable)

def procFreepagetable (pagetable sz : Addr) : Km Unit := do
  uvmunmap pagetable TRAMPOLINE 1 false
  uvmunmap pagetable TRAPFRAME 1 false
  uvmfree pagetable sz

/-- The map of an address space with n user pages: they are the leaves below TRAPFRAME, and above
are the two leaves of every process. -/
structure Exact (tf : Addr) (n : Nat) (f : Nat → Option Word) : Prop where
  bound : n ≤ TRAPPAGE
  user : ∀ i < n, ∃ w, f i = some w ∧ Has w PTE_R
  rest : ∀ i, n ≤ i → i < TRAPPAGE → f i = none
  trapframe : f TRAPPAGE = some (mkPte tf (PTE_R ||| PTE_W))
  trampoline : f TRAMPAGE = some (mkPte Image.trampoline (PTE_R ||| PTE_X))

/-- An address space at root, its user pages in use by nobody else, with R the other pages in
use. -/
structure Space (R : Multiset Addr) (root tf : Addr) (n : Nat) (f : Nat → Option Word)
    (k : Kmem) : Prop where
  table : PageTable (pagesOf f 0 n + R) root f k
  exact : Exact tf n f

theorem Exact.leaf (h : Exact tf n f) (hi : i < n) : ∃ w, f i = some w ∧ pteFlags w ≠ PTE_V := by
  obtain ⟨w, hw, hr⟩ := h.user i hi
  exact ⟨w, hw, flags_ne_valid (by decide) (by decide) hr⟩

theorem Exact.lt_of_user (h : Exact tf n f) (hl : ∀ i, USERPAGES ≤ i → f i = none)
    (hi : f i = some w) (hu : Has w PTE_U) : i < n := by
  have hb := h.bound
  rw [TRAPPAGE] at hb
  rcases Nat.lt_or_ge i n with hlt | hge
  · exact hlt
  rcases Nat.lt_or_ge i TRAPPAGE with hlo | hhi
  · rw [h.rest i hge hlo] at hi
    cases hi
  rw [TRAPPAGE] at hhi
  rcases Nat.lt_or_ge i USERPAGES with hin | hout
  · rw [USERPAGES] at hin
    rcases (show i = TRAPPAGE ∨ i = TRAMPAGE by rw [TRAPPAGE, TRAMPAGE]; omega) with rfl | rfl
    · rw [h.trapframe, Option.some.injEq] at hi
      rw [← hi, has_mkPte (by decide)] at hu
      exact absurd hu (by decide)
    · rw [h.trampoline, Option.some.injEq] at hi
      rw [← hi, has_mkPte (by decide)] at hu
      exact absurd hu (by decide)
  · rw [hl i hout] at hi
    cases hi

omit [Image] in
theorem pagesOf_snoc : pagesOf f 0 (n + 1) = (f n).elim 0 pte2pa ::ₘ pagesOf f 0 n := by
  rw [pagesOf, pagesOf, List.range'_concat, List.map_append, ← Multiset.coe_add,
    Multiset.add_comm]
  simp

omit [Image] in
theorem pagesOf_add : pagesOf f 0 (n + c) = pagesOf f 0 n + pagesOf f n c := by
  rw [pagesOf, pagesOf, pagesOf, Multiset.coe_add, ← List.map_append]
  congr 2
  rw [← List.range'_append_1, Nat.zero_add]

omit [Image] in
theorem mem_pagesOf (h : f i = some w) (hi : i < n) : pte2pa w ∈ pagesOf f 0 n := by
  rw [pagesOf, Multiset.mem_coe, List.mem_map]
  refine ⟨i, List.mem_range'_1.mpr ⟨Nat.zero_le i, by omega⟩, ?_⟩
  rw [h]
  rfl

/-- There is no more user memory than physical memory. -/
theorem Space.small (h : Space R root tf n f k) : n ≤ 32768 := by
  obtain ⟨l, -, he⟩ := h.table.owned
  have hc := congrArg Multiset.card he
  simp only [Multiset.card_add, pagesOf, Multiset.coe_card, List.length_map,
    List.length_range'] at hc
  have := card_pages
  omega

theorem Space.kalloc (h : Space R root tf n f k) : Ends kalloc k (fun r k' =>
    Keeps (pagesOf f 0 n + R) k k' ∧
    match r with
    | none => Space R root tf n f k'
    | some x => Space (x ::ₘ R) root tf n f k') := by
  refine (kalloc_keeps h.table.owned).mono (fun r k' hk => ?_)
  obtain ⟨hkeep, ho⟩ := hk
  have htable := fun y hy => hkeep y (Multiset.mem_add.mpr (.inl hy))
  refine ⟨hkeep.mono (Multiset.le_add_left _ _), ?_⟩
  cases r with
  | none => exact ⟨h.table.congr htable ho, h.exact⟩
  | some x =>
    refine ⟨h.table.congr htable ?_, h.exact⟩
    rw [Multiset.add_cons, Multiset.add_cons]
    exact ho

theorem Space.kfree (h : Space (x ::ₘ R) root tf n f k) : Ends (kfree x) k (fun _ k' =>
    Keeps (pagesOf f 0 n + R) k k' ∧ Space R root tf n f k') := by
  have ht := h.table
  rw [Multiset.add_cons] at ht
  refine ht.kfree.mono (fun _ k' hk => ?_)
  exact ⟨hk.2.mono (Multiset.le_add_left _ _), hk.1, h.exact⟩

theorem Space.put (h : Space R root tf n f k) (hx : x ∈ pagesOf f 0 n + R) (p : Page) :
    Space R root tf n f (k.put x p) := by
  refine ⟨h.table.congr (fun y hy => ?_) (h.table.owned.put (Multiset.mem_add.mpr (.inr hx)) p),
    h.exact⟩
  exact put_of_ne _ _ (fun he => h.table.apart hx (he ▸ hy))

theorem Space.putUser (h : Space R root tf n f k) (hx : x ∈ pagesOf f 0 n) (p : Page) :
    Keeps R k (k.put x p) ∧ Space R root tf n f (k.put x p) := by
  refine ⟨fun y hy => put_of_ne _ _ (fun he => ?_), h.put (Multiset.mem_add.mpr (.inl hx)) p⟩
  have hd := (Multiset.nodup_add.mp (Multiset.nodup_add.mp h.table.owned.nodup).2.1).2.2
  exact Multiset.disjoint_left.mp hd hx (he ▸ hy)

theorem Space.putOther (h : Space (x ::ₘ R) root tf n f k) (p : Page) :
    Keeps (pagesOf f 0 n + R) k (k.put x p) ∧ Space (x ::ₘ R) root tf n f (k.put x p) := by
  have hn := (Multiset.nodup_add.mp h.table.owned.nodup).2.1
  rw [Multiset.add_cons] at hn
  have hx := (Multiset.nodup_cons.mp hn).1
  refine ⟨fun y hy => put_of_ne _ _ (fun he => hx (he ▸ hy)), h.put ?_ p⟩
  exact Multiset.mem_add.mpr (.inr (Multiset.mem_cons_self x R))

theorem Space.storeOther (h : Space (x ::ₘ R) root tf n f k) (i : Fin 512) (w : Word) :
    Ends (store x i w) k (fun _ k' => Keeps (pagesOf f 0 n + R) k k' ∧
      Space (x ::ₘ R) root tf n f k' ∧ k'.mem x = update (k.mem x) i w) := by
  obtain ⟨hk, hs⟩ := h.putOther (update (k.mem x) i w)
  exact ends_store.mpr ⟨hk, hs, put_self ..⟩

theorem Exact.snoc (h : Exact tf n f) (hn : n < TRAPPAGE) (hw : Has w PTE_R) :
    Exact tf (n + 1) (update f n (some w)) := by
  have hne : TRAMPAGE ≠ n := by
    rw [TRAPPAGE] at hn
    rw [TRAMPAGE]
    omega
  refine ⟨hn, fun i hi => ?_, fun i hi hi' => ?_, ?_, ?_⟩
  · rcases eq_or_ne i n with rfl | hin
    · exact ⟨w, update_self .., hw⟩
    · rw [update_of_ne hin]
      exact h.user i (by omega)
  · rw [update_of_ne (by omega)]
    exact h.rest i (by omega) hi'
  · rw [update_of_ne (by omega)]
    exact h.trapframe
  · rw [update_of_ne hne]
    exact h.trampoline

/-- A page from kalloc() becomes the next user page, or mappages() fails and nothing is mapped. -/
theorem Space.mapPage (h : Space (x ::ₘ R) root tf n f k) (hp : perm.toNat < 1024)
    (hr : Has perm PTE_R) :
    Ends (mappages root (pg n) PGSIZE x perm) k (fun r k' =>
      Keeps (pagesOf f 0 n + (x ::ₘ R)) k k' ∧
      (r = 0 ∧ Space R root tf (n + 1) (update f n (some (mkPte x perm))) k' ∨
        r = -1 ∧ Space (x ::ₘ R) root tf n f k')) := by
  have hn := h.small
  have ht : n < TRAPPAGE := by
    rw [TRAPPAGE]
    omega
  have hu : n < USERPAGES := by
    rw [USERPAGES]
    omega
  refine (h.table.mapPage hu (h.exact.rest n (Nat.le_refl n) ht)).mono (fun r k' hk => ?_)
  refine ⟨hk.1, ?_⟩
  rcases hk.2 with ⟨hr0, hk'⟩ | ⟨hr1, hk'⟩
  · refine .inl ⟨hr0, ?_, h.exact.snoc ht ((has_mkPte (by decide)).mpr (.inl hr))⟩
    have hx : x ∈ pages := h.table.owned.mem_pages
      (Multiset.mem_add.mpr (.inr (Multiset.mem_add.mpr (.inr (Multiset.mem_cons_self x R)))))
    have hpa := pte2pa_mkPte (page_aligned hx) hp
    have hsame : pagesOf (update f n (some (mkPte x perm))) 0 n = pagesOf f 0 n :=
      pagesOf_congr (fun i _ hi => update_of_ne (by omega) _ _)
    rw [pagesOf_snoc, update_self, Option.elim_some, hpa, hsame, Multiset.cons_add,
      ← Multiset.add_cons]
    exact hk'
  · exact .inr ⟨hr1, hk', h.exact⟩

theorem Exact.shrink (h : Exact tf n f) (hm : m ≤ n) : Exact tf m (unmapped f m (n - m)) := by
  have hb := h.bound
  have hkeep : ∀ i, i < m ∨ n ≤ i → unmapped f m (n - m) i = f i := fun i hi => if_neg (by omega)
  refine ⟨by omega, fun i hi => ?_, fun i hi hi' => ?_, ?_, ?_⟩
  · rw [hkeep i (.inl hi)]
    exact h.user i (by omega)
  · rcases Nat.lt_or_ge i n with hin | hin
    · exact if_pos (by omega)
    · rw [hkeep i (.inr hin)]
      exact h.rest i hin hi'
  · rw [hkeep _ (.inr hb)]
    exact h.trapframe
  · rw [hkeep _ (.inr (hb.trans (by decide)))]
    exact h.trampoline

theorem Space.unmap (h : Space R root tf n f k) (hm : m ≤ n) (hc : npages.toNat = n - m) :
    Ends (uvmunmap root (pg m) npages true) k (fun _ k' =>
      Keeps (pagesOf f 0 m + R) k k' ∧ Space R root tf m (unmapped f m (n - m)) k') := by
  have hn := h.small
  have ht : PageTable (freed true f m (n - m) + (pagesOf f 0 m + R)) root f k := by
    have hsplit : pagesOf f 0 n = pagesOf f 0 m + pagesOf f m (n - m) := by
      rw [← pagesOf_add, Nat.add_sub_cancel' hm]
    rw [freed, if_pos rfl, ← Multiset.add_assoc, Multiset.add_comm (pagesOf f m _), ← hsplit]
    exact h.table
  have hu : m + (n - m) ≤ USERPAGES := by
    rw [USERPAGES]
    omega
  refine (ht.uvmunmap hc hu (fun i _ hi => h.exact.leaf (by omega))).mono (fun _ k' hk => ?_)
  refine ⟨hk.2, ?_, h.exact.shrink hm⟩
  have hsame : pagesOf (unmapped f m (n - m)) 0 m = pagesOf f 0 m :=
    pagesOf_congr (fun i _ hi => if_neg (by omega))
  rw [hsame]
  exact hk.1

omit [Image] in
theorem pagesUp_pg (h : n ≤ 65536) : pagesUp (pg n) = n := by
  rw [pagesUp, pg_toNat (by omega)]
  omega

omit [Image] in
theorem lt_pagesUp (h : pg m < sz) (hm : m ≤ 32768) : m < pagesUp sz := by
  rw [lt_def, pg_toNat (by omega)] at h
  rw [pagesUp]
  omega

omit [Image] in
theorem pagesUp_eq (h : ¬ pg m < sz) (hm : m ≤ pagesUp sz) (hm' : m ≤ 32768) :
    pagesUp sz = m := by
  rw [lt_def, pg_toNat (by omega)] at h
  rw [pagesUp] at *
  omega

omit [Image] in
theorem lt_of_pagesUp (h : pagesUp sz ≤ 32768) : sz.toNat ≤ 4096 * 32768 := by
  rw [pagesUp] at h
  omega

omit [Image] in
theorem pagesUp_mono {a b : Addr} (h : a ≤ b) : pagesUp a ≤ pagesUp b := by
  rw [le_def] at h
  rw [pagesUp, pagesUp]
  omega

omit [Image] in
theorem npages_toNat (hn : n ≤ 32768) (hm : m ≤ n) :
    ((((pg n - pg m) / PGSIZE).setWidth 32).signExtend 64 : Addr).toNat = n - m := by
  have hq : ((pg n - pg m) / PGSIZE).toNat = n - m := by
    rw [toNat_udiv, toNat_sub, pg_toNat (by omega), pg_toNat (by omega),
      pgsize_toNat]
    omega
  have hs : (((pg n - pg m) / PGSIZE).setWidth 32).toNat = n - m := by
    rw [toNat_setWidth, hq]
    omega
  have hmsb : (((pg n - pg m) / PGSIZE).setWidth 32).msb = false := by
    rw [msb_eq_false_iff_two_mul_lt, hs]
    omega
  rw [signExtend_eq_setWidth_of_msb_false hmsb, toNat_setWidth, hs]
  omega

/-- uvmdealloc() leaves the pages of the smaller size. -/
theorem Space.uvmdealloc (h : Space R root tf (pagesUp oldsz) f k) (newsz : Addr) :
    Ends (uvmdealloc root oldsz newsz) k (fun r k' =>
      r = (if oldsz ≤ newsz then oldsz else newsz) ∧ Keeps (pagesOf f 0 (pagesUp r) + R) k k' ∧
      Space R root tf (pagesUp r) (unmapped f (pagesUp r) (pagesUp oldsz - pagesUp r)) k') := by
  have hn := h.small
  have hold := lt_of_pagesUp hn
  rw [Mem.uvmdealloc, ends_ite]
  by_cases hle : oldsz ≤ newsz
  · rw [if_pos hle, if_pos hle, ends_pure, Nat.sub_self, unmapped_zero]
    exact ⟨rfl, fun _ _ => rfl, h⟩
  have hlt : newsz ≤ oldsz := by
    rw [le_def] at *
    omega
  have hm := pagesUp_mono hlt
  have hnew := lt_of_pagesUp (hm.trans hn)
  rw [if_neg hle, if_neg hle, ends_ite, pgroundup_pg (by omega), pgroundup_pg (by omega)]
  by_cases hpg : pg (pagesUp newsz) < pg (pagesUp oldsz)
  · rw [if_pos hpg]
    refine (h.unmap hm (npages_toNat hn hm)).bind (fun _ k' hk => ?_)
    rw [ends_pure]
    exact ⟨rfl, hk⟩
  · have heq : pagesUp oldsz = pagesUp newsz := by
      rw [lt_def, pg_toNat (by omega), pg_toNat (by omega)] at hpg
      omega
    rw [if_neg hpg, ends_pure, heq, Nat.sub_self, unmapped_zero]
    exact ⟨rfl, fun _ _ => rfl, heq ▸ h⟩

/-- The map f' has what f has and from n to m pages with the given flags. -/
structure Added (f f' : Nat → Option Word) (n m : Nat) (perm : Word) : Prop where
  same : ∀ i, ¬ (n ≤ i ∧ i < m) → f' i = f i
  new : ∀ i, n ≤ i → i < m → ∃ x, f' i = some (mkPte x perm)

omit [Image] in
theorem Added.refl : Added f f n n perm := ⟨fun _ _ => rfl, fun i hi hi' => by omega⟩

omit [Image] in
theorem Added.snoc (h : Added f f' n m perm) (hnm : n ≤ m) (x : Addr) :
    Added f (update f' m (some (mkPte x perm))) n (m + 1) perm := by
  refine ⟨fun i hi => ?_, fun i hi hi' => ?_⟩
  · rw [update_of_ne (by omega)]
    exact h.same i (by omega)
  · rcases eq_or_ne i m with rfl | him
    · exact ⟨x, update_self ..⟩
    · rw [update_of_ne him]
      exact h.new i hi (by omega)

omit [Image] in
theorem Added.le (h : Added f f' n m perm) (hnm : n ≤ m) : pagesOf f 0 n ≤ pagesOf f' 0 m := by
  have hsame : pagesOf f 0 n = pagesOf f' 0 n :=
    pagesOf_congr (fun i _ hi => (h.same i (by omega)).symm)
  rw [hsame, ← Nat.add_sub_cancel' hnm, pagesOf_add]
  exact Multiset.le_add_right _ _

/-- Without the pages it added the map is the old one. -/
theorem Added.undo (h : Added f f' n m perm) (he : Exact tf n f) (hm : m ≤ TRAPPAGE) :
    unmapped f' n (m - n) = f := by
  funext i
  rw [unmapped]
  split
  · rw [he.rest i (by omega) (by omega)]
  · exact h.same i (by omega)

/-- What uvmalloc() and fork() do when memory runs out on the way. -/
theorem Space.undo (h : Space R root tf m f' k) (ha : Added f f' n m perm) (he : Exact tf n f)
    (hnm : n ≤ m) :
    Ends (Mem.uvmdealloc root (pg m) (pg n)) k (fun _ k' =>
      Keeps (pagesOf f 0 n + R) k k' ∧ Space R root tf n f k') := by
  have hm := h.small
  have hr : pagesUp (if pg m ≤ pg n then pg m else pg n) = n := by
    split
    · rename_i hle
      rw [le_def, pg_toNat (by omega), pg_toNat (by omega)] at hle
      rw [pagesUp_pg (by omega)]
      omega
    · exact pagesUp_pg (by omega)
  have hs : pagesOf f' 0 n = pagesOf f 0 n :=
    pagesOf_congr (fun i _ hi => ha.same i (by omega))
  have h' : Space R root tf (pagesUp (pg m)) f' k := by
    rw [pagesUp_pg (by omega)]
    exact h
  refine (h'.uvmdealloc (pg n)).mono (fun r k' hk => ?_)
  obtain ⟨rfl, hkeep, hspace⟩ := hk
  rw [hr, pagesUp_pg (by omega), ha.undo he h.exact.bound] at hspace
  rw [hr, hs] at hkeep
  exact ⟨hkeep, hspace⟩

/-- The body of a loop that adds user pages, after its kalloc(): the page is filled and mapped, or
given back before the loop fails. -/
theorem Space.addPage (h : Space (x ::ₘ R) root tf m f k) (p : Page) (hp : perm.toNat < 1024)
    (hr : Has perm PTE_R) {bad good : Km α}
    (hbad : ∀ k', Keeps (pagesOf f 0 m + R) k k' → Space R root tf m f k' → Ends bad k' Q)
    (hgood : ∀ k', Keeps (pagesOf f 0 m + R) k k' → k'.mem x = p →
      Space R root tf (m + 1) (update f m (some (mkPte x perm))) k' → Ends good k' Q) :
    Ends (do
      setPage x p
      let r ← mappages root (pg m) PGSIZE x perm
      if r ≠ 0 then do
        Mem.kfree x
        bad
      else good) k Q := by
  obtain ⟨hk1, h1⟩ := h.putOther p
  rw [ends_bind, ends_setPage]
  refine (h1.mapPage hp hr).bind (fun r k2 h2 => ?_)
  obtain ⟨hk2, h2⟩ := h2
  have hkeep := hk1.trans (hk2.mono (Multiset.add_le_add_left (Multiset.le_cons_self R x)))
  rcases h2 with ⟨rfl, h2⟩ | ⟨rfl, h2⟩
  · have hx : k2.mem x = p := by
      rw [hk2 x (Multiset.mem_add.mpr (.inr (Multiset.mem_cons_self x R))), put_self]
    rw [if_neg (by decide)]
    exact hgood k2 hkeep hx h2
  · rw [if_pos (by decide)]
    exact h2.kfree.bind (fun _ k3 h3 => hbad k3 (hkeep.trans h3.1) h3.2)

/-- The pages that f maps from n to m hold only zeroes. -/
def Zeroed (f : Nat → Option Word) (n m : Nat) (k : Kmem) : Prop :=
  ∀ i, n ≤ i → i < m → ∀ w, f i = some w → k.mem (pte2pa w) = 0

omit [Image] in
theorem Zeroed.snoc (h : Zeroed f n m k) (hk : Keeps (pagesOf f 0 m) k k')
    (hx : k'.mem (pte2pa v) = 0) : Zeroed (update f m (some v)) n (m + 1) k' := by
  intro i hi hi' w hw
  rcases eq_or_ne i m with rfl | him
  · rw [update_self, Option.some.injEq] at hw
    rw [← hw, hx]
  · rw [update_of_ne him] at hw
    rw [hk _ (mem_pagesOf hw (by omega)), h i hi (by omega) w hw]

theorem Space.allocLoop (h : Space R root tf m f' k)
    (ha : Added f f' n m (PTE_R ||| PTE_U ||| xperm)) (hz : Zeroed f' n m k) (he : Exact tf n f)
    (hnm : n ≤ m) (hx : xperm.toNat < 1024) (hm : m ≤ pagesUp newsz) (hf : 32768 < m + fuel) :
    Ends (allocLoop root (pg n) newsz xperm fuel (pg m)) k (fun r k' =>
      Keeps (pagesOf f 0 n + R) k k' ∧ (r = 0 ∧ Space R root tf n f k' ∨
        r = newsz ∧ ∃ g, Space R root tf (pagesUp newsz) g k' ∧
          Added f g n (pagesUp newsz) (PTE_R ||| PTE_U ||| xperm) ∧
          Zeroed g n (pagesUp newsz) k')) := by
  have hperm : (PTE_R ||| PTE_U ||| xperm).toNat < 2 ^ 10 := by
    rw [toNat_or]
    exact Nat.or_lt_two_pow (by decide) hx
  have hread : Has (PTE_R ||| PTE_U ||| xperm) PTE_R := has_or.mpr (.inl (by decide))
  induction fuel generalizing m f' k with
  | zero =>
    have := h.small
    omega
  | succ fuel ih =>
    have hle : pagesOf f 0 n + R ≤ pagesOf f' 0 m + R := Multiset.add_le_add_right (ha.le hnm)
    have hsmall := h.small
    rw [Mem.allocLoop, ends_ite]
    by_cases hlt : pg m < newsz
    · rw [if_pos hlt]
      refine h.kalloc.bind (fun r k1 h1 => ?_)
      obtain ⟨hkeep, h1⟩ := h1
      have hk1 := hkeep.mono hle
      cases r with
      | none =>
        refine (h1.undo ha he hnm).bind (fun _ k2 h2 => ?_)
        exact ends_pure.mpr ⟨hk1.trans h2.1, .inl ⟨rfl, h2.2⟩⟩
      | some x =>
        refine h1.addPage 0 hperm hread (fun k2 hk2 h2 => ?_) (fun k2 hk2 hx0 h2 => ?_)
        · refine (h2.undo ha he hnm).bind (fun _ k3 h3 => ?_)
          exact ends_pure.mpr ⟨(hk1.trans (hk2.mono hle)).trans h3.1, .inl ⟨rfl, h3.2⟩⟩
        have hpage : x ∈ pages := h1.table.owned.mem_pages (Multiset.mem_add.mpr
          (.inr (Multiset.mem_add.mpr (.inr (Multiset.mem_cons_self x R)))))
        have hz2 := hz.snoc ((hkeep.trans hk2).mono (Multiset.le_add_right _ R))
          (by rw [pte2pa_mkPte (page_aligned hpage) hperm, hx0])
        rw [pg_succ]
        refine (ih h2 (ha.snoc hnm x) hz2 (by omega) (lt_pagesUp hlt hsmall) (by omega)).mono
          (fun r k3 h3 => ?_)
        exact ⟨(hk1.trans (hk2.mono hle)).trans h3.1, h3.2⟩
    · rw [if_neg hlt, ends_pure, pagesUp_eq hlt hm hsmall]
      exact ⟨fun _ _ => rfl, .inr ⟨rfl, f', h, ha, hz⟩⟩

/-- uvmalloc() fails and leaves the address space as it was, or the larger of the two sizes is
mapped, the new pages zeroed and with the flags asked for. -/
theorem Space.uvmalloc (h : Space R root tf (pagesUp oldsz) f k) (newsz : Addr)
    (hx : xperm.toNat < 1024) :
    Ends (uvmalloc root oldsz newsz xperm) k (fun r k' =>
      Keeps (pagesOf f 0 (pagesUp oldsz) + R) k k' ∧
      (r = 0 ∧ Space R root tf (pagesUp oldsz) f k' ∨
        r = (if newsz < oldsz then oldsz else newsz) ∧ ∃ g, Space R root tf (pagesUp r) g k' ∧
          Added f g (pagesUp oldsz) (pagesUp r) (PTE_R ||| PTE_U ||| xperm) ∧
          Zeroed g (pagesUp oldsz) (pagesUp r) k')) := by
  have hnone : ∀ n : Nat, Zeroed f n n k := fun n i hi hi' => by omega
  rw [Mem.uvmalloc, ends_ite]
  by_cases hlt : newsz < oldsz
  · rw [if_pos hlt, if_pos hlt, ends_pure]
    exact ⟨fun _ _ => rfl, .inr ⟨rfl, f, h, .refl, hnone _⟩⟩
  have hn := h.small
  have hold := lt_of_pagesUp hn
  have hle : oldsz ≤ newsz := by
    rw [le_def]
    rw [lt_def] at hlt
    omega
  rw [if_neg hlt, if_neg hlt, pgroundup_pg (by omega)]
  refine (h.allocLoop .refl (hnone _) h.exact (Nat.le_refl _) hx (pagesUp_mono hle) ?_).mono ?_
  · rw [LOOPS]
    omega
  · intro r k' hk
    refine ⟨hk.1, hk.2.imp id (fun hr => ?_)⟩
    obtain ⟨rfl, hg⟩ := hr
    exact ⟨rfl, hg⟩

/-- uvmunmap() of one page that stays in use. -/
theorem PageTable.unmapOne (hp : PageTable R root f k) (hn : n < USERPAGES)
    (hw : f n = some (mkPte pa perm)) (hr : Has perm PTE_R) :
    Ends (Mem.uvmunmap root (pg n) 1 false) k (fun _ k' =>
      Keeps R k k' ∧ PageTable R root (update f n none) k') := by
  have ht : PageTable (freed false f n 1 + R) root f k := by
    rw [freed, if_neg (by decide), Multiset.zero_add]
    exact hp
  have hone : unmapped f n 1 = update f n none := by
    rw [← unmapped_succ, unmapped_zero]
  refine (ht.uvmunmap rfl hn (fun i hi hi' => ?_)).mono (fun _ k' hk => ?_)
  · obtain rfl : i = n := by omega
    have hread : Has (mkPte pa perm) PTE_R := (has_mkPte (by decide)).mpr (.inl hr)
    exact ⟨_, hw, flags_ne_valid (by decide) (by decide) hread⟩
  · rw [hone] at hk
    exact ⟨hk.2, hk.1⟩

theorem PageTable.uvmfree_empty (hp : PageTable R root (fun _ => none) k) :
    Ends (Mem.uvmfree root 0) k (fun _ k' => Owned R k' ∧ Keeps R k k') := by
  rw [Mem.uvmfree, if_neg (by decide)]
  exact hp.freewalk

/-- The map proc_pagetable() makes. -/
def emptySpace (tf : Addr) : Nat → Option Word :=
  update (update (fun _ => none) TRAMPAGE
    (some (mkPte Image.trampoline (PTE_R ||| PTE_X)))) TRAPPAGE (some (mkPte tf (PTE_R ||| PTE_W)))

theorem exact_empty (tf : Addr) : Exact tf 0 (emptySpace tf) := by
  have hne : TRAMPAGE ≠ TRAPPAGE := by decide
  refine ⟨Nat.zero_le _, fun i hi => by omega, fun i _ hi => ?_, ?_, ?_⟩
  · have hi' : i ≠ TRAMPAGE := by
      rw [TRAPPAGE] at hi
      rw [TRAMPAGE]
      omega
    rw [emptySpace, update_of_ne (by omega), update_of_ne hi']
  · exact update_self ..
  · rw [emptySpace, update_of_ne hne, update_self]

theorem procPagetable_ends (ho : Owned R k) (tf : Addr) :
    Ends (procPagetable tf) k (fun r k' => Keeps R k k' ∧
      match r with
      | none => Owned R k'
      | some root => Space R root tf 0 (emptySpace tf) k') := by
  have hne : TRAPPAGE ≠ TRAMPAGE := by decide
  rw [procPagetable, trampoline_eq, trapframe_eq]
  refine (uvmcreate_ends ho).bind (fun r k1 h1 => ?_)
  obtain ⟨hk1, h1⟩ := h1
  cases r with
  | none => exact ends_pure.mpr ⟨hk1, h1⟩
  | some root =>
    refine (h1.mapPage (n := TRAMPAGE) (by decide) rfl).bind (fun r k2 h2 => ?_)
    obtain ⟨hk2, ⟨rfl, h2⟩ | ⟨rfl, h2⟩⟩ := h2
    · rw [if_neg (by decide), ends_bind]
      have hnone : update (fun _ : Nat => none) TRAMPAGE
          (some (mkPte Image.trampoline (PTE_R ||| PTE_X))) TRAPPAGE = none :=
        update_of_ne hne _ _
      refine (h2.mapPage (by decide) hnone).mono (fun r k3 h3 => ?_)
      obtain ⟨hk3, ⟨rfl, h3⟩ | ⟨rfl, h3⟩⟩ := h3
      · rw [if_neg (by decide), ends_pure]
        refine ⟨(hk1.trans hk2).trans hk3, ?_, exact_empty tf⟩
        rw [pagesOf_zero, Multiset.zero_add]
        exact h3
      · rw [if_pos (by decide), ends_bind]
        refine (h3.unmapOne (by decide) (update_self ..) (by decide)).mono
          (fun _ k4 h4 => ?_)
        rw [update_idem, update_eq_self_iff.mpr rfl] at h4
        refine h4.2.uvmfree_empty.bind (fun _ k5 h5 => ?_)
        rw [ends_pure]
        exact ⟨(((hk1.trans hk2).trans hk3).trans h4.1).trans h5.2, h5.1⟩
    · rw [if_pos (by decide)]
      refine h2.uvmfree_empty.bind (fun _ k3 h3 => ?_)
      rw [ends_pure]
      exact ⟨(hk1.trans hk2).trans h3.2, h3.1⟩

/-- Everything of an address space is given back. -/
theorem Space.procFreepagetable (h : Space R root tf (pagesUp sz) f k) :
    Ends (procFreepagetable root sz) k (fun _ k' => Owned R k' ∧ Keeps R k k') := by
  have hsmall := h.small
  have hne : TRAPPAGE ≠ TRAMPAGE := by decide
  have htrap : update f TRAMPAGE none TRAPPAGE = some (mkPte tf (PTE_R ||| PTE_W)) := by
    rw [update_of_ne hne]
    exact h.exact.trapframe
  have hlow : ∀ i < TRAPPAGE,
      update (update f TRAMPAGE none) TRAPPAGE none i = f i := by
    intro i hi
    have hi' : i ≠ TRAMPAGE := by
      rw [TRAPPAGE] at hi
      rw [TRAMPAGE]
      omega
    rw [update_of_ne (by omega), update_of_ne hi']
  have hb : pagesUp sz < TRAPPAGE := by
    rw [TRAPPAGE]
    omega
  rw [Mem.procFreepagetable, trampoline_eq, trapframe_eq]
  refine (h.table.unmapOne (by decide) h.exact.trampoline (by decide)).bind (fun _ k1 h1 => ?_)
  refine (h1.2.unmapOne (by decide) htrap (by decide)).bind (fun _ k2 h2 => ?_)
  have hpages : pagesOf f 0 (pagesUp sz) = pagesOf
      (update (update f TRAMPAGE none) TRAPPAGE none) 0 (pagesUp sz) :=
    pagesOf_congr (fun i _ hi => (hlow i (by omega)).symm)
  have ht := h2.2
  rw [hpages] at ht
  refine (ht.uvmfree ?_ (fun i hi => ?_) (fun i hi => ?_)).mono (fun _ k3 h3 => ?_)
  · rw [USERPAGES]
    omega
  · rw [hlow i (by omega)]
    exact h.exact.leaf hi
  · rcases Nat.lt_or_ge i TRAPPAGE with hlt | hge
    · rw [hlow i hlt]
      exact h.exact.rest i hi hlt
    rcases eq_or_ne i TRAPPAGE with rfl | h1
    · exact update_self ..
    rw [update_of_ne h1]
    rcases eq_or_ne i TRAMPAGE with rfl | h2
    · exact update_self ..
    · rw [update_of_ne h2]
      refine h.table.low i ?_
      rw [TRAPPAGE] at *
      rw [TRAMPAGE] at h2
      rw [USERPAGES]
      omega
  · have hle := Multiset.le_add_left R (pagesOf f 0 (pagesUp sz))
    exact ⟨h3.1, ((h1.1.mono hle).trans (h2.1.mono hle)).trans h3.2⟩

end Layout

end Xv6.Mem
