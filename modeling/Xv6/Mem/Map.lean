import Xv6.Mem.Walk

namespace Xv6.Mem
open Function Lib Lib.Radix

/-- The page-table pages of a page table. -/
abbrev ptPages (m : Addr → Page) (root : Addr) : Multiset Addr := tables sv39 m 2 root

/-- The index of a page number at a level. -/
def keyOf (n level : Nat) : Fin 512 := ⟨n / 512 ^ level % 512, Nat.mod_lt _ (by decide)⟩

/-- The three indices tell the page numbers below this apart. -/
def VPNS : Nat := 2 ^ 27

/-- A page table as a partial map: the valid entry for each page number. -/
def lookup (m : Addr → Page) (root : Addr) (n : Nat) : Option Word :=
  if n < VPNS then leaf m (keyOf n) 2 root else none

/-- What an entry says to a reader of the map. -/
def valid (w : Word) : Option Word := if Has w PTE_V then some w else none

theorem px_keyOf (va : Addr) : (fun level => px level va) = keyOf (va.toNat / 4096) := by
  funext level
  apply Fin.ext
  change _ = va.toNat / 4096 / 512 ^ level % 512
  rw [px_val, Nat.pow_add, Nat.pow_mul, Nat.div_div_eq_div_mul]

theorem keyOf_injective (hn : n < VPNS) (hn' : n' < VPNS) (h : ∀ j ≤ 2, keyOf n j = keyOf n' j) :
    n = n' := by
  have h0 := congrArg Fin.val (h 0 (by omega))
  have h1 := congrArg Fin.val (h 1 (by omega))
  have h2 := congrArg Fin.val (h 2 (by omega))
  simp only [keyOf, VPNS] at *
  omega

theorem lookup_of_slot (hn : n < VPNS) (h : slot sv39 m (keyOf n) 2 root = some s) :
    lookup m root n = valid (m s.1 s.2) := by
  rw [lookup, if_pos hn, leaf, entry, h, valid]
  by_cases hv : Has (m s.1 s.2) PTE_V <;> simp [hv]

theorem lookup_of_no_slot (h : slot sv39 m (keyOf n) 2 root = none) : lookup m root n = none := by
  rw [lookup, leaf, entry, h]
  split <;> rfl

theorem slot_of_lookup (h : lookup m root n = some w) :
    ∃ s, slot sv39 m (keyOf n) 2 root = some s ∧ m s.1 s.2 = w ∧ Has w PTE_V := by
  have hn : n < VPNS := by
    by_contra hn
    rw [lookup, if_neg hn] at h
    cases h
  cases hs : slot sv39 m (keyOf n) 2 root with
  | none =>
    rw [lookup_of_no_slot hs] at h
    cases h
  | some s =>
    rw [lookup_of_slot hn hs, valid] at h
    split at h
    · rename_i hv
      rw [Option.some.injEq] at h
      exact ⟨s, rfl, h, h ▸ hv⟩
    · cases h

theorem lookup_congr (h : ∀ x ∈ ptPages m root, m' x = m x) : lookup m' root = lookup m root := by
  funext n
  rw [lookup, lookup, leaf, leaf, entry_congr h]

theorem lookup_write (hd : (ptPages m root).Nodup) (hn : n < VPNS)
    (h : slot sv39 m (keyOf n) 2 root = some s) (w : Word) :
    lookup (write m s w) root = update (lookup m root) n (valid w) := by
  funext i
  rcases eq_or_ne i n with rfl | hi
  · have hs := (write_slot (P := fun _ => True) hd h w).2.2 (keyOf i)
    rw [update_self, lookup_of_slot hn (hs.trans h)]
    simp [write]
  · rw [update_of_ne hi, lookup, lookup]
    by_cases hv : i < VPNS
    · rw [if_pos hv, if_pos hv, leaf, leaf, entry_write hd h, if_neg]
      intro he
      exact hi (keyOf_injective hv hn (slot_injective hd he h))
    · rw [if_neg hv, if_neg hv]

/-- The address of a page number. -/
def pg (n : Nat) : Addr := BitVec.ofNat 64 (4096 * n)

theorem maxva_le : MAXVA ≤ va ↔ 2 ^ 38 ≤ va.toNat := BitVec.le_def

theorem pg_toNat (h : n < 2 ^ 52) : (pg n).toNat = 4096 * n := by
  rw [pg, BitVec.toNat_ofNat]
  omega

theorem pg_ne (hc : 0 < c) (hc' : c < 2 ^ 52) : pg n ≠ pg (n + c) := by
  intro he
  have := congrArg BitVec.toNat he
  rw [pg, pg, BitVec.toNat_ofNat, BitVec.toNat_ofNat] at this
  omega

theorem pg_succ (n : Nat) : pg n + PGSIZE = pg (n + 1) := by
  apply BitVec.eq_of_toNat_eq
  rw [BitVec.toNat_add, pg, pg, BitVec.toNat_ofNat, BitVec.toNat_ofNat, pgsize_toNat]
  omega

/-- The page numbers of user addresses. -/
def USERPAGES : Nat := 2 ^ 26

theorem key_pg (h : n < USERPAGES) : (fun level => px level (pg n)) = keyOf n := by
  rw [USERPAGES] at h
  rw [px_keyOf, pg_toNat (by omega)]
  congr 1
  omega

theorem pg_lt_maxva (h : n < USERPAGES) : ¬ MAXVA ≤ pg n := by
  rw [USERPAGES] at h
  rw [maxva_le, pg_toNat (by omega)]
  omega

def walkaddr (pagetable va : Addr) : Km Addr :=
  if MAXVA ≤ va then pure 0
  else do
    match ← walk pagetable va false with
    | none => pure 0
    | some (x, i) => do
      let pte ← load x i
      if ¬ Has pte PTE_V then pure 0
      else if ¬ Has pte PTE_U then pure 0
      else pure (pte2pa pte)

/-- The loop of mappages(), which ends after the page at `last`. -/
def mapLoop (pagetable last : Addr) (perm : Word) : Nat → Addr → Addr → Km Int
  | 0, _, _ => panic .endless
  | n + 1, a, pa => do
    match ← walk pagetable a true with
    | none => pure (-1)
    | some (x, i) => do
      let pte ← load x i
      if Has pte PTE_V then panic .remap
      else do
        store x i (pa2pte pa ||| perm ||| PTE_V)
        if a = last then pure 0 else mapLoop pagetable last perm n (a + PGSIZE) (pa + PGSIZE)

def mappages (pagetable va size pa : Addr) (perm : Word) : Km Int :=
  if va % PGSIZE ≠ 0 then panic .mapVa
  else if size % PGSIZE ≠ 0 then panic .mapSize
  else if size = 0 then panic .mapZero
  else mapLoop pagetable (va + size - PGSIZE) perm LOOPS va pa

def uvmcreate : Km (Option Addr) := do
  match ← kalloc with
  | none => pure none
  | some x => do
    setPage x 0
    pure (some x)

theorem user_lt_vpns (h : n < USERPAGES) : n < VPNS := by
  rw [USERPAGES] at h
  rw [VPNS]
  omega

theorem walk_read (h : va.toNat < 2 ^ 38) : Ends (walk root va false) k Q ↔
    Q (slot sv39 k.mem (keyOf (va.toNat / 4096)) 2 root) k := by
  rw [walk, if_neg (by rw [maxva_le]; omega), walkFrom_read, px_keyOf]

theorem walk_read_pg (h : n < USERPAGES) :
    Ends (walk root (pg n) false) k Q ↔ Q (slot sv39 k.mem (keyOf n) 2 root) k := by
  rw [walk, if_neg (pg_lt_maxva h), walkFrom_read, key_pg h]

/-- What walkaddr() finds for va in a map. -/
def translate (f : Nat → Option Word) (va : Addr) : Addr :=
  if va.toNat < 2 ^ 38 then
    match f (va.toNat / 4096) with
    | some w => if Has w PTE_U then pte2pa w else 0
    | none => 0
  else 0

theorem walkaddr_ends :
    Ends (walkaddr root va) k Q ↔ Q (translate (lookup k.mem root) va) k := by
  rw [walkaddr, ends_ite, translate]
  by_cases h : va.toNat < 2 ^ 38
  · rw [if_neg (by rw [maxva_le]; omega), if_pos h, ends_bind, walk_read h]
    cases hs : slot sv39 k.mem (keyOf (va.toNat / 4096)) 2 root with
    | none => rw [lookup_of_no_slot hs, ends_pure]
    | some s =>
      rw [lookup_of_slot (by rw [VPNS]; omega) hs, valid]
      by_cases hv : Has (k.mem s.1 s.2) PTE_V
      · by_cases hu : Has (k.mem s.1 s.2) PTE_U <;> simp [hv, hu]
      · simp [hv]
  · rw [if_pos (by rw [maxva_le]; omega), if_neg h, ends_pure]

/-- The map with the entries that mappages() adds for c pages from n on. -/
def mapped (f : Nat → Option Word) (n c : Nat) (pa : Addr) (perm : Word) (i : Nat) : Option Word :=
  if n ≤ i ∧ i < n + c then some (mkPte (pa + pg (i - n)) perm) else f i

theorem mapped_zero : mapped f n 0 pa perm = f := by
  funext i
  exact if_neg (by omega)

theorem mapped_succ : mapped (update f n (some (mkPte pa perm))) (n + 1) c (pa + PGSIZE)
    perm = mapped f n (c + 1) pa perm := by
  funext i
  rcases lt_trichotomy i n with hi | rfl | hi
  · rw [mapped, mapped, if_neg (by omega), if_neg (by omega), update_of_ne (by omega)]
  · have h0 : pa + pg (i - i) = pa := by simp [pg]
    rw [mapped, mapped, if_neg (by omega), if_pos (by omega), update_self, h0]
  · have hpg : pa + PGSIZE + pg (i - (n + 1)) = pa + pg (i - n) := by
      rw [BitVec.add_assoc, BitVec.add_comm PGSIZE, pg_succ]
      congr 2
      omega
    by_cases hc : i < n + 1 + c
    · rw [mapped, mapped, if_pos (by omega), if_pos (by omega), hpg]
    · rw [mapped, mapped, if_neg (by omega), if_neg (by omega), update_of_ne (by omega)]

/-- The map without the entries that uvmunmap() removes. -/
def unmapped (f : Nat → Option Word) (n c i : Nat) : Option Word :=
  if n ≤ i ∧ i < n + c then none else f i

theorem unmapped_zero : unmapped f n 0 = f := by
  funext i
  exact if_neg (by omega)

theorem unmapped_succ :
    unmapped (update f n none) (n + 1) c = unmapped f n (c + 1) := by
  funext i
  rcases eq_or_ne i n with rfl | hi
  · rw [unmapped, unmapped, if_neg (by omega), if_pos (by omega), update_self]
  · rw [unmapped, unmapped, update_of_ne hi]
    congr 1
    exact propext (by omega)

/-- The physical pages of c entries from n on. -/
def pagesOf (f : Nat → Option Word) (n c : Nat) : Multiset Addr :=
  ((List.range' n c).map (fun i => (f i).elim 0 pte2pa) : List Addr)

theorem pagesOf_zero : pagesOf f n 0 = 0 := rfl

theorem pagesOf_succ : pagesOf f n (c + 1) = (f n).elim 0 pte2pa ::ₘ pagesOf f (n + 1) c := rfl

theorem pagesOf_congr (h : ∀ i, n ≤ i → i < n + c → f i = g i) : pagesOf f n c = pagesOf g n c := by
  rw [pagesOf, pagesOf]
  congr 1
  refine List.map_congr_left (fun i hi => ?_)
  obtain ⟨hlo, hhi⟩ := List.mem_range'_1.mp hi
  rw [h i hlo hhi]

/-- The pages that uvmunmap() gives back. -/
def freed (doFree : Bool) (f : Nat → Option Word) (n c : Nat) : Multiset Addr :=
  if doFree then pagesOf f n c else 0

theorem freed_congr (h : ∀ i, n ≤ i → i < n + c → f i = g i) : freed b f n c = freed b g n c := by
  rw [freed, freed, pagesOf_congr h]

theorem pg_div (va : Addr) (h : va.toNat % 4096 = 0) : pg (va.toNat / 4096) = va := by
  apply BitVec.eq_of_toNat_eq
  have := va.isLt
  rw [pg_toNat (by omega)]
  omega

theorem umod_pgsize {a : Addr} : a % PGSIZE = 0 ↔ a.toNat % 4096 = 0 := by
  rw [← BitVec.toNat_inj, BitVec.toNat_umod]
  exact Iff.rfl

theorem valid_of_has (h : Has w PTE_V) : valid w = some w := if_pos h

section Layout
variable [Image]

def freeIf (doFree : Bool) (pa : Addr) : Km Unit := if doFree then kfree pa else pure ()

/-- The loop of uvmunmap(), up to the address `last`. -/
def unmapLoop (pagetable last : Addr) (doFree : Bool) : Nat → Addr → Km Unit
  | 0, _ => panic .endless
  | n + 1, a =>
    if a < last then do
      match ← walk pagetable a false with
      | none => panic .unmapWalk
      | some (x, i) => do
        let pte ← load x i
        if ¬ Has pte PTE_V then panic .notMapped
        else if pteFlags pte = PTE_V then panic .notLeaf
        else do
          freeIf doFree (pte2pa pte)
          store x i 0
          unmapLoop pagetable last doFree n (a + PGSIZE)
    else pure ()

def uvmunmap (pagetable va npages : Addr) (doFree : Bool) : Km Unit :=
  if va % PGSIZE ≠ 0 then panic .unmapAlign
  else unmapLoop pagetable (va + npages * PGSIZE) doFree LOOPS va

/-- In k a page table lies at root that represents the map f, with entries below MAXVA, and R are
the other pages in use. -/
structure PageTable (R : Multiset Addr) (root : Addr) (f : Nat → Option Word) (k : Kmem) :
    Prop where
  owned : Owned (ptPages k.mem root + R) k
  pointers : PointersOk k.mem 2 root
  map : lookup k.mem root = f
  low : ∀ n, USERPAGES ≤ n → f n = none

theorem PageTable.nodup (h : PageTable R root f k) : (ptPages k.mem root).Nodup :=
  (Multiset.nodup_add.mp h.owned.nodup).1

theorem PageTable.apart (h : PageTable R root f k) (hx : x ∈ R) : x ∉ ptPages k.mem root :=
  fun ht => Multiset.disjoint_left.mp (Multiset.nodup_add.mp h.owned.nodup).2.2 ht hx

/-- Whatever happens outside the page-table pages leaves the map alone. -/
theorem PageTable.congr (h : PageTable R root f k)
    (hm : ∀ x ∈ ptPages k.mem root, k'.mem x = k.mem x)
    (ho : Owned (ptPages k.mem root + S) k') : PageTable S root f k' := by
  refine ⟨?_, pointers_congr hm h.pointers, (lookup_congr hm).trans h.map, h.low⟩
  rw [ptPages, tables_congr hm]
  exact ho

theorem PageTable.grown (h : PageTable R root f k) (hg : Grown R 2 root k k') :
    PageTable R root f k' := by
  refine ⟨hg.owned, hg.pointers, ?_, h.low⟩
  rw [← h.map]
  funext n
  rw [lookup, lookup, hg.leaf]

theorem PageTable.write (h : PageTable R root f k) (hn : n < USERPAGES)
    (hs : slot sv39 k.mem (keyOf n) 2 root = some s) (w : Word) :
    PageTable R root (update f n (valid w))
      (k.put s.1 (update (k.mem s.1) s.2 w)) ∧
    Keeps R k (k.put s.1 (update (k.mem s.1) s.2 w)) := by
  have hmem : (k.put s.1 (update (k.mem s.1) s.2 w)).mem = Radix.write k.mem s w := rfl
  have hin := slot_mem hs
  obtain ⟨ht, hp, -⟩ := write_slot (P := fun w => pteFlags w = PTE_V) h.nodup hs w
  refine ⟨⟨?_, ?_, ?_, ?_⟩, ?_⟩
  · rw [hmem, ptPages, ht]
    exact h.owned.put (Multiset.mem_add.mpr (.inl hin)) _
  · rw [hmem]
    exact hp h.pointers
  · rw [hmem, lookup_write h.nodup (user_lt_vpns hn) hs, h.map]
  · intro i hi
    rw [update_of_ne (by omega)]
    exact h.low i hi
  · intro y hy
    exact put_of_ne _ _ (fun he => h.apart hy (he ▸ hin))

theorem PageTable.kfree (h : PageTable (x ::ₘ R) root f k) :
    Ends (kfree x) k (fun _ k' => PageTable R root f k' ∧ Keeps (ptPages k.mem root + R) k k') := by
  have ho : Owned (x ::ₘ (ptPages k.mem root + R)) k := by
    rw [← Multiset.add_cons]
    exact h.owned
  refine (kfree_keeps ho).mono (fun _ k' hk => ?_)
  exact ⟨h.congr (fun y hy => hk.1 y (Multiset.mem_add.mpr (.inl hy))) hk.2, hk.1⟩

theorem PageTable.walk (hp : PageTable R root f k) (h : n < USERPAGES) :
    Ends (walk root (pg n) true) k (fun s k' => PageTable R root f k' ∧ Keeps R k k' ∧
      ∀ t, s = some t → slot sv39 k'.mem (keyOf n) 2 root = some t) := by
  rw [Mem.walk, if_neg (pg_lt_maxva h)]
  refine (walkFrom_ends (pg n) hp.owned hp.pointers).mono (fun s k' hk => ?_)
  rw [key_pg h] at hk
  exact ⟨hp.grown hk.1, hk.1.keeps, hk.2⟩

omit [Image] in
theorem walk_beyond (h : ¬ n < USERPAGES) (hn : n < 2 ^ 52) :
    (Mem.walk root (pg n) alloc).run k = .error .walk := by
  have hmax : MAXVA ≤ pg n := by
    rw [USERPAGES] at h
    rw [maxva_le, pg_toNat hn]
    omega
  rw [Mem.walk, if_pos hmax]
  rfl

/-- mappages() adds its entries, or fails after some of them because walk() finds no memory. It
panics only if a page of the range is mapped or lies beyond MAXVA. -/
theorem PageTable.mapLoop (hp : PageTable R root f k) (pa : Addr) (perm : Word) (hc : 0 < c)
    (hc' : c < 2 ^ 52) (hn' : n < 2 ^ 52) (hf : c ≤ fuel) :
    EndsOr (mapLoop root (pg (n + (c - 1))) perm fuel (pg n) pa) k
      (¬ (n + c ≤ USERPAGES ∧ ∀ i, n ≤ i → i < n + c → f i = none))
      (fun r k' => Keeps R k k' ∧
        (r = 0 ∧ PageTable R root (mapped f n c pa perm) k' ∧ n + c ≤ USERPAGES ∧
          (∀ i, n ≤ i → i < n + c → f i = none) ∨
        r = -1 ∧ ∃ j < c, PageTable R root (mapped f n j pa perm) k')) := by
  induction fuel generalizing n c f k pa with
  | zero => omega
  | succ fuel ih =>
    rw [Mem.mapLoop]
    by_cases hn : n < USERPAGES
    · refine .bind (hp.walk hn) (fun s k1 h1 => ?_)
      obtain ⟨hp1, hk1, hs1⟩ := h1
      cases s with
      | none =>
        refine .inl (ends_pure.mpr ⟨hk1, .inr ⟨rfl, 0, hc, ?_⟩⟩)
        rw [mapped_zero]
        exact hp1
      | some s =>
        obtain ⟨x, i⟩ := s
        have hs := hs1 _ rfl
        have hl := lookup_of_slot (user_lt_vpns hn) hs
        rw [hp1.map] at hl
        refine endsOr_load ?_
        by_cases hv : Has (k1.mem x i) PTE_V
        · rw [if_pos hv]
          refine .inr ⟨fun hno => ?_, .remap, rfl⟩
          rw [hno.2 n (by omega) (by omega), valid_of_has hv] at hl
          cases hl
        have hfn : f n = none := hl.trans (if_neg hv)
        rw [if_neg hv]
        refine endsOr_store ?_
        obtain ⟨hp2, hk2⟩ := hp1.write hn hs (mkPte pa perm)
        rw [valid_of_has (valid_mkPte pa perm)] at hp2
        have hkeep := hk1.trans hk2
        by_cases hlast : c = 1
        · subst hlast
          rw [if_pos (by rfl)]
          refine .inl (ends_pure.mpr ⟨hkeep, .inl ⟨rfl, ?_, by omega, ?_⟩⟩)
          · rw [← mapped_succ, mapped_zero]
            exact hp2
          · intro j hj hj'
            obtain rfl : j = n := by omega
            exact hfn
        · rw [if_neg (pg_ne (by omega) (by omega)), pg_succ,
            show n + (c - 1) = n + 1 + (c - 1 - 1) by omega]
          rw [USERPAGES] at hn
          refine (ih hp2 _ (by omega) (by omega) (by omega) (by omega)).mono ?_ ?_
          · intro hno hall
            refine hno ⟨by omega, fun j hj hj' => ?_⟩
            rw [update_of_ne (by omega)]
            exact hall.2 j (by omega) (by omega)
          intro r k' h
          obtain ⟨hk', h⟩ := h
          refine ⟨hkeep.trans hk', ?_⟩
          rcases h with ⟨hr, hp', hle, hno⟩ | ⟨hr, j, hj, hp'⟩
          · rw [mapped_succ, show c - 1 + 1 = c by omega] at hp'
            refine .inl ⟨hr, hp', by omega, fun j hj hj' => ?_⟩
            rcases eq_or_ne j n with rfl | hjn
            · exact hfn
            · have := hno j (by omega) (by omega)
              rwa [update_of_ne hjn] at this
          · rw [mapped_succ] at hp'
            exact .inr ⟨hr, j + 1, by omega, hp'⟩
    · refine .inr ⟨by omega, .walk, ?_⟩
      rw [StateT.run_bind, walk_beyond hn hn']
      rfl

theorem PageTable.mappages (hp : PageTable R root f k) (va size pa : Addr) (perm : Word) :
    EndsOr (mappages root va size pa perm) k
      (¬ (va.toNat % 4096 = 0 ∧ size.toNat % 4096 = 0 ∧ 0 < size.toNat ∧
        va.toNat / 4096 + size.toNat / 4096 ≤ USERPAGES ∧ ∀ i, va.toNat / 4096 ≤ i →
          i < va.toNat / 4096 + size.toNat / 4096 → f i = none))
      (fun r k' => Keeps R k k' ∧
        (r = 0 ∧ PageTable R root (mapped f (va.toNat / 4096) (size.toNat / 4096) pa perm) k' ∧
          va.toNat / 4096 + size.toNat / 4096 ≤ USERPAGES ∧
          (∀ i, va.toNat / 4096 ≤ i → i < va.toNat / 4096 + size.toNat / 4096 → f i = none) ∨
        r = -1 ∧ ∃ j < size.toNat / 4096,
          PageTable R root (mapped f (va.toNat / 4096) j pa perm) k')) := by
  have hv := va.isLt
  have hz := size.isLt
  rw [Mem.mappages]
  by_cases h1 : va % PGSIZE = 0
  · rw [if_neg (not_not.mpr h1)]
    by_cases h2 : size % PGSIZE = 0
    · rw [if_neg (not_not.mpr h2)]
      rw [umod_pgsize] at h1 h2
      by_cases h3 : size = 0
      · rw [if_pos h3]
        refine .inr ⟨fun h => ?_, .mapZero, rfl⟩
        rw [h3] at h
        exact absurd h.2.2.1 (by decide)
      have hpos : 0 < size.toNat :=
        Nat.pos_of_ne_zero (fun h => h3 (BitVec.eq_of_toNat_eq h))
      rw [if_neg h3]
      have hlast : va + size - PGSIZE = pg (va.toNat / 4096 + (size.toNat / 4096 - 1)) := by
        apply BitVec.eq_of_toNat_eq
        rw [BitVec.toNat_sub, BitVec.toNat_add, pg, BitVec.toNat_ofNat, pgsize_toNat]
        omega
      have hfuel : size.toNat / 4096 ≤ LOOPS := by
        rw [LOOPS]
        omega
      have := hp.mapLoop (n := va.toNat / 4096) (c := size.toNat / 4096) pa perm
        (by omega) (by omega) (by omega) hfuel
      rw [← hlast, pg_div va h1] at this
      exact this.mono (fun he h => he ⟨h.2.2.2.1, h.2.2.2.2⟩) (fun _ _ h => h)
    · rw [if_pos h2]
      refine .inr ⟨fun h => h2 (umod_pgsize.mpr h.2.1), .mapSize, rfl⟩
  · rw [if_pos h1]
    refine .inr ⟨fun h => h1 (umod_pgsize.mpr h.1), .mapVa, rfl⟩

/-- One page, as everywhere in the kernel but at boot. -/
theorem PageTable.mapPage (hp : PageTable R root f k) (hn : n < USERPAGES) (hf : f n = none) :
    Ends (Mem.mappages root (pg n) PGSIZE pa perm) k (fun r k' => Keeps R k k' ∧
      (r = 0 ∧ PageTable R root (update f n (some (mkPte pa perm))) k' ∨
        r = -1 ∧ PageTable R root f k')) := by
  have hn' := hn
  rw [USERPAGES] at hn'
  have hpg : (pg n).toNat = 4096 * n := pg_toNat (by omega)
  have hdiv : 4096 * n / 4096 = n := by omega
  have h := hp.mappages (pg n) PGSIZE pa perm
  rw [hpg, hdiv, pgsize_toNat] at h
  refine (h.ends (not_not.mpr ⟨by omega, by omega, by omega, by omega, ?_⟩)).mono ?_
  · intro i hi hi'
    obtain rfl : i = n := by omega
    exact hf
  intro r k' hk
  obtain ⟨hk', hr⟩ := hk
  refine ⟨hk', ?_⟩
  rcases hr with ⟨hr, hp', -⟩ | ⟨hr, j, hj, hp'⟩
  · rw [show 4096 / 4096 = 0 + 1 from rfl, ← mapped_succ, mapped_zero] at hp'
    exact .inl ⟨hr, hp'⟩
  · obtain rfl : j = 0 := by omega
    rw [mapped_zero] at hp'
    exact .inr ⟨hr, hp'⟩

/-- The first page of a range is given back, or kept. -/
theorem PageTable.release (hp : PageTable (freed doFree f n (c + 1) + R) root f k)
    (hw : f n = some w) :
    Ends (freeIf doFree (pte2pa w)) k (fun _ k' =>
      PageTable (freed doFree f (n + 1) c + R) root f k' ∧
      Keeps (ptPages k.mem root + R) k k') := by
  cases doFree with
  | false => exact ends_pure.mpr ⟨hp, fun _ _ => rfl⟩
  | true =>
    have hp' : PageTable (pte2pa w ::ₘ (pagesOf f (n + 1) c + R)) root f k := by
      rw [freed, if_pos rfl, pagesOf_succ, hw, Multiset.cons_add] at hp
      exact hp
    rw [freeIf, if_pos rfl, freed, if_pos rfl]
    refine hp'.kfree.mono (fun _ k' hk => ⟨hk.1, hk.2.mono ?_⟩)
    exact Multiset.add_le_add_left (Multiset.le_add_left R _)

/-- uvmunmap() of pages that are mapped as leaves. With doFree it also gives their pages back. -/
theorem PageTable.unmapLoop (hp : PageTable (freed doFree f n c + R) root f k)
    (hn : n + c ≤ USERPAGES)
    (hl : ∀ i, n ≤ i → i < n + c → ∃ w, f i = some w ∧ pteFlags w ≠ PTE_V) (hf : c < fuel) :
    Ends (unmapLoop root (pg (n + c)) doFree fuel (pg n)) k (fun _ k' =>
      PageTable R root (unmapped f n c) k' ∧ Keeps R k k') := by
  have hzero : ∀ f n, freed doFree f n 0 + R = R := by
    intro f n
    cases doFree <;> exact Multiset.zero_add R
  induction fuel generalizing n c f k with
  | zero => omega
  | succ fuel ih =>
    rw [Mem.unmapLoop, ends_ite]
    have hn' := hn
    rw [USERPAGES] at hn'
    cases c with
    | zero =>
      rw [hzero] at hp
      rw [Nat.add_zero, if_neg (BitVec.lt_irrefl _)]
      exact ends_pure.mpr ⟨unmapped_zero ▸ hp, fun _ _ => rfl⟩
    | succ c =>
      have hlt : pg n < pg (n + (c + 1)) := by
        rw [BitVec.lt_def, pg_toNat (by omega), pg_toNat (by omega)]
        omega
      have hu : n < USERPAGES := by omega
      rw [if_pos hlt, ends_bind, walk_read_pg hu]
      obtain ⟨w, hw, hleaf⟩ := hl n (by omega) (by omega)
      obtain ⟨⟨x, i⟩, hs, rfl, hv⟩ := slot_of_lookup (hp.map ▸ hw)
      rw [hs, ends_bind, ends_load, if_neg (not_not.mpr hv), if_neg hleaf]
      refine (hp.release hw).bind (fun _ k1 h1 => ?_)
      obtain ⟨hp1, hk1⟩ := h1
      have hs1 : slot sv39 k1.mem (keyOf n) 2 root = some (x, i) := by
        rw [slot_congr (fun y hy => hk1 y (Multiset.mem_add.mpr (.inl hy)))]
        exact hs
      rw [ends_bind, ends_store]
      obtain ⟨hp2, hk2⟩ := hp1.write hu hs1 0
      have hrest : freed doFree f (n + 1) c =
          freed doFree (update f n (valid 0)) (n + 1) c := by
        refine freed_congr (fun j hj _ => ?_)
        rw [update_of_ne (by omega)]
      rw [hrest] at hp2 hk2
      rw [pg_succ, show n + (c + 1) = n + 1 + c by omega]
      refine (ih hp2 (by omega) ?_ (by omega)).mono (fun _ k' h => ?_)
      · intro j hj hj'
        rw [update_of_ne (by omega)]
        exact hl j (by omega) (by omega)
      · refine ⟨?_, ?_⟩
        · have := h.1
          rwa [show valid 0 = none from rfl, unmapped_succ] at this
        · have h1 := hk1.mono (Multiset.le_add_left R _)
          have h2 := hk2.mono (Multiset.le_add_left R _)
          exact (h1.trans h2).trans h.2

theorem PageTable.uvmunmap (hp : PageTable (freed doFree f n c + R) root f k)
    (hc : npages.toNat = c) (hn : n + c ≤ USERPAGES)
    (hl : ∀ i, n ≤ i → i < n + c → ∃ w, f i = some w ∧ pteFlags w ≠ PTE_V) :
    Ends (uvmunmap root (pg n) npages doFree) k (fun _ k' =>
      PageTable R root (unmapped f n c) k' ∧ Keeps R k k') := by
  have hn' := hn
  rw [USERPAGES] at hn'
  have hpg : (pg n).toNat = 4096 * n := pg_toNat (by omega)
  have hal : pg n % PGSIZE = 0 := umod_pgsize.mpr (by omega)
  have hlast : pg n + npages * PGSIZE = pg (n + c) := by
    apply BitVec.eq_of_toNat_eq
    rw [BitVec.toNat_add, BitVec.toNat_mul, hpg, pg_toNat (by omega), pgsize_toNat, hc]
    omega
  have hfuel : c < LOOPS := by
    rw [LOOPS]
    omega
  rw [Mem.uvmunmap, if_neg (not_not.mpr hal), hlast]
  exact hp.unmapLoop hn hl hfuel

theorem pageTable_zero (ho : Owned (x ::ₘ R) k) :
    PageTable R x (fun _ => none) (k.put x 0) := by
  have hnext : ∀ j, sv39.next ((k.put x 0).mem x j) = none := by
    intro j
    rw [put_self]
    exact next_zero
  refine ⟨?_, ?_, ?_, fun _ _ => rfl⟩
  · rw [ptPages, tables_empty hnext, Multiset.singleton_add]
    exact ho.put (Multiset.mem_cons_self _ _) _
  · intro i c hn
    rw [hnext] at hn
    cases hn
  · funext n
    refine lookup_of_no_slot ?_
    rw [slot, hnext]
    rfl

theorem uvmcreate_ends (ho : Owned R k) : Ends uvmcreate k (fun r k' => Keeps R k k' ∧
    match r with
    | none => Owned R k'
    | some root => PageTable R root (fun _ => none) k') := by
  rw [uvmcreate]
  refine (kalloc_keeps ho).bind (fun r k' h => ?_)
  obtain ⟨hk, h⟩ := h
  cases r with
  | none => exact ends_pure.mpr ⟨hk, h⟩
  | some x =>
    rw [ends_bind, ends_setPage, ends_pure]
    exact ⟨hk.trans (h.keeps (fun y hy => put_of_ne _ _ hy)), pageTable_zero h⟩

/-- The map as the source speaks of it: the physical page and the flags of each mapped page. -/
def entries (f : Nat → Option Word) (n : Nat) : Option (Addr × Word) :=
  (f n).map (fun w => (pte2pa w, pteFlags w))

/-- The page numbers of [va, va + size). -/
def InRange (va size : Addr) (i : Nat) : Prop :=
  va.toNat / 4096 ≤ i ∧ i < va.toNat / 4096 + size.toNat / 4096

/-- What mappages() does to the map: it returns if it may, adds its entries and no other when it
returns 0, and otherwise touches nothing outside its range. -/
structure MapsPages (R : Multiset Addr) (root : Addr) (f : Nat → Option Word) (k : Kmem)
    (va size pa : Addr) (perm : Word) : Prop where
  returns : va.toNat % 4096 = 0 → size.toNat % 4096 = 0 → 0 < size.toNat →
    va.toNat + size.toNat ≤ 2 ^ 38 → (∀ i, InRange va size i → f i = none) →
    ∃ r k', (mappages root va size pa perm).run k = .ok (r, k')
  success : ∀ k', (mappages root va size pa perm).run k = .ok (0, k') →
    ∃ f', PageTable R root f' k' ∧ (∀ i, ¬ InRange va size i → f' i = f i) ∧
      ∀ j < size.toNat / 4096, f (va.toNat / 4096 + j) = none ∧
        entries f' (va.toNat / 4096 + j) = some (pa + pg j, perm ||| PTE_V)
  failure : ∀ r k', (mappages root va size pa perm).run k = .ok (r, k') → r ≠ 0 →
    ∃ f', PageTable R root f' k' ∧ ∀ i, ¬ InRange va size i → f' i = f i

theorem PageTable.mapsPages (hp : PageTable R root f k) (va size : Addr)
    (ha : pa.toNat % 4096 = 0) (hperm : perm.toNat < 1024) :
    MapsPages R root f k va size pa perm := by
  have h := hp.mappages va size pa perm
  have hout : ∀ c, c ≤ size.toNat / 4096 → ∀ i, ¬ InRange va size i →
      mapped f (va.toNat / 4096) c pa perm i = f i := by
    intro c hc i hi
    refine if_neg (fun hr => hi ?_)
    exact ⟨hr.1, by omega⟩
  refine ⟨fun h1 h2 h3 h4 h5 => ?_, fun k' hr => ?_, fun r k' hr hne => ?_⟩
  · have hle : va.toNat / 4096 + size.toNat / 4096 ≤ USERPAGES := by
      rw [USERPAGES]
      omega
    have hpre : ∀ i, va.toNat / 4096 ≤ i → i < va.toNat / 4096 + size.toNat / 4096 → f i = none :=
      fun i hi hi' => h5 i ⟨hi, hi'⟩
    obtain ⟨r, k', hr, -⟩ := h.ends (not_not.mpr ⟨h1, h2, h3, hle, hpre⟩)
    exact ⟨r, k', hr⟩
  · obtain ⟨-, ⟨-, hp', -, hno⟩ | ⟨he, -⟩⟩ := h.returns hr
    · refine ⟨_, hp', hout _ (Nat.le_refl _), fun j hj => ⟨hno _ (by omega) (by omega), ?_⟩⟩
      have hal : (pa + pg j).toNat % 4096 = 0 := by
        have := pa.isLt
        rw [BitVec.toNat_add, pg, BitVec.toNat_ofNat]
        omega
      rw [entries, mapped, if_pos (by omega), Nat.add_sub_cancel_left, Option.map_some,
        pte2pa_mkPte hal hperm, pteFlags_mkPte hal hperm]
    · cases he
  · obtain ⟨-, ⟨he, -⟩ | ⟨-, j, hj, hp'⟩⟩ := h.returns hr
    · exact absurd he hne
    · exact ⟨_, hp', hout j (by omega)⟩

/-- A page table is a partial map from the page numbers below MAXVA, and the four functions that
the rest of vm.c is built on do to the map what they should. -/
theorem pagetable_refines_map (R : Multiset Addr) (k : Kmem) :
    (Owned R k → Ends uvmcreate k (fun r k' =>
      ∀ root, r = some root → PageTable R root (fun _ => none) k')) ∧
    ∀ root f, PageTable R root f k →
      (∀ va size pa perm, pa.toNat % 4096 = 0 → perm.toNat < 1024 →
        MapsPages R root f k va size pa perm) ∧
      (∀ va npages doFree S, va.toNat % 4096 = 0 → va.toNat < 2 ^ 38 →
        R = freed doFree f (va.toNat / 4096) npages.toNat + S →
        (∀ j < npages.toNat, ∃ w, f (va.toNat / 4096 + j) = some w ∧ pteFlags w ≠ PTE_V) →
        Ends (uvmunmap root va npages doFree) k (fun _ k' =>
          PageTable S root (unmapped f (va.toNat / 4096) npages.toNat) k')) ∧
      ∀ va, Ends (walkaddr root va) k (fun r k' => k' = k ∧ r = translate f va) := by
  refine ⟨fun ho => (uvmcreate_ends ho).mono (fun r k' h root hr => ?_), fun root f hp => ?_⟩
  · subst hr
    exact h.2
  · refine ⟨fun va size pa perm ha hperm => hp.mapsPages va size ha hperm, ?_, fun va => ?_⟩
    · intro va npages doFree S h1 h2 hR hl
      subst hR
      have hle : va.toNat / 4096 + npages.toNat ≤ USERPAGES := by
        by_contra hgt
        rw [USERPAGES] at hgt
        obtain ⟨w, hw, -⟩ := hl (2 ^ 26 - va.toNat / 4096) (by omega)
        rw [hp.low _ (by rw [USERPAGES]; omega)] at hw
        cases hw
      have := hp.uvmunmap rfl hle (fun i hi hi' => by
        obtain ⟨w, hw⟩ := hl (i - va.toNat / 4096) (by omega)
        rw [Nat.add_sub_cancel' hi] at hw
        exact ⟨w, hw⟩)
      rw [pg_div va h1] at this
      exact this.mono (fun _ k' h => h.1)
    · rw [walkaddr_ends, hp.map]
      exact ⟨rfl, rfl⟩

end Layout

/-- A kernel that leaves three pages. -/
abbrev tiny : Image where
  kend := PHYSTOP - 3 * PGSIZE
  trampoline := KERNBASE + 7 * PGSIZE
  kend_ge := by decide
  kend_le := by decide
  trampoline_aligned := by decide

/-- The three pages on the free list. -/
def tinyKmem : Kmem where
  mem x _ := if x = PHYSTOP - PGSIZE then 0 else x + PGSIZE
  freelist := PHYSTOP - 3 * PGSIZE
  luck _ := true

theorem pagetable_refines_map_tiny :
    @Owned tiny 0 tinyKmem ∧
    Ends uvmcreate tinyKmem (fun r k' =>
      ∀ root, r = some root → @PageTable tiny 0 root (fun _ => none) k') ∧
    ∃ root k, uvmcreate.run tinyKmem = .ok (some root, k) ∧
      @PageTable tiny 0 root (fun _ => none) k ∧
      @MapsPages tiny 0 root (fun _ => none) k 0 PGSIZE (KERNBASE + PGSIZE) PTE_R := by
  have ho : @Owned tiny 0 tinyKmem := by
    refine ⟨[PHYSTOP - 3 * PGSIZE, PHYSTOP - 2 * PGSIZE, PHYSTOP - PGSIZE], ?_, by decide⟩
    exact .cons _ _ (by decide) (.cons _ _ (by decide) (.cons _ _ (by decide) .nil))
  have hc := (@pagetable_refines_map tiny 0 tinyKmem).1 ho
  refine ⟨ho, hc, ?_⟩
  obtain ⟨r, k, hr, hp⟩ := hc
  have hsome : r.isSome := by
    have : (uvmcreate.run tinyKmem).toOption.map (fun a => a.1.isSome) = some true := by rfl
    rw [hr] at this
    exact Option.some.inj this
  obtain ⟨root, rfl⟩ := Option.isSome_iff_exists.mp hsome
  have hroot := hp root rfl
  exact ⟨root, k, hr, hroot, ((@pagetable_refines_map tiny 0 k).2 root _ hroot).1 _ _ _ _
    (by decide) (by decide)⟩

end Xv6.Mem
