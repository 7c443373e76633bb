import Xv6.Mem.Space

namespace Xv6.Mem
open Function Lib.Radix Multiset Lib

abbrev Byte := BitVec 8

/-- The word of a page with the byte at an offset. -/
def wordOf (o : Nat) : Fin 512 := ⟨o / 8 % 512, Nat.mod_lt _ (by decide)⟩

def getByte (p : Page) (o : Nat) : Byte := (p (wordOf o) >>> (8 * (o % 8))).setWidth 8

def setByte (p : Page) (o : Nat) (b : Byte) : Page :=
  update p (wordOf o) ((p (wordOf o) &&& ~~~((0xFF : Word) <<< (8 * (o % 8)))) |||
    (b.setWidth 64 <<< (8 * (o % 8))))

/-- The n bytes from an offset on. -/
def getBytes (p : Page) (o n : Nat) : List Byte := (List.range' o n).map (getByte p)

def setBytes (p : Page) (o : Nat) : List Byte → Page
  | [] => p
  | b :: bs => setBytes (setByte p o b) (o + 1) bs

/-- Little-endian, as the machine and the file formats have it. -/
def ofBytes : List Byte → Nat
  | [] => 0
  | b :: bs => b.toNat + 256 * ofBytes bs

def toBytes (w : Word) : List Byte := (List.range 8).map (fun i => (w >>> (8 * i)).setWidth 8)

/-- What is left of the page at an address, at most n. -/
def chunk (va : Addr) (n : Nat) : Nat := min (4096 - (va - pgrounddown va).toNat) n

/-- The loop of copyout(). -/
def copyoutLoop (pagetable : Addr) : Nat → Addr → List Byte → Km Int
  | 0, _, _ => pure 0
  | n + 1, dstva, src =>
    if src = [] then pure 0
    else if MAXVA ≤ pgrounddown dstva then pure (-1)
    else do
      match ← walk pagetable (pgrounddown dstva) false with
      | none => pure (-1)
      | some (x, i) => do
        let pte ← load x i
        if ¬ Has pte PTE_V ∨ ¬ Has pte PTE_U ∨ ¬ Has pte PTE_W then pure (-1)
        else do
          let m := chunk dstva src.length
          let p ← getPage (pte2pa pte)
          setPage (pte2pa pte) (setBytes p (dstva - pgrounddown dstva).toNat (src.take m))
          copyoutLoop pagetable n (pgrounddown dstva + PGSIZE) (src.drop m)

def copyout (pagetable dstva : Addr) (src : List Byte) : Km Int :=
  copyoutLoop pagetable src.length dstva src

/-- The loop of copyin(). None is the result -1. -/
def copyinLoop (pagetable : Addr) : Nat → Addr → Nat → Km (Option (List Byte))
  | 0, _, _ => pure (some [])
  | fuel + 1, srcva, len =>
    if len = 0 then pure (some [])
    else do
      let pa0 ← walkaddr pagetable (pgrounddown srcva)
      if pa0 = 0 then pure none
      else do
        let n := chunk srcva len
        let p ← getPage pa0
        match ← copyinLoop pagetable fuel (pgrounddown srcva + PGSIZE) (len - n) with
        | none => pure none
        | some bs => pure (some (getBytes p (srcva - pgrounddown srcva).toNat n ++ bs))

def copyin (pagetable srcva : Addr) (len : Nat) : Km (Option (List Byte)) :=
  copyinLoop pagetable len srcva len

/-- The loop of copyinstr(). The string comes without its NUL; none is the result -1. -/
def copyinstrLoop (pagetable : Addr) : Nat → Addr → Nat → Km (Option (List Byte))
  | 0, _, _ => pure none
  | fuel + 1, srcva, max =>
    if max = 0 then pure none
    else do
      let pa0 ← walkaddr pagetable (pgrounddown srcva)
      if pa0 = 0 then pure none
      else do
        let n := chunk srcva max
        let p ← getPage pa0
        let bs := getBytes p (srcva - pgrounddown srcva).toNat n
        if 0 ∈ bs then pure (some (bs.takeWhile (· ≠ 0)))
        else do
          match ← copyinstrLoop pagetable fuel (pgrounddown srcva + PGSIZE) (max - n) with
          | none => pure none
          | some rest => pure (some (bs ++ rest))

def copyinstr (pagetable srcva : Addr) (max : Nat) : Km (Option (List Byte)) :=
  copyinstrLoop pagetable max srcva max

def fetchaddr (pagetable sz addr : Addr) : Km (Option Word) :=
  if sz ≤ addr ∨ sz < addr + 8 then pure none
  else do
    match ← copyin pagetable addr 8 with
    | none => pure none
    | some bs => pure (some (BitVec.ofNat 64 (ofBytes bs)))

/-- The string itself instead of its length. -/
def fetchstr (pagetable addr : Addr) (max : Nat) : Km (Option (List Byte)) :=
  copyinstr pagetable addr max

def uvmclear (pagetable va : Addr) : Km Unit := do
  match ← walk pagetable va false with
  | none => panic .clear
  | some (x, i) => do
    let pte ← load x i
    store x i (pte &&& ~~~PTE_U)

theorem copyinLoop_read (hq : ∀ r, Q r k) : Ends (copyinLoop root fuel srcva len) k Q := by
  induction fuel generalizing srcva len Q with
  | zero => exact ends_pure.mpr (hq _)
  | succ fuel ih =>
    rw [copyinLoop, ends_ite]
    split
    · exact ends_pure.mpr (hq _)
    rw [ends_bind, walkaddr_ends, ends_ite]
    split
    · exact ends_pure.mpr (hq _)
    · rw [ends_bind, ends_getPage, ends_bind]
      refine ih (fun r => ?_)
      cases r with
      | none => exact ends_pure.mpr (hq _)
      | some bs => exact ends_pure.mpr (hq _)

theorem copyinstrLoop_read (hq : ∀ r, Q r k) : Ends (copyinstrLoop root fuel srcva len) k Q := by
  induction fuel generalizing srcva len Q with
  | zero => exact ends_pure.mpr (hq _)
  | succ fuel ih =>
    rw [copyinstrLoop, ends_ite]
    split
    · exact ends_pure.mpr (hq _)
    rw [ends_bind, walkaddr_ends, ends_ite]
    split
    · exact ends_pure.mpr (hq _)
    rw [ends_bind, ends_getPage, ends_ite]
    split
    · exact ends_pure.mpr (hq _)
    · rw [ends_bind]
      refine ih (fun r => ?_)
      cases r with
      | none => exact ends_pure.mpr (hq _)
      | some bs => exact ends_pure.mpr (hq _)

theorem fetchaddr_read (hq : ∀ r, Q r k) : Ends (fetchaddr root sz addr) k Q := by
  rw [fetchaddr, ends_ite]
  split
  · exact ends_pure.mpr (hq _)
  · rw [ends_bind]
    refine copyinLoop_read (fun r => ?_)
    cases r with
    | none => exact ends_pure.mpr (hq _)
    | some bs => exact ends_pure.mpr (hq _)

theorem fetchstr_read (hq : ∀ r, Q r k) : Ends (fetchstr root addr len) k Q :=
  copyinstrLoop_read hq

theorem has_clear {flag : Word} (h : PTE_U &&& flag = 0#64) :
    Has (w &&& ~~~PTE_U) flag ↔ Has w flag := by
  have hf : ~~~PTE_U &&& flag = flag := by
    have hsplit : flag = (PTE_U &&& flag) ||| (~~~PTE_U &&& flag) := by
      rw [← BitVec.and_or_distrib_right, BitVec.or_not_self, BitVec.allOnes_and]
    rw [h, BitVec.zero_or] at hsplit
    exact hsplit.symm
  rw [Has, Has, BitVec.and_assoc, hf]

theorem not_user_clear (w : Word) : ¬ Has (w &&& ~~~PTE_U) PTE_U := by
  rw [Has, BitVec.and_assoc, show ~~~PTE_U &&& PTE_U = 0#64 by decide, BitVec.and_zero]
  exact fun h => h rfl

theorem pte2pa_clear (w : Word) : pte2pa (w &&& ~~~PTE_U) = pte2pa w := by
  have hm : (~~~PTE_U : Word) >>> 10 = BitVec.allOnes 64 >>> 10 := by decide
  have hw : w >>> 10 = (w &&& BitVec.allOnes 64) >>> 10 := by rw [BitVec.and_allOnes]
  rw [pte2pa, pte2pa, BitVec.ushiftRight_and_distrib, hm, ← BitVec.ushiftRight_and_distrib, ← hw]

section Layout
variable [Image]

/-- The loop of uvmcopy(). -/
def copyLoop (old new sz : Addr) : Nat → Addr → Km Int
  | 0, _ => panic .endless
  | n + 1, i =>
    if i < sz then do
      match ← walk old i false with
      | none => panic .copyPte
      | some (x, j) => do
        let pte ← load x j
        if ¬ Has pte PTE_V then panic .copyPresent
        else do
          match ← kalloc with
          | none => do
            uvmunmap new 0 (i / PGSIZE) true
            pure (-1)
          | some mem => do
            let p ← getPage (pte2pa pte)
            setPage mem p
            let r ← mappages new i PGSIZE mem (pteFlags pte)
            if r ≠ 0 then do
              kfree mem
              uvmunmap new 0 (i / PGSIZE) true
              pure (-1)
            else copyLoop old new sz n (i + PGSIZE)
    else pure 0

def uvmcopy (old new sz : Addr) : Km Int := copyLoop old new sz LOOPS 0

theorem Space.copyoutLoop (h : Space R root tf n f k) :
    Ends (copyoutLoop root fuel dstva src) k (fun _ k' =>
      Keeps R k k' ∧ Space R root tf n f k') := by
  induction fuel generalizing dstva src k with
  | zero => exact ends_pure.mpr ⟨fun _ _ => rfl, h⟩
  | succ fuel ih =>
    rw [Mem.copyoutLoop]
    refine .ite (fun _ => ends_pure.mpr ⟨fun _ _ => rfl, h⟩) (fun _ => ?_)
    refine .ite (fun _ => ends_pure.mpr ⟨fun _ _ => rfl, h⟩) (fun hva => ?_)
    rw [maxva_le] at hva
    rw [ends_bind, walk_read (by omega)]
    cases hs : slot sv39 k.mem (keyOf ((pgrounddown dstva).toNat / 4096)) 2 root with
    | none => exact ends_pure.mpr ⟨fun _ _ => rfl, h⟩
    | some s =>
      obtain ⟨x, i⟩ := s
      rw [ends_bind, ends_load]
      refine .ite (fun _ => ends_pure.mpr ⟨fun _ _ => rfl, h⟩) (fun hflags => ?_)
      simp only [not_or, not_not] at hflags
      have hvpn : (pgrounddown dstva).toNat / 4096 < VPNS := by
        rw [VPNS]
        omega
      have hw : f ((pgrounddown dstva).toNat / 4096) = some (k.mem x i) := by
        rw [← h.table.map, lookup_of_slot hvpn hs]
        exact valid_of_has hflags.1
      have hlt := h.exact.lt_of_user h.table.low hw hflags.2.1
      have hmem := mem_pagesOf hw hlt
      simp only [ends_bind, ends_getPage, ends_setPage]
      obtain ⟨hk, hput⟩ := h.putUser hmem (setBytes (k.mem (pte2pa (k.mem x i)))
        (dstva - pgrounddown dstva).toNat (src.take (chunk dstva src.length)))
      exact (ih hput).mono (fun _ k' hk' => ⟨hk.trans hk'.1, hk'.2⟩)

/-- copyout() writes to user pages of its address space only. -/
theorem Space.copyout (h : Space R root tf n f k) (dstva : Addr) (src : List Byte) :
    Ends (copyout root dstva src) k (fun _ k' => Keeps R k k' ∧ Space R root tf n f k') :=
  h.copyoutLoop

theorem Space.flags (h : Space R root tf n f k) (hi : i < n)
    (hs : slot sv39 k.mem (keyOf i) 2 root = some s) (hw : f i = some w)
    (hpa : pte2pa w' = pte2pa w) (hv : Has w' PTE_V) (hr : Has w' PTE_R) :
    Keeps (pagesOf f 0 n + R) k (k.put s.1 (update (k.mem s.1) s.2 w')) ∧
    Space R root tf n (update f i (some w'))
      (k.put s.1 (update (k.mem s.1) s.2 w')) := by
  have hb := h.exact.bound
  have hu : i < USERPAGES := by
    rw [TRAPPAGE] at hb
    rw [USERPAGES]
    omega
  obtain ⟨ht, hk⟩ := h.table.write hu hs w'
  rw [valid_of_has hv] at ht
  have hpages : pagesOf f 0 n = pagesOf (update f i (some w')) 0 n := by
    rw [pagesOf, pagesOf]
    congr 1
    refine List.map_congr_left (fun j _ => ?_)
    rcases eq_or_ne j i with rfl | hj
    · rw [update_self, hw, Option.elim_some, Option.elim_some, hpa]
    · rw [update_of_ne hj]
  refine ⟨hk, hpages ▸ ht, hb, fun j hj => ?_, fun j hj hj' => ?_, ?_, ?_⟩
  · rcases eq_or_ne j i with rfl | hji
    · exact ⟨w', update_self .., hr⟩
    · rw [update_of_ne hji]
      exact h.exact.user j hj
  · rw [update_of_ne (by omega)]
    exact h.exact.rest j hj hj'
  · rw [update_of_ne (by omega)]
    exact h.exact.trapframe
  · have hne : TRAMPAGE ≠ i := by
      rw [TRAPPAGE] at hb
      rw [TRAMPAGE]
      omega
    rw [update_of_ne hne]
    exact h.exact.trampoline

theorem Space.uvmclear (h : Space R root tf n f k) (hi : i < n) (hw : f i = some w) :
    Ends (uvmclear root (pg i)) k (fun _ k' => Keeps (pagesOf f 0 n + R) k k' ∧
      Space R root tf n (update f i (some (w &&& ~~~PTE_U))) k') := by
  have hb := h.exact.bound
  have hu : i < USERPAGES := by
    rw [TRAPPAGE] at hb
    rw [USERPAGES]
    omega
  obtain ⟨s, hs, rfl, hv⟩ := slot_of_lookup (h.table.map ▸ hw)
  obtain ⟨w', hw', hr⟩ := h.exact.user i hi
  rw [hw, Option.some.injEq] at hw'
  subst hw'
  rw [Mem.uvmclear, ends_bind, walk_read_pg hu, hs, ends_bind, ends_load, ends_store]
  exact h.flags hi hs hw (pte2pa_clear _) ((has_clear (by decide)).mpr hv)
    ((has_clear (by decide)).mpr hr)

/-- A page table with the map f whose pages are among R. -/
structure Lies (R : Multiset Addr) (root : Addr) (f : Nat → Option Word) (k : Kmem) : Prop where
  inside : ∀ x ∈ ptPages k.mem root, x ∈ R
  map : lookup k.mem root = f

omit [Image] in
theorem Lies.keeps (h : Lies R root f k) (hk : Keeps R k k') : Lies R root f k' := by
  have hm : ∀ x ∈ ptPages k.mem root, k'.mem x = k.mem x := fun x hx => hk x (h.inside x hx)
  refine ⟨?_, (lookup_congr hm).trans h.map⟩
  rw [ptPages, tables_congr hm]
  exact h.inside

omit [Image] in
theorem pteFlags_has {flag : Word} (h : flag.toNat < 1024) :
    Has (pteFlags w) flag ↔ Has w flag := by
  rw [Has, Has, pteFlags, BitVec.and_assoc, BitVec.and_comm 0x3FF, flag_and_mask h]

omit [Image] in
theorem pteFlags_lt (w : Word) : (pteFlags w).toNat < 1024 := by
  rw [pteFlags_toNat]
  omega

/-- The failing end of uvmcopy(): the child keeps no user page. -/
theorem Space.unmapAll (h : Space R root tf n f k) :
    Ends (uvmunmap root 0 (pg n / PGSIZE) true) k (fun _ k' =>
      Keeps R k k' ∧ ∃ g, Space R root tf 0 g k') := by
  have hn := h.small
  have hc : (pg n / PGSIZE).toNat = n - 0 := by
    rw [BitVec.toNat_udiv, pg_toNat (by omega), pgsize_toNat]
    omega
  refine (h.unmap (Nat.zero_le n) hc).mono (fun _ k' hk => ?_)
  exact ⟨hk.1.mono (le_add_left R _), _, hk.2⟩

/-- The first n pages of g hold what those of f hold and have the same flags. -/
def Copied (f g : Nat → Option Word) (n : Nat) (k : Kmem) : Prop :=
  ∀ i < n, ∃ w v, f i = some w ∧ g i = some v ∧ pteFlags v = pteFlags w ∧
    k.mem (pte2pa v) = k.mem (pte2pa w)

omit [Image] in
/-- Copies stay copies as long as nobody writes to them or to the pages they were made from. -/
theorem Copied.keeps (h : Copied f g n k) (hR : ∀ i < n, ∀ w, f i = some w → pte2pa w ∈ R)
    (hk : Keeps (pagesOf g 0 n + R) k k') : Copied f g n k' := by
  intro i hi
  obtain ⟨w, v, hw, hv, hflags, hmem⟩ := h i hi
  refine ⟨w, v, hw, hv, hflags, ?_⟩
  rw [hk _ (mem_add.mpr (.inl (mem_pagesOf hv hi))),
    hk _ (mem_add.mpr (.inr (hR i hi w hw))), hmem]

omit [Image] in
theorem Copied.snoc (h : Copied f g n k) (hw : f n = some w) (hflags : pteFlags v = pteFlags w)
    (hmem : k.mem (pte2pa v) = k.mem (pte2pa w)) :
    Copied f (update g n (some v)) (n + 1) k := by
  intro i hi
  rcases eq_or_ne i n with rfl | hin
  · exact ⟨w, v, hw, update_self .., hflags, hmem⟩
  · rw [update_of_ne hin]
    exact h i (by omega)

theorem Space.copyLoop (h : Space R new tf m g k) (ho : Lies R old f k)
    (hu : ∀ i < pagesUp sz, ∃ w, f i = some w ∧ Has w PTE_R)
    (hR : ∀ i < pagesUp sz, ∀ w, f i = some w → pte2pa w ∈ R) (hc : Copied f g m k)
    (hm : m ≤ pagesUp sz) (hf : 32768 < m + fuel) :
    Ends (copyLoop old new sz fuel (pg m)) k (fun r k' => Keeps R k k' ∧
      (r = 0 ∧ (∃ g', Space R new tf (pagesUp sz) g' k' ∧ Copied f g' (pagesUp sz) k') ∨
        r = -1 ∧ ∃ g', Space R new tf 0 g' k')) := by
  induction fuel generalizing m g k with
  | zero =>
    have := h.small
    omega
  | succ fuel ih =>
    have hsmall := h.small
    have hle : ∀ S : Multiset Addr, R ≤ S + R := fun S => le_add_left R S
    rw [Mem.copyLoop, ends_ite]
    by_cases hlt : pg m < sz
    · have hm' := lt_pagesUp hlt hsmall
      have hup : m < USERPAGES := by
        rw [USERPAGES]
        omega
      obtain ⟨w, hw, hr⟩ := hu m hm'
      obtain ⟨s, hs, rfl, hv⟩ := slot_of_lookup (ho.map ▸ hw)
      rw [if_pos hlt, ends_bind, walk_read_pg hup, hs, ends_bind, ends_load,
        if_neg (not_not.mpr hv)]
      refine h.kalloc.bind (fun r k1 h1 => ?_)
      obtain ⟨hk1, h1⟩ := h1
      have hc1 := hc.keeps (fun i hi => hR i (by omega)) hk1
      have hk1 := hk1.mono (hle _)
      cases r with
      | none =>
        refine h1.unmapAll.bind (fun _ k2 h2 => ?_)
        exact ends_pure.mpr ⟨hk1.trans h2.1, .inr ⟨rfl, h2.2⟩⟩
      | some x =>
        rw [ends_bind, ends_getPage]
        refine h1.addPage _ (pteFlags_lt _) ((pteFlags_has (by decide)).mpr hr)
          (fun k2 hk2 h2 => ?_) (fun k2 hk2 hx h2 => ?_)
        · refine h2.unmapAll.bind (fun _ k3 h3 => ?_)
          exact ends_pure.mpr ⟨(hk1.trans (hk2.mono (hle _))).trans h3.1, .inr ⟨rfl, h3.2⟩⟩
        have hkeep := hk1.trans (hk2.mono (hle _))
        have hpage : x ∈ pages := h1.table.owned.mem_pages
          (mem_add.mpr (.inr (mem_add.mpr (.inr (mem_cons_self x R)))))
        have hc2 : Copied f (update g m (some (mkPte x (pteFlags (k.mem s.1 s.2)))))
            (m + 1) k2 := by
          refine (hc1.keeps (fun i hi => hR i (by omega)) hk2).snoc hw ?_ ?_
          · rw [pteFlags_mkPte (page_aligned hpage) (pteFlags_lt _), pteFlags_valid hv]
          · rw [pte2pa_mkPte (page_aligned hpage) (pteFlags_lt _), hx]
            exact (hk2 _ (mem_add.mpr (.inr (hR m hm' _ hw)))).symm
        rw [pg_succ]
        refine (ih h2 (ho.keeps hkeep) hc2 hm' (by omega)).mono (fun r k3 h3 => ?_)
        exact ⟨hkeep.trans h3.1, h3.2⟩
    · rw [if_neg hlt, ends_pure, pagesUp_eq hlt hm hsmall]
      exact ⟨fun _ _ => rfl, .inl ⟨rfl, g, h, hc⟩⟩

/-- uvmcopy() gives the child copies of all pages of the parent, or fails and leaves it none. -/
theorem Space.uvmcopy (h : Space R new tf 0 g k) (ho : Lies R old f k)
    (hu : ∀ i < pagesUp sz, ∃ w, f i = some w ∧ Has w PTE_R)
    (hR : ∀ i < pagesUp sz, ∀ w, f i = some w → pte2pa w ∈ R) :
    Ends (uvmcopy old new sz) k (fun r k' => Keeps R k k' ∧
      (r = 0 ∧ (∃ g', Space R new tf (pagesUp sz) g' k' ∧ Copied f g' (pagesUp sz) k') ∨
        r = -1 ∧ ∃ g', Space R new tf 0 g' k')) := by
  refine h.copyLoop ho hu hR (fun i hi => absurd hi (Nat.not_lt_zero i)) (Nat.zero_le _) ?_
  rw [LOOPS]
  omega

end Layout

end Xv6.Mem
