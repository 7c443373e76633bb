import Xv6.Mem.Isolation

namespace Xv6.Mem
open Lib.Radix List Lib

/-- The entry of the page with the user's byte at n, which is a number so that a range of them
never wraps. -/
def userPte (m : Addr → Page) (root : Addr) (n : Nat) : Option Word :=
  if n < MAXVA.toNat then (lookup m root (n / 4096)).filter (fun w => Has w PTE_U) else none

/-- The byte at n lies below MAXVA on a page with PTE_V and PTE_U. -/
def Readable (m : Addr → Page) (root : Addr) (n : Nat) : Prop := ∃ w, userPte m root n = some w

/-- As Readable, and with PTE_W. -/
def Writable (m : Addr → Page) (root : Addr) (n : Nat) : Prop :=
  ∃ w, userPte m root n = some w ∧ Has w PTE_W

def byteAt (m : Addr → Page) (root : Addr) (n : Nat) : Option Byte :=
  (userPte m root n).map (fun w => getByte (m (pte2pa w)) (n % 4096))

/-- Behind the user's mappings are pages of memory, each behind one of them, and none of them is a
page of the table. -/
structure UserPages (m : Addr → Page) (root : Addr) : Prop where
  distinct : ∀ a b w v, userPte m root a = some w → userPte m root b = some v →
    pte2pa w = pte2pa v → a / 4096 = b / 4096
  apart : ∀ a w, userPte m root a = some w → pte2pa w ∉ ptPages m root
  ram : ∀ a w, userPte m root a = some w → pte2pa w ≠ 0

theorem userPte_eq_some : userPte m root n = some w ↔
    n < 2 ^ 38 ∧ lookup m root (n / 4096) = some w ∧ Has w PTE_U := by
  have hmax : MAXVA.toNat = 2 ^ 38 := rfl
  rw [userPte, hmax]
  split
  · rename_i hn
    rw [Option.filter_eq_some_iff, decide_eq_true_eq]
    exact ⟨fun h => ⟨hn, h⟩, fun h => h.2⟩
  · rename_i hn
    exact ⟨fun h => (nomatch h), fun h => absurd h.1 hn⟩

theorem userPte_page (h : userPte m root a = some w) (hab : b / 4096 = a / 4096) :
    userPte m root b = some w := by
  rw [userPte_eq_some] at h ⊢
  rw [hab]
  exact ⟨by omega, h.2⟩

theorem userPte_congr (h : ∀ x ∈ ptPages m root, m' x = m x) :
    userPte m' root = userPte m root := by
  funext n
  rw [userPte, userPte, lookup_congr h]

theorem UserPages.congr (h : UserPages m root) (hm : ∀ x ∈ ptPages m root, m' x = m x) :
    UserPages m' root := by
  have hpages : ptPages m' root = ptPages m root := tables_congr hm
  refine ⟨?_, ?_, ?_⟩
  · rw [userPte_congr hm]
    exact h.distinct
  · rw [userPte_congr hm, hpages]
    exact h.apart
  · rw [userPte_congr hm]
    exact h.ram

/-- The bytes bs were stored at n and after, where the user may write, and nothing else was. -/
structure Wrote (root : Addr) (n : Nat) (bs : List Byte) (k k' : Kmem) : Prop where
  allowed : ∀ j < bs.length, Writable k.mem root (n + j)
  table : ∀ x ∈ ptPages k.mem root, k'.mem x = k.mem x
  bytes : ∀ j < bs.length, byteAt k'.mem root (n + j) = bs[j]?
  rest : ∀ x o, o < 4096 → getByte (k'.mem x) o ≠ getByte (k.mem x) o →
    ∃ j < bs.length, ∃ w, userPte k.mem root (n + j) = some w ∧ pte2pa w = x ∧ (n + j) % 4096 = o
  freelist : k'.freelist = k.freelist
  luck : k'.luck = k.luck

theorem Wrote.nil (root : Addr) (n : Nat) (k : Kmem) : Wrote root n [] k k where
  allowed j hj := absurd hj (Nat.not_lt_zero j)
  table _ _ := rfl
  bytes j hj := absurd hj (Nat.not_lt_zero j)
  rest _ _ _ hne := absurd rfl hne
  freelist := rfl
  luck := rfl

theorem Wrote.page (h : UserPages k.mem root) (hw : userPte k.mem root n = some w)
    (hwr : Has w PTE_W) (hfit : n % 4096 + bs.length ≤ 4096) :
    Wrote root n bs k (k.put (pte2pa w) (setBytes (k.mem (pte2pa w)) (n % 4096) bs)) := by
  have hsame : ∀ j < bs.length, userPte k.mem root (n + j) = some w := fun j hj =>
    userPte_page hw (by omega)
  have htable : ∀ x ∈ ptPages k.mem root,
      (k.put (pte2pa w) (setBytes (k.mem (pte2pa w)) (n % 4096) bs)).mem x = k.mem x := by
    intro x hx
    apply put_of_ne
    rintro rfl
    exact h.apart n w hw hx
  refine ⟨fun j hj => ⟨w, hsame j hj, hwr⟩, htable, fun j hj => ?_, fun x o ho hne => ?_, rfl, rfl⟩
  · have hoff : (n + j) % 4096 = n % 4096 + j := by omega
    rw [byteAt, userPte_congr htable, hsame j hj, Option.map_some, put_self, hoff,
      getByte_setBytes _ hfit (by omega), if_pos (by omega), Nat.add_sub_cancel_left,
      List.getElem?_eq_getElem hj, getD_eq_getElem _ _ hj]
  · rcases eq_or_ne x (pte2pa w) with rfl | hx
    · rw [put_self, getByte_setBytes _ hfit ho] at hne
      by_cases hlo : n % 4096 ≤ o
      · rw [if_pos hlo] at hne
        have hin : o - n % 4096 < bs.length := by
          by_contra hout
          exact hne (getD_eq_default _ _ (by omega))
        exact ⟨o - n % 4096, hin, w, hsame _ hin, rfl, by omega⟩
      · rw [if_neg hlo] at hne
        exact absurd rfl hne
    · rw [put_of_ne k _ hx] at hne
      exact absurd rfl hne

/-- Stores one after the other do not meet, because no page is mapped twice. -/
theorem Wrote.trans (h : UserPages k.mem root) (h1 : Wrote root n bs k k1)
    (h2 : Wrote root (n + bs.length) cs k1 k2) : Wrote root n (bs ++ cs) k k2 := by
  have hpte := userPte_congr h1.table
  have hpages : ptPages k1.mem root = ptPages k.mem root := tables_congr h1.table
  have htable : ∀ x ∈ ptPages k.mem root, k2.mem x = k.mem x := fun x hx =>
    (h2.table x (hpages ▸ hx)).trans (h1.table x hx)
  refine ⟨fun j hj => ?_, htable, fun j hj => ?_, fun x o ho hne => ?_,
    h2.freelist.trans h1.freelist, h2.luck.trans h1.luck⟩
  · rw [length_append] at hj
    by_cases hlo : j < bs.length
    · exact h1.allowed j hlo
    · have hw := h2.allowed (j - bs.length) (by omega)
      rw [Writable, hpte, show n + bs.length + (j - bs.length) = n + j by omega] at hw
      exact hw
  · rw [length_append] at hj
    by_cases hlo : j < bs.length
    · rw [List.getElem?_append_left hlo, ← h1.bytes j hlo]
      obtain ⟨w, hw, -⟩ := h1.allowed j hlo
      rw [byteAt, byteAt, userPte_congr htable, hpte, hw, Option.map_some, Option.map_some]
      congr 1
      by_contra hne
      obtain ⟨i, -, v, hv, hpa, hoff⟩ := h2.rest _ _ (Nat.mod_lt _ (by decide)) hne
      rw [hpte] at hv
      have hpage := h.distinct _ _ v w hv hw hpa
      omega
    · have hb := h2.bytes (j - bs.length) (by omega)
      rw [show n + bs.length + (j - bs.length) = n + j by omega] at hb
      rw [List.getElem?_append_right (by omega), hb]
  · by_cases hmid : getByte (k2.mem x) o = getByte (k1.mem x) o
    · rw [hmid] at hne
      obtain ⟨j, hj, w, hw⟩ := h1.rest x o ho hne
      exact ⟨j, by rw [length_append]; omega, w, hw⟩
    · obtain ⟨j, hj, w, hw⟩ := h2.rest x o ho hmid
      rw [hpte, Nat.add_assoc] at hw
      exact ⟨bs.length + j, by rw [length_append]; omega, w, hw⟩

theorem writable_iff (hn : n < 2 ^ 38) (hs : slot sv39 m (keyOf (n / 4096)) 2 root = some s) :
    Writable m root n ↔
      ¬ (¬ Has (m s.1 s.2) PTE_V ∨ ¬ Has (m s.1 s.2) PTE_U ∨ ¬ Has (m s.1 s.2) PTE_W) := by
  have hl := lookup_of_slot (by rw [VPNS]; omega) hs
  simp only [Writable, userPte_eq_some, hl, valid]
  by_cases hv : Has (m s.1 s.2) PTE_V
  · simp only [hv, if_true, Option.some.injEq, not_true, false_or, not_or, not_not]
    constructor
    · rintro ⟨w, ⟨-, rfl, hu⟩, hw⟩
      exact ⟨hu, hw⟩
    · rintro ⟨hu, hw⟩
      exact ⟨_, ⟨hn, rfl, hu⟩, hw⟩
  · simp [hv]

theorem next_page (va : Addr) (hlt : va.toNat < 2 ^ 38) (hmore : chunk va len < len) :
    (pgrounddown va + PGSIZE).toNat = va.toNat + chunk va len := by
  rw [chunk, sub_pgrounddown] at hmore ⊢
  rw [BitVec.toNat_add, pgrounddown_toNat, pgsize_toNat]
  omega

theorem chunk_le (va : Addr) (len : Nat) :
    chunk va len ≤ len ∧ va.toNat % 4096 + chunk va len ≤ 4096 := by
  rw [chunk, sub_pgrounddown]
  omega

theorem chunk_pos (va : Addr) (hlen : 0 < len) : 0 < chunk va len := by
  rw [chunk, sub_pgrounddown]
  omega

theorem copyoutLoop_nil : Ends (copyoutLoop root fuel va []) k Q ↔ Q 0 k := by
  cases fuel with
  | zero => exact ends_pure
  | succ fuel =>
    rw [copyoutLoop, if_pos rfl]
    exact ends_pure

/-- copyout() stores the bytes up to the first address that the user may not write. -/
theorem copyoutLoop_wrote (h : UserPages k.mem root) (hf : src.length ≤ fuel) :
    Ends (copyoutLoop root fuel va src) k (fun r k' => ∃ c,
      Wrote root va.toNat (src.take c) k k' ∧ (r = 0 ∧ c = src.length ∨
        r = -1 ∧ c < src.length ∧ ¬ Writable k.mem root (va.toNat + c))) := by
  induction fuel generalizing k va src with
  | zero =>
    obtain rfl := eq_nil_of_length_eq_zero (Nat.le_zero.mp hf)
    exact copyoutLoop_nil.mpr ⟨0, .nil _ _ _, .inl ⟨rfl, rfl⟩⟩
  | succ fuel ih =>
    rcases eq_or_ne src [] with rfl | hne
    · exact copyoutLoop_nil.mpr ⟨0, .nil _ _ _, .inl ⟨rfl, rfl⟩⟩
    have hpos := length_pos_iff.mpr hne
    have hstop : ¬ Writable k.mem root va.toNat → ∃ c, Wrote root va.toNat (src.take c) k k ∧
        ((-1 : Int) = 0 ∧ c = src.length ∨
          (-1 : Int) = -1 ∧ c < src.length ∧ ¬ Writable k.mem root (va.toNat + c)) :=
      fun hno => ⟨0, .nil _ _ _, .inr ⟨rfl, hpos, hno⟩⟩
    rw [copyoutLoop, if_neg hne]
    refine .ite (fun hmax => ?_) (fun hmax => ?_)
    · rw [maxva_le, pgrounddown_toNat] at hmax
      refine ends_pure.mpr (hstop ?_)
      rintro ⟨w, hw, -⟩
      have := (userPte_eq_some.mp hw).1
      omega
    have hlt : va.toNat < 2 ^ 38 := by
      rw [maxva_le, pgrounddown_toNat] at hmax
      omega
    rw [ends_bind, walk_read (by rw [pgrounddown_toNat]; omega), pgrounddown_div]
    cases hs : slot sv39 k.mem (keyOf (va.toNat / 4096)) 2 root with
    | none =>
      refine ends_pure.mpr (hstop ?_)
      rintro ⟨w, hw, -⟩
      have := (userPte_eq_some.mp hw).2.1
      rw [lookup_of_no_slot hs] at this
      cases this
    | some s =>
      have hiff := writable_iff hlt hs
      rw [ends_bind, ends_load]
      refine .ite (fun hflags => ?_) (fun hflags => ?_)
      · exact ends_pure.mpr (hstop (fun hw => hiff.mp hw hflags))
      obtain ⟨w, hw, hwr⟩ := hiff.mpr hflags
      have hentry : k.mem s.1 s.2 = w := by
        have hl := lookup_of_slot (by rw [VPNS]; omega) hs
        rw [(userPte_eq_some.mp hw).2.1, valid] at hl
        split at hl
        · exact (Option.some.inj hl).symm
        · cases hl
      have hchunk := chunk_le va src.length
      have hcpos := chunk_pos va hpos
      rw [ends_bind, ends_getPage, ends_bind, ends_setPage, hentry, sub_pgrounddown]
      have htake : (src.take (chunk va src.length)).length = chunk va src.length := by
        rw [length_take]
        omega
      have h1 : Wrote root va.toNat (src.take (chunk va src.length)) k _ :=
        .page h hw hwr (by rw [htake]; exact hchunk.2)
      generalize k.put (pte2pa w) _ = k1 at h1 ⊢
      by_cases hmore : chunk va src.length < src.length
      · have hva := next_page va hlt hmore
        have hlen : (src.drop (chunk va src.length)).length = src.length - chunk va src.length :=
          length_drop
        refine (ih (h.congr h1.table) (by omega)).mono (fun r k2 h2 => ?_)
        obtain ⟨c, h2, hr⟩ := h2
        rw [hva] at h2 hr
        rw [hlen, Writable, userPte_congr h1.table, ← Writable, Nat.add_assoc] at hr
        have h12 := h1.trans h (by rw [htake]; exact h2)
        rw [← take_add] at h12
        refine ⟨chunk va src.length + c, h12, hr.imp (fun hr => ?_) (fun hr => ?_)⟩
        · exact ⟨hr.1, by omega⟩
        · exact ⟨hr.1, by omega, hr.2.2⟩
      · have hall : chunk va src.length = src.length := by omega
        rw [hall, drop_length, copyoutLoop_nil]
        rw [hall] at h1
        exact ⟨src.length, h1, .inl ⟨rfl, rfl⟩⟩

theorem walkaddr_user : Ends (walkaddr root (pgrounddown va)) k Q ↔
    Q ((userPte k.mem root va.toNat).elim 0 pte2pa) k := by
  have hmax : MAXVA.toNat = 2 ^ 38 := rfl
  have hlow : (pgrounddown va).toNat < 2 ^ 38 ↔ va.toNat < 2 ^ 38 := by
    rw [pgrounddown_toNat]
    omega
  rw [walkaddr_ends, translate, pgrounddown_div, userPte, hmax]
  simp only [hlow]
  split
  · cases hl : lookup k.mem root (va.toNat / 4096) with
    | none => rfl
    | some w =>
      simp only [Option.filter_some, decide_eq_true_eq]
      split <;> rfl
  · rfl

/-- A part of one page as copyin() reads it. -/
theorem byteAt_page (hw : userPte m root n = some w) (hj : j < c) (hfit : n % 4096 + c ≤ 4096) :
    byteAt m root (n + j) = (getBytes (m (pte2pa w)) (n % 4096) c)[j]? := by
  have hoff : (n + j) % 4096 = n % 4096 + j := by omega
  rw [byteAt, userPte_page hw (by omega), Option.map_some, getBytes, List.getElem?_map,
    List.getElem?_range' (by omega), hoff, Option.map_some, Nat.one_mul]

/-- The user's bytes from n on, as many as the list has. -/
def UserBytes (m : Addr → Page) (root : Addr) (n : Nat) (bs : List Byte) : Prop :=
  ∀ j < bs.length, byteAt m root (n + j) = bs[j]?

theorem UserBytes.append (h : UserBytes m root n bs) (h' : UserBytes m root (n + bs.length) cs) :
    UserBytes m root n (bs ++ cs) := by
  intro j hj
  rw [length_append] at hj
  by_cases hlo : j < bs.length
  · rw [List.getElem?_append_left hlo]
    exact h j hlo
  · have hb := h' (j - bs.length) (by omega)
    rw [show n + bs.length + (j - bs.length) = n + j by omega] at hb
    rw [List.getElem?_append_right (by omega), hb]

theorem length_getBytes (p : Page) (o n : Nat) : (getBytes p o n).length = n := by
  rw [getBytes, length_map, length_range']

theorem reads_page (hw : userPte m root n = some w) (hfit : n % 4096 + c ≤ 4096) :
    UserBytes m root n (getBytes (m (pte2pa w)) (n % 4096) c) := by
  intro j hj
  rw [length_getBytes] at hj
  exact byteAt_page hw hj hfit

theorem UserBytes.unique (h : UserBytes m root n bs) (h' : UserBytes m root n cs)
    (hlen : bs.length = cs.length) : bs = cs := by
  apply ext_getElem?
  intro j
  by_cases hj : j < bs.length
  · rw [← h j hj, ← h' j (hlen ▸ hj)]
  · rw [List.getElem?_eq_none (by omega), List.getElem?_eq_none (by omega)]

theorem copyinLoop_zero : Ends (copyinLoop root fuel va 0) k Q ↔ Q (some []) k := by
  cases fuel with
  | zero => exact ends_pure
  | succ fuel =>
    rw [copyinLoop, if_pos rfl]
    exact ends_pure

/-- copyin() reads all of the range, or meets an address that the user may not read. -/
theorem copyinLoop_reads (h : UserPages k.mem root) (hf : len ≤ fuel) :
    Ends (copyinLoop root fuel va len) k (fun r k' => k' = k ∧
      (r = none ∧ (∃ j < len, ¬ Readable k.mem root (va.toNat + j)) ∨
        ∃ bs, r = some bs ∧ bs.length = len ∧ UserBytes k.mem root va.toNat bs)) := by
  induction fuel generalizing va len with
  | zero =>
    obtain rfl := Nat.le_zero.mp hf
    exact copyinLoop_zero.mpr ⟨rfl, .inr ⟨[], rfl, rfl, fun j hj => absurd hj (Nat.not_lt_zero j)⟩⟩
  | succ fuel ih =>
    rcases Nat.eq_zero_or_pos len with rfl | hpos
    · exact copyinLoop_zero.mpr
        ⟨rfl, .inr ⟨[], rfl, rfl, fun j hj => absurd hj (Nat.not_lt_zero j)⟩⟩
    rw [copyinLoop, if_neg (by omega), ends_bind, walkaddr_user]
    cases hw : userPte k.mem root va.toNat with
    | none =>
      rw [Option.elim_none, if_pos rfl, ends_pure]
      refine ⟨rfl, .inl ⟨rfl, 0, hpos, ?_⟩⟩
      rintro ⟨w, hw'⟩
      rw [Nat.add_zero, hw] at hw'
      cases hw'
    | some w =>
      have hchunk := chunk_le va len
      have hcpos := chunk_pos va hpos
      have hread := reads_page hw hchunk.2
      rw [Option.elim_some, if_neg (h.ram _ w hw), ends_bind, ends_getPage, ends_bind,
        sub_pgrounddown]
      generalize hbs : getBytes (k.mem (pte2pa w)) (va.toNat % 4096) (chunk va len) = bs at hread ⊢
      have hlen : bs.length = chunk va len := by rw [← hbs, length_getBytes]
      by_cases hmore : chunk va len < len
      · have hva := next_page va (userPte_eq_some.mp hw).1 hmore
        refine (ih (by omega)).mono (fun r k' hk => ?_)
        rw [hva] at hk
        obtain ⟨rfl, ⟨rfl, j, hj, hno⟩ | ⟨cs, rfl, hcs, hrest⟩⟩ := hk
        · refine ends_pure.mpr ⟨rfl, .inl ⟨rfl, chunk va len + j, by omega, ?_⟩⟩
          rw [← Nat.add_assoc]
          exact hno
        · refine ends_pure.mpr ⟨rfl, .inr ⟨bs ++ cs, rfl, ?_, hread.append (hlen ▸ hrest)⟩⟩
          rw [length_append]
          omega
      · rw [show len - chunk va len = 0 by omega, copyinLoop_zero, ends_pure, append_nil]
        exact ⟨rfl, .inr ⟨bs, rfl, by omega, hread⟩⟩

theorem byteAt_isSome : (byteAt m root n).isSome ↔ Readable m root n := by
  rw [byteAt, Option.isSome_map, Option.isSome_iff_exists, Readable]

theorem copyin_reads (h : UserPages k.mem root) (va : Addr) (len : Nat) :
    Ends (copyin root va len) k (fun r k' => k' = k ∧
      (r.isSome ↔ ∀ j < len, Readable k.mem root (va.toNat + j)) ∧
      ∀ bs, r = some bs → bs.length = len ∧ UserBytes k.mem root va.toNat bs) := by
  refine (copyinLoop_reads h (Nat.le_refl len)).mono (fun r k' hk => ?_)
  obtain ⟨rfl, ⟨rfl, j, hj, hno⟩ | ⟨bs, rfl, hlen, hread⟩⟩ := hk
  · exact ⟨rfl, ⟨fun hr => (nomatch hr), fun hall => absurd (hall j hj) hno⟩,
      fun _ he => (nomatch he)⟩
  · refine ⟨rfl, ⟨fun _ j hj => ?_, fun _ => rfl⟩, fun cs he => ?_⟩
    · rw [← byteAt_isSome, hread j (by omega), List.getElem?_eq_getElem (by omega)]
      rfl
    · cases he
      exact ⟨hlen, hread⟩

/-- What copyout() leaves of memory, whatever it returns. -/
structure CopiesOut (root va : Addr) (src : List Byte) (k : Kmem) (r : Int) (k' : Kmem) :
    Prop where
  result : r = 0 ∨ r = -1
  success : r = 0 ↔ ∀ j < src.length, Writable k.mem root (va.toNat + j)
  bytes : r = 0 → UserBytes k'.mem root va.toNat src
  rest : ∀ x o, o < 4096 → getByte (k'.mem x) o ≠ getByte (k.mem x) o → ∃ j < src.length, ∃ w,
    userPte k.mem root (va.toNat + j) = some w ∧ Has w PTE_W ∧ pte2pa w = x ∧
      (va.toNat + j) % 4096 = o
  freelist : k'.freelist = k.freelist

theorem Wrote.copiesOut (h : Wrote root va.toNat (src.take c) k k')
    (hr : r = 0 ∧ c = src.length ∨
      r = -1 ∧ c < src.length ∧ ¬ Writable k.mem root (va.toNat + c)) :
    CopiesOut root va src k r k' := by
  refine ⟨hr.imp (·.1) (·.1), ⟨fun h0 j hj => ?_, fun hall => ?_⟩, fun h0 => ?_,
    fun x o ho hne => ?_, h.freelist⟩
  · rcases hr with ⟨-, rfl⟩ | ⟨rfl, -⟩
    · rw [take_length] at h
      exact h.allowed j hj
    · cases h0
  · rcases hr with ⟨rfl, -⟩ | ⟨-, hc, hno⟩
    · rfl
    · exact absurd (hall c hc) hno
  · rcases hr with ⟨-, rfl⟩ | ⟨rfl, -⟩
    · rw [take_length] at h
      exact h.bytes
    · cases h0
  · obtain ⟨j, hj, w, hw, hx⟩ := h.rest x o ho hne
    obtain ⟨v, hv, hwr⟩ := h.allowed j hj
    rw [hw, Option.some.injEq] at hv
    rw [length_take] at hj
    exact ⟨j, by omega, w, hw, hv ▸ hwr, hx⟩

theorem copyout_copies (h : UserPages k.mem root) (va : Addr) (src : List Byte) :
    Ends (copyout root va src) k (fun r k' =>
      CopiesOut root va src k r k' ∧ ∀ x ∈ ptPages k.mem root, k'.mem x = k.mem x) := by
  refine (copyoutLoop_wrote h (Nat.le_refl _)).mono (fun r k' hk => ?_)
  obtain ⟨c, hw, hr⟩ := hk
  exact ⟨hw.copiesOut hr, hw.table⟩

/-- copyout() and copyin() transfer the bytes of the range and no others. -/
theorem copyout_copyin_exact (k : Kmem) (root va : Addr) (h : UserPages k.mem root) :
    (∀ src, Ends (copyout root va src) k (fun r k' => CopiesOut root va src k r k' ∧
      (r = 0 → Ends (copyin root va src.length) k' (fun q k'' => q = some src ∧ k'' = k')))) ∧
    ∀ len, Ends (copyin root va len) k (fun r k' => k' = k ∧
      (r.isSome ↔ ∀ j < len, Readable k.mem root (va.toNat + j)) ∧
      ∀ bs, r = some bs → bs.length = len ∧ UserBytes k.mem root va.toNat bs) := by
  refine ⟨fun src => ?_, copyin_reads h va⟩
  refine (copyout_copies h va src).mono (fun r k' hk => ?_)
  obtain ⟨hout, htable⟩ := hk
  refine ⟨hout, fun h0 => ?_⟩
  have hback := hout.bytes h0
  refine (copyin_reads (h.congr htable) va src.length).mono (fun q k'' hq => ?_)
  obtain ⟨rfl, hiff, hbytes⟩ := hq
  obtain ⟨bs, rfl⟩ := Option.isSome_iff_exists.mp (hiff.mpr (fun j hj => by
    rw [← byteAt_isSome, hback j hj, List.getElem?_eq_getElem hj]
    rfl))
  obtain ⟨hlen, hread⟩ := hbytes bs rfl
  rw [hread.unique hback hlen]
  exact ⟨rfl, rfl⟩

/-- The address spaces of the system are page tables of this kind. -/
theorem Space.userPages [Image] (h : Space R root tf n f k) : UserPages k.mem root := by
  have hnodup := h.table.owned.nodup
  rw [← Multiset.add_assoc, Multiset.nodup_add, Multiset.nodup_add] at hnodup
  have hmem : ∀ a w, userPte k.mem root a = some w → f (a / 4096) = some w ∧ a / 4096 < n := by
    intro a w hw
    obtain ⟨-, hl, hu⟩ := userPte_eq_some.mp hw
    rw [h.table.map] at hl
    exact ⟨hl, h.exact.lt_of_user h.table.low hl hu⟩
  refine ⟨fun a b w v hw hv he => ?_, fun a w hw => ?_, fun a w hw => ?_⟩
  · obtain ⟨hw, ha⟩ := hmem a w hw
    obtain ⟨hv, hb⟩ := hmem b v hv
    exact eq_of_pagesOf hnodup.1.2.1 hw hv ha hb he
  · obtain ⟨hw, ha⟩ := hmem a w hw
    exact Multiset.disjoint_right.mp hnodup.1.2.2 (mem_pagesOf hw ha)
  · obtain ⟨hw, ha⟩ := hmem a w hw
    exact page_ne_zero (h.table.owned.mem_pages
      (Multiset.mem_add.mpr (.inr (Multiset.mem_add.mpr (.inl (mem_pagesOf hw ha))))))

theorem Reachable.userPages [Image] (h : Reachable s) (hp : (s.procs p).state ≠ .unused) :
    UserPages s.k.mem (s.procs p).pagetable :=
  (h.inv.space hp).userPages

/-- Four bytes over the end of a page. -/
theorem copyout_copyin_exact_small : ∃ s k', trace forkAndGrow = some s ∧
    (copyout (s.procs child).pagetable 4094 [1, 2, 3, 4]).run s.k = .ok (0, k') ∧
    UserBytes k'.mem (s.procs child).pagetable 4094 [1, 2, 3, 4] ∧
    (copyin (s.procs child).pagetable 4094 4).run k' = .ok (some [1, 2, 3, 4], k') := by
  have hd : (trace forkAndGrow).any (fun s => decide ((s.procs child).state ≠ .unused) &&
      ((copyout (s.procs child).pagetable 4094 [1, 2, 3, 4]).run s.k).toOption.any (fun r =>
        decide (r.1 = 0))) = true := by decide +kernel
  obtain ⟨s, hs, hp⟩ := (Option.any_eq_true _ _).mp hd
  simp only [Bool.and_eq_true, decide_eq_true_eq] at hp
  have hpages := @Reachable.userPages _ _ small (reachable_trace hs) hp.1
  obtain ⟨r, k', hr, hout, hin⟩ :=
    (copyout_copyin_exact s.k (s.procs child).pagetable 4094 hpages).1 [1, 2, 3, 4]
  rw [hr] at hp
  obtain rfl : r = 0 := of_decide_eq_true hp.2
  obtain ⟨q, k'', hq, rfl, rfl⟩ := hin rfl
  exact ⟨s, _, hs, hr, hout.bytes rfl, hq⟩

end Xv6.Mem
