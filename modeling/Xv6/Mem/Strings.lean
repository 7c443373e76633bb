import Xv6.Mem.Transfer

namespace Xv6.Mem
open Lib.Radix List Lib

/-- The inner loop of copyinstr() over n bytes of a page: what it stores at dst, and got_null. -/
def byteLoop (p : Page) : Nat → Nat → List Byte × Bool
  | 0, _ => ([], false)
  | n + 1, o =>
    if getByte p o = 0 then ([0], true)
    else (getByte p o :: (byteLoop p n (o + 1)).1, (byteLoop p n (o + 1)).2)

/-- The loop of copyinstr() with its stores: the bytes stored from dst on, and the result. -/
def dstLoop (pagetable : Addr) : Nat → Addr → Nat → Km (List Byte × Int)
  | 0, _, _ => pure ([], -1)
  | fuel + 1, srcva, max =>
    if max = 0 then pure ([], -1)
    else do
      let pa0 ← walkaddr pagetable (pgrounddown srcva)
      if pa0 = 0 then pure ([], -1)
      else do
        let n := chunk srcva max
        let p ← getPage pa0
        let stored := byteLoop p n (srcva - pgrounddown srcva).toNat
        if stored.2 then pure (stored.1, 0)
        else do
          let rest ← dstLoop pagetable fuel (pgrounddown srcva + PGSIZE) (max - n)
          pure (stored.1 ++ rest.1, rest.2)

def copyinstrDst (pagetable srcva : Addr) (max : Nat) : Km (List Byte × Int) :=
  dstLoop pagetable max srcva max

/-- At n is a C string of i bytes before its NUL, all of it readable. -/
structure CString (m : Addr → Page) (root : Addr) (n i : Nat) : Prop where
  nul : byteAt m root (n + i) = some 0
  before : ∀ j < i, ∃ b, byteAt m root (n + j) = some b ∧ b ≠ 0

theorem CString.unique (h : CString m root n i) (h' : CString m root n j) : i = j := by
  rcases Nat.lt_trichotomy i j with hlt | rfl | hgt
  · obtain ⟨b, hb, hne⟩ := h'.before i hlt
    rw [h.nul, Option.some.injEq] at hb
    exact absurd hb.symm hne
  · rfl
  · obtain ⟨b, hb, hne⟩ := h.before j hgt
    rw [h'.nul, Option.some.injEq] at hb
    exact absurd hb.symm hne

/-- A list that ends with its only NUL, or has none: what has been stored when the loop ends, and
what it says then. -/
inductive Stored : List Byte → Bool → Prop
  | all (bs : List Byte) (h : 0 ∉ bs) : Stored bs false
  | nul (bs : List Byte) (h : 0 ∉ bs) : Stored (bs ++ [0]) true

theorem Stored.append (h : 0 ∉ bs) (h' : Stored cs got) : Stored (bs ++ cs) got := by
  cases h' with
  | all cs hc => exact .all _ (fun hm => (mem_append.mp hm).elim h hc)
  | nul cs hc =>
    rw [← append_assoc]
    exact .nul _ (fun hm => (mem_append.mp hm).elim h hc)

theorem byteLoop_stored (p : Page) (n o : Nat) : Stored (byteLoop p n o).1 (byteLoop p n o).2 := by
  induction n generalizing o with
  | zero => exact .all [] (by simp)
  | succ n ih =>
    rw [byteLoop]
    split
    · exact .nul [] (by simp)
    · rename_i hne
      have hone : 0 ∉ [getByte p o] := fun hm => hne (mem_singleton.mp hm).symm
      exact (ih (o + 1)).append hone

theorem byteLoop_starts (p : Page) (n o : Nat) : (byteLoop p n o).1 <+: getBytes p o n := by
  induction n generalizing o with
  | zero => exact prefix_refl _
  | succ n ih =>
    have hcons : getBytes p o (n + 1) = getByte p o :: getBytes p (o + 1) n := rfl
    rw [byteLoop, hcons]
    split
    · rename_i hz
      rw [hz]
      exact prefix_cons_inj 0 |>.mpr ⟨_, rfl⟩
    · exact prefix_cons_inj _ |>.mpr (ih (o + 1))

/-- Without a NUL the inner loop copies all n bytes. -/
theorem byteLoop_all (h : (byteLoop p n o).2 = false) : (byteLoop p n o).1 = getBytes p o n := by
  induction n generalizing o with
  | zero => rfl
  | succ n ih =>
    have hcons : getBytes p o (n + 1) = getByte p o :: getBytes p (o + 1) n := rfl
    rw [byteLoop] at h ⊢
    split at h
    · cases h
    · rename_i hne
      rw [if_neg hne, hcons, ih h]

theorem byteLoop_got (p : Page) (n o : Nat) : (byteLoop p n o).2 = true ↔ 0 ∈ getBytes p o n := by
  induction n generalizing o with
  | zero => simp [byteLoop, getBytes]
  | succ n ih =>
    have hcons : getBytes p o (n + 1) = getByte p o :: getBytes p (o + 1) n := rfl
    rw [byteLoop, hcons, mem_cons, ← ih (o + 1)]
    split
    · rename_i hz
      simp [hz]
    · rename_i hne
      exact ⟨.inr, fun h => h.resolve_left (Ne.symm hne)⟩

theorem byteLoop_takeWhile (p : Page) (n o : Nat) :
    (byteLoop p n o).1.takeWhile (· ≠ 0) = (getBytes p o n).takeWhile (· ≠ 0) := by
  induction n generalizing o with
  | zero => rfl
  | succ n ih =>
    have hcons : getBytes p o (n + 1) = getByte p o :: getBytes p (o + 1) n := rfl
    rw [byteLoop, hcons]
    split
    · rename_i hz
      simp [hz]
    · rename_i hne
      rw [takeWhile_cons, takeWhile_cons, ih]

/-- The string that the caller finds at dst. -/
def stringAt (r : List Byte × Int) : Option (List Byte) :=
  if r.2 = 0 then some (r.1.takeWhile (· ≠ 0)) else none

theorem copyinstrLoop_eq (root : Addr) (fuel : Nat) (va : Addr) (max : Nat) :
    copyinstrLoop root fuel va max = stringAt <$> dstLoop root fuel va max := by
  induction fuel generalizing va max with
  | zero => rfl
  | succ fuel ih =>
    rw [copyinstrLoop, dstLoop]
    split
    · rfl
    rw [map_bind]
    congr 1
    funext pa0
    split
    · rfl
    simp only [map_bind]
    congr 1
    funext p
    by_cases hgot : 0 ∈ getBytes p (va - pgrounddown va).toNat (chunk va max)
    · rw [if_pos hgot, if_pos ((byteLoop_got ..).mpr hgot), map_pure, stringAt, if_pos rfl,
        byteLoop_takeWhile]
    have hb := mt (byteLoop_got ..).mp hgot
    have hall := byteLoop_all (Bool.eq_false_iff.mpr hb)
    rw [if_neg hgot, if_neg hb, map_bind, ih, bind_map_left]
    congr 1
    funext r
    rw [map_pure, stringAt, stringAt]
    by_cases hr : r.2 = 0
    · rw [if_pos hr, if_pos hr, hall, takeWhile_append_of_pos]
      intro b hmem
      exact decide_eq_true (fun he => hgot (he ▸ hmem))
    · rw [if_neg hr, if_neg hr]

/-- The copyinstr() that exec() and the other callers use is this one without its stores. -/
theorem copyinstr_eq (root va : Addr) (max : Nat) :
    copyinstr root va max = stringAt <$> copyinstrDst root va max :=
  copyinstrLoop_eq root max va max

theorem UserBytes.start (h : UserBytes m root n cs) (hp : bs <+: cs) : UserBytes m root n bs := by
  obtain ⟨ds, rfl⟩ := hp
  intro j hj
  rw [h j (by rw [length_append]; omega), List.getElem?_append_left hj]

/-- What copyinstr() has stored when it returns: all max bytes, or the bytes before the first
address that cannot be read, or a string with its NUL. -/
structure Fetched (m : Addr → Page) (root : Addr) (n max : Nat) (bs : List Byte) (r : Int) :
    Prop where
  stored : Stored bs (decide (r = 0))
  result : r = 0 ∨ r = -1
  reads : UserBytes m root n bs
  fits : bs.length ≤ max
  fails : r = -1 → bs.length = max ∨ ¬ Readable m root (n + bs.length)

theorem Fetched.cons {max : Nat} (h : Fetched m root (n + bs.length) (max - bs.length) cs r)
    (hbs : 0 ∉ bs) (hread : UserBytes m root n bs) (hfit : bs.length ≤ max) :
    Fetched m root n max (bs ++ cs) r := by
  have hlen : (bs ++ cs).length = bs.length + cs.length := length_append
  have hc := h.fits
  refine ⟨h.stored.append hbs, h.result, hread.append h.reads, by omega, fun hr => ?_⟩
  rw [hlen, ← Nat.add_assoc]
  exact (h.fails hr).imp (fun he => by omega) id

theorem Fetched.stop {max : Nat} (h : max = 0 ∨ ¬ Readable m root n) :
    Fetched m root n max [] (-1) := by
  refine ⟨.all [] (by simp), .inr rfl, fun j hj => absurd hj (Nat.not_lt_zero j), Nat.zero_le _,
    fun _ => h.imp Eq.symm id⟩

theorem dstLoop_fetched {max : Nat}
    (hram : ∀ a w, userPte k.mem root a = some w → pte2pa w ≠ 0)
    (hf : max ≤ fuel) : Ends (dstLoop root fuel va max) k (fun r k' =>
      k' = k ∧ Fetched k.mem root va.toNat max r.1 r.2) := by
  induction fuel generalizing va max with
  | zero => exact ends_pure.mpr ⟨rfl, .stop (.inl (Nat.le_zero.mp hf))⟩
  | succ fuel ih =>
    rw [dstLoop]
    refine .ite (fun h0 => ends_pure.mpr ⟨rfl, .stop (.inl h0)⟩) (fun hpos => ?_)
    rw [ends_bind, walkaddr_user]
    cases hw : userPte k.mem root va.toNat with
    | none =>
      rw [Option.elim_none, if_pos rfl, ends_pure]
      refine ⟨rfl, .stop (.inr ?_)⟩
      rintro ⟨w, hw'⟩
      rw [hw] at hw'
      cases hw'
    | some w =>
      have hchunk := chunk_le va max
      have hcpos := chunk_pos va (Nat.pos_of_ne_zero hpos)
      have hread := reads_page hw hchunk.2
      rw [Option.elim_some, if_neg (hram _ w hw), ends_bind, ends_getPage, sub_pgrounddown]
      have hstored := byteLoop_stored (k.mem (pte2pa w)) (chunk va max) (va.toNat % 4096)
      have hstart := byteLoop_starts (k.mem (pte2pa w)) (chunk va max) (va.toNat % 4096)
      refine .ite (fun hgot => ?_) (fun hgot => ?_)
      · have hle := hstart.length_le
        rw [length_getBytes] at hle
        rw [hgot] at hstored
        exact ends_pure.mpr ⟨rfl, hstored, .inl rfl, hread.start hstart,
          hle.trans hchunk.1, fun he => (nomatch he)⟩
      rw [Bool.not_eq_true] at hgot
      have hall := byteLoop_all hgot
      rw [hgot, hall] at hstored
      rw [hall, ends_bind]
      generalize hbs : getBytes (k.mem (pte2pa w)) (va.toNat % 4096) (chunk va max) = bs at *
      have hlen : bs.length = chunk va max := by rw [← hbs, length_getBytes]
      have hnone : 0 ∉ bs := by
        cases hstored with
        | all _ h => exact h
      by_cases hmore : chunk va max < max
      · refine (ih (by omega)).mono (fun r k' hk => ?_)
        obtain ⟨rfl, hk⟩ := hk
        rw [next_page va (userPte_eq_some.mp hw).1 hmore, ← hlen] at hk
        exact ends_pure.mpr ⟨rfl, hk.cons hnone hread (by omega)⟩
      have hzero : max - chunk va max = 0 := by omega
      have hend : Ends (dstLoop root fuel (pgrounddown va + PGSIZE) 0) k (fun r k' =>
          k' = k ∧ r = ([], -1)) := by
        cases fuel with
        | zero => exact ends_pure.mpr ⟨rfl, rfl⟩
        | succ fuel =>
          rw [dstLoop, if_pos rfl]
          exact ends_pure.mpr ⟨rfl, rfl⟩
      rw [hzero]
      refine hend.mono (fun r k' hk => ?_)
      obtain ⟨rfl, rfl⟩ := hk
      refine ends_pure.mpr ⟨rfl, ?_⟩
      refine Fetched.cons (.stop (.inl (by omega))) hnone hread (by omega)

/-- The string, when there is one, and its length. -/
theorem Fetched.string {max : Nat} (h : Fetched m root n max bs r) (hr : r = 0) :
    ∃ s, bs = s ++ [0] ∧ s.length < max ∧ CString m root n s.length := by
  have hs := h.stored
  have hfit := h.fits
  have hread := h.reads
  rw [decide_eq_true hr] at hs
  cases hs with
  | nul s hno =>
    have hlen : (s ++ [0]).length = s.length + 1 := by simp
    refine ⟨s, rfl, by omega, ?_, fun j hj => ?_⟩
    · rw [hread s.length (by omega), List.getElem?_concat_length]
    · refine ⟨s[j], ?_, fun he => hno (he ▸ getElem_mem hj)⟩
      rw [hread j (by omega), List.getElem?_append_left hj, List.getElem?_eq_getElem hj]

/-- A string within max bytes is found. -/
theorem Fetched.found {max : Nat} (h : Fetched m root n max bs r) (hc : CString m root n i)
    (hi : i < max) : r = 0 := by
  refine h.result.resolve_right (fun hr => ?_)
  have hs := h.stored
  rw [hr, decide_eq_false (by decide)] at hs
  cases hs with
  | all _ hno =>
    by_cases hin : i < bs.length
    · have hb := h.reads i hin
      rw [hc.nul] at hb
      exact hno (mem_of_getElem? hb.symm)
    rcases h.fails hr with hfull | hstop
    · omega
    apply hstop
    rw [← byteAt_isSome]
    by_cases heq : bs.length = i
    · rw [heq, hc.nul]
      rfl
    · obtain ⟨b, hb, -⟩ := hc.before bs.length (by omega)
      rw [hb]
      rfl

/-- copyinstr() gets the string at srcva with its NUL if it is there within max bytes, and never
stores more than max. -/
theorem copyinstr_exact (k : Kmem) (root va : Addr) (max : Nat)
    (hram : ∀ a w, userPte k.mem root a = some w → pte2pa w ≠ 0) :
    Ends (copyinstrDst root va max) k (fun r k' => k' = k ∧ (r.2 = 0 ∨ r.2 = -1) ∧
      (r.2 = 0 ↔ ∃ i < max, CString k.mem root va.toNat i) ∧
      (∀ i < max, CString k.mem root va.toNat i →
        r.1.length = i + 1 ∧ UserBytes k.mem root va.toNat r.1) ∧
      r.1.length ≤ max) := by
  refine (dstLoop_fetched hram (Nat.le_refl max)).mono (fun r k' hk => ?_)
  obtain ⟨rfl, hk⟩ := hk
  refine ⟨rfl, hk.result, ⟨fun hr => ?_, fun ⟨i, hi, hc⟩ => hk.found hc hi⟩, fun i hi hc => ?_,
    hk.fits⟩
  · obtain ⟨s, -, hlt, hc⟩ := hk.string hr
    exact ⟨s.length, hlt, hc⟩
  · obtain ⟨s, he, -, hc'⟩ := hk.string (hk.found hc hi)
    refine ⟨?_, hk.reads⟩
    rw [he, hc.unique hc']
    simp

/-- A name that the child keeps over the end of a page. -/
theorem copyinstr_exact_name : ∃ s t k' k'', trace forkAndGrow = some s ∧
    (copyout (s.procs child).pagetable 4093 [99, 97, 116, 0]).run s.k = .ok (0, k') ∧
    (copyinstrDst (s.procs child).pagetable 4093 16).run k' = .ok ((t, 0), k'') ∧
    t.length ≤ 16 ∧ ∃ i < 16, CString k'.mem (s.procs child).pagetable 4093 i := by
  have hd : (trace forkAndGrow).any (fun s => decide ((s.procs child).state ≠ .unused) &&
      ((copyout (s.procs child).pagetable 4093 [99, 97, 116, 0]).run s.k).toOption.any (fun r =>
        decide (r.1 = 0) &&
        ((copyinstrDst (s.procs child).pagetable 4093 16).run r.2).toOption.any (fun q =>
          decide (q.1.2 = 0)))) = true := by decide +kernel
  obtain ⟨s, hs, hp⟩ := (Option.any_eq_true _ _).mp hd
  rw [Bool.and_eq_true, decide_eq_true_eq] at hp
  have hpages := @Reachable.userPages _ _ small (reachable_trace hs) hp.1
  obtain ⟨⟨r, k'⟩, hr, hq⟩ := ok_of_any hp.2
  rw [Bool.and_eq_true, decide_eq_true_eq] at hq
  obtain ⟨⟨r', k1⟩, h1, h2⟩ : ∃ q, copyoutLoop (s.procs child).pagetable 4 4093
      [99, 97, 116, 0] s.k = .ok q ∧ UserPages q.2.mem (s.procs child).pagetable := by
    obtain ⟨r', k1, h1, c, hw, -⟩ := copyoutLoop_wrote hpages
      (show [99, 97, 116, 0].length ≤ 4 from Nat.le_refl 4)
    exact ⟨(r', k1), h1, hpages.congr hw.table⟩
  cases h1.symm.trans hr
  obtain ⟨⟨t, v⟩, k'', hv, -, -, hiff, -, hlen⟩ :=
    copyinstr_exact k' (s.procs child).pagetable 4093 16 h2.ram
  rw [hv] at hq
  obtain rfl : v = 0 := of_decide_eq_true hq.2
  exact ⟨s, t, k', k'', hs, hq.1 ▸ hr, hv, hlen, hiff.mp rfl⟩

end Xv6.Mem
