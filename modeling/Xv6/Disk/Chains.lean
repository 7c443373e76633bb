import Mathlib.Data.List.Nodup
import Xv6.Disk.Virtio

namespace Xv6.Virtio

open Function List

def Chain.descs (c : Chain) : List Nat := [c.head, c.data, c.status]

theorem Chain.head_mem (c : Chain) : c.head ∈ c.descs := mem_cons_self ..

/-- The chain a process has, from its allocation to its release. -/
def Pc.chain : Pc → Option Chain
  | .ready _ c => some c
  | .wait _ c => some c
  | _ => none

def Pc.request : Pc → Option Request
  | .idle => none
  | .alloc r => some r
  | .ready r _ => some r
  | .wait r _ => some r

/-- Every descriptor is free or in one place of one chain. -/
structure Descs (free : Nat → Bool) (f : Nat → Option Chain) : Prop where
  small : ∀ p c i, f p = some c → i ∈ c.descs → i < NUM
  nodup : ∀ p c, f p = some c → c.descs.Nodup
  taken : ∀ i, i < NUM → (free i = false ↔ ∃ p c, f p = some c ∧ i ∈ c.descs)
  unique : ∀ p q c c' i, f p = some c → f q = some c' → i ∈ c.descs → i ∈ c'.descs → p = q

theorem Descs.busy (h : Descs free f) (hp : f p = some c) (hi : i ∈ c.descs) : free i = false :=
  (h.taken i (h.small p c i hp hi)).mpr ⟨p, c, hp, hi⟩

theorem Descs.take (h : Descs free f) (hp : f p = none) (hn : c.descs.Nodup)
    (hc : ∀ i ∈ c.descs, i < NUM ∧ free i = true)
    (hf : ∀ i, free' i = if i ∈ c.descs then false else free i) :
    Descs free' (update f p (some c)) := by
  have hother : ∀ q c' i, f q = some c' → i ∈ c'.descs → i ∉ c.descs := by
    intro q c' i hq hi hic
    have hb := h.busy hq hi
    rw [(hc i hic).2] at hb
    cases hb
  refine ⟨fun q c' i hq hi => ?_, fun q c' hq => ?_, fun i hi => ?_,
    fun q q' c₁ c₂ i hq hq' h₁ h₂ => ?_⟩
  · rcases eq_or_ne q p with rfl | hqp
    · rw [update_self, Option.some.injEq] at hq
      exact (hc i (hq ▸ hi)).1
    · rw [update_of_ne hqp] at hq
      exact h.small q c' i hq hi
  · rcases eq_or_ne q p with rfl | hqp
    · rw [update_self, Option.some.injEq] at hq
      exact hq ▸ hn
    · rw [update_of_ne hqp] at hq
      exact h.nodup q c' hq
  · rw [hf]
    constructor
    · intro hfi
      by_cases hic : i ∈ c.descs
      · exact ⟨p, c, update_self .., hic⟩
      · rw [if_neg hic, h.taken i hi] at hfi
        obtain ⟨q, c', hq, hi'⟩ := hfi
        refine ⟨q, c', ?_, hi'⟩
        rw [update_of_ne (fun he => by simp [he, hp] at hq)]
        exact hq
    · rintro ⟨q, c', hq, hi'⟩
      rcases eq_or_ne q p with rfl | hqp
      · rw [update_self, Option.some.injEq] at hq
        rw [if_pos (hq ▸ hi')]
      · rw [update_of_ne hqp] at hq
        rw [if_neg (hother q c' i hq hi')]
        exact h.busy hq hi'
  · rcases eq_or_ne q p with rfl | hqp
    · rcases eq_or_ne q' q with rfl | hqq
      · rfl
      · rw [update_self, Option.some.injEq] at hq
        rw [update_of_ne hqq] at hq'
        exact absurd (hq ▸ h₁) (hother q' c₂ i hq' h₂)
    · rw [update_of_ne hqp] at hq
      rcases eq_or_ne q' p with rfl | hqq
      · rw [update_self, Option.some.injEq] at hq'
        exact absurd (hq' ▸ h₂) (hother q c₁ i hq h₁)
      · rw [update_of_ne hqq] at hq'
        exact h.unique q q' c₁ c₂ i hq hq' h₁ h₂

theorem Descs.drop (h : Descs free f) (hp : f p = some c)
    (hf : ∀ i, free' i = if i ∈ c.descs then true else free i) :
    Descs free' (update f p none) := by
  have hback : ∀ q c', update f p none q = some c' → q ≠ p ∧ f q = some c' := by
    intro q c' hq
    rcases eq_or_ne q p with rfl | hqp
    · simp at hq
    · rw [update_of_ne hqp] at hq
      exact ⟨hqp, hq⟩
  refine ⟨fun q c' i hq hi => h.small q c' i (hback q c' hq).2 hi,
    fun q c' hq => h.nodup q c' (hback q c' hq).2, fun i hi => ?_,
    fun q q' c₁ c₂ i hq hq' h₁ h₂ =>
      h.unique q q' c₁ c₂ i (hback q c₁ hq).2 (hback q' c₂ hq').2 h₁ h₂⟩
  rw [hf]
  constructor
  · intro hfi
    by_cases hic : i ∈ c.descs
    · rw [if_pos hic] at hfi
      cases hfi
    rw [if_neg hic, h.taken i hi] at hfi
    obtain ⟨q, c', hq, hi'⟩ := hfi
    refine ⟨q, c', ?_, hi'⟩
    rw [update_of_ne]
    · exact hq
    · rintro rfl
      rw [hp, Option.some.injEq] at hq
      exact hic (hq ▸ hi')
  · rintro ⟨q, c', hq, hi'⟩
    obtain ⟨hqp, hq⟩ := hback q c' hq
    have hic : i ∉ c.descs := fun hic => hqp (h.unique q p c' c i hq hp hi' hic)
    rw [if_neg hic]
    exact h.busy hq hi'

/-- What alloc_desc leaves. -/
def grabbed (d : Disk) (i : Nat) : Disk := { d with free := update d.free i false }

theorem grabbed_free (d : Disk) (i j : Nat) :
    (grabbed d i).free j = if j = i then false else d.free j :=
  update_apply ..

theorem allocDesc_some (h : allocDesc d = some (i, d')) :
    i < NUM ∧ d.free i = true ∧ d' = grabbed d i := by
  unfold allocDesc at h
  cases hf : (List.range NUM).find? (fun i => d.free i) with
  | none => simp [hf] at h
  | some j =>
    simp only [hf, Option.some.injEq, Prod.mk.injEq] at h
    obtain ⟨rfl, rfl⟩ := h
    have hj := mem_of_find?_eq_some hf
    exact ⟨mem_range.mp hj, by simpa using List.find?_some hf, rfl⟩

/-- What free_desc leaves. -/
def freed (d : Disk) (i : Nat) : Disk :=
  { d with
    desc := update d.desc i noDesc
    free := update d.free i true }

theorem freeDesc_ok (hi : i < NUM) (hf : d.free i = false) : freeDesc d i = .ok (freed d i) := by
  unfold freeDesc
  rw [if_neg (Nat.not_le.mpr hi), hf]
  rfl

/-- The only change is in descriptors that were free before and are free again. -/
structure Rolled (d d' : Disk) : Prop where
  same : d' = { d with desc := d'.desc }
  kept : ∀ i, d.free i = false → d'.desc i = d.desc i

theorem rolled_refl (d : Disk) : Rolled d d := ⟨rfl, fun _ _ => rfl⟩

theorem rolled_one (hi : i < NUM) (hf : d.free i = true) :
    ∃ d', freeDesc (grabbed d i) i = .ok d' ∧ Rolled d d' := by
  refine ⟨_, freeDesc_ok hi (update_self ..), ?_, fun j hj => ?_⟩
  · simp [freed, grabbed, ← hf]
  · unfold freed
    apply update_of_ne
    rintro rfl
    rw [hf] at hj
    cases hj

theorem rolled_two (hi : i < NUM) (hf : d.free i = true) (hj : j < NUM) (hij : j ≠ i)
    (hfj : d.free j = true) :
    ∃ d₁ d₂, freeDesc (grabbed (grabbed d i) j) i = .ok d₁ ∧ freeDesc d₁ j = .ok d₂ ∧
      Rolled d d₂ := by
  refine ⟨_, _, freeDesc_ok hi ?_, freeDesc_ok hj ?_, ?_, fun k hk => ?_⟩
  · simp [grabbed, Ne.symm hij]
  · simp [freed, grabbed, hij]
  · have he : update (update (update (update d.free i false)
        j false) i true) j true = d.free := by
      funext k
      by_cases hkj : k = j
      · simp [hkj, hfj]
      · by_cases hki : k = i
        · simp [hki, hf, Ne.symm hij]
        · simp [hkj, hki]
    simp [freed, grabbed, he]
  · have hkj : k ≠ j := fun he => by simp [← he, hk] at hfj
    have hki : k ≠ i := fun he => by simp [← he, hk] at hf
    simp [freed, grabbed, hkj, hki]

/-- Three different free descriptors are taken, or none. -/
theorem alloc3Desc_spec (d : Disk) :
    (∃ d', alloc3Desc d = .ok (none, d') ∧ Rolled d d') ∨
    ∃ c d', alloc3Desc d = .ok (some c, d') ∧ c.descs.Nodup ∧
      (∀ i ∈ c.descs, i < NUM ∧ d.free i = true) ∧ d' = { d with free := d'.free } ∧
      ∀ i, d'.free i = if i ∈ c.descs then false else d.free i := by
  unfold alloc3Desc
  cases h₁ : allocDesc d with
  | none => exact .inl ⟨d, rfl, rolled_refl d⟩
  | some r₁ =>
    obtain ⟨i, d₁⟩ := r₁
    obtain ⟨hi, hfi, rfl⟩ := allocDesc_some h₁
    dsimp only
    cases h₂ : allocDesc (grabbed d i) with
    | none =>
      obtain ⟨d', hd', hr⟩ := rolled_one hi hfi
      exact .inl ⟨d', by simp only [hd']; rfl, hr⟩
    | some r₂ =>
      obtain ⟨j, d₂⟩ := r₂
      obtain ⟨hj, hfj, rfl⟩ := allocDesc_some h₂
      have hji : j ≠ i := fun he => by simp [grabbed_free, he] at hfj
      rw [grabbed_free, if_neg hji] at hfj
      dsimp only
      cases h₃ : allocDesc (grabbed (grabbed d i) j) with
      | none =>
        obtain ⟨d₁, d₂, h₁, h₂, hr⟩ := rolled_two hi hfi hj hji hfj
        exact .inl ⟨d₂, by simp only [h₁, bind, Except.bind, h₂]; rfl, hr⟩
      | some r₃ =>
        obtain ⟨k, d₃⟩ := r₃
        obtain ⟨hk, hfk, rfl⟩ := allocDesc_some h₃
        have hkj : k ≠ j := fun he => by simp [grabbed_free, he] at hfk
        have hki : k ≠ i := fun he => by simp [grabbed_free, he] at hfk
        rw [grabbed_free, if_neg hkj, grabbed_free, if_neg hki] at hfk
        refine .inr ⟨⟨i, j, k⟩, _, rfl, ?_, ?_, rfl, fun n => ?_⟩
        · simp [Chain.descs, Ne.symm hji, Ne.symm hkj, Ne.symm hki]
        · intro n hn
          simp only [Chain.descs, mem_cons, not_mem_nil, or_false] at hn
          rcases hn with rfl | rfl | rfl
          · exact ⟨hi, hfi⟩
          · exact ⟨hj, hfj⟩
          · exact ⟨hk, hfk⟩
        · simp only [grabbed_free, Chain.descs, mem_cons, not_mem_nil, or_false]
          by_cases hnk : n = k
          · simp [hnk]
          · by_cases hnj : n = j
            · simp [hnj]
            · simp [hnk, hnj]

/-- The descriptors of a chain as virtio_disk_rw fills them in. -/
structure Linked (desc : Nat → VirtqDesc) (c : Chain) (r : Request) : Prop where
  head : desc c.head = ⟨.op c.head, 16, VRING_DESC_F_NEXT, c.data⟩
  data : desc c.data = ⟨.data r.b, BSIZE,
    (if r.write then 0 else VRING_DESC_F_WRITE) ||| VRING_DESC_F_NEXT, c.status⟩
  status : desc c.status = ⟨.status c.head, 1, VRING_DESC_F_WRITE, 0⟩

theorem Linked.congr (h : Linked desc c r) (hd : ∀ i ∈ c.descs, desc' i = desc i) :
    Linked desc' c r := by
  refine ⟨(hd _ ?_).trans h.head, (hd _ ?_).trans h.data, (hd _ ?_).trans h.status⟩
  all_goals simp [Chain.descs]

theorem formatDesc_linked (hn : c.descs.Nodup) (desc : Nat → VirtqDesc) (r : Request) :
    Linked (formatDesc desc c r) c r := by
  simp only [Chain.descs, nodup_cons, mem_cons, not_mem_nil, or_false, not_or,
    not_false_eq_true, nodup_nil, and_true] at hn
  obtain ⟨⟨hd, hs⟩, hds⟩ := hn
  refine ⟨?_, ?_, ?_⟩ <;> simp [formatDesc, hd, hs, hds]

theorem formatDesc_other (hi : i ∉ c.descs) (desc : Nat → VirtqDesc) (r : Request) :
    formatDesc desc c r i = desc i := by
  simp only [Chain.descs, mem_cons, not_mem_nil, or_false, not_or] at hi
  obtain ⟨hh, hd, hs⟩ := hi
  simp [formatDesc, hh, hd, hs]

theorem freeChainFrom_next (fuel : Nat) (hi : i < NUM) (hf : d.free i = false)
    (hn : (d.desc i).flags &&& VRING_DESC_F_NEXT ≠ 0) :
    freeChainFrom (fuel + 1) d i = freeChainFrom fuel (freed d i) (d.desc i).next := by
  rw [freeChainFrom, freeDesc_ok hi hf]
  exact if_pos hn

theorem freeChainFrom_last (fuel : Nat) (hi : i < NUM) (hf : d.free i = false)
    (hn : (d.desc i).flags &&& VRING_DESC_F_NEXT = 0) :
    freeChainFrom (fuel + 1) d i = .ok (freed d i) := by
  rw [freeChainFrom, freeDesc_ok hi hf]
  exact if_neg (not_not.mpr hn)

/-- free_chain follows the links through all three descriptors and stops. -/
theorem freeChain_ok (hl : Linked d.desc c r) (hn : c.descs.Nodup)
    (hc : ∀ i ∈ c.descs, i < NUM ∧ d.free i = false) :
    ∃ d', freeChain d c.head = .ok d' ∧
      d' = { d with free := d'.free, desc := d'.desc } ∧
      (∀ i, d'.free i = if i ∈ c.descs then true else d.free i) ∧
      ∀ i, i ∉ c.descs → d'.desc i = d.desc i := by
  obtain ⟨hh, hfh⟩ := hc c.head c.head_mem
  obtain ⟨hd, hfd⟩ := hc c.data (by simp [Chain.descs])
  obtain ⟨hs, hfs⟩ := hc c.status (by simp [Chain.descs])
  simp only [Chain.descs, nodup_cons, mem_cons, not_mem_nil, or_false, not_or,
    not_false_eq_true, nodup_nil, and_true] at hn
  obtain ⟨⟨hhd, hhs⟩, hds⟩ := hn
  have h₁ : freeChain d c.head = freeChainFrom NUM (freed d c.head) c.data := by
    have hstep := freeChainFrom_next NUM hh hfh (by simp [hl.head, VRING_DESC_F_NEXT])
    rwa [hl.head] at hstep
  have hdata : (freed d c.head).desc c.data = d.desc c.data := by
    simp [freed, Ne.symm hhd]
  have h₂ : freeChainFrom NUM (freed d c.head) c.data =
      freeChainFrom (NUM - 1) (freed (freed d c.head) c.data) c.status := by
    have hstep := freeChainFrom_next (NUM - 1) hd (d := freed d c.head)
      (by simpa [freed, Ne.symm hhd] using hfd)
      (by rw [hdata, hl.data]; cases r.write <;> simp [VRING_DESC_F_NEXT, VRING_DESC_F_WRITE])
    rwa [hdata, hl.data] at hstep
  have hstatus : (freed (freed d c.head) c.data).desc c.status = d.desc c.status := by
    simp [freed, Ne.symm hhs, Ne.symm hds]
  have h₃ : freeChainFrom (NUM - 1) (freed (freed d c.head) c.data) c.status =
      .ok (freed (freed (freed d c.head) c.data) c.status) :=
    freeChainFrom_last (NUM - 2) hs
      (by simpa [freed, Ne.symm hhs, Ne.symm hds] using hfs)
      (by rw [hstatus, hl.status]; simp [VRING_DESC_F_NEXT, VRING_DESC_F_WRITE])
  refine ⟨_, h₁.trans (h₂.trans h₃), rfl, fun i => ?_, fun i hi => ?_⟩
  · by_cases his : i = c.status
    · simp [freed, Chain.descs, his]
    · by_cases hid : i = c.data
      · simp [freed, Chain.descs, hid, hds]
      · by_cases hih : i = c.head
        · simp [freed, Chain.descs, hih, hhd, hhs]
        · simp [freed, Chain.descs, his, hid, hih]
  · simp only [Chain.descs, mem_cons, not_mem_nil, or_false, not_or] at hi
    simp [freed, hi.1, hi.2.1, hi.2.2]

end Xv6.Virtio
