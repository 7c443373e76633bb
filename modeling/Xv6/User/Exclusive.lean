import Xv6.User.Arena
import Mathlib.Data.List.Range

namespace Xv6.User

open Function List Lib

/-- The block b is put behind p and joined with the blocks it meets. -/
def coalesce (h : Heap) (p b : Nat) : Heap :=
  let h1 := if b + 16 * h.size b = h.ptr p then join (enlist h p b) b else enlist h p b
  if p + 16 * h1.size p = b then join h1 p else h1

/-- A malloc() whose size in bytes, with the header, fits in an int. -/
def Op.Small : Op → Prop
  | .malloc nbytes _ => nbytes ≤ 2147483616
  | _ => True

/-- A program frees only what it has. -/
def Op.Allowed (s : Client) : Op → Prop
  | .free ap => ∃ n, (ap, n) ∈ s.live
  | _ => True

section
variable {h h' : Heap} {live : List (Nat × Nat)} {l ms ns : List Nat}

theorem setPtr_setPtr (h : Heap) (p q r : Nat) : (h.setPtr p q).setPtr p r = h.setPtr p r := by
  rw [Heap.setPtr, Heap.setPtr, Heap.setPtr, update_idem]

theorem setPtr_setSize (h : Heap) (p q x n : Nat) :
    (h.setPtr p q).setSize x n = (h.setSize x n).setPtr p q := rfl

theorem setPtr_comm (h : Heap) (hne : p ≠ x) (q r : Nat) :
    (h.setPtr p q).setPtr x r = (h.setPtr x r).setPtr p q := by
  rw [Heap.setPtr, Heap.setPtr, Heap.setPtr, Heap.setPtr, update_comm hne]

theorem linkUpper_eq (hpb : p < b) (hs : 1 ≤ h.size b) :
    (linkUpper h b (h.ptr p)).setPtr p b =
      if b + 16 * h.size b = h.ptr p then join (enlist h p b) b else enlist h p b := by
  have hbp : b ≠ p := Nat.ne_of_gt hpb
  rw [linkUpper]
  split
  · rename_i hup
    have hn : h.ptr p ≠ p ∧ h.ptr p ≠ b := by omega
    have hb : (enlist h p b).ptr b = h.ptr p := by
      rw [enlist, setPtr_ptr, update_of_ne hbp, setPtr_ptr, update_self]
    have hnext : (enlist h p b).ptr (h.ptr p) = h.ptr (h.ptr p) := by
      rw [enlist, setPtr_ptr, update_of_ne hn.1, setPtr_ptr, update_of_ne hn.2]
    rw [join, hb, hnext, enlist, setPtr_size, setPtr_size, setPtr_setSize, setPtr_setSize,
      setPtr_comm _ hbp.symm, setPtr_setPtr]
  · rfl

theorem link_eq (hpb : p < b) (hs : 1 ≤ h.size b) :
    link h p b = { coalesce h p b with freep := some p } := by
  have hbp : b ≠ p := Nat.ne_of_gt hpb
  rw [link, coalesce, ← linkUpper_eq hpb hs, linkLower]
  generalize linkUpper h b (h.ptr p) = u
  have hp : (u.setPtr p b).ptr p = b := update_self ..
  have hb : (u.setPtr p b).ptr b = u.ptr b := update_of_ne hbp ..
  rw [setPtr_size]
  split
  · rw [join, hp, hb, setPtr_setSize, setPtr_setPtr]
    rfl
  · rfl

theorem exists_spot (hs : l.Pairwise (· < ·)) (hb : b ∉ l) (ha : ∃ a ∈ l, a < b) :
    ∃ ms p ns, l = ms ++ p :: ns ∧ p < b ∧ ∀ y ∈ ns, b < y := by
  induction l with
  | nil =>
    obtain ⟨a, ha, -⟩ := ha
    exact absurd ha not_mem_nil
  | cons a l ih =>
    obtain ⟨-, hs'⟩ := pairwise_cons.mp hs
    by_cases hl : ∃ a ∈ l, a < b
    · obtain ⟨ms, p, ns, rfl, hp, hns⟩ := ih hs' (fun hm => hb (mem_cons_of_mem a hm)) hl
      exact ⟨a :: ms, p, ns, rfl, hp, hns⟩
    have hgt : ∀ y ∈ l, b < y := by
      intro y hy
      have hne : y ≠ b := fun he => hb (he ▸ mem_cons_of_mem a hy)
      have hnlt : ¬ y < b := fun hlt => hl ⟨y, hy, hlt⟩
      omega
    obtain ⟨c, hc, hlt⟩ := ha
    rcases mem_cons.mp hc with rfl | hc
    · exact ⟨[], c, l, rfl, hlt, hgt⟩
    · exact absurd ⟨c, hc, hlt⟩ hl

theorem head_le (hs : l.Pairwise (· < ·)) (ha : l.head? = some a) (hx : x ∈ l) : a ≤ x := by
  cases l with
  | nil => cases ha
  | cons c l =>
    cases ha
    rcases mem_cons.mp hx with rfl | hx
    · exact Nat.le_refl _
    · exact Nat.le_of_lt ((pairwise_cons.mp hs).1 x hx)

theorem stop_of_spot (hc : Circuit h.ptr (ms ++ p :: ns)) (hs : (ms ++ p :: ns).Pairwise (· < ·))
    (hp : p < b) (hns : ∀ y ∈ ns, b < y) : freeStop h b p = true := by
  cases ns with
  | nil =>
    have hle := head_le hs hc.next_last (mem_append_right ms mem_cons_self)
    simp [freeStop, hp, hle]
  | cons y ns =>
    have hy := hns y mem_cons_self
    simp [freeStop, hc.next_eq, hp, hy]

theorem spot_of_stop (hc : Circuit h.ptr l) (hs : l.Pairwise (· < ·)) (ha : ∃ a ∈ l, a < b)
    (hp : p ∈ l) (hstop : freeStop h b p = true) :
    ∃ ms ns, l = ms ++ p :: ns ∧ p < b ∧ ∀ y ∈ ns, b < y := by
  obtain ⟨ms, ns, rfl⟩ := append_of_mem hp
  simp only [freeStop, Bool.or_eq_true, Bool.and_eq_true, decide_eq_true_eq] at hstop
  refine ⟨ms, ns, rfl, ?_⟩
  cases ns with
  | nil =>
    obtain ⟨a, ha, hab⟩ := ha
    have hle := head_le hs hc.next_last ha
    refine ⟨by omega, fun y hy => absurd hy not_mem_nil⟩
  | cons y ns =>
    obtain ⟨-, hsn, -, hn⟩ := sorted_middle.mp hs
    have hpy := hn y mem_cons_self
    rw [hc.next_eq] at hstop
    refine ⟨by omega, fun z hz => ?_⟩
    rcases mem_cons.mp hz with rfl | hz
    · omega
    · have := (pairwise_cons.mp hsn).1 z hz
      omega

/-- The new block behind p is joined with the one above. -/
theorem Arena.joinUpper (h1 : Arena base first h (ms ++ p :: ns) (q :: live)) (hp : p < header q)
    (hns : ∀ y ∈ ns, header q < y) :
    ∃ ns', Arena base first
        (if header q + 16 * h.size (header q) = h.ptr p
          then User.join (User.enlist h p (header q)) (header q)
          else User.enlist h p (header q)) (ms ++ p :: header q :: ns') live ∧
      ns'.length ≤ ns.length := by
  have h2 := h1.enlist hp hns
  have hsize := (h1.sized q mem_cons_self).2.1
  split
  · rename_i hup
    cases ns with
    | nil =>
      have hle := head_le h1.sorted h1.circuit.next_last
        (mem_append_right ms mem_cons_self)
      omega
    | cons n ns =>
      rw [h1.circuit.next_eq] at hup
      have h2' : Arena base first (User.enlist h p (header q))
          ((ms ++ [p]) ++ header q :: n :: ns) live := by
        rw [append_assoc]
        exact h2
      have h3 := h2'.join hup
      rw [append_assoc] at h3
      exact ⟨ns, h3, Nat.le_succ _⟩
  · exact ⟨ns, h2, Nat.le_refl _⟩

/-- The sizes once the block above is joined, if they do not overflow. -/
theorem upper_size (hpb : p < b) : ∃ u, (if b + 16 * h.size b = h.ptr p
      then join (enlist h p b) b else enlist h p b) = u ∧ u.size p = h.size p ∧ u.ptr p = b ∧
    (h.size b < 1073741824 → h.size (h.ptr p) < 1073741824 →
      h.size b ≤ u.size b ∧ u.size b < 2147483648) := by
  have hbp : b ≠ p := Nat.ne_of_gt hpb
  have hp : (enlist h p b).ptr p = b := update_self ..
  refine ⟨_, rfl, ?_⟩
  split
  · have hb : (enlist h p b).ptr b = h.ptr p := by
      rw [enlist, setPtr_ptr, update_of_ne hbp, setPtr_ptr, update_self]
    have hs : (enlist h p b).size = h.size := rfl
    rw [join, setPtr_size, setSize_size, setPtr_ptr, setSize_ptr, update_of_ne hbp.symm,
      update_of_ne hbp.symm, update_self, hb, hs, addSize]
    exact ⟨rfl, hp, fun h1 h2 => by omega⟩
  · exact ⟨rfl, hp, fun h1 _ => ⟨Nat.le_refl _, Nat.lt_trans h1 (by decide)⟩⟩

/-- The block b is in the list as long as it was, at its place or in that of the block below. -/
theorem Arena.coalesce (h1 : Arena base first h (ms ++ p :: ns) (q :: live)) (hp : p < header q)
    (hns : ∀ y ∈ ns, header q < y) :
    ∃ ns', Arena base first (coalesce h p (header q)) (ms ++ p :: ns') live ∧
      (ms ++ p :: ns').length ≤ (ms ++ p :: ns).length + 1 ∧
      (h.size (header q) < 1073741824 → (∀ x ∈ ms ++ p :: ns, h.size x < 1073741824) →
        ∃ x ∈ ms ++ p :: ns', h.size (header q) ≤ (coalesce h p (header q)).size x) := by
  obtain ⟨ns', h2, hlen⟩ := h1.joinUpper hp hns
  obtain ⟨u, hu, hsp, hpb, hbig⟩ := upper_size (h := h) hp
  rw [User.coalesce]
  rw [hu] at h2 ⊢
  simp only [length_append, length_cons]
  have hmem : p ∈ ms ++ p :: ns := mem_append_right ms mem_cons_self
  split
  · rename_i hdown
    refine ⟨ns', h2.join hdown, by omega, fun hb hall => ⟨p, ?_, ?_⟩⟩
    · exact mem_append_right ms mem_cons_self
    · have hub := hbig hb (hall _ (h1.circuit.next_mem hmem))
      have hps := hall p hmem
      rw [User.join, setPtr_size, setSize_size, update_self, hpb, hsp, addSize]
      omega
  · refine ⟨header q :: ns', h2, by rw [length_cons]; omega, fun hb hall => ⟨header q, ?_, ?_⟩⟩
    · exact mem_append_right ms (mem_cons_of_mem p mem_cons_self)
    · exact (hbig hb (hall _ (h1.circuit.next_mem hmem))).1

/-- A free list with its rover. -/
structure Rover (base first : Nat) (h : Heap) (l : List Nat) (live : List (Nat × Nat)) :
    Prop extends Arena base first h l live where
  rover : ∃ f ∈ l, h.freep = some f

theorem Rover.free (h1 : Rover base first h l (q :: live)) (hfuel : l.length ≤ fuel) :
    ∃ h' l', User.free fuel h q.1 = some h' ∧ Rover base first h' l' live ∧
      l'.length ≤ l.length + 1 ∧
      (h.size (header q) < 1073741824 → (∀ x ∈ l, h.size x < 1073741824) →
        ∃ x ∈ l', h.size (header q) ≤ h'.size x) := by
  have ha := h1.toArena
  have hbl : ∀ x ∈ l, header q ≠ x := fun x hx => ha.header_ne hx mem_cons_self
  have hlow : base < header q := by
    refine ha.base_lt (mem_append_right l (mem_map_of_mem mem_cons_self)) ?_
    exact hbl base ha.mem
  have hsize := (ha.sized q mem_cons_self).2.1
  obtain ⟨f, hf, hfreep⟩ := h1.rover
  have hstop : ∃ x ∈ l, freeStop h (header q) x = true := by
    obtain ⟨ms, p, ns, rfl, hp, hns⟩ := exists_spot ha.sorted (fun hm => hbl _ hm rfl)
      ⟨base, ha.mem, hlow⟩
    exact ⟨p, mem_append_right ms mem_cons_self,
      stop_of_spot ha.circuit ha.sorted hp hns⟩
  obtain ⟨p, hp, hseek, hps⟩ := ha.circuit.seek hf hstop hfuel
  obtain ⟨ms, ns, rfl, hlt, hns⟩ := spot_of_stop ha.circuit ha.sorted ⟨base, ha.mem, hlow⟩ hp hps
  obtain ⟨ns', hnew, hlen, hbig⟩ := ha.coalesce hlt hns
  refine ⟨link h p (header q), ms ++ p :: ns', ?_, ⟨?_, p, ?_, rfl⟩, hlen, ?_⟩
  · rw [User.free, hfreep]
    change (seek (freeStop h (header q)) h.ptr fuel f).bind _ = _
    rw [hseek]
    rfl
  · rw [link_eq hlt hsize]
    exact hnew.congr rfl (fun x _ => ⟨rfl, rfl⟩)
  · exact mem_append_right ms mem_cons_self
  · rw [link_eq hlt hsize]
    exact hbig

theorem Arena.length_le (h1 : Arena base first h l live) : l.length ≤ h.brk := by
  have hsub : l ⊆ List.range h.brk := by
    intro x hx
    have hle := h1.end_le (mem_append_left _ hx)
    have hpos := units_pos h x
    rw [mem_range]
    omega
  have hd : l.Nodup := h1.sorted.imp Nat.ne_of_lt
  have hlen := hd.length_le_of_subset hsub
  rwa [length_range] at hlen

/-- The loop of malloc() passes blocks that are too small. -/
theorem mallocLoop_pass (hp : Path h.ptr p ns x) (hprev : h.ptr prevp = p)
    (hs : ∀ y ∈ ns, h.size y < nunits ∧ h.freep ≠ some y) (fuel : Nat) (luck : List Bool) :
    ∃ prevp' ∈ prevp :: ns, h.ptr prevp' = x ∧
      mallocLoop nunits (fuel + ns.length) h luck prevp p =
        mallocLoop nunits fuel h luck prevp' x := by
  induction hp generalizing prevp with
  | nil => exact ⟨prevp, mem_cons_self, hprev, rfl⟩
  | cons tail ih =>
    rename_i a ns x
    obtain ⟨hsmall, hne⟩ := hs a mem_cons_self
    obtain ⟨prevp', hmem, hx, hrun⟩ := ih rfl (fun y hy => hs y (mem_cons_of_mem a hy))
    refine ⟨prevp', mem_cons_of_mem prevp hmem, hx, ?_⟩
    rw [← hrun, length_cons, ← Nat.add_assoc, mallocLoop, if_neg (Nat.not_le.mpr hsmall),
      if_neg hne.symm]

/-- The blocks of the list as malloc() comes to them: the rover is the last one. -/
theorem Rover.order (h1 : Rover base first h l live) : ∃ f vs, h.freep = some f ∧ f ∉ vs ∧
    Path h.ptr (h.ptr f) vs f ∧ l.length = vs.length + 1 ∧ ∀ x, x ∈ l ↔ x ∈ vs ∨ x = f := by
  obtain ⟨f, hf, hfreep⟩ := h1.rover
  obtain ⟨ms, ns, hl, hp⟩ := h1.circuit.at_node hf
  have hd : l.Nodup := h1.sorted.imp Nat.ne_of_lt
  rw [hl] at hd
  have hd' := (perm_middle.nodup_iff.mp hd)
  refine ⟨f, ns ++ ms, hfreep, ?_, hp, ?_, ?_⟩
  · intro hm
    apply (nodup_cons.mp hd').1
    rw [mem_append] at hm ⊢
    exact hm.symm
  · rw [hl]
    simp only [length_append, length_cons]
    omega
  · intro x
    rw [hl]
    simp only [mem_append, mem_cons]
    constructor
    · rintro (hx | hx | hx)
      · exact .inl (.inr hx)
      · exact .inr hx
      · exact .inl (.inl hx)
    · rintro ((hx | hx) | hx)
      · exact .inr (.inr hx)
      · exact .inl hx
      · exact .inr (.inl hx)

theorem Rover.found (h1 : Rover base first h l live) (hbig : ∃ x ∈ l, nunits ≤ h.size x)
    (hfreep : h.freep = some f) (hfuel : l.length ≤ fuel) (luck : List Bool) :
    ∃ prevp p, prevp ∈ l ∧ p ∈ l ∧ h.ptr prevp = p ∧ nunits ≤ h.size p ∧
      mallocLoop nunits fuel h luck f (h.ptr f) = some (take h prevp p nunits) := by
  obtain ⟨f', vs, hf', hfv, hp, hlen, hmem⟩ := h1.order
  rw [hfreep] at hf'
  cases hf'
  have hfull : Path h.ptr (h.ptr f) (vs ++ [f]) (h.ptr f) := hp.append (.cons .nil)
  have hsome : ((vs ++ [f]).find? (fun x => decide (nunits ≤ h.size x))).isSome = true := by
    obtain ⟨x, hx, hb⟩ := hbig
    rw [List.find?_isSome]
    refine ⟨x, ?_, by simpa using hb⟩
    rw [mem_append, mem_singleton]
    exact (hmem x).mp hx
  obtain ⟨x, hx⟩ := Option.isSome_iff_exists.mp hsome
  obtain ⟨hb, as, bs, heq, hall⟩ := List.find?_eq_some_iff_append.mp hx
  rw [heq] at hfull
  obtain ⟨y, hpa, hpb⟩ := hfull.split
  rw [(path_cons.mp hpb).1] at hpa
  have hvs : vs = as ++ (x :: bs).dropLast := by
    rw [← dropLast_append_of_ne_nil (cons_ne_nil x bs), ← heq, dropLast_concat]
  have hfa : ∀ z ∈ as, z ∈ vs := by
    intro z hz
    rw [hvs]
    exact mem_append_left _ hz
  have halen : as.length ≤ vs.length := by
    rw [hvs, length_append]
    exact Nat.le_add_right _ _
  -- the blocks before it are too small, and none of them is the rover
  have hsmall : ∀ z ∈ as, h.size z < nunits ∧ h.freep ≠ some z := by
    intro z hz
    refine ⟨by simpa using hall z hz, ?_⟩
    rw [hfreep]
    rintro ⟨⟩
    exact hfv (hfa f hz)
  obtain ⟨prevp, hprev, hnext, hrun⟩ := mallocLoop_pass hpa rfl hsmall (fuel - as.length) luck
  obtain ⟨k, hk⟩ : ∃ k, fuel - as.length = k + 1 := ⟨fuel - as.length - 1, by omega⟩
  have hb' : nunits ≤ h.size x := by simpa using hb
  refine ⟨prevp, x, ?_, ?_, hnext, hb', ?_⟩
  · rw [hmem]
    rcases mem_cons.mp hprev with rfl | hz
    · exact .inr rfl
    · exact .inl (hfa prevp hz)
  · rw [hmem, ← mem_singleton (a := x) (b := f), ← mem_append, heq]
    exact mem_append_right as mem_cons_self
  · have hsum : fuel - as.length + as.length = fuel := by omega
    rw [hsum] at hrun
    rw [hrun, hk, mallocLoop, if_pos hb']

/-- Without a block that is large enough malloc() comes to the rover. -/
theorem Rover.exhausted (h1 : Rover base first h l live) (hsmall : ∀ x ∈ l, h.size x < nunits)
    (hfreep : h.freep = some f) (fuel : Nat) (luck : List Bool) :
    h.size f < nunits ∧ ∃ prevp, mallocLoop nunits (fuel + l.length) h luck f (h.ptr f) =
      mallocLoop nunits (fuel + 1) h luck prevp f := by
  obtain ⟨f', vs, hf', hfv, hp, hlen, hmem⟩ := h1.order
  rw [hfreep] at hf'
  cases hf'
  have hvs : ∀ y ∈ vs, h.size y < nunits ∧ h.freep ≠ some y := by
    intro y hy
    refine ⟨hsmall y ((hmem y).mpr (.inl hy)), ?_⟩
    rw [hfreep]
    rintro ⟨⟩
    exact hfv hy
  obtain ⟨prevp, -, -, hrun⟩ := mallocLoop_pass hp rfl hvs (fuel + 1) luck
  have hsum : fuel + l.length = fuel + 1 + vs.length := by omega
  refine ⟨hsmall f ((hmem f).mpr (.inr rfl)), prevp, ?_⟩
  rw [hsum, hrun]

theorem asInt_small (hn : n < 2147483648) : asInt n = n := by
  have hnat : (BitVec.ofNat 32 n).toNat = n := Nat.mod_eq_of_lt (Nat.lt_trans hn (by decide))
  rw [asInt, BitVec.toInt_eq_toNat_cond, hnat, if_pos (by omega)]

/-- morecore() fails, or adds a block that is large enough. -/
theorem Rover.morecore (h1 : Rover base first h l live) (hn : nunits < 134217728)
    (hsmall : ∀ x ∈ l, h.size x < nunits) (hfuel : l.length ≤ fuel) (granted : Bool) :
    User.morecore fuel h granted nunits = some (h, none) ∨
      ∃ h' l' f, User.morecore fuel h granted nunits = some (h', some f) ∧ h'.freep = some f ∧
        Rover base first h' l' live ∧ l'.length ≤ l.length + 1 ∧ ∃ x ∈ l', nunits ≤ h'.size x := by
  cases granted with
  | false => exact .inl rfl
  | true =>
    right
    generalize hnu : (if nunits < 4096 then 4096 else nunits) = nu
    have hle : nunits ≤ nu ∧ nu < 134217728 ∧ 1 ≤ nu := by
      split at hnu <;> omega
    have hbrk : (if (0 : Int) ≤ h.brk + asInt (nu * 16) then (h.brk + asInt (nu * 16)).toNat
        else h.brk) = h.brk + 16 * nu := by
      rw [asInt_small (by omega)]
      split <;> omega
    obtain ⟨f, hf, hfreep⟩ := h1.rover
    have h2 : Rover base first ({ h with brk := h.brk + 16 * nu }.setSize h.brk nu) l
        ((h.brk + 16, 0) :: live) := ⟨h1.toArena.grow hle.2.2 rfl rfl rfl, f, hf, hfreep⟩
    obtain ⟨h', l', hfree, h3, hlen, hbig⟩ := h2.free hfuel
    obtain ⟨f', hf', hfreep'⟩ := h3.rover
    have hnew : ({ h with brk := h.brk + 16 * nu }.setSize h.brk nu).size (header (h.brk + 16, 0)) =
        nu := by
      rw [header, Nat.add_sub_cancel, setSize_size, update_self]
    rw [hnew] at hbig
    have hold : ∀ x ∈ l, ({ h with brk := h.brk + 16 * nu }.setSize h.brk nu).size x <
        1073741824 := by
      intro x hx
      have hx' := hsmall x hx
      rw [setSize_size, update_apply]
      split
      · omega
      · exact Nat.lt_trans hx' (by omega)
    obtain ⟨x, hx, hxb⟩ := hbig (by omega) hold
    refine ⟨h', l', f', ?_, hfreep', h3, hlen, x, hx, by omega⟩
    rw [User.morecore, hnu, sbrk, if_pos rfl, hbrk]
    dsimp only
    rw [hfree, ← hfreep']
    rfl

theorem Rover.take (h1 : Rover base first h l live) (hprev : prevp ∈ l) (hp : p ∈ l)
    (hnext : h.ptr prevp = p) (hs : nunits ≤ h.size p) (hn : 1 ≤ nunits)
    (hb : nbytes ≤ 16 * (nunits - 1)) :
    ∃ h' ap l', User.take h prevp p nunits = (h', some ap) ∧
      Rover base first h' l' ((ap, nbytes) :: live) := by
  have hpb : p ≠ base := by
    rintro rfl
    rw [h1.empty] at hs
    omega
  rw [User.take]
  split
  · rename_i heq
    -- p is not the first of the list, so that prevp is the one before it
    obtain ⟨ms, ns, rfl⟩ := append_of_mem hprev
    cases ns with
    | nil =>
      have hlast := h1.circuit.next_last
      rw [hnext] at hlast
      have hle := head_le h1.sorted hlast h1.mem
      have hlt := h1.base_lt (mem_append_left _ hp) hpb
      omega
    | cons y ns =>
      rw [h1.circuit.next_eq] at hnext
      subst hnext
      rw [← heq] at hn hb
      refine ⟨_, _, ms ++ prevp :: ns, rfl, ⟨?_, prevp, ?_, rfl⟩⟩
      · exact (h1.toArena.takeAll hpb hn hb).congr rfl (fun _ _ => ⟨rfl, rfl⟩)
      · exact mem_append_right ms mem_cons_self
  · rename_i hne
    have hsize : (h.setSize p (h.size p - nunits)).size p = h.size p - nunits :=
      update_self ..
    dsimp only
    rw [hsize]
    refine ⟨_, _, l, rfl, ⟨?_, prevp, hprev, rfl⟩⟩
    exact (h1.toArena.takeEnd hp hpb (by omega) hn hb rfl).congr rfl (fun _ _ => ⟨rfl, rfl⟩)

theorem unitsFor_spec (nbytes : Nat) : 1 ≤ unitsFor nbytes ∧ nbytes ≤ 16 * (unitsFor nbytes - 1) ∧
    (nbytes ≤ 2147483616 → unitsFor nbytes < 134217728) := by
  rw [unitsFor]
  omega

/-- malloc() returns, with a new block or without one. -/
theorem Rover.malloc (h1 : Rover base first h l live) (hn : nbytes ≤ 2147483616)
    (hfreep : h.freep = some f) (hfuel : 2 * l.length + 1 ≤ fuel) (luck : List Bool) :
    ∃ h' r l', mallocLoop (unitsFor nbytes) fuel h luck f (h.ptr f) = some (h', r) ∧
      (r = none → Rover base first h' l' live) ∧
      ∀ ap, r = some ap → Rover base first h' l' ((ap, nbytes) :: live) := by
  obtain ⟨hpos, hbytes, hunits⟩ := unitsFor_spec nbytes
  by_cases hbig : ∃ x ∈ l, unitsFor nbytes ≤ h.size x
  · obtain ⟨prevp, p, hprev, hp, hnext, hs, hrun⟩ := h1.found hbig hfreep
      (by omega : l.length ≤ fuel) luck
    obtain ⟨h', ap, l', htake, h2⟩ := h1.take hprev hp hnext hs hpos hbytes
    refine ⟨h', some ap, l', by rw [hrun, htake], fun hr => (nomatch hr), ?_⟩
    rintro _ ⟨⟩
    exact h2
  · have hsmall : ∀ x ∈ l, h.size x < unitsFor nbytes := by
      intro x hx
      by_contra hc
      exact hbig ⟨x, hx, by omega⟩
    obtain ⟨k, rfl⟩ : ∃ k, fuel = k + l.length := ⟨fuel - l.length, by omega⟩
    obtain ⟨hf, prevp, hrun⟩ := h1.exhausted hsmall hfreep k luck
    rw [hrun, mallocLoop, if_neg (Nat.not_le.mpr hf), if_pos hfreep.symm]
    rcases h1.morecore (hunits hn) hsmall (by omega : l.length ≤ k) (luck.headD false) with
      hnone | ⟨h', l', f', hmore, hf', h2, hlen, hx⟩
    · rw [hnone]
      exact ⟨h, none, l, rfl, fun _ => h1, fun ap hr => (nomatch hr)⟩
    rw [hmore]
    obtain ⟨prevp, p, hprev, hp, hnext, hs, hrun⟩ := h2.found hx hf' (by omega : l'.length ≤ k)
      luck.tail
    obtain ⟨h'', ap, l'', htake, h3⟩ := h2.take hprev hp hnext hs hpos hbytes
    refine ⟨h'', some ap, l'', ?_, fun hr => (nomatch hr), ?_⟩
    · dsimp only
      rw [hrun, htake]
    · rintro _ ⟨⟩
      exact h3

/-- A program before its first malloc(), or with a free list. -/
structure Sound (base first : Nat) (s : Client) : Prop where
  below : base + 16 ≤ first
  grown : first ≤ s.heap.brk
  list : s.heap.freep = none ∧ s.live = [] ∨ ∃ l, Rover base first s.heap l s.live

theorem Rover.sound (h1 : Rover base first h l live) : Sound base first ⟨h, live⟩ :=
  ⟨h1.below, h1.grown, .inr ⟨l, h1⟩⟩

theorem Sound.prepare (h1 : Sound base first s) :
    (prepare base s.heap).brk = s.heap.brk ∧
      ∃ l, Rover base first (prepare base s.heap) l s.live := by
  rcases h1.list with ⟨hnone, hlive⟩ | ⟨l, h2⟩
  · rw [User.prepare, hnone]
    have hsize : ((s.heap.setPtr base base).setSize base 0).size base = 0 := update_self ..
    have hcirc : Circuit ((s.heap.setPtr base base).setSize base 0).ptr [base] :=
      circuit_cons.mpr (path_nil.mpr (update_self ..))
    refine ⟨rfl, [base], ⟨⟨h1.below, h1.grown, hsize, mem_cons_self, hcirc, ?_, ?_, ?_, ?_⟩,
      base, mem_cons_self, rfl⟩⟩
    · exact pairwise_singleton _ _
    · rw [hlive]
      exact pairwise_singleton _ _
    · intro x hx hxb
      rw [hlive] at hx
      exact absurd (mem_singleton.mp hx) hxb
    · intro q hq
      rw [hlive] at hq
      exact absurd hq not_mem_nil
  · obtain ⟨f, hf, hfreep⟩ := h2.rover
    rw [User.prepare, hfreep]
    exact ⟨rfl, l, h2⟩

theorem Sound.malloc (h1 : Sound base first s) (hn : nbytes ≤ 2147483616) (luck : List Bool) :
    ∃ t, step base s (.malloc nbytes luck) = some t ∧ Sound base first t := by
  obtain ⟨hbrk, l, h2⟩ := h1.prepare
  obtain ⟨f, hf, hfreep⟩ := h2.rover
  have hlen := h2.toArena.length_le
  have hfuel : 2 * l.length + 1 ≤ s.heap.fuel := by
    rw [Heap.fuel, ← hbrk]
    omega
  obtain ⟨h', r, l', hrun, hnone, hsome⟩ := h2.malloc hn hfreep hfuel luck
  have hmalloc : User.malloc base s.heap.fuel s.heap nbytes luck = some (h', r) := by
    rw [User.malloc, hfreep]
    exact hrun
  rw [step, hmalloc]
  cases r with
  | none => exact ⟨_, rfl, (hnone rfl).sound⟩
  | some ap => exact ⟨_, rfl, (hsome ap rfl).sound⟩

theorem Sound.free (h1 : Sound base first s) (hap : (ap, n) ∈ s.live) :
    ∃ t, step base s (.free ap) = some t ∧ Sound base first t := by
  rcases h1.list with ⟨-, hlive⟩ | ⟨l, h2⟩
  · rw [hlive] at hap
    exact absurd hap not_mem_nil
  have hany : s.live.any (fun q => q.1 == ap) = true :=
    any_eq_true.mpr ⟨(ap, n), hap, beq_self_eq_true ap⟩
  obtain ⟨q, as, bs, -, hq, hl, herase⟩ := exists_of_eraseP (p := fun q => q.1 == ap) hap
    (beq_self_eq_true ap)
  have hperm : s.live.Perm (q :: s.live.eraseP (fun q => q.1 == ap)) := by
    rw [herase, hl]
    exact perm_middle
  have h3 : Rover base first s.heap l (q :: s.live.eraseP (fun q => q.1 == ap)) :=
    ⟨h2.toArena.perm hperm, h2.rover⟩
  have hlen := h2.toArena.length_le
  have hfuel : l.length ≤ s.heap.fuel := by
    rw [Heap.fuel]
    omega
  obtain ⟨h', l', hfree, h4, -⟩ := h3.free hfuel
  rw [beq_iff_eq] at hq
  rw [hq] at hfree
  rw [step, if_pos hany, hfree]
  exact ⟨_, rfl, h4.sound⟩

theorem Arena.apart (h1 : Arena base first h l live) (hx : x ∈ l ++ live.map header)
    (hy : y ∈ l ++ live.map header) (hne : x ≠ y) : h.Clear x y :=
  have : Std.Symm h.Clear := ⟨fun _ _ hc => hc.symm⟩
  h1.clear.forall hx hy hne

theorem Arena.untouched (h1 : Arena base first h l live) (hx : x ∈ l ++ live.map header) :
    touches live x = false := by
  rw [touches, any_eq_false]
  intro q hq
  obtain ⟨hq16, hu, hn⟩ := h1.sized q hq
  have hhead : header q = q.1 - 16 := rfl
  have hqu : h.units (header q) = h.size (header q) := by
    rw [Heap.units]
    omega
  simp only [Bool.and_eq_true, decide_eq_true_eq]
  by_cases hxq : x = header q
  · omega
  · have hc := h1.apart hx (mem_append_right l (mem_map_of_mem hq)) hxq
    have hpos := units_pos h x
    rw [Heap.Clear, Apart, hqu] at hc
    omega

theorem Sound.write (h1 : Sound base first s) (ptr size : Nat → Nat) :
    ∃ t, step base s (.write ptr size) = some t ∧ Sound base first t := by
  refine ⟨_, rfl, h1.below, h1.grown, ?_⟩
  rcases h1.list with hnone | ⟨l, h2⟩
  · exact .inl hnone
  · refine .inr ⟨l, h2.toArena.congr rfl (fun x hx => ?_), h2.rover⟩
    have hx' := h2.toArena.untouched hx
    constructor
    · exact if_neg (by rw [hx']; exact Bool.false_ne_true)
    · exact if_neg (by rw [hx']; exact Bool.false_ne_true)

theorem Sound.step (h1 : Sound base first s) (hs : op.Small) (ha : op.Allowed s) :
    ∃ t, step base s op = some t ∧ Sound base first t := by
  cases op with
  | malloc nbytes luck => exact h1.malloc hs luck
  | free ap =>
    obtain ⟨n, hn⟩ := ha
    exact h1.free hn
  | write ptr size => exact h1.write ptr size

theorem allowed_of_step (h : User.step base s op = some t) : op.Allowed s := by
  cases op with
  | malloc nbytes luck => trivial
  | free ap =>
    rw [User.step] at h
    split at h
    · rename_i hany
      obtain ⟨q, hq, he⟩ := any_eq_true.mp hany
      rw [beq_iff_eq] at he
      exact ⟨q.2, he ▸ hq⟩
    · cases h
  | write ptr size => trivial

theorem Sound.run (h1 : Sound base first s) (hs : ∀ op ∈ ops, op.Small)
    (hr : run (User.step base) s ops = some t) : Sound base first t := by
  induction ops generalizing s with
  | nil =>
    cases hr
    exact h1
  | cons op ops ih =>
    obtain ⟨u, hu, hrest⟩ := run_cons.mp hr
    obtain ⟨u', hu', h2⟩ := h1.step (hs op mem_cons_self) (allowed_of_step hu)
    rw [hu] at hu'
    cases hu'
    exact ih h2 (fun o ho => hs o (mem_cons_of_mem op ho)) hrest

/-- The bytes of a block in use, with its header, lie in its units. -/
theorem Arena.fits (h1 : Arena base first h l live) (hq : q ∈ live) :
    16 ≤ q.1 ∧ 16 + q.2 ≤ 16 * h.units (header q) := by
  obtain ⟨hq16, hu, hn⟩ := h1.sized q hq
  rw [Heap.units]
  omega

theorem Sound.real (h1 : Sound base first s) : Real base first s := by
  rcases h1.list with ⟨-, hlive⟩ | ⟨l, h2⟩
  · refine ⟨?_, ?_, ?_, ?_⟩ <;> rw [hlive]
    · exact fun q hq => absurd hq not_mem_nil
    · exact List.Pairwise.nil
    · exact fun q hq => absurd hq not_mem_nil
    · exact fun q hq => absurd hq not_mem_nil
  have ha := h2.toArena
  have hmem : ∀ q ∈ s.live, header q ∈ l ++ s.live.map header := fun q hq =>
    mem_append_right l (mem_map_of_mem hq)
  have hlist : ∀ q ∈ s.live, ∀ x ∈ l,
      Apart (q.1 - 16) (16 + q.2) x (16 * s.heap.units x) := by
    intro q hq x hx
    have hc := ha.apart (hmem q hq) (mem_append_left _ hx) (ha.header_ne hx hq)
    have hf := ha.fits hq
    rw [Heap.Clear, header] at hc
    rw [header] at hf
    rw [Apart] at hc ⊢
    omega
  refine ⟨fun q hq => ?_, ?_, fun q hq x hx => ?_, fun q hq => ?_⟩
  · have hf := ha.fits hq
    have hi := ha.inside _ (hmem q hq) (ha.header_ne ha.mem hq)
    rw [header] at hf hi
    omega
  · have hc := (pairwise_append.mp ha.clear).2.1
    rw [pairwise_map] at hc
    refine hc.imp_of_mem (fun hq hr hqr => ?_)
    have hfq := ha.fits hq
    have hfr := ha.fits hr
    rw [header] at hfq hfr
    rw [Heap.Clear, header, header, Apart] at hqr
    rw [Apart]
    omega
  · obtain ⟨f, k, hf, rfl⟩ := hx
    obtain ⟨f', hf', hfreep⟩ := h2.rover
    rw [hfreep] at hf
    cases hf
    exact hlist q hq _ (ha.circuit.iterate_mem hf' k)
  · have hc := hlist q hq base ha.mem
    rw [Heap.units, ha.empty] at hc
    exact hc

/-- In every run whose requests are small enough, the blocks of the program are real memory that
nothing else uses, and every further call returns. -/
theorem malloc_real (base first : Nat) (hb : base + 16 ≤ first) (ptr size : Nat → Nat)
    (ops : List Op) (hs : ∀ op ∈ ops, op.Small)
    (hr : run (step base) (start ptr size first) ops = some s) :
    Real base first s ∧
      ∀ op : Op, op.Small → op.Allowed s → ∃ t, step base s op = some t := by
  have h0 : Sound base first (start ptr size first) := ⟨hb, Nat.le_refl _, .inl ⟨rfl, rfl⟩⟩
  have h1 := h0.run hs hr
  refine ⟨h1.real, fun op hop ha => ?_⟩
  obtain ⟨t, ht, -⟩ := h1.step hop ha
  exact ⟨t, ht⟩

end

/-- Two blocks, the first one freed and used again, with other data written in between. -/
theorem malloc_real_reuse : ∃ s, run (step 4096) (start (fun _ => 7) (fun _ => 9) 16384)
    [.malloc 100 [true], .malloc 20 [], .write (fun _ => 5) (fun _ => 5), .free 81808,
      .malloc 50 []] = some s ∧ s.live = [(81856, 50), (81760, 20)] ∧ Real 4096 16384 s := by
  obtain ⟨s, hs, hp⟩ : ∃ s, run (step 4096) (start (fun _ => 7) (fun _ => 9) 16384)
      [.malloc 100 [true], .malloc 20 [], .write (fun _ => 5) (fun _ => 5), .free 81808,
        .malloc 50 []] = some s ∧ s.live = [(81856, 50), (81760, 20)] := by decide +kernel
  refine ⟨s, hs, hp, (malloc_real 4096 16384 (by decide) _ _ _ ?_ hs).1⟩
  intro op hop
  simp only [mem_cons, not_mem_nil, or_false] at hop
  rcases hop with rfl | rfl | rfl | rfl | rfl
  · exact (by decide : 100 ≤ 2147483616)
  · exact (by decide : 20 ≤ 2147483616)
  · trivial
  · trivial
  · exact (by decide : 50 ≤ 2147483616)

/-- The largest request: sbrk() is asked for 16 bytes and grants them, and malloc() returns. -/
theorem malloc_largest : ∃ s, run (step 4096) (start (fun _ => 0) (fun _ => 0) 16384)
    [.malloc 4294967295 [true]] = some s ∧ s.live = [(16400, 4294967295)] ∧ s.heap.brk = 16400 ∧
      ¬ Real 4096 16384 s := by
  obtain ⟨s, hs, hlive, hbrk⟩ : ∃ s, run (step 4096) (start (fun _ => 0) (fun _ => 0) 16384)
      [.malloc 4294967295 [true]] = some s ∧ s.live = [(16400, 4294967295)] ∧
      s.heap.brk = 16400 := by decide +kernel
  refine ⟨s, hs, hlive, hbrk, fun hreal => ?_⟩
  have hg := (hreal.granted (16400, 4294967295) (by rw [hlive]; exact mem_cons_self)).2
  rw [hbrk] at hg
  omega

end Xv6.User
