import Xv6.User.Malloc
import Mathlib.Data.List.Nodup

namespace Xv6.User

open Function List Lib

/-- The units of a block, at least that of its header. -/
def Heap.units (h : Heap) (x : Nat) : Nat := max 1 (h.size x)

/-- The blocks at x and y have no byte in common. -/
def Heap.Clear (h : Heap) (x y : Nat) : Prop := Apart x (16 * h.units x) y (16 * h.units y)

/-- The header of a block in use. -/
def header (q : Nat × Nat) : Nat := q.1 - 16

/-- The free list l, a circuit of increasing addresses with base, and the blocks in use: all of
them lie apart, and all but base in the memory from first up to the break. -/
structure Arena (base first : Nat) (h : Heap) (l : List Nat) (live : List (Nat × Nat)) :
    Prop where
  below : base + 16 ≤ first
  grown : first ≤ h.brk
  empty : h.size base = 0
  mem : base ∈ l
  circuit : Circuit h.ptr l
  sorted : l.Pairwise (· < ·)
  clear : (l ++ live.map header).Pairwise h.Clear
  inside : ∀ x ∈ l ++ live.map header, x ≠ base → first ≤ x ∧ x + 16 * h.units x ≤ h.brk
  sized : ∀ q ∈ live, 16 ≤ q.1 ∧ 1 ≤ h.size (header q) ∧ q.2 ≤ 16 * (h.size (header q) - 1)

/-- A block is put behind p. -/
def enlist (h : Heap) (p b : Nat) : Heap := (h.setPtr b (h.ptr p)).setPtr p b

/-- The block x takes in the one behind it. -/
def join (h : Heap) (x : Nat) : Heap :=
  (h.setSize x (addSize (h.size x) (h.size (h.ptr x)))).setPtr x (h.ptr (h.ptr x))

@[simp] theorem setPtr_ptr (h : Heap) (p q : Nat) :
    (h.setPtr p q).ptr = update h.ptr p q := rfl

@[simp] theorem setPtr_size (h : Heap) (p q : Nat) : (h.setPtr p q).size = h.size := rfl

@[simp] theorem setSize_ptr (h : Heap) (p n : Nat) : (h.setSize p n).ptr = h.ptr := rfl

@[simp] theorem setSize_size (h : Heap) (p n : Nat) :
    (h.setSize p n).size = update h.size p n := rfl

@[simp] theorem setSize_brk (h : Heap) (p n : Nat) : (h.setSize p n).brk = h.brk := rfl

theorem addSize_le (m n : Nat) : addSize m n ≤ m + n := Nat.mod_le _ _

section
variable {h h' : Heap} {live : List (Nat × Nat)} {l ms ns : List Nat}

theorem units_congr (hs : h'.size x = h.size x) : h'.units x = h.units x := by
  rw [Heap.units, Heap.units, hs]

theorem units_pos (h : Heap) (x : Nat) : 1 ≤ h.units x := Nat.le_max_left _ _

theorem Heap.Clear.symm (hc : h.Clear x y) : h.Clear y x := hc.elim .inr .inl

theorem Heap.Clear.ne (hc : h.Clear x y) : x ≠ y := by
  rintro rfl
  have := units_pos h x
  rw [Heap.Clear, Apart] at hc
  omega

theorem clear_perm {bs bs' : List Nat} (hp : bs.Perm bs') :
    bs.Pairwise h.Clear ↔ bs'.Pairwise h.Clear := hp.pairwise_iff (fun hc => hc.symm)

theorem clear_congr {bs : List Nat} (hc : bs.Pairwise h.Clear)
    (hs : ∀ x ∈ bs, h'.size x = h.size x) : bs.Pairwise h'.Clear := by
  refine hc.imp_of_mem (fun hx hy hxy => ?_)
  rw [Heap.Clear, units_congr (hs _ hx), units_congr (hs _ hy)]
  exact hxy

theorem perm_enlist (ms ns hs : List Nat) (p b : Nat) :
    ((ms ++ p :: ns) ++ b :: hs).Perm ((ms ++ p :: b :: ns) ++ hs) := by
  have hright : (ms ++ p :: b :: ns) ++ hs = (ms ++ [p]) ++ b :: (ns ++ hs) := by simp
  have hleft : (ms ++ p :: ns) ++ hs = (ms ++ [p]) ++ (ns ++ hs) := by simp
  rw [hright]
  refine perm_middle.trans ?_
  rw [hleft]
  exact perm_middle.symm

theorem Arena.base_lt (h1 : Arena base first h l live) (hx : x ∈ l ++ live.map header)
    (hne : x ≠ base) : base < x := by
  have hb := h1.below
  have hi := (h1.inside x hx hne).1
  omega

theorem Arena.perm (h1 : Arena base first h l live) (hp : live.Perm live') :
    Arena base first h l live' := by
  have hb : (l ++ live.map header).Perm (l ++ live'.map header) := (hp.map header).append_left l
  exact ⟨h1.below, h1.grown, h1.empty, h1.mem, h1.circuit, h1.sorted, (clear_perm hb).mp h1.clear,
    fun x hx => h1.inside x (hb.mem_iff.mpr hx), fun q hq => h1.sized q (hp.mem_iff.mpr hq)⟩

theorem sorted_middle : (ms ++ p :: ns).Pairwise (· < ·) ↔ ms.Pairwise (· < ·) ∧
    ns.Pairwise (· < ·) ∧ (∀ m ∈ ms, m < p) ∧ ∀ n ∈ ns, p < n := by
  rw [pairwise_append, pairwise_cons]
  constructor
  · intro hs
    exact ⟨hs.1, hs.2.1.2, fun m hm => hs.2.2 m hm p mem_cons_self, hs.2.1.1⟩
  · intro hs
    obtain ⟨hms, hns, hm, hn⟩ := hs
    refine ⟨hms, ⟨hn, hns⟩, fun m hm' y hy => ?_⟩
    rcases mem_cons.mp hy with rfl | hy
    · exact hm m hm'
    · exact Nat.lt_trans (hm m hm') (hn y hy)

theorem Arena.enlist (h1 : Arena base first h (ms ++ p :: ns) (q :: live)) (hp : p < header q)
    (hns : ∀ y ∈ ns, header q < y) :
    Arena base first (enlist h p (header q)) (ms ++ p :: header q :: ns) live := by
  have hperm := perm_enlist ms ns (live.map header) p (header q)
  obtain ⟨hsm, hsn, hm, hn⟩ := sorted_middle.mp h1.sorted
  refine ⟨h1.below, h1.grown, h1.empty, ?_, ?_, ?_, (clear_perm hperm).mp h1.clear,
    fun x hx => h1.inside x (hperm.mem_iff.mpr hx),
    fun r hr => h1.sized r (mem_cons_of_mem q hr)⟩
  · have hmem := h1.mem
    simp only [mem_append, mem_cons] at hmem ⊢
    exact hmem.imp_right (fun hc => hc.imp_right .inr)
  · have hne : header q ≠ p := Nat.ne_of_gt hp
    refine h1.circuit.insert ?_ ?_ ?_
    · exact update_self ..
    · rw [User.enlist, setPtr_ptr, setPtr_ptr, update_of_ne hne, update_self]
    intro y hy
    have hy' : y ≠ p ∧ y ≠ header q := by
      rcases mem_append.mp hy with hy | hy
      · have := hns y hy
        omega
      · have := hm y hy
        omega
    rw [User.enlist, setPtr_ptr, setPtr_ptr, update_of_ne hy'.1,
      update_of_ne hy'.2]
  · refine sorted_middle.mpr ⟨hsm, pairwise_cons.mpr ⟨hns, hsn⟩, hm, fun y hy => ?_⟩
    rcases mem_cons.mp hy with rfl | hy
    · exact hp
    · exact hn y hy

theorem Arena.header_ne (h1 : Arena base first h l live) (hx : x ∈ l) (hq : q ∈ live) :
    header q ≠ x := by
  have hc := (pairwise_append.mp h1.clear).2.2 x hx (header q) (mem_map_of_mem hq)
  exact hc.ne.symm

theorem Arena.join (h1 : Arena base first h (ms ++ x :: y :: ns) live)
    (hxy : x + 16 * h.size x = y) : Arena base first (join h x) (ms ++ x :: ns) live := by
  have hnext : h.ptr x = y := h1.circuit.next_eq
  obtain ⟨hsm, hsn, hm, hn⟩ := sorted_middle.mp h1.sorted
  obtain ⟨hyn, hsn'⟩ := pairwise_cons.mp hsn
  have hlt : x < y := hn y mem_cons_self
  have hxl : x ∈ ms ++ x :: y :: ns := mem_append_right ms mem_cons_self
  have hyl : y ∈ ms ++ x :: y :: ns :=
    mem_append_right ms (mem_cons_of_mem x mem_cons_self)
  have hxb : x ≠ base := by
    rintro rfl
    rw [h1.empty] at hxy
    omega
  have hyb : y ≠ base := by
    have := h1.base_lt (mem_append_left _ hxl) hxb
    omega
  have hsize : (User.join h x).size x = addSize (h.size x) (h.size y) := by
    rw [User.join, setPtr_size, setSize_size, update_self, hnext]
  have hother : ∀ z, z ≠ x → (User.join h x).size z = h.size z := by
    intro z hz
    rw [User.join, setPtr_size, setSize_size, update_of_ne hz]
  have hunits : (User.join h x).units x ≤ h.units x + h.units y := by
    have := addSize_le (h.size x) (h.size y)
    rw [Heap.units, hsize, Heap.units, Heap.units]
    omega
  have hux : y = x + 16 * h.units x := by
    rw [Heap.units]
    omega
  have hnew : (ms ++ x :: ns ++ live.map header).Perm (x :: (ms ++ ns ++ live.map header)) :=
    perm_middle.append_right _
  have hold : (ms ++ x :: y :: ns ++ live.map header).Perm
      (x :: y :: (ms ++ ns ++ live.map header)) :=
    (perm_middle.append_right _).trans ((perm_middle.append_right _).cons x)
  obtain ⟨hcx, hcy⟩ := pairwise_cons.mp ((clear_perm hold).mp h1.clear)
  obtain ⟨hcy, hrest⟩ := pairwise_cons.mp hcy
  have hne : ∀ z ∈ ms ++ ns ++ live.map header, z ≠ x := fun z hz =>
    (hcx z (mem_cons_of_mem y hz)).ne.symm
  refine ⟨h1.below, h1.grown, ?_, ?_, ?_, ?_, ?_, ?_, ?_⟩
  · rw [hother base hxb.symm]
    exact h1.empty
  · have hmem := h1.mem
    simp only [mem_append, mem_cons] at hmem ⊢
    rcases hmem with hb | hb | hb | hb
    · exact .inl hb
    · exact absurd hb.symm hxb
    · exact absurd hb.symm hyb
    · exact .inr (.inr hb)
  · refine h1.circuit.remove ?_ (fun z hz => ?_)
    · rw [User.join, setPtr_ptr, update_self, hnext]
    · have hzx : z ≠ x := by
        rcases mem_append.mp hz with hz | hz
        · have := hyn z hz
          omega
        · have := hm z hz
          omega
      rw [User.join, setPtr_ptr, update_of_ne hzx, setSize_ptr]
  · exact sorted_middle.mpr ⟨hsm, hsn', hm, fun z hz => Nat.lt_trans hlt (hyn z hz)⟩
  · rw [clear_perm hnew, pairwise_cons]
    refine ⟨fun z hz => ?_, clear_congr hrest (fun z hz => hother z (hne z hz))⟩
    have hxz := hcx z (mem_cons_of_mem y hz)
    have hyz := hcy z hz
    have huz := units_congr (hother z (hne z hz))
    have hpos := units_pos h z
    rw [Heap.Clear, Apart] at hxz hyz ⊢
    rw [huz]
    omega
  · intro z hz hzb
    rcases mem_cons.mp (hnew.mem_iff.mp hz) with rfl | hz
    · have hxi := (h1.inside z (mem_append_left _ hxl) hxb).1
      have hyi := (h1.inside y (mem_append_left _ hyl) hyb).2
      refine ⟨hxi, ?_⟩
      change z + 16 * _ ≤ h.brk
      omega
    · have hzo := hold.mem_iff.mpr (mem_cons_of_mem x (mem_cons_of_mem y hz))
      have hzi := h1.inside z hzo hzb
      rw [units_congr (hother z (hne z hz))]
      exact hzi
  · intro q hq
    rw [hother (header q) (h1.header_ne hxl hq)]
    exact h1.sized q hq

theorem Arena.congr (h1 : Arena base first h l live) (hbrk : h'.brk = h.brk)
    (hs : ∀ x ∈ l ++ live.map header, h'.ptr x = h.ptr x ∧ h'.size x = h.size x) :
    Arena base first h' l live := by
  have hl : ∀ x ∈ l, h'.ptr x = h.ptr x ∧ h'.size x = h.size x := fun x hx =>
    hs x (mem_append_left _ hx)
  refine ⟨h1.below, ?_, ?_, h1.mem, ?_, h1.sorted, clear_congr h1.clear (fun x hx => (hs x hx).2),
    fun x hx hxb => ?_, fun q hq => ?_⟩
  · rw [hbrk]
    exact h1.grown
  · rw [(hl base h1.mem).2]
    exact h1.empty
  · obtain ⟨a, ha, hp⟩ := h1.circuit
    exact ⟨a, ha, hp.congr (fun x hx => (hl x hx).1)⟩
  · rw [units_congr (hs x hx).2, hbrk]
    exact h1.inside x hx hxb
  · rw [(hs (header q) (mem_append_right _ (mem_map_of_mem hq))).2]
    exact h1.sized q hq

theorem Arena.takeAll (h1 : Arena base first h (ms ++ prevp :: p :: ns) live) (hp : p ≠ base)
    (hs : 1 ≤ h.size p) (hn : nbytes ≤ 16 * (h.size p - 1)) :
    Arena base first (h.setPtr prevp (h.ptr p)) (ms ++ prevp :: ns) ((p + 16, nbytes) :: live) := by
  have hperm : (ms ++ prevp :: p :: ns ++ live.map header).Perm
      ((ms ++ prevp :: ns) ++ ((p + 16, nbytes) :: live).map header) := by
    rw [map_cons, header, Nat.add_sub_cancel]
    exact (perm_enlist ms ns (live.map header) prevp p).symm
  obtain ⟨hsm, hsn, hm, hlt⟩ := sorted_middle.mp h1.sorted
  obtain ⟨hpn, hsn⟩ := pairwise_cons.mp hsn
  have hpp : prevp < p := hlt p mem_cons_self
  refine ⟨h1.below, h1.grown, h1.empty, ?_, ?_, ?_, (clear_perm hperm).mp h1.clear,
    fun x hx => h1.inside x (hperm.mem_iff.mpr hx), fun q hq => ?_⟩
  · have hmem := h1.mem
    simp only [mem_append, mem_cons] at hmem ⊢
    rcases hmem with hb | hb | hb | hb
    · exact .inl hb
    · exact .inr (.inl hb)
    · exact absurd hb.symm hp
    · exact .inr (.inr hb)
  · refine h1.circuit.remove (update_self ..) (fun z hz => ?_)
    have hz' : z ≠ prevp := by
      rcases mem_append.mp hz with hz | hz
      · have := hpn z hz
        omega
      · have := hm z hz
        omega
    rw [setPtr_ptr, update_of_ne hz']
  · exact sorted_middle.mpr ⟨hsm, hsn, hm, fun z hz => Nat.lt_trans hpp (hpn z hz)⟩
  · rcases mem_cons.mp hq with rfl | hq
    · rw [header, Nat.add_sub_cancel, setPtr_size]
      exact ⟨Nat.le_add_left 16 p, hs, hn⟩
    · exact h1.sized q hq

/-- The upper end of a block of the list is handed out. -/
theorem Arena.takeEnd (h1 : Arena base first h l live) (hp : p ∈ l) (hpb : p ≠ base)
    (hlt : n < h.size p) (hn0 : 1 ≤ n) (hn : nbytes ≤ 16 * (n - 1))
    (hb : b = p + 16 * (h.size p - n)) :
    Arena base first ((h.setSize p (h.size p - n)).setSize b n) l ((b + 16, nbytes) :: live) := by
  obtain ⟨ms, ns, hl⟩ := append_of_mem hp
  have hperm : (l ++ live.map header).Perm (p :: (ms ++ ns ++ live.map header)) := by
    rw [hl]
    exact perm_middle.append_right _
  have hperm' : (l ++ ((b + 16, nbytes) :: live).map header).Perm
      (b :: p :: (ms ++ ns ++ live.map header)) := by
    rw [map_cons, header, Nat.add_sub_cancel]
    exact perm_middle.trans (hperm.cons b)
  generalize hH : (h.setSize p (h.size p - n)).setSize b n = H
  have hpi := h1.inside p (mem_append_left _ hp) hpb
  have hup : h.units p = h.size p := by
    rw [Heap.units]
    omega
  have hbp : b ≠ p := by omega
  have hHb : H.units b = n := by
    rw [← hH, Heap.units, setSize_size, update_self]
    omega
  have hHp : H.units p = h.size p - n := by
    rw [← hH, Heap.units, setSize_size, update_of_ne hbp.symm, setSize_size,
      update_self]
    omega
  have hbrk : H.brk = h.brk := by rw [← hH, setSize_brk, setSize_brk]
  obtain ⟨hcp, hrest⟩ := pairwise_cons.mp ((clear_perm hperm).mp h1.clear)
  have hne : ∀ z ∈ ms ++ ns ++ live.map header, z ≠ p ∧ z ≠ b := by
    intro z hz
    have hc := hcp z hz
    have := units_pos h z
    rw [Heap.Clear, Apart, hup] at hc
    omega
  have hother : ∀ z, z ≠ p → z ≠ b → H.size z = h.size z := by
    intro z hzp hzb
    rw [← hH, setSize_size, update_of_ne hzb, setSize_size, update_of_ne hzp]
  have hbb : base ≠ b := by
    have := h1.base_lt (mem_append_left _ hp) hpb
    omega
  refine ⟨h1.below, ?_, ?_, h1.mem, ?_, h1.sorted, ?_, fun z hz hzb => ?_, fun q hq => ?_⟩
  · rw [hbrk]
    exact h1.grown
  · rw [hother base hpb.symm hbb]
    exact h1.empty
  · rw [← hH]
    exact h1.circuit
  · rw [clear_perm hperm', pairwise_cons, pairwise_cons]
    have hzs : ∀ z ∈ ms ++ ns ++ live.map header, H.Clear p z ∧ H.Clear b z := by
      intro z hz
      have hc := hcp z hz
      obtain ⟨hzp, hzb⟩ := hne z hz
      rw [Heap.Clear, Apart, hup] at hc
      rw [Heap.Clear, Heap.Clear, Apart, Apart, hHp, hHb, units_congr (hother z hzp hzb)]
      omega
    refine ⟨fun z hz => ?_, fun z hz => (hzs z hz).1,
      clear_congr hrest (fun z hz => hother z (hne z hz).1 (hne z hz).2)⟩
    rcases mem_cons.mp hz with rfl | hz
    · rw [Heap.Clear, Apart, hHp, hHb]
      omega
    · exact (hzs z hz).2
  · rw [hbrk]
    rcases mem_cons.mp (hperm'.mem_iff.mp hz) with rfl | hz
    · rw [hHb]
      omega
    · rcases mem_cons.mp hz with rfl | hz'
      · rw [hHp]
        omega
      · rw [units_congr (hother z (hne z hz').1 (hne z hz').2)]
        exact h1.inside z (hperm.mem_iff.mpr hz) hzb
  · rcases mem_cons.mp hq with rfl | hq
    · have hsb : H.size b = n := by rw [← hH, setSize_size, update_self]
      rw [header, Nat.add_sub_cancel, hsb]
      exact ⟨Nat.le_add_left 16 b, hn0, hn⟩
    · have hm : header q ∈ ms ++ ns ++ live.map header :=
        mem_append_right _ (mem_map_of_mem hq)
      rw [hother (header q) (hne _ hm).1 (hne _ hm).2]
      exact h1.sized q hq

theorem Arena.end_le (h1 : Arena base first h l live) (hx : x ∈ l ++ live.map header) :
    x + 16 * h.units x ≤ h.brk := by
  by_cases hxb : x = base
  · have hb := h1.below
    have hg := h1.grown
    rw [hxb, Heap.units, h1.empty]
    omega
  · exact (h1.inside x hx hxb).2

theorem Arena.grow (h1 : Arena base first h l live) (hnu : 1 ≤ nu) (hH : H.ptr = h.ptr)
    (hs : H.size = update h.size h.brk nu) (hbrk : H.brk = h.brk + 16 * nu) :
    Arena base first H l ((h.brk + 16, 0) :: live) := by
  have hg := h1.grown
  have hb := h1.below
  have hhead : ((h.brk + 16, 0) :: live).map header = h.brk :: live.map header := by
    rw [map_cons, header, Nat.add_sub_cancel]
  have hperm : (l ++ ((h.brk + 16, 0) :: live).map header).Perm
      (h.brk :: (l ++ live.map header)) := by
    rw [hhead]
    exact perm_middle
  have hne : ∀ z ∈ l ++ live.map header, z ≠ h.brk := by
    intro z hz
    have := h1.end_le hz
    have := units_pos h z
    omega
  have hself : H.size h.brk = nu := by rw [hs, update_self]
  have hother : ∀ z ∈ l ++ live.map header, H.size z = h.size z := by
    intro z hz
    rw [hs, update_of_ne (hne z hz)]
  have hunits : H.units h.brk = nu := by
    rw [Heap.units, hself]
    omega
  refine ⟨h1.below, by omega, ?_, h1.mem, ?_, h1.sorted, ?_, fun z hz hzb => ?_, fun q hq => ?_⟩
  · rw [hother base (mem_append_left _ h1.mem)]
    exact h1.empty
  · rw [hH]
    exact h1.circuit
  · rw [clear_perm hperm, pairwise_cons]
    refine ⟨fun z hz => .inr ?_, clear_congr h1.clear hother⟩
    rw [units_congr (hother z hz)]
    exact h1.end_le hz
  · rw [hbrk]
    rcases mem_cons.mp (hperm.mem_iff.mp hz) with rfl | hz
    · rw [hunits]
      omega
    · have hi := h1.inside z hz hzb
      rw [units_congr (hother z hz)]
      omega
  · rcases mem_cons.mp hq with rfl | hq
    · rw [header, Nat.add_sub_cancel, hself]
      omega
    · rw [hother (header q) (mem_append_right _ (mem_map_of_mem hq))]
      exact h1.sized q hq

end

end Xv6.User
