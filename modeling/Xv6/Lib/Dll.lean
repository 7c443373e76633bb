import Mathlib.Data.List.Nodup
import Mathlib.Logic.Function.Basic

namespace Xv6.Lib

open Function List

variable {ν : Type} {next prev : ν → ν} {a x y z : ν} {l : List ν}

/-- Pointers in both directions from a through the nodes of l to z. -/
def Seg (next prev : ν → ν) : ν → List ν → ν → Prop
  | a, [], z => next a = z ∧ prev z = a
  | a, x :: l, z => next a = x ∧ prev x = a ∧ Seg next prev x l z

theorem seg_append {l m : List ν} :
    Seg next prev a (l ++ x :: m) z ↔ Seg next prev a l x ∧ Seg next prev x m z := by
  induction l generalizing a with
  | nil => simp [Seg, and_assoc]
  | cons y l ih => simp [Seg, ih, and_assoc]

theorem Seg.congr {next' prev' : ν → ν} (h : Seg next prev a l z)
    (hn : ∀ y ∈ a :: l, next' y = next y) (hp : ∀ y ∈ z :: l, prev' y = prev y) :
    Seg next' prev' a l z := by
  induction l generalizing a with
  | nil => exact ⟨(hn a (by simp)).trans h.1, (hp z (by simp)).trans h.2⟩
  | cons x l ih =>
    refine ⟨(hn a (by simp)).trans h.1, (hp x (by simp)).trans h.2.1, ih h.2.2 ?_ ?_⟩
    · exact fun y hy => hn y (.tail _ hy)
    · intro y hy
      apply hp y
      rcases mem_cons.mp hy with rfl | hy
      · simp
      · exact .tail _ (.tail _ hy)

theorem Seg.prev_mem (h : Seg next prev a l z) : prev z ∈ a :: l := by
  induction l generalizing a with
  | nil => simp [h.2]
  | cons x l ih => exact .tail _ (ih h.2.2)

theorem Seg.next_mem (h : Seg next prev a l z) : next a ∈ z :: l := by
  cases l with
  | nil => simp [h.1]
  | cons x l => simp [h.1]

/-- The last pointer of a segment is turned to another node. -/
theorem Seg.retarget {next' prev' : ν → ν} (h : Seg next prev a l x) (hd : (a :: l).Nodup)
    (hn : next' (prev x) = z) (hn' : ∀ y ∈ a :: l, y ≠ prev x → next' y = next y)
    (hp : prev' z = prev x) (hp' : ∀ y ∈ l, prev' y = prev y) : Seg next' prev' a l z := by
  induction l generalizing a with
  | nil =>
    obtain ⟨-, ha⟩ := h
    rw [ha] at hn hp
    exact ⟨hn, hp⟩
  | cons y l ih =>
    obtain ⟨h₁, h₂, h₃⟩ := h
    rw [nodup_cons] at hd
    have hne : a ≠ prev x := fun he => hd.1 (he ▸ h₃.prev_mem)
    refine ⟨(hn' a (by simp) hne).trans h₁, (hp' y (by simp)).trans h₂, ih h₃ hd.2 ?_ ?_⟩
    · exact fun u hu => hn' u (.tail _ hu)
    · exact fun u hu => hp' u (.tail _ hu)

/-- The first pointer of a segment comes from another node. -/
theorem Seg.resource {next' prev' : ν → ν} (h : Seg next prev x l z) (hn : next' a = next x)
    (hn' : ∀ y ∈ l, next' y = next y) (hp : prev' (next x) = a)
    (hp' : ∀ y ∈ z :: l, y ≠ next x → prev' y = prev y) (hd : (z :: l).Nodup) :
    Seg next' prev' a l z := by
  cases l with
  | nil =>
    obtain ⟨h₁, -⟩ := h
    rw [h₁] at hn hp
    exact ⟨hn, hp⟩
  | cons y l =>
    obtain ⟨h₁, -, h₃⟩ := h
    rw [h₁] at hn hp hp'
    refine ⟨hn, hp, h₃.congr hn' ?_⟩
    rw [nodup_cons, nodup_cons, mem_cons, not_or] at hd
    intro u hu
    rcases mem_cons.mp hu with rfl | hu
    · exact hp' u (by simp) hd.1.1
    · exact hp' u (.tail _ (.tail _ hu)) (fun he => hd.2.1 (he ▸ hu))

/-- The nodes of l in a circle through head. -/
structure Circle (next prev : ν → ν) (head : ν) (l : List ν) : Prop where
  seg : Seg next prev head l head
  nodup : (head :: l).Nodup

theorem circle_nil (head : ν) : Circle (fun _ => head) (fun _ => head) head [] :=
  ⟨⟨rfl, rfl⟩, by simp⟩

variable [DecidableEq ν]

theorem Circle.push {head : ν} (h : Circle next prev head l) (hx : x ∉ head :: l) :
    Circle (update (update next x (next head)) head x)
      (update (update prev x head) (next head) x) head (x :: l) := by
  have hxh : x ≠ head := fun he => hx (by simp [he])
  have hxl : x ∉ l := fun hm => hx (.tail _ hm)
  have hhl := (nodup_cons.mp h.nodup).1
  have hxn : x ≠ next head := fun he => hx (he ▸ h.seg.next_mem)
  refine ⟨⟨by simp, by simp [hxn], ?_⟩, ?_⟩
  · apply h.seg.resource
    · simp [hxh]
    · intro y hy
      have hyh : y ≠ head := fun he => hhl (he ▸ hy)
      have hyx : y ≠ x := fun he => hxl (he ▸ hy)
      simp [hyh, hyx]
    · simp
    · intro y hy hyn
      have hyx : y ≠ x := fun he => hx (he ▸ hy)
      simp [hyn, hyx]
    · exact h.nodup
  · rw [nodup_cons, mem_cons, not_or, nodup_cons]
    exact ⟨⟨hxh.symm, hhl⟩, hxl, (nodup_cons.mp h.nodup).2⟩

theorem Circle.unlink {head : ν} (h : Circle next prev head l) (hx : x ∈ l) :
    Circle (update next (prev x) (next x)) (update prev (next x) (prev x)) head
      (l.erase x) := by
  obtain ⟨l₁, l₂, rfl, hx₁⟩ := eq_append_cons_of_mem hx
  have hd := h.nodup
  rw [erase_append_right _ hx₁, erase_cons_head]
  rw [nodup_cons, mem_append, not_or, mem_cons, not_or, nodup_append,
    nodup_cons] at hd
  obtain ⟨⟨hh₁, hhx, hh₂⟩, hd₁, ⟨hx₂, hd₂⟩, hd₁₂⟩ := hd
  have hnew : (head :: (l₁ ++ l₂)).Nodup := by
    rw [nodup_cons, mem_append, not_or, nodup_append]
    exact ⟨⟨hh₁, hh₂⟩, hd₁, hd₂, fun u hu v hv => hd₁₂ u hu v (.tail _ hv)⟩
  obtain ⟨s₁, s₂⟩ := seg_append.mp h.seg
  -- the part in front of x now ends at the node after x
  have hfront : Seg (update next (prev x) (next x))
      (update prev (next x) (prev x)) head l₁ (next x) := by
    apply s₁.retarget (nodup_cons.mpr ⟨hh₁, hd₁⟩)
    · simp
    · exact fun y _ hy => update_of_ne hy ..
    · simp
    · intro y hy
      apply update_of_ne
      rintro rfl
      rcases mem_cons.mp s₂.next_mem with he | hm
      · exact hh₁ (he ▸ hy)
      · exact hd₁₂ _ hy _ (.tail _ hm) rfl
  refine ⟨?_, hnew⟩
  cases l₂ with
  | nil =>
    rw [s₂.1] at hfront ⊢
    simpa using hfront
  | cons w l₂ =>
    obtain ⟨hw, -, s₃⟩ := s₂
    rw [hw] at hfront ⊢
    refine seg_append.mpr ⟨hfront, s₃.congr ?_ ?_⟩
    · intro y hy
      apply update_of_ne
      rintro rfl
      rcases mem_cons.mp s₁.prev_mem with he | hm
      · exact hh₂ (he ▸ hy)
      · exact hd₁₂ _ hm _ (.tail _ hy) rfl
    · intro y hy
      apply update_of_ne
      rintro rfl
      rcases mem_cons.mp hy with rfl | hy
      · exact hh₂ (by simp)
      · exact (nodup_cons.mp hd₂).1 hy

/-- A walk along the pointers, until it is back at head or finds what it looks for. -/
def walk (step : ν → ν) (head : ν) (P : ν → Bool) : Nat → ν → Option ν
  | 0, _ => none
  | fuel + 1, b =>
    if b = head then none
    else if P b then some b
    else walk step head P fuel (step b)

theorem Seg.walk_next {head : ν} (h : Seg next prev a l head) (hl : head ∉ l) (P : ν → Bool)
    (hf : l.length < fuel) : walk next head P fuel (next a) = l.find? P := by
  induction l generalizing a fuel with
  | nil =>
    cases fuel with
    | zero => cases hf
    | succ fuel => simp [walk, h.1]
  | cons x l ih =>
    cases fuel with
    | zero => cases hf
    | succ fuel =>
      rw [mem_cons, not_or] at hl
      rw [h.1, walk, if_neg (Ne.symm hl.1), List.find?_cons]
      cases P x with
      | true => rfl
      | false => exact ih h.2.2 hl.2 (Nat.lt_of_succ_lt_succ hf)

theorem Circle.walk_next {head : ν} (h : Circle next prev head l) (P : ν → Bool)
    (hf : l.length < fuel) : walk next head P fuel (next head) = l.find? P :=
  h.seg.walk_next (nodup_cons.mp h.nodup).1 P hf

omit [DecidableEq ν] in
/-- The same nodes seen from the other end. -/
theorem Seg.reverse (h : Seg next prev a l z) : Seg prev next z l.reverse a := by
  induction l generalizing a with
  | nil => exact ⟨h.2, h.1⟩
  | cons x l ih =>
    rw [reverse_cons]
    exact seg_append.mpr ⟨ih h.2.2, h.2.1, h.1⟩

theorem Circle.walk_prev {head : ν} (h : Circle next prev head l) (P : ν → Bool)
    (hf : l.length < fuel) : walk prev head P fuel (prev head) = l.reverse.find? P := by
  apply h.seg.reverse.walk_next
  · rw [mem_reverse]
    exact (nodup_cons.mp h.nodup).1
  · rwa [length_reverse]

end Xv6.Lib
