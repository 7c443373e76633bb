import Xv6.Lib.Ring

namespace Xv6.Lib

/-- The entries l lie between two counters that run modulo m, each in its slot modulo n. -/
structure Window (m n : Nat) (buf : Nat → α) (lo hi : Nat) (l : List α) : Prop where
  wraps : n ∣ m
  wide : n < m
  start : lo < m
  room : l.length ≤ n
  stop : hi = (lo + l.length) % m
  cells : ∀ i x, l[i]? = some x → buf ((lo + i) % n) = x

theorem window_nil (hd : n ∣ m) (hm : n < m) (buf : Nat → α) : Window m n buf 0 0 [] :=
  ⟨hd, hm, Nat.zero_lt_of_lt hm, Nat.zero_le n, (Nat.zero_mod m).symm, by simp⟩

theorem Window.slot {l : List α} (h : Window m n buf lo hi l) :
    hi % n = (lo + l.length) % n := by
  rw [h.stop, Nat.mod_mod_of_dvd _ h.wraps]

/-- The counters are equal only when nothing lies between them. -/
theorem Window.eq_iff {l : List α} (h : Window m n buf lo hi l) : lo = hi ↔ l = [] := by
  have hr := h.room
  have hw := h.wide
  have hs := h.start
  rw [h.stop]
  constructor
  · intro he
    by_contra hne
    have hpos := List.length_pos_iff.mpr hne
    rcases Nat.lt_or_ge (lo + l.length) m with hlt | hge
    · rw [Nat.mod_eq_of_lt hlt] at he
      omega
    · rw [Nat.mod_eq_sub_mod hge, Nat.mod_eq_of_lt (by omega)] at he
      omega
  · intro he
    rw [he, List.length_nil, Nat.add_zero, Nat.mod_eq_of_lt hs]

/-- The difference of the counters is the number of entries. -/
theorem Window.length_eq {l : List α} (h : Window m n buf lo hi l) :
    (m - lo + hi) % m = l.length := by
  have hr := h.room
  have hw := h.wide
  have hs := h.start
  rw [h.stop, Nat.add_mod_mod, show m - lo + (lo + l.length) = l.length + m by omega,
    Nat.add_mod_right, Nat.mod_eq_of_lt (by omega)]

theorem Window.full_iff {l : List α} (h : Window m n buf lo hi l) :
    hi = (lo + n) % m ↔ l.length = n := by
  have hr := h.room
  have hw := h.wide
  constructor
  · intro he
    rw [← h.length_eq, he, Nat.add_mod_mod, show m - lo + (lo + n) = n + m by
      have := h.start
      omega, Nat.add_mod_right, Nat.mod_eq_of_lt hw]
  · intro hl
    rw [h.stop, hl]

/-- The slot after the last entry belongs to no entry. -/
theorem Window.write {l : List α} (h : Window m n buf lo hi l) (hl : l.length < n) (x : α) :
    Window m n (Function.update buf (hi % n) x) lo hi l := by
  refine ⟨h.wraps, h.wide, h.start, h.room, h.stop, fun i y hy => ?_⟩
  have hi : i < l.length := (List.getElem?_eq_some_iff.mp hy).1
  rw [h.slot, Function.update_of_ne (mod_ne_of_lt hi hl)]
  exact h.cells i y hy

theorem Window.advance {l : List α} (h : Window m n buf lo hi l) (hl : l.length < n)
    (hx : buf (hi % n) = x) : Window m n buf lo ((hi + 1) % m) (l ++ [x]) := by
  refine ⟨h.wraps, h.wide, h.start, by simpa using Nat.succ_le_of_lt hl, ?_, fun i y hy => ?_⟩
  · rw [h.stop, Nat.mod_add_mod, List.length_append, List.length_singleton, Nat.add_assoc]
  · rcases Nat.lt_trichotomy i l.length with hi | hi | hi
    · rw [List.getElem?_append_left hi] at hy
      exact h.cells i y hy
    · subst hi
      simp only [List.getElem?_concat_length, Option.some.injEq] at hy
      rw [← h.slot, hx, hy]
    · rw [List.getElem?_eq_none (by simpa using Nat.succ_le_of_lt hi)] at hy
      cases hy

theorem Window.pop {l : List α} (h : Window m n buf lo hi (x :: l)) :
    buf (lo % n) = x ∧ Window m n buf ((lo + 1) % m) hi l := by
  refine ⟨by simpa using h.cells 0 x rfl, h.wraps, h.wide, ?_, ?_, ?_, fun i y hy => ?_⟩
  · exact Nat.mod_lt _ (Nat.zero_lt_of_lt h.start)
  · exact Nat.le_of_succ_le h.room
  · rw [h.stop, Nat.mod_add_mod, List.length_cons]
    congr 1
    omega
  · have hc := h.cells (i + 1) y (by simpa using hy)
    rw [Nat.add_mod, Nat.mod_mod_of_dvd _ h.wraps, ← Nat.add_mod]
    rwa [show lo + 1 + i = lo + (i + 1) by omega]

theorem Window.back {l : List α} (h : Window m n buf lo hi (l ++ [x])) :
    buf ((m - 1 + hi) % m % n) = x ∧ Window m n buf lo ((m - 1 + hi) % m) l := by
  have hroom := h.room
  have hs := h.start
  rw [List.length_append, List.length_singleton] at hroom
  have hstop : (m - 1 + hi) % m = (lo + l.length) % m := by
    rw [h.stop, Nat.add_mod_mod, List.length_append, List.length_singleton,
      show m - 1 + (lo + (l.length + 1)) = lo + l.length + m by omega, Nat.add_mod_right]
  constructor
  · rw [hstop, Nat.mod_mod_of_dvd _ h.wraps]
    exact h.cells l.length x List.getElem?_concat_length
  · refine ⟨h.wraps, h.wide, h.start, Nat.le_of_succ_le hroom, hstop, fun i y hy => ?_⟩
    apply h.cells i y
    rw [List.getElem?_append_left (List.getElem?_eq_some_iff.mp hy).1]
    exact hy

/-- A counter between the two cuts the entries in two. -/
theorem Window.split {l r : List α} (h : Window m n buf lo hi (l ++ r)) :
    Window m n buf lo ((lo + l.length) % m) l ∧ Window m n buf ((lo + l.length) % m) hi r := by
  have hroom := h.room
  have hs := h.start
  rw [List.length_append] at hroom
  constructor
  · refine ⟨h.wraps, h.wide, h.start, Nat.le_of_add_right_le hroom, rfl, fun i y hy => ?_⟩
    apply h.cells i y
    rw [List.getElem?_append_left (List.getElem?_eq_some_iff.mp hy).1]
    exact hy
  · refine ⟨h.wraps, h.wide, Nat.mod_lt _ (Nat.zero_lt_of_lt hs), Nat.le_of_add_left_le hroom, ?_,
      fun i y hy => ?_⟩
    · rw [h.stop, Nat.mod_add_mod, List.length_append, Nat.add_assoc]
    · rw [Nat.add_mod, Nat.mod_mod_of_dvd _ h.wraps, ← Nat.add_mod, Nat.add_assoc]
      apply h.cells
      rw [List.getElem?_append_right (Nat.le_add_right ..), Nat.add_sub_cancel_left]
      exact hy

end Xv6.Lib
