import Mathlib.Data.List.Basic
import Mathlib.Data.Nat.ModEq
import Mathlib.Logic.Function.Basic

namespace Xv6.Lib

open Function

/-- The n cells of buf hold the list l in a circle from head up to tail. A full circle and an
empty one have the same head and tail. -/
structure Ring (n : Nat) (buf : Nat → α) (head tail : Nat) (l : List α) : Prop where
  start : head < n
  room : l.length ≤ n
  stop : tail = (head + l.length) % n
  cells : ∀ i x, l[i]? = some x → buf ((head + i) % n) = x

theorem ring_nil (hn : head < n) (buf : Nat → α) : Ring n buf head head [] :=
  ⟨hn, Nat.zero_le n, (Nat.mod_eq_of_lt hn).symm, by simp⟩

theorem mod_ne_of_lt {h i j n : Nat} (hi : i < j) (hj : j < n) : (h + i) % n ≠ (h + j) % n := by
  intro he
  have hd := (Nat.modEq_iff_dvd' (Nat.add_le_add_left (Nat.le_of_lt hi) h)).mp he
  have hlt : h + j - (h + i) < n := by omega
  have hz := Nat.eq_zero_of_dvd_of_lt hd hlt
  omega

theorem Ring.push {l : List α} (h : Ring n buf head tail l) (hl : l.length < n) (x : α) :
    Ring n (update buf tail x) head ((tail + 1) % n) (l ++ [x]) := by
  refine ⟨h.start, by simpa using Nat.succ_le_of_lt hl, ?_, fun i y hy => ?_⟩
  · rw [h.stop, List.length_append, List.length_singleton, Nat.mod_add_mod, Nat.add_assoc]
  · rcases Nat.lt_trichotomy i l.length with hi | hi | hi
    · rw [List.getElem?_append_left hi] at hy
      rw [update_of_ne (h.stop ▸ mod_ne_of_lt hi hl)]
      exact h.cells i y hy
    · subst hi
      simp only [List.getElem?_concat_length, Option.some.injEq] at hy
      rw [← h.stop, update_self, hy]
    · rw [List.getElem?_eq_none (by simpa using Nat.succ_le_of_lt hi)] at hy
      cases hy

theorem Ring.pop {l : List α} (h : Ring n buf head tail (x :: l)) :
    buf head = x ∧ Ring n buf ((head + 1) % n) tail l := by
  have hn : 0 < n := Nat.lt_of_le_of_lt (Nat.zero_le head) h.start
  refine ⟨?_, Nat.mod_lt _ hn, ?_, ?_, fun i y hy => ?_⟩
  · have hc := h.cells 0 x rfl
    rwa [Nat.add_zero, Nat.mod_eq_of_lt h.start] at hc
  · exact Nat.le_of_succ_le h.room
  · rw [h.stop, Nat.mod_add_mod, List.length_cons]
    congr 1
    omega
  · have hc := h.cells (i + 1) y (by simpa using hy)
    rw [Nat.mod_add_mod]
    rwa [show head + 1 + i = head + (i + 1) by omega]

end Xv6.Lib
