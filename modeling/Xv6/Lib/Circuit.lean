import Mathlib.Data.List.Basic
import Mathlib.Logic.Function.Iterate

namespace Xv6.Lib

/-- From a the function next leads through the nodes ns, a first, to b. -/
inductive Path (next : α → α) : α → List α → α → Prop where
  | nil : Path next a [] a
  | cons (tail : Path next (next a) ns b) : Path next a (a :: ns) b

/-- The nodes l form a circle: next leads from each to the one behind it, and from the last to the
first. -/
def Circuit (next : α → α) (l : List α) : Prop := ∃ a, l.head? = some a ∧ Path next a l a

/-- The first node from a on that p accepts. -/
def seek (p : α → Bool) (next : α → α) : Nat → α → Option α
  | 0, _ => none
  | fuel + 1, a => if p a then some a else seek p next fuel (next a)

theorem path_cons {next : α → α} : Path next a (x :: ns) b ↔ a = x ∧ Path next (next x) ns b := by
  constructor
  · intro h
    cases h with
    | cons tail => exact ⟨rfl, tail⟩
  · intro h
    obtain ⟨rfl, tail⟩ := h
    exact .cons tail

theorem path_nil {next : α → α} : Path next a [] b ↔ a = b := by
  constructor
  · intro h
    cases h
    rfl
  · intro h
    subst h
    exact .nil

theorem Path.append (h : Path next a ms b) (h' : Path next b ns c) : Path next a (ms ++ ns) c := by
  induction h with
  | nil => exact h'
  | cons tail ih => exact .cons (ih h')

theorem Path.split (h : Path next a (ms ++ ns) c) : ∃ b, Path next a ms b ∧ Path next b ns c := by
  induction ms generalizing a with
  | nil => exact ⟨a, .nil, h⟩
  | cons x ms ih =>
    obtain ⟨rfl, tail⟩ := path_cons.mp h
    obtain ⟨b, hb, hc⟩ := ih tail
    exact ⟨b, .cons hb, hc⟩

/-- A path depends on its own nodes only. -/
theorem Path.congr (h : Path next a ns b) (hs : ∀ x ∈ ns, next' x = next x) :
    Path next' a ns b := by
  induction h with
  | nil => exact .nil
  | cons tail ih =>
    rename_i a ns b
    apply Path.cons
    rw [hs a List.mem_cons_self]
    exact ih (fun x hx => hs x (List.mem_cons_of_mem a hx))

theorem circuit_cons {next : α → α} : Circuit next (x :: ns) ↔ Path next (next x) ns x := by
  constructor
  · intro h
    obtain ⟨a, ha, hp⟩ := h
    obtain ⟨rfl, tail⟩ := path_cons.mp hp
    exact tail
  · intro h
    exact ⟨x, rfl, .cons h⟩

theorem Circuit.rotate (h : Circuit next (ms ++ ns)) : Circuit next (ns ++ ms) := by
  cases ms with
  | nil =>
    rw [List.append_nil]
    exact h
  | cons x ms =>
    cases ns with
    | nil =>
      rw [List.append_nil] at h
      exact h
    | cons y ns =>
      rw [List.cons_append, circuit_cons] at h
      obtain ⟨b, hb, hc⟩ := h.split
      obtain ⟨rfl, tail⟩ := path_cons.mp hc
      rw [List.cons_append, circuit_cons]
      exact tail.append (.cons hb)

/-- A circle can be seen from each of its nodes. -/
theorem Circuit.at_node (h : Circuit next l) (hx : x ∈ l) :
    ∃ ms ns, l = ms ++ x :: ns ∧ Path next (next x) (ns ++ ms) x := by
  obtain ⟨ms, ns, rfl⟩ := List.append_of_mem hx
  have hr := h.rotate
  rw [List.cons_append, circuit_cons] at hr
  exact ⟨ms, ns, rfl, hr⟩

theorem Circuit.next_mem (h : Circuit next l) (hx : x ∈ l) : next x ∈ l := by
  obtain ⟨ms, ns, rfl, hp⟩ := h.at_node hx
  cases hnm : ns ++ ms with
  | nil =>
    rw [hnm, path_nil] at hp
    rw [hp]
    exact List.mem_append_right ms List.mem_cons_self
  | cons y rest =>
    rw [hnm, path_cons] at hp
    rw [hp.1]
    have hy : y ∈ ns ++ ms := hnm ▸ List.mem_cons_self
    rcases List.mem_append.mp hy with hy | hy
    · exact List.mem_append_right ms (List.mem_cons_of_mem x hy)
    · exact List.mem_append_left _ hy

theorem Circuit.iterate_mem (h : Circuit next l) (hx : x ∈ l) (k : Nat) : next^[k] x ∈ l := by
  induction k generalizing x with
  | zero => exact hx
  | succ k ih => exact ih (h.next_mem hx)

theorem Circuit.next_eq (h : Circuit next (ms ++ x :: y :: ns)) : next x = y := by
  have hr := h.rotate
  rw [List.cons_append, List.cons_append, circuit_cons] at hr
  exact (path_cons.mp hr).1

theorem Circuit.next_last (h : Circuit next (ms ++ [x])) : (ms ++ [x]).head? = some (next x) := by
  have hr := h.rotate
  rw [List.cons_append, List.nil_append, circuit_cons] at hr
  cases ms with
  | nil =>
    rw [path_nil.mp hr]
    rfl
  | cons a ms =>
    rw [(path_cons.mp hr).1]
    rfl

theorem Circuit.insert (h : Circuit next (ms ++ x :: ns)) (hx : next' x = b) (hb : next' b = next x)
    (hs : ∀ y ∈ ns ++ ms, next' y = next y) : Circuit next' (ms ++ x :: b :: ns) := by
  have hr := h.rotate
  rw [List.cons_append, circuit_cons] at hr
  have hnew : Circuit next' (x :: b :: ns ++ ms) := by
    rw [List.cons_append, List.cons_append, circuit_cons, hx, path_cons, hb]
    exact ⟨rfl, hr.congr hs⟩
  exact hnew.rotate

theorem Circuit.remove (h : Circuit next (ms ++ x :: y :: ns)) (hx : next' x = next y)
    (hs : ∀ z ∈ ns ++ ms, next' z = next z) : Circuit next' (ms ++ x :: ns) := by
  have hr := h.rotate
  rw [List.cons_append, List.cons_append, circuit_cons] at hr
  obtain ⟨-, hp⟩ := path_cons.mp hr
  have hnew : Circuit next' (x :: ns ++ ms) := by
    rw [List.cons_append, circuit_cons, hx]
    exact hp.congr hs
  exact hnew.rotate

theorem seek_path {p : α → Bool} (h : Path next a ns b) (hp : ∃ x ∈ ns, p x = true)
    (hf : ns.length ≤ fuel) : ∃ x ∈ ns, seek p next fuel a = some x ∧ p x = true := by
  induction h generalizing fuel with
  | nil =>
    obtain ⟨x, hx, -⟩ := hp
    exact absurd hx List.not_mem_nil
  | cons tail ih =>
    rename_i a ns b
    cases fuel with
    | zero => exact absurd hf (Nat.not_succ_le_zero _)
    | succ fuel =>
      rw [seek]
      by_cases ha : p a = true
      · rw [if_pos ha]
        exact ⟨a, List.mem_cons_self, rfl, ha⟩
      rw [if_neg ha]
      have hrest : ∃ x ∈ ns, p x = true := by
        obtain ⟨x, hx, hpx⟩ := hp
        rcases List.mem_cons.mp hx with rfl | hx
        · exact absurd hpx ha
        · exact ⟨x, hx, hpx⟩
      obtain ⟨x, hx, hs, hpx⟩ := ih hrest (Nat.le_of_succ_le_succ hf)
      exact ⟨x, List.mem_cons_of_mem a hx, hs, hpx⟩

/-- A search around a circle finds a node if there is one, wherever it starts. -/
theorem Circuit.seek {p : α → Bool} (h : Circuit next l) (ha : a ∈ l) (hp : ∃ x ∈ l, p x = true)
    (hf : l.length ≤ fuel) : ∃ x ∈ l, seek p next fuel a = some x ∧ p x = true := by
  obtain ⟨ms, ns, rfl, hpath⟩ := h.at_node ha
  have hmem : ∀ x, x ∈ ms ++ a :: ns ↔ x ∈ a :: (ns ++ ms) := by
    intro x
    simp only [List.mem_append, List.mem_cons]
    exact or_left_comm.trans (or_congr_right or_comm)
  obtain ⟨x, hx, hpx⟩ := hp
  have hlen : (a :: (ns ++ ms)).length ≤ fuel := by
    simp only [List.length_append, List.length_cons] at hf ⊢
    omega
  obtain ⟨y, hy, hs, hpy⟩ := seek_path (.cons hpath) ⟨x, (hmem x).mp hx, hpx⟩ hlen
  exact ⟨y, (hmem y).mpr hy, hs, hpy⟩

end Xv6.Lib
