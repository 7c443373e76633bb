import Mathlib.Data.List.Nodup
import Mathlib.Logic.Function.Basic

namespace Xv6.Lib

open Function

/-- A store after a list of writes, oldest first. -/
def applyWrites [DecidableEq ι] (ws : List (ι × β)) (d : ι → β) : ι → β :=
  ws.foldl (fun d w => update d w.1 w.2) d

@[simp] theorem applyWrites_nil [DecidableEq ι] (d : ι → β) : applyWrites [] d = d := rfl

@[simp] theorem applyWrites_cons [DecidableEq ι] (w : ι × β) (ws : List (ι × β)) (d : ι → β) :
    applyWrites (w :: ws) d = applyWrites ws (update d w.1 w.2) := rfl

theorem applyWrites_append [DecidableEq ι] (ws vs : List (ι × β)) (d : ι → β) :
    applyWrites (ws ++ vs) d = applyWrites vs (applyWrites ws d) := by
  simp [applyWrites]

/-- A location no write names keeps its contents. -/
theorem applyWrites_other [DecidableEq ι] (ws : List (ι × β)) (d : ι → β) (x : ι)
    (hx : x ∉ ws.map Prod.fst) : applyWrites ws d x = d x := by
  induction ws generalizing d with
  | nil => rfl
  | cons w ws ih =>
    simp only [List.map_cons, List.mem_cons, not_or] at hx
    rw [applyWrites_cons, ih _ hx.2, update_of_ne hx.1]

/-- A location some write names no longer depends on what it held before. -/
theorem applyWrites_congr [DecidableEq ι] (ws : List (ι × β)) (d e : ι → β) (x : ι)
    (hx : x ∈ ws.map Prod.fst ∨ d x = e x) : applyWrites ws d x = applyWrites ws e x := by
  induction ws generalizing d e with
  | nil => simpa using hx
  | cons w ws ih =>
    simp only [applyWrites_cons]
    apply ih
    by_cases hw : x = w.1
    · right
      simp [hw]
    · rcases hx with hx | hx
      · left
        simpa [hw] using hx
      · right
        simp [update_of_ne hw, hx]

/-- With one write per location, each location written holds what was written there. -/
theorem applyWrites_mem [DecidableEq ι] (ws : List (ι × β)) (d : ι → β)
    (hn : (ws.map Prod.fst).Nodup) {w : ι × β} (hw : w ∈ ws) : applyWrites ws d w.1 = w.2 := by
  induction ws generalizing d with
  | nil => simp at hw
  | cons v ws ih =>
    simp only [List.map_cons, List.nodup_cons] at hn
    rcases List.mem_cons.mp hw with rfl | hw
    · rw [applyWrites_cons, applyWrites_other _ _ _ hn.1, update_self]
    · exact ih _ hn.2 hw

end Xv6.Lib
