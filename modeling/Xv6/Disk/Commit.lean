import Xv6.Disk.Cache
import Xv6.Lib.Run

namespace Xv6.Bio

open Function List Lib

/-- What commit has in a slot, without the index of the buffer. -/
inductive Shape
  | none
  | queued (b : Nat)
  | held (b : Nat)
  | unlocked (b : Nat)
  deriving DecidableEq, Repr

def Hold.shape : Hold → Shape
  | .none => .none
  | .queued _ b => .queued b
  | .held _ b => .held b
  | .unlocked _ b => .unlocked b

/-- Every statement of the script finds its slots as it needs them, and both end empty. -/
def Ok (f : Slot → Shape) : List Micro → Prop
  | [] => f .log = .none ∧ f .home = .none
  | .bget c b :: ms => f c = .none ∧ Ok (update f c (.queued b)) ms
  | .take c :: ms => ∃ b, f c = .queued b ∧ Ok (update f c (.held b)) ms
  | .copyLog lb db :: ms => f .log = .held lb ∧ f .home = .held db ∧ Ok f ms
  | .copyHome lb db :: ms => f .log = .held lb ∧ f .home = .held db ∧ Ok f ms
  | .bunpin b :: ms => f .home = .held b ∧ Ok f ms
  | .header b :: ms => f .log = .held b ∧ Ok f ms
  | .unlock c :: ms => ∃ b, f c = .held b ∧ Ok (update f c (.unlocked b)) ms
  | .put c :: ms => ∃ b, f c = .unlocked b ∧ Ok (update f c .none) ms
  | .clear :: ms => Ok f ms

/-- Run on the stored bytes σ and the disk δ, the script installs what is stored already, drops a
pin only when the disk has the stored bytes, stores into the log area only, and ends with an
empty header. -/
def Safe (g : Log.Geometry) : List Micro → List Nat → (Nat → Log.Block) → (Nat → Log.Block) → Prop
  | [], lh, _, _ => lh = []
  | .copyLog lb db :: ms, lh, σ, δ => g.Area lb ∧ db ∈ lh ∧
      Safe g ms lh (update σ lb (σ db)) (update δ lb (σ db))
  | .copyHome lb db :: ms, lh, σ, δ => g.Area lb ∧ db ∈ lh ∧ σ lb = σ db ∧
      Safe g ms lh σ (update δ db (σ db))
  | .bunpin b :: ms, lh, σ, δ => b ∈ lh ∧ δ b = σ b ∧ Safe g ms lh σ δ
  | .header b :: ms, lh, σ, δ => g.Area b ∧
      Safe g ms lh (update σ b (Log.fillHeader (lh.map (BitVec.ofNat 32)) (σ b)))
        (update δ b (Log.fillHeader (lh.map (BitVec.ofNat 32)) (σ b)))
  | .clear :: ms, _, σ, δ => Safe g ms [] σ δ
  | _ :: ms, lh, σ, δ => Safe g ms lh σ δ

/-- Only the blocks of the log and those in the header matter to the script. -/
theorem Safe.congr (h : Safe g ms lh σ δ)
    (hb : ∀ b, g.Area b ∨ b ∈ lh → σ' b = σ b ∧ δ' b = δ b) : Safe g ms lh σ' δ' := by
  induction ms generalizing lh σ δ σ' δ' with
  | nil => exact h
  | cons m ms ih =>
    have hup : ∀ (c : Nat) (v w : Log.Block), v = w → ∀ b, g.Area b ∨ b ∈ lh →
        update σ' c v b = update σ c w b ∧
        update δ' c v b = update δ c w b := by
      rintro c v w rfl b hba
      rcases eq_or_ne b c with rfl | hbc
      · simp
      · simpa [hbc] using hb b hba
    cases m with
    | copyLog lb db =>
      obtain ⟨hl, hd, h⟩ := h
      exact ⟨hl, hd, ih h (hup lb _ _ (hb db (.inr hd)).1)⟩
    | copyHome lb db =>
      obtain ⟨hl, hd, he, h⟩ := h
      refine ⟨hl, hd, ?_, ih h (fun b hba => ⟨(hb b hba).1, (hup db _ _ ?_ b hba).2⟩)⟩
      · rw [(hb lb (.inl hl)).1, (hb db (.inr hd)).1, he]
      · exact (hb db (.inr hd)).1
    | bunpin b =>
      obtain ⟨hm, he, h⟩ := h
      refine ⟨hm, ?_, ih h hb⟩
      rw [(hb b (.inr hm)).1, (hb b (.inr hm)).2, he]
    | header b =>
      obtain ⟨hl, h⟩ := h
      refine ⟨hl, ih h (hup b _ _ ?_)⟩
      rw [(hb b (.inl hl)).1]
    | clear => exact ih h (fun b hba => hb b (hba.imp_right (fun hm => by cases hm)))
    | bget c b => exact ih h hb
    | take c => exact ih h hb
    | unlock c => exact ih h hb
    | put c => exact ih h hb

/-- The blocks that the rest of the script unpins. -/
def unpins (ms : List Micro) : List Nat :=
  ms.filterMap (fun | .bunpin b => some b | _ => none)

/-- The blocks recorded in the log and not yet installed. -/
def State.pins (s : State) : List Nat :=
  if s.todo = [] then s.lh else unpins s.todo

def empty : Slot → Shape := fun _ => .none

/-- With both slots empty again the script goes on as from the start. -/
theorem ok_empty {f : Slot → Shape} (hl : f .log = .none) (hh : f .home = .none)
    (h : Ok empty ms) : Ok f ms := by
  have hf : f = empty := by
    funext c
    cases c
    · exact hl
    · exact hh
  rw [hf]
  exact h

theorem ok_writeLogTurn (h : Ok empty ms) : Ok empty (writeLogTurn g p ++ ms) := by
  refine ⟨rfl, _, rfl, rfl, _, rfl, rfl, rfl, _, rfl, _, rfl, _, rfl, _, rfl, ?_⟩
  exact ok_empty rfl rfl h

theorem ok_installTurn (h : Ok empty ms) : Ok empty (installTurn g p ++ ms) := by
  refine ⟨rfl, _, rfl, rfl, _, rfl, rfl, rfl, rfl, _, rfl, _, rfl, _, rfl, _, rfl, ?_⟩
  exact ok_empty rfl rfl h

theorem ok_writeHead (h : Ok empty ms) : Ok empty (writeHead g ++ ms) := by
  refine ⟨rfl, _, rfl, rfl, _, rfl, _, rfl, ?_⟩
  exact ok_empty rfl rfl h

/-- A loop over the header is fine when each of its turns is. -/
theorem ok_turns {turn : Nat × Nat → List Micro}
    (ht : ∀ p ms, Ok empty ms → Ok empty (turn p ++ ms)) (h : Ok empty ms) (l : List (Nat × Nat)) :
    Ok empty (l.flatMap turn ++ ms) := by
  induction l with
  | nil => exact h
  | cons p l ih =>
    rw [flatMap_cons, append_assoc]
    exact ht p _ ih

theorem ok_commit (g : Log.Geometry) (lh : List Nat) : Ok empty (commit g lh) := by
  unfold commit
  split
  · exact ⟨rfl, rfl⟩
  · simp only [append_assoc]
    apply ok_turns (fun p ms h => ok_writeLogTurn h)
    apply ok_writeHead
    apply ok_turns (fun p ms h => ok_installTurn h)
    have hnil : Ok empty [] := ⟨rfl, rfl⟩
    exact ok_writeHead hnil

/-- The stored bytes after write_log has copied the blocks of l. -/
def copied (g : Log.Geometry) (l : List (Nat × Nat)) (σ : Nat → Log.Block) : Nat → Log.Block :=
  l.foldl (fun σ p => update σ (g.start + p.2 + 1) (σ p.1)) σ

theorem safe_writeLog {l : List (Nat × Nat)}
    (hl : ∀ p ∈ l, p.1 ∈ lh ∧ g.Area (g.start + p.2 + 1))
    (h : ∀ δ, Safe g ms lh (copied g l σ) δ) :
    Safe g (l.flatMap (writeLogTurn g) ++ ms) lh σ δ := by
  induction l generalizing σ δ with
  | nil => exact h δ
  | cons p l ih =>
    obtain ⟨hp, ha⟩ := hl p (by simp)
    exact ⟨ha, hp, ih (fun q hq => hl q (.tail _ hq)) h⟩

theorem safe_install {l : List (Nat × Nat)}
    (hl : ∀ p ∈ l, p.1 ∈ lh ∧ g.Area (g.start + p.2 + 1) ∧ σ (g.start + p.2 + 1) = σ p.1)
    (h : ∀ δ, Safe g ms lh σ δ) : Safe g (l.flatMap (installTurn g) ++ ms) lh σ δ := by
  induction l generalizing δ with
  | nil => exact h δ
  | cons p l ih =>
    obtain ⟨hp, ha, he⟩ := hl p (by simp)
    exact ⟨ha, hp, he, hp, update_self .., ih (fun q hq => hl q (.tail _ hq))⟩

theorem copied_outside {l : List (Nat × Nat)} (hl : ∀ p ∈ l, g.start + p.2 + 1 ≠ b) :
    copied g l σ b = σ b := by
  induction l generalizing σ with
  | nil => rfl
  | cons p l ih =>
    refine (ih (fun q hq => hl q (.tail _ hq))).trans ?_
    exact update_of_ne (Ne.symm (hl p (by simp))) ..

theorem copied_log {l : List (Nat × Nat)} (hd : (l.map Prod.snd).Nodup)
    (hout : ∀ p ∈ l, ∀ q ∈ l, g.start + p.2 + 1 ≠ q.1) (hp : p ∈ l) :
    copied g l σ (g.start + p.2 + 1) = σ p.1 := by
  induction l generalizing σ with
  | nil => cases hp
  | cons q l ih =>
    rw [map_cons, nodup_cons] at hd
    rcases mem_cons.mp hp with rfl | hp'
    · have hrest : ∀ r ∈ l, g.start + r.2 + 1 ≠ g.start + p.2 + 1 := by
        intro r hr he
        have hrp : r.2 = p.2 := by omega
        exact hd.1 (hrp ▸ mem_map_of_mem hr)
      exact (copied_outside (l := l) hrest).trans (update_self ..)
    · refine (ih hd.2 (fun r hr t ht => hout r (.tail _ hr) t (.tail _ ht)) hp').trans ?_
      exact update_of_ne (Ne.symm (hout q (by simp) p hp)) ..

theorem safe_commit (hlh : lh ≠ []) (hout : ∀ b ∈ lh, ¬ g.Area b)
    (hroom : lh.length + 1 ≤ g.size) (σ δ : Nat → Log.Block) : Safe g (commit g lh) lh σ δ := by
  have hmem : ∀ p ∈ lh.zipIdx, p.1 ∈ lh ∧ g.Area (g.start + p.2 + 1) := by
    intro p hp
    have hlt := snd_lt_of_mem_zipIdx hp
    refine ⟨fst_mem_of_mem_zipIdx hp, ?_⟩
    constructor <;> omega
  have hapart : ∀ p ∈ lh.zipIdx, ∀ q ∈ lh.zipIdx, g.start + p.2 + 1 ≠ q.1 := by
    intro p hp q hq he
    exact hout q.1 (hmem q hq).1 (he ▸ (hmem p hp).2)
  have hnd : (lh.zipIdx.map Prod.snd).Nodup := by
    rw [zipIdx_map_snd]
    exact nodup_range'
  have hstart : g.Area g.start := ⟨Nat.le_refl _, Nat.lt_add_of_pos_right g.header⟩
  rw [commit, if_neg hlh]
  simp only [append_assoc]
  apply safe_writeLog hmem
  intro δ
  refine ⟨hstart, ?_⟩
  apply safe_install
  · intro p hp
    obtain ⟨hm, ha⟩ := hmem p hp
    refine ⟨hm, ha, ?_⟩
    have hne : p.1 ≠ g.start := fun he => hout p.1 hm (by rw [he]; exact hstart)
    rw [update_of_ne (by omega), update_of_ne hne, copied_log hnd hapart hp,
      copied_outside (fun q hq => hapart q hq p hp)]
  · intro δ
    exact ⟨hstart, rfl⟩

theorem unpins_append (ms ns : List Micro) : unpins (ms ++ ns) = unpins ms ++ unpins ns :=
  filterMap_append ..

theorem unpins_writeLog (l : List (Nat × Nat)) : unpins (l.flatMap (writeLogTurn g)) = [] := by
  induction l with
  | nil => rfl
  | cons p l ih => rw [flatMap_cons, unpins_append, ih]; rfl

theorem unpins_install (l : List (Nat × Nat)) :
    unpins (l.flatMap (installTurn g)) = l.map Prod.fst := by
  induction l with
  | nil => rfl
  | cons p l ih => rw [flatMap_cons, unpins_append, ih]; rfl

/-- A commit unpins exactly the blocks in the header. -/
theorem unpins_commit (g : Log.Geometry) (lh : List Nat) : unpins (commit g lh) = lh := by
  unfold commit
  split
  · rename_i he
    rw [he]
    rfl
  · simp only [unpins_append, unpins_writeLog, unpins_install, zipIdx_map_fst]
    simp [unpins, writeHead]

end Xv6.Bio
