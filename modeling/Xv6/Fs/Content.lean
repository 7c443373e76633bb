import Xv6.Fs.Blocks
import Mathlib.Data.List.Nodup

namespace Xv6.Fs

open Function List Lib

section
variable {sb : Superblock} {s t : Disk} {ip : Dinode}

def Disk.freed (s : Disk) (as : List Nat) : Disk :=
  { s with bitmap := fun b => s.bitmap b && (b == 0 || !as.contains b) }

theorem freed_bitmap : (s.freed as).bitmap b = true ↔
    s.bitmap b = true ∧ (b = 0 ∨ b ∉ as) := by
  simp [Disk.freed]

theorem freeAll_spec (hnd : (as.filter (· ≠ 0)).Nodup)
    (hm : ∀ a ∈ as, a ≠ 0 → s.bitmap a = true) :
    Ends (freeAll as) s (fun _ t => t = s.freed as) := by
  induction as generalizing s with
  | nil =>
    change Ends (pure _) s _
    rw [ends_pure]
    simp [Disk.freed]
  | cons a as ih =>
    change Ends ((if a = 0 then pure () else bfree a) >>= fun _ => freeAll as) s _
    rw [ends_bind]
    refine Ends.ite (fun h0 => ?_) (fun h0 => ?_)
    · subst h0
      rw [ends_pure]
      refine (ih (by simpa using hnd) (fun c hc => hm c (by simp [hc]))).mono ?_
      rintro _ t rfl
      unfold Disk.freed
      congr 1
      funext b
      by_cases hb : b = 0 <;> simp [hb]
    · rw [bfree, ends_bind, ends_get, if_pos (hm a (by simp) h0), ends_set]
      rw [filter_cons_of_pos (by simpa using h0), nodup_cons] at hnd
      refine (ih hnd.2 ?_).mono ?_
      · intro c hc hc0
        have hca : c ≠ a := by
          rintro rfl
          exact hnd.1 (mem_filter.mpr ⟨hc, by simpa using hc0⟩)
        dsimp only
        rw [update_of_ne hca]
        exact hm c (by simp [hc]) hc0
      · rintro _ t rfl
        unfold Disk.freed
        congr 1
        funext b
        rcases eq_or_ne b a with rfl | hba
        · simp [h0]
        · simp [hba]

theorem nodup_filter_map {f : Nat → Nat} {l : List Nat} (hl : l.Nodup)
    (hf : ∀ x ∈ l, ∀ y ∈ l, f x ≠ 0 → f x = f y → x = y) : ((l.map f).filter (· ≠ 0)).Nodup := by
  rw [filter_map]
  refine List.Nodup.map_on ?_ (hl.filter _)
  intro x hx y hy he
  rw [mem_filter] at hx hy
  exact hf x hx.1 y hy.1 (by simpa using hx.2) he

theorem FsOk.truncated (h : FsOk sb (s.put i ip)) (ht : ip.type ≠ 0)
    (hin : t.inodes = s.inodes) (hdata : t.data = s.data)
    (hbit : ∀ b, t.bitmap b = true ↔
      s.bitmap b = true ∧ (b = 0 ∨ ∀ k, slotAddr s.data ip k ≠ b)) :
    FsOk sb (t.put i { ip with addrs := fun _ => 0, size := 0 }) := by
  have hnone : ∀ k, slotAddr t.data { ip with addrs := fun _ => 0, size := 0 } k = 0 := by
    intro k
    simp [slotAddr]
  have hput : ∀ j, j ≠ i → (t.put i { ip with addrs := fun _ => 0, size := 0 }).inodes j =
      (s.put i ip).inodes j := by
    intro j hj
    rw [put_inodes_of_ne hj, put_inodes_of_ne hj, hin]
  have hown : ∀ j k b, (t.put i { ip with addrs := fun _ => 0, size := 0 }).owns (j, k) = some b ↔
      j ≠ i ∧ (s.put i ip).owns (j, k) = some b := by
    intro j k b
    rcases eq_or_ne j i with rfl | hj
    · simp only [owns_eq_some, put_inodes_self, put_data, hnone, ne_eq, not_true_eq_false,
        false_and, iff_false, not_and, not_not]
      exact fun _ he => he.symm
    · simp only [owns_eq_some, hput j hj, put_data, hdata, hj, ne_eq, not_false_eq_true, true_and]
  refine ⟨?_, ⟨?_, ?_⟩, ?_, ?_, ?_, ?_⟩
  · intro j hj
    rcases eq_or_ne j i with rfl | hji
    · exact h.inum j (by simpa using ht)
    · rw [hput j hji] at hj
      exact h.inum j hj
  · intro b
    rw [put_bitmap, hbit]
    constructor
    · rintro ⟨hlo, hhi, hb, hno⟩
      obtain ⟨⟨j, k⟩, ho⟩ := (h.marks.marked b).mp ⟨hlo, hhi, hb⟩
      refine ⟨(j, k), (hown j k b).mpr ⟨?_, ho⟩⟩
      rintro rfl
      rw [owns_eq_some, put_inodes_self, put_data] at ho
      rcases hno with rfl | hno
      · exact ho.2.2 rfl
      · exact hno k ho.2.1
    · rintro ⟨⟨j, k⟩, ho⟩
      obtain ⟨hj, ho⟩ := (hown j k b).mp ho
      obtain ⟨hlo, hhi, hb⟩ := h.owned ho
      refine ⟨hlo, hhi, hb, .inr ?_⟩
      intro m hm
      have hb0 : b ≠ 0 := (owns_eq_some.mp ho).2.2
      have hi := slot_owned (s := s) (i := i) ht (by rw [hm]; exact hb0)
      rw [hm] at hi
      exact hj (Prod.mk.inj (h.marks.exclusive _ _ _ ho hi)).1
  · rintro ⟨j, k⟩ ⟨j', k'⟩ b ho ho'
    exact h.marks.exclusive _ _ _ ((hown j k b).mp ho).2 ((hown j' k' b).mp ho').2
  · intro b hb
    rw [put_bitmap, hbit]
    refine ⟨h.reserved b hb, ?_⟩
    by_cases hb0 : b = 0
    · exact .inl hb0
    · refine .inr ?_
      intro k hk
      have ho := h.owned (slot_owned ht (by rw [hk]; exact hb0))
      omega
  · intro j hj bn hbn
    rcases eq_or_ne j i with rfl | hji
    · simp at hbn
    · rw [hput j hji] at hj hbn ⊢
      rw [put_data, hdata]
      exact h.filled j hj bn hbn
  · intro j hj
    rcases eq_or_ne j i with rfl | hji
    · simp
    · rw [hput j hji] at hj ⊢
      exact h.size_le j hj
  · intro j hj
    rcases eq_or_ne j i with rfl | hji
    · simp
    · rw [hput j hji] at hj ⊢
      exact h.dirs j hj

theorem slotAddr_cases (hk : slotAddr data ip k ≠ 0) :
    k < NDIRECT ∧ slotAddr data ip k = ip.addrs k ∨
    ip.addrs NDIRECT ≠ 0 ∧ (k = NDIRECT ∧ slotAddr data ip k = ip.addrs NDIRECT ∨
      ∃ n < NINDIRECT, k = NDIRECT + 1 + n ∧
        slotAddr data ip k = word (data (ip.addrs NDIRECT)) n) := by
  rcases Nat.lt_trichotomy k NDIRECT with hlt | rfl | hgt
  · exact .inl ⟨hlt, slotAddr_le (Nat.le_of_lt hlt)⟩
  · rw [slotAddr_le (Nat.le_refl _)] at hk ⊢
    exact .inr ⟨hk, .inl ⟨rfl, rfl⟩⟩
  · have hnle : ¬ k ≤ NDIRECT := by omega
    have hin : k ≤ NDIRECT + NINDIRECT ∧ ip.addrs NDIRECT ≠ 0 := by
      by_contra hno
      exact hk (by simp only [slotAddr, hnle, if_false, hno])
    refine .inr ⟨hin.2, .inr ⟨k - NDIRECT - 1, by omega, by omega, ?_⟩⟩
    simp only [slotAddr, hnle, if_false, hin, and_self, if_true, ne_eq, not_false_eq_true]

theorem freeDirect_spec (h : FsOk sb (s.put i ip)) (ht : ip.type ≠ 0) :
    Ends (freeAll ((List.range NDIRECT).map ip.addrs)) s (fun _ t =>
      t = s.freed ((List.range NDIRECT).map ip.addrs)) := by
  refine freeAll_spec (nodup_filter_map nodup_range ?_) ?_
  · intro x hx y hy hx0 he
    rw [mem_range] at hx hy
    refine h.slot_inj ht (k := x) (m := y) ?_ ?_
    · rw [slotAddr_le (Nat.le_of_lt hx)]
      exact hx0
    · rw [slotAddr_le (Nat.le_of_lt hx), slotAddr_le (Nat.le_of_lt hy)]
      exact he
  · intro a ha ha0
    obtain ⟨k, hk, rfl⟩ := mem_map.mp ha
    have hle := Nat.le_of_lt (mem_range.mp hk)
    have hm := h.slot_marked ht (k := k) (by rw [slotAddr_le hle]; exact ha0)
    rwa [slotAddr_le hle] at hm

/-- A slot outside a freed part is still marked. -/
theorem FsOk.still_marked (h : FsOk sb (s.put i ip)) (ht : ip.type ≠ 0)
    (hk : slotAddr s.data ip k ≠ 0)
    (has : ∀ a ∈ as, a ≠ 0 → ∃ m, m ≠ k ∧ slotAddr s.data ip m = a) :
    (s.freed as).bitmap (slotAddr s.data ip k) = true := by
  refine freed_bitmap.mpr ⟨h.slot_marked ht hk, .inr ?_⟩
  intro hin
  obtain ⟨m, hmk, hm⟩ := has _ hin hk
  exact hmk (h.slot_inj ht hk hm.symm).symm

theorem direct_ne (hk : NDIRECT ≤ k) :
    ∀ a ∈ (List.range NDIRECT).map ip.addrs, a ≠ 0 → ∃ m, m ≠ k ∧ slotAddr s.data ip m = a := by
  intro a ha _
  obtain ⟨m, hm, rfl⟩ := mem_map.mp ha
  rw [mem_range] at hm
  exact ⟨m, by omega, slotAddr_le (Nat.le_of_lt hm)⟩

/-- The indirect block goes after its entries. -/
theorem freeIndirect_spec (h : FsOk sb (s.put i ip)) (ht : ip.type ≠ 0) :
    Ends (freeIndirect ip) (s.freed ((List.range NDIRECT).map ip.addrs)) (fun _ t =>
      t.inodes = s.inodes ∧ t.data = s.data ∧ ∀ b, t.bitmap b = true ↔
        s.bitmap b = true ∧ (b = 0 ∨ ∀ k, slotAddr s.data ip k ≠ b)) := by
  have hdirect : ∀ b, b ∉ (List.range NDIRECT).map ip.addrs ↔ ∀ k < NDIRECT, ip.addrs k ≠ b := by
    intro b
    simp
  unfold freeIndirect
  refine Ends.ite (fun h0 => ?_) (fun h0 => ?_)
  · rw [ends_pure]
    refine ⟨rfl, rfl, ?_⟩
    intro b
    rw [freed_bitmap, hdirect]
    refine and_congr_right (fun _ => or_congr_right' (fun hb0 => ?_))
    constructor
    · intro hb k hk
      rcases slotAddr_cases (by rw [hk]; exact hb0) with ⟨hlt, he⟩ | ⟨hi, -⟩
      · exact hb k hlt (he.symm.trans hk)
      · exact hi h0
    · intro hb k hk
      rw [← slotAddr_le (Nat.le_of_lt hk)]
      exact hb k
  · rw [ends_bind, ends_get, ends_bind]
    have hdata : (s.freed ((List.range NDIRECT).map ip.addrs)).data = s.data := rfl
    rw [hdata]
    have hi0 : slotAddr s.data ip NDIRECT ≠ 0 := by rw [slotAddr_le (Nat.le_refl _)]; exact h0
    refine (freeAll_spec (nodup_filter_map nodup_range ?_) ?_).mono ?_
    · intro x hx y hy hx0 he
      rw [mem_range] at hx hy
      have hxy := h.slot_inj ht (k := NDIRECT + 1 + x) (m := NDIRECT + 1 + y)
        (by rw [slotAddr_entry hx h0]; exact hx0)
        (by rw [slotAddr_entry hx h0, slotAddr_entry hy h0]; exact he)
      omega
    · intro a ha ha0
      obtain ⟨n, hn, rfl⟩ := mem_map.mp ha
      rw [mem_range] at hn
      rw [← slotAddr_entry hn h0]
      exact h.still_marked ht (by rw [slotAddr_entry hn h0]; exact ha0) (direct_ne (by omega))
    · rintro _ t rfl
      have hmark : ((s.freed ((List.range NDIRECT).map ip.addrs)).freed
          ((List.range NINDIRECT).map (word (s.data (ip.addrs NDIRECT))))).bitmap
          (ip.addrs NDIRECT) = true := by
        have hd := h.still_marked ht hi0 (direct_ne (s := s) (Nat.le_refl NDIRECT))
        rw [slotAddr_le (Nat.le_refl _)] at hd
        refine freed_bitmap.mpr ⟨hd, .inr ?_⟩
        intro hin
        obtain ⟨n, hn, he⟩ := mem_map.mp hin
        rw [mem_range] at hn
        have hk := h.slot_inj ht hi0 (m := NDIRECT + 1 + n)
          (by rw [slotAddr_le (Nat.le_refl _), slotAddr_entry hn h0, he])
        omega
      rw [bfree, ends_bind, ends_get, if_pos hmark, ends_set]
      refine ⟨rfl, rfl, ?_⟩
      intro b
      dsimp only
      rcases eq_or_ne b (ip.addrs NDIRECT) with rfl | hb
      · simp only [update_self, Bool.false_eq_true, false_iff, not_and, not_or, h0,
          not_false_eq_true, true_and, not_forall, not_not, ne_eq]
        exact fun _ => ⟨NDIRECT, slotAddr_le (Nat.le_refl _)⟩
      rw [update_of_ne hb, freed_bitmap, freed_bitmap, hdirect, and_assoc]
      refine and_congr_right (fun _ => ?_)
      rw [← or_and_left]
      refine or_congr_right' (fun hb0 => ?_)
      constructor
      · rintro ⟨hd, he⟩ k hk
        rcases slotAddr_cases (by rw [hk]; exact hb0) with ⟨hlt, he'⟩ | ⟨-, ⟨-, he'⟩ | hn⟩
        · exact hd k hlt (he'.symm.trans hk)
        · exact hb (hk.symm.trans he')
        · obtain ⟨n, hn, -, he'⟩ := hn
          exact he (mem_map.mpr ⟨n, mem_range.mpr hn, he'.symm.trans hk⟩)
      · intro hk
        refine ⟨fun k hlt => ?_, ?_⟩
        · rw [← slotAddr_le (Nat.le_of_lt hlt)]
          exact hk k
        · intro hin
          obtain ⟨n, hn, he⟩ := mem_map.mp hin
          rw [mem_range] at hn
          exact hk (NDIRECT + 1 + n) (by rw [slotAddr_entry hn h0, he])

theorem itrunc_spec (h : FsOk sb s) (ht : (s.inodes i).type ≠ 0) :
    Ends (itrunc i (s.inodes i)) s (fun ip t =>
      ip = { s.inodes i with addrs := fun _ => 0, size := 0 } ∧ FsOk sb t ∧
        t.inodes = update s.inodes i ip ∧ t.data = s.data) := by
  have h' : FsOk sb (s.put i (s.inodes i)) := by rwa [put_self]
  rw [itrunc]
  refine (freeDirect_spec h' ht).bind ?_
  rintro _ t rfl
  refine (freeIndirect_spec h' ht).bind ?_
  rintro _ u ⟨hin, hdata, hbit⟩
  rw [ends_bind, iupdate, ends_modify, ends_pure]
  refine ⟨rfl, h'.truncated ht hin hdata hbit, ?_, hdata⟩
  simp [Disk.put, hin]

theorem FsOk.relabel (h : FsOk sb (s.put i ip)) (hty : ip'.type = ip.type)
    (hsz : ip'.size = ip.size) (had : ip'.addrs = ip.addrs) : FsOk sb (s.put i ip') := by
  have hin : ∀ j, ((s.put i ip').inodes j).type = ((s.put i ip).inodes j).type ∧
      ((s.put i ip').inodes j).size = ((s.put i ip).inodes j).size ∧
      ((s.put i ip').inodes j).addrs = ((s.put i ip).inodes j).addrs := by
    intro j
    rcases eq_or_ne j i with rfl | hj
    · simp [hty, hsz, had]
    · simp [put_inodes_of_ne hj]
  have hslot : ∀ j k, slotAddr s.data ((s.put i ip').inodes j) k =
      slotAddr s.data ((s.put i ip).inodes j) k :=
    fun j k => slotAddr_congr (hin j).2.2 (fun _ => rfl) k
  have hown : (s.put i ip').owns = (s.put i ip).owns := by
    funext q
    obtain ⟨j, k⟩ := q
    refine Option.ext (fun b => ?_)
    rw [owns_eq_some, owns_eq_some, put_data, put_data, hslot, (hin j).1]
  refine ⟨?_, ?_, h.reserved, ?_, ?_, ?_⟩
  · intro j hj
    rw [(hin j).1] at hj
    exact h.inum j hj
  · rw [hown]
    exact h.marks
  · intro j hj bn hbn
    rw [(hin j).1] at hj
    rw [(hin j).2.1] at hbn
    have hf := h.filled j hj bn hbn
    simp only [blk, put_data, hslot] at hf ⊢
    exact hf
  · intro j hj
    rw [(hin j).1] at hj
    rw [(hin j).2.1]
    exact h.size_le j hj
  · intro j hj
    rw [(hin j).1] at hj
    rw [(hin j).2.1]
    exact h.dirs j hj

theorem FsOk.reset (h : FsOk sb s) (hno : ∀ k, s.owns (i, k) = none)
    (hin : ip.type ≠ 0 → 1 ≤ i ∧ i < sb.ninodes) (had : ip.addrs = fun _ => 0)
    (hsz : ip.size = 0) : FsOk sb (s.put i ip) := by
  have hown : (s.put i ip).owns = s.owns := by
    funext q
    obtain ⟨j, k⟩ := q
    rcases eq_or_ne j i with rfl | hj
    · rw [hno]
      simp [Disk.owns, slotAddr, had]
    · simp [Disk.owns, put_inodes_of_ne hj]
  refine ⟨?_, ?_, h.reserved, ?_, ?_, ?_⟩
  · intro j hj
    rcases eq_or_ne j i with rfl | hji
    · exact hin (by simpa using hj)
    · rw [put_inodes_of_ne hji] at hj
      exact h.inum j hj
  · rw [hown]
    exact h.marks
  · intro j hj bn hbn
    rcases eq_or_ne j i with rfl | hji
    · simp [hsz] at hbn
    · rw [put_inodes_of_ne hji] at hj hbn ⊢
      exact h.filled j hj bn hbn
  · intro j hj
    rcases eq_or_ne j i with rfl | hji
    · simp [hsz]
    · rw [put_inodes_of_ne hji] at hj ⊢
      exact h.size_le j hj
  · intro j hj
    rcases eq_or_ne j i with rfl | hji
    · simp [hsz]
    · rw [put_inodes_of_ne hji] at hj ⊢
      exact h.dirs j hj

end

end Xv6.Fs
