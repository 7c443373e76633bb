import Xv6.Fs.Content

namespace Xv6.Fs

open Function Lib

/-- Byte pos of a file. -/
def byteAt (data : Nat → Block) (ip : Dinode) (pos : Nat) : Byte :=
  data (blk data ip (pos / BSIZE)) (pos % BSIZE)

/-- The n bytes of a file from off on. -/
def content (data : Nat → Block) (ip : Dinode) (off n : Nat) : List Byte :=
  (List.range n).map (fun j => byteAt data ip (off + j))

@[simp]
theorem content_length : (content data ip off n).length = n := by simp [content]

/-- No block below the size is missing. -/
structure Dense (data : Nat → Block) (ip : Dinode) : Prop where
  filled : ∀ bn, bn * BSIZE < ip.size → blk data ip bn ≠ 0
  size_le : ip.size ≤ MAXFILE * BSIZE

section
variable {sb : Superblock} {s t : Disk} {ip : Dinode}

theorem FsOk.dense (h : FsOk sb s) (ht : (s.inodes i).type ≠ 0) : Dense s.data (s.inodes i) :=
  ⟨h.filled i ht, h.size_le i ht⟩

theorem bmap_present (hbn : bn < MAXFILE) (h0 : blk s.data ip bn ≠ 0) :
    Ends (bmap sb ip bn) s (fun r t => r = (blk s.data ip bn, ip) ∧ t = s) := by
  unfold bmap
  refine Ends.ite (fun hd => ?_) (fun hd => ?_)
  · have hb : blk s.data ip bn = ip.addrs bn := by
      rw [blk, slotOf_direct hd, slotAddr_le (Nat.le_of_lt hd)]
    rw [hb] at h0 ⊢
    rw [loadAddr, if_neg h0, ends_pure]
    exact ⟨rfl, rfl⟩
  have hn : bn - NDIRECT < NINDIRECT := by
    unfold MAXFILE at hbn
    omega
  have hi : ip.addrs NDIRECT ≠ 0 := by
    intro hz
    have hgt : ¬ NDIRECT + 1 + (bn - NDIRECT) ≤ NDIRECT := by omega
    exact h0 (by simp [blk, slotOf_entry hd, slotAddr, hgt, hz])
  have hb : blk s.data ip bn = word (s.data (ip.addrs NDIRECT)) (bn - NDIRECT) := by
    rw [blk, slotOf_entry hd, slotAddr_entry hn hi]
  rw [hb] at h0 ⊢
  rw [if_pos hn, ends_bind, loadAddr, if_neg hi, ends_pure]
  dsimp only
  rw [if_neg hi, ends_bind, loadEntry, ends_bind, ends_get, if_neg h0, ends_pure, ends_pure]
  exact ⟨rfl, rfl⟩

/-- A piece of one block continues the bytes read so far. -/
theorem content_append (data : Nat → Block) (ip : Dinode) (hm : (off + a) % BSIZE + m ≤ BSIZE) :
    content data ip off a ++ slice (data (blk data ip ((off + a) / BSIZE))) ((off + a) % BSIZE) m =
      content data ip off (a + m) := by
  have hsplit : content data ip off (a + m) = content data ip off a ++
      (List.range m).map (fun j => byteAt data ip (off + (a + j))) := by
    simp [content, List.range_add, comp_def]
  rw [hsplit]
  congr 1
  unfold slice
  apply List.map_congr_left
  intro j hj
  rw [List.mem_range] at hj
  have hb : 0 < BSIZE := by decide
  have hdiv : (off + (a + j)) / BSIZE = (off + a) / BSIZE := by
    rw [← Nat.add_assoc]
    have hq := Nat.div_add_mod (off + a) BSIZE
    apply Nat.div_eq_of_lt_le
    · rw [Nat.mul_comm]
      omega
    · rw [Nat.succ_mul, Nat.mul_comm]
      omega
  have hmod : (off + (a + j)) % BSIZE = (off + a) % BSIZE + j := by
    have hq := Nat.div_add_mod (off + a) BSIZE
    have hq' := Nat.div_add_mod (off + (a + j)) BSIZE
    rw [hdiv] at hq'
    omega
  rw [byteAt, hdiv, hmod]

theorem block_lt (hd : Dense data ip) (ho : off < ip.size) : off / BSIZE < MAXFILE := by
  have := hd.size_le
  exact Nat.div_lt_of_lt_mul (by rw [Nat.mul_comm]; omega)

theorem block_start (off : Nat) : off / BSIZE * BSIZE ≤ off := Nat.div_mul_le_self off BSIZE

theorem fits_mono (h : fits dst n = true) (hk : k ≤ n) : fits dst k = true := by
  cases dst with
  | none => rfl
  | some room =>
    simp only [fits, decide_eq_true_eq] at h ⊢
    omega

/-- The loop of readi on a file without holes reads its bytes and changes nothing. -/
theorem readLoop_spec (hd : Dense s.data ip) (hend : off + n ≤ ip.size)
    (hacc : acc = content s.data ip off acc.length) (hle : acc.length ≤ n)
    (hroom : fits dst acc.length = true) (hfuel : n - acc.length ≤ fuel) :
    Ends (readLoop sb dst n fuel ip (off + acc.length) acc) s (fun r t => t = s ∧ r.2 = ip ∧
      r.1 = if fits dst n = true then some (content s.data ip off n) else none) := by
  induction fuel generalizing acc with
  | zero =>
    have hn : acc.length = n := by omega
    rw [readLoop, ends_pure]
    refine ⟨rfl, rfl, ?_⟩
    rw [← hn, if_pos hroom, ← hacc]
  | succ fuel ih =>
    rw [readLoop]
    refine Ends.ite (fun hlt => ?_) (fun hge => ?_)
    · have hoff : off + acc.length < ip.size := by omega
      have hb0 := hd.filled ((off + acc.length) / BSIZE)
        (Nat.lt_of_le_of_lt (block_start _) hoff)
      refine (bmap_present (block_lt hd hoff) hb0).bind ?_
      rintro r t ⟨rfl, rfl⟩
      dsimp only
      rw [if_neg hb0, ends_bind, ends_get]
      have hmod : (off + acc.length) % BSIZE < BSIZE := Nat.mod_lt _ (by decide)
      generalize hm : min (n - acc.length) (BSIZE - (off + acc.length) % BSIZE) = m
      have hm1 : 0 < m := by omega
      have hm2 : (off + acc.length) % BSIZE + m ≤ BSIZE := by omega
      refine Ends.ite (fun hfit => ?_) (fun hfit => ?_)
      · have happ := content_append t.data ip hm2
        rw [← hacc] at happ
        have hlen : (acc ++ slice (t.data (blk t.data ip ((off + acc.length) / BSIZE)))
            ((off + acc.length) % BSIZE) m).length = acc.length + m := by
          simp [slice]
        rw [Nat.add_assoc, ← hlen]
        refine ih ?_ ?_ ?_ ?_
        · rw [hlen]
          exact happ
        · omega
        · rw [hlen]
          exact hfit
        · omega
      · rw [ends_pure]
        refine ⟨rfl, rfl, ?_⟩
        rw [if_neg (fun hall => hfit (fits_mono hall (by omega)))]
    · have hn : acc.length = n := by omega
      rw [ends_pure]
      refine ⟨rfl, rfl, ?_⟩
      rw [← hn, if_pos hroom, ← hacc]

theorem readLoop_start (hd : Dense s.data ip) (hend : off + n ≤ ip.size) :
    Ends (readLoop sb dst n n ip off []) s (fun r t => t = s ∧ r.2 = ip ∧
      r.1 = if fits dst n = true then some (content s.data ip off n) else none) := by
  have hz : ([] : List Byte).length ≤ n := Nat.zero_le n
  have hroom : fits dst ([] : List Byte).length = true := by
    cases dst with
    | none => rfl
    | some room => simp [fits]
  exact readLoop_spec hd hend rfl hz hroom (Nat.sub_le n _)

/-- readi on a file without holes changes nothing, and it returns the bytes up to the size. -/
theorem readi_result (hd : Dense s.data ip) (dst : Option Nat) (off n : Nat) :
    Ends (readi sb ip dst off n) s (fun r t => t = s ∧ r.2 = ip ∧
      r.1 = if ip.size < off ∨ (off + n) % 4294967296 < off then some []
        else if fits dst (min n (ip.size - off)) = true then
          some (content s.data ip off (min n (ip.size - off)))
        else none) := by
  unfold readi
  refine Ends.ite (fun hbad => ?_) (fun hok => Ends.ite (fun hgt => ?_) (fun hle => ?_))
  · rw [ends_pure, if_pos hbad]
    exact ⟨rfl, rfl, rfl⟩
  · rw [if_neg hok, Nat.min_eq_right (by omega)]
    exact readLoop_start hd (by omega)
  · rw [if_neg hok, Nat.min_eq_left (by omega)]
    exact readLoop_start hd (by omega)

theorem readi_spec (hd : Dense s.data ip) (dst : Option Nat) (off n : Nat) :
    Ends (readi sb ip dst off n) s (fun r t => t = s ∧ r.2 = ip ∧
      (fits dst n = true → n < 4294967296 → r.1 =
        some (if ip.size < off ∨ 4294967296 ≤ off + n then []
          else content s.data ip off (min n (ip.size - off))))) := by
  have hmax : ip.size ≤ 274432 := hd.size_le
  refine (readi_result hd dst off n).mono (fun r t h => ?_)
  obtain ⟨ht, hip, hr⟩ := h
  refine ⟨ht, hip, fun hfit hn => ?_⟩
  rw [hr]
  by_cases hbad : ip.size < off ∨ 4294967296 ≤ off + n
  · rw [if_pos (by omega), if_pos hbad]
  · rw [if_neg (by omega), if_neg hbad, if_pos (fits_mono hfit (Nat.min_le_left _ _))]

/-- From s to t only inode i and blocks that are its own in t have changed. -/
structure Edits (sb : Superblock) (i : Nat) (s t : Disk) : Prop where
  ok : FsOk sb t
  others : ∀ j, j ≠ i → t.inodes j = s.inodes j
  frame : ∀ b, t.data b = s.data b ∨ ∃ k, t.owns (i, k) = some b

theorem Edits.refl (h : FsOk sb s) (i : Nat) : Edits sb i s s :=
  ⟨h, fun _ _ => rfl, fun _ => .inl rfl⟩

theorem Edits.data_eq (h : Edits sb i s t) (hj : j ≠ i) (ho : t.owns (j, k) = some b) :
    t.data b = s.data b := by
  rcases h.frame b with he | ⟨m, hm⟩
  · exact he
  · exact absurd (Prod.mk.inj (h.ok.marks.exclusive _ _ _ ho hm)).1 hj

theorem Edits.slotAddr_eq (h : Edits sb i s t) (hj : j ≠ i) (htj : (s.inodes j).type ≠ 0)
    (k : Nat) : slotAddr t.data (s.inodes j) k = slotAddr s.data (s.inodes j) k := by
  apply slotAddr_congr rfl
  intro h0
  apply h.data_eq hj (k := NDIRECT)
  rw [owns_eq_some, h.others j hj, slotAddr_le (Nat.le_refl _)]
  exact ⟨htj, rfl, h0⟩

theorem Edits.byteAt_eq (h : Edits sb i s t) (hs : FsOk sb s) (hj : j ≠ i)
    (htj : (s.inodes j).type ≠ 0) (hp : pos < (s.inodes j).size) :
    byteAt t.data (s.inodes j) pos = byteAt s.data (s.inodes j) pos := by
  have hb0 := hs.filled j htj (pos / BSIZE) (Nat.lt_of_le_of_lt (block_start pos) hp)
  have hb : blk t.data (s.inodes j) (pos / BSIZE) = blk s.data (s.inodes j) (pos / BSIZE) :=
    h.slotAddr_eq hj htj _
  unfold byteAt
  rw [hb, h.data_eq hj (k := slotOf (pos / BSIZE))]
  rw [owns_eq_some, h.others j hj]
  exact ⟨htj, hb, hb0⟩

theorem FsOk.setData (h : FsOk sb s) (ho : s.owns (i, k) = some a) (hk : k ≠ NDIRECT)
    (B : Block) : FsOk sb { s with data := update s.data a B } ∧
      ∀ j, (s.inodes j).type ≠ 0 → ∀ m,
        slotAddr (update s.data a B) (s.inodes j) m = slotAddr s.data (s.inodes j) m := by
  have hslot : ∀ j, (s.inodes j).type ≠ 0 → ∀ m,
      slotAddr (update s.data a B) (s.inodes j) m = slotAddr s.data (s.inodes j) m := by
    intro j hj m
    apply slotAddr_congr rfl
    intro h0
    rw [update_of_ne]
    intro he
    have hj12 : s.owns (j, NDIRECT) = some ((s.inodes j).addrs NDIRECT) := by
      rw [owns_eq_some, slotAddr_le (Nat.le_refl _)]
      exact ⟨hj, rfl, h0⟩
    rw [he] at hj12
    exact hk (Prod.mk.inj (h.marks.exclusive _ _ _ ho hj12)).2
  have hown : Disk.owns { s with data := update s.data a B } = s.owns := by
    funext q
    obtain ⟨j, m⟩ := q
    refine Option.ext (fun b => ?_)
    rw [owns_eq_some, owns_eq_some]
    dsimp only
    refine and_congr_right (fun hj => ?_)
    rw [hslot j hj]
  refine ⟨⟨h.inum, ?_, h.reserved, ?_, h.size_le, h.dirs⟩, hslot⟩
  · rw [hown]
    exact h.marks
  · intro j hj bn hbn
    have hf := h.filled j hj bn hbn
    unfold blk at hf ⊢
    rw [hslot j hj]
    exact hf

theorem slotOf_ne (bn : Nat) : slotOf bn ≠ NDIRECT := by
  unfold slotOf
  split <;> omega

theorem FsOk.paste (h : FsOk sb (s.put i ip)) (ht : ip.type ≠ 0) (h0 : blk s.data ip bn ≠ 0)
    (B : Block) :
    FsOk sb (Disk.put { s with data := update s.data (blk s.data ip bn) B } i ip) ∧
      (∀ k, slotAddr (update s.data (blk s.data ip bn) B) ip k =
        slotAddr s.data ip k) := by
  have hset := h.setData (slot_owned ht h0) (slotOf_ne bn) B
  refine ⟨hset.1, ?_⟩
  intro k
  have hk := hset.2 i (by simpa using ht) k
  simpa [blk] using hk

theorem Grows.paste (ht : ip.type ≠ 0) (h : FsOk sb (s.put i ip)) (h0 : blk s.data ip bn ≠ 0)
    (B : Block) :
    Grows s ip { s with data := update s.data (blk s.data ip bn) B } ip := by
  have hslot := (h.paste ht h0 B).2
  refine ⟨rfl, rfl, fun k _ => hslot k, ?_⟩
  intro b
  rcases eq_or_ne b (blk s.data ip bn) with rfl | hb
  · exact .inr ⟨h0, slotOf bn, hslot _⟩
  · exact .inl (update_of_ne hb _ _)

theorem FsOk.resize (h : FsOk sb (s.put i ip)) (hfill : ∀ bn, bn * BSIZE < z → blk s.data ip bn ≠ 0)
    (hz : z ≤ MAXFILE * BSIZE) (hdir : ip.type = T_DIR → z % direntSize = 0) :
    FsOk sb (s.put i { ip with size := z }) := by
  have hty : ∀ j, ((s.put i { ip with size := z }).inodes j).type =
      ((s.put i ip).inodes j).type := by
    intro j
    rcases eq_or_ne j i with rfl | hj
    · simp
    · simp [put_inodes_of_ne hj]
  have hslot : ∀ j k, slotAddr s.data ((s.put i { ip with size := z }).inodes j) k =
      slotAddr s.data ((s.put i ip).inodes j) k := by
    intro j k
    refine slotAddr_congr ?_ (fun _ => rfl) k
    rcases eq_or_ne j i with rfl | hj
    · simp
    · simp [put_inodes_of_ne hj]
  have hown : (s.put i { ip with size := z }).owns = (s.put i ip).owns := by
    funext q
    obtain ⟨j, k⟩ := q
    refine Option.ext (fun b => ?_)
    rw [owns_eq_some, owns_eq_some, put_data, put_data, hslot, hty]
  refine ⟨?_, ?_, h.reserved, ?_, ?_, ?_⟩
  · intro j hj
    rw [hty] at hj
    exact h.inum j hj
  · rw [hown]
    exact h.marks
  · intro j hj bn hbn
    rw [hty] at hj
    rw [blk, put_data, hslot]
    rcases eq_or_ne j i with rfl | hji
    · rw [put_inodes_self] at hbn ⊢
      exact hfill bn hbn
    · rw [put_inodes_of_ne hji] at hbn
      exact h.filled j hj bn (by rwa [put_inodes_of_ne hji])
  · intro j hj
    rw [hty] at hj
    rcases eq_or_ne j i with rfl | hji
    · simpa using hz
    · have hold := h.size_le j hj
      rw [put_inodes_of_ne hji] at hold ⊢
      exact hold
  · intro j hj
    rw [hty] at hj
    rcases eq_or_ne j i with rfl | hji
    · rw [put_inodes_self] at hj ⊢
      exact hdir hj
    · have hold := h.dirs j hj
      rw [put_inodes_of_ne hji] at hold ⊢
      exact hold

/-- What grew for inode i and is then written back is an edit of that inode. -/
theorem Grows.edits (hg : Grows s (s.inodes i) t ip) (ht : (s.inodes i).type ≠ 0)
    (hok : FsOk sb (t.put i ip')) (hty : ip'.type = ip.type) (had : ip'.addrs = ip.addrs) :
    Edits sb i s (t.put i ip') := by
  refine ⟨hok, ?_, ?_⟩
  · intro j hj
    rw [put_inodes_of_ne hj, hg.inodes]
  · intro b
    rcases hg.frame b with he | ⟨hb, k, hk⟩
    · exact .inl he
    · refine .inr ⟨k, owns_eq_some.mpr ?_⟩
      rw [put_inodes_self, put_data, hty, slotAddr_congr had (fun _ => rfl)]
      refine ⟨?_, hk, hb⟩
      rw [hg.same]
      exact ht

end

end Xv6.Fs
