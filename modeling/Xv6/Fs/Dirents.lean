import Xv6.Fs.Written

namespace Xv6.Fs

open Function List Lib

/-- A name as a path element can hold it. -/
def NameOk (name : List Byte) : Prop := name.length ≤ DIRSIZ ∧ (0 : Byte) ∉ name

theorem bytes_length (e : Dirent) : e.bytes.length = direntSize := by
  simp only [Dirent.bytes, length_cons, length_append, length_take,
    length_replicate, DIRSIZ, direntSize]
  omega

theorem ofBytes_bytes (hi : e.inum < 65536) (hn : NameOk e.name) : Dirent.ofBytes e.bytes = e := by
  obtain ⟨inum, name⟩ := e
  obtain ⟨hlen, hzero⟩ := hn
  dsimp only at hi hlen hzero
  have hname : ((name ++ List.replicate (DIRSIZ - name.length) (0 : Byte)).take DIRSIZ).takeWhile
      (fun c => c != 0) = name := by
    rw [take_of_length_le (by simp [DIRSIZ] at hlen ⊢; omega)]
    rw [takeWhile_append_of_pos]
    · cases DIRSIZ - name.length <;> simp [replicate_succ]
    · intro c hc
      simp only [bne_iff_ne, ne_eq]
      rintro rfl
      exact hzero hc
  simp only [Dirent.ofBytes, Dirent.bytes, take_of_length_le hlen, drop_succ_cons,
    drop_zero, hname, Dirent.mk.injEq, and_true]
  simp only [List.getElem?_cons_zero, List.getElem?_cons_succ, Option.getD_some,
    BitVec.toNat_ofNat, Nat.reducePow]
  omega

/-- Entry k of a directory. -/
def direntAt (data : Nat → Block) (ip : Dinode) (k : Nat) : Dirent :=
  .ofBytes (content data ip (k * direntSize) direntSize)

def entries (data : Nat → Block) (ip : Dinode) : List Dirent :=
  (List.range (ip.size / direntSize)).map (direntAt data ip)

@[simp]
theorem entries_length : (entries data ip).length = ip.size / direntSize := by simp [entries]

theorem entries_getElem? : (entries data ip)[k]? = some e ↔
    k < ip.size / direntSize ∧ direntAt data ip k = e := by
  unfold entries
  rw [List.getElem?_map, Option.map_eq_some_iff]
  constructor
  · rintro ⟨a, ha, he⟩
    obtain ⟨hlt, rfl⟩ := List.getElem?_eq_some_iff.mp ha
    rw [length_range] at hlt
    rw [getElem_range] at he
    exact ⟨hlt, he⟩
  · rintro ⟨hlt, he⟩
    exact ⟨k, by rw [List.getElem?_range hlt], he⟩

/-- Entry k is e, at the end of the list or in the place of an old one. -/
def place (l : List Dirent) (k : Nat) (e : Dirent) : List Dirent :=
  if k < l.length then l.set k e else l ++ [e]

section
variable {sb : Superblock} {s t : Disk} {ip : Dinode}

theorem content_congr
    (h : ∀ pos, off ≤ pos → pos < off + n → byteAt data' ip' pos = byteAt data ip pos) :
    content data' ip' off n = content data ip off n := by
  unfold content
  apply map_congr_left
  intro j hj
  rw [mem_range] at hj
  exact h (off + j) (by omega) (by omega)

theorem entries_congr (hs : ip'.size = ip.size)
    (h : ∀ pos < ip.size, byteAt data' ip' pos = byteAt data ip pos) :
    entries data' ip' = entries data ip := by
  unfold entries
  rw [hs]
  apply map_congr_left
  intro k hk
  rw [mem_range] at hk
  unfold direntAt
  rw [content_congr]
  intro pos hlo hhi
  apply h
  have := Nat.div_mul_le_self ip.size direntSize
  have : (k + 1) * direntSize ≤ ip.size / direntSize * direntSize := Nat.mul_le_mul_right _ hk
  rw [Nat.add_mul] at this
  omega

/-- The result of a loop over the entries from entry k on. -/
structure Scanned (p : Dirent → Bool) (data : Nat → Block) (ip : Dinode) (k off : Nat)
    (r : Option Dirent) : Prop where
  found : ∀ e, r = some e → ∃ j, k ≤ j ∧ off = j * direntSize ∧
    (entries data ip)[j]? = some e ∧ p e = true ∧
    ∀ m, k ≤ m → m < j → p (direntAt data ip m) = false
  missing : r = none → off = max (k * direntSize) ip.size ∧
    ∀ m, k ≤ m → m < ip.size / direntSize → p (direntAt data ip m) = false

theorem scan_spec (hd : Dense s.data ip) (hdir : ip.size % direntSize = 0)
    (hfuel : ip.size ≤ k * direntSize + fuel) (bad : Panic) (p : Dirent → Bool) :
    Ends (scan sb bad p fuel ip (k * direntSize)) s (fun r t => t = s ∧ r.2.2 = ip ∧
      Scanned p s.data ip k r.1 r.2.1) := by
  induction fuel generalizing k with
  | zero =>
    rw [scan, ends_pure]
    refine ⟨rfl, rfl, ?_, ?_⟩
    · intro e he
      cases he
    · intro _
      refine ⟨by dsimp only; omega, ?_⟩
      intro m hkm hm
      have := Nat.div_le_of_le_mul (m := ip.size) (n := k) (k := direntSize)
        (by rw [Nat.mul_comm]; omega)
      omega
  | succ fuel ih =>
    rw [scan]
    refine Ends.ite (fun hlt => ?_) (fun hge => ?_)
    · have hk : k < ip.size / direntSize := by
        have : k * direntSize < ip.size / direntSize * direntSize := by
          rw [Nat.div_mul_cancel (Nat.dvd_of_mod_eq_zero hdir)]
          exact hlt
        exact Nat.lt_of_mul_lt_mul_right this
      have hle : k * direntSize + direntSize ≤ ip.size := by
        have : (k + 1) * direntSize ≤ ip.size / direntSize * direntSize := Nat.mul_le_mul_right _ hk
        have := Nat.div_mul_le_self ip.size direntSize
        rw [Nat.add_mul] at *
        omega
      refine (readi_spec hd none (k * direntSize) direntSize).bind ?_
      rintro ⟨r, ip1⟩ t ⟨rfl, hip, hr⟩
      dsimp only at hip hr ⊢
      subst hip
      have hmax : ip1.size ≤ 274432 := hd.size_le
      have hin : ¬ (ip1.size < k * direntSize ∨ 4294967296 ≤ k * direntSize + direntSize) := by
        omega
      rw [hr rfl (by decide), if_neg hin, Nat.min_eq_left (by omega), Option.getD_some,
        if_pos content_length]
      refine Ends.ite (fun hp => ?_) (fun hp => ?_)
      · rw [ends_pure]
        refine ⟨rfl, rfl, ?_, ?_⟩
        · intro e he
          cases he
          exact ⟨k, Nat.le_refl k, rfl, entries_getElem?.mpr ⟨hk, rfl⟩, hp, fun m h1 h2 => by omega⟩
        · intro he
          cases he
      · have hnext : k * direntSize + direntSize = (k + 1) * direntSize := by rw [Nat.add_mul]; rfl
        rw [hnext]
        have hnot : p (direntAt t.data ip1 k) = false := by
          rw [← Bool.not_eq_true]
          exact hp
        refine (ih (by unfold direntSize at *; omega)).mono ?_
        rintro r u ⟨rfl, hip, hfound, hmiss⟩
        refine ⟨rfl, hip, ?_, ?_⟩
        · intro e he
          obtain ⟨j, hj, hoff, hget, hpe, hall⟩ := hfound e he
          refine ⟨j, by omega, hoff, hget, hpe, ?_⟩
          intro m hkm hmj
          rcases Nat.eq_or_lt_of_le hkm with rfl | hlt'
          · exact hnot
          · exact hall m hlt' hmj
        · intro he
          obtain ⟨hoff, hall⟩ := hmiss he
          refine ⟨by unfold direntSize at *; omega, ?_⟩
          intro m hkm hm
          rcases Nat.eq_or_lt_of_le hkm with rfl | hlt'
          · exact hnot
          · exact hall m hlt' hm
    · rw [ends_pure]
      refine ⟨rfl, rfl, ?_, ?_⟩
      · intro e he
        cases he
      · intro _
        refine ⟨by dsimp only; omega, ?_⟩
        intro m hkm hm
        have := Nat.div_le_of_le_mul (m := ip.size) (n := k) (k := direntSize)
          (by rw [Nat.mul_comm]; omega)
        omega

theorem content_eq_src (hlen : src.length = n)
    (h : ∀ j (hj : j < src.length), byteAt data ip (off + j) = src[j]) :
    content data ip off n = src := by
  apply ext_getElem
  · simp [hlen]
  · intro j h1 h2
    simp [content, h j h2]

theorem entries_place (hdir : ip.size % direntSize = 0) (hk : k ≤ ip.size / direntSize)
    (hsz : ip'.size = max ip.size (k * direntSize + direntSize))
    (hnew : direntAt data' ip' k = e)
    (hold : ∀ pos, pos < k * direntSize ∨ k * direntSize + direntSize ≤ pos → pos < ip.size →
      byteAt data' ip' pos = byteAt data ip pos) :
    entries data' ip' = place (entries data ip) k e := by
  have hat : ∀ m, m < ip.size / direntSize → m ≠ k →
      direntAt data' ip' m = direntAt data ip m := by
    intro m hm hne
    unfold direntAt
    rw [content_congr]
    intro pos hlo hhi
    apply hold
    · unfold direntSize at *
      omega
    · unfold direntSize at *
      omega
  apply ext_getElem?
  intro m
  refine Option.ext (fun d => ?_)
  rw [entries_getElem?]
  unfold place
  rw [entries_length]
  have hsize : ip'.size / direntSize = max (ip.size / direntSize) (k + 1) := by
    unfold direntSize at *
    omega
  split
  · rename_i hlt
    rw [List.getElem?_set, entries_length]
    by_cases hkm : k = m
    · subst hkm
      simp only [hlt, if_true, Option.some.injEq, hsize, hnew]
      constructor
      · exact fun h => h.2
      · exact fun h => ⟨by omega, h⟩
    · rw [if_neg hkm, entries_getElem?, hsize]
      constructor
      · rintro ⟨hm, hd⟩
        have hm' : m < ip.size / direntSize := by omega
        exact ⟨hm', (hat m hm' (Ne.symm hkm)).symm.trans hd⟩
      · rintro ⟨hm, hd⟩
        exact ⟨by omega, (hat m hm (Ne.symm hkm)).trans hd⟩
  · rename_i hge
    have hk' : k = ip.size / direntSize := by omega
    by_cases hm : m < ip.size / direntSize
    · rw [List.getElem?_append_left (by simpa using hm), entries_getElem?, hsize,
        hat m hm (by omega)]
      constructor
      · exact fun h => ⟨hm, h.2⟩
      · exact fun h => ⟨by omega, h.2⟩
    rw [List.getElem?_append_right (by simpa using hm), entries_length, hsize]
    by_cases hmk : m = k
    · subst hmk
      simp [← hk', hnew]
    · rw [List.getElem?_eq_none (by simp; omega)]
      constructor
      · rintro ⟨hlt, -⟩
        omega
      · intro hn
        cases hn

/-- What writing entry k of directory i does: all or nothing. -/
structure Writes (sb : Superblock) (i k : Nat) (e : Dirent) (s : Disk) (r : Option Nat) (t : Disk) :
    Prop where
  edits : Edits sb i s t
  same : t.inodes i = { s.inodes i with size := (t.inodes i).size, addrs := (t.inodes i).addrs }
  done : r = some direntSize →
    entries t.data (t.inodes i) = place (entries s.data (s.inodes i)) k e
  failed : r ≠ some direntSize → entries t.data (t.inodes i) = entries s.data (s.inodes i) ∧
    (s.inodes i).size / direntSize ≤ k ∧ (MAXFILE * BSIZE < k * direntSize + direntSize ∨ Full sb t)

/-- The loop of writei for one entry stops before it or behind it. -/
theorem Written.entry (h : Written sb i src direntSize s ip (k * direntSize) 0 (tot, off', ip') t c)
    (hlen : src.length = direntSize) : c = 0 ∧ off' = k * direntSize + tot ∧
      (tot = direntSize ∨ tot = 0 ∧ Full sb t ∧ blk t.data ip' (k * direntSize / BSIZE) = 0) := by
  have hreach := h.reached
  have haligned := h.aligned
  dsimp only at hreach haligned
  cases h.stops with
  | done hn hc => exact ⟨hc, hreach, .inl hn⟩
  | full hlt hc hf h0 =>
    dsimp only at hlt h0
    have htot : tot = 0 := by
      unfold direntSize BSIZE at *
      omega
    rw [hreach, htot, Nat.sub_self, Nat.add_zero] at h0
    exact ⟨hc, hreach, .inr ⟨htot, hf, h0⟩⟩
  | torn hlt _ _ hs =>
    dsimp only at hlt hs
    omega

theorem writeEntry_spec (h : FsOk sb s) (ht : (s.inodes i).type = T_DIR)
    (hk : k ≤ (s.inodes i).size / direntSize) (hi : e.inum < 65536) (hn : NameOk e.name) :
    Ends (writei sb i (s.inodes i) e.bytes (k * direntSize) direntSize) s (fun r t =>
      Writes sb i k e s r.1 t ∧ t.inodes i = r.2) := by
  have ht0 : (s.inodes i).type ≠ 0 := by rw [ht]; decide
  have hdense := h.dense ht0
  have hdir := h.dirs i ht
  have hmax : (s.inodes i).size ≤ 274432 := hdense.size_le
  have hoff : k * direntSize ≤ (s.inodes i).size := by
    have := Nat.div_mul_le_self (s.inodes i).size direntSize
    have := Nat.mul_le_mul_right direntSize hk
    omega
  by_cases hsmall : k * direntSize + direntSize ≤ MAXFILE * BSIZE
  · refine (writei_written h ht0 hoff hsmall).mono (fun r t hr => ?_)
    obtain ⟨tot, off', ip', u, c, hw, hr1, hr2, rfl⟩ := hr
    obtain ⟨rfl, rfl, htot⟩ := hw.entry (bytes_length e)
    obtain ⟨hedits, hsame⟩ := hw.edits h ht0 hsmall (fun _ => by
      unfold direntSize at *
      omega)
    have hbyte : ∀ pos < (s.inodes i).size, byteAt s.data (s.inodes i) pos =
        fileByte s.data (s.inodes i) pos := fun pos hp => (fileByte_of_ne
      (hdense.filled _ (Nat.lt_of_le_of_lt (block_start pos) hp))).symm
    rw [hr1, hr2]
    refine ⟨⟨hedits, ?_, fun hr => ?_, fun hr => ?_⟩, put_inodes_self⟩
    · rw [put_inodes_self, hsame]
    · obtain rfl : tot = direntSize := Option.some.inj hr
      rw [put_inodes_self, put_data]
      have htake : e.bytes.take (direntSize + 0) = e.bytes :=
        take_of_length_le (Nat.le_of_eq (bytes_length e))
      refine entries_place hdir hk (by rw [hsame]) ?_ (fun pos hpos hp => ?_)
      · change Dirent.ofBytes (content u.data ip' (k * direntSize) direntSize) = e
        rw [content_eq_src (bytes_length e) (fun j hj => ?_)]
        · exact ofBytes_bytes hi hn
        · rw [hw.byteAt_eq h ht0 (by rw [bytes_length] at hj; omega), htake, paste_in _ _ hj]
      · change byteAt u.data ip' pos = _
        rw [hw.byteAt_eq h ht0 (by omega), htake, hbyte pos hp, paste_out]
        rw [bytes_length]
        exact hpos
    · obtain ⟨rfl, hf, h0⟩ := htot.resolve_left (fun he => hr (he ▸ rfl))
      rw [put_inodes_self, put_data]
      refine ⟨entries_congr (by rw [hsame]; dsimp only; omega) (fun pos hp => ?_), ?_, .inr hf⟩
      · change byteAt u.data ip' pos = _
        rw [hw.byteAt_eq h ht0 (by omega), take_zero, paste_nil, hbyte pos hp]
      · -- a block that was there would have been found
        by_contra hlt
        have hblk := h.filled i ht0 (k * direntSize / BSIZE) (by
          have := block_start (k * direntSize)
          unfold direntSize at *
          omega)
        exact hblk ((hw.grows.keep _ hblk).symm.trans h0)
  · refine (writei_refused _ (fun hc => hsmall hc.2)).mono (fun r t hr => ?_)
    rw [hr.1, hr.2]
    have hbig : MAXFILE * BSIZE < k * direntSize + direntSize := Nat.lt_of_not_le hsmall
    refine ⟨⟨.refl h i, rfl, by simp, fun _ => ⟨rfl, ?_, .inl hbig⟩⟩, rfl⟩
    have hbig' : 274432 < k * direntSize + direntSize := hbig
    unfold direntSize at *
    omega

end

end Xv6.Fs
