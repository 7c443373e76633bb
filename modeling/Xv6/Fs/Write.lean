import Xv6.Fs.Runs

namespace Xv6.Fs
open Finset Function Lib

/-- The byte sequence of inode i. -/
def Disk.bytes (s : Disk) (i : Nat) : List Byte :=
  content s.data (s.inodes i) 0 (s.inodes i).size

/-- The list with the bytes bs at off. -/
def overwrite (l : List Byte) (off : Nat) (bs : List Byte) : List Byte :=
  l.take off ++ bs ++ l.drop (off + bs.length)

section
variable {sb : Superblock} {s t : Disk} {ip ip' : Dinode}

theorem content_eq_bytes (s : Disk) (i off n : Nat) :
    content s.data (s.inodes i) off (min n ((s.inodes i).size - off)) =
      ((s.bytes i).drop off).take n := by
  apply List.ext_getElem
  · simp [Disk.bytes]
  · intro j h1 h2
    simp [Disk.bytes, content]

theorem bytes_eq_map
    (hfill : ∀ bn, bn * BSIZE < (s.inodes i).size → blk s.data (s.inodes i) bn ≠ 0) :
    s.bytes i = (List.range (s.inodes i).size).map (fileByte s.data (s.inodes i)) := by
  rw [Disk.bytes, content]
  apply List.map_congr_left
  intro pos hp
  rw [List.mem_range] at hp
  rw [Nat.zero_add, fileByte_of_ne (hfill _ (Nat.lt_of_le_of_lt (block_start pos) hp))]

theorem map_paste (f : Block) (bs : List Byte) (h : off ≤ z) :
    (List.range (max z (off + bs.length))).map (paste f off bs) =
      overwrite ((List.range z).map f) off bs := by
  have hlen : (((List.range z).map f).take off).length = off := by simp [h]
  apply List.ext_getElem?
  intro o
  have hget : ∀ n : Nat, (List.range n)[o]? = if o < n then some o else none := by
    intro n
    split
    · exact List.getElem?_range (by assumption)
    · exact List.getElem?_eq_none (by simp; omega)
  rw [overwrite, List.append_assoc, List.getElem?_map, hget]
  rcases Nat.lt_or_ge o off with hlo | hlo
  · rw [List.getElem?_append_left (by omega), List.getElem?_take_of_lt hlo, if_pos (by omega),
      List.getElem?_map, hget, if_pos (by omega), Option.map_some,
      Option.map_some, paste_out _ _ (.inl hlo)]
  rw [List.getElem?_append_right (by omega), hlen]
  rcases Nat.lt_or_ge o (off + bs.length) with hmid | hmid
  · have hj : o - off < bs.length := by omega
    rw [List.getElem?_append_left hj, if_pos (by omega), Option.map_some, paste, if_pos hlo,
      List.getElem?_eq_getElem hj, Option.getD_some]
  · rw [List.getElem?_append_right (by omega), List.getElem?_drop, List.getElem?_map,
      show off + bs.length + (o - off - bs.length) = o by omega, hget]
    by_cases hz : o < z
    · rw [if_pos (by omega), if_pos hz, Option.map_some, Option.map_some,
        paste_out _ _ (.inr hmid)]
    · rw [if_neg (by omega), if_neg hz]
      rfl

/-- No other inode has changed its bytes. -/
theorem Edits.bytes_eq (h : Edits sb i s t) (hs : FsOk sb s) (hj : j ≠ i)
    (ht : (s.inodes j).type ≠ 0) : t.bytes j = s.bytes j := by
  rw [Disk.bytes, Disk.bytes, h.others j hj]
  apply content_congr
  intro pos _ hp
  exact h.byteAt_eq hs hj ht (by omega)

theorem bytes_put_of_ne (hj : j ≠ i) : (s.put i ip).bytes j = s.bytes j := by
  rw [Disk.bytes, Disk.bytes, put_inodes_of_ne hj, put_data]

/-- The file after a write that has come to tot bytes and copied c more. -/
theorem Written.result (h : Written sb i src n s (s.inodes i) off 0 (tot, off', ip') t c)
    (hs : FsOk sb s) (ht : (s.inodes i).type ≠ 0) :
    off' = off + tot ∧ ip'.size = (s.inodes i).size ∧
    (t.put i { ip' with size := max ip'.size off' }).bytes i =
      (List.range (max (s.inodes i).size (off + tot))).map
        (paste (fileByte s.data (s.inodes i)) off (src.take (tot + c))) ∧
    ∀ j ≠ i, (s.inodes j).type ≠ 0 →
      (t.put i { ip' with size := max ip'.size off' }).bytes j = s.bytes j := by
  have hreach : off' = off + tot := by
    have := h.reached
    dsimp only at this
    omega
  have hsame : ip' = { s.inodes i with addrs := ip'.addrs } := h.grows.same
  have hsz : ip'.size = (s.inodes i).size := by rw [hsame]
  refine ⟨hreach, hsz, ?_, fun j hj htj => ?_⟩
  · rw [Disk.bytes, content, put_inodes_self, put_data, hsz, hreach]
    apply List.map_congr_left
    intro pos hp
    rw [List.mem_range, ← hreach] at hp
    rw [Nat.zero_add]
    exact h.byteAt_eq hs ht hp
  · have hedits : Edits sb i s (t.put i ip') := h.grows.edits ht h.ok rfl rfl
    have hold := hedits.bytes_eq hs hj htj
    rw [bytes_put_of_ne hj] at hold ⊢
    exact hold

/-- The slots that a write of the bytes from off to stop comes to. -/
def touched (off stop : Nat) : Finset Nat :=
  ((Finset.range MAXFILE).filter (fun bn => off < (bn + 1) * BSIZE ∧ bn * BSIZE < stop)).image
    slotOf ∪ if NDIRECT * BSIZE < stop then {NDIRECT} else ∅

theorem covers_touched (h : stop ≤ MAXFILE * BSIZE) : Covers (touched off stop) off stop := by
  intro bn hlo hhi
  have hmax : bn < MAXFILE := Nat.lt_of_mul_lt_mul_right (Nat.lt_of_lt_of_le hhi h)
  refine ⟨?_, fun hn => ?_⟩
  · refine mem_union_left _ (mem_image_of_mem _ ?_)
    simp [hmax, hlo, hhi]
  · have hbig : NDIRECT * BSIZE < stop :=
      Nat.lt_of_le_of_lt (Nat.mul_le_mul_right _ hn) hhi
    rw [touched, if_pos hbig]
    exact mem_union_right _ (mem_singleton_self _)

/-- There are blocks for every slot in S. -/
def Room (sb : Superblock) (S : Finset Nat) (s : Disk) (ip : Dinode) : Prop :=
  missing S s ip ≤ freeCount sb s

theorem Full.freeCount_eq (h : Full sb s) : freeCount sb s = 0 := by
  rw [freeCount, card_eq_zero, filter_eq_empty_iff]
  intro b hb
  rw [h b (mem_range.mp hb)]
  decide

/-- With enough free blocks the loop does not end for lack of one. -/
theorem Written.not_full (h : Written sb i src n s ip off tot r t c)
    (hend : stop ≤ MAXFILE * BSIZE) (hroom : Room sb (touched off stop) s ip) (hlt : r.2.1 < stop) :
    ¬ (Full sb t ∧ blk t.data r.2.2 (r.2.1 / BSIZE) = 0) := by
  intro hf
  have hcov : Covers (touched off stop) off stop := covers_touched hend
  have hspend := h.spends _ (hcov.mono (Nat.le_refl _)
    (Nat.le_trans (Nat.min_le_right _ _) hlt))
  have hreach := h.reached
  have hdm := Nat.div_add_mod r.2.1 BSIZE
  have hmod : r.2.1 % BSIZE < BSIZE := Nat.mod_lt _ (by decide)
  have hin := (hcov (r.2.1 / BSIZE) (by rw [Nat.add_mul, Nat.mul_comm]; omega)
    (by have := block_start r.2.1; omega)).1
  have hpos : 0 < missing (touched off stop) t r.2.2 := by
    refine card_pos.mpr ⟨slotOf (r.2.1 / BSIZE), ?_⟩
    rw [mem_filter]
    exact ⟨hin, hf.2⟩
  rw [hf.1.freeCount_eq] at hspend
  rw [Room] at hroom
  omega

theorem writei_bytes (h : FsOk sb s) (ht : (s.inodes i).type ≠ 0) (hsrc : n ≤ src.length)
    (hoff : off ≤ (s.inodes i).size) (hmax : off + n ≤ MAXFILE * BSIZE)
    (hroom : Room sb (touched off (off + n)) s (s.inodes i)) :
    Ends (writei sb i (s.inodes i) src off n) s (fun r t => r.1 = some n ∧ t.inodes i = r.2 ∧
      t.bytes i = overwrite (s.bytes i) off (src.take n)) := by
  refine (writei_written h ht hoff hmax).mono (fun r t hr => ?_)
  obtain ⟨tot, off', ip', u, c, hw, hr1, hr2, rfl⟩ := hr
  obtain ⟨hreach, hsz, hbytes, -⟩ := hw.result h ht
  have hdone : tot = n ∧ c = 0 := by
    cases hw.stops with
    | done h1 h2 => exact ⟨h1, h2⟩
    | full h1 _ hf h0 =>
      have hlt : off' < off + n := by
        dsimp only at h1
        omega
      exact absurd ⟨hf, h0⟩ (hw.not_full hmax hroom hlt)
    | torn h1 _ _ h2 =>
      dsimp only at h1 h2
      omega
  obtain ⟨rfl, rfl⟩ := hdone
  refine ⟨hr1, put_inodes_self, ?_⟩
  have hlen : (src.take tot).length = tot := by
    rw [List.length_take]
    omega
  rw [hr2, hbytes, Nat.add_zero, bytes_eq_map (h.filled i ht), ← map_paste _ _ hoff, hlen]

theorem indirect_ne_zero (h : blk data ip NDIRECT ≠ 0) : slotAddr data ip NDIRECT ≠ 0 := by
  intro h0
  apply h
  rw [slotAddr, if_pos (Nat.le_refl _)] at h0
  rw [blk, slotOf, if_neg (Nat.lt_irrefl _), slotAddr, if_neg (Nat.not_succ_le_self _),
    if_neg (fun hc => hc.2 h0)]

/-- A loop that has written all bytes has found a block for every slot it came to. -/
theorem Written.had_room (h : Written sb i src n s ip off 0 (n, off', ip') t c)
    (hmax : off + n ≤ MAXFILE * BSIZE) : Room sb (touched off (off + n)) s ip := by
  have hreach := h.reached
  dsimp only at hreach
  have hspend := h.spends (touched off (off + n)) ((covers_touched hmax).mono (Nat.le_refl _)
    (by dsimp only; omega))
  have hnone : missing (touched off (off + n)) t ip' = 0 := by
    rw [missing, card_eq_zero, filter_eq_empty_iff]
    intro k hk
    rw [touched, mem_union] at hk
    rcases hk with hk | hk
    · obtain ⟨bn, hbn, rfl⟩ := mem_image.mp hk
      obtain ⟨-, -, hlt⟩ := mem_filter.mp hbn
      exact h.filled bn (by dsimp only; omega)
    · split at hk
      · rw [mem_singleton.mp hk]
        exact indirect_ne_zero (h.filled NDIRECT (by dsimp only; omega))
      · exact absurd hk (notMem_empty k)
  dsimp only at hspend
  rw [Room]
  omega

/-- A write with a source that can be read is complete exactly if the file may get as long and
there are blocks for it. -/
theorem writei_complete (h : FsOk sb s) (ht : (s.inodes i).type ≠ 0) (hsrc : n ≤ src.length)
    (hoff : off ≤ (s.inodes i).size) :
    Ends (writei sb i (s.inodes i) src off n) s (fun r _ => r.1 = some n ↔
      off + n ≤ MAXFILE * BSIZE ∧ Room sb (touched off (off + n)) s (s.inodes i)) := by
  by_cases hmax : off + n ≤ MAXFILE * BSIZE
  · by_cases hroom : Room sb (touched off (off + n)) s (s.inodes i)
    · refine (writei_bytes h ht hsrc hoff hmax hroom).mono (fun r t hr => ?_)
      exact ⟨fun _ => ⟨hmax, hroom⟩, fun _ => hr.1⟩
    · refine (writei_written h ht hoff hmax).mono (fun r t hr => ?_)
      obtain ⟨tot, off', ip', u, c, hw, hr1, -⟩ := hr
      refine ⟨fun hn => ?_, fun hc => absurd hc.2 hroom⟩
      rw [hr1] at hn
      cases hn
      exact absurd (hw.had_room hmax) hroom
  · refine (writei_refused src (fun hc => hmax hc.2)).mono (fun r t hr => ?_)
    rw [hr.1]
    exact ⟨fun hn => (nomatch hn), fun hc => absurd hc.1 hmax⟩

/-- What the functions of fs.c do to a locked inode. The last one is iupdate() after assignments
to the fields besides size and addrs. -/
inductive InodeOp where
  | readi (dst : Option Nat) (off n : Nat)
  | writei (src : List Byte) (off n : Nat)
  | itrunc
  | iupdate (type : Nat) (major minor nlink : BitVec 16)

def InodeOp.run (sb : Superblock) (i : Nat) (ip : Dinode) : InodeOp → Dk Unit
  | .readi dst off n => do
    let _ ← Fs.readi sb ip dst off n
    return
  | .writei src off n => do
    let _ ← Fs.writei sb i ip src off n
    return
  | .itrunc => do
    let _ ← Fs.itrunc i ip
    return
  | .iupdate type major minor nlink =>
    Fs.iupdate i { ip with type := type, major := major, minor := minor, nlink := nlink }

theorem InodeOp.others (h : FsOk sb s) (ht : (s.inodes i).type ≠ 0) (op : InodeOp) :
    Ends (op.run sb i (s.inodes i)) s (fun _ t =>
      ∀ j ≠ i, (s.inodes j).type ≠ 0 → t.bytes j = s.bytes j) := by
  cases op with
  | readi dst off n =>
    rw [InodeOp.run]
    refine (readi_spec (h.dense ht) dst off n).bind (fun r t hr => ?_)
    rw [ends_pure, hr.1]
    exact fun _ _ _ => rfl
  | writei src off n =>
    rw [InodeOp.run, ends_bind]
    by_cases hgo : off ≤ (s.inodes i).size ∧ off + n ≤ MAXFILE * BSIZE
    · refine (writei_written h ht hgo.1 hgo.2).mono (fun r t hr => ?_)
      obtain ⟨tot, off', ip', u, c, hw, -, hr2, rfl⟩ := hr
      rw [ends_pure, hr2]
      exact (hw.result h ht).2.2.2
    · refine (writei_refused src hgo).mono (fun r t hr => ?_)
      rw [ends_pure, hr.2]
      exact fun _ _ _ => rfl
  | itrunc =>
    rw [InodeOp.run]
    refine (itrunc_spec h ht).bind (fun ip t hr => ?_)
    obtain ⟨-, -, hin, hdata⟩ := hr
    rw [ends_pure]
    intro j hj _
    rw [Disk.bytes, Disk.bytes, hin, hdata, update_of_ne hj]
  | iupdate type major minor nlink =>
    rw [InodeOp.run, Fs.iupdate, ends_modify]
    exact fun j hj _ => bytes_put_of_ne hj

/-- A file is an array of bytes: writei() overwrites and extends it, readi() returns its bytes, and
nothing that is done to one inode changes the bytes of another. -/
theorem file_is_byte_array (h : FsOk sb s) (ht : (s.inodes i).type ≠ 0) :
    (∀ src off n, n ≤ src.length → off ≤ (s.inodes i).size → off + n ≤ MAXFILE * BSIZE →
      Room sb (touched off (off + n)) s (s.inodes i) →
      Ends (writei sb i (s.inodes i) src off n) s (fun r t => r.1 = some n ∧ t.inodes i = r.2 ∧
        t.bytes i = overwrite (s.bytes i) off (src.take n))) ∧
    (∀ dst off n, n < 4294967296 → fits dst n = true →
      Ends (readi sb (s.inodes i) dst off n) s (fun r t => t = s ∧ r.1 =
        some (if (s.inodes i).size < off ∨ 4294967296 ≤ off + n then []
          else ((s.bytes i).drop off).take n))) ∧
    ∀ op : InodeOp, Ends (op.run sb i (s.inodes i)) s (fun _ t =>
      ∀ j ≠ i, (s.inodes j).type ≠ 0 → t.bytes j = s.bytes j) := by
  refine ⟨fun src off n hsrc hoff hmax hroom => writei_bytes h ht hsrc hoff hmax hroom, ?_,
    fun op => op.others h ht⟩
  intro dst off n hn hfit
  refine (readi_spec (h.dense ht) dst off n).mono (fun r t hr => ⟨hr.1, ?_⟩)
  rw [hr.2.2 hfit hn, content_eq_bytes]

end

theorem file_is_byte_array_new : ∃ s r t,
    run (step mkfsSb) (boot fresh) [.open 0 [47, 97, 0] 0x201] = some s ∧
    (writei mkfsSb 2 (s.core.disk.inodes 2) [104, 105] 0 2).run s.core.disk = .ok (r, t) ∧
    t.bytes 2 = [104, 105] := by
  obtain ⟨s, hs, ht, hz, hroom⟩ : ∃ s,
      run (step mkfsSb) (boot fresh) [.open 0 [47, 97, 0] 0x201] = some s ∧
      (s.core.disk.inodes 2).type ≠ 0 ∧ (s.core.disk.inodes 2).size = 0 ∧
      missing (touched 0 2) s.core.disk (s.core.disk.inodes 2) ≤ freeCount mkfsSb s.core.disk := by
    decide +kernel
  obtain ⟨e, hmid⟩ := (sysOk_run fresh_consistent hs).mid
  obtain ⟨r, t, hr, -, -, hb⟩ := (file_is_byte_array hmid.core.fs ht).1 [104, 105] 0 2 (by decide)
    (Nat.zero_le _) (by decide) hroom
  have hempty : s.core.disk.bytes 2 = [] := by
    rw [Disk.bytes, hz]
    rfl
  refine ⟨s, r, t, hs, hr, ?_⟩
  rw [hb, hempty]
  rfl

end Xv6.Fs
