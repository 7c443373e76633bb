import Xv6.Fs.Bytes

namespace Xv6.Fs

open Finset Function Lib

/-- The bytes of a file as far as it has blocks, and zeros elsewhere. -/
def fileByte (data : Nat → Block) (ip : Dinode) : Block := fun pos =>
  if blk data ip (pos / BSIZE) = 0 then 0 else byteAt data ip pos

theorem paste_in (b : Block) (src : List Byte) (hj : j < src.length) :
    paste b off src (off + j) = src[j] := by
  simp [paste, hj]

theorem paste_out (b : Block) (src : List Byte) (ho : o < off ∨ off + src.length ≤ o) :
    paste b off src o = b o := by
  unfold paste
  split
  · rw [List.getElem?_eq_none (by omega), Option.getD_none]
  · rfl

theorem paste_nil (b : Block) (off : Nat) : paste b off [] = b := by
  funext o
  simp [paste]

theorem paste_append (b : Block) (off : Nat) (bs cs : List Byte) :
    paste (paste b off bs) (off + bs.length) cs = paste b off (bs ++ cs) := by
  funext o
  simp only [paste]
  by_cases hlo : off ≤ o
  · by_cases hmid : off + bs.length ≤ o
    · have hnone : bs[o - off]? = none := List.getElem?_eq_none (by omega)
      rw [if_pos hmid, if_pos hlo, if_pos hlo, List.getElem?_append_right (by omega), hnone,
        Option.getD_none, show o - (off + bs.length) = o - off - bs.length by omega]
    · rw [if_neg hmid, if_pos hlo, if_pos hlo, List.getElem?_append_left (by omega)]
  · rw [if_neg (by omega), if_neg hlo, if_neg hlo]

section
variable {sb : Superblock} {s t : Disk} {ip ip' : Dinode}

theorem fileByte_of_ne (h : blk data ip (pos / BSIZE) ≠ 0) :
    fileByte data ip pos = byteAt data ip pos := if_neg h

/-- bmap() changes no byte: the blocks it takes are zeroed. -/
theorem Loads.fileByte (h : Loads sb i k s ip a t ip') :
    fileByte t.data ip' = fileByte s.data ip := by
  funext pos
  by_cases hs : blk s.data ip (pos / BSIZE) = 0
  · rw [Fs.fileByte, Fs.fileByte, if_pos hs]
    by_cases ht : blk t.data ip' (pos / BSIZE) = 0
    · rw [if_pos ht]
    · rw [if_neg ht]
      exact congrFun (h.zero _ (slotOf_ne _) hs ht) _
  · have hkeep : blk t.data ip' (pos / BSIZE) = blk s.data ip (pos / BSIZE) := h.grows.keep _ hs
    rw [fileByte_of_ne hs, fileByte_of_ne (by rw [hkeep]; exact hs), byteAt, byteAt, hkeep]
    exact congrFun (h.bytes _ (slotOf_ne _) hs) _

theorem slotOf_inj (h : slotOf a = slotOf b) : a = b := by
  unfold slotOf at h
  split at h <;> split at h <;> omega

theorem fileByte_paste (h : FsOk sb (s.put i ip)) (ht : ip.type ≠ 0)
    (h0 : blk s.data ip (off / BSIZE) ≠ 0) (hfit : off % BSIZE + src.length ≤ BSIZE) :
    fileByte (update s.data (blk s.data ip (off / BSIZE))
      (paste (s.data (blk s.data ip (off / BSIZE))) (off % BSIZE) src)) ip =
      paste (fileByte s.data ip) off src := by
  have hblk : ∀ bn, blk (update s.data (blk s.data ip (off / BSIZE))
      (paste (s.data (blk s.data ip (off / BSIZE))) (off % BSIZE) src)) ip bn =
      blk s.data ip bn := fun bn => (h.paste ht h0 _).2 _
  have hdm := Nat.div_add_mod off BSIZE
  funext pos
  have hdm' := Nat.div_add_mod pos BSIZE
  have hmod' : pos % BSIZE < BSIZE := Nat.mod_lt _ (by decide)
  by_cases hp : blk s.data ip (pos / BSIZE) = 0
  · have hout : pos < off ∨ off + src.length ≤ pos := by
      by_contra hin
      have hq : pos / BSIZE = off / BSIZE := by
        unfold BSIZE at *
        omega
      exact h0 (hq ▸ hp)
    rw [paste_out _ _ hout, fileByte, fileByte, hblk, if_pos hp, if_pos hp]
  · rw [fileByte, hblk, if_neg hp, byteAt, hblk]
    by_cases hq : pos / BSIZE = off / BSIZE
    · rw [hq, update_self]
      simp only [Fs.paste]
      rw [fileByte_of_ne hp, byteAt, hq]
      by_cases hlo : off ≤ pos
      · rw [if_pos (by rw [hq] at hdm'; omega), if_pos hlo]
        congr 2
        rw [hq] at hdm'
        omega
      · rw [if_neg (by rw [hq] at hdm'; omega), if_neg hlo]
    · have hne : blk s.data ip (pos / BSIZE) ≠ blk s.data ip (off / BSIZE) := fun he =>
        hq (slotOf_inj (h.slot_inj ht hp he))
      have hout : pos < off ∨ off + src.length ≤ pos := by
        by_contra hin
        apply hq
        unfold BSIZE at *
        omega
      rw [update_of_ne hne, paste_out _ _ hout, fileByte_of_ne hp, byteAt]

/-- S has every slot that a write of the bytes from off to stop comes to. -/
def Covers (S : Finset Nat) (off stop : Nat) : Prop :=
  ∀ bn, off < (bn + 1) * BSIZE → bn * BSIZE < stop →
    slotOf bn ∈ S ∧ (NDIRECT ≤ bn → NDIRECT ∈ S)

theorem Covers.mono (h : Covers S off stop) (ho : off ≤ off') (hs : stop' ≤ stop) :
    Covers S off' stop' := fun bn hlo hhi => h bn (by omega) (by omega)

/-- Why the loop of writei() ends with tot of n bytes written: it is done, there is no block left,
or the source can be read no further. In the last case c more bytes have been copied. -/
inductive Stops (sb : Superblock) (src : List Byte) (n : Nat) (t : Disk) (ip : Dinode)
    (tot off c : Nat) : Prop where
  | done (h : tot = n) (hc : c = 0)
  | full (h : tot < n) (hc : c = 0) (hf : Full sb t) (h0 : blk t.data ip (off / BSIZE) = 0)
  | torn (h : tot < n) (hc : c = src.length - tot) (h0 : blk t.data ip (off / BSIZE) ≠ 0)
      (hs : src.length < tot + min (n - tot) (BSIZE - off % BSIZE))

/-- What the loop of writei() does from tot bytes on. -/
structure Written (sb : Superblock) (i : Nat) (src : List Byte) (n : Nat) (s : Disk) (ip : Dinode)
    (off tot : Nat) (r : Nat × Nat × Dinode) (t : Disk) (c : Nat) : Prop where
  ok : FsOk sb (t.put i r.2.2)
  grows : Grows s ip t r.2.2
  lo : tot ≤ r.1
  hi : r.1 ≤ n
  reached : r.2.1 = off + (r.1 - tot)
  copied : r.1 = tot ∨ r.1 ≤ src.length
  aligned : r.1 = tot ∨ r.1 = n ∨ r.2.1 % BSIZE = 0
  filled : ∀ bn, bn * BSIZE < r.2.1 → blk t.data r.2.2 bn ≠ 0
  bytes : Fs.fileByte t.data r.2.2 =
    paste (Fs.fileByte s.data ip) off ((src.drop tot).take (r.1 - tot + c))
  stops : Stops sb src n t r.2.2 r.1 r.2.1 c
  spends : ∀ S, Covers S off (min (off + (n - tot)) (r.2.1 + 1)) →
    freeCount sb t + missing S s ip = freeCount sb s + missing S t r.2.2

theorem length_chunk (src : List Byte) (tot m : Nat) :
    ((src.drop tot).take m).length = min m (src.length - tot) := by
  rw [List.length_take, List.length_drop]

theorem Written.refl (h : FsOk sb (s.put i ip))
    (hfill : ∀ bn, bn * BSIZE < off → blk s.data ip bn ≠ 0) (hn : tot = n) :
    Written sb i src n s ip off tot (tot, off, ip) s 0 := by
  refine ⟨h, .refl s ip, Nat.le_refl _, Nat.le_of_eq hn, ?_, .inl rfl, .inl rfl, hfill, ?_,
    .done hn rfl, fun S _ => rfl⟩
  · rw [Nat.sub_self, Nat.add_zero]
  · rw [Nat.sub_self, Nat.add_zero, List.take_zero, paste_nil]

/-- m more bytes of a block have been written, and then the loop goes on. -/
theorem Written.cons (h1 : Grows s ip t ip')
    (hbytes : Fs.fileByte t.data ip' = paste (Fs.fileByte s.data ip) off ((src.drop tot).take m))
    (hspend : ∀ S, Covers S off (off + 1) →
      freeCount sb t + missing S s ip = freeCount sb s + missing S t ip')
    (hm : m = min (n - tot) (BSIZE - off % BSIZE)) (hlen : m ≤ src.length - tot) (hm0 : 0 < m)
    (h : Written sb i src n t ip' (off + m) (tot + m) r u c) :
    Written sb i src n s ip off tot r u c := by
  have hlo := h.lo
  have hreach := h.reached
  refine ⟨h.ok, h1.trans h.grows, by omega, h.hi, by omega, ?_, ?_, h.filled, ?_, h.stops, ?_⟩
  · rcases h.copied with he | hle
    · right
      omega
    · exact .inr hle
  · rcases h.aligned with he | ha
    · right
      unfold BSIZE at *
      omega
    · exact .inr ha
  · have hchunk := length_chunk src tot m
    have hsplit : (src.drop tot).take (r.1 - tot + c) =
        (src.drop tot).take m ++ (src.drop (tot + m)).take (r.1 - (tot + m) + c) := by
      rw [← List.drop_drop, ← List.take_add]
      congr 1
      omega
    rw [h.bytes, hbytes, hsplit, ← paste_append, hchunk, Nat.min_eq_left hlen]
  · intro S hS
    have e1 := hspend S (hS.mono (Nat.le_refl _) (by omega))
    have e2 := h.spends S (hS.mono (by omega) (by omega))
    omega

/-- A block that starts below off + m, when these bytes end in the block of off. -/
theorem block_below (hb : bn * BSIZE < off + m) (hm : off % BSIZE + m ≤ BSIZE) :
    bn * BSIZE < off ∨ bn = off / BSIZE := by
  unfold BSIZE at *
  omega

theorem writeLoop_written (h : FsOk sb (s.put i ip)) (ht : ip.type ≠ 0)
    (hfill : ∀ bn, bn * BSIZE < off → blk s.data ip bn ≠ 0) (htot : tot ≤ n)
    (hend : off + (n - tot) ≤ MAXFILE * BSIZE) (hfuel : n - tot ≤ fuel) :
    Ends (writeLoop sb src n fuel ip off tot) s (fun r t =>
      ∃ c, Written sb i src n s ip off tot r t c) := by
  induction fuel generalizing s ip off tot with
  | zero =>
    rw [writeLoop, ends_pure]
    exact ⟨0, .refl h hfill (by omega)⟩
  | succ fuel ih =>
    rw [writeLoop]
    refine Ends.ite (fun hlt => ?_) (fun hge => ?_)
    · have hbn : off / BSIZE < MAXFILE :=
        Nat.div_lt_of_lt_mul (by rw [Nat.mul_comm]; omega)
      have hmod : off % BSIZE < BSIZE := Nat.mod_lt _ (by decide)
      have hdm := Nat.div_add_mod off BSIZE
      refine (bmap_spec h ht hbn).bind (fun r t h1 => ?_)
      obtain ⟨addr, ip1⟩ := r
      dsimp only at h1 ⊢
      have hbytes := h1.fileByte
      have hfill1 : ∀ bn, bn * BSIZE < off → blk t.data ip1 bn ≠ 0 := by
        intro bn hb
        unfold blk
        rw [h1.grows.keep _ (hfill bn hb)]
        exact hfill bn hb
      have hspend1 : ∀ S, Covers S off (off + 1) →
          freeCount sb t + missing S s ip = freeCount sb s + missing S t ip1 := by
        intro S hS
        obtain ⟨hk, hind⟩ := hS (off / BSIZE) (by rw [Nat.add_mul, Nat.mul_comm]; omega)
          (by have := block_start off; omega)
        refine h1.spends S hk (fun hgt => hind ?_)
        unfold slotOf at hgt
        split at hgt <;> omega
      refine Ends.ite (fun h0 => ?_) (fun h0 => ?_)
      · rw [ends_pure]
        refine ⟨0, h1.ok, h1.grows, Nat.le_refl _, htot, ?_, .inl rfl, .inl rfl, hfill1, ?_, ?_,
          fun S hS => hspend1 S (hS.mono (Nat.le_refl _) (by dsimp only; omega))⟩
        · dsimp only
          rw [Nat.sub_self, Nat.add_zero]
        · dsimp only
          rw [Nat.sub_self, Nat.add_zero, List.take_zero, paste_nil, hbytes]
        · exact .full hlt rfl (h1.full h0).1 (h1.full h0).2
      · have hthere : blk t.data ip1 (off / BSIZE) = addr := h1.there h0
        have ht1 : ip1.type ≠ 0 := by rw [h1.grows.same]; exact ht
        have hb0 : blk t.data ip1 (off / BSIZE) ≠ 0 := by rw [hthere]; exact h0
        generalize hm : min (n - tot) (BSIZE - off % BSIZE) = m
        have hm1 : 0 < m := by omega
        have hclen := length_chunk src tot m
        rw [ends_bind, ends_modify, ← hthere]
        have hpaste : fileByte (update t.data (blk t.data ip1 (off / BSIZE))
            (paste (t.data (blk t.data ip1 (off / BSIZE))) (off % BSIZE) ((src.drop tot).take m)))
              ip1 = paste (fileByte t.data ip1) off ((src.drop tot).take m) :=
          fileByte_paste h1.ok ht1 hb0 (by omega)
        generalize hB : Fs.paste _ _ _ = B at hpaste ⊢
        obtain ⟨hok2, hslot2⟩ := h1.ok.paste ht1 hb0 B
        have hg2 := h1.grows.trans (Grows.paste ht1 h1.ok hb0 B)
        have hblk2 : ∀ bn, blk (update t.data (blk t.data ip1 (off / BSIZE)) B) ip1 bn =
            blk t.data ip1 bn := fun bn => hslot2 _
        have hspend2 : ∀ S, Covers S off (off + 1) → freeCount sb
            { t with data := update t.data (blk t.data ip1 (off / BSIZE)) B } +
              missing S s ip = freeCount sb s + missing S
            { t with data := update t.data (blk t.data ip1 (off / BSIZE)) B } ip1 := by
          intro S hS
          have hmiss : missing S
              { t with data := update t.data (blk t.data ip1 (off / BSIZE)) B } ip1 =
              missing S t ip1 := by
            rw [missing, missing]
            simp only [hslot2]
          rw [hmiss]
          exact hspend1 S hS
        rw [hbytes] at hpaste
        refine Ends.ite (fun hshort => ?_) (fun hlong => ?_)
        · rw [ends_pure]
          refine ⟨src.length - tot, hok2, hg2, Nat.le_refl _, htot, ?_, .inl rfl, .inl rfl, ?_, ?_,
            ?_, fun S hS => hspend2 S (hS.mono (Nat.le_refl _) (by dsimp only; omega))⟩
          · dsimp only
            rw [Nat.sub_self, Nat.add_zero]
          · intro bn hb
            dsimp only
            rw [hblk2]
            exact hfill1 bn hb
          · dsimp only
            rw [hpaste, Nat.sub_self, Nat.zero_add, List.take_of_length_le (by simp; omega),
              List.take_of_length_le (by simp)]
          · refine .torn hlt rfl ?_ ?_
            · dsimp only
              rw [hblk2]
              exact hb0
            · dsimp only
              omega
        · have hm2 : m ≤ src.length - tot := by omega
          refine (ih hok2 ht1 ?_ ?_ ?_ ?_).mono (fun r u hr => ?_)
          · intro bn hb
            rw [hblk2]
            rcases block_below hb (by omega) with hlt' | rfl
            · exact hfill1 bn hlt'
            · exact hb0
          · omega
          · omega
          · omega
          · obtain ⟨c, hr⟩ := hr
            exact ⟨c, .cons hg2 hpaste hspend2 hm.symm hm2 hm1 hr⟩
    · rw [ends_pure]
      exact ⟨0, .refl h hfill (by omega)⟩

theorem writei_written (h : FsOk sb s) (ht : (s.inodes i).type ≠ 0)
    (hoff : off ≤ (s.inodes i).size) (hmax : off + n ≤ MAXFILE * BSIZE) :
    Ends (writei sb i (s.inodes i) src off n) s (fun r t => ∃ tot off' ip' u c,
      Written sb i src n s (s.inodes i) off 0 (tot, off', ip') u c ∧ r.1 = some tot ∧
      r.2 = { ip' with size := max ip'.size off' } ∧ t = u.put i r.2) := by
  have hbound : MAXFILE * BSIZE = 274432 := rfl
  rw [writei, if_neg (by omega), if_neg (by omega), ends_bind]
  have h' : FsOk sb (s.put i (s.inodes i)) := by rwa [put_self]
  refine (writeLoop_written h' ht (fun bn hb => ?_) (Nat.zero_le n) (by omega)
    (by omega)).mono (fun r t hr => ?_)
  · exact h.filled i ht bn (by omega)
  · obtain ⟨c, hc⟩ := hr
    obtain ⟨tot, off', ip'⟩ := r
    dsimp only
    rw [ends_bind, iupdate, ends_modify, ends_pure]
    exact ⟨tot, off', ip', t, c, hc, rfl, rfl, rfl⟩

theorem writei_refused (src : List Byte) (h : ¬ (off ≤ ip.size ∧ off + n ≤ MAXFILE * BSIZE)) :
    Ends (writei sb i ip src off n) s (fun r t => r = (none, ip) ∧ t = s) := by
  rw [writei]
  refine Ends.ite (fun _ => ends_pure.mpr ⟨rfl, rfl⟩) (fun hgo => ?_)
  rw [if_pos (by omega)]
  exact ends_pure.mpr ⟨rfl, rfl⟩

/-- No block is missing below the new size. -/
theorem Written.filled_max (h : Written sb i src n s (s.inodes i) off 0 (tot, off', ip') t c)
    (hs : FsOk sb s) (ht : (s.inodes i).type ≠ 0) (hb : bn * BSIZE < max (s.inodes i).size off') :
    blk t.data ip' bn ≠ 0 := by
  have hor : bn * BSIZE < (s.inodes i).size ∨ bn * BSIZE < off' := by omega
  rcases hor with hb | hb
  · have h0 := hs.filled i ht bn hb
    have hkeep : blk t.data ip' bn = blk s.data (s.inodes i) bn := h.grows.keep _ h0
    rw [hkeep]
    exact h0
  · exact h.filled bn hb

theorem Written.byteAt_eq (h : Written sb i src n s (s.inodes i) off 0 (tot, off', ip') t c)
    (hs : FsOk sb s) (ht : (s.inodes i).type ≠ 0) (hp : pos < max (s.inodes i).size off') :
    byteAt t.data ip' pos =
      paste (fileByte s.data (s.inodes i)) off (src.take (tot + c)) pos := by
  have hbytes := h.bytes
  dsimp only at hbytes
  rw [List.drop_zero, Nat.sub_zero] at hbytes
  rw [← hbytes, fileByte_of_ne]
  exact h.filled_max hs ht (Nat.lt_of_le_of_lt (block_start pos) hp)

theorem Written.edits (h : Written sb i src n s (s.inodes i) off 0 (tot, off', ip') t c)
    (hs : FsOk sb s) (ht : (s.inodes i).type ≠ 0) (hmax : off + n ≤ MAXFILE * BSIZE)
    (hdir : (s.inodes i).type = T_DIR → max (s.inodes i).size off' % direntSize = 0) :
    Edits sb i s (t.put i { ip' with size := max ip'.size off' }) ∧
      { ip' with size := max ip'.size off' } = { s.inodes i with
        size := max (s.inodes i).size off', addrs := ip'.addrs } := by
  have hsame : ip' = { s.inodes i with addrs := ip'.addrs } := h.grows.same
  have hty : ip'.type = (s.inodes i).type := by rw [hsame]
  have hsz : ip'.size = (s.inodes i).size := by rw [hsame]
  have hreach := h.reached
  have hhi := h.hi
  have hle := hs.size_le i ht
  dsimp only at hreach hhi
  have hres : FsOk sb (t.put i { ip' with size := max ip'.size off' }) := by
    refine h.ok.resize (fun bn hb => h.filled_max hs ht (hsz ▸ hb)) ?_ (fun hd => ?_)
    · omega
    · rw [hsz]
      exact hdir (hty ▸ hd)
  refine ⟨h.grows.edits ht hres rfl rfl, ?_⟩
  rw [hsz]
  conv_lhs => rw [hsame]

/-- A write to a file that is not a directory. -/
theorem writei_spec (h : FsOk sb s) (ht : (s.inodes i).type ≠ 0) (hd : (s.inodes i).type ≠ T_DIR)
    (src : List Byte) (off n : Nat) :
    Ends (writei sb i (s.inodes i) src off n) s (fun r t => Edits sb i s t ∧ t.inodes i = r.2 ∧
      r.2 = { s.inodes i with size := r.2.size, addrs := r.2.addrs }) := by
  by_cases hgo : off ≤ (s.inodes i).size ∧ off + n ≤ MAXFILE * BSIZE
  · refine (writei_written h ht hgo.1 hgo.2).mono (fun r t hr => ?_)
    obtain ⟨tot, off', ip', u, c, hw, -, hr2, rfl⟩ := hr
    obtain ⟨hedits, hsame⟩ := hw.edits h ht hgo.2 (fun hdir => absurd hdir hd)
    rw [hr2]
    exact ⟨hedits, put_inodes_self, by rw [hsame]⟩
  · refine (writei_refused src hgo).mono (fun r t hr => ?_)
    rw [hr.1, hr.2]
    exact ⟨.refl h i, rfl, rfl⟩

end

end Xv6.Fs
