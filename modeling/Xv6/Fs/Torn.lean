import Xv6.Lib.Mirror
import Xv6.Fs.Logged

namespace Xv6.Fs
open Function List Lib

/-- The cache after block b has been changed to B and not logged. -/
def Cache.spoil (c : Cache) (b : Nat) (B : Block) : Cache :=
  { c with disk := { c.disk with data := update c.disk.data b B } }

section
variable {sb : Superblock} {c d e : Cache} {ip ip' : Dinode}

theorem mirrors_onBlocks (m : Dk α) : Mirrors Cache.disk (onBlocks m) m :=
  mirrors_zoom (fun _ _ => rfl) m

theorem mirrors_logWrite {x : Ck α} (b : Nat) (h : Mirrors Cache.disk x y) :
    Mirrors Cache.disk (do logWrite b; x) y := h.skip (fun _ => rfl)

theorem balloc_mirrors (sb : Superblock) : Mirrors Cache.disk (Cache.balloc sb) (balloc sb) := by
  intro c
  have hget : StateT.run (get : Dk Disk) c.disk = .ok (c.disk, c.disk) := rfl
  have hload : StateT.run (onBlocks get) c = .ok (c.disk, c) := rfl
  rw [balloc, Cache.balloc, StateT.run_bind, StateT.run_bind, hget, hload]
  simp only [bind, Except.bind]
  cases (List.range sb.size).find? (fun b => !c.disk.bitmap b) with
  | none => rfl
  | some b => rfl

theorem loadAddr_mirrors (sb : Superblock) (ip : Dinode) (k : Nat) :
    Mirrors Cache.disk (Cache.loadAddr sb ip k) (loadAddr sb ip k) := by
  refine Mirrors.ite ?_ (mirrors_pure _)
  refine (balloc_mirrors sb).bind (fun a => ?_)
  exact Mirrors.ite (mirrors_pure _) (mirrors_pure _)

theorem loadEntry_mirrors (sb : Superblock) (ind n : Nat) :
    Mirrors Cache.disk (Cache.loadEntry sb ind n) (loadEntry sb ind n) := by
  refine (mirrors_onBlocks get).bind (fun s => Mirrors.ite ?_ (mirrors_pure _))
  refine (balloc_mirrors sb).bind (fun a => Mirrors.ite (mirrors_pure _) ?_)
  refine (mirrors_onBlocks _).bind (fun _ => ?_)
  exact mirrors_logWrite ind (mirrors_pure a)

theorem bmap_mirrors (sb : Superblock) (ip : Dinode) (bn : Nat) :
    Mirrors Cache.disk (Cache.bmap sb ip bn) (bmap sb ip bn) := by
  refine Mirrors.ite (loadAddr_mirrors sb ip bn) (Mirrors.ite ?_ (mirrors_throw _))
  refine (loadAddr_mirrors sb ip NDIRECT).bind (fun r => ?_)
  refine Mirrors.ite (mirrors_pure _) ?_
  exact (loadEntry_mirrors sb _ _).bind (fun a => mirrors_pure _)

theorem writeLoop_mirrors (sb : Superblock) (src : List Byte) (n fuel : Nat) (ip : Dinode)
    (off tot : Nat) : Mirrors Cache.disk (Cache.writeLoop sb src n fuel ip off tot)
      (writeLoop sb src n fuel ip off tot) := by
  induction fuel generalizing ip off tot with
  | zero => exact mirrors_pure _
  | succ fuel ih =>
    refine Mirrors.ite ?_ (mirrors_pure _)
    refine (bmap_mirrors sb ip _).bind (fun r => Mirrors.ite (mirrors_pure _) ?_)
    refine (mirrors_onBlocks _).bind (fun _ => Mirrors.ite (mirrors_pure _) ?_)
    exact mirrors_logWrite _ (ih _ _ _)

/-- What the loop of writei() does to the log. Only the block it stops in may be changed and not
logged. -/
structure Logs (sb : Superblock) (n : Nat) (c : Cache) (ip : Dinode) (tot : Nat)
    (r : Nat × Nat × Dinode) (d : Cache) : Prop where
  home : d.home = c.home
  more : ∀ b ∈ c.logged, b ∈ d.logged
  clean : Clean sb c → Clean sb d ∨ blk d.disk.data r.2.2 (r.2.1 / BSIZE) ≠ 0 ∧ ∃ e B,
    Clean sb e ∧ d = e.spoil (blk d.disk.data r.2.2 (r.2.1 / BSIZE)) B
  fresh : blk c.disk.data ip (r.2.1 / BSIZE) = 0 → r.1 < n →
    blk d.disk.data r.2.2 (r.2.1 / BSIZE) ≠ 0 → blk d.disk.data r.2.2 (r.2.1 / BSIZE) ∈ d.logged
  old : ∀ q, blk c.disk.data ip q ≠ 0 → blk c.disk.data ip q ∈ d.logged →
    blk c.disk.data ip q ∈ c.logged ∨ tot < r.1 ∧ q * BSIZE < r.2.1

theorem bblock_lt (h : a ≤ sb.size) : bblock sb a < sb.datastart := by
  have := Nat.div_le_div_right (c := BPB) h
  unfold bblock Superblock.datastart
  omega

theorem FsOk.slot_le {s : Disk} (h : FsOk sb (s.put i ip)) (ht : ip.type ≠ 0) (k : Nat) :
    slotAddr s.data ip k ≤ sb.size := by
  by_cases hk : slotAddr s.data ip k = 0
  · omega
  · exact Nat.le_of_lt (h.owned (slot_owned ht hk)).2.1

/-- bmap() gives no block to the log that the file had before. -/
theorem Maps.old (hm : Maps sb (slotOf bn) c ip a d ip' L)
    (hl : Loads sb i (slotOf bn) c.disk ip a d.disk ip') (ht : ip.type ≠ 0)
    (h0 : blk c.disk.data ip q ≠ 0) (hx : blk c.disk.data ip q ∈ d.logged) :
    blk c.disk.data ip q ∈ c.logged := by
  rw [hm.log, mem_append] at hx
  rcases hx with hx | hx
  · exact hx
  exfalso
  have ht' : ip'.type ≠ 0 := by rw [hl.grows.same]; exact ht
  have hkeep : slotAddr d.disk.data ip' (slotOf q) = blk c.disk.data ip q := hl.grows.keep _ h0
  have h0' : slotAddr d.disk.data ip' (slotOf q) ≠ 0 := by rw [hkeep]; exact h0
  have hown := (hl.ok.owned (slot_owned ht' h0')).1
  rw [hkeep] at hown
  have hind : slotAddr d.disk.data ip' NDIRECT = ip'.addrs NDIRECT := by simp [slotAddr]
  have hbits : ∀ k, blk c.disk.data ip q ≠ bblock sb (slotAddr d.disk.data ip' k) := by
    intro k he
    have := bblock_lt (hl.ok.slot_le ht' k)
    omega
  rcases hm.mem _ hx with ha | ha | ⟨-, ha | ha⟩
  · have hthere := hl.there (by rw [← ha]; exact h0)
    have hq := hl.ok.slot_inj ht' h0' (hkeep.trans (ha.trans hthere.symm))
    have hnil := (hm.known (by rw [← hq]; exact h0)).1
    rw [hnil] at hx
    cases hx
  · refine hbits (slotOf bn) (ha.trans ?_)
    by_cases ha0 : a = 0
    · rw [(hl.full ha0).2, ha0]
    · rw [hl.there ha0]
  · exact slotOf_ne q (hl.ok.slot_inj ht' h0' (hkeep.trans (ha.trans hind.symm)))
  · exact hbits NDIRECT (by rw [hind]; exact ha)

theorem Logs.refl (sb : Superblock) (c : Cache) (ip : Dinode) (hn : n ≤ tot) :
    Logs sb n c ip tot (tot, off, ip) c :=
  ⟨rfl, fun _ h => h, fun h => .inl h, fun _ h _ => absurd h (Nat.not_lt.mpr hn),
    fun _ _ h => .inl h⟩

theorem writeLoop_logs (h : FsOk sb (c.disk.put i ip)) (ht : ip.type ≠ 0)
    (hend : off + (n - tot) ≤ MAXFILE * BSIZE) (hfuel : n - tot ≤ fuel) :
    Ends (Cache.writeLoop sb src n fuel ip off tot) c (fun r d => tot ≤ r.1 ∧
      r.2.1 = off + (r.1 - tot) ∧ Logs sb n c ip tot r d) := by
  induction fuel generalizing c ip off tot with
  | zero =>
    rw [Cache.writeLoop, ends_pure]
    exact ⟨Nat.le_refl _, by simp, .refl sb c ip (by omega)⟩
  | succ fuel ih =>
    rw [Cache.writeLoop]
    refine Ends.ite (fun hlt => ?_) (fun hge => ?_)
    · have hbn : off / BSIZE < MAXFILE :=
        Nat.div_lt_of_lt_mul (by rw [Nat.mul_comm]; omega)
      refine (((bmap_mirrors sb ip _).ends (bmap_spec h ht hbn)).and
        (bmap_maps sb c ip hbn)).bind (fun r d h1 => ?_)
      obtain ⟨a, ip1⟩ := r
      obtain ⟨hl, L, hm⟩ := h1
      dsimp only at hl hm ⊢
      have hmore : ∀ b ∈ c.logged, b ∈ d.logged := by
        intro b hb
        rw [hm.log]
        exact mem_append_left _ hb
      refine Ends.ite (fun h0 => ?_) (fun h0 => ?_)
      · rw [ends_pure]
        refine ⟨Nat.le_refl _, by simp, hm.home, hmore, fun hc => .inl (hm.clean hc), ?_,
          fun q hq hx => .inl (hm.old hl ht hq hx)⟩
        exact fun _ _ hne => absurd (hl.full h0).2 hne
      have hthere : blk d.disk.data ip1 (off / BSIZE) = a := hl.there h0
      have ht1 : ip1.type ≠ 0 := by rw [hl.grows.same]; exact ht
      have hb0 : blk d.disk.data ip1 (off / BSIZE) ≠ 0 := by rw [hthere]; exact h0
      rw [ends_bind]
      apply Ends.onBlocks
      rw [ends_modify, ← hthere]
      generalize hm' : min (n - tot) (BSIZE - off % BSIZE) = m
      generalize hB : Fs.paste _ _ _ = B
      obtain ⟨hok2, hslot2⟩ := hl.ok.paste ht1 hb0 B
      refine Ends.ite (fun hshort => ?_) (fun hlong => ?_)
      · rw [ends_pure]
        have hblk : blk (d.spoil (blk d.disk.data ip1 (off / BSIZE)) B).disk.data ip1
            (off / BSIZE) = blk d.disk.data ip1 (off / BSIZE) := hslot2 _
        refine ⟨Nat.le_refl _, by simp, hm.home, hmore,
          fun hc => .inr ⟨?_, d, B, hm.clean hc, ?_⟩, fun hz _ _ => ?_,
          fun q hq hx => .inl (hm.old hl ht hq hx)⟩
        · exact fun hz => hb0 (hblk ▸ hz)
        · exact congrArg (fun b => d.spoil b B) hblk.symm
        · refine hblk.symm ▸ ?_
          rw [hthere]
          exact hm.log ▸ mem_append_right _ (hm.fresh hz h0)
      · rw [ends_bind, logWrite, ends_modify]
        have hm1 : 0 < m := by
          have : off % BSIZE < BSIZE := Nat.mod_lt _ (by decide)
          omega
        refine (ih hok2 ht1 (by omega) (by omega)).mono (fun r e h2 => ?_)
        obtain ⟨hlo, hreach, h2⟩ := h2
        refine ⟨by omega, by omega, h2.home.trans hm.home, ?_, ?_, ?_, ?_⟩
        · intro b hb
          exact h2.more b (mem_append_left _ (hmore b hb))
        · intro hc
          exact h2.clean ((hm.clean hc).putBlock _ B)
        · intro hz hr
          refine h2.fresh ?_ hr
          have hq : r.2.1 / BSIZE ≠ off / BSIZE := by
            unfold BSIZE at *
            omega
          exact (hslot2 _).trans ((hl.others _ (fun he => hq (slotOf_inj he))
            (slotOf_ne _)).trans hz)
        · intro q hq hx
          have hkeep : blk d.disk.data ip1 q = blk c.disk.data ip q := hl.grows.keep _ hq
          have hblk : blk (update d.disk.data (blk d.disk.data ip1 (off / BSIZE)) B)
              ip1 q = blk c.disk.data ip q := (hslot2 _).trans hkeep
          have hold := h2.old q
          simp only [hblk] at hold
          rcases hold hq hx with hx | ⟨hlt', hx⟩
          · rcases mem_append.mp hx with hx | hx
            · exact .inl (hm.old hl ht hq hx)
            · -- the block of this turn
              have he := hkeep.trans (mem_singleton.mp hx)
              have hqo := slotOf_inj (hl.ok.slot_inj ht1 (fun h0 => hq (hkeep ▸ h0)) he)
              have hstart := block_start off
              rw [hqo]
              exact .inr ⟨by omega, by omega⟩
          · exact .inr ⟨by omega, hx⟩
    · rw [ends_pure]
      exact ⟨Nat.le_refl _, by simp, .refl sb c ip (by omega)⟩

/-- The bytes of a source of len bytes that come to a block which they do not fill. -/
def InTear (len off pos : Nat) : Prop :=
  off ≤ pos ∧ (off + len) / BSIZE * BSIZE ≤ pos ∧ pos < off + len

/-- The source of the write ends early, there are blocks up to where it ends, and in the last of
them it has a byte that is not the byte of the file. That byte is below the size of the file, or
its block has not been logged. -/
structure Tears (sb : Superblock) (c : Cache) (i : Nat) (src : List Byte) (off n : Nat) : Prop where
  start : off ≤ (c.disk.inodes i).size
  fits : off + n ≤ MAXFILE * BSIZE
  short : src.length < n
  room : Room sb (touched off (off + src.length + 1)) c.disk (c.disk.inodes i)
  harm : ∃ pos, InTear src.length off pos ∧
    src[pos - off]? ≠ some (fileByte c.disk.data (c.disk.inodes i) pos) ∧
    (pos < (c.disk.inodes i).size ∨ blk c.disk.data (c.disk.inodes i) (pos / BSIZE) ≠ 0 ∧
      blk c.disk.data (c.disk.inodes i) (pos / BSIZE) ∉ c.logged)

/-- What a write of tot bytes should leave. -/
structure Leaves (sb : Superblock) (c : Cache) (i : Nat) (src : List Byte) (off tot : Nat)
    (d : Cache) : Prop where
  bytes : d.disk.bytes i = overwrite (c.disk.bytes i) off (src.take tot)
  clean : Clean sb d

theorem overwrite_nil (l : List Byte) (off : Nat) : overwrite l off [] = l := by
  simp [overwrite]

/-- The bytes behind the first tot make a difference where they are not the bytes of the file. -/
theorem paste_eq_take_iff (f : Block) (src : List Byte) (off tot pos : Nat) :
    paste f off src pos = paste f off (src.take tot) pos ↔
      (off + tot ≤ pos → pos < off + src.length → src[pos - off]? = some (f pos)) := by
  unfold paste
  by_cases hlo : off ≤ pos
  · rw [if_pos hlo, if_pos hlo, List.getElem?_take]
    by_cases hmid : pos - off < tot
    · rw [if_pos hmid]
      exact ⟨fun _ h => by omega, fun _ => rfl⟩
    · rw [if_neg hmid, Option.getD_none]
      by_cases hlt : pos - off < src.length
      · rw [List.getElem?_eq_getElem hlt, Option.getD_some, Option.some.injEq]
        exact ⟨fun h _ _ => h, fun h => h (by omega) (by omega)⟩
      · rw [List.getElem?_eq_none (by omega)]
        exact ⟨fun _ _ h => by omega, fun _ => rfl⟩
  · rw [if_neg hlo, if_neg hlo]
    exact ⟨fun _ h => by omega, fun _ => rfl⟩

/-- The bytes of a file after a write that has come to the end of its source. -/
theorem Written.bytes_iff (hw : Written sb i src n s (s.inodes i) off 0 (tot, off', ip') t k)
    (h : FsOk sb s) (ht : (s.inodes i).type ≠ 0) (hoff : off ≤ (s.inodes i).size)
    (hk : tot + k = src.length) :
    (t.put i { ip' with size := max ip'.size off' }).bytes i =
      overwrite (s.bytes i) off (src.take tot) ↔
    ∀ pos, off' ≤ pos → pos < off + src.length → pos < (s.inodes i).size →
      src[pos - off]? = some (fileByte s.data (s.inodes i) pos) := by
  obtain ⟨hreach, hsz, hbytes, -⟩ := hw.result h ht
  have hlen : (src.take tot).length = tot := by
    rw [length_take]
    omega
  have hmap := map_paste (fileByte s.data (s.inodes i)) (src.take tot) hoff
  rw [hlen] at hmap
  rw [hbytes, hk, take_length, bytes_eq_map (h.filled i ht), ← hmap, map_inj_left]
  constructor
  · intro hall pos hlo hhi hpos
    have heq := hall pos (mem_range.mpr (by omega))
    exact (paste_eq_take_iff _ _ _ _ _).mp heq (by omega) hhi
  · intro hall pos hpos
    rw [mem_range] at hpos
    exact (paste_eq_take_iff _ _ _ _ _).mpr (fun hlo hhi => hall pos (by omega) hhi (by omega))

/-- Where a write stops whose source ends in the middle of a chunk. -/
theorem Written.torn_at (hw : Written sb i src n s ip off 0 (tot, off', ip') t k)
    (hs : src.length < tot + min (n - tot) (BSIZE - off' % BSIZE)) :
    off' / BSIZE = (off + src.length) / BSIZE ∧
    ∀ pos, InTear src.length off pos ↔ off' ≤ pos ∧ pos < off + src.length := by
  have hreach := hw.reached
  have hcopied := hw.copied
  have haligned := hw.aligned
  dsimp only at hreach hcopied haligned
  have hq : off' / BSIZE = (off + src.length) / BSIZE := by
    unfold BSIZE at *
    omega
  refine ⟨hq, fun pos => ?_⟩
  have hdm := Nat.div_add_mod' off' BSIZE
  have hmod : off' % BSIZE < BSIZE := Nat.mod_lt _ (by decide)
  unfold InTear
  rw [← hq]
  constructor
  · intro hp
    exact ⟨by omega, hp.2.2⟩
  · intro hp
    exact ⟨by omega, by omega, hp.2⟩

/-- A block that the file had, after a write that has come to the end of its source. -/
theorem Written.block_iff (hw : Written sb i src n s ip off 0 (tot, off', ip') t k)
    (hk : tot + k = src.length) (h0 : blk s.data ip q ≠ 0) :
    (∀ o < BSIZE, t.data (blk t.data ip' q) o = s.data (blk s.data ip q) o) ↔
    ∀ pos, pos / BSIZE = q → off ≤ pos → pos < off + src.length →
      src[pos - off]? = some (fileByte s.data ip pos) := by
  have hkeep : blk t.data ip' q = blk s.data ip q := hw.grows.keep _ h0
  have hbytes := hw.bytes
  dsimp only at hbytes
  rw [drop_zero, Nat.sub_zero, hk, take_length] at hbytes
  -- a byte of the block is the byte of the file at its place
  have hbyte : ∀ pos, pos / BSIZE = q →
      (t.data (blk t.data ip' q) (pos % BSIZE) = s.data (blk s.data ip q) (pos % BSIZE) ↔
        (off ≤ pos → pos < off + src.length →
          src[pos - off]? = some (fileByte s.data ip pos))) := by
    intro pos hq
    have hold : fileByte s.data ip pos = s.data (blk s.data ip q) (pos % BSIZE) := by
      rw [fileByte_of_ne (by rw [hq]; exact h0), byteAt, hq]
    have hnew : fileByte t.data ip' pos = t.data (blk t.data ip' q) (pos % BSIZE) := by
      rw [fileByte_of_ne (by rw [hq, hkeep]; exact h0), byteAt, hq]
    have hiff := paste_eq_take_iff (fileByte s.data ip) src off 0 pos
    rw [take_zero, paste_nil, Nat.add_zero, ← hbytes, hnew] at hiff
    rw [← hold]
    exact hiff
  constructor
  · intro hall pos hq
    exact (hbyte pos hq).mp (hall _ (Nat.mod_lt _ (by decide)))
  · intro hall o ho
    have hq : (q * BSIZE + o) / BSIZE = q := by
      unfold BSIZE at *
      omega
    have hmod : (q * BSIZE + o) % BSIZE = o := by
      unfold BSIZE at *
      omega
    have heq := (hbyte _ hq).mpr (hall _ hq)
    rw [hmod] at heq
    exact heq

theorem ind_of_blk (hbn : NDIRECT ≤ bn) (h0 : blk data ip bn ≠ 0) : ip.addrs NDIRECT ≠ 0 := by
  intro hz
  have hgt : ¬ NDIRECT + 1 + (bn - NDIRECT) ≤ NDIRECT := by omega
  apply h0
  simp [blk, slotOf_entry (Nat.not_lt.mpr hbn), slotAddr, hgt, hz]

/-- There was a block for every slot up to the one the write stopped in. -/
theorem Written.room (hw : Written sb i src n s ip off tot (tot', off', ip') t k)
    (h0 : blk t.data ip' (off' / BSIZE) ≠ 0) (hlt : off' < stop)
    (hq : (stop - 1) / BSIZE = off' / BSIZE) (hmax : stop ≤ MAXFILE * BSIZE) :
    Room sb (touched off stop) s ip := by
  have hdm := Nat.div_add_mod' (stop - 1) BSIZE
  have hmod : (stop - 1) % BSIZE < BSIZE := Nat.mod_lt _ (by decide)
  have hnone : missing (touched off stop) t ip' = 0 := by
    rw [missing, Finset.card_eq_zero, Finset.filter_eq_empty_iff]
    intro m hm
    rw [touched, Finset.mem_union, Finset.mem_image] at hm
    rcases hm with ⟨bn, hbn, rfl⟩ | hm
    · rw [Finset.mem_filter] at hbn
      have hle : bn ≤ off' / BSIZE := by
        rw [← hq, Nat.le_div_iff_mul_le (by decide)]
        omega
      rcases Nat.lt_or_eq_of_le hle with hlt' | rfl
      · refine hw.filled bn ?_
        have := Nat.mul_le_mul_right BSIZE (Nat.succ_le_of_lt hlt')
        have := block_start off'
        have : 0 < BSIZE := by decide
        rw [Nat.succ_mul] at *
        dsimp only
        omega
      · exact h0
    · split at hm
      · rw [Finset.mem_singleton] at hm
        subst hm
        have hle : NDIRECT ≤ off' / BSIZE := by
          rw [← hq, Nat.le_div_iff_mul_le (by decide)]
          omega
        have hslot : slotAddr t.data ip' NDIRECT = ip'.addrs NDIRECT := by simp [slotAddr]
        rw [hslot]
        exact ind_of_blk hle h0
      · cases hm
  have hspend := hw.spends _ ((covers_touched hmax).mono (Nat.le_refl _)
    (Nat.le_trans (Nat.min_le_right _ _) hlt))
  dsimp only at hspend
  rw [Room]
  omega

/-- The cache after inode i has been changed to ip and its block logged. -/
def Cache.putInode (c : Cache) (sb : Superblock) (i : Nat) (ip : Dinode) : Cache where
  disk := c.disk.put i ip
  home := c.home
  logged := c.logged ++ [iblock sb i]

theorem Clean.putInode (h : Clean sb c) (i : Nat) (ip : Dinode) :
    Clean sb (c.putInode sb i ip) := by
  refine ⟨fun b hb o ho => ?_, fun b hb => ?_, fun j hj => ?_⟩
  · simp only [Cache.putInode, mem_append, not_or] at hb
    exact h.data b hb.1 o ho
  · simp only [Cache.putInode, mem_append, not_or] at hb
    exact h.bitmap b hb.1
  · simp only [Cache.putInode, mem_append, mem_singleton, not_or] at hj
    have hne : j ≠ i := fun he => hj.2 (by rw [he])
    simp only [Cache.putInode, put_inodes_of_ne hne]
    exact h.inodes j hj.1

theorem Clean.spoil_iff (h : Clean sb c) : Clean sb (c.spoil b B) ↔
    b ∈ c.logged ∨ ∀ o < BSIZE, B o = c.home.data b o := by
  constructor
  · intro hc
    by_cases hb : b ∈ c.logged
    · exact .inl hb
    · right
      intro o ho
      have hd := hc.data b hb o ho
      simp only [Cache.spoil, update_self] at hd
      exact hd
  · intro hb
    refine ⟨fun x hx o ho => ?_, h.bitmap, h.inodes⟩
    by_cases hxb : x = b
    · subst hxb
      simp only [Cache.spoil, update_self]
      exact (hb.resolve_left hx) o ho
    · simp only [Cache.spoil, update_of_ne hxb]
      exact h.data x hx o ho

/-- After a write that has stopped in block q, the cache has nothing that is not logged or on the
disk, unless the file had that block, it is not in the log, and one of its bytes has changed. -/
theorem Logs.clean_iff
    (hl : Logs sb n c (c.disk.inodes i) 0 (tot, off', ip') d)
    (hw : Written sb i src n c.disk (c.disk.inodes i) off 0 (tot, off', ip') d.disk k)
    (h : FsOk sb c.disk) (hc : Clean sb c) (ht : (c.disk.inodes i).type ≠ 0) (hlt : tot < n)
    (hk : tot + k = src.length) (ip'' : Dinode) :
    Clean sb (d.putInode sb i ip'') ↔
      (blk c.disk.data (c.disk.inodes i) (off' / BSIZE) ≠ 0 →
        blk c.disk.data (c.disk.inodes i) (off' / BSIZE) ∉ c.logged →
        ∀ pos, pos / BSIZE = off' / BSIZE → off ≤ pos → pos < off + src.length →
          src[pos - off]? = some (fileByte c.disk.data (c.disk.inodes i) pos)) := by
  constructor
  · intro hclean h0 hnot
    have hkeep : blk d.disk.data ip' (off' / BSIZE) =
        blk c.disk.data (c.disk.inodes i) (off' / BSIZE) := hw.grows.keep _ h0
    have hout : blk c.disk.data (c.disk.inodes i) (off' / BSIZE) ∉
        (d.putInode sb i ip'').logged := by
      simp only [Cache.putInode, mem_append, mem_singleton, not_or]
      constructor
      · intro hmem
        rcases hl.old _ h0 hmem with hm | ⟨hpos, hq⟩
        · exact hnot hm
        · have haligned := hw.aligned
          dsimp only at haligned hpos hq
          unfold BSIZE at *
          omega
      · intro he
        have hlo : sb.datastart ≤ blk c.disk.data (c.disk.inodes i) (off' / BSIZE) :=
          (h.owned (owns_eq_some.mpr ⟨ht, rfl, h0⟩)).1
        have hin := (h.inum i ht).2
        have hfit := sb.inodes_fit
        have hdiv := Nat.div_le_div_right (c := IPB) (Nat.le_of_lt hin)
        unfold iblock at he
        unfold Superblock.datastart BPB at hlo
        omega
    apply (hw.block_iff hk h0).mp
    intro o ho
    have hnew := hclean.data _ hout o ho
    simp only [Cache.putInode, put_data, hl.home] at hnew
    rw [hkeep, hnew, hc.data _ hnot o ho]
  · intro hall
    rcases hl.clean hc with hd | ⟨h0, e, B, he, hd⟩
    · exact hd.putInode i ip''
    dsimp only at h0 hd
    generalize hb : blk d.disk.data ip' (off' / BSIZE) = b at h0 hd
    have hhome : e.home = c.home := by
      rw [← hl.home, hd]
      rfl
    have hlog : d.logged = e.logged := by rw [hd]; rfl
    have hgoal : Clean sb ((e.putInode sb i ip'').spoil b B) := by
      rw [(he.putInode i ip'').spoil_iff]
      by_cases hmem : b ∈ (e.putInode sb i ip'').logged
      · exact .inl hmem
      right
      simp only [Cache.putInode, mem_append, not_or, ← hlog] at hmem
      -- a block that this write has allocated is logged
      have hz : blk c.disk.data (c.disk.inodes i) (off' / BSIZE) ≠ 0 := by
        intro hz
        have hf := hl.fresh hz hlt
        dsimp only at hf
        rw [hb] at hf
        exact hmem.1 (hf h0)
      have hkeep : blk d.disk.data ip' (off' / BSIZE) =
          blk c.disk.data (c.disk.inodes i) (off' / BSIZE) := hw.grows.keep _ hz
      have hnot : blk c.disk.data (c.disk.inodes i) (off' / BSIZE) ∉ c.logged := by
        intro hm
        rw [← hkeep, hb] at hm
        exact hmem.1 (hl.more b hm)
      intro o ho
      have hsame := (hw.block_iff hk hz).mpr (hall hz hnot) o ho
      have hB : d.disk.data b o = B o := by
        rw [hd]
        simp [Cache.spoil]
      rw [hb, hB, hc.data _ hnot o ho, ← hkeep, hb, ← hhome] at hsame
      exact hsame
    rw [hd]
    exact hgoal

/-- A write that fails leaves the rest of the file and the cache alone, unless it tears a block. -/
theorem failed_write_leaves_rest_iff (h : FsOk sb c.disk) (hc : Clean sb c)
    (ht : (c.disk.inodes i).type ≠ 0) (src : List Byte) (off n : Nat) :
    Ends (Cache.writei sb i (c.disk.inodes i) src off n) c (fun r d =>
      (r.1 ≠ some n → Leaves sb c i src off (r.1.getD 0) d) ↔ ¬ Tears sb c i src off n) := by
  have hbound : MAXFILE * BSIZE = 274432 := rfl
  have hrefuse : ¬ (off ≤ (c.disk.inodes i).size ∧ off + n ≤ MAXFILE * BSIZE) →
      (((none : Option Nat) ≠ some n → Leaves sb c i src off 0 c) ↔ ¬ Tears sb c i src off n) := by
    intro hno
    refine ⟨fun _ htears => hno ⟨htears.start, htears.fits⟩, fun _ _ => ⟨?_, hc⟩⟩
    rw [take_zero, overwrite_nil]
  unfold Cache.writei
  refine Ends.ite (fun hbad => ?_) (fun hgo => ?_)
  · rw [ends_pure]
    exact hrefuse (by omega)
  refine Ends.ite (fun hbad => ?_) (fun hmax => ?_)
  · rw [ends_pure]
    exact hrefuse (by omega)
  have h' : FsOk sb (c.disk.put i (c.disk.inodes i)) := by rwa [put_self]
  have hstart : off ≤ (c.disk.inodes i).size := by omega
  have hwrite : Ends (writeLoop sb src n n (c.disk.inodes i) off 0) c.disk (fun r t =>
      ∃ k, Written sb i src n c.disk (c.disk.inodes i) off 0 r t k) :=
    writeLoop_written h' ht (fun bn hb => h.filled i ht bn (by omega)) (Nat.zero_le n) (by omega)
      (by omega)
  refine (((writeLoop_mirrors sb src n n _ off 0).ends hwrite).and
    (writeLoop_logs h' ht (by omega) (by omega))).bind (fun r d hr => ?_)
  obtain ⟨tot, off', ip'⟩ := r
  obtain ⟨⟨k, hw⟩, -, -, hl⟩ := hr
  dsimp only at hw ⊢
  rw [ends_bind, Cache.iupdate, ends_bind]
  apply Ends.onBlocks
  rw [iupdate, ends_modify, logWrite, ends_modify, ends_pure]
  change (some tot ≠ some n → Leaves sb c i src off tot (d.putInode sb i _)) ↔ _
  obtain ⟨hreach, hsz, hbytes, -⟩ := hw.result h ht
  have hcopied := hw.copied
  dsimp only at hcopied
  cases hw.stops with
  | done hn hk =>
    subst hn
    refine ⟨fun _ htears => ?_, fun _ hne => absurd rfl hne⟩
    have := htears.short
    omega
  | full hlt hk hf h0 =>
    dsimp only at hlt hf h0
    refine ⟨fun _ htears => ?_, fun _ _ => ⟨?_, ?_⟩⟩
    · have hle : off' < off + src.length + 1 := by omega
      have hend : off + src.length + 1 ≤ MAXFILE * BSIZE := by
        have := htears.short
        omega
      exact hw.not_full hend htears.room hle ⟨hf, h0⟩
    · have hlen : (src.take tot).length = tot := by
        rw [length_take]
        omega
      rw [bytes_eq_map (h.filled i ht), ← map_paste _ _ hstart, hlen]
      rw [hk, Nat.add_zero] at hbytes
      exact hbytes
    · rcases hl.clean hc with hd | ⟨hne, -⟩
      · exact hd.putInode i _
      · exact absurd h0 hne
  | torn hlt hk h0 hs =>
    dsimp only at hlt hk h0 hs
    obtain ⟨hq, htear⟩ := hw.torn_at hs
    have hk' : tot + k = src.length := by omega
    have hroom : Room sb (touched off (off + src.length + 1)) c.disk (c.disk.inodes i) :=
      hw.room h0 (by omega) (by rw [Nat.add_sub_cancel]; exact hq.symm) (by omega)
    have hbytes := hw.bytes_iff h ht hstart hk'
    have hclean := hl.clean_iff hw h hc ht hlt hk' { ip' with size := max ip'.size off' }
    constructor
    · intro hleaves htears
      obtain ⟨hb, hcl⟩ := hleaves (fun he => by
        cases he
        omega)
      obtain ⟨pos, hin, hne, hharm⟩ := htears.harm
      obtain ⟨hlo, hhi⟩ := (htear pos).mp hin
      have hpq : pos / BSIZE = off' / BSIZE := by
        unfold BSIZE at *
        omega
      rcases hharm with hpos | ⟨hz, hnot⟩
      · exact hne (hbytes.mp hb pos hlo hhi hpos)
      · rw [hpq] at hz hnot
        exact hne (hclean.mp hcl hz hnot pos hpq hin.1 hhi)
    · intro hno _
      have hsafe : ∀ pos, off' ≤ pos → pos < off + src.length →
          pos < (c.disk.inodes i).size ∨ blk c.disk.data (c.disk.inodes i) (pos / BSIZE) ≠ 0 ∧
            blk c.disk.data (c.disk.inodes i) (pos / BSIZE) ∉ c.logged →
          src[pos - off]? = some (fileByte c.disk.data (c.disk.inodes i) pos) := by
        intro pos hlo hhi hharm
        by_contra hne
        exact hno ⟨hstart, by omega, by omega, hroom, pos, (htear pos).mpr ⟨hlo, hhi⟩, hne, hharm⟩
      refine ⟨hbytes.mpr (fun pos hlo hhi hpos => hsafe pos hlo hhi (.inl hpos)),
        hclean.mpr (fun hz hnot pos hpq hlo hhi => ?_)⟩
      have hin : InTear src.length off pos := by
        refine ⟨hlo, ?_, hhi⟩
        rw [← hq, ← hpq]
        exact block_start pos
      rw [← hpq] at hz hnot
      exact hsafe pos ((htear pos).mp hin).1 hhi (.inr ⟨hz, hnot⟩)

end

/-- The file /a is created, and hello is written to it. -/
def helloCalls : List Call :=
  [.open 0 [47, 97, 0] 0x201, .write 0 0 [104, 101, 108, 108, 111] 5]

/-- Two bytes of a write of four can be read: nothing is written, but the file has changed, and
its block is neither logged nor what the disk has. -/
theorem torn_write_scribbles : ∃ s r d,
    run (step mkfsSb) (boot fresh) helloCalls = some s ∧
    s.core.disk.bytes 2 = [104, 101, 108, 108, 111] ∧
    (Cache.writei mkfsSb 2 (s.core.disk.inodes 2) [120, 121] 0 4).run
      ⟨s.core.disk, s.core.disk, []⟩ = .ok (r, d) ∧
    r.1 = some 0 ∧ d.disk.bytes 2 = [120, 121, 108, 108, 111] ∧
    47 ∉ d.logged ∧ d.disk.data 47 0 = 120 ∧ d.home.data 47 0 = 104 := by
  obtain ⟨s, hs, hbytes, hd⟩ : ∃ s, run (step mkfsSb) (boot fresh) helloCalls = some s ∧
      s.core.disk.bytes 2 = [104, 101, 108, 108, 111] ∧
      ((Cache.writei mkfsSb 2 (s.core.disk.inodes 2) [120, 121] 0 4).run
        ⟨s.core.disk, s.core.disk, []⟩).toOption.any (fun q => decide (q.1.1 = some 0 ∧
          q.2.disk.bytes 2 = [120, 121, 108, 108, 111] ∧ 47 ∉ q.2.logged ∧
          q.2.disk.data 47 0 = 120 ∧ q.2.home.data 47 0 = 104)) = true := by decide +kernel
  obtain ⟨q, hq, hres⟩ := ok_of_any hd
  exact ⟨s, q.1, q.2, hs, hbytes, hq, of_decide_eq_true hres⟩

/-- Two bytes of a write of four can be read, and they are those of the file. -/
theorem failed_write_leaves_rest_hello : ∃ s r d,
    run (step mkfsSb) (boot fresh) helloCalls = some s ∧
    (Cache.writei mkfsSb 2 (s.core.disk.inodes 2) [104, 101] 0 4).run
      ⟨s.core.disk, s.core.disk, []⟩ = .ok (r, d) ∧ r.1 = some 0 ∧
    Leaves mkfsSb ⟨s.core.disk, s.core.disk, []⟩ 2 [104, 101] 0 0 d := by
  obtain ⟨s, hs, ht, hsame, h0⟩ : ∃ s, run (step mkfsSb) (boot fresh) helloCalls = some s ∧
      (s.core.disk.inodes 2).type ≠ 0 ∧ (∀ pos < 2, ([104, 101] : List Byte)[pos - 0]? =
        some (fileByte s.core.disk.data (s.core.disk.inodes 2) pos)) ∧
      ((Cache.writei mkfsSb 2 (s.core.disk.inodes 2) [104, 101] 0 4).run
        ⟨s.core.disk, s.core.disk, []⟩).toOption.map (·.1.1) = some (some 0) := by decide +kernel
  obtain ⟨e, hmid⟩ := (sysOk_run fresh_consistent hs).mid
  obtain ⟨r, d, hr, hiff⟩ := failed_write_leaves_rest_iff
    (c := ⟨s.core.disk, s.core.disk, []⟩) hmid.core.fs
    ⟨fun _ _ _ _ => rfl, fun _ _ => rfl, fun _ _ => rfl⟩ ht [104, 101] 0 4
  rw [hr] at h0
  have hr0 : r.1 = some 0 := Option.some.inj h0
  have hleaves := hiff.mpr fun htears =>
    let ⟨pos, hin, hne, _⟩ := htears.harm
    hne (hsame pos hin.2.2)
  rw [hr0] at hleaves
  exact ⟨s, r, d, hs, hr, hr0, hleaves (by decide)⟩

end Xv6.Fs
