import Xv6.Fs.Write

namespace Xv6.Fs
open Function List Lib

/-- The file system as the buffer cache has it, the disk below it, and the blocks that the running
transaction has given to log_write(). -/
structure Cache where
  disk : Disk
  home : Disk
  logged : List Nat

abbrev Ck := Prog Cache Panic

def onBlocks (m : Dk α) : Ck α := zoom Cache.disk (fun c d => { c with disk := d }) m

/-- The block of the bitmap with the bit of block b. -/
def bblock (sb : Superblock) (b : Nat) : Nat := b / BPB + sb.bmapstart

/-- The block with inode i. -/
def iblock (sb : Superblock) (i : Nat) : Nat := i / IPB + sb.inodestart

def logWrite (b : Nat) : Ck Unit := modify (fun c => { c with logged := c.logged ++ [b] })

namespace Cache

def bzero (b : Nat) : Ck Unit := do
  onBlocks (modify (fun d => { d with data := update d.data b (fun _ => 0) }))
  logWrite b

def balloc (sb : Superblock) : Ck Nat := do
  let d ← onBlocks get
  match (List.range sb.size).find? (fun b => !d.bitmap b) with
  | some b => do
    onBlocks (modify (fun d => { d with bitmap := update d.bitmap b true }))
    logWrite (bblock sb b)
    bzero b
    return b
  | none => return 0

def loadAddr (sb : Superblock) (ip : Dinode) (k : Nat) : Ck (Nat × Dinode) :=
  if ip.addrs k = 0 then do
    let addr ← balloc sb
    if addr = 0 then return (0, ip)
    else return (addr, { ip with addrs := update ip.addrs k addr })
  else return (ip.addrs k, ip)

def loadEntry (sb : Superblock) (ind n : Nat) : Ck Nat := do
  let d ← onBlocks get
  if word (d.data ind) n = 0 then do
    let addr ← balloc sb
    if addr = 0 then return 0
    else do
      onBlocks (modify (fun d => { d with
        data := update d.data ind (putWord (d.data ind) n addr) }))
      logWrite ind
      return addr
  else return word (d.data ind) n

def bmap (sb : Superblock) (ip : Dinode) (bn : Nat) : Ck (Nat × Dinode) :=
  if bn < NDIRECT then loadAddr sb ip bn
  else if bn - NDIRECT < NINDIRECT then do
    let (ind, ip) ← loadAddr sb ip NDIRECT
    if ind = 0 then return (0, ip)
    else do
      let addr ← loadEntry sb ind (bn - NDIRECT)
      return (addr, ip)
  else throw .outOfRange

/-- The block is logged only when either_copyin() succeeds. -/
def writeLoop (sb : Superblock) (src : List Byte) (n : Nat) :
    Nat → Dinode → Nat → Nat → Ck (Nat × Nat × Dinode)
  | 0, ip, off, tot => return (tot, off, ip)
  | fuel + 1, ip, off, tot =>
    if tot < n then do
      let (addr, ip) ← bmap sb ip (off / BSIZE)
      if addr = 0 then return (tot, off, ip)
      else do
        let m := min (n - tot) (BSIZE - off % BSIZE)
        let chunk := (src.drop tot).take m
        onBlocks (modify (fun d => { d with
          data := update d.data addr (paste (d.data addr) (off % BSIZE) chunk) }))
        if chunk.length < m then return (tot, off, ip)
        else do
          logWrite addr
          writeLoop sb src n fuel ip (off + m) (tot + m)
    else return (tot, off, ip)

def iupdate (sb : Superblock) (inum : Nat) (ip : Dinode) : Ck Unit := do
  onBlocks (Fs.iupdate inum ip)
  logWrite (iblock sb inum)

def writei (sb : Superblock) (inum : Nat) (ip : Dinode) (src : List Byte) (off n : Nat) :
    Ck (Option Nat × Dinode) :=
  if ip.size < off ∨ (off + n) % 4294967296 < off then return (none, ip)
  else if MAXFILE * BSIZE < off + n then return (none, ip)
  else do
    let (tot, off, ip) ← writeLoop sb src n n ip off 0
    iupdate sb inum { ip with size := max ip.size off }
    return (some tot, { ip with size := max ip.size off })

end Cache

/-- A block that has not been given to the log is in the cache as it is on the disk. -/
structure Clean (sb : Superblock) (c : Cache) : Prop where
  data : ∀ b ∉ c.logged, ∀ o < BSIZE, c.disk.data b o = c.home.data b o
  bitmap : ∀ b, bblock sb b ∉ c.logged → c.disk.bitmap b = c.home.bitmap b
  inodes : ∀ i, iblock sb i ∉ c.logged → c.disk.inodes i = c.home.inodes i

/-- The cache after balloc() has taken block b. -/
def Cache.taken (c : Cache) (sb : Superblock) (b : Nat) : Cache where
  disk := c.disk.taken b
  home := c.home
  logged := c.logged ++ [bblock sb b, b]

/-- The cache after block b has been changed to B and logged. -/
def Cache.putBlock (c : Cache) (b : Nat) (B : Block) : Cache where
  disk := { c.disk with data := update c.disk.data b B }
  home := c.home
  logged := c.logged ++ [b]

section
variable {sb : Superblock} {c d e : Cache} {ip ip' ip'' : Dinode}

theorem Clean.taken (h : Clean sb c) (b : Nat) : Clean sb (c.taken sb b) := by
  refine ⟨fun x hx o ho => ?_, fun x hx => ?_, fun i hi => ?_⟩
  · simp only [Cache.taken, mem_append, mem_cons, not_mem_nil, or_false,
      not_or] at hx
    simp only [Cache.taken, Disk.taken, update_of_ne hx.2.2]
    exact h.data x hx.1 o ho
  · simp only [Cache.taken, mem_append, mem_cons, not_mem_nil, or_false,
      not_or] at hx
    have hne : x ≠ b := fun he => hx.2.1 (by rw [he])
    simp only [Cache.taken, Disk.taken, update_of_ne hne]
    exact h.bitmap x hx.1
  · simp only [Cache.taken, mem_append, not_or] at hi
    exact h.inodes i hi.1

theorem Clean.putBlock (h : Clean sb c) (b : Nat) (B : Block) : Clean sb (c.putBlock b B) := by
  refine ⟨fun x hx o ho => ?_, fun x hx => ?_, fun i hi => ?_⟩
  · simp only [Cache.putBlock, mem_append, mem_singleton, not_or] at hx
    simp only [Cache.putBlock, update_of_ne hx.2]
    exact h.data x hx.1 o ho
  · simp only [Cache.putBlock, mem_append, not_or] at hx
    exact h.bitmap x hx.1
  · simp only [Cache.putBlock, mem_append, not_or] at hi
    exact h.inodes i hi.1

theorem Ends.onBlocks {m : Dk α} {Q : α → Cache → Prop}
    (h : Ends m c.disk (fun a t => Q a { c with disk := t })) : Ends (onBlocks m) c Q := h.zoom

theorem balloc_taken (sb : Superblock) (c : Cache) : Ends (Cache.balloc sb) c (fun a d =>
    a = 0 ∧ d = c ∨ d = c.taken sb a) := by
  rw [Cache.balloc, ends_bind]
  apply Ends.onBlocks
  rw [ends_get]
  split
  · rw [ends_bind]
    apply Ends.onBlocks
    rw [ends_modify, ends_bind, logWrite, ends_modify, Cache.bzero, ends_bind, ends_bind]
    apply Ends.onBlocks
    rw [ends_modify, logWrite, ends_modify, ends_pure]
    right
    simp [Cache.taken, Disk.taken]
  · rw [ends_pure]
    exact .inl ⟨rfl, rfl⟩

/-- What bmap() has done when it returns a for slot k: the blocks it has given to the log. -/
structure Maps (sb : Superblock) (k : Nat) (c : Cache) (ip : Dinode) (a : Nat) (d : Cache)
    (ip' : Dinode) (L : List Nat) : Prop where
  log : d.logged = c.logged ++ L
  home : d.home = c.home
  clean : Clean sb c → Clean sb d
  ind : ip.addrs NDIRECT ≠ 0 → ip'.addrs NDIRECT = ip.addrs NDIRECT
  mem : ∀ x ∈ L, x = a ∨ x = bblock sb a ∨
    ip'.addrs NDIRECT ≠ 0 ∧ (x = ip'.addrs NDIRECT ∨ x = bblock sb (ip'.addrs NDIRECT))
  known : slotAddr c.disk.data ip k ≠ 0 → L = [] ∧ d = c ∧ ip' = ip
  fresh : slotAddr c.disk.data ip k = 0 → a ≠ 0 → a ∈ L

theorem Maps.refl (hk : slotAddr c.disk.data ip k = 0 → a = 0) : Maps sb k c ip a c ip [] :=
  ⟨by simp, rfl, id, fun _ => rfl, by simp, fun _ => ⟨rfl, rfl, rfl⟩,
    fun h0 ha => absurd (hk h0) ha⟩

theorem Maps.taken (h0 : slotAddr c.disk.data ip k = 0)
    (hind : ip.addrs NDIRECT ≠ 0 → ip'.addrs NDIRECT = ip.addrs NDIRECT) :
    Maps sb k c ip a (c.taken sb a) ip' [bblock sb a, a] := by
  refine ⟨rfl, rfl, fun h => h.taken a, hind, ?_, fun h => absurd h0 h, fun _ _ => by simp⟩
  intro x hx
  simp only [mem_cons, not_mem_nil, or_false] at hx
  rcases hx with rfl | rfl
  · exact .inr (.inl rfl)
  · exact .inl rfl

theorem loadAddr_maps (sb : Superblock) (c : Cache) (ip : Dinode) (hk : k ≤ NDIRECT) :
    Ends (Cache.loadAddr sb ip k) c (fun r d => r.2.addrs k = r.1 ∧
      (ip.addrs k = 0 → r.1 ≠ 0 → d.disk.data r.1 = fun _ => 0) ∧
      ∃ L, Maps sb k c ip r.1 d r.2 L) := by
  have hslot : slotAddr c.disk.data ip k = ip.addrs k := by simp [slotAddr, hk]
  unfold Cache.loadAddr
  refine Ends.ite (fun h0 => ?_) (fun h0 => ?_)
  · refine (balloc_taken sb c).bind (fun a d hd => ?_)
    have hk0 := hslot.trans h0
    refine Ends.ite (fun ha => ?_) (fun ha => ?_)
    · rw [ends_pure]
      refine ⟨h0, fun _ h => absurd rfl h, ?_⟩
      rcases hd with ⟨-, rfl⟩ | rfl
      · exact ⟨[], .refl (fun _ => rfl)⟩
      · rw [ha]
        exact ⟨_, .taken hk0 (fun _ => rfl)⟩
    · rw [ends_pure]
      rcases hd with ⟨ha0, -⟩ | rfl
      · exact absurd ha0 ha
      · refine ⟨update_self .., fun _ _ => update_self .., _,
          .taken hk0 (fun hind => ?_)⟩
        rcases eq_or_ne NDIRECT k with rfl | hne
        · exact absurd h0 hind
        · exact update_of_ne hne _ _
  · rw [ends_pure]
    exact ⟨rfl, fun h => absurd h h0, [], .refl (fun h => absurd (hslot.symm.trans h) h0)⟩

theorem loadEntry_maps (sb : Superblock) (c : Cache) (hn : n < NINDIRECT)
    (hind : ip.addrs NDIRECT ≠ 0) :
    Ends (Cache.loadEntry sb (ip.addrs NDIRECT) n) c (fun a d =>
      ∃ L, Maps sb (NDIRECT + 1 + n) c ip a d ip L) := by
  have hslot : slotAddr c.disk.data ip _ = _ := slotAddr_entry hn hind
  rw [Cache.loadEntry, ends_bind]
  apply Ends.onBlocks
  rw [ends_get]
  refine Ends.ite (fun h0 => ?_) (fun h0 => ?_)
  · refine (balloc_taken sb c).bind (fun a d hd => ?_)
    have hk0 := hslot.trans h0
    refine Ends.ite (fun ha => ?_) (fun ha => ?_)
    · rw [ends_pure]
      rcases hd with ⟨-, rfl⟩ | rfl
      · exact ⟨[], .refl (fun _ => rfl)⟩
      · rw [ha]
        exact ⟨_, .taken hk0 (fun _ => rfl)⟩
    rcases hd with ⟨ha0, -⟩ | rfl
    · exact absurd ha0 ha
    rw [ends_bind]
    apply Ends.onBlocks
    rw [ends_modify, ends_bind, logWrite, ends_modify, ends_pure]
    refine ⟨[bblock sb a, a, ip.addrs NDIRECT], ?_, rfl, ?_, fun _ => rfl, ?_,
      fun h => absurd hk0 h, fun _ _ => by simp⟩
    · simp [Cache.taken]
    · exact fun h => (h.taken a).putBlock _ _
    · intro x hx
      simp only [mem_cons, not_mem_nil, or_false] at hx
      rcases hx with rfl | rfl | rfl
      · exact .inr (.inl rfl)
      · exact .inl rfl
      · exact .inr (.inr ⟨hind, .inl rfl⟩)
  · rw [ends_pure]
    exact ⟨[], .refl (fun h => absurd (hslot.symm.trans h) h0)⟩

theorem bmap_maps (sb : Superblock) (c : Cache) (ip : Dinode) (hbn : bn < MAXFILE) :
    Ends (Cache.bmap sb ip bn) c (fun r d => ∃ L, Maps sb (slotOf bn) c ip r.1 d r.2 L) := by
  unfold Cache.bmap
  refine Ends.ite (fun hd => ?_) (fun hd => ?_)
  · rw [slotOf_direct hd]
    exact (loadAddr_maps sb c ip (Nat.le_of_lt hd)).mono (fun _ _ h => h.2.2)
  have hn : bn - NDIRECT < NINDIRECT := by
    unfold MAXFILE at hbn
    omega
  rw [if_pos hn]
  refine (loadAddr_maps sb c ip (Nat.le_refl NDIRECT)).bind (fun r d h1 => ?_)
  obtain ⟨ind, ip1⟩ := r
  obtain ⟨hthere, hzero, L, h1⟩ := h1
  dsimp only at hthere hzero h1 ⊢
  have hslot : slotAddr c.disk.data ip NDIRECT = ip.addrs NDIRECT := by simp [slotAddr]
  -- an entry can be there only if the indirect block is
  have hnone : ip.addrs NDIRECT = 0 → slotAddr c.disk.data ip (slotOf bn) = 0 := by
    intro h0
    have hgt : ¬ NDIRECT + 1 + (bn - NDIRECT) ≤ NDIRECT := by omega
    simp [slotOf_entry hd, slotAddr, hgt, h0]
  have hknown : slotAddr c.disk.data ip (slotOf bn) ≠ 0 → L = [] ∧ d = c ∧ ip1 = ip := by
    intro hs
    exact h1.known (by rw [hslot]; exact fun h0 => hs (hnone h0))
  refine Ends.ite (fun h0 => ?_) (fun h0 => ?_)
  · rw [ends_pure]
    subst h0
    exact ⟨L, h1.log, h1.home, h1.clean, h1.ind, h1.mem, hknown, fun _ h => absurd rfl h⟩
  subst hthere
  refine (loadEntry_maps sb d hn h0).bind (fun a e h2 => ?_)
  obtain ⟨L', h2⟩ := h2
  rw [ends_pure]
  rw [slotOf_entry hd] at hknown ⊢
  have hsame : slotAddr c.disk.data ip (NDIRECT + 1 + (bn - NDIRECT)) = 0 →
      slotAddr d.disk.data ip1 (NDIRECT + 1 + (bn - NDIRECT)) = 0 := by
    intro hs
    by_cases hi : ip.addrs NDIRECT = 0
    · have hgt : ¬ NDIRECT + 1 + (bn - NDIRECT) ≤ NDIRECT := by omega
      simpa [slotAddr, hgt, hzero hi h0] using fun _ _ => word_zero _
    · obtain ⟨-, rfl, rfl⟩ := h1.known (by rw [hslot]; exact hi)
      exact hs
  refine ⟨L ++ L', ?_, h2.home.trans h1.home, fun h => h2.clean (h1.clean h), h1.ind, ?_, ?_,
    ?_⟩
  · rw [h2.log, h1.log, append_assoc]
  · intro x hx
    rcases mem_append.mp hx with hx | hx
    · right
      right
      rcases h1.mem x hx with h | h | h
      · exact ⟨h0, .inl h⟩
      · exact ⟨h0, .inr h⟩
      · exact h
    · exact h2.mem x hx
  · intro hs
    obtain ⟨rfl, rfl, rfl⟩ := hknown hs
    obtain ⟨rfl, rfl, -⟩ := h2.known hs
    exact ⟨rfl, rfl, rfl⟩
  · intro hs ha
    exact mem_append_right _ (h2.fresh (hsame hs) ha)

/-- What the loop of writei() has given to the log: the blocks in A, the bitmap blocks of those in
N, the indirect block and its bitmap block. The blocks in A hold len bytes from off on, and a first
block that is there is not in N. -/
structure Touches (sb : Superblock) (c : Cache) (ip : Dinode) (off len : Nat) (d : Cache)
    (ip' : Dinode) (A N L : List Nat) : Prop where
  log : d.logged = c.logged ++ L
  ind : ip.addrs NDIRECT ≠ 0 → ip'.addrs NDIRECT = ip.addrs NDIRECT
  mem : ∀ x ∈ L, x ∈ A ∨ x ∈ N.map (bblock sb) ∨
    ip'.addrs NDIRECT ≠ 0 ∧ (x = ip'.addrs NDIRECT ∨ x = bblock sb (ip'.addrs NDIRECT))
  blocks : A.length * BSIZE < off % BSIZE + len + BSIZE
  none : len = 0 → A = []
  fresh : N.length ≤ A.length
  known : blk c.disk.data ip (off / BSIZE) ≠ 0 → N = [] ∨ N.length < A.length

theorem Touches.refl (sb : Superblock) (c : Cache) (ip : Dinode) (off len : Nat) :
    Touches sb c ip off len c ip [] [] [] := by
  refine ⟨by simp, fun _ => rfl, by simp, ?_, fun _ => rfl, Nat.le_refl _, fun _ => .inl rfl⟩
  have : 0 < BSIZE := by decide
  simp
  omega

theorem Maps.touches (h : Maps sb (slotOf (off / BSIZE)) c ip a d ip' L) (hlen : 0 < len) :
    ∃ N, Touches sb c ip off len d ip' [a] N L := by
  have hblocks : [a].length * BSIZE < off % BSIZE + len + BSIZE := by
    simp
    omega
  have hnone : len = 0 → [a] = [] := fun h0 => by omega
  by_cases hk : blk c.disk.data ip (off / BSIZE) = 0
  · refine ⟨[a], h.log, h.ind, ?_, hblocks, hnone, Nat.le_refl _, fun hn => absurd hk hn⟩
    intro x hx
    rcases h.mem x hx with rfl | rfl | hi
    · exact .inl (by simp)
    · exact .inr (.inl (by simp))
    · exact .inr (.inr hi)
  · obtain ⟨rfl, -, -⟩ := h.known hk
    exact ⟨[], h.log, h.ind, by simp, hblocks, hnone, Nat.zero_le _, fun _ => .inl rfl⟩

/-- One turn of the loop, which writes m bytes to block a, and the turns after it. -/
theorem Touches.cons (h : Touches sb c ip off len d ip' [a] N L)
    (hd : d'.logged = d.logged ++ [a]) (hm : m = min len (BSIZE - off % BSIZE))
    (h' : Touches sb d' ip' (off + m) (len - m) e ip'' A' N' L') :
    Touches sb c ip off len e ip'' (a :: A') (N ++ N') (L ++ [a] ++ L') := by
  have hlen := h.fresh
  have hlen' := h'.fresh
  simp only [length_cons, length_nil] at hlen
  refine ⟨?_, ?_, ?_, ?_, ?_, ?_, ?_⟩
  · rw [h'.log, hd, h.log, append_assoc, append_assoc, append_assoc]
  · intro hi
    rw [h'.ind (by rw [h.ind hi]; exact hi), h.ind hi]
  · intro x hx
    rw [map_append, mem_append, mem_cons]
    rw [mem_append, mem_append, mem_singleton] at hx
    rcases hx with (hx | hx) | hx
    · rcases h.mem x hx with ha | hn | ⟨h0, hi⟩
      · exact .inl (.inl (mem_singleton.mp ha))
      · exact .inr (.inl (.inl hn))
      · have hkeep := h'.ind h0
        rw [← hkeep] at h0 hi
        exact .inr (.inr ⟨h0, hi⟩)
    · exact .inl (.inl hx)
    · rcases h'.mem x hx with ha | hn | hi
      · exact .inl (.inr ha)
      · exact .inr (.inl (.inr hn))
      · exact .inr (.inr hi)
  · have hb := h'.blocks
    have hmod : off % BSIZE < BSIZE := Nat.mod_lt _ (by decide)
    rw [length_cons, Nat.add_mul, Nat.one_mul]
    rcases Nat.lt_or_ge len (BSIZE - off % BSIZE) with hlt | hge
    · have h0 := h.blocks
      rw [h'.none (by omega)]
      simp only [length_cons, length_nil, Nat.zero_add, Nat.one_mul, Nat.zero_mul] at h0 ⊢
      exact h0
    · have hz : (off + m) % BSIZE = 0 := by
        unfold BSIZE at *
        omega
      omega
  · intro h0
    have := h.none h0
    simp at this
  · rw [length_append, length_cons]
    omega
  · intro hk
    right
    rw [length_append, length_cons]
    rcases h.known hk with rfl | h0
    · simp only [length_nil]
      omega
    · simp only [length_cons, length_nil] at h0
      omega

theorem writeLoop_touches (sb : Superblock) (c : Cache) (ip : Dinode) (src : List Byte)
    (hend : off + (n - tot) ≤ MAXFILE * BSIZE) :
    Ends (Cache.writeLoop sb src n fuel ip off tot) c (fun r d =>
      ∃ A N L, Touches sb c ip off (n - tot) d r.2.2 A N L) := by
  induction fuel generalizing c ip off tot with
  | zero =>
    rw [Cache.writeLoop, ends_pure]
    exact ⟨[], [], [], .refl sb c ip off _⟩
  | succ fuel ih =>
    rw [Cache.writeLoop]
    refine Ends.ite (fun hlt => ?_) (fun _ => ?_)
    · have hbn : off / BSIZE < MAXFILE :=
        Nat.div_lt_of_lt_mul (by rw [Nat.mul_comm]; omega)
      refine (bmap_maps sb c ip hbn).bind (fun r d h1 => ?_)
      obtain ⟨a, ip1⟩ := r
      obtain ⟨L, h1⟩ := h1
      dsimp only at h1 ⊢
      obtain ⟨N, h1⟩ := h1.touches (show 0 < n - tot by omega)
      refine Ends.ite (fun h0 => ?_) (fun h0 => ?_)
      · rw [ends_pure]
        exact ⟨[a], N, L, h1⟩
      rw [ends_bind]
      apply Ends.onBlocks
      rw [ends_modify]
      refine Ends.ite (fun _ => ?_) (fun _ => ?_)
      · rw [ends_pure]
        exact ⟨[a], N, L, h1.log, h1.ind, h1.mem, h1.blocks, h1.none, h1.fresh, h1.known⟩
      · rw [ends_bind, logWrite, ends_modify]
        generalize hm : min (n - tot) (BSIZE - off % BSIZE) = m
        refine (ih _ ip1 (by omega)).mono (fun r e h2 => ?_)
        obtain ⟨A', N', L', h2⟩ := h2
        rw [Nat.sub_add_eq] at h2
        exact ⟨_, _, _, h1.cons rfl hm.symm h2⟩
    · rw [ends_pure]
      exact ⟨[], [], [], .refl sb c ip off _⟩

theorem dedup_length_le {L M : List Nat} (h : ∀ x ∈ L, x ∈ M) : L.dedup.length ≤ M.length :=
  (nodup_dedup L).subperm (fun x hx => h x (mem_dedup.mp hx)) |>.length_le

/-- A chunk of filewrite() fits in what begin_op() has reserved for it. -/
theorem write_chunk_fits_reservation (sb : Superblock) (c : Cache) (inum : Nat) (ip : Dinode)
    (src : List Byte) (hfill : ∀ bn, bn * BSIZE < ip.size → blk c.disk.data ip bn ≠ 0)
    (hoff : off ≤ ip.size) (hn : n ≤ writeMax) :
    Ends (Cache.writei sb inum ip src off n) c (fun _ d =>
      ∃ L, d.logged = c.logged ++ L ∧ L.dedup.length ≤ MAXOPBLOCKS) := by
  unfold Cache.writei
  refine Ends.ite (fun _ => ?_) (fun _ => ?_)
  · rw [ends_pure]
    exact ⟨[], by simp, by decide⟩
  refine Ends.ite (fun _ => ?_) (fun hmax => ?_)
  · rw [ends_pure]
    exact ⟨[], by simp, by decide⟩
  refine (writeLoop_touches sb c ip src (by omega)).bind (fun r d h => ?_)
  obtain ⟨A, N, L, h⟩ := h
  dsimp only
  rw [ends_bind, Cache.iupdate, ends_bind]
  apply Ends.onBlocks
  rw [iupdate, ends_modify, logWrite, ends_modify, ends_pure]
  refine ⟨L ++ [iblock sb inum], ?_, ?_⟩
  · rw [h.log, append_assoc]
  have hlen := dedup_length_le (L := L ++ [iblock sb inum])
    (M := A ++ N.map (bblock sb) ++ [r.2.2.addrs NDIRECT, bblock sb (r.2.2.addrs NDIRECT),
      iblock sb inum]) (fun x hx => ?_)
  · have hblocks := h.blocks
    have hfresh := h.fresh
    -- the first block of a write that does not start at a block is there
    have hfirst : 0 < off % BSIZE → N.length = 0 ∨ N.length < A.length := by
      intro hpos
      have hdm := Nat.div_add_mod' off BSIZE
      exact (h.known (hfill _ (by omega))).imp_left (fun h0 => by rw [h0]; rfl)
    simp only [length_append, length_map, length_cons, length_nil] at hlen
    unfold MAXOPBLOCKS
    unfold writeMax MAXOPBLOCKS at hn
    unfold BSIZE at *
    omega
  · rw [mem_append, mem_singleton] at hx
    rcases hx with hx | rfl
    · rcases h.mem x hx with ha | hn | ⟨-, rfl | rfl⟩
      · simp [ha]
      · simp only [mem_append]
        exact .inl (.inr hn)
      · simp
      · simp
    · simp

end

theorem write_chunk_fits_reservation_three : ∃ r d,
    (Cache.writei mkfsSb 1 freshRoot (List.replicate 3072 7) 1000 3072).run ⟨fresh, fresh, []⟩ =
      .ok (r, d) ∧ ∃ L, d.logged = L ∧ L.dedup.length ≤ MAXOPBLOCKS :=
  write_chunk_fits_reservation mkfsSb ⟨fresh, fresh, []⟩ 1 freshRoot (List.replicate 3072 7)
    (fun bn hb => by
      have hsz : freshRoot.size = BSIZE := rfl
      obtain rfl : bn = 0 := by
        rw [hsz] at hb
        unfold BSIZE at hb
        omega
      decide) (by decide) (by decide)

end Xv6.Fs
