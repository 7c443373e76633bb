import Xv6.Fs.Disk
import Xv6.Lib.Outcome
import Xv6.Lib.Holders
import Mathlib.Data.Finset.Card
import Mathlib.Data.Finset.Range

namespace Xv6.Fs

open Function Lib

theorem word_zero (n : Nat) : word (fun _ => 0) n = 0 := rfl

theorem word_putWord_self (b : Block) (n : Nat) (hv : v < 4294967296) :
    word (putWord b n v) n = v := by
  have h0 : (4 * n) / 4 = n ∧ (4 * n) % 4 = 0 := by omega
  have h1 : (4 * n + 1) / 4 = n ∧ (4 * n + 1) % 4 = 1 := by omega
  have h2 : (4 * n + 2) / 4 = n ∧ (4 * n + 2) % 4 = 2 := by omega
  have h3 : (4 * n + 3) / 4 = n ∧ (4 * n + 3) % 4 = 3 := by omega
  simp only [word, putWord, h0, h1, h2, h3, if_true, BitVec.toNat_ofNat, Nat.reducePow]
  omega

theorem word_putWord_ne (b : Block) (v : Nat) (hne : m ≠ n) :
    word (putWord b n v) m = word b m := by
  have h0 : (4 * m) / 4 ≠ n := by omega
  have h1 : (4 * m + 1) / 4 ≠ n := by omega
  have h2 : (4 * m + 2) / 4 ≠ n := by omega
  have h3 : (4 * m + 3) / 4 ≠ n := by omega
  simp only [word, putWord, h0, h1, h2, h3, if_false]

/-- The address in slot k of an inode: its direct addresses, its indirect block at NDIRECT, then
the entries of that block. -/
def slotAddr (data : Nat → Block) (ip : Dinode) (k : Nat) : Nat :=
  if k ≤ NDIRECT then ip.addrs k
  else if k ≤ NDIRECT + NINDIRECT ∧ ip.addrs NDIRECT ≠ 0 then
    word (data (ip.addrs NDIRECT)) (k - NDIRECT - 1)
  else 0

theorem slotAddr_le (hk : k ≤ NDIRECT) : slotAddr data ip k = ip.addrs k := by simp [slotAddr, hk]

theorem slotAddr_entry (hn : n < NINDIRECT) (hi : ip.addrs NDIRECT ≠ 0) :
    slotAddr data ip (NDIRECT + 1 + n) = word (data (ip.addrs NDIRECT)) n := by
  have hgt : ¬ NDIRECT + 1 + n ≤ NDIRECT := by omega
  have hle : NDIRECT + 1 + n ≤ NDIRECT + NINDIRECT := by omega
  have hsub : NDIRECT + 1 + n - NDIRECT - 1 = n := by omega
  simp [slotAddr, hgt, hle, hsub, hi]

/-- The slot of block bn of a file. -/
def slotOf (bn : Nat) : Nat := if bn < NDIRECT then bn else bn + 1

def blk (data : Nat → Block) (ip : Dinode) (bn : Nat) : Nat := slotAddr data ip (slotOf bn)

/-- The block in slot k of the allocated inode i. -/
def Disk.owns (s : Disk) (q : Nat × Nat) : Option Nat :=
  if (s.inodes q.1).type = 0 ∨ slotAddr s.data (s.inodes q.1) q.2 = 0 then none
  else some (slotAddr s.data (s.inodes q.1) q.2)

/-- A consistent image: block ownership, no holes, whole directory entries. -/
structure FsOk (sb : Superblock) (s : Disk) : Prop where
  inum : ∀ i, (s.inodes i).type ≠ 0 → 1 ≤ i ∧ i < sb.ninodes
  marks : Marks s.owns (fun b => sb.datastart ≤ b ∧ b < sb.size ∧ s.bitmap b = true)
  reserved : ∀ b < sb.datastart, s.bitmap b = true
  filled : ∀ i, (s.inodes i).type ≠ 0 → ∀ bn, bn * BSIZE < (s.inodes i).size →
    blk s.data (s.inodes i) bn ≠ 0
  size_le : ∀ i, (s.inodes i).type ≠ 0 → (s.inodes i).size ≤ MAXFILE * BSIZE
  dirs : ∀ i, (s.inodes i).type = T_DIR → (s.inodes i).size % direntSize = 0

/-- The number of free blocks. -/
def freeCount (sb : Superblock) (s : Disk) : Nat :=
  ((Finset.range sb.size).filter (fun b => s.bitmap b = false)).card

/-- The number of slots in S without a block. -/
def missing (S : Finset Nat) (s : Disk) (ip : Dinode) : Nat :=
  (S.filter (fun k => slotAddr s.data ip k = 0)).card

/-- No block is left. -/
def Full (sb : Superblock) (s : Disk) : Prop := ∀ b < sb.size, s.bitmap b = true

theorem slotAddr_congr (ha : ip'.addrs = ip.addrs)
    (hd : ip.addrs NDIRECT ≠ 0 → data' (ip.addrs NDIRECT) = data (ip.addrs NDIRECT)) (k : Nat) :
    slotAddr data' ip' k = slotAddr data ip k := by
  unfold slotAddr
  rw [ha]
  by_cases h0 : ip.addrs NDIRECT = 0
  · simp [h0]
  · rw [hd h0]

theorem owns_eq_some {s : Disk} : s.owns (i, k) = some b ↔
    (s.inodes i).type ≠ 0 ∧ slotAddr s.data (s.inodes i) k = b ∧ b ≠ 0 := by
  unfold Disk.owns
  by_cases ht : (s.inodes i).type = 0
  · simp [ht]
  by_cases hz : slotAddr s.data (s.inodes i) k = 0
  · simp only [hz, or_true, if_true, ht, ne_eq, not_false_eq_true, true_and]
    constructor
    · intro h
      cases h
    · rintro ⟨rfl, hb⟩
      exact absurd rfl hb
  · simp only [ht, hz, or_self, if_false, Option.some.injEq, ne_eq, not_false_eq_true, true_and]
    constructor
    · rintro rfl
      exact ⟨rfl, hz⟩
    · exact fun h => h.1

section
variable {sb : Superblock} {s t : Disk} {ip : Dinode}

@[simp]
theorem put_inodes_self : (s.put i ip).inodes i = ip := by simp [Disk.put]

theorem put_inodes_of_ne (h : j ≠ i) : (s.put i ip).inodes j = s.inodes j := by simp [Disk.put, h]

@[simp]
theorem put_data : (s.put i ip).data = s.data := rfl

@[simp]
theorem put_bitmap : (s.put i ip).bitmap = s.bitmap := rfl

theorem put_self : s.put i (s.inodes i) = s := by simp [Disk.put]

/-- What an inode owns lies in the data area and is marked. -/
theorem FsOk.owned (h : FsOk sb s) (ho : s.owns q = some b) :
    sb.datastart ≤ b ∧ b < sb.size ∧ s.bitmap b = true := (h.marks.marked b).mpr ⟨q, ho⟩

theorem slot_owned (ht : ip.type ≠ 0) (hk : slotAddr s.data ip k ≠ 0) :
    (s.put i ip).owns (i, k) = some (slotAddr s.data ip k) := by
  rw [owns_eq_some]
  simpa using ⟨ht, hk⟩

theorem FsOk.slot_marked (h : FsOk sb (s.put i ip)) (ht : ip.type ≠ 0)
    (hk : slotAddr s.data ip k ≠ 0) : s.bitmap (slotAddr s.data ip k) = true :=
  (h.owned (slot_owned ht hk)).2.2

theorem FsOk.slot_inj (h : FsOk sb (s.put i ip)) (ht : ip.type ≠ 0)
    (hk : slotAddr s.data ip k ≠ 0) (he : slotAddr s.data ip k = slotAddr s.data ip m) : k = m := by
  have hq := h.marks.exclusive _ _ _ (slot_owned ht hk) (he ▸ slot_owned ht (he ▸ hk))
  exact (Prod.mk.inj hq).2

/-- The disk after b has been allocated. -/
def Disk.taken (s : Disk) (b : Nat) : Disk :=
  { s with
    bitmap := update s.bitmap b true
    data := update s.data b (fun _ => 0) }

def Disk.setEntry (s : Disk) (ind n b : Nat) : Disk :=
  { s with data := update s.data ind (putWord (s.data ind) n b) }

theorem datastart_pos (sb : Superblock) : 0 < sb.datastart := Nat.succ_pos _

theorem balloc_spec (h : ∀ b < sb.datastart, s.bitmap b = true) :
    Ends (balloc sb) s (fun b t => b = 0 ∧ t = s ∧ Full sb s ∨
      sb.datastart ≤ b ∧ b < sb.size ∧ s.bitmap b = false ∧ t = s.taken b) := by
  rw [balloc, ends_bind, ends_get]
  split
  · rename_i b hb
    have hfree : s.bitmap b = false := by simpa using List.find?_some hb
    have hlt : b < sb.size := List.mem_range.mp (List.mem_of_find?_eq_some hb)
    rw [ends_bind, ends_set, ends_pure]
    refine .inr ⟨?_, hlt, hfree, rfl⟩
    by_contra hge
    rw [h b (by omega)] at hfree
    cases hfree
  · rename_i hnone
    rw [ends_pure]
    refine .inl ⟨rfl, rfl, ?_⟩
    intro b hb
    simpa using List.find?_eq_none.mp hnone b (List.mem_range.mpr hb)

/-- From s to t the free block b went into the empty slot k of inode i; ip and ip' are what the
inode is before and after. -/
structure Attaches (sb : Superblock) (s : Disk) (ip : Dinode) (k b : Nat) (t : Disk)
    (ip' : Dinode) : Prop where
  lo : sb.datastart ≤ b
  hi : b < sb.size
  free : s.bitmap b = false
  empty : slotAddr s.data ip k = 0
  same : ip' = { ip with addrs := ip'.addrs }
  inodes : t.inodes = s.inodes
  bitmap : t.bitmap = update s.bitmap b true
  slots : ∀ m, slotAddr t.data ip' m = if m = k then b else slotAddr s.data ip m
  data : ∀ a, a ≠ b → (ip.addrs NDIRECT ≠ 0 → a ≠ ip.addrs NDIRECT) → t.data a = s.data a
  zero : t.data b = fun _ => 0

/-- Allocation for one inode: it keeps its blocks, and only blocks that are its own afterwards
have changed. -/
structure Grows (s : Disk) (ip : Dinode) (t : Disk) (ip' : Dinode) : Prop where
  same : ip' = { ip with addrs := ip'.addrs }
  inodes : t.inodes = s.inodes
  keep : ∀ k, slotAddr s.data ip k ≠ 0 → slotAddr t.data ip' k = slotAddr s.data ip k
  frame : ∀ b, t.data b = s.data b ∨ b ≠ 0 ∧ ∃ k, slotAddr t.data ip' k = b

/-- The blocks of the file keep their bytes. -/
def SameBytes (s : Disk) (ip : Dinode) (t : Disk) : Prop :=
  ∀ k, k ≠ NDIRECT → slotAddr s.data ip k ≠ 0 →
    t.data (slotAddr s.data ip k) = s.data (slotAddr s.data ip k)

theorem Grows.refl (s : Disk) (ip : Dinode) : Grows s ip s ip :=
  ⟨rfl, rfl, fun _ _ => rfl, fun _ => .inl rfl⟩

theorem Grows.trans (h : Grows s ip t ip') (h' : Grows t ip' u ip'') : Grows s ip u ip'' := by
  refine ⟨?_, h'.inodes.trans h.inodes, ?_, ?_⟩
  · rw [h'.same, h.same]
  · intro k hk
    rw [h'.keep k (by rw [h.keep k hk]; exact hk), h.keep k hk]
  · intro b
    rcases h'.frame b with he | hb
    · rcases h.frame b with he' | ⟨hb, k, hk⟩
      · exact .inl (he.trans he')
      · exact .inr ⟨hb, k, by rw [h'.keep k (by rw [hk]; exact hb), hk]⟩
    · exact .inr hb

theorem SameBytes.trans (h : SameBytes s ip t) (hg : Grows s ip t ip') (h' : SameBytes t ip' u) :
    SameBytes s ip u := by
  intro k hne hk
  have hkeep := hg.keep k hk
  have hu := h' k hne (by rw [hkeep]; exact hk)
  rw [hkeep] at hu
  exact hu.trans (h k hne hk)

theorem Attaches.ne_zero (ha : Attaches sb s ip k b t ip') : b ≠ 0 := by
  have := datastart_pos sb
  have := ha.lo
  omega

theorem Attaches.ne_slot (ha : Attaches sb s ip k b t ip') (h : FsOk sb (s.put i ip))
    (ht : ip.type ≠ 0) (hm : slotAddr s.data ip m ≠ 0) : slotAddr s.data ip m ≠ b := by
  intro he
  have hmark := h.slot_marked ht hm
  rw [he, ha.free] at hmark
  cases hmark

theorem Attaches.grows (ha : Attaches sb s ip k b t ip') : Grows s ip t ip' := by
  have hkeep : ∀ m, slotAddr s.data ip m ≠ 0 → slotAddr t.data ip' m = slotAddr s.data ip m := by
    intro m hm
    rw [ha.slots m, if_neg]
    rintro rfl
    exact hm ha.empty
  refine ⟨ha.same, ha.inodes, hkeep, ?_⟩
  intro a
  rcases eq_or_ne a b with rfl | hab
  · exact .inr ⟨ha.ne_zero, k, by rw [ha.slots k, if_pos rfl]⟩
  · by_cases hind : ip.addrs NDIRECT ≠ 0 → a ≠ ip.addrs NDIRECT
    · exact .inl (ha.data a hab hind)
    · simp only [Classical.not_imp, ne_eq, not_not] at hind
      obtain ⟨h0, rfl⟩ := hind
      have hs : slotAddr s.data ip NDIRECT = ip.addrs NDIRECT := by simp [slotAddr]
      exact .inr ⟨h0, NDIRECT, by rw [hkeep NDIRECT (by rw [hs]; exact h0), hs]⟩

theorem Attaches.sameBytes (ha : Attaches sb s ip k b t ip') (h : FsOk sb (s.put i ip))
    (ht : ip.type ≠ 0) : SameBytes s ip t := by
  intro m hne hm
  apply ha.data
  · exact ha.ne_slot h ht hm
  · intro h0 he
    have hs : slotAddr s.data ip NDIRECT = ip.addrs NDIRECT := by simp [slotAddr]
    exact hne (h.slot_inj ht hm (he.trans hs.symm))

theorem Attaches.spends (ha : Attaches sb s ip k b t ip') {S : Finset Nat} (hk : k ∈ S) :
    freeCount sb t + missing S s ip = freeCount sb s + missing S t ip' := by
  have hfree : (Finset.range sb.size).filter (fun c => t.bitmap c = false) =
      ((Finset.range sb.size).filter (fun c => s.bitmap c = false)).erase b := by
    ext c
    simp only [Finset.mem_filter, Finset.mem_erase, ha.bitmap]
    rcases eq_or_ne c b with rfl | hc
    · simp
    · simp [hc]
  have hmiss : S.filter (fun m => slotAddr t.data ip' m = 0) =
      (S.filter (fun m => slotAddr s.data ip m = 0)).erase k := by
    ext m
    simp only [Finset.mem_filter, Finset.mem_erase, ha.slots]
    rcases eq_or_ne m k with rfl | hm
    · simp [ha.ne_zero]
    · simp [hm]
  have hb : b ∈ (Finset.range sb.size).filter (fun c => s.bitmap c = false) := by
    simp [ha.hi, ha.free]
  have hk' : k ∈ S.filter (fun m => slotAddr s.data ip m = 0) := by simp [hk, ha.empty]
  have h1 := Finset.card_erase_add_one hb
  have h2 := Finset.card_erase_add_one hk'
  rw [freeCount, freeCount, missing, missing, hfree, hmiss]
  omega

theorem Attaches.other (ha : Attaches sb s ip k b t ip') (h : FsOk sb (s.put i ip))
    (ht : ip.type ≠ 0) (hj : j ≠ i) (htj : (s.inodes j).type ≠ 0) (m : Nat) :
    slotAddr t.data (t.inodes j) m = slotAddr s.data (s.inodes j) m := by
  apply slotAddr_congr (by rw [ha.inodes])
  intro h0
  have hj12 : (s.put i ip).owns (j, NDIRECT) = some ((s.inodes j).addrs NDIRECT) := by
    rw [owns_eq_some, put_inodes_of_ne hj, put_data]
    exact ⟨htj, by simp [slotAddr], h0⟩
  apply ha.data
  · intro he
    have hm := (h.owned hj12).2.2
    rw [he, put_bitmap, ha.free] at hm
    cases hm
  · intro h0' he
    have hi12 : (s.put i ip).owns (i, NDIRECT) = some (ip.addrs NDIRECT) := by
      rw [owns_eq_some, put_inodes_self, put_data]
      exact ⟨ht, by simp [slotAddr], h0'⟩
    rw [← he] at hi12
    exact hj (Prod.mk.inj (h.marks.exclusive _ _ _ hj12 hi12)).1

theorem Attaches.owns (ha : Attaches sb s ip k b t ip') (h : FsOk sb (s.put i ip))
    (ht : ip.type ≠ 0) :
    (t.put i ip').owns = update (s.put i ip).owns (i, k) (some b) := by
  have htype : ip'.type = ip.type := by rw [ha.same]
  funext q
  obtain ⟨j, m⟩ := q
  rcases eq_or_ne j i with rfl | hj
  · rcases eq_or_ne m k with rfl | hm
    · simp [Disk.owns, htype, ht, ha.slots, ha.ne_zero]
    · rw [update_of_ne (by simp [hm])]
      simp [Disk.owns, htype, ha.slots, hm]
  · rw [update_of_ne (by simp [hj])]
    unfold Disk.owns
    rw [put_inodes_of_ne hj, put_inodes_of_ne hj, put_data, put_data]
    dsimp only
    by_cases htj : (s.inodes j).type = 0
    · simp [ha.inodes, htj]
    · rw [ha.other h ht hj htj m, ha.inodes]

theorem FsOk.attach (h : FsOk sb (s.put i ip)) (ht : ip.type ≠ 0)
    (ha : Attaches sb s ip k b t ip') : FsOk sb (t.put i ip') := by
  have hin : ∀ j, ((t.put i ip').inodes j).type = ((s.put i ip).inodes j).type ∧
      ((t.put i ip').inodes j).size = ((s.put i ip).inodes j).size := by
    intro j
    rcases eq_or_ne j i with rfl | hj
    · rw [put_inodes_self, put_inodes_self, ha.same]
      exact ⟨rfl, rfl⟩
    · simp [put_inodes_of_ne hj, ha.inodes]
  refine ⟨?_, ?_, ?_, ?_, ?_, ?_⟩
  · intro j hj
    rw [(hin j).1] at hj
    exact h.inum j hj
  · rw [ha.owns h ht]
    refine h.marks.take ?_ ?_ ?_
    · simp [Disk.owns, ha.empty]
    · simp [ha.free]
    · intro y
      rw [put_bitmap, ha.bitmap, put_bitmap]
      rcases eq_or_ne y b with rfl | hy
      · simp [ha.lo, ha.hi]
      · simp [hy]
  · intro y hy
    have hres := h.reserved y hy
    have hlo := ha.lo
    rw [put_bitmap, ha.bitmap, update_of_ne (by omega)]
    exact hres
  · intro j hj bn hbn
    rw [(hin j).1] at hj
    rw [(hin j).2] at hbn
    have hold := h.filled j hj bn hbn
    rcases eq_or_ne j i with rfl | hji
    · simp only [put_inodes_self, put_data, blk] at hold ⊢
      rw [ha.grows.keep _ hold]
      exact hold
    · rw [put_inodes_of_ne hji] at hj hold
      rw [put_inodes_of_ne hji, put_data]
      unfold blk
      rw [ha.other h ht hji hj]
      exact hold
  · intro j hj
    rw [(hin j).1] at hj
    rw [(hin j).2]
    exact h.size_le j hj
  · intro j hj
    rw [(hin j).1] at hj
    rw [(hin j).2]
    exact h.dirs j hj

theorem attaches_direct (h : FsOk sb (s.put i ip)) (ht : ip.type ≠ 0) (hlo : sb.datastart ≤ b)
    (hhi : b < sb.size) (hfree : s.bitmap b = false) (hk : k ≤ NDIRECT) (h0 : ip.addrs k = 0) :
    Attaches sb s ip k b (s.taken b) { ip with addrs := update ip.addrs k b } := by
  have hb0 : b ≠ 0 := by
    have := datastart_pos sb
    omega
  have hind : ip.addrs NDIRECT ≠ 0 → ip.addrs NDIRECT ≠ b := by
    intro hi he
    have hs : slotAddr s.data ip NDIRECT = ip.addrs NDIRECT := by simp [slotAddr]
    have hm := h.slot_marked ht (k := NDIRECT) (by rw [hs]; exact hi)
    rw [hs, he, hfree] at hm
    cases hm
  refine ⟨hlo, hhi, hfree, by simp [slotAddr, hk, h0], rfl, rfl, rfl, ?_, ?_,
    update_self ..⟩
  · intro m
    unfold slotAddr Disk.taken
    by_cases hm : m ≤ NDIRECT
    · rcases eq_or_ne m k with rfl | hmk
      · simp [hm]
      · simp [hm, hmk]
    have hmk : m ≠ k := by omega
    simp only [hm, hmk, if_false]
    rcases eq_or_ne NDIRECT k with rfl | hk'
    · simpa [h0, hb0] using fun _ => word_zero _
    · rw [update_of_ne hk']
      by_cases hi : ip.addrs NDIRECT = 0
      · simp [hi]
      · rw [update_of_ne (hind hi)]
  · intro a hab _
    simp [Disk.taken, hab]

theorem attaches_entry (h : FsOk sb (s.put i ip)) (ht : ip.type ≠ 0) (hlo : sb.datastart ≤ b)
    (hhi : b < sb.size) (hfree : s.bitmap b = false) (hn : n < NINDIRECT)
    (hind : ip.addrs NDIRECT ≠ 0) (h0 : word (s.data (ip.addrs NDIRECT)) n = 0) :
    Attaches sb s ip (NDIRECT + 1 + n) b ((s.taken b).setEntry (ip.addrs NDIRECT) n b) ip := by
  have hne : ip.addrs NDIRECT ≠ b := by
    intro he
    have hs : slotAddr s.data ip NDIRECT = ip.addrs NDIRECT := by simp [slotAddr]
    have hm := h.slot_marked ht (k := NDIRECT) (by rw [hs]; exact hind)
    rw [hs, he, hfree] at hm
    cases hm
  have hword : b < 4294967296 := by
    have := sb.size_le
    omega
  have hdata : (s.taken b).data (ip.addrs NDIRECT) = s.data (ip.addrs NDIRECT) := by
    simp [Disk.taken, hne]
  refine ⟨hlo, hhi, hfree, ?_, rfl, rfl, rfl, ?_, ?_, ?_⟩
  · have hsub : NDIRECT + 1 + n - NDIRECT - 1 = n := by omega
    have hgt : ¬ NDIRECT + 1 + n ≤ NDIRECT := by omega
    simp [slotAddr, hsub, h0, hgt]
  · intro m
    unfold slotAddr Disk.setEntry
    by_cases hm : m ≤ NDIRECT
    · have hmk : m ≠ NDIRECT + 1 + n := by omega
      simp [hm, hmk]
    simp only [hm, if_false, hdata, update_self]
    rcases eq_or_ne m (NDIRECT + 1 + n) with rfl | hmk
    · have hsub : NDIRECT + 1 + n - NDIRECT - 1 = n := by omega
      have hle : NDIRECT + 1 + n ≤ NDIRECT + NINDIRECT := by omega
      simp only [hsub, hle, hind, ne_eq, not_false_eq_true, and_self, if_true]
      exact word_putWord_self _ _ hword
    · have hsub : m - NDIRECT - 1 ≠ n := by omega
      simp only [hmk, if_false, word_putWord_ne _ _ hsub]
  · intro a hab hai
    simp [Disk.setEntry, Disk.taken, hab, hai hind]
  · simp [Disk.setEntry, Disk.taken, hne.symm]

/-- What a function that may allocate for inode i does: the image stays consistent and the file
grows; a zero address means that no block is left, and an address that was there is returned with
nothing changed. -/
structure Loads (sb : Superblock) (i k : Nat) (s : Disk) (ip : Dinode) (a : Nat) (t : Disk)
    (ip' : Dinode) : Prop where
  ok : FsOk sb (t.put i ip')
  grows : Grows s ip t ip'
  bytes : SameBytes s ip t
  full : a = 0 → Full sb t ∧ slotAddr t.data ip' k = 0
  there : a ≠ 0 → slotAddr t.data ip' k = a
  known : slotAddr s.data ip k ≠ 0 → a = slotAddr s.data ip k ∧ t = s ∧ ip' = ip
  zero : ∀ m ≠ NDIRECT, slotAddr s.data ip m = 0 → slotAddr t.data ip' m ≠ 0 →
    t.data (slotAddr t.data ip' m) = fun _ => 0
  others : ∀ m ≠ k, m ≠ NDIRECT → slotAddr t.data ip' m = slotAddr s.data ip m
  spends : ∀ S : Finset Nat, k ∈ S → (NDIRECT < k → NDIRECT ∈ S) →
    freeCount sb t + missing S s ip = freeCount sb s + missing S t ip'

theorem Loads.attach (h : FsOk sb (s.put i ip)) (ht : ip.type ≠ 0)
    (ha : Attaches sb s ip k b t ip') : Loads sb i k s ip b t ip' := by
  refine ⟨h.attach ht ha, ha.grows, ha.sameBytes h ht, ?_, ?_, ?_, ?_,
    fun m hm _ => by rw [ha.slots m, if_neg hm], fun _ hk _ => ha.spends hk⟩
  · exact fun h0 => absurd h0 ha.ne_zero
  · exact fun _ => by rw [ha.slots k, if_pos rfl]
  · exact fun hk => absurd ha.empty hk
  · intro m _ hm hm'
    rw [ha.slots m] at hm' ⊢
    by_cases hmk : m = k
    · rw [if_pos hmk]
      exact ha.zero
    · rw [if_neg hmk] at hm'
      exact absurd hm hm'

theorem Loads.present (h : FsOk sb (s.put i ip)) (hk : slotAddr s.data ip k ≠ 0) :
    Loads sb i k s ip (slotAddr s.data ip k) s ip :=
  ⟨h, .refl s ip, fun _ _ _ => rfl, fun h0 => absurd h0 hk, fun _ => rfl,
    fun _ => ⟨rfl, rfl, rfl⟩, fun _ _ hm hm' => absurd hm hm', fun _ _ _ => rfl,
    fun _ _ _ => rfl⟩

theorem Loads.fails (h : FsOk sb (s.put i ip)) (hk : slotAddr s.data ip k = 0)
    (hf : Full sb s) : Loads sb i k s ip 0 s ip :=
  ⟨h, .refl s ip, fun _ _ _ => rfl, fun _ => ⟨hf, hk⟩, fun h0 => absurd rfl h0,
    fun h0 => absurd hk h0,
    fun _ _ hm hm' => absurd hm hm', fun _ _ _ => rfl, fun _ _ _ => rfl⟩

theorem FsOk.balloc_bind {f : Nat → Dk α} (h : FsOk sb (s.put i ip))
    (hfull : Full sb s → Ends (f 0) s Q)
    (htake : ∀ b ≠ 0, sb.datastart ≤ b → b < sb.size → s.bitmap b = false →
      Ends (f b) (s.taken b) Q) : Ends (balloc sb >>= f) s Q := by
  have hres : ∀ b < sb.datastart, s.bitmap b = true := h.reserved
  have hpos := datastart_pos sb
  refine (balloc_spec hres).bind ?_
  rintro b t (⟨rfl, rfl, hf⟩ | ⟨hlo, hhi, hfree, rfl⟩)
  · exact hfull hf
  · exact htake b (by omega) hlo hhi hfree

theorem loadAddr_spec (h : FsOk sb (s.put i ip)) (ht : ip.type ≠ 0) (hk : k ≤ NDIRECT) :
    Ends (loadAddr sb ip k) s (fun r t => Loads sb i k s ip r.1 t r.2) := by
  have hslot : slotAddr s.data ip k = _ := slotAddr_le hk
  unfold loadAddr
  refine Ends.ite (fun h0 => ?_) (fun h0 => ?_)
  · refine h.balloc_bind (fun hfull => ?_) (fun b hb0 hlo hhi hfree => ?_)
    · rw [if_pos rfl, ends_pure]
      exact .fails h (hslot.trans h0) hfull
    · rw [if_neg hb0, ends_pure]
      exact .attach h ht (attaches_direct h ht hlo hhi hfree hk h0)
  · rw [ends_pure, ← hslot]
    exact .present h (hslot ▸ h0)

theorem loadEntry_spec (h : FsOk sb (s.put i ip)) (ht : ip.type ≠ 0) (hn : n < NINDIRECT)
    (hind : ip.addrs NDIRECT ≠ 0) :
    Ends (loadEntry sb (ip.addrs NDIRECT) n) s (fun a t =>
      Loads sb i (NDIRECT + 1 + n) s ip a t ip) := by
  have hslot : slotAddr s.data ip _ = _ := slotAddr_entry hn hind
  rw [loadEntry, ends_bind, ends_get]
  refine Ends.ite (fun h0 => ?_) (fun h0 => ?_)
  · refine h.balloc_bind (fun hfull => ?_) (fun b hb0 hlo hhi hfree => ?_)
    · rw [if_pos rfl, ends_pure]
      exact .fails h (hslot.trans h0) hfull
    · rw [if_neg hb0, ends_bind, ends_modify, ends_pure]
      exact .attach h ht (attaches_entry h ht hlo hhi hfree hn hind h0)
  · rw [ends_pure, ← hslot]
    exact .present h (hslot ▸ h0)

theorem slotOf_direct (h : bn < NDIRECT) : slotOf bn = bn := by simp [slotOf, h]

theorem slotOf_entry (h : ¬ bn < NDIRECT) : slotOf bn = NDIRECT + 1 + (bn - NDIRECT) := by
  simp only [slotOf, h, if_false]
  omega

theorem bmap_spec (h : FsOk sb (s.put i ip)) (ht : ip.type ≠ 0) (hbn : bn < MAXFILE) :
    Ends (bmap sb ip bn) s (fun r t => Loads sb i (slotOf bn) s ip r.1 t r.2) := by
  unfold bmap
  refine Ends.ite (fun hd => ?_) (fun hd => ?_)
  · rw [slotOf_direct hd]
    exact loadAddr_spec h ht (Nat.le_of_lt hd)
  have hn : bn - NDIRECT < NINDIRECT := by
    unfold MAXFILE at hbn
    omega
  rw [if_pos hn]
  refine (loadAddr_spec h ht (Nat.le_refl NDIRECT)).bind ?_
  rintro ⟨ind, ip1⟩ t h1
  dsimp only at h1 ⊢
  have hslot1 : slotAddr t.data ip1 NDIRECT = ip1.addrs NDIRECT := by simp [slotAddr]
  have hbig : NDIRECT < slotOf bn := by
    rw [slotOf_entry hd]
    omega
  -- an entry can be there only if the indirect block is
  have hnone : ∀ data ip, slotAddr data ip NDIRECT = 0 → slotAddr data ip (slotOf bn) = 0 := by
    intro data ip h0
    have hgt : ¬ NDIRECT + 1 + (bn - NDIRECT) ≤ NDIRECT := by omega
    have h0' : ip.addrs NDIRECT = 0 := by simpa [slotAddr] using h0
    simp [slotOf_entry hd, slotAddr, hgt, h0']
  have hind : slotAddr s.data ip (slotOf bn) ≠ 0 → slotAddr s.data ip NDIRECT ≠ 0 :=
    fun hs h0 => hs (hnone _ _ h0)
  refine Ends.ite (fun h0 => ?_) (fun h0 => ?_)
  · rw [ends_pure]
    refine ⟨h1.ok, h1.grows, h1.bytes, fun _ => ⟨(h1.full h0).1, hnone _ _ (h1.full h0).2⟩,
      fun hn => absurd rfl hn, ?_, h1.zero, fun m _ hm => h1.others m hm hm,
      fun S _ hS => h1.spends S (hS hbig) (fun hlt => absurd hlt (Nat.lt_irrefl _))⟩
    intro hs
    have hk := h1.known (hind hs)
    exact absurd (hk.1.symm.trans h0) (hind hs)
  · have hthere : ip1.addrs NDIRECT = ind := by rw [← hslot1]; exact h1.there h0
    have ht1 : ip1.type ≠ 0 := by rw [h1.grows.same]; exact ht
    rw [ends_bind, ← hthere]
    refine (loadEntry_spec h1.ok ht1 hn (by rw [hthere]; exact h0)).mono ?_
    intro a u h2
    rw [ends_pure, slotOf_entry hd]
    refine ⟨h2.ok, h1.grows.trans h2.grows, h1.bytes.trans h1.grows h2.bytes, h2.full,
      h2.there, ?_, ?_, fun m hk hm => (h2.others m hk hm).trans (h1.others m hm hm), ?_⟩
    · intro hs
      rw [← slotOf_entry hd] at hs
      obtain ⟨-, rfl, rfl⟩ := h1.known (hind hs)
      rw [slotOf_entry hd] at hs
      exact h2.known hs
    · intro m hm h0 hu
      by_cases h1m : slotAddr t.data ip1 m = 0
      · exact h2.zero m hm h1m hu
      · rw [h2.grows.keep m h1m, h2.bytes m hm h1m]
        exact h1.zero m hm h0 h1m
    · intro S hk hS
      rw [slotOf_entry hd] at hbig
      have e1 := h1.spends S (hS hbig) (fun hlt => absurd hlt (Nat.lt_irrefl _))
      have e2 := h2.spends S hk hS
      dsimp only
      omega

end

end Xv6.Fs
