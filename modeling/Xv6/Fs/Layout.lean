import Xv6.Fs.Bytes
import Xv6.Fs.View

namespace Xv6.Fs

open Lib

/-- The blocks of a disk, as bytes. -/
abbrev Image := Nat → Block

/-- The nth ushort of a block. -/
def half (b : Block) (n : Nat) : BitVec 16 := b (2 * n + 1) ++ b (2 * n)

/-- The inode in slot n of an inode block. What is added to nlink from then on is counted from its
stored value. -/
def dinodeIn (b : Block) (n : Nat) : Dinode where
  type := (half b (32 * n)).toNat
  major := half b (32 * n + 1)
  minor := half b (32 * n + 2)
  nlink := half b (32 * n + 3)
  links := (half b (32 * n + 3)).toInt
  size := word b (16 * n + 2)
  addrs := fun k => if k ≤ NDIRECT then word b (16 * n + 3 + k) else 0

def dinodeAt (sb : Superblock) (img : Image) (i : Nat) : Dinode :=
  dinodeIn (img (i / IPB + sb.inodestart)) (i % IPB)

/-- The bit of block b in the bitmap. -/
def bitAt (sb : Superblock) (img : Image) (b : Nat) : Bool :=
  (img (b / BPB + sb.bmapstart) (b % BPB / 8)).getLsbD (b % BPB % 8)

/-- What the file system finds on a disk. -/
def decode (sb : Superblock) (img : Image) : Disk where
  inodes i := if i < sb.ninodes then dinodeAt sb img i else Dinode.zero
  bitmap := bitAt sb img
  data := img

/-- The bytes of struct dinode. -/
def dinodeByte (ip : Dinode) (o : Nat) : Byte :=
  if o < 2 then BitVec.ofNat 8 (ip.type / 256 ^ o)
  else if o < 4 then ip.major.extractLsb' (8 * (o - 2)) 8
  else if o < 6 then ip.minor.extractLsb' (8 * (o - 4)) 8
  else if o < 8 then ip.nlink.extractLsb' (8 * (o - 6)) 8
  else if o < 12 then BitVec.ofNat 8 (ip.size / 256 ^ (o - 8))
  else BitVec.ofNat 8 (ip.addrs ((o - 12) / 4) / 256 ^ (o % 4))

/-- Eight bits of the bitmap. -/
def bitsByte (f : Nat → Bool) : Byte :=
  ((((((((0#0).concat (f 7)).concat (f 6)).concat (f 5)).concat (f 4)).concat (f 3)).concat
    (f 2)).concat (f 1)).concat (f 0)

/-- The blocks of a disk in state d. -/
def encode (sb : Superblock) (d : Disk) : Image := fun b o =>
  if b < sb.inodestart then 0
  else if b < sb.bmapstart then
    dinodeByte (d.inodes ((b - sb.inodestart) * IPB + o / 64)) (o % 64)
  else if b < sb.datastart then
    bitsByte (fun j => d.bitmap ((b - sb.bmapstart) * BPB + 8 * o + j))
  else d.data b o

/-- The fields of struct dinode. -/
structure SameInode (ip ip' : Dinode) : Prop where
  type : ip.type = ip'.type
  major : ip.major = ip'.major
  minor : ip.minor = ip'.minor
  nlink : ip.nlink = ip'.nlink
  size : ip.size = ip'.size
  addrs : ∀ k ≤ NDIRECT, ip.addrs k = ip'.addrs k

/-- An indirect block, or a block of a directory. -/
def Disk.Structural (d : Disk) (b : Nat) : Prop :=
  ∃ i k, d.owns (i, k) = some b ∧ (k = NDIRECT ∨ (d.inodes i).type = T_DIR)

/-- The blocks of the image hold the state d of the disk. Free inodes, free blocks and the blocks
of files may hold anything: a write that fails leaves bytes in the cache that no commit writes. -/
structure Shows (sb : Superblock) (img : Image) (d : Disk) : Prop where
  types : ∀ i < sb.ninodes, (dinodeAt sb img i).type = (d.inodes i).type
  inodes : ∀ i < sb.ninodes, (d.inodes i).type ≠ 0 → SameInode (dinodeAt sb img i) (d.inodes i)
  bitmap : ∀ b < sb.size, bitAt sb img b = d.bitmap b
  data : ∀ b, sb.datastart ≤ b → b < sb.size → d.Structural b →
    ∀ o < BSIZE, img b o = d.data b o

section
variable {sb : Superblock} {img img' : Image} {d : Disk}

theorem SameInode.refl (ip : Dinode) : SameInode ip ip := ⟨rfl, rfl, rfl, rfl, rfl, fun _ _ => rfl⟩

theorem shows_decode (sb : Superblock) (img : Image) : Shows sb img (decode sb img) := by
  refine ⟨?_, ?_, fun _ _ => rfl, fun _ _ _ _ _ _ => rfl⟩
  · intro i hi
    simp only [decode, if_pos hi]
  · intro i hi _
    simp only [decode, if_pos hi]
    exact .refl _

theorem half_ofNat {b : Block} (h0 : b (2 * n) = BitVec.ofNat 8 v)
    (h1 : b (2 * n + 1) = BitVec.ofNat 8 (v / 256)) (hv : v < 65536) : (half b n).toNat = v := by
  rw [half, h0, h1, BitVec.toNat_append, BitVec.toNat_ofNat, BitVec.toNat_ofNat,
    Nat.mod_eq_of_lt (by omega : v / 256 < 2 ^ 8), Nat.shiftLeft_eq, Nat.mul_comm,
    ← Nat.two_pow_add_eq_or_of_lt (Nat.mod_lt _ (by decide))]
  omega

theorem half_extract {b : Block} {v : BitVec 16} (h0 : b (2 * n) = v.extractLsb' 0 8)
    (h1 : b (2 * n + 1) = v.extractLsb' 8 8) : half b n = v := by
  rw [half, h0, h1]
  apply BitVec.eq_of_getLsbD_eq
  intro i hi
  simp only [BitVec.getLsbD_append, BitVec.getLsbD_extractLsb']
  by_cases h8 : i < 8
  · simp [h8]
  · simp [h8, show i - 8 < 8 by omega, show 8 + (i - 8) = i by omega]

theorem word_ofNat {b : Block} (h : ∀ j < 4, b (4 * n + j) = BitVec.ofNat 8 (v / 256 ^ j))
    (hv : v < 4294967296) : word b n = v := by
  rw [word, show b (4 * n) = _ from h 0 (by omega), h 1 (by omega), h 2 (by omega), h 3 (by omega)]
  simp only [BitVec.toNat_ofNat, Nat.reducePow]
  omega

theorem dinodeIn_type {b : Block} (h : ∀ o < 64, b (64 * n + o) = dinodeByte ip o)
    (ht : ip.type < 65536) : (dinodeIn b n).type = ip.type := by
  have h0 : b (2 * (32 * n)) = BitVec.ofNat 8 ip.type := by
    rw [show 2 * (32 * n) = 64 * n + 0 by omega, h 0 (by omega)]
    simp [dinodeByte]
  have h1 : b (2 * (32 * n) + 1) = BitVec.ofNat 8 (ip.type / 256) := by
    rw [show 2 * (32 * n) + 1 = 64 * n + 1 by omega, h 1 (by omega)]
    simp [dinodeByte]
  exact half_ofNat h0 h1 ht

theorem dinodeIn_bytes {b : Block} (h : ∀ o < 64, b (64 * n + o) = dinodeByte ip o)
    (ht : ip.type < 65536) (hs : ip.size < 4294967296)
    (ha : ∀ k ≤ NDIRECT, ip.addrs k < 4294967296) : SameInode (dinodeIn b n) ip := by
  have hat : ∀ o m, o < 64 → m = 64 * n + o → b m = dinodeByte ip o := by
    intro o m ho hm
    rw [hm, h o ho]
  refine ⟨?_, ?_, ?_, ?_, ?_, ?_⟩
  · exact dinodeIn_type h ht
  · exact half_extract (hat 2 _ (by omega) (by omega)) (hat 3 _ (by omega) (by omega))
  · exact half_extract (hat 4 _ (by omega) (by omega)) (hat 5 _ (by omega) (by omega))
  · exact half_extract (hat 6 _ (by omega) (by omega)) (hat 7 _ (by omega) (by omega))
  · apply word_ofNat _ hs
    intro j hj
    rw [hat (8 + j) _ (by omega) (by omega)]
    simp [dinodeByte, show ¬ 8 + j < 2 by omega, show ¬ 8 + j < 4 by omega,
      show ¬ 8 + j < 6 by omega, show 8 + j < 12 by omega]
  · intro k hk
    have hk' : k ≤ 12 := hk
    show (if k ≤ NDIRECT then word b (16 * n + 3 + k) else 0) = ip.addrs k
    rw [if_pos hk]
    apply word_ofNat _ (ha k hk)
    intro j hj
    rw [hat (12 + 4 * k + j) _ (by omega) (by omega)]
    simp [dinodeByte, show ¬ 12 + 4 * k + j < 2 by omega, show ¬ 12 + 4 * k + j < 4 by omega,
      show ¬ 12 + 4 * k + j < 6 by omega, show ¬ 12 + 4 * k + j < 8 by omega,
      show ¬ 12 + 4 * k + j < 12 by omega, show (12 + 4 * k + j - 12) / 4 = k by omega,
      show (12 + 4 * k + j) % 4 = j by omega]

theorem word_congr {b b' : Block} (h : ∀ o < BSIZE, b o = b' o) (hn : n < NINDIRECT) :
    word b n = word b' n := by
  have hlt : 4 * n + 3 < BSIZE := by
    unfold NINDIRECT at hn
    unfold BSIZE
    omega
  rw [word, word, h _ (by omega), h _ (by omega), h _ (by omega), h _ hlt]

theorem dinodeIn_congr {b b' : Block} (h : ∀ o < BSIZE, b o = b' o) (hn : n < IPB) :
    dinodeIn b n = dinodeIn b' n := by
  have hn' : n < 16 := hn
  have hhalf : ∀ m < 512, half b m = half b' m := by
    intro m hm
    rw [half, half, h _ (by unfold BSIZE; omega), h _ (by unfold BSIZE; omega)]
  have hword : ∀ m < 256, word b m = word b' m := fun m hm => word_congr h hm
  unfold dinodeIn
  rw [hhalf _ (by omega), hhalf _ (by omega), hhalf _ (by omega), hhalf _ (by omega),
    hword _ (by omega)]
  congr 1
  funext k
  split
  · rename_i hk
    have hk : k ≤ 12 := hk
    exact hword _ (by omega)
  · rfl

/-- Only the blocks of inodes, the bitmap, indirect blocks and directories matter. -/
theorem Shows.congr (h : Shows sb img d) (hi : ∀ b, sb.inodestart ≤ b →
    b < sb.datastart ∨ b < sb.size ∧ d.Structural b → ∀ o < BSIZE, img' b o = img b o) :
    Shows sb img' d := by
  have hfit := sb.inodes_fit
  have hin : ∀ i < sb.ninodes, dinodeAt sb img' i = dinodeAt sb img i := by
    intro i hlt
    apply dinodeIn_congr _ (Nat.mod_lt _ (by decide))
    apply hi _ (Nat.le_add_left _ _) (.inl _)
    unfold Superblock.datastart BPB IPB at *
    omega
  refine ⟨?_, ?_, ?_, ?_⟩
  · intro i hlt
    rw [hin i hlt]
    exact h.types i hlt
  · intro i hlt ht
    rw [hin i hlt]
    exact h.inodes i hlt ht
  · intro b hb
    have hblock : img' (b / BPB + sb.bmapstart) (b % BPB / 8) =
        img (b / BPB + sb.bmapstart) (b % BPB / 8) := by
      apply hi
      · unfold IPB BPB at *
        omega
      · left
        unfold Superblock.datastart BPB
        omega
      · unfold BPB BSIZE
        omega
    rw [bitAt, hblock]
    exact h.bitmap b hb
  · intro b hb hlt hm o ho
    have hle : sb.inodestart ≤ b := by
      unfold Superblock.datastart BPB IPB at *
      omega
    rw [hi b hle (.inr ⟨hlt, hm⟩) o ho]
    exact h.data b hb hlt hm o ho

theorem Shows.same (h : Shows sb img d) (hf : FsOk sb d) (ht : (d.inodes i).type ≠ 0) :
    SameInode ((decode sb img).inodes i) (d.inodes i) := by
  have hi := (hf.inum i ht).2
  simp only [decode, if_pos hi]
  exact h.inodes i hi ht

theorem Shows.type_eq (h : Shows sb img d) (hf : FsOk sb d) (i : Nat) :
    ((decode sb img).inodes i).type = (d.inodes i).type := by
  by_cases hi : i < sb.ninodes
  · simp only [decode, if_pos hi]
    exact h.types i hi
  · have h0 : (d.inodes i).type = 0 := by
      by_contra ht
      exact hi (hf.inum i ht).2
    rw [h0]
    simp only [decode, if_neg hi]
    rfl

theorem Shows.slotAddr (h : Shows sb img d) (hf : FsOk sb d) (ht : (d.inodes i).type ≠ 0)
    (k : Nat) : slotAddr (decode sb img).data ((decode sb img).inodes i) k =
      slotAddr d.data (d.inodes i) k := by
  have hs := h.same hf ht
  unfold Fs.slotAddr
  split
  · rename_i hk
    exact hs.addrs k hk
  rw [hs.addrs NDIRECT (Nat.le_refl _)]
  split
  · rename_i hk
    obtain ⟨hle, hne⟩ := hk
    have ho : d.owns (i, NDIRECT) = some ((d.inodes i).addrs NDIRECT) :=
      owns_eq_some.mpr ⟨ht, slotAddr_le (Nat.le_refl _), hne⟩
    obtain ⟨hlo, hhi, -⟩ := hf.owned ho
    exact word_congr (h.data _ hlo hhi ⟨i, NDIRECT, ho, .inl rfl⟩) (by omega)
  · rfl

theorem Shows.owns (h : Shows sb img d) (hf : FsOk sb d) : (decode sb img).owns = d.owns := by
  funext ⟨i, k⟩
  unfold Disk.owns
  dsimp only
  rw [h.type_eq hf]
  by_cases ht : (d.inodes i).type = 0
  · rw [if_pos (.inl ht), if_pos (.inl ht)]
  · rw [h.slotAddr hf ht]

/-- What is found on the disk is consistent if the state it holds is. -/
theorem Shows.fsOk (h : Shows sb img d) (hf : FsOk sb d) (hsz : sb.datastart ≤ sb.size) :
    FsOk sb (decode sb img) := by
  refine ⟨?_, ?_, ?_, ?_, ?_, ?_⟩
  · intro i hi
    rw [h.type_eq hf] at hi
    exact hf.inum i hi
  · rw [h.owns hf]
    refine ⟨?_, hf.marks.exclusive⟩
    intro b
    rw [← hf.marks.marked b]
    constructor
    · rintro ⟨hlo, hhi, hb⟩
      exact ⟨hlo, hhi, h.bitmap b hhi ▸ hb⟩
    · rintro ⟨hlo, hhi, hb⟩
      exact ⟨hlo, hhi, (h.bitmap b hhi).trans hb⟩
  · intro b hb
    exact (h.bitmap b (by omega)).trans (hf.reserved b hb)
  · intro i hi bn hbn
    rw [h.type_eq hf] at hi
    rw [(h.same hf hi).size] at hbn
    rw [blk, h.slotAddr hf hi]
    exact hf.filled i hi bn hbn
  · intro i hi
    rw [h.type_eq hf] at hi
    rw [(h.same hf hi).size]
    exact hf.size_le i hi
  · intro i hi
    rw [h.type_eq hf] at hi
    rw [(h.same hf (by rw [hi]; decide)).size]
    exact hf.dirs i hi

theorem Shows.content (h : Shows sb img d) (hf : FsOk sb d) (hd : (d.inodes i).type = T_DIR)
    (hn : off + n ≤ (d.inodes i).size) :
    content (decode sb img).data ((decode sb img).inodes i) off n =
      content d.data (d.inodes i) off n := by
  have ht : (d.inodes i).type ≠ 0 := by rw [hd]; decide
  unfold Fs.content
  apply List.map_congr_left
  intro j hj
  have hj := List.mem_range.mp hj
  unfold byteAt
  rw [blk, h.slotAddr hf ht]
  have hfill := hf.filled i ht ((off + j) / BSIZE) (by
    have := Nat.div_mul_le_self (off + j) BSIZE
    omega)
  have ho := owns_eq_some.mpr ⟨ht, rfl, hfill⟩
  obtain ⟨hlo, hhi, -⟩ := hf.owned ho
  exact h.data _ hlo hhi ⟨i, _, ho, .inr hd⟩ _ (Nat.mod_lt _ (by decide))

/-- The tree found on the disk is the tree of the state it holds. -/
theorem Shows.view (h : Shows sb img d) (hf : FsOk sb d)
    (hl : ∀ i, (d.inodes i).type ≠ 0 → (d.inodes i).nlink.toInt = (d.inodes i).links) :
    (decode sb img).view = d.view := by
  funext i
  by_cases ht : (d.inodes i).type = 0
  · rw [view_free ht, view_free ((h.type_eq hf i).trans ht)]
  have hs := h.same hf ht
  have hi := (hf.inum i ht).2
  have hlinks : ((decode sb img).inodes i).links = ((decode sb img).inodes i).nlink.toInt := by
    simp only [decode, if_pos hi]
    rfl
  unfold Disk.view
  rw [hs.type, hlinks, hs.nlink, hl i ht, if_neg ht, if_neg ht]
  congr 1
  split
  · rename_i hdir
    unfold Fs.entries
    rw [hs.size]
    apply List.map_congr_left
    intro k hk
    have hk := List.mem_range.mp hk
    unfold direntAt
    rw [h.content hf hdir]
    have := Nat.div_mul_le_self (d.inodes i).size direntSize
    have hle : (k + 1) * direntSize ≤ (d.inodes i).size / direntSize * direntSize :=
      Nat.mul_le_mul_right _ hk
    unfold direntSize at *
    omega
  · rfl

theorem bitsByte_bit (f : Nat → Bool) (hj : j < 8) : (bitsByte f).getLsbD j = f j := by
  match j, hj with
  | 0, _ | 1, _ | 2, _ | 3, _ | 4, _ | 5, _ | 6, _ | 7, _ =>
    simp [bitsByte]

theorem encode_shows (hf : FsOk sb d) (ht : ∀ i < sb.ninodes, (d.inodes i).type < 65536) :
    Shows sb (encode sb d) d := by
  have hfit := sb.inodes_fit
  have hbytes : ∀ i < sb.ninodes, ∀ o < 64,
      encode sb d (i / IPB + sb.inodestart) (64 * (i % IPB) + o) = dinodeByte (d.inodes i) o := by
    intro i hi o ho
    unfold encode IPB at *
    rw [if_neg (by omega), if_pos (by omega), show (64 * (i % 16) + o) / 64 = i % 16 by omega,
      show (64 * (i % 16) + o) % 64 = o by omega,
      show (i / 16 + sb.inodestart - sb.inodestart) * 16 + i % 16 = i by omega]
  refine ⟨?_, ?_, ?_, ?_⟩
  · exact fun i hi => dinodeIn_type (hbytes i hi) (ht i hi)
  · intro i hi h0
    apply dinodeIn_bytes (hbytes i hi) (ht i hi)
    · exact Nat.lt_of_le_of_lt (hf.size_le i h0) (by decide)
    · intro k hk
      by_cases hz : (d.inodes i).addrs k = 0
      · rw [hz]
        decide
      · have ho : d.owns (i, k) = some ((d.inodes i).addrs k) :=
          owns_eq_some.mpr ⟨h0, slotAddr_le hk, hz⟩
        exact Nat.lt_of_lt_of_le (hf.owned ho).2.1 sb.size_le
  · intro b hb
    unfold bitAt encode Superblock.datastart IPB BPB at *
    rw [if_neg (by omega), if_neg (by omega), if_pos (by omega), bitsByte_bit _ (by omega)]
    congr 1
    omega
  · intro b hb _ _ o _
    unfold encode Superblock.datastart IPB BPB at *
    rw [if_neg (by omega), if_neg (by omega), if_neg (by omega)]

end

end Xv6.Fs
