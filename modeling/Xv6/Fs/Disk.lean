import Xv6.Param
import Xv6.Lib.Prog
import Mathlib.Logic.Function.Basic
import Mathlib.Data.BitVec

namespace Xv6.Fs

open Function

def ROOTDEV : Nat := 1
def ROOTINO : Nat := 1
def NINODE : Nat := 50
def NDEV : Nat := 10
def DIRSIZ : Nat := 14
def NDIRECT : Nat := 12
def NINDIRECT : Nat := 256
def MAXFILE : Nat := NDIRECT + NINDIRECT
def IPB : Nat := 16
def BPB : Nat := 8192
def T_DIR : Nat := 1
def T_FILE : Nat := 2
def T_DEVICE : Nat := 3

abbrev Byte := BitVec 8
abbrev Block := Nat → Byte

/-- The panics of fs.c, sysfile.c and file.c, a sleep lock taken twice by one process, and the
panic of exit. -/
inductive Panic where
  | freeingFree
  | noInodes
  | ilock
  | noType
  | iunlock
  | outOfRange
  | notDir
  | dirlookupRead
  | dirlinkRead
  | isdirempty
  | nlink
  | unlinkWrite
  | filedup
  | fileclose
  | fileread
  | filewrite
  | initExiting
  | deadlock
deriving DecidableEq, Repr

/-- The fields of the super block the kernel uses after boot. The inode area lies between the log
and the bitmap, directory entries have room for every inode number, and block numbers fit in a
word. -/
structure Superblock where
  size : Nat
  ninodes : Nat
  inodestart : Nat
  bmapstart : Nat
  inodes_fit : inodestart + ninodes / IPB + 1 ≤ bmapstart
  ninodes_le : ninodes ≤ 65536
  size_le : size ≤ 4294967296

/-- The first block behind the bitmap. -/
def Superblock.datastart (sb : Superblock) : Nat := sb.bmapstart + sb.size / BPB + 1

/-- struct dinode. links is not stored: it counts exactly what is added to nlink, a short. -/
structure Dinode where
  type : Nat
  major : BitVec 16
  minor : BitVec 16
  nlink : BitVec 16
  links : Int
  size : Nat
  addrs : Nat → Nat

def Dinode.zero : Dinode := ⟨0, 0, 0, 0, 0, 0, fun _ => 0⟩

/-- The disk as the logging layer shows it: the inode blocks, the free bitmap and the contents of
all blocks. -/
structure Disk where
  inodes : Nat → Dinode
  bitmap : Nat → Bool
  data : Nat → Block

abbrev Dk := Lib.Prog Disk Panic

/-- The nth uint of a block. -/
def word (b : Block) (n : Nat) : Nat :=
  (b (4 * n)).toNat + 256 * (b (4 * n + 1)).toNat + 65536 * (b (4 * n + 2)).toNat +
    16777216 * (b (4 * n + 3)).toNat

def putWord (b : Block) (n v : Nat) : Block :=
  fun o => if o / 4 = n then BitVec.ofNat 8 (v / 256 ^ (o % 4)) else b o

def slice (b : Block) (off m : Nat) : List Byte := (List.range m).map (fun j => b (off + j))

def paste (b : Block) (off : Nat) (src : List Byte) : Block :=
  fun o => if off ≤ o then (src[o - off]?).getD (b o) else b o

/-- Allocate a zeroed disk block, 0 if there is none. -/
def balloc (sb : Superblock) : Dk Nat := do
  let s ← get
  match (List.range sb.size).find? (fun b => !s.bitmap b) with
  | some b =>
    set { s with
      bitmap := update s.bitmap b true
      data := update s.data b (fun _ => 0) }
    return b
  | none => return 0

def bfree (b : Nat) : Dk Unit := do
  let s ← get
  if s.bitmap b then set { s with bitmap := update s.bitmap b false }
  else throw .freeingFree

def Disk.put (s : Disk) (inum : Nat) (ip : Dinode) : Disk :=
  { s with inodes := update s.inodes inum ip }

def iupdate (inum : Nat) (ip : Dinode) : Dk Unit := modify (fun s => s.put inum ip)

/-- ip->addrs[k], allocated if necessary. -/
def loadAddr (sb : Superblock) (ip : Dinode) (k : Nat) : Dk (Nat × Dinode) :=
  if ip.addrs k = 0 then do
    let addr ← balloc sb
    if addr = 0 then return (0, ip)
    else return (addr, { ip with addrs := update ip.addrs k addr })
  else return (ip.addrs k, ip)

/-- The nth entry of the indirect block, allocated if necessary. -/
def loadEntry (sb : Superblock) (ind n : Nat) : Dk Nat := do
  let s ← get
  if word (s.data ind) n = 0 then do
    let addr ← balloc sb
    if addr = 0 then return 0
    else do
      modify (fun s => { s with
        data := update s.data ind (putWord (s.data ind) n addr) })
      return addr
  else return word (s.data ind) n

/-- The disk block of block bn of the file, and the inode with what had to be allocated. -/
def bmap (sb : Superblock) (ip : Dinode) (bn : Nat) : Dk (Nat × Dinode) :=
  if bn < NDIRECT then loadAddr sb ip bn
  else if bn - NDIRECT < NINDIRECT then do
    let (ind, ip) ← loadAddr sb ip NDIRECT
    if ind = 0 then return (0, ip)
    else do
      let addr ← loadEntry sb ind (bn - NDIRECT)
      return (addr, ip)
  else throw .outOfRange

/-- bfree of every address that is set. -/
def freeAll (as : List Nat) : Dk Unit := as.forM (fun a => if a = 0 then pure () else bfree a)

def freeIndirect (ip : Dinode) : Dk Unit :=
  if ip.addrs NDIRECT = 0 then pure ()
  else do
    let s ← get
    freeAll ((List.range NINDIRECT).map (word (s.data (ip.addrs NDIRECT))))
    bfree (ip.addrs NDIRECT)

def itrunc (inum : Nat) (ip : Dinode) : Dk Dinode := do
  freeAll ((List.range NDIRECT).map ip.addrs)
  freeIndirect ip
  iupdate inum { ip with addrs := fun _ => 0, size := 0 }
  return { ip with addrs := fun _ => 0, size := 0 }

/-- either_copyout reaches k bytes of the destination: always in the kernel, and as far as the
destination is writable in user memory. -/
def fits : Option Nat → Nat → Bool
  | none, _ => true
  | some room, k => k ≤ room

/-- The loop of readi; acc holds the tot bytes read so far. -/
def readLoop (sb : Superblock) (dst : Option Nat) (n : Nat) :
    Nat → Dinode → Nat → List Byte → Dk (Option (List Byte) × Dinode)
  | 0, ip, _, acc => return (some acc, ip)
  | fuel + 1, ip, off, acc =>
    if acc.length < n then do
      let (addr, ip) ← bmap sb ip (off / BSIZE)
      if addr = 0 then return (some acc, ip)
      else do
        let s ← get
        let m := min (n - acc.length) (BSIZE - off % BSIZE)
        if fits dst (acc.length + m) then
          readLoop sb dst n fuel ip (off + m) (acc ++ slice (s.data addr) (off % BSIZE) m)
        else return (none, ip)
    else return (some acc, ip)

/-- The bytes read, none for -1. The sum off + n is a uint. -/
def readi (sb : Superblock) (ip : Dinode) (dst : Option Nat) (off n : Nat) :
    Dk (Option (List Byte) × Dinode) :=
  if ip.size < off ∨ (off + n) % 4294967296 < off then return (some [], ip)
  else if ip.size < off + n then readLoop sb dst (ip.size - off) (ip.size - off) ip off []
  else readLoop sb dst n n ip off []

/-- The loop of writei. src holds the bytes either_copyin can reach; one that fails has copied
what it could. Returns tot and off. -/
def writeLoop (sb : Superblock) (src : List Byte) (n : Nat) :
    Nat → Dinode → Nat → Nat → Dk (Nat × Nat × Dinode)
  | 0, ip, off, tot => return (tot, off, ip)
  | fuel + 1, ip, off, tot =>
    if tot < n then do
      let (addr, ip) ← bmap sb ip (off / BSIZE)
      if addr = 0 then return (tot, off, ip)
      else do
        let m := min (n - tot) (BSIZE - off % BSIZE)
        let chunk := (src.drop tot).take m
        modify (fun s => { s with
          data := update s.data addr (paste (s.data addr) (off % BSIZE) chunk) })
        if chunk.length < m then return (tot, off, ip)
        else writeLoop sb src n fuel ip (off + m) (tot + m)
    else return (tot, off, ip)

def writei (sb : Superblock) (inum : Nat) (ip : Dinode) (src : List Byte) (off n : Nat) :
    Dk (Option Nat × Dinode) :=
  if ip.size < off ∨ (off + n) % 4294967296 < off then return (none, ip)
  else if MAXFILE * BSIZE < off + n then return (none, ip)
  else do
    let (tot, off, ip) ← writeLoop sb src n n ip off 0
    iupdate inum { ip with size := max ip.size off }
    return (some tot, { ip with size := max ip.size off })

/-- struct dirent, the name as strncmp sees it. -/
structure Dirent where
  inum : Nat
  name : List Byte
deriving DecidableEq, Repr

def direntSize : Nat := 16

def Dirent.ofBytes (bs : List Byte) : Dirent where
  inum := ((bs[0]?).getD 0).toNat + 256 * ((bs[1]?).getD 0).toNat
  name := ((bs.drop 2).take DIRSIZ).takeWhile (fun c => c != 0)

/-- The sixteen bytes of an entry: a ushort, and the name as strncpy fills it. -/
def Dirent.bytes (e : Dirent) : List Byte :=
  BitVec.ofNat 8 e.inum :: BitVec.ofNat 8 (e.inum / 256) ::
    (e.name.take DIRSIZ ++ List.replicate (DIRSIZ - e.name.length) 0)

/-- The loops over the entries of a directory from offset off on: it stops at the first entry that
satisfies p, or with an offset behind the last entry. -/
def scan (sb : Superblock) (bad : Panic) (p : Dirent → Bool) :
    Nat → Dinode → Nat → Dk (Nat × Option Dirent × Dinode)
  | 0, ip, off => return (off, none, ip)
  | fuel + 1, ip, off =>
    if off < ip.size then do
      let (r, ip) ← readi sb ip none off direntSize
      if (r.getD []).length = direntSize then
        if p (.ofBytes (r.getD [])) then return (off, some (.ofBytes (r.getD [])), ip)
        else scan sb bad p fuel ip (off + direntSize)
      else throw bad
    else return (off, none, ip)

end Xv6.Fs
