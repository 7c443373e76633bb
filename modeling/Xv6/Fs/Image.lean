import Xv6.Fs.Calls

namespace Xv6.Fs

/-- The super block mkfs writes: 2000 blocks, 200 inodes, 30 blocks of log. -/
def mkfsSb : Superblock := ⟨2000, 200, 32, 45, by decide, by decide, by decide⟩

/-- The root directory of a file system without files; mkfs rounds its size up to a block. -/
def freshRoot : Dinode :=
  { Dinode.zero with
    type := T_DIR, nlink := 1, links := 1, size := BSIZE
    addrs := fun k => if k = 0 then 46 else 0 }

/-- The image mkfs builds when it is given no input files. -/
def fresh : Disk where
  inodes := fun i => if i = ROOTINO then freshRoot else Dinode.zero
  bitmap := fun b => decide (b < 47)
  data := fun b =>
    if b = 46 then paste (fun _ => 0) 0
      ((Dirent.mk ROOTINO dot).bytes ++ (Dirent.mk ROOTINO dotdot).bytes)
    else fun _ => 0

end Xv6.Fs
