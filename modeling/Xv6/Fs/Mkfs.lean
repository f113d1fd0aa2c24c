import Xv6.Fs.Dir

/-!
# The file-system image

`mkfs/mkfs.c`: the image `mkfs fs.img files...` writes.  The layout is

  `[ boot block | sb block | log | inode blocks | free bit map | data blocks ]`

for `FSSIZE` blocks and `NINODES` inodes.  Every block starts zeroed; the root directory
gets `.` and `..`, each file an entry in the root and its contents, block by block from
`freeblock` on; the root's size is then rounded up past its last block, and the bitmap
marks every block below `freeblock` in use.  Block 1 holds the superblock `sb`, which the
kernel reads back at boot; here it is passed on as it is.

A file is its name in the image (after `mkfs` drops `user/` and a leading `_`) and its
contents, which `mkfs` reads and appends one `BSIZE` chunk at a time.  An `assert` that
fails stops `mkfs` (`.error`).
-/

namespace Xv6

open Bytes

namespace Mkfs

/-- `NINODES`. -/
def NINODES : Nat := 200

/-- Blocks of the free map. -/
def nbitmap : Nat := FSSIZE / (BSIZE * 8) + 1

/-- Blocks of inodes. -/
def ninodeblocks : Nat := NINODES / IPB + 1

/-- Blocks of the log. -/
def nlog : Nat := LOGSIZE

/-- Number of meta blocks (boot, sb, nlog, inode, bitmap). -/
def nmeta : Nat := 2 + nlog + ninodeblocks + nbitmap

/-- Number of data blocks. -/
def nblocks : Nat := FSSIZE - nmeta

/-- The superblock `mkfs` writes. -/
def sb : Superblock where
  size := FSSIZE.toUInt32
  nblocks := nblocks.toUInt32
  ninodes := NINODES.toUInt32
  nlog := nlog.toUInt32
  logstart := 2
  inodestart := (2 + nlog).toUInt32
  bmapstart := (2 + nlog + ninodeblocks).toUInt32

/-- The image file as `mkfs` writes it, with its counters `freeinode` and `freeblock`. -/
structure Img where
  disk : Disk
  freeinode : UInt32
  freeblock : UInt32

namespace Img

/-- `wsect`. -/
def wsect (m : Img) (sec : UInt32) (buf : Block) : Img :=
  { m with disk := Function.update m.disk sec.toNat buf }

/-- `rsect`. -/
def rsect (m : Img) (sec : UInt32) : Block := m.disk sec.toNat

/-- `winode`. -/
def winode (m : Img) (inum : UInt32) (din : DInode) : Img :=
  m.wsect (IBLOCK inum sb) (DInode.write (m.rsect (IBLOCK inum sb)) (inum.toNat % IPB) din)

/-- `rinode`. -/
def rinode (m : Img) (inum : UInt32) : DInode :=
  DInode.read (m.rsect (IBLOCK inum sb)) (inum.toNat % IPB)

/-- `ialloc`: inode `freeinode`, zeroed with its type and one link. -/
def ialloc (m : Img) (type : UInt16) : Img × UInt32 :=
  ({ m with freeinode := m.freeinode + 1 }.winode m.freeinode
    { DInode.alloc type.toInt16 with nlink := 1 }, m.freeinode)

/-- `balloc`: the bitmap block with the first `used` blocks marked in use. -/
def balloc (m : Img) (used : Nat) : Except String Img :=
  if used < BSIZE * 8 then .ok (m.wsect sb.bmapstart ((List.range used).foldl setBit fun _ => 0))
  else .error "assert"

/-- Address `i` of `din`, taken from `freeblock` if it is `0`. -/
def takeAddr (m : Img) (din : DInode) (i : Fin (NDIRECT + 1)) : Img × DInode :=
  if din.addrs i = 0 then
    ({ m with freeblock := m.freeblock + 1 },
      { din with addrs := Function.update din.addrs i m.freeblock })
  else (m, din)

/-- The block of block `fbn` of the file `din` in `iappend`, and the indirect block
on the way, each taken from `freeblock` if there is none. -/
def appendBlock (m : Img) (din : DInode) (fbn : Nat) : Img × DInode × UInt32 :=
  if h : fbn < NDIRECT then
    let (m, din) := m.takeAddr din ⟨fbn, Nat.lt_succ_of_lt h⟩
    (m, din, din.addrs ⟨fbn, Nat.lt_succ_of_lt h⟩)
  else
    let (m, din) := m.takeAddr din (Fin.last NDIRECT)
    let ind := din.addrs (Fin.last NDIRECT)
    let j := 4 * (fbn - NDIRECT)
    let m := if getWord 4 (m.rsect ind) j = 0 then
        { m.wsect ind (setWord 4 (m.rsect ind) j m.freeblock.toNat) with
          freeblock := m.freeblock + 1 }
      else m
    (m, din, (getWord 4 (m.rsect ind) j).toUInt32)

/-- The loop of `iappend` from offset `off`, with the bytes `p` still to write. -/
def iappendLoop : Nat → Img → DInode → UInt32 → List UInt8 →
    Except String (Img × DInode × UInt32)
  | 0, m, din, off, _ => .ok (m, din, off)
  | fuel + 1, m, din, off, p =>
    if p = [] then .ok (m, din, off)
    else
      let fbn := off.toNat / BSIZE
      if MAXFILE ≤ fbn then .error "assert"
      else
        let (m, din, x) := m.appendBlock din fbn
        let n1 := min p.length ((fbn + 1) * BSIZE - off.toNat)
        let m := m.wsect x (setBytes (m.rsect x) (off.toNat - fbn * BSIZE) (p.take n1))
        iappendLoop fuel m din (off + n1.toUInt32) (p.drop n1)

/-- `iappend`: the bytes `p` added at the end of inode `inum`. -/
def iappend (m : Img) (inum : UInt32) (p : List UInt8) : Except String Img := do
  let din := m.rinode inum
  -- each pass writes at least one byte
  let (m, din, off) ← iappendLoop (p.length + 1) m din din.size p
  pure (m.winode inum { din with size := off })

end Img

/-- `mkfs fs.img files...`: the superblock and the disk. -/
def mkfs (files : List (List UInt8 × List UInt8)) : Except String (Superblock × Disk) := do
  let m : Img := ⟨fun _ _ => 0, 1, nmeta.toUInt32⟩
  let (m, rootino) := m.ialloc T_DIR.toUInt16
  if rootino ≠ ROOTINO then throw "assert"
  let m ← m.iappend rootino (Dirent.toBytes ⟨rootino.toUInt16, strncpy dot DIRSIZ⟩)
  let m ← m.iappend rootino (Dirent.toBytes ⟨rootino.toUInt16, strncpy dotdot DIRSIZ⟩)
  let m ← files.foldlM (fun m file => do
      if 47 ∈ file.1 then throw "assert"
      let (m, inum) := m.ialloc T_FILE.toUInt16
      let m ← m.iappend rootino (Dirent.toBytes ⟨inum.toUInt16, strncpy file.1 DIRSIZ⟩)
      (file.2.toChunks BSIZE).foldlM (fun m buf => m.iappend inum buf) m) m
  -- fix size of root inode dir
  let din := m.rinode rootino
  let m := m.winode rootino { din with size := (din.size / BSIZE.toUInt32 + 1) * BSIZE.toUInt32 }
  let m ← m.balloc m.freeblock.toNat
  pure (sb, m.disk)

/-- Sixty-two empty files, named `A` to `~`: with `.` and `..` the root directory holds 64
entries of 16 bytes, which end exactly at the end of its block 0.  The size fix makes it
2048 bytes long, and its block 1, as the kernel reads the root's disk inode, has no
address. -/
theorem mkfs_root_hole :
    ∃ s d, mkfs ((List.range 62).map fun i => ([(65 + i).toUInt8], [])) = .ok (s, d) ∧
      (Fsys.dinode ⟨s, d, fun _ => Inode.zero⟩ ROOTINO).size = 2 * BSIZE.toUInt32 ∧
      (Fsys.dinode ⟨s, d, fun _ => Inode.zero⟩ ROOTINO).addrs 1 = 0 := by
  -- the image is computed once, by the kernel
  have h : (match mkfs ((List.range 62).map fun i => ([(65 + i).toUInt8], [])) with
      | .ok (s, d) => ((Fsys.dinode ⟨s, d, fun _ => Inode.zero⟩ ROOTINO).size,
          (Fsys.dinode ⟨s, d, fun _ => Inode.zero⟩ ROOTINO).addrs 1)
      | .error _ => (0, 1)) = (2 * BSIZE.toUInt32, 0) := by
    decide +kernel
  generalize mkfs ((List.range 62).map fun i => ([(65 + i).toUInt8], [])) = r at h
  rcases r with e | ⟨s, d⟩
  · simp at h
  · exact ⟨s, d, rfl, congrArg Prod.fst h, congrArg Prod.snd h⟩

end Mkfs

end Xv6
