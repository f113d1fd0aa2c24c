import Xv6.Param
import Xv6.Lib.Word

/-!
# The on-disk layout of the file system

`kernel/fs.h`: the superblock, the disk inode, the free bitmap and the directory entry,
each as the code reads and writes it in the bytes of a block.  The code casts a block to
`struct dinode *`, to `uint *` or to `struct dirent`; here each cast is a little-endian
read (`DInode.read`, `bitAt`, `Dirent.ofBytes`) and a store (`DInode.write`, `setBit`,
`clearBit`, `Dirent.toBytes`) over the words of `Xv6.Lib.Word`.

A disk inode reads back what was stored in its slot, and a store in one slot leaves every
other slot of the block alone (`DInode.read_write_self`, `DInode.read_write_of_ne`); a bit
of the free map reads back as set, and the other bits stay (`bitAt_setBit`).
-/

namespace Xv6

open Bytes

/-! ## Constants of `fs.h` and `stat.h` -/

/-- `ROOTINO`: root i-number. -/
def ROOTINO : UInt32 := 1

/-- `ROOTDEV`: device number of file system root disk. -/
def ROOTDEV : UInt32 := 1

def NDIRECT : Nat := 12

/-- `NINDIRECT`: `BSIZE / sizeof(uint)`. -/
def NINDIRECT : Nat := BSIZE / 4

def MAXFILE : Nat := NDIRECT + NINDIRECT

/-- `IPB`: inodes per block; a `struct dinode` is 64 bytes. -/
def IPB : Nat := BSIZE / 64

/-- `BPB`: bitmap bits per block. -/
def BPB : Nat := BSIZE * 8

/-- `DIRSIZ`: the bytes of a name in a directory entry. -/
def DIRSIZ : Nat := 14

def T_DIR : Int16 := 1

def T_FILE : Int16 := 2

def T_DEVICE : Int16 := 3

theorem NDIRECT_eq : NDIRECT = 12 := rfl

theorem IPB_eq : IPB = 16 := rfl

theorem BPB_eq : BPB = 8192 := rfl

theorem BSIZE_eq : BSIZE = 1024 := rfl

/-- `struct superblock`, less `magic`, which only `fsinit` checks. -/
structure Superblock where
  size : UInt32
  nblocks : UInt32
  ninodes : UInt32
  nlog : UInt32
  logstart : UInt32
  inodestart : UInt32
  bmapstart : UInt32

/-- `IBLOCK(i, sb)`: the block holding inode `i`. -/
def IBLOCK (i : UInt32) (sb : Superblock) : UInt32 := i / IPB.toUInt32 + sb.inodestart

/-- `BBLOCK(b, sb)`: the block of the free map holding the bit of block `b`. -/
def BBLOCK (b : UInt32) (sb : Superblock) : UInt32 := b / BPB.toUInt32 + sb.bmapstart

/-! ## Disk inodes -/

/-- `struct dinode`. -/
@[ext] structure DInode where
  type : Int16
  major : Int16
  minor : Int16
  nlink : Int16
  size : UInt32
  addrs : Fin (NDIRECT + 1) → UInt32

/-- The disk inode in slot `k` of a block of inodes: `(struct dinode *)bp->data + k`. -/
def DInode.read (blk : Block) (k : Nat) : DInode where
  type := (getWord 2 blk (64 * k)).toUInt16.toInt16
  major := (getWord 2 blk (64 * k + 2)).toUInt16.toInt16
  minor := (getWord 2 blk (64 * k + 4)).toUInt16.toInt16
  nlink := (getWord 2 blk (64 * k + 6)).toUInt16.toInt16
  size := (getWord 4 blk (64 * k + 8)).toUInt32
  addrs i := (getWord 4 blk (64 * k + 12 + 4 * i)).toUInt32

/-- `x` stored in slot `k`: the field assignments of `iupdate`, then the `memmove` of
`addrs`. -/
def DInode.write (blk : Block) (k : Nat) (x : DInode) : Block :=
  setWords 4
    (setWord 4 (setWord 2 (setWord 2 (setWord 2 (setWord 2 blk
      (64 * k) x.type.toUInt16.toNat)
      (64 * k + 2) x.major.toUInt16.toNat)
      (64 * k + 4) x.minor.toUInt16.toNat)
      (64 * k + 6) x.nlink.toUInt16.toNat)
      (64 * k + 8) x.size.toNat)
    (64 * k + 12) ((List.finRange (NDIRECT + 1)).map fun i => (x.addrs i).toNat)

/-- The disk inode `ialloc` writes: `memset(dip, 0, sizeof(*dip))`, then the type. -/
def DInode.alloc (type : Int16) : DInode := ⟨type, 0, 0, 0, 0, fun _ => 0⟩

section Codec

variable (blk : Block) (x : DInode)

theorem DInode.length_addrs :
    ((List.finRange (NDIRECT + 1)).map fun i => (x.addrs i).toNat).length = 13 := by
  simp [NDIRECT_eq]

theorem DInode.getWord_write_of_disjoint (k : Nat) {w o : Nat}
    (h : o + w ≤ 64 * k ∨ 64 * k + 64 ≤ o) :
    getWord w (DInode.write blk k x) o = getWord w blk o := by
  have hl := DInode.length_addrs x
  simp (disch := omega) only [DInode.write, getWord_setWords_of_disjoint,
    getWord_setWord_of_disjoint]

theorem DInode.read_write_self {k : Nat} (hk : k < IPB) :
    DInode.read (DInode.write blk k x) k = x := by
  rw [IPB_eq] at hk
  have hfit : 64 * k + 64 ≤ BSIZE := by rw [BSIZE_eq]; omega
  have hl := DInode.length_addrs x
  ext
  all_goals simp (disch := omega) only [DInode.read, DInode.write, getWord_setWords_of_disjoint,
    getWord_setWord_of_disjoint, getWord_setWord_self]
  · simp
  · simp
  · simp
  · simp
  · simp
  · rename_i i
    have h := getWord_setWords_get 4 (setWord 4 (setWord 2 (setWord 2 (setWord 2 (setWord 2 blk
      (64 * k) x.type.toUInt16.toNat)
      (64 * k + 2) x.major.toUInt16.toNat)
      (64 * k + 4) x.minor.toUInt16.toNat)
      (64 * k + 6) x.nlink.toUInt16.toNat)
      (64 * k + 8) x.size.toNat) (64 * k + 12)
      ((List.finRange (NDIRECT + 1)).map fun i => (x.addrs i).toNat) (i := i.val)
      (by rw [hl]; exact i.isLt) (by omega)
    rw [h]
    simp

theorem DInode.read_write_of_ne {j k : Nat} (hjk : j ≠ k) :
    DInode.read (DInode.write blk k x) j = DInode.read blk j := by
  have hd : 64 * j + 64 ≤ 64 * k ∨ 64 * k + 64 ≤ 64 * j := by omega
  ext <;> simp only [DInode.read]
  · rw [DInode.getWord_write_of_disjoint _ _ _ (by omega)]
  · rw [DInode.getWord_write_of_disjoint _ _ _ (by omega)]
  · rw [DInode.getWord_write_of_disjoint _ _ _ (by omega)]
  · rw [DInode.getWord_write_of_disjoint _ _ _ (by omega)]
  · rw [DInode.getWord_write_of_disjoint _ _ _ (by omega)]
  · rename_i i
    have hi : i.val < 13 := i.isLt
    rw [DInode.getWord_write_of_disjoint _ _ _ (by omega)]

end Codec

/-- Distinct inodes have distinct places: another block, or another slot of the block. -/
theorem IBLOCK_slot_inj {sb : Superblock} {i j : UInt32} (hb : IBLOCK i sb = IBLOCK j sb)
    (hk : i.toNat % IPB = j.toNat % IPB) : i = j := by
  have h := congrArg UInt32.toNat hb
  simp only [IBLOCK, UInt32.toNat_add, UInt32.toNat_div, IPB_eq] at h hk
  have hi := i.toNat_lt
  have hj := j.toNat_lt
  have hs := sb.inodestart.toNat_lt
  apply UInt32.toNat_inj.1
  simp at h
  omega

/-- Distinct blocks have distinct bits: another block of the free map, or another bit of
the block. -/
theorem BBLOCK_slot_inj {sb : Superblock} {b c : UInt32} (hb : BBLOCK b sb = BBLOCK c sb)
    (hk : b.toNat % BPB = c.toNat % BPB) : b = c := by
  have h := congrArg UInt32.toNat hb
  simp only [BBLOCK, UInt32.toNat_add, UInt32.toNat_div, BPB_eq] at h hk
  have hb' := b.toNat_lt
  have hc := c.toNat_lt
  have hs := sb.bmapstart.toNat_lt
  apply UInt32.toNat_inj.1
  simp at h
  omega

/-! ## The free map -/

/-- Bit `bi` of a block of the free map: `bp->data[bi/8] & (1 << (bi % 8))`. -/
def bitAt (blk : Block) (bi : Nat) : Bool := (byteAt blk (bi / 8)).testBit (bi % 8)

/-- `bp->data[bi/8] |= m`. -/
def setBit (blk : Block) (bi : Nat) : Block :=
  setByte blk (bi / 8) (byteAt blk (bi / 8) ||| 1 <<< (bi % 8))

/-- `bp->data[bi/8] &= ~m`. -/
def clearBit (blk : Block) (bi : Nat) : Block :=
  setByte blk (bi / 8) (byteAt blk (bi / 8) &&& (255 ^^^ 1 <<< (bi % 8)))

section Bits

variable (blk : Block) {bi bj : Nat}

theorem bitAt_setBit (hj : bj < BPB) : bitAt (setBit blk bi) bj = (bj == bi || bitAt blk bj) := by
  rw [BPB_eq] at hj
  have hlt := byteAt_lt blk (bi / 8)
  unfold bitAt setBit
  rw [byteAt_setByte]
  by_cases hb : bj / 8 = bi / 8
  · have hv : (byteAt blk (bi / 8) ||| 1 <<< (bi % 8)) < 256 :=
      Nat.or_lt_two_pow (n := 8) hlt (by rw [Nat.one_shiftLeft]; exact Nat.pow_lt_pow_right (by omega) (by omega))
    rw [if_pos ⟨hb, by rw [BSIZE_eq]; omega⟩, Nat.mod_eq_of_lt hv, hb]
    simp only [Nat.testBit_or, Nat.one_shiftLeft, Nat.testBit_two_pow]
    by_cases hji : bj = bi
    · subst hji; simp
    · have : bi % 8 ≠ bj % 8 := by omega
      simp [hji, this]
  · rw [if_neg (fun h => hb h.1)]
    have : bj ≠ bi := fun h => hb (by rw [h])
    simp [this]

end Bits

/-! ## Directory entries -/

/-- `struct dirent`, as the 16 bytes `readi` copies into it: a `ushort` and `DIRSIZ`
bytes of name. -/
structure Dirent where
  inum : UInt16
  name : List UInt8

/-- The entry in 16 bytes read from a directory. -/
def Dirent.ofBytes (bs : List UInt8) : Dirent :=
  ⟨((bs.getD 0 0).toNat + 256 * (bs.getD 1 0).toNat).toUInt16, bs.drop 2⟩

/-- The bytes of an entry, as `writei` copies them from `&de`. -/
def Dirent.toBytes (de : Dirent) : List UInt8 :=
  (de.inum.toNat % 256).toUInt8 :: (de.inum.toNat / 256).toUInt8 :: de.name

theorem Dirent.ofBytes_toBytes (de : Dirent) : Dirent.ofBytes de.toBytes = de := by
  have h := de.inum.toNat_lt
  simp only [Dirent.ofBytes, Dirent.toBytes, List.getD_cons_zero, List.getD_cons_succ,
    List.drop_succ_cons, List.drop_zero]
  congr 1
  apply UInt16.toNat_inj.1
  simp
  omega

end Xv6
