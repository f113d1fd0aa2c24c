import Xv6.Fs.Layout
import Xv6.Lib.Outcome
import Xv6.Vm.Copy

/-!
# Inodes: the block allocator, the inode table and file contents

`kernel/fs.c`, lines 56-530: `balloc`, `bfree`, `ialloc`, `iupdate`, `iget`, `idup`,
`ilock`, `iunlock`, `iput`, `bmap`, `itrunc`, `readi` and `writei`, over `Fsys`: the
superblock, the disk, and the inode table.

Each call runs inside a transaction against the disk as the buffer cache and the log
present it (`Xv6.Bio`, `Xv6.Log`): a `bread` reads a block's current contents, and a
store followed by `log_write` changes them.  A store through a buffer read earlier in
the same call goes to the block's current contents, as it does in the cache, where both
reads of one block share one buffer.  The inodes' sleep-locks are left out: one call at
a time runs in the file system.

`readi` and `writei` copy through `either_copyout` and `either_copyin`: to or from a kernel
buffer, or to or from user memory through a page table with `copyout` and `copyin` of
`Xv6.Vm.Copy`, which fail on a page the table does not give the user.
-/

namespace Xv6

open Bytes

/-- `struct inode`, the in-memory copy of an inode, less its sleep-lock. -/
structure Inode where
  dev : UInt32
  inum : UInt32
  ref : Int
  valid : Bool
  type : Int16
  major : Int16
  minor : Int16
  nlink : Int16
  size : UInt32
  addrs : Fin (NDIRECT + 1) → UInt32

/-- An entry of the zero-initialised `itable`. -/
def Inode.zero : Inode := ⟨0, 0, 0, false, 0, 0, 0, 0, 0, fun _ => 0⟩

/-- The fields of an inode that live on disk, as `iupdate` copies them. -/
def Inode.toDInode (x : Inode) : DInode := ⟨x.type, x.major, x.minor, x.nlink, x.size, x.addrs⟩

/-- The superblock `sb`, the disk, and `itable`. -/
structure Fsys where
  sb : Superblock
  disk : Disk
  inode : Fin NINODE → Inode

namespace Fsys

variable (s : Fsys)

/-- The disk inode `inum`: `(struct dinode*)bp->data + inum%IPB` in block `IBLOCK(inum, sb)`. -/
def dinode (inum : UInt32) : DInode :=
  DInode.read (s.disk (IBLOCK inum s.sb).toNat) (inum.toNat % IPB)

/-- The disk inode `inum` replaced by `x`, and its block logged. -/
def setDinode (inum : UInt32) (x : DInode) : Fsys :=
  { s with disk := (Function.update s.disk (IBLOCK inum s.sb).toNat
      (DInode.write (s.disk (IBLOCK inum s.sb).toNat) (inum.toNat % IPB) x)) }

/-- The table entry `ip` replaced by `x`. -/
def setInode (ip : Fin NINODE) (x : Inode) : Fsys :=
  { s with inode := Function.update s.inode ip x }

/-- Address `i` of the table entry `ip` set to `addr`: `ip->addrs[i] = addr`. -/
def setAddr (ip : Fin NINODE) (i : Fin (NDIRECT + 1)) (addr : UInt32) : Fsys :=
  s.setInode ip { s.inode ip with addrs := Function.update (s.inode ip).addrs i addr }

/-- The bit of block `b` in the free map. -/
def bit (b : UInt32) : Bool := bitAt (s.disk (BBLOCK b s.sb).toNat) (b.toNat % BPB)

/-- `bp->data[bi/8] |= m; log_write(bp)` in `balloc`. -/
def markUsed (b : UInt32) : Fsys :=
  { s with disk := (Function.update s.disk (BBLOCK b s.sb).toNat
      (setBit (s.disk (BBLOCK b s.sb).toNat) (b.toNat % BPB))) }

/-- `bp->data[bi/8] &= ~m; log_write(bp)` in `bfree`. -/
def markFree (b : UInt32) : Fsys :=
  { s with disk := (Function.update s.disk (BBLOCK b s.sb).toNat
      (clearBit (s.disk (BBLOCK b s.sb).toNat) (b.toNat % BPB))) }

/-- Entry `j` of the indirect block `ind`: `((uint*)bp->data)[j]`. -/
def indirect (ind : UInt32) (j : Nat) : UInt32 := (getWord 4 (s.disk ind.toNat) (4 * j)).toUInt32

/-- `a[j] = addr; log_write(bp)` on the indirect block `ind`. -/
def setIndirect (ind : UInt32) (j : Nat) (addr : UInt32) : Fsys :=
  { s with disk := Function.update s.disk ind.toNat (setWord 4 (s.disk ind.toNat) (4 * j) addr.toNat) }

/-- A store to block `a` of the disk: the block's buffer changed, then `log_write`. -/
def put (a : Nat) (v : Block) : Fsys := { s with disk := Function.update s.disk a v }

@[simp] theorem put_sb (a : Nat) (v : Block) : (s.put a v).sb = s.sb := rfl
@[simp] theorem put_inode (a : Nat) (v : Block) : (s.put a v).inode = s.inode := rfl
@[simp] theorem put_disk (a : Nat) (v : Block) : (s.put a v).disk = Function.update s.disk a v := rfl
@[simp] theorem setInode_sb (ip : Fin NINODE) (x : Inode) : (s.setInode ip x).sb = s.sb := rfl
@[simp] theorem setInode_disk (ip : Fin NINODE) (x : Inode) : (s.setInode ip x).disk = s.disk := rfl
@[simp] theorem setInode_inode (ip : Fin NINODE) (x : Inode) :
    (s.setInode ip x).inode = Function.update s.inode ip x := rfl

theorem setDinode_eq (inum : UInt32) (x : DInode) :
    s.setDinode inum x = s.put (IBLOCK inum s.sb).toNat
      (DInode.write (s.disk (IBLOCK inum s.sb).toNat) (inum.toNat % IPB) x) := rfl

@[simp] theorem markUsed_sb (b : UInt32) : (s.markUsed b).sb = s.sb := rfl
@[simp] theorem markUsed_inode (b : UInt32) : (s.markUsed b).inode = s.inode := rfl
@[simp] theorem setIndirect_sb (ind : UInt32) (j : Nat) (addr : UInt32) :
    (s.setIndirect ind j addr).sb = s.sb := rfl
@[simp] theorem setIndirect_inode (ind : UInt32) (j : Nat) (addr : UInt32) :
    (s.setIndirect ind j addr).inode = s.inode := rfl

theorem markUsed_eq (b : UInt32) :
    s.markUsed b = s.put (BBLOCK b s.sb).toNat (setBit (s.disk (BBLOCK b s.sb).toNat) (b.toNat % BPB)) :=
  rfl

theorem markFree_eq (b : UInt32) :
    s.markFree b = s.put (BBLOCK b s.sb).toNat (clearBit (s.disk (BBLOCK b s.sb).toNat) (b.toNat % BPB)) :=
  rfl

@[simp] theorem markFree_sb (b : UInt32) : (s.markFree b).sb = s.sb := rfl
@[simp] theorem markFree_inode (b : UInt32) : (s.markFree b).inode = s.inode := rfl

theorem setIndirect_eq (ind : UInt32) (j : Nat) (addr : UInt32) :
    s.setIndirect ind j addr = s.put ind.toNat (setWord 4 (s.disk ind.toNat) (4 * j) addr.toNat) :=
  rfl

theorem setAddr_eq (ip : Fin NINODE) (i : Fin (NDIRECT + 1)) (addr : UInt32) :
    s.setAddr ip i addr =
      s.setInode ip { s.inode ip with addrs := Function.update (s.inode ip).addrs i addr } := rfl

@[simp] theorem setAddr_sb (ip : Fin NINODE) (i : Fin (NDIRECT + 1)) (addr : UInt32) :
    (s.setAddr ip i addr).sb = s.sb := rfl
@[simp] theorem setAddr_disk (ip : Fin NINODE) (i : Fin (NDIRECT + 1)) (addr : UInt32) :
    (s.setAddr ip i addr).disk = s.disk := rfl
@[simp] theorem setAddr_inode_self (ip : Fin NINODE) (i : Fin (NDIRECT + 1)) (addr : UInt32) :
    (s.setAddr ip i addr).inode ip = { s.inode ip with addrs := Function.update (s.inode ip).addrs i addr } := by
  simp [setAddr]

end Fsys

/-! ## Blocks -/

/-- `bzero`. -/
def bzero (s : Fsys) (b : UInt32) : Fsys :=
  { s with disk := Function.update s.disk b.toNat fun _ => 0 }

theorem bzero_eq (s : Fsys) (b : UInt32) : bzero s b = s.put b.toNat fun _ => 0 := rfl

@[simp] theorem bzero_sb (s : Fsys) (b : UInt32) : (bzero s b).sb = s.sb := rfl
@[simp] theorem bzero_inode (s : Fsys) (b : UInt32) : (bzero s b).inode = s.inode := rfl

/-- `balloc`: the first block whose bit is clear, in the order its two loops visit them
(bitmap block by bitmap block, bit by bit, below `sb.size`), marked in use and zeroed;
`0` when every block is in use. -/
def balloc (s : Fsys) : Fsys × UInt32 :=
  match (List.range s.sb.size.toNat).find? (fun b => !s.bit b.toUInt32) with
  | some b => (bzero (s.markUsed b.toUInt32) b.toUInt32, b.toUInt32)
  | none => (s, 0)

/-- `bfree`. -/
def bfree (s : Fsys) (b : UInt32) : Except String Fsys :=
  if s.bit b then .ok (s.markFree b) else .error "freeing free block"

/-! ## The inode table -/

/-- `iupdate`: the on-disk fields of the entry copied to its disk inode. -/
def iupdate (s : Fsys) (ip : Fin NINODE) : Fsys :=
  s.setDinode (s.inode ip).inum (s.inode ip).toDInode

/-- `iget`: the entry holding `(dev, inum)` with one more reference, or else the first free
entry, recycled for it. -/
def iget (s : Fsys) (dev inum : UInt32) : Except String (Fsys × Fin NINODE) :=
  match (List.finRange NINODE).find? (fun i =>
      decide (0 < (s.inode i).ref) && (s.inode i).dev == dev && (s.inode i).inum == inum) with
  | some i => .ok (s.setInode i { s.inode i with ref := (s.inode i).ref + 1 }, i)
  | none =>
    match (List.finRange NINODE).find? (fun i => (s.inode i).ref == 0) with
    | some e => .ok (s.setInode e { s.inode e with dev, inum, ref := 1, valid := false }, e)
    | none => .error "iget: no inodes"

/-- `idup`. -/
def idup (s : Fsys) (ip : Fin NINODE) : Fsys :=
  s.setInode ip { s.inode ip with ref := (s.inode ip).ref + 1 }

/-- `ialloc`: the first disk inode from `1` with type `0`, zeroed with the type `type`, and
its entry from `iget`; `none` when there is none. -/
def ialloc (s : Fsys) (dev : UInt32) (type : Int16) :
    Except String (Fsys × Option (Fin NINODE)) :=
  match (List.range' 1 (s.sb.ninodes.toNat - 1)).find? (fun inum =>
      (s.dinode inum.toUInt32).type == 0) with
  | some inum =>
    (iget (s.setDinode inum.toUInt32 (DInode.alloc type)) dev inum.toUInt32).map
      fun r => (r.1, some r.2)
  | none => .ok (s, none)

/-- `ilock`, less the sleep-lock: the entry read from its disk inode if not valid. -/
def ilock (s : Fsys) (ip : Fin NINODE) : Except String Fsys :=
  let x := s.inode ip
  if x.ref < 1 then .error "ilock"
  else if x.valid then .ok s
  else
    let d := s.dinode x.inum
    if d.type = 0 then .error "ilock: no type"
    else .ok (s.setInode ip
      { x with type := d.type, major := d.major, minor := d.minor, nlink := d.nlink,
               size := d.size, addrs := d.addrs, valid := true })

/-- `iunlock`, less the sleep-lock. -/
def iunlock (s : Fsys) (ip : Fin NINODE) : Except String Fsys :=
  if (s.inode ip).ref < 1 then .error "iunlock" else .ok s

/-! ## Inode contents -/

/-- The second half of `bmap`: entry `bn` of the indirect block `ind`, allocated if zero. -/
def bmapEntry (s : Fsys) (ind : UInt32) (bn : Nat) : Fsys × UInt32 :=
  if s.indirect ind bn = 0 then
    let r := balloc s
    if r.2 = 0 then (r.1, 0) else (r.1.setIndirect ind bn r.2, r.2)
  else (s, s.indirect ind bn)

/-- `bmap`: the disk block of block `bn` of the file, allocated if there is none; `0` when
the disk is full. -/
def bmap (s : Fsys) (ip : Fin NINODE) (bn : Nat) : Except String (Fsys × UInt32) :=
  if h : bn < NDIRECT then
    let i : Fin (NDIRECT + 1) := ⟨bn, Nat.lt_succ_of_lt h⟩
    if (s.inode ip).addrs i = 0 then
      let r := balloc s
      if r.2 = 0 then .ok (r.1, 0) else .ok (r.1.setAddr ip i r.2, r.2)
    else .ok (s, (s.inode ip).addrs i)
  else if bn - NDIRECT < NINDIRECT then
    -- load the indirect block, allocating it if necessary
    if (s.inode ip).addrs (Fin.last NDIRECT) = 0 then
      let r := balloc s
      if r.2 = 0 then .ok (r.1, 0)
      else .ok (bmapEntry (r.1.setAddr ip (Fin.last NDIRECT) r.2) r.2 (bn - NDIRECT))
    else .ok (bmapEntry s ((s.inode ip).addrs (Fin.last NDIRECT)) (bn - NDIRECT))
  else .error "bmap: out of range"

/-- The first loop of `itrunc`: each direct block freed and its address cleared. -/
def itruncDirect (ip : Fin NINODE) (s : Fsys) : Except String Fsys :=
  (List.finRange NDIRECT).foldlM (fun s i =>
    if (s.inode ip).addrs i.castSucc ≠ 0 then
      (bfree s ((s.inode ip).addrs i.castSucc)).map fun s => s.setAddr ip i.castSucc 0
    else .ok s) s

/-- The second half of `itrunc`: each block the indirect block names freed, read from the
buffer as it stands, then the indirect block. -/
def itruncIndirect (ip : Fin NINODE) (s : Fsys) : Except String Fsys :=
  let ind := (s.inode ip).addrs (Fin.last NDIRECT)
  if ind ≠ 0 then do
    let s ← (List.range NINDIRECT).foldlM (fun s j =>
      if s.indirect ind j ≠ 0 then bfree s (s.indirect ind j) else .ok s) s
    let s ← bfree s ind
    pure (s.setAddr ip (Fin.last NDIRECT) 0)
  else .ok s

/-- `itrunc`. -/
def itrunc (s : Fsys) (ip : Fin NINODE) : Except String Fsys := do
  let s ← itruncDirect ip s
  let s ← itruncIndirect ip s
  pure (iupdate (s.setInode ip { s.inode ip with size := 0 }) ip)

/-- `iput`: one reference less; the last one to an inode with no links truncates it and
frees it on disk. -/
def iput (s : Fsys) (ip : Fin NINODE) : Except String Fsys := do
  let x := s.inode ip
  let s ← if x.ref = 1 ∧ x.valid ∧ x.nlink = 0 then do
      let s ← itrunc s ip
      let s := iupdate (s.setInode ip { s.inode ip with type := 0 }) ip
      pure (s.setInode ip { s.inode ip with valid := false })
    else pure s
  pure (s.setInode ip { s.inode ip with ref := (s.inode ip).ref - 1 })

/-- The part of `iput` that runs with `itable.lock` released and the inode's sleep-lock
held: the inode truncated, its type cleared on disk, and the entry marked not valid. -/
def iputTrunc (s : Fsys) (ip : Fin NINODE) : Except String Fsys := do
  let s ← itrunc s ip
  let s := iupdate (s.setInode ip { s.inode ip with type := 0 }) ip
  pure (s.setInode ip { s.inode ip with valid := false })

/-- The end of `iput`, under `itable.lock`: `ip->ref--`. -/
def iputDrop (s : Fsys) (ip : Fin NINODE) : Fsys :=
  s.setInode ip { s.inode ip with ref := (s.inode ip).ref - 1 }

/-- `iput` is its truncation, when it frees the inode, followed by its decrement. -/
theorem iput_eq (s : Fsys) (ip : Fin NINODE) :
    iput s ip = (if (s.inode ip).ref = 1 ∧ (s.inode ip).valid ∧ (s.inode ip).nlink = 0 then
      iputTrunc s ip else .ok s).map fun s => iputDrop s ip := by
  unfold iput iputTrunc iputDrop
  by_cases hc : (s.inode ip).ref = 1 ∧ (s.inode ip).valid ∧ (s.inode ip).nlink = 0
  · simp only [if_pos hc]
    cases itrunc s ip <;> rfl
  · simp only [if_neg hc]
    rfl

/-- `iunlockput`. -/
def iunlockput (s : Fsys) (ip : Fin NINODE) : Except String Fsys := do
  let s ← iunlock s ip
  iput s ip

/-! ## Copies to and from the caller -/

/-- Where `writei` copies from: a kernel buffer (`user_src` is `0`), or user memory from
`va` through the page table `pt` (`user_src` is `1`). -/
inductive Src where
  | kernel (buf : List UInt8)
  | user (vm : VM) (pt va : UInt64)

/-- Where `readi` copies to: a kernel buffer, with the bytes copied into it so far
(`user_dst` is `0`), or user memory from `va` through the page table `pt` (`user_dst` is
`1`). -/
inductive Dst where
  | kernel (buf : List UInt8)
  | user (vm : VM) (pt va : UInt64)

/-- The bytes in a kernel buffer. -/
def Dst.buf : Dst → List UInt8
  | .kernel buf => buf
  | .user .. => []

/-- The user memory after copies to `dst`, or `vm` if it is a kernel buffer. -/
def Dst.mem (vm : VM) : Dst → VM
  | .kernel _ => vm
  | .user vm' .. => vm'

/-- `either_copyin(dst, user_src, src + tot, m)`: the bytes copied to `dst`, in order, and
`0` or `-1`.  `memmove` from a kernel buffer does not fail. -/
def eitherCopyin : Src → Nat → Nat → List UInt8 × Int
  | .kernel buf, tot, m => ((buf.drop tot).take m, 0)
  | .user vm pt va, tot, m => copyin vm pt (va + tot.toUInt64) m.toUInt64

/-- `either_copyout(user_dst, dst + tot, bs, len)`: the destination after, and `0` or `-1`. -/
def eitherCopyout : Dst → Nat → List UInt8 → Dst × Int
  | .kernel buf, _, bs => (.kernel (buf ++ bs), 0)
  | .user vm pt va, tot, bs =>
    let r := copyout vm pt (va + tot.toUInt64) (fun k => bs.getD k 0) bs.length.toUInt64
    (.user r.1 pt va, r.2)

/-! ## `readi` and `writei` -/

/-- The loop of `readi` from `tot` bytes read at `off`, each block's bytes copied out to
`dst`: the destination and `tot` at its end, `-1` after a copy that failed. -/
def readiLoop (ip : Fin NINODE) (n : UInt32) :
    Nat → Fsys → UInt32 → UInt32 → Dst → Except String (Fsys × Dst × UInt32)
  | 0, s, tot, _, dst => .ok (s, dst, tot)
  | fuel + 1, s, tot, off, dst =>
    if tot < n then
      match bmap s ip (off / BSIZE.toUInt32).toNat with
      | .error e => .error e
      | .ok (s, addr) =>
        if addr = 0 then .ok (s, dst, tot)
        else
          let m := min (n - tot) (BSIZE.toUInt32 - off % BSIZE.toUInt32)
          let (dst, r) := eitherCopyout dst tot.toNat
            (getBytes (s.disk addr.toNat) (off % BSIZE.toUInt32).toNat m.toNat)
          if r = -1 then .ok (s, dst, -1)
          else readiLoop ip n fuel s (tot + m) (off + m) dst
    else .ok (s, dst, tot)

/-- `readi` to `dst`: the destination after, and `tot`, a `uint` returned as an `int`. -/
def readi (s : Fsys) (ip : Fin NINODE) (dst : Dst) (off n : UInt32) :
    Except String (Fsys × Dst × Int) :=
  if off > (s.inode ip).size ∨ off + n < off then .ok (s, dst, 0)
  else
    let n := if off + n > (s.inode ip).size then (s.inode ip).size - off else n
    -- each pass reads at least one byte
    (readiLoop ip n n.toNat s 0 off dst).map fun r => (r.1, r.2.1, r.2.2.toInt32.toInt)

/-- The loop of `writei` from `tot` bytes written at `off`: the state, `tot` and `off` at
its end. -/
def writeiLoop (ip : Fin NINODE) (n : UInt32) (src : Src) :
    Nat → Fsys → UInt32 → UInt32 → Except String (Fsys × UInt32 × UInt32)
  | 0, s, tot, off => .ok (s, tot, off)
  | fuel + 1, s, tot, off =>
    if tot < n then
      match bmap s ip (off / BSIZE.toUInt32).toNat with
      | .error e => .error e
      | .ok (s, addr) =>
        if addr = 0 then .ok (s, tot, off)
        else
          let m := min (n - tot) (BSIZE.toUInt32 - off % BSIZE.toUInt32)
          let (bs, r) := eitherCopyin src tot.toNat m.toNat
          -- a failed copy has already put the bytes it copied in the buffer, which stays
          -- in the cache without `log_write`
          let s := s.put addr.toNat (setBytes (s.disk addr.toNat) (off % BSIZE.toUInt32).toNat bs)
          if r = -1 then .ok (s, tot, off)
          else writeiLoop ip n src fuel s (tot + m) (off + m)
    else .ok (s, tot, off)

/-- `writei` of `n` bytes from `src`: the number written, or `-1`.  `tot` is at most
`MAXFILE * BSIZE`, so it is the same as an `int`. -/
def writei (s : Fsys) (ip : Fin NINODE) (src : Src) (off n : UInt32) :
    Except String (Fsys × Int) :=
  if off > (s.inode ip).size ∨ off + n < off then .ok (s, -1)
  else if MAXFILE * BSIZE < (off + n).toNat then .ok (s, -1)
  else do
    let (s, tot, off) ← writeiLoop ip n src n.toNat s 0 off
    let s := if off > (s.inode ip).size then s.setInode ip { s.inode ip with size := off } else s
    -- written back even if the size did not change: `bmap` may have added blocks
    pure (iupdate s ip, (tot.toNat : Int))

end Xv6
