import Xv6.Lib.Disk
import Xv6.Lib.Word
import Xv6.Param

/-!
# The write-ahead log: its state, its header block, and the writes of `commit`

`kernel/log.c`.  The disk is a map from block numbers to `BSIZE`-byte blocks; each
`bwrite` is one atomic write and `virtio_disk_rw` waits for it, so the block writes of
`commit` and `recover_from_log` are programs in the sense of `Crash.run`.

The header block holds `struct logheader { int n; int block[LOGSIZE]; }`: `n` at byte 0
and `block[i]` at byte `4 + 4 * i`, little-endian.  `write_head` stores the in-memory
header into the buffer it has just read, so bytes past `block[n-1]` keep what they held.

A block that is in the log but not yet installed lives in the buffer cache; its cached
contents are the argument `cache` of `writeLog` (what `bread` of that block returns,
the buffer pinned by `log_write`).
-/

namespace Xv6

open Crash Bytes

/-- `struct log` (one device, so no `dev`; the lock is the atomicity of each step).
`lh` is the in-memory header as the list `block[0..n)`. -/
structure Log where
  start : Nat
  size : Nat
  outstanding : Nat
  committing : Bool
  lh : List Nat

/-! ## The header block -/

/-- A 32-bit `int` read from its two's-complement bits. -/
def toInt32 (w : Nat) : Int := if w < 2 ^ 31 then w else (w : Int) - 2 ^ 32

/-- The header's `n` as `read_head` reads it. -/
def headN (blk : Block) : Int := toInt32 (getWord 4 blk 0)

/-- `read_head`: the header's block numbers `block[0..n)`; none when `n ≤ 0`. -/
def readHead (blk : Block) : List Nat :=
  (List.range (headN blk).toNat).map fun i => getWord 4 blk (4 + 4 * i)

/-- The loop of `write_head`: `hb->block[i] = log.lh.block[i]`, from index `i` on. -/
def putBlocks : List Nat → Nat → Block → Block
  | [], _, blk => blk
  | b :: bs, i, blk => putBlocks bs (i + 1) (setWord 4 blk (4 + 4 * i) b)

/-- What `write_head` makes of the header buffer: `n`, then `block[0..n)`. -/
def putHead (lh : List Nat) (blk : Block) : Block :=
  putBlocks lh 0 (setWord 4 blk 0 lh.length)

theorem toInt32_of_lt {w : Nat} (h : w < 2 ^ 31) : toInt32 w = w := by
  unfold toInt32
  rw [if_pos h]

theorem getWord_putBlocks_of_le (bs : List Nat) (i : Nat) (blk : Block) (off : Nat)
    (h : off + 4 ≤ 4 + 4 * i) : getWord 4 (putBlocks bs i blk) off = getWord 4 blk off := by
  induction bs generalizing i blk with
  | nil => rfl
  | cons b bs ih =>
    rw [putBlocks, ih _ _ (by omega),
      getWord_setWord_of_disjoint _ _ _ _ _ _ (Or.inl h)]

theorem getWord_putBlocks_at (bs : List Nat) (i j : Nat) (blk : Block) (hj : j < bs.length)
    (hfit : 4 + 4 * (i + bs.length) ≤ BSIZE) :
    getWord 4 (putBlocks bs i blk) (4 + 4 * (i + j)) = bs[j] % 2 ^ 32 := by
  induction bs generalizing i j blk with
  | nil => simp at hj
  | cons b bs ih =>
    simp only [List.length_cons] at hj hfit
    rw [putBlocks]
    cases j with
    | zero =>
      rw [getWord_putBlocks_of_le _ _ _ _ (by omega), Nat.add_zero,
        getWord_setWord_self _ _ _ _ (by omega)]
      rfl
    | succ j =>
      rw [show i + (j + 1) = (i + 1) + j by omega, ih _ _ _ (by omega) (by omega)]
      rfl

theorem headN_putHead (lh : List Nat) (blk : Block) (h : lh.length < 2 ^ 31) :
    headN (putHead lh blk) = lh.length := by
  unfold headN putHead
  rw [getWord_putBlocks_of_le _ _ _ _ (by omega),
    getWord_setWord_self _ _ _ _ (by unfold BSIZE; omega), toInt32_of_lt (by omega)]
  congr 1
  exact Nat.mod_eq_of_lt (by omega)

/-- `read_head` reads back what `write_head` stored, for a header that fits its array. -/
theorem readHead_putHead (lh : List Nat) (blk : Block) (hlen : lh.length ≤ LOGSIZE)
    (hlt : ∀ b ∈ lh, b < 2 ^ 32) : readHead (putHead lh blk) = lh := by
  have hfit : 4 + 4 * (0 + lh.length) ≤ BSIZE := by
    rw [LOGSIZE_eq] at hlen; unfold BSIZE; omega
  unfold readHead
  rw [headN_putHead _ _ (by rw [LOGSIZE_eq] at hlen; omega)]
  apply List.ext_getElem (by simp)
  intro i h1 h2
  simp only [List.getElem_map, List.getElem_range, Int.toNat_natCast]
  unfold putHead
  rw [show 4 + 4 * i = 4 + 4 * (0 + i) by omega, getWord_putBlocks_at _ _ _ _ h2 hfit]
  exact Nat.mod_eq_of_lt (hlt _ (List.getElem_mem h2))

theorem headN_putHead_nil (blk : Block) : headN (putHead [] blk) = 0 :=
  headN_putHead [] blk (by norm_num)

/-! ## The programs of `commit` and `recover_from_log` -/

/-- `write_log`: for each `tail`, copy the cached contents of `lh.block[tail]` to log
slot `start + tail + 1`. -/
def writeLog (start : Nat) (cache : Nat → Block) : Nat → List Nat → List (Write Nat Block)
  | _, [] => []
  | tail, b :: bs => put (start + tail + 1) (cache b) :: writeLog start cache (tail + 1) bs

/-- `install_trans`: for each `tail`, copy log slot `start + tail + 1` to the home
location `lh.block[tail]`. -/
def installTrans (start : Nat) : Nat → List Nat → List (Write Nat Block)
  | _, [] => []
  | tail, b :: bs => copy (start + tail + 1) b :: installTrans start (tail + 1) bs

/-- `write_head`: the header block rewritten from the in-memory header `lh`. -/
def writeHead (start : Nat) (lh : List Nat) : Write Nat Block :=
  fun d => (start, putHead lh (d start))

/-- `commit`: nothing for an empty transaction; otherwise the log, the header (the commit
point), the installation, and the header cleared. -/
def commit (log : Log) (cache : Nat → Block) : List (Write Nat Block) :=
  if 0 < log.lh.length then
    writeLog log.start cache 0 log.lh ++ writeHead log.start log.lh ::
      (installTrans log.start 0 log.lh ++ [writeHead log.start []])
  else []

/-- `recover_from_log`: `read_head` on the disk as found, `install_trans(1)`, then
`log.lh.n = 0; write_head()`. -/
def recoverFromLog (start : Nat) (d : Disk) : List (Write Nat Block) :=
  installTrans start 0 (readHead (d start)) ++ [writeHead start []]

end Xv6
