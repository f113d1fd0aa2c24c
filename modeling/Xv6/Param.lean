import Mathlib.Tactic.TypeStar

/-!
# Constants of the kernel, and the disk

The sizes of `kernel/param.h` and `kernel/fs.h` that the models use, under their names
in the source, and the disk as `virtio_disk_rw` sees it: block number ↦ `BSIZE` bytes.
-/

namespace Xv6

/-- `MAXOPBLOCKS`: max # of blocks any FS op writes. -/
def MAXOPBLOCKS : Nat := 10

/-- `LOGSIZE`: max data blocks in on-disk log. -/
def LOGSIZE : Nat := MAXOPBLOCKS * 3

/-- `NBUF`: size of disk block cache. -/
def NBUF : Nat := MAXOPBLOCKS * 3

/-- `BSIZE`: block size. -/
def BSIZE : Nat := 1024

/-- One disk block: `BSIZE` bytes. -/
abbrev Block := Fin BSIZE → UInt8

/-- The disk: block number ↦ contents. -/
abbrev Disk := Nat → Block

/-- `NPROC`: maximum number of processes. -/
def NPROC : Nat := 64

/-- `NCPU`: maximum number of CPUs. -/
def NCPU : Nat := 8

/-- `NOFILE`: open files per process. -/
def NOFILE : Nat := 16

/-- `NFILE`: open files per system. -/
def NFILE : Nat := 100

/-- `NINODE`: maximum number of active i-nodes. -/
def NINODE : Nat := 50

/-- `NDEV`: maximum major device number. -/
def NDEV : Nat := 10

/-- `MAXARG`: max exec arguments. -/
def MAXARG : Nat := 32

/-- `MAXPATH`: maximum file path name. -/
def MAXPATH : Nat := 128

/-- `FSSIZE`: size of file system in blocks. -/
def FSSIZE : Nat := 2000

theorem MAXOPBLOCKS_eq : MAXOPBLOCKS = 10 := rfl

theorem LOGSIZE_eq : LOGSIZE = 30 := rfl

theorem NFILE_pos : 0 < NFILE := by decide

theorem NINODE_pos : 0 < NINODE := by decide

theorem NPROC_pos : 0 < NPROC := by decide

theorem one_lt_NPROC : 1 < NPROC := by decide

theorem NCPU_pos : 0 < NCPU := by decide

theorem one_lt_NCPU : 1 < NCPU := by decide

end Xv6
