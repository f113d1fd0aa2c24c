import Xv6.Fs.Dir
import Xv6.Pipe

/-!
# Open files and the processes that hold them

`kernel/file.c`: the file table `ftable`, `filealloc`, `fileclose`, `fileread` and
`filewrite`; with the part of `struct proc` the file system reads (`ofile` and `cwd`),
`fdalloc` and `argfd` of `kernel/sysfile.c`, and the file-system half of `exit` in
`kernel/proc.c`.

A pipe is named by its index in `FsState.pipes`; `fileread` and `filewrite` of a pipe are
`pipereadUser` and `pipewriteUser` of `Xv6.Pipe`, and `none` where the call sleeps.  Of
`devsw`, `consoleinit` fills only the entry of `CONSOLE`: a read or a write of another
major number returns `-1`, and one of the console is `none` here (the console is
`Xv6.Console`'s and `Xv6.Uart`'s).
-/

namespace Xv6

/-- The kinds of `struct file`. -/
inductive FdType where
  | none
  | pipe
  | inode
  | device
  deriving DecidableEq, Repr

/-- `struct file`.  `pipe` is an index of `FsState.pipes`, `ip` an entry of `itable`. -/
structure File where
  type : FdType
  ref : Int
  readable : Bool
  writable : Bool
  pipe : Nat
  ip : Fin NINODE
  off : UInt32
  major : Int16

/-- An entry of the zero-initialised `ftable`. -/
def File.zero : File := ⟨.none, 0, false, false, 0, ⟨0, NINODE_pos⟩, 0, 0⟩

/-- What the file system reads of `struct proc`: the open files, and the current
directory, `none` once the process has exited. -/
structure FsProc where
  ofile : Fin NOFILE → Option (Fin NFILE)
  cwd : Option (Fin NINODE)

/-- The file system, `ftable`, the pipes, and `n` processes. -/
structure FsState (n : Nat) where
  fs : Fsys
  file : Fin NFILE → File
  pipes : Nat → Pipe
  proc : Fin n → FsProc

namespace FsState

variable {n : Nat} (s : FsState n)

/-- The file system replaced by `fs`. -/
def setFs (fs : Fsys) : FsState n := { s with fs }

/-- Entry `f` of `ftable` replaced by `x`. -/
def setFile (f : Fin NFILE) (x : File) : FsState n := { s with file := Function.update s.file f x }

/-- The pipe at `i` replaced by `pi`. -/
def setPipe (i : Nat) (pi : Pipe) : FsState n := { s with pipes := Function.update s.pipes i pi }

/-- Descriptor `fd` of process `p` set to `f`: `p->ofile[fd] = f`. -/
def setOfile (p : Fin n) (fd : Fin NOFILE) (f : Option (Fin NFILE)) : FsState n :=
  { s with proc := (Function.update s.proc p
      { s.proc p with ofile := Function.update (s.proc p).ofile fd f }) }

/-- The current directory of process `p` set to `cwd`. -/
def setCwd (p : Fin n) (cwd : Option (Fin NINODE)) : FsState n :=
  { s with proc := Function.update s.proc p { s.proc p with cwd } }

end FsState

variable {n : Nat}

/-- `filealloc`: the first entry of `ftable` with no reference, now with one. -/
def filealloc (s : FsState n) : FsState n × Option (Fin NFILE) :=
  match (List.finRange NFILE).find? (fun f => (s.file f).ref == 0) with
  | some f => (s.setFile f { s.file f with ref := 1 }, some f)
  | none => (s, none)

/-- `fdalloc` for process `p`: its first free descriptor, now naming `f`. -/
def fdalloc (s : FsState n) (p : Fin n) (f : Fin NFILE) : FsState n × Option (Fin NOFILE) :=
  match (List.finRange NOFILE).find? (fun fd => ((s.proc p).ofile fd).isNone) with
  | some fd => (s.setOfile p fd (some f), some fd)
  | none => (s, none)

/-- `argfd` for process `p`: the descriptor `fd` and its file, if it is open. -/
def argfd (s : FsState n) (p : Fin n) (fd : Int) : Option (Fin NOFILE × Fin NFILE) :=
  if h : 0 ≤ fd ∧ fd < NOFILE then
    ((s.proc p).ofile ⟨fd.toNat, by omega⟩).map fun f => (⟨fd.toNat, by omega⟩, f)
  else none

/-- `fileclose`: one reference less; the last one closes its end of the pipe, or releases
the inode of the file.  The page `pipeclose` frees with both ends closed is not kept. -/
def fileclose (s : FsState n) (f : Fin NFILE) : Except String (FsState n) :=
  let x := s.file f
  if x.ref < 1 then .error "fileclose"
  else if 0 < x.ref - 1 then .ok (s.setFile f { x with ref := x.ref - 1 })
  else
    let s := s.setFile f { x with ref := 0, type := .none }
    if x.type = .pipe then .ok (s.setPipe x.pipe (pipeclose (s.pipes x.pipe) x.writable).1)
    else if x.type = .inode ∨ x.type = .device then (iput s.fs x.ip).map s.setFs
    else .ok s

/-! ## Reading and writing -/

/-- `CONSOLE`, the major number of the console. -/
def CONSOLE : Int := 1

/-- Whether `devsw[major]` has its `read` and `write` once the kernel has booted:
`consoleinit` sets those of `CONSOLE`, and nothing sets another. -/
def devswSet (major : Int) : Bool := major == CONSOLE

/-- `fileread(f, addr, n)` into the memory `vm` of a process with page table `pt`, killed or
not.  For an inode the count `n` goes to `readi` as the `uint` it becomes, and the file
offset moves by what `readi` returns when that is positive.  `none` while a pipe read
sleeps, and for the console. -/
def fileread {np : Nat} (s : FsState np) (f : Fin NFILE) (killed : Bool) (vm : VM)
    (pt addr : UInt64) (n : Int) : Option (Except String (FsState np × VM × Int)) :=
  if !(s.file f).readable then some (.ok (s, vm, -1))
  else match (s.file f).type with
    | .pipe =>
      let x := s.file f
      (pipereadUser (s.pipes x.pipe) killed vm pt addr n).map fun r =>
        .ok (s.setPipe x.pipe r.1, r.2.1, r.2.2)
    | .device =>
      let x := s.file f
      if x.major.toInt < 0 ∨ NDEV ≤ x.major.toInt ∨ !devswSet x.major.toInt then
        some (.ok (s, vm, -1))
      else none
    | .inode => some do
      let x := s.file f
      let fs ← ilock s.fs x.ip
      let (fs, dst, r) ← readi fs x.ip (.user vm pt addr) x.off (UInt32.ofInt n)
      let s := if 0 < r then s.setFile f { x with off := x.off + r.toNat.toUInt32 } else s
      let fs ← iunlock fs x.ip
      pure (s.setFs fs, dst.mem vm, r)
    | .none => some (.error "fileread")

/-- `max` in `filewrite`: the bytes one transaction may write. -/
def filewriteMax : Nat := (MAXOPBLOCKS - 1 - 1 - 2) / 2 * BSIZE

/-- What `filewrite` on an inode does that a caller sees, in order: `begin_op`, each
`writei` with the offset and count it is given and what it returns, and `end_op`. -/
inductive FileOp where
  | beginOp
  | writei (off : UInt32) (n r : Int)
  | endOp
  deriving DecidableEq, Repr

/-- The loop of `filewrite` on an inode, from `i` bytes of the `n` at `addr` written, the
calls so far in `ops`: a transaction of at most `max` bytes at a time, written at
`f->off`, until one falls short. -/
def filewriteLoop {np : Nat} (f : Fin NFILE) (vm : VM) (pt addr : UInt64) (n : Int) :
    Nat → FsState np → Int → List FileOp → Except String (FsState np × Int × List FileOp)
  | 0, s, i, ops => .ok (s, i, ops)
  | fuel + 1, s, i, ops => do
    if n ≤ i then return (s, i, ops)
    let n1 := min (n - i) filewriteMax
    let x := s.file f
    let fs ← ilock s.fs x.ip
    let (fs, r) ← writei fs x.ip (.user vm pt (addr + i.toNat.toUInt64)) x.off n1.toNat.toUInt32
    let s := if 0 < r then s.setFile f { x with off := x.off + r.toNat.toUInt32 } else s
    let fs ← iunlock fs x.ip
    let ops := ops ++ [.beginOp, .writei x.off n1 r, .endOp]
    if r ≠ n1 then return (s.setFs fs, i, ops)
    filewriteLoop f vm pt addr n fuel (s.setFs fs) (i + r) ops

/-- `filewrite(f, addr, n)` from the memory `vm` of a process with page table `pt`, killed
or not; with the calls it made of the log.  For an inode, `n`, or `-1` if a transaction fell
short or `n < 0`.  `none` where a pipe write sleeps, and for the console. -/
def filewrite {np : Nat} (s : FsState np) (f : Fin NFILE) (killed : Bool) (vm : VM)
    (pt addr : UInt64) (n : Int) : Option (Except String (FsState np × Int × List FileOp)) :=
  if !(s.file f).writable then some (.ok (s, -1, []))
  else match (s.file f).type with
    | .pipe =>
      let x := s.file f
      (pipewriteUser (s.pipes x.pipe) killed vm pt addr n).map fun r =>
        .ok (s.setPipe x.pipe r.1, r.2, [])
    | .device =>
      let x := s.file f
      if x.major.toInt < 0 ∨ NDEV ≤ x.major.toInt ∨ !devswSet x.major.toInt then
        some (.ok (s, -1, []))
      else none
    | .inode =>
      -- each pass but the last writes at least one byte
      some ((filewriteLoop f vm pt addr n (n.toNat + 1) s 0 []).map fun r =>
        (r.1, if r.2.1 = n then n else -1, r.2.2))
    | .none => some (.error "filewrite")

/-- The file-system half of `exit` for process `p` in `cwd`: each open file closed, then
the current directory released.  Process `0` is `initproc`. -/
def exit (s : FsState n) (p : Fin n) (cwd : Fin NINODE) : Except String (FsState n) := do
  if p.val = 0 then throw "init exiting"
  let s ← (List.finRange NOFILE).foldlM (fun s fd =>
    match (s.proc p).ofile fd with
    | some f => do
      let s ← fileclose s f
      pure (s.setOfile p fd none)
    | none => pure s) s
  let fs ← iput s.fs cwd
  pure ((s.setFs fs).setCwd p none)

end Xv6
