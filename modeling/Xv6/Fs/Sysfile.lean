import Xv6.Fs.File
import Xv6.Fs.Mkfs

/-!
# The file-system calls

`kernel/sysfile.c`: `sys_link`, `sys_unlink`, `create`, `sys_open`, `sys_mkdir`,
`sys_mknod`, `sys_chdir`, `sys_close` and `sys_write`, and the calls they make of
`kernel/fs.c` and `kernel/file.c`.  Each takes the caller's current directory; each
returns what the call returns to the user, or a panic.  `FsState.step` runs a call of
one process: a run is `Outcome.run` of it.

A path argument is the bytes at the user's pointer: `argstr` takes them up to the first
`0`, and fails when there is none within `MAXPATH` bytes.  The transaction of each call
(`begin_op` to `end_op`) is the unit `Xv6.Log` commits; here the calls run one at a time.

`sys_link` raises the link count of the inode it links, `ip->nlink++`, with no bound, and
`nlink` is a `short` both in `struct inode` and on disk (`struct dinode`).  A file with
`32767` names (within the disk's capacity: two directories of `16383` entries each take
`514` blocks of mkfs's `2000`) gets a `32768`th from `sys_link`, which succeeds and leaves
the count at `-32768`; `sys_unlink` of that name then panics (`sysLink_wraps_nlink`).
-/

namespace Xv6

/-- `O_RDONLY` and the other flags of `kernel/fcntl.h`. -/
def O_RDONLY : Int32 := 0x000
def O_WRONLY : Int32 := 0x001
def O_RDWR : Int32 := 0x002
def O_CREATE : Int32 := 0x200
def O_TRUNC : Int32 := 0x400

/-- `argstr`: the string at the user's pointer, if it ends within `MAXPATH` bytes. -/
def argstr (path : List UInt8) : Option (List UInt8) :=
  let p := path.takeWhile (· != 0)
  if p.length < MAXPATH then some p else none

/-! ## Calls on the file system alone -/

/-- The `bad:` exit of `sys_link`: the link count it raised put back. -/
def sysLinkBad (s : Fsys) (ip : Fin NINODE) : Except String (Fsys × Int) := do
  let s ← ilock s ip
  let s := iupdate (s.setInode ip { s.inode ip with nlink := (s.inode ip).nlink - 1 }) ip
  let s ← iunlockput s ip
  return (s, -1)

/-- `sys_link`: the path `new` made a link to the inode of `old`. -/
def sysLink (s : Fsys) (cwd : Fin NINODE) (old new : List UInt8) :
    Except String (Fsys × Int) := do
  let (some old, some new) := (argstr old, argstr new) | return (s, -1)
  let (s, ip) ← namei s cwd old
  let some ip := ip | return (s, -1)
  let s ← ilock s ip
  if (s.inode ip).type = T_DIR then
    let s ← iunlockput s ip
    return (s, -1)
  let s := iupdate (s.setInode ip { s.inode ip with nlink := (s.inode ip).nlink + 1 }) ip
  let s ← iunlock s ip
  let (s, dp, name) ← nameiparent s cwd new
  let some dp := dp | sysLinkBad s ip
  let s ← ilock s dp
  -- `dirlink` runs only when the devices agree
  let (s, r) ← if (s.inode dp).dev ≠ (s.inode ip).dev then pure (s, -1)
    else dirlink s dp name (s.inode ip).inum
  let s ← iunlockput s dp
  if r < 0 then sysLinkBad s ip
  else
    let s ← iput s ip
    return (s, 0)

/-- `sys_unlink`: the entry of `path` zeroed in its directory, and the link it was
given back. -/
def sysUnlink (s : Fsys) (cwd : Fin NINODE) (path : List UInt8) :
    Except String (Fsys × Int) := do
  let some path := argstr path | return (s, -1)
  let (s, dp, name) ← nameiparent s cwd path
  let some dp := dp | return (s, -1)
  let s ← ilock s dp
  -- cannot unlink `.` or `..`
  if namecmp name dot = 0 ∨ namecmp name dotdot = 0 then
    let s ← iunlockput s dp
    return (s, -1)
  let (s, r) ← dirlookup s dp name
  let some (ip, off) := r | do
    let s ← iunlockput s dp
    return (s, -1)
  let s ← ilock s ip
  if (s.inode ip).nlink < 1 then throw "unlink: nlink < 1"
  let (s, empty) ← if (s.inode ip).type = T_DIR then isdirempty s ip else pure (s, true)
  if !empty then
    let s ← iunlockput s ip
    let s ← iunlockput s dp
    return (s, -1)
  let (s, w) ← writei s dp (.kernel (List.replicate 16 0)) off 16
  if w ≠ 16 then throw "unlink: writei"
  let s := if (s.inode ip).type = T_DIR then
      iupdate (s.setInode dp { s.inode dp with nlink := (s.inode dp).nlink - 1 }) dp
    else s
  let s ← iunlockput s dp
  let s := iupdate (s.setInode ip { s.inode ip with nlink := (s.inode ip).nlink - 1 }) ip
  let s ← iunlockput s ip
  return (s, 0)

/-- The `fail:` exit of `create`: the new inode left with no link, for `iput` to free. -/
def createFail (s : Fsys) (ip dp : Fin NINODE) : Except String (Fsys × Option (Fin NINODE)) := do
  let s := iupdate (s.setInode ip { s.inode ip with nlink := 0 }) ip
  let s ← iunlockput s ip
  let s ← iunlockput s dp
  return (s, none)

/-- `create`: the locked inode of `path`, made with `type` if its name is new; an existing
file or device for `T_FILE`. -/
def create (s : Fsys) (cwd : Fin NINODE) (path : List UInt8) (type major minor : Int16) :
    Except String (Fsys × Option (Fin NINODE)) := do
  let (s, dp, name) ← nameiparent s cwd path
  let some dp := dp | return (s, none)
  let s ← ilock s dp
  let (s, r) ← dirlookup s dp name
  if let some (ip, _) := r then
    let s ← iunlockput s dp
    let s ← ilock s ip
    if type = T_FILE ∧ ((s.inode ip).type = T_FILE ∨ (s.inode ip).type = T_DEVICE) then
      return (s, some ip)
    let s ← iunlockput s ip
    return (s, none)
  let (s, ip) ← ialloc s (s.inode dp).dev type
  let some ip := ip | do
    let s ← iunlockput s dp
    return (s, none)
  let s ← ilock s ip
  let s := iupdate (s.setInode ip { s.inode ip with major, minor, nlink := 1 }) ip
  -- `.` and `..`, with no `ip->nlink++` for `.`
  let (s, r) ← if type = T_DIR then do
      let (s, r) ← dirlink s ip dot (s.inode ip).inum
      if r < 0 then pure (s, r) else dirlink s ip dotdot (s.inode dp).inum
    else pure (s, 0)
  if r < 0 then createFail s ip dp
  else
    let (s, r) ← dirlink s dp name (s.inode ip).inum
    if r < 0 then createFail s ip dp
    else
      -- the parent's link for `..`, now that success is certain
      let s := if type = T_DIR then
          iupdate (s.setInode dp { s.inode dp with nlink := (s.inode dp).nlink + 1 }) dp
        else s
      let s ← iunlockput s dp
      return (s, some ip)

/-- `sys_mkdir`. -/
def sysMkdir (s : Fsys) (cwd : Fin NINODE) (path : List UInt8) : Except String (Fsys × Int) := do
  let some path := argstr path | return (s, -1)
  let (s, ip) ← create s cwd path T_DIR 0 0
  let some ip := ip | return (s, -1)
  let s ← iunlockput s ip
  return (s, 0)

/-- `sys_mknod`: `major` and `minor` are `int` arguments, passed as `short`. -/
def sysMknod (s : Fsys) (cwd : Fin NINODE) (path : List UInt8) (major minor : Int32) :
    Except String (Fsys × Int) := do
  let some path := argstr path | return (s, -1)
  let (s, ip) ← create s cwd path T_DEVICE major.toInt16 minor.toInt16
  let some ip := ip | return (s, -1)
  let s ← iunlockput s ip
  return (s, 0)

/-! ## Calls on descriptors and processes -/

variable {n : Nat}

/-- The inode `sys_open` opens: created for `O_CREATE`, else looked up; locked. -/
def openInode (s : Fsys) (cwd : Fin NINODE) (path : List UInt8) (omode : Int32) :
    Except String (Fsys × Option (Fin NINODE)) := do
  if omode &&& O_CREATE ≠ 0 then return ← create s cwd path T_FILE 0 0
  let (s, ip) ← namei s cwd path
  let some ip := ip | return (s, none)
  let s ← ilock s ip
  if (s.inode ip).type = T_DIR ∧ omode ≠ O_RDONLY then
    let s ← iunlockput s ip
    return (s, none)
  return (s, some ip)

/-- `sys_open` by process `p`: a new descriptor on a new file for the inode of `path`. -/
def sysOpen (s : FsState n) (p : Fin n) (cwd : Fin NINODE) (path : List UInt8) (omode : Int32) :
    Except String (FsState n × Int) := do
  let some path := argstr path | return (s, -1)
  let (fs, ip) ← openInode s.fs cwd path omode
  let s := s.setFs fs
  let some ip := ip | return (s, -1)
  let x := s.fs.inode ip
  if x.type = T_DEVICE ∧ (x.major.toInt < 0 ∨ NDEV ≤ x.major.toInt) then
    let fs ← iunlockput s.fs ip
    return (s.setFs fs, -1)
  let (s, f) := filealloc s
  let some f := f | do
    let fs ← iunlockput s.fs ip
    return (s.setFs fs, -1)
  let (s, fd) := fdalloc s p f
  let some fd := fd | do
    let s ← fileclose s f
    let fs ← iunlockput s.fs ip
    return (s.setFs fs, -1)
  let file := if x.type = T_DEVICE then { s.file f with type := .device, major := x.major }
    else { s.file f with type := .inode, off := 0 }
  let s := s.setFile f { file with ip, readable := omode &&& O_WRONLY == 0,
                                   writable := omode &&& O_WRONLY != 0 || omode &&& O_RDWR != 0 }
  let fs ← if omode &&& O_TRUNC ≠ 0 ∧ x.type = T_FILE then itrunc s.fs ip else pure s.fs
  let fs ← iunlock fs ip
  return (s.setFs fs, fd.val)

/-- `sys_chdir` by process `p` in `cwd`. -/
def sysChdir (s : FsState n) (p : Fin n) (cwd : Fin NINODE) (path : List UInt8) :
    Except String (FsState n × Int) := do
  let some path := argstr path | return (s, -1)
  let (fs, ip) ← namei s.fs cwd path
  let some ip := ip | return (s.setFs fs, -1)
  let fs ← ilock fs ip
  if (fs.inode ip).type ≠ T_DIR then
    let fs ← iunlockput fs ip
    return (s.setFs fs, -1)
  let fs ← iunlock fs ip
  let fs ← iput fs cwd
  return ((s.setFs fs).setCwd p (some ip), 0)

/-- `sys_close` by process `p`. -/
def sysClose (s : FsState n) (p : Fin n) (fd : Int) : Except String (FsState n × Int) := do
  let some (fd, f) := argfd s p fd | return (s, -1)
  let s ← fileclose (s.setOfile p fd none) f
  return (s, 0)

/-- `sys_read(fd, addr, n)` by process `p`, killed or not, into its memory `vm` through its
page table `pt`; `none` where `fileread` is. -/
def sysRead (s : FsState n) (p : Fin n) (fd : Int) (killed : Bool) (vm : VM) (pt addr : UInt64)
    (m : Int) : Option (Except String (FsState n × VM × Int)) :=
  match argfd s p fd with
  | none => some (.ok (s, vm, -1))
  | some (_, f) => fileread s f killed vm pt addr m

/-- `sys_write(fd, addr, n)` by process `p`, killed or not, from its memory `vm` through its
page table `pt`; `none` where `filewrite` is. -/
def sysWrite (s : FsState n) (p : Fin n) (fd : Int) (killed : Bool) (vm : VM) (pt addr : UInt64)
    (m : Int) :
    Option (Except String (FsState n × Int)) :=
  match argfd s p fd with
  | none => some (.ok (s, -1))
  | some (_, f) => (filewrite s f killed vm pt addr m).map (Except.map fun r => (r.1, r.2.1))

/-! ## Runs -/

/-- The calls a process makes of the file system.  A `read` or a `write` is given the
caller's memory, page table and `killed` flag as they are at the call; this model does not
keep them, and drops what a `read` copies out. -/
inductive FsCall where
  | sysLink (old new : List UInt8)
  | sysUnlink (path : List UInt8)
  | sysOpen (path : List UInt8) (omode : Int32)
  | sysMkdir (path : List UInt8)
  | sysMknod (path : List UInt8) (major minor : Int32)
  | sysChdir (path : List UInt8)
  | sysClose (fd : Int)
  | sysRead (fd : Int) (killed : Bool) (vm : VM) (pt addr : UInt64) (m : Int)
  | sysWrite (fd : Int) (killed : Bool) (vm : VM) (pt addr : UInt64) (m : Int)
  | exit

/-- A call of the file system alone, for a process in `cwd`. -/
def FsState.onFs (s : FsState n) (r : Except String (Fsys × Int)) :
    Except String (FsState n × Int) :=
  r.map fun r => (s.setFs r.1, r.2)

/-- Call `c` by process `p`, and what it returns; `none` if `p` has exited, or where a read
or a write sleeps on a pipe or goes to the console. -/
def FsState.call (s : FsState n) (p : Fin n) (c : FsCall) :
    Option (Except String (FsState n × Int)) :=
  match (s.proc p).cwd with
  | none => none
  | some cwd =>
    match c with
    | .sysLink old new => some (s.onFs (sysLink s.fs cwd old new))
    | .sysUnlink path => some (s.onFs (sysUnlink s.fs cwd path))
    | .sysOpen path omode => some (sysOpen s p cwd path omode)
    | .sysMkdir path => some (s.onFs (sysMkdir s.fs cwd path))
    | .sysMknod path major minor => some (s.onFs (sysMknod s.fs cwd path major minor))
    | .sysChdir path => some (sysChdir s p cwd path)
    | .sysClose fd => some (sysClose s p fd)
    | .sysRead fd killed vm pt addr m =>
      (sysRead s p fd killed vm pt addr m).map (Except.map fun r => (r.1, r.2.2))
    | .sysWrite fd killed vm pt addr m => sysWrite s p fd killed vm pt addr m
    | .exit => some ((exit s p cwd).map fun s => (s, 0))

/-- One step of the system: call `c` by process `p`. -/
def FsState.step (s : FsState n) (a : Fin n × FsCall) : Option (Except String (FsState n)) :=
  (s.call a.1 a.2).map (Except.map Prod.fst)

/-- A run of calls. -/
def FsState.exec (s : FsState n) (as : List (Fin n × FsCall)) : Option (Except String (FsState n)) :=
  Outcome.run FsState.step s as

/-- The state after boot on the disk `disk` with superblock `sb`: every process in the
root directory, whose entry of `itable` holds one reference for each; no file open, and no
pipe. -/
def FsState.init (sb : Superblock) (disk : Disk) : FsState n where
  fs := ⟨sb, disk, Function.update (fun _ => Inode.zero) ⟨0, NINODE_pos⟩
    { Inode.zero with dev := ROOTDEV, inum := ROOTINO, ref := n }⟩
  file := fun _ => File.zero
  pipes := fun _ => pipealloc fun _ => 0
  proc := fun _ => ⟨fun _ => none, some ⟨0, NINODE_pos⟩⟩

/-! ## Link counts -/

section LinkCount

open Bytes

/-- A directory `d` under the root, with `.`, `..` and `16383` entries naming inode `2`, the
`e`-th of them named by the bytes `1 + e % 255` and `1 + e / 255`: its block `k`. -/
def linkDirBlock (d k : Nat) : Block := fun j =>
  let e := 64 * k + j.val / 16
  let b := j.val % 16
  if e = 0 then (if b = 0 then d.toUInt8 else if b = 2 then 46 else 0)
  else if e = 1 then (if b = 0 then 1 else if b = 2 ∨ b = 3 then 46 else 0)
  else if e < 16385 then
    if b = 0 then 2 else if b = 2 then (1 + (e - 2) % 255).toUInt8
    else if b = 3 then (1 + (e - 2) / 255).toUInt8 else 0
  else 0

/-- A directory of `16385` entries: `257` blocks from `a0`, the last `245` of them through
the indirect block `ind`. -/
def linkDir (a0 ind : UInt32) : DInode :=
  ⟨T_DIR, 0, 0, 1, 16385 * 16, fun i => if i.val < NDIRECT then a0 + i.val.toUInt32 else ind⟩

/-- The disk: the root (inode `1`, block `46`) holds `.`, `..`, the file `a` (inode `2`) and
the directories `c` and `d` (inodes `3` and `4`, blocks `47` to `304` and `305` to `562`),
each of which names `a` `16383` times.  `a` has its `32767` links, the root `3`; blocks `0`
to `562` are in use. -/
def manyLinks : Disk := fun a =>
  if a = 32 then
    DInode.write (DInode.write (DInode.write (DInode.write (fun _ => 0)
      1 ⟨T_DIR, 0, 0, 3, 1024, fun i => if i.val = 0 then 46 else 0⟩)
      2 ⟨T_FILE, 0, 0, 32767, 0, fun _ => 0⟩)
      3 (linkDir 47 304))
      4 (linkDir 305 562)
  else if a = 45 then fun j => if j.val < 70 then 255 else if j.val = 70 then 7 else 0
  else if a = 46 then
    setBytes (fun _ => 0) 0 ((([(1, dot), (1, dotdot), (2, [97]), (3, [99]), (4, [100])] :
      List (Nat × List UInt8)).map fun e => Dirent.toBytes ⟨e.1.toUInt16, strncpy e.2 DIRSIZ⟩).flatten)
  else if 47 ≤ a ∧ a < 304 then linkDirBlock 3 (a - 47)
  else if a = 304 then setWords 4 (fun _ => 0) 0 ((List.range 245).map (· + 59))
  else if 305 ≤ a ∧ a < 562 then linkDirBlock 4 (a - 305)
  else if a = 562 then setWords 4 (fun _ => 0) 0 ((List.range 245).map (· + 317))
  else fun _ => 0

/-- `link("a", "b")` in the root of `manyLinks` returns `0` and leaves `a`'s link count, on
disk, at `-32768`; `unlink("b")` then panics. -/
theorem sysLink_wraps_nlink :
    ((FsState.init Mkfs.sb manyLinks : FsState 1).fs.dinode 2).nlink = 32767 ∧
    ∃ fs, sysLink (FsState.init Mkfs.sb manyLinks : FsState 1).fs ⟨0, by decide⟩ [97] [98] = .ok (fs, 0) ∧
      (fs.dinode 2).nlink = -32768 ∧ sysUnlink fs ⟨0, by decide⟩ [98] = .error "unlink: nlink < 1" := by
  -- the two calls are computed once, by the kernel
  have h : (match sysLink (FsState.init Mkfs.sb manyLinks : FsState 1).fs ⟨0, by decide⟩ [97] [98] with
      | .ok (fs, r) => r == 0 && (fs.dinode 2).nlink == -32768 &&
          (match sysUnlink fs ⟨0, by decide⟩ [98] with | .error e => e == "unlink: nlink < 1" | .ok _ => false)
      | .error _ => false) = true := by
    decide +kernel
  refine ⟨by decide +kernel, ?_⟩
  rcases hl : sysLink (FsState.init Mkfs.sb manyLinks : FsState 1).fs ⟨0, by decide⟩ [97] [98] with
    _ | ⟨fs, r⟩ <;> rw [hl] at h
  · cases h
  simp only [Bool.and_eq_true, beq_iff_eq] at h
  obtain ⟨⟨rfl, hn⟩, hu⟩ := h
  rcases hun : sysUnlink fs ⟨0, by decide⟩ [98] with e | _ <;> rw [hun] at hu
  · exact ⟨fs, rfl, hn, by rw [hun, beq_iff_eq.1 hu]⟩
  · cases hu

end LinkCount

end Xv6
