import Xv6.Fs.Inode

/-!
# Directories and path names

`kernel/fs.c`, lines 532-700, with `strncmp` and `strncpy` of `kernel/string.c` and
`isdirempty` of `kernel/sysfile.c`.  A C string is a list of bytes that reads as `0` past
its end: a path as `argstr` fetched it (no `0` in it), a name buffer of `DIRSIZ` bytes as
`skipelem` filled it, or the `DIRSIZ` bytes of a name on disk.

The three loops over a directory's entries (`dirlookup`, `dirlink`, `isdirempty`) differ
in where they start, what stops them and the text of their panic; they are one scan,
`dirScan`, applied to each one's own values.
-/

namespace Xv6

/-! ## Strings -/

/-- `strncmp(p, q, n)`: `0`, or the difference of the first bytes that differ. -/
def strncmp : List UInt8 → List UInt8 → Nat → Int
  | _, _, 0 => 0
  | p, q, n + 1 =>
    if p.headD 0 ≠ 0 ∧ p.headD 0 = q.headD 0 then strncmp p.tail q.tail n
    else (p.headD 0).toNat - (q.headD 0).toNat

/-- The `n` bytes `strncpy(s, t, n)` stores: `t` up to and including its `0`, then `0`s. -/
def strncpy (t : List UInt8) : Nat → List UInt8
  | 0 => []
  | n + 1 => if t.headD 0 = 0 then List.replicate (n + 1) 0 else t.headD 0 :: strncpy t.tail n

/-- The name `"."`. -/
def dot : List UInt8 := [46]

/-- The name `".."`. -/
def dotdot : List UInt8 := [46, 46]

/-- `namecmp`. -/
def namecmp (s t : List UInt8) : Int := strncmp s t DIRSIZ

/-! ## Directory scans -/

/-- The loops over a directory's entries: from `off`, while `off < dp->size`, each entry
read with `readi` (a short read panics with `msg`), up to the first one `stop` accepts.
The offset it stops at, with that entry, or the offset past the last entry. -/
def dirScan (dp : Fin NINODE) (msg : String) (stop : Dirent → Bool) :
    Nat → Fsys → UInt32 → Except String (Fsys × UInt32 × Option Dirent)
  | 0, s, off => .ok (s, off, none)
  | fuel + 1, s, off =>
    if off < (s.inode dp).size then
      match readi s dp (.kernel []) off 16 with
      | .error e => .error e
      | .ok (s, de, r) =>
        if r ≠ 16 then .error msg
        else if stop (Dirent.ofBytes de.buf) then .ok (s, off, some (Dirent.ofBytes de.buf))
        else dirScan dp msg stop fuel s (off + 16)
    else .ok (s, off, none)

/-- Passes enough for a scan of `dp` from offset `0`: one per entry, and one more. -/
def Fsys.entries (s : Fsys) (dp : Fin NINODE) : Nat := (s.inode dp).size.toNat / 16 + 1

/-- `dirlookup`: the inode of the live entry named `name`, from `iget`, and its offset. -/
def dirlookup (s : Fsys) (dp : Fin NINODE) (name : List UInt8) :
    Except String (Fsys × Option (Fin NINODE × UInt32)) :=
  if (s.inode dp).type ≠ T_DIR then .error "dirlookup not DIR"
  else
    match dirScan dp "dirlookup read" (fun de => de.inum ≠ 0 ∧ namecmp name de.name = 0)
        (s.entries dp) s 0 with
    | .error e => .error e
    | .ok (s, off, some de) =>
      (iget s (s.inode dp).dev de.inum.toUInt32).map fun r => (r.1, some (r.2, off))
    | .ok (s, _, none) => .ok (s, none)

/-- `dirlink`: `0` once the entry `(name, inum)` is written in the first free slot of
`dp`, or at its end; `-1` if the name is present, or if the write falls short. -/
def dirlink (s : Fsys) (dp : Fin NINODE) (name : List UInt8) (inum : UInt32) :
    Except String (Fsys × Int) := do
  let (s, r) ← dirlookup s dp name
  match r with
  | some (ip, _) =>
    let s ← iput s ip
    pure (s, -1)
  | none =>
    let (s, off, _) ← dirScan dp "dirlink read" (fun de => de.inum = 0) (s.entries dp) s 0
    let de : Dirent := ⟨inum.toUInt16, strncpy name DIRSIZ⟩
    let (s, w) ← writei s dp (.kernel de.toBytes) off 16
    pure (s, if w ≠ 16 then -1 else 0)

/-- `isdirempty`: no live entry after `.` and `..`. -/
def isdirempty (s : Fsys) (dp : Fin NINODE) : Except String (Fsys × Bool) :=
  (dirScan dp "isdirempty: readi" (fun de => de.inum ≠ 0) (s.entries dp) s 32).map
    fun r => (r.1, r.2.2.isNone)

/-! ## Path names -/

/-- `skipelem`: the next element of the path, cut to `DIRSIZ` bytes, and the rest of the
path after its slashes; `none` when only slashes are left. -/
def skipelem (path : List UInt8) : Option (List UInt8 × List UInt8) :=
  let path := path.dropWhile (· == 47)
  if path = [] then none
  else some ((path.takeWhile (· != 47)).take DIRSIZ,
    (path.dropWhile (· != 47)).dropWhile (· == 47))

/-- The loop of `namex` from the referenced inode `ip`: each element looked up in the
directory before it.  With `nameiparent`, it stops one element early. -/
def namexLoop (nameiparent : Bool) :
    Nat → Fsys → Fin NINODE → List UInt8 → List UInt8 →
      Except String (Fsys × Option (Fin NINODE) × List UInt8)
  | 0, s, _, _, name => .ok (s, none, name)
  | fuel + 1, s, ip, path, name =>
    match skipelem path with
    | none =>
      if nameiparent then (iput s ip).map fun s => (s, none, name)
      else .ok (s, some ip, name)
    | some (name, path) => do
      let s ← ilock s ip
      if (s.inode ip).type ≠ T_DIR then
        let s ← iunlockput s ip
        pure (s, none, name)
      else if nameiparent ∧ path = [] then
        -- stop one level early
        let s ← iunlock s ip
        pure (s, some ip, name)
      else
        let (s, r) ← dirlookup s ip name
        match r with
        | none =>
          let s ← iunlockput s ip
          pure (s, none, name)
        | some (next, _) =>
          let s ← iunlockput s ip
          namexLoop nameiparent fuel s next path name

/-- `namex` for a process whose current directory is `cwd`: the inode of `path`, or of its
parent with the last element. -/
def namex (s : Fsys) (cwd : Fin NINODE) (path : List UInt8) (nameiparent : Bool) :
    Except String (Fsys × Option (Fin NINODE) × List UInt8) := do
  let (s, ip) ← if path.headD 0 = 47 then iget s ROOTDEV ROOTINO else .ok (idup s cwd, cwd)
  -- each pass takes at least one byte of the path
  namexLoop nameiparent (path.length + 1) s ip path []

/-- `namei`. -/
def namei (s : Fsys) (cwd : Fin NINODE) (path : List UInt8) :
    Except String (Fsys × Option (Fin NINODE)) :=
  (namex s cwd path false).map fun r => (r.1, r.2.1)

/-- `nameiparent`. -/
def nameiparent (s : Fsys) (cwd : Fin NINODE) (path : List UInt8) :
    Except String (Fsys × Option (Fin NINODE) × List UInt8) :=
  namex s cwd path true

end Xv6
