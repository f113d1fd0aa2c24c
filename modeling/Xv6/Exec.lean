import Xv6.Vm.Uvm
import Xv6.Vm.Copy
import Xv6.Fs.Mkfs

/-!
# `exec`

`kernel/exec.c`: the ELF header and program headers read from the file at `path`, each
loadable segment given pages by `uvmalloc` and filled by `loadseg`, two pages of stack with
the argument strings and the `argv` array on it, and the commit of the new image, which
frees the old one.  Every failure before the commit jumps to `bad:`, which frees the new
table and unlocks the inode if `exec` still holds it.

The body of `exec` runs in `ExecM`: a panic is an error of the outer `Except`, a `goto
bad` throws the state it leaves (`Bad`).  The trapframe is a page of physical memory; the
words `exec` sets in it are `epc`, `sp` and `a1`.  A path and an argument are the bytes
before their `NUL`.

The offsets are the C types': `int off` holds `elf.phoff` cut to 32 bits and grows by
`sizeof(ph)` in 32 bits, and `loadseg` takes the segment's offset and size as `uint`.  So a
file whose `phoff` has a bit above bit 31 has its program headers read from elsewhere.
-/

namespace Xv6

namespace Exec

open Bytes

/-- `ELF_MAGIC`: `"\x7FELF"` in little endian. -/
def ELF_MAGIC : UInt32 := 0x464C457F

/-- `ELF_PROG_LOAD`. -/
def ELF_PROG_LOAD : UInt32 := 1

/-- The little-endian word of `w` bytes at `off` of `bs`. -/
def leWord (bs : List UInt8) (off w : Nat) : Nat := getWord w (fun i : Fin bs.length => bs.get i) off

/-- The fields of `struct elfhdr` that `exec` reads. -/
structure Elfhdr where
  magic : UInt32
  entry : UInt64
  phoff : UInt64
  phnum : UInt16

/-- The header in the 64 bytes `readi` copies into `elf`. -/
def Elfhdr.ofBytes (bs : List UInt8) : Elfhdr where
  magic := (leWord bs 0 4).toUInt32
  entry := (leWord bs 24 8).toUInt64
  phoff := (leWord bs 32 8).toUInt64
  phnum := (leWord bs 56 2).toUInt16

/-- The fields of `struct proghdr` that `exec` reads. -/
structure Proghdr where
  type : UInt32
  flags : UInt32
  off : UInt64
  vaddr : UInt64
  filesz : UInt64
  memsz : UInt64

/-- The header in the 56 bytes `readi` copies into `ph`. -/
def Proghdr.ofBytes (bs : List UInt8) : Proghdr where
  type := (leWord bs 0 4).toUInt32
  flags := (leWord bs 4 4).toUInt32
  off := (leWord bs 8 8).toUInt64
  vaddr := (leWord bs 16 8).toUInt64
  filesz := (leWord bs 32 8).toUInt64
  memsz := (leWord bs 40 8).toUInt64

/-- `flags2perm`. -/
def flags2perm (flags : UInt32) : UInt64 :=
  let perm := if flags &&& 0x1 ≠ 0 then PTE_X else 0
  if flags &&& 0x2 ≠ 0 then perm ||| PTE_W else perm

/-! ## `loadseg` -/

/-- The loop of `loadseg` from byte `i` of the segment: each page's bytes read from the
file at `offset + i` into the frame `walkaddr` finds for `va + i`. -/
def loadsegLoop (pt va : UInt64) (ip : Fin NINODE) (offset sz : UInt32) :
    Nat → Fsys → VM → UInt32 → Except String (Fsys × VM × Int)
  | 0, _, _, _ => .error "loadseg: loops"
  | fuel + 1, fs, vm, i =>
    if i < sz then
      let pa := walkaddr vm pt (va + i.toUInt64)
      if pa = 0 then .error "loadseg: address should exist"
      else
        let n : UInt32 := if sz - i < 4096 then sz - i else 4096
        match readi fs ip (.kernel []) (offset + i) n with
        | .error e => .error e
        | .ok (fs, dst, r) =>
          let vm := vm.setBytes pa (fun k => dst.buf.getD k 0) 0 dst.buf.length
          if r ≠ n.toNat then .ok (fs, vm, -1)
          else loadsegLoop pt va ip offset sz fuel fs vm (i + 4096)
    else .ok (fs, vm, 0)

/-- `loadseg`.  The loop passes once per page of `sz` and once more to stop; the fuel runs
out only when `i += PGSIZE` wraps past `2^32`, and then the C loop never stops. -/
def loadseg (fs : Fsys) (vm : VM) (pt va : UInt64) (ip : Fin NINODE) (offset sz : UInt32) :
    Except String (Fsys × VM × Int) :=
  loadsegLoop pt va ip offset sz (sz.toNat / 4096 + 2) fs vm 0

/-! ## `exec` -/

/-- The fields of `struct proc` that `exec` reads or sets; `trapframe` is the address of
the trapframe page. -/
structure ExecProc where
  pagetable : UInt64
  sz : UInt64
  trapframe : UInt64
  name : List UInt8
  cwd : Fin NINODE

/-- The word of `epc` in the trapframe (byte 24). -/
def tfEpc : Fin 512 := 3

/-- The word of `sp` in the trapframe (byte 48). -/
def tfSp : Fin 512 := 6

/-- The word of `a0` in the trapframe (byte 112). -/
def tfA0 : Fin 512 := 14

/-- The word of `a1` in the trapframe (byte 120). -/
def tfA1 : Fin 512 := 15

/-- What `exec` holds at a `goto bad`: the file system and memory, the new table (`0`
before `proc_pagetable` gives one) with its size, and the inode while it is locked. -/
structure Bad where
  fs : Fsys
  vm : VM
  pagetable : UInt64
  sz : UInt64
  ip : Option (Fin NINODE)

/-- The body of `exec`: a panic is an error, a `goto bad` is thrown. -/
abbrev ExecM := ExceptT Bad (Except String)

/-- The loop of `exec` over the `k` program headers left, the next at `off`, with the image
grown to `sz`: the file system, memory and size at its end. -/
def loadSegs (pt : UInt64) (ip : Fin NINODE) :
    Nat → Fsys → VM → UInt32 → UInt64 → ExecM (Fsys × VM × UInt64)
  | 0, fs, vm, _, sz => pure (fs, vm, sz)
  | k + 1, fs, vm, off, sz => do
    let (fs, ph, r) ← readi fs ip (.kernel []) off 56
    if r ≠ 56 then throw ⟨fs, vm, pt, sz, some ip⟩
    let ph := Proghdr.ofBytes ph.buf
    if ph.type ≠ ELF_PROG_LOAD then loadSegs pt ip k fs vm (off + 56) sz
    else
      if ph.memsz < ph.filesz then throw ⟨fs, vm, pt, sz, some ip⟩
      if ph.vaddr + ph.memsz < ph.vaddr then throw ⟨fs, vm, pt, sz, some ip⟩
      if ph.vaddr % PGSIZE ≠ 0 then throw ⟨fs, vm, pt, sz, some ip⟩
      let (vm, sz1) ← uvmalloc vm pt sz (ph.vaddr + ph.memsz) (flags2perm ph.flags)
      if sz1 = 0 then throw ⟨fs, vm, pt, sz, some ip⟩
      let (fs, vm, r) ← loadseg fs vm pt ph.vaddr ip ph.off.toUInt32 ph.filesz.toUInt32
      if r < 0 then throw ⟨fs, vm, pt, sz1, some ip⟩
      loadSegs pt ip k fs vm (off + 56) sz1

/-- The loop of `exec` that pushes the argument strings from `sp` down, with their
addresses so far in `ustack`: `none` at a `goto bad`. -/
def pushArgs (pt stackbase : UInt64) :
    List (List UInt8) → VM → UInt64 → List UInt64 → VM × Option (UInt64 × List UInt64)
  | [], vm, sp, ustack => (vm, some (sp, ustack))
  | arg :: argv, vm, sp, ustack =>
    if MAXARG ≤ ustack.length then (vm, none)
    else
      let sp := sp - (arg.length + 1).toUInt64
      -- riscv sp must be 16-byte aligned
      let sp := sp - sp % 16
      if sp < stackbase then (vm, none)
      else
        match copyout vm pt sp (fun k => (arg ++ [0]).getD k 0) (arg.length + 1).toUInt64 with
        | (vm, r) => if r < 0 then (vm, none) else pushArgs pt stackbase argv vm sp (ustack ++ [sp])

/-- The bytes of the array `ustack`, eight little-endian bytes a word. -/
def wordBytes (ws : List UInt64) (k : Nat) : UInt8 := wordByte (ws.getD (k / 8) 0) (k % 8)

/-- The bytes of `path` after its last `/`. -/
def lastElem (path : List UInt8) : List UInt8 := (path.reverse.takeWhile (· != 47)).reverse

/-- `exec` from `ilock(ip)` to `return argc`, with the physical page of the trampoline. -/
def execBody (fs : Fsys) (vm : VM) (p : ExecProc) (trampoline : UInt64) (ip : Fin NINODE)
    (path : List UInt8) (argv : List (List UInt8)) : ExecM (Fsys × VM × ExecProc × Int) := do
  let fs ← ilock fs ip
  -- check ELF header
  let (fs, elf, r) ← readi fs ip (.kernel []) 0 64
  if r ≠ 64 then throw ⟨fs, vm, 0, 0, some ip⟩
  let elf := Elfhdr.ofBytes elf.buf
  if elf.magic ≠ ELF_MAGIC then throw ⟨fs, vm, 0, 0, some ip⟩
  let (vm, pt) ← procPagetable vm trampoline p.trapframe
  if pt = 0 then throw ⟨fs, vm, 0, 0, some ip⟩
  let (fs, vm, sz) ← loadSegs pt ip elf.phnum.toNat fs vm elf.phoff.toUInt32 0
  let fs ← iunlockput fs ip
  let oldsz := p.sz
  -- two pages at the next page boundary: a guard page and the stack
  let sz := PGROUNDUP sz
  let (vm, sz1) ← uvmalloc vm pt sz (sz + 2 * PGSIZE) PTE_W
  if sz1 = 0 then throw ⟨fs, vm, pt, sz, none⟩
  let sz := sz1
  let vm ← uvmclear vm pt (sz - 2 * PGSIZE)
  let stackbase := sz - PGSIZE
  let (vm, r) := pushArgs pt stackbase argv vm sz []
  let some (sp, ustack) := r | throw ⟨fs, vm, pt, sz, none⟩
  let argc := ustack.length
  -- the array of argv[] pointers, ending in 0
  let sp := sp - (argc + 1).toUInt64 * 8
  let sp := sp - sp % 16
  if sp < stackbase then throw ⟨fs, vm, pt, sz, none⟩
  let (vm, r) := copyout vm pt sp (wordBytes (ustack ++ [0])) ((argc + 1).toUInt64 * 8)
  if r < 0 then throw ⟨fs, vm, pt, sz, none⟩
  let vm := vm.write p.trapframe tfA1 sp
  let name := (lastElem path).take 15
  -- commit to the user image
  let vm := (vm.write p.trapframe tfEpc elf.entry).write p.trapframe tfSp sp
  let vm ← procFreepagetable vm p.pagetable oldsz
  pure (fs, vm, { p with pagetable := pt, sz, name }, argc)

/-- `bad:` of `exec`: the new table freed, and the inode unlocked and put if still held. -/
def execBad (b : Bad) : Except String (Fsys × VM) :=
  match (if b.pagetable ≠ 0 then procFreepagetable b.vm b.pagetable b.sz else .ok b.vm) with
  | .error e => .error e
  | .ok vm =>
    match b.ip with
    | some ip => (iunlockput b.fs ip).map fun fs => (fs, vm)
    | none => .ok (b.fs, vm)

/-- `exec(path, argv)` by the process `p`: the file system, memory and process after, and
what `exec` returns. -/
def exec (fs : Fsys) (vm : VM) (p : ExecProc) (trampoline : UInt64) (path : List UInt8)
    (argv : List (List UInt8)) : Except String (Fsys × VM × ExecProc × Int) :=
  match namei fs p.cwd path with
  | .error e => .error e
  | .ok (fs, none) => .ok (fs, vm, p, -1)
  | .ok (fs, some ip) =>
    match (execBody fs vm p trampoline ip path argv).run with
    | .error e => .error e
    | .ok (.ok r) => .ok r
    | .ok (.error b) => (execBad b).map fun r => (r.1, r.2, p, -1)

end Exec

end Xv6
