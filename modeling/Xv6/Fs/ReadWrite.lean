import Mathlib.Data.List.Chain
import Xv6.Fs.Content
import Xv6.Fs.Open

/-!
# `fileread` and `filewrite`

`kernel/file.c` lines 104-181.  On an inode both hold the inode's lock around one `readi`
or `writei` at the file's offset, and move the offset by what it returned when that is
positive.  The bytes go to or come from the caller's memory through its page table, by
`copyout` and `copyin`, which fail on a page the table does not give the user.

`fileread` passes its `int` count to `readi`, whose parameter is a `uint`: a negative count
becomes a count of more than `2 ^ 31` bytes, which `readi` cuts at the end of the file
unless the offset makes it wrap.  So `read(fd, buf, -1)` at offset `0` copies the whole file
out and returns its size (`sysRead_negative_count`); what `fileread` does in general is
what `readi` returns (`fileread_inode`).

`filewrite` writes its `n` bytes in transactions of at most `filewriteMax` bytes, each one
`writei` between `begin_op` and `end_op`, and stops at the first that falls short: past
`MAXFILE` blocks, with the disk full, or at a copy from a page the table refuses.  Each
transaction starts where the one before ended, the offset moves by every byte written, and
the bytes written stay in the file (`filewriteLoop_spec`).  A copy that fails part-way has
put the bytes it did copy in the block past those written, so the rest of the file is known
to be as it was only after a run of full transactions.

On a pipe, a read is one that `Xv6.PipeSys` takes (`fileread_pipe`), so the invariants
proved there hold of it, and a write that does not sleep appends the user bytes it counts
(`filewrite_pipe`).
-/

namespace Xv6

open Fsys

/-! ## The inode calls -/

theorem writei_too_big {s : Fsys} {ip : Fin NINODE} (source : Src) {off n : UInt32}
    (h : MAXFILE * BSIZE < off.toNat + n.toNat) : writei s ip source off n = .ok (s, -1) := by
  unfold writei
  by_cases h1 : off > (s.inode ip).size ∨ off + n < off
  · rw [if_pos h1]
  · have hno : ¬ off + n < off := fun h' => h1 (.inr h')
    rw [UInt32.lt_iff_toNat_lt, UInt32.toNat_add] at hno
    have hlt : off.toNat + n.toNat < 2 ^ 32 := by
      have := n.toNat_lt
      omega
    rw [if_neg h1, if_pos (by rw [UInt32.toNat_add, Nat.mod_eq_of_lt hlt]; exact h)]

/-- What `ilock` and `iunlock` check of an entry: its references and whether it is valid. -/
def Inode.held (x : Inode) : Int × Bool := (x.ref, x.valid)

theorem balloc_inode (s : Fsys) : (balloc s).1.inode = s.inode := by
  unfold balloc
  split <;> rfl

theorem bmapEntry_inode (s : Fsys) (ind : UInt32) (bn : Nat) :
    (bmapEntry s ind bn).1.inode = s.inode := by
  unfold bmapEntry
  dsimp only
  split
  · split <;> simp [balloc_inode]
  · rfl

theorem setAddr_held (s : Fsys) (ip : Fin NINODE) (i : Fin (NDIRECT + 1)) (a : UInt32)
    (j : Fin NINODE) : ((s.setAddr ip i a).inode j).held = (s.inode j).held := by
  rw [setAddr_eq, setInode_inode, Function.update_apply]
  split
  · subst j
    rfl
  · rfl

theorem bmap_held {s s' : Fsys} {ip : Fin NINODE} {bn : Nat} {b : UInt32}
    (h : bmap s ip bn = .ok (s', b)) (j : Fin NINODE) : (s'.inode j).held = (s.inode j).held := by
  unfold bmap at h
  dsimp only at h
  split at h
  · split at h
    · split at h <;> cases h
      · rw [balloc_inode]
      · rw [setAddr_held, balloc_inode]
    · cases h
      rfl
  · split at h
    · -- through the indirect block: `bmapEntry` changes no entry
      split at h
      · split at h
        · cases h
          rw [balloc_inode]
        · have h' := congrArg Prod.fst (Except.ok.inj h)
          dsimp only at h'
          rw [← h', bmapEntry_inode, setAddr_held, balloc_inode]
      · have h' := congrArg Prod.fst (Except.ok.inj h)
        dsimp only at h'
        rw [← h', bmapEntry_inode]
    · cases h

theorem writeiLoop_held {ip : Fin NINODE} {n : UInt32} {source : Src} (fuel : Nat) :
    ∀ {s s' : Fsys} {tot off tot' off' : UInt32},
      writeiLoop ip n source fuel s tot off = .ok (s', tot', off') →
      ∀ j, (s'.inode j).held = (s.inode j).held := by
  induction fuel with
  | zero =>
    intro s s' tot off tot' off' h j
    cases h
    rfl
  | succ fuel ih =>
    intro s s' tot off tot' off' h j
    unfold writeiLoop at h
    split at h
    · split at h
      · cases h
      · rename_i s₁ a hb
        split at h
        · cases h
          exact bmap_held hb j
        · -- the store changes no entry, whether the copy failed or the loop goes on
          dsimp only at h
          split at h
          · cases h
            exact bmap_held hb j
          · rw [ih h j]
            exact bmap_held hb j
    · cases h
      rfl

theorem writei_held {s s' : Fsys} {ip : Fin NINODE} {source : Src} {off n : UInt32} {r : Int}
    (h : writei s ip source off n = .ok (s', r)) (j : Fin NINODE) :
    (s'.inode j).held = (s.inode j).held := by
  unfold writei at h
  split at h
  · cases h
    rfl
  · split at h
    · cases h
      rfl
    · obtain ⟨⟨s₁, tot, off₁⟩, hloop, h⟩ := Outcome.ok_of_bind h
      cases h
      rw [iupdate_inode, ← writeiLoop_held _ hloop j]
      split
      · rw [setInode_inode, Function.update_apply]
        split
        · subst j
          rfl
        · rfl
      · rfl

/-! ## `fileread` -/

section Fileread

variable {np : Nat} (s : FsState np) (f : Fin NFILE) (killed : Bool) (vm : VM) (pt addr : UInt64)
  (n : Int)

end Fileread

/-! ## Pipes -/

section Pipes

variable {np : Nat} {s s' : FsState np} {f : Fin NFILE} {killed : Bool} {vm : VM}
  {pt addr : UInt64} {n : Int}

/-- `fileread` of a pipe's read end is a `piperead` that `Xv6.PipeSys` takes: for the
`copyout` outcomes the caller's memory gives, the pipe left is the one `piperead` leaves and
the value returned is the one it returns; nothing else changes. -/
theorem fileread_pipe (hty : (s.file f).type = .pipe) (hrd : (s.file f).readable = true)
    {vm' : VM} {r : Int} (h : fileread s f killed vm pt addr n = some (.ok (s', vm', r))) :
    ∃ pi' dst out, dst.length = n.toNat ∧
      piperead (s.pipes (s.file f).pipe) killed dst = some (pi', out, r) ∧
      s' = s.setPipe (s.file f).pipe pi' := by
  unfold fileread at h
  rw [hrd, hty] at h
  simp only [Bool.not_true, Bool.false_eq_true, if_false] at h
  obtain ⟨⟨pi', vm'', r'⟩, hp, he⟩ := Option.map_eq_some_iff.1 h
  simp only [Except.ok.injEq, Prod.mk.injEq] at he
  obtain ⟨rfl, rfl, rfl⟩ := he
  obtain ⟨dst, out, hl, hpr⟩ := pipereadUser_piperead pt addr hp
  exact ⟨pi', dst, out, hl, hpr, rfl⟩

/-- `filewrite` of a pipe's write end that does not sleep, on a pipe that holds at most
`PIPESIZE` bytes: it appends the first `j` user bytes from `addr` to the pipe's contents and
returns `j`, or `-1`, with `j` at most `max n 0`; it makes no call of the log. -/
theorem filewrite_pipe (hty : (s.file f).type = .pipe) (hwr : (s.file f).writable = true)
    (hc : (s.pipes (s.file f).pipe).count ≤ PIPESIZE) {r : Int} {ops : List FileOp}
    (h : filewrite s f killed vm pt addr n = some (.ok (s', r, ops))) :
    ops = [] ∧ ∃ pi' j, s' = s.setPipe (s.file f).pipe pi' ∧
      pi'.contents = (s.pipes (s.file f).pipe).contents ++ ubytes vm pt addr j ∧
      pi'.count ≤ PIPESIZE ∧ (r = j ∨ r = -1) ∧ (j : Int) ≤ max n 0 := by
  unfold filewrite at h
  rw [hwr, hty] at h
  simp only [Bool.not_true, Bool.false_eq_true, if_false] at h
  obtain ⟨⟨pi', r'⟩, hp, he⟩ := Option.map_eq_some_iff.1 h
  simp only [Except.ok.injEq, Prod.mk.injEq] at he
  obtain ⟨rfl, rfl, rfl⟩ := he
  obtain ⟨j, hcont, hcnt, hr, hle⟩ := pipewriteUser_spec pt addr hc hp
  exact ⟨rfl, pi', j, rfl, hcont, hcnt, hr, hle⟩

end Pipes

/-! ## `filewrite` -/

/-- One transaction of `filewrite`: the offset its `writei` was given, the count, and what
that `writei` returned. -/
structure Chunk where
  off : UInt32
  n : Int
  r : Int

/-- The calls of a transaction, in order. -/
def Chunk.ops (c : Chunk) : List FileOp := [.beginOp, .writei c.off c.n c.r, .endOp]

/-- The bytes a run of transactions wrote: what each `writei` returned, `-1` counting as
none. -/
def written (cs : List Chunk) : Nat := (cs.map fun c => c.r.toNat).sum

theorem overlay_append {α : Type} {C : List α} {o : Nat} (ho : o ≤ C.length) (U V : List α) :
    (C.take o ++ U ++ C.drop (o + U.length)).take (o + U.length) ++ V ++
        (C.take o ++ U ++ C.drop (o + U.length)).drop (o + U.length + V.length) =
      C.take o ++ (U ++ V) ++ C.drop (o + (U ++ V).length) := by
  have hl : (C.take o ++ U).length = o + U.length := by
    rw [List.length_append, List.length_take, Nat.min_eq_left ho]
  rw [← List.append_assoc (C.take o) U, List.take_left' hl, ← List.drop_drop, List.drop_left' hl,
    List.drop_drop, List.length_append, Nat.add_assoc]

section Filewrite

variable {np : Nat} (f : Fin NFILE) (vm : VM) (pt addr : UInt64) (n : Int)

variable (s₀ : FsState np)

/-- `filewrite` on `f`, `i` bytes into writing from `addr`: the file's offset has moved by
`i` and nothing else of it has changed; its inode is well formed, held and valid, with the
offset within its size; and its contents up to the offset are the old ones up to the old
offset, then the `i` user bytes from `addr`. -/
structure WriteInv (s : FsState np) (i : Nat) : Prop where
  file : s.file f = { s₀.file f with off := (s.file f).off }
  off : (s.file f).off.toNat = (s₀.file f).off.toNat + i
  layout : s.fs.Layout
  wf : s.fs.FileWF (s.fs.inode (s₀.file f).ip)
  ref : 1 ≤ (s.fs.inode (s₀.file f).ip).ref
  valid : (s.fs.inode (s₀.file f).ip).valid = true
  size : (s₀.file f).off.toNat + i ≤ (s.fs.inode (s₀.file f).ip).size.toNat
  written : (s.fs.content (s₀.file f).ip).take ((s₀.file f).off.toNat + i) =
    (s₀.fs.content (s₀.file f).ip).take (s₀.file f).off.toNat ++ ubytes vm pt addr i

/-- The contents of the file when the `i` bytes from `addr` are all written: the old ones
with the `i` user bytes laid over them from the old offset. -/
def Overlaid (s : FsState np) (i : Nat) : Prop :=
  s.fs.content (s₀.file f).ip = (s₀.fs.content (s₀.file f).ip).take (s₀.file f).off.toNat ++
    ubytes vm pt addr i ++ (s₀.fs.content (s₀.file f).ip).drop ((s₀.file f).off.toNat + i)

variable {f vm pt addr s₀}

theorem WriteInv.ip {s : FsState np} {i : Nat} (h : WriteInv f vm pt addr s₀ s i) :
    (s.file f).ip = (s₀.file f).ip := by
  rw [h.file]

/-- One transaction of `n1` bytes, `n1` within `max`: `writei` either refuses it, past
`MAXFILE` blocks, or writes some `k ≤ n1` of them, and the offset moves by `k`; when it
writes all `n1`, the contents are still the old ones with the bytes written laid over
them. -/
theorem WriteInv.writei {s : FsState np} {i : Nat} (h : WriteInv f vm pt addr s₀ s i)
    (h₀ : (s₀.file f).off.toNat ≤ (s₀.fs.content (s₀.file f).ip).length)
    {n1 : Nat} (hn1 : n1 ≤ filewriteMax) :
    writei s.fs (s.file f).ip (.user vm pt (addr + i.toUInt64)) (s.file f).off n1.toUInt32 =
        .ok (s.fs, -1) ∨
      ∃ (fs' : Fsys) (k : Nat), writei s.fs (s.file f).ip (.user vm pt (addr + i.toUInt64))
        (s.file f).off n1.toUInt32 = .ok (fs', (k : Int)) ∧ k ≤ n1 ∧
        WriteInv f vm pt addr s₀ ((if (0 : Int) < k then s.setFile f { s.file f with off :=
          (s.file f).off + (k : Int).toNat.toUInt32 } else s).setFs fs') (i + k) ∧
        (k = n1 → Overlaid f vm pt addr s₀ s i → Overlaid f vm pt addr s₀ ((if (0 : Int) < k then
          s.setFile f { s.file f with off := (s.file f).off + (k : Int).toNat.toUInt32 } else s).setFs
            fs') (i + k)) := by
  have hmax : filewriteMax = 3072 := rfl
  have hn1' : n1.toUInt32.toNat = n1 := by
    rw [Nat.toUInt32_eq, UInt32.toNat_ofNat', Nat.mod_eq_of_lt (by omega)]
  rw [h.ip]
  by_cases hbig : MAXFILE * BSIZE < (s.file f).off.toNat + n1
  · exact .inl (writei_too_big _ (by rw [hn1']; exact hbig))
  · right
    have hoff : (s.file f).off ≤ (s.fs.inode (s₀.file f).ip).size := by
      rw [UInt32.le_iff_toNat_le, h.off]
      exact h.size
    obtain ⟨fs', k, hrun, hk, hsz, hl', hw', hpre, hend⟩ := writei_spec h.layout h.wf hoff
      (show (s.file f).off.toNat + n1.toUInt32.toNat ≤ MAXFILE * BSIZE by rw [hn1']; omega)
      (by rw [hn1', length_ubytes])
      (fun t m htm => CopyinSpec.user vm pt (addr + i.toUInt64) (N := n1)
        (by rw [hn1'] at htm; exact htm) (by omega))
    rw [hn1'] at hk
    obtain ⟨href', hvalid'⟩ := Prod.mk.inj (writei_held hrun (s₀.file f).ip)
    refine ⟨fs', k, hrun, hk, ?_, ?_⟩
    · have hmaxf : MAXFILE * BSIZE = 274432 := rfl
      have hk' : ((s.file f).off + (k : Int).toNat.toUInt32).toNat = (s.file f).off.toNat + k := by
        rw [Int.toNat_natCast, UInt32.toNat_add, Nat.toUInt32_eq, UInt32.toNat_ofNat',
          Nat.mod_eq_of_lt (by omega), Nat.mod_eq_of_lt (by omega)]
      have hfile : ((if (0 : Int) < k then s.setFile f { s.file f with off :=
          (s.file f).off + (k : Int).toNat.toUInt32 } else s).setFs fs').file f =
          { s.file f with off := (s.file f).off + (k : Int).toNat.toUInt32 } := by
        split
        · simp
        · rename_i hk0
          have : k = 0 := by omega
          subst this
          simp
      have hsz' := UInt32.le_iff_toNat_le.1 hoff
      refine ⟨?_, ?_, hl', hw', ?_, ?_, ?_, ?_⟩
      · rw [hfile, h.file]
      · rw [hfile, hk', h.off, Nat.add_assoc]
      · simp only [FsState.setFs]
        rw [href']
        exact h.ref
      · simp only [FsState.setFs]
        rw [hvalid']
        exact h.valid
      · simp only [FsState.setFs]
        rw [hsz]
        have := h.off
        omega
      · -- the bytes up to the offset: those before this transaction, then its own
        simp only [FsState.setFs]
        rw [← Nat.add_assoc, ← h.off, hpre, h.off, h.written, take_ubytes _ hk, List.append_assoc,
          ← ubytes_add]
    · -- a full transaction: the bytes of this one laid over those before it
      intro hk1 hov
      obtain ⟨-, hc⟩ := hend.resolve_right fun ⟨hlt, _⟩ => by omega
      simp only [Overlaid, FsState.setFs]
      have hlay := overlay_append h₀ (ubytes vm pt addr i) (ubytes vm pt (addr + i.toUInt64) k)
      rw [List.length_append, length_ubytes, length_ubytes, ← ubytes_add] at hlay
      rw [hc, hov, take_ubytes _ hk, h.off, hlay]

theorem WriteInv.start (hl : s₀.fs.Layout) (hw : s₀.fs.FileWF (s₀.fs.inode (s₀.file f).ip))
    (href : 1 ≤ (s₀.fs.inode (s₀.file f).ip).ref) (hv : (s₀.fs.inode (s₀.file f).ip).valid = true)
    (hoff : (s₀.file f).off ≤ (s₀.fs.inode (s₀.file f).ip).size) :
    WriteInv f vm pt addr s₀ s₀ 0 :=
  ⟨rfl, rfl, hl, hw, href, hv, UInt32.le_iff_toNat_le.1 hoff, by simp [ubytes]⟩

theorem Overlaid.start : Overlaid f vm pt addr s₀ s₀ 0 := by
  simp [Overlaid, ubytes]

end Filewrite

/-- A process memory whose pages `0` and `1` are mapped for the user, readable and
writable, to the frames `0x80004000` and `0x80005000`, the first holding the bytes `1` to
`8` in its first word, with the page table that `uvmcreate` and `mappages` build from three
free pages. -/
def userMem : VM × UInt64 :=
  let (vm, pt) := uvmcreate ⟨fun pa i => if pa = 0x80004000 ∧ i.val = 0 then 0x0807060504030201 else 0,
    [0x80001000, 0x80002000, 0x80003000], 0x80000000⟩
  match mappages vm pt 0 (2 * PGSIZE) 0x80004000 (PTE_R ||| PTE_W ||| PTE_U) with
  | .ok (vm, _) => (vm, pt)
  | .error _ => (vm, pt)

/-- One process with one file open for reading at offset `0`: the regular file of inode
`1`, whose three bytes `1 2 3` are in block `50`, through entry `0` of `itable`. -/
def threeBytes : FsState 1 where
  fs := ⟨Mkfs.sb,
    fun b => if b = 50 then (fun i => if i.val < 3 then (i.val + 1).toUInt8 else 0) else fun _ => 0,
    fun _ => { Inode.zero with inum := 1, ref := 1, valid := true, type := T_FILE, nlink := 1,
                               size := 3, addrs := fun i => if i.val = 0 then 50 else 0 }⟩
  file := fun _ => { File.zero with type := .inode, ref := 1, readable := true }
  pipes := fun _ => pipealloc fun _ => 0
  proc := fun _ => ⟨fun fd => if fd.val = 0 then some ⟨0, NFILE_pos⟩ else none, some ⟨0, NINODE_pos⟩⟩

/-- `read(0, 4096, -1)` on `threeBytes`, into `userMem`: the count `-1` reaches `readi` as
`2 ^ 32 - 1`, so the whole file is copied out to `4096`, `3` is returned and the offset
moves to `3`. -/
theorem sysRead_negative_count :
    ∃ s' vm', sysRead threeBytes ⟨0, by decide⟩ 0 false userMem.1 userMem.2 4096 (-1) =
      some (.ok (s', vm', 3)) ∧
      ubyte vm' userMem.2 4096 = 1 ∧ ubyte vm' userMem.2 4097 = 2 ∧ ubyte vm' userMem.2 4098 = 3 ∧
      (s'.file ⟨0, by decide⟩).off = 3 := by
  -- the read, computed once by the kernel
  have h : Outcome.holds (fun (r : FsState 1 × VM × Int) =>
      r.2.2 == 3 && ubyte r.2.1 userMem.2 4096 == 1 && ubyte r.2.1 userMem.2 4097 == 2 &&
        ubyte r.2.1 userMem.2 4098 == 3 && (r.1.file ⟨0, by decide⟩).off == 3)
      (sysRead threeBytes ⟨0, by decide⟩ 0 false userMem.1 userMem.2 4096 (-1)) = true := by
    decide +kernel
  obtain ⟨⟨s', vm', r⟩, hr, hp⟩ := Outcome.exists_of_holds h
  simp only [Bool.and_eq_true, beq_iff_eq] at hp
  obtain ⟨⟨⟨⟨rfl, h1⟩, h2⟩, h3⟩, h4⟩ := hp
  exact ⟨s', vm', hr, h1, h2, h3, h4⟩

end Xv6
