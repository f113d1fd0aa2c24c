import Xv6.Fs.Mkfs

/-!
# The inode table shared by processes

`kernel/fs.c`, lines 194-362: `ialloc`, `iupdate`, `iget`, `idup`, `ilock`, `iunlock` and
`iput` as processes interleave them.  `Xv6.Fs.Inode` runs one call at a time; here the
inodes' sleep-locks come back, as the holder of each entry's lock, with the references
each holder has from `iget`, `idup` and `ialloc`.

Each call is one step.  The code holds `itable.lock` through `iget`, `idup` and the two
ends of `iput`, and a holder owns the inode's sleep-lock from `ilock` to `iunlock`.  To
free an inode `iput` releases `itable.lock` and truncates under the sleep-lock with
`ref = 1`; no other call reads or changes the entry's fields until the sleep-lock is
released, so the truncation is one step (`iputTrunc`).  The final `ip->ref--` takes
`itable.lock` again after that, a step of its own (`iputEnd`): in between, a lookup of the
same inode finds the entry, no longer valid.

The paths of `sysfile.c` change an inode's `major`, `minor` and `nlink` while they hold its
lock, and call `iupdate` before they unlock it: the entry is `dirty` from the change to the
`iupdate`, and its holder does not unlock it in between.  A holder unlocks an inode before
it puts it.  Lookups name inodes of the file system (`inum < sb.ninodes`) on the one
device, `ROOTDEV`.

The invariant `Itab.Inv`: each entry's `ref` counts the references held to it, the entries
in use hold distinct inodes, and a valid entry in use that is not dirty equals its disk
inode.  An entry no one holds may stay valid with contents its disk inode no longer has;
`iget` reads the disk again before it returns such an entry.
-/

namespace Xv6

open Bytes

/-- Where the superblock puts the inodes: each inode block below the free map, and the free
map below every block `BBLOCK` names, so that freeing a block writes no inode block. -/
structure Superblock.InodesFirst (sb : Superblock) : Prop where
  iblock : ∀ inum : UInt32, inum < sb.ninodes → (IBLOCK inum sb).toNat < sb.bmapstart.toNat
  bblock : ∀ b : UInt32, sb.bmapstart.toNat ≤ (BBLOCK b sb).toNat

theorem Mkfs.sb_inodesFirst : Mkfs.sb.InodesFirst where
  iblock inum h := by
    have h' := UInt32.lt_iff_toNat_lt.1 h
    simp [Mkfs.sb, Mkfs.NINODES] at h'
    simp [IBLOCK, Mkfs.sb, UInt32.toNat_add, UInt32.toNat_div, IPB_eq, Mkfs.nlog, Mkfs.ninodeblocks,
      Mkfs.NINODES, LOGSIZE_eq]
    omega
  bblock b := by
    have := b.toNat_lt
    simp [BBLOCK, Mkfs.sb, UInt32.toNat_add, UInt32.toNat_div, BPB_eq, IPB_eq, Mkfs.nlog,
      Mkfs.ninodeblocks, Mkfs.NINODES, LOGSIZE_eq]
    omega

/-! ## Disk inodes under stores -/

namespace Fsys

variable (s : Fsys)

@[simp] theorem dinode_setInode (ip : Fin NINODE) (x : Inode) :
    (s.setInode ip x).dinode = s.dinode := rfl

@[simp] theorem dinode_setAddr (ip : Fin NINODE) (i : Fin (NDIRECT + 1)) (a : UInt32) :
    (s.setAddr ip i a).dinode = s.dinode := rfl

@[simp] theorem setDinode_sb (inum : UInt32) (x : DInode) : (s.setDinode inum x).sb = s.sb := rfl

@[simp] theorem setDinode_inode (inum : UInt32) (x : DInode) :
    (s.setDinode inum x).inode = s.inode := rfl

theorem dinode_put {a : Nat} {v : Block} {inum : UInt32} (h : a ≠ (IBLOCK inum s.sb).toNat) :
    (s.put a v).dinode inum = s.dinode inum := by
  simp [dinode, Function.update_of_ne (Ne.symm h)]

theorem dinode_setDinode_self (inum : UInt32) (x : DInode) :
    (s.setDinode inum x).dinode inum = x := by
  have hk : inum.toNat % IPB < IPB := Nat.mod_lt _ (by rw [IPB_eq]; omega)
  simp [dinode, setDinode, DInode.read_write_self _ _ hk]

theorem dinode_setDinode_of_ne {inum inum' : UInt32} (x : DInode) (h : inum' ≠ inum) :
    (s.setDinode inum x).dinode inum' = s.dinode inum' := by
  by_cases hb : IBLOCK inum' s.sb = IBLOCK inum s.sb
  · -- the same block: another slot of it
    have hk : inum'.toNat % IPB ≠ inum.toNat % IPB := fun hk => h (IBLOCK_slot_inj hb hk)
    simp [dinode, setDinode, hb, DInode.read_write_of_ne _ _ hk]
  · rw [setDinode_eq, dinode_put]
    exact fun he => hb (UInt32.toNat_inj.1 he).symm

theorem dinode_markFree {inum : UInt32} (b : UInt32) (hsb : s.sb.InodesFirst)
    (h : inum < s.sb.ninodes) : (s.markFree b).dinode inum = s.dinode inum := by
  have h1 := hsb.iblock inum h
  have h2 := hsb.bblock b
  rw [markFree_eq, dinode_put]
  omega

end Fsys

/-! ## What freeing an inode changes -/

/-- `s'` differs from `s` in what truncating and freeing entry `ip` may change: the entry's
contents other than its device, number and count, its disk inode, and blocks that hold no
inode. -/
structure Fsys.Frame (s s' : Fsys) (ip : Fin NINODE) : Prop where
  sb : s'.sb = s.sb
  inode : ∀ jp, jp ≠ ip → s'.inode jp = s.inode jp
  dev : (s'.inode ip).dev = (s.inode ip).dev
  inum : (s'.inode ip).inum = (s.inode ip).inum
  ref : (s'.inode ip).ref = (s.inode ip).ref
  dinode : ∀ inum, inum < s.sb.ninodes → inum ≠ (s.inode ip).inum → s'.dinode inum = s.dinode inum

namespace Fsys.Frame

variable {s s₁ s₂ : Fsys} {ip : Fin NINODE}

theorem refl (s : Fsys) (ip : Fin NINODE) : s.Frame s ip :=
  ⟨rfl, fun _ _ => rfl, rfl, rfl, rfl, fun _ _ _ => rfl⟩

theorem trans (h₁ : s.Frame s₁ ip) (h₂ : s₁.Frame s₂ ip) : s.Frame s₂ ip where
  sb := h₂.sb.trans h₁.sb
  inode jp hj := (h₂.inode jp hj).trans (h₁.inode jp hj)
  dev := h₂.dev.trans h₁.dev
  inum := h₂.inum.trans h₁.inum
  ref := h₂.ref.trans h₁.ref
  dinode inum hlt hne := by
    have hlt₁ : inum < s₁.sb.ninodes := h₁.sb ▸ hlt
    have hne₁ : inum ≠ (s₁.inode ip).inum := h₁.inum ▸ hne
    rw [h₂.dinode inum hlt₁ hne₁, h₁.dinode inum hlt hne]

theorem setInode (s : Fsys) (x : Inode) (hdev : x.dev = (s.inode ip).dev)
    (hinum : x.inum = (s.inode ip).inum) (href : x.ref = (s.inode ip).ref) :
    s.Frame (s.setInode ip x) ip where
  sb := rfl
  inode jp hj := by simp [hj]
  dev := by simpa using hdev
  inum := by simpa using hinum
  ref := by simpa using href
  dinode _ _ _ := rfl

theorem setAddr (s : Fsys) (i : Fin (NDIRECT + 1)) (a : UInt32) : s.Frame (s.setAddr ip i a) ip :=
  setInode s _ rfl rfl rfl

theorem iupdate (s : Fsys) : s.Frame (Xv6.iupdate s ip) ip where
  sb := rfl
  inode _ _ := rfl
  dev := rfl
  inum := rfl
  ref := rfl
  dinode _ _ hne := s.dinode_setDinode_of_ne _ hne

theorem bfree (hsb : s.sb.InodesFirst) {b : UInt32} (h : Xv6.bfree s b = .ok s₁) :
    s.Frame s₁ ip := by
  unfold Xv6.bfree at h
  split at h
  · cases h
    exact ⟨rfl, fun _ _ => rfl, rfl, rfl, rfl, fun _ hlt _ => s.dinode_markFree b hsb hlt⟩
  · cases h

end Fsys.Frame

section Trunc

variable {s s' : Fsys} {ip : Fin NINODE}

theorem frame_itruncDirect (hsb : s.sb.InodesFirst) (h : itruncDirect ip s = .ok s') :
    s.Frame s' ip := by
  refine Outcome.foldlM_ok_inv (fun s₁ => s.Frame s₁ ip) ?_ (Fsys.Frame.refl s ip) h
  intro s₁ i s₂ hf hs
  split at hs
  · obtain ⟨s₃, h₃, rfl⟩ := Outcome.ok_of_map hs
    exact (hf.trans (Fsys.Frame.bfree (hf.sb ▸ hsb) h₃)).trans (Fsys.Frame.setAddr s₃ _ _)
  · cases hs
    exact hf

theorem frame_itruncIndirect (hsb : s.sb.InodesFirst) (h : itruncIndirect ip s = .ok s') :
    s.Frame s' ip := by
  unfold itruncIndirect at h
  dsimp only at h
  split at h
  · obtain ⟨s₁, h₁, h₂⟩ := Outcome.ok_of_bind h
    obtain ⟨s₃, h₃, h₄⟩ := Outcome.ok_of_bind h₂
    cases h₄
    -- the blocks the indirect block names, one `bfree` each
    have hf₁ : s.Frame s₁ ip := by
      refine Outcome.foldlM_ok_inv (fun s₁ => s.Frame s₁ ip) ?_ (Fsys.Frame.refl s ip) h₁
      intro s₄ j s₅ hf hs
      split at hs
      · exact hf.trans (Fsys.Frame.bfree (hf.sb ▸ hsb) hs)
      · cases hs
        exact hf
    exact (hf₁.trans (Fsys.Frame.bfree (hf₁.sb ▸ hsb) h₃)).trans (Fsys.Frame.setAddr s₃ _ _)
  · cases h
    exact Fsys.Frame.refl s ip

theorem frame_itrunc (hsb : s.sb.InodesFirst) (h : itrunc s ip = .ok s') : s.Frame s' ip := by
  obtain ⟨s₁, h₁, h₂⟩ := Outcome.ok_of_bind h
  obtain ⟨s₂, h₃, h₄⟩ := Outcome.ok_of_bind h₂
  cases h₄
  have hf₁ := frame_itruncDirect hsb h₁
  have hf₂ := hf₁.trans (frame_itruncIndirect (hf₁.sb ▸ hsb) h₃)
  exact (hf₂.trans (Fsys.Frame.setInode s₂ { s₂.inode ip with size := 0 } rfl rfl rfl)).trans
    (Fsys.Frame.iupdate _)

/-- The truncation of `iput` changes entry `ip`, its disk inode and the free map, and
leaves the entry not valid. -/
theorem iputTrunc_spec (hsb : s.sb.InodesFirst) (h : iputTrunc s ip = .ok s') :
    s.Frame s' ip ∧ (s'.inode ip).valid = false := by
  obtain ⟨s₁, h₁, h₂⟩ := Outcome.ok_of_bind h
  cases h₂
  -- the type cleared on disk, then the entry marked not valid
  have hf₂ : s₁.Frame (iupdate (s₁.setInode ip { s₁.inode ip with type := 0 }) ip) ip :=
    (Fsys.Frame.setInode s₁ { s₁.inode ip with type := 0 } rfl rfl rfl).trans (Fsys.Frame.iupdate _)
  refine ⟨((frame_itrunc hsb h₁).trans hf₂).trans (Fsys.Frame.setInode _ _ rfl rfl rfl), ?_⟩
  simp

end Trunc

/-! ## The calls on the table -/

section Calls

variable {s s' : Fsys} {ip : Fin NINODE}

/-- What `iget` returns: the entry in use that holds the inode, with one more reference,
or else an entry with no reference, recycled for an inode no entry in use holds. -/
theorem iget_cases {dev inum : UInt32} (h : iget s dev inum = .ok (s', ip)) :
    (0 < (s.inode ip).ref ∧ (s.inode ip).dev = dev ∧ (s.inode ip).inum = inum ∧
      s' = s.setInode ip { s.inode ip with ref := (s.inode ip).ref + 1 }) ∨
    ((s.inode ip).ref = 0 ∧
      (∀ jp, 0 < (s.inode jp).ref → (s.inode jp).dev = dev → (s.inode jp).inum ≠ inum) ∧
      s' = s.setInode ip { s.inode ip with dev, inum, ref := 1, valid := false }) := by
  unfold iget at h
  split at h
  · -- the first loop found the inode
    rename_i i hi
    cases h
    have hp := List.find?_some hi
    simp only [Bool.and_eq_true, decide_eq_true_eq, beq_iff_eq] at hp
    exact .inl ⟨hp.1.1, hp.1.2, hp.2, rfl⟩
  · rename_i hnone
    split at h
    · rename_i e he
      cases h
      have hmiss := List.find?_eq_none.1 hnone
      refine .inr ⟨by simpa using List.find?_some he, fun jp hj hd hi => ?_, rfl⟩
      have := hmiss jp (List.mem_finRange jp)
      simp [hj, hd, hi] at this
    · cases h

/-- What `ilock` does to the entry: nothing if it is valid; else it loads the disk inode,
which has a type. -/
theorem ilock_cases (h : ilock s ip = .ok s') :
    ∃ x, s' = s.setInode ip x ∧ x.dev = (s.inode ip).dev ∧ x.inum = (s.inode ip).inum ∧
      x.ref = (s.inode ip).ref ∧ x.valid = true ∧
      (x = s.inode ip ∨ x.type ≠ 0 ∧ x.toDInode = s.dinode (s.inode ip).inum) := by
  unfold ilock at h
  dsimp only at h
  split at h
  · cases h
  · split at h
    · cases h
      refine ⟨s.inode ip, by simp [Fsys.setInode], rfl, rfl, rfl, ‹_›, .inl rfl⟩
    · split at h
      · cases h
      · cases h
        exact ⟨_, rfl, rfl, rfl, rfl, rfl, .inr ⟨‹_›, rfl⟩⟩

theorem iunlock_eq (h : iunlock s ip = .ok s') : s' = s := by
  unfold iunlock at h
  split at h
  · cases h
  · cases h
    rfl

/-- What `ialloc` does: nothing when no disk inode is free; else it marks a free disk inode
`inum < ninodes` allocated and gets an entry for it. -/
theorem ialloc_cases {dev : UInt32} {type : Int16} {r : Option (Fin NINODE)}
    (h : ialloc s dev type = .ok (s', r)) :
    (r = none ∧ s' = s) ∨ ∃ inum ip, r = some ip ∧ inum < s.sb.ninodes ∧
      (s.dinode inum).type = 0 ∧ iget (s.setDinode inum (DInode.alloc type)) dev inum = .ok (s', ip) := by
  unfold ialloc at h
  split at h
  · rename_i n hn
    obtain ⟨⟨s₁, ip⟩, h₁, h₂⟩ := Outcome.ok_of_map h
    cases h₂
    have hmem := List.mem_range'_1.1 (List.mem_of_find?_eq_some hn)
    have hlt : n.toUInt32 < s.sb.ninodes := by
      have := s.sb.ninodes.toNat_lt
      rw [UInt32.lt_iff_toNat_lt, Nat.toUInt32, UInt32.toNat_ofNat', Nat.mod_eq_of_lt (by omega)]
      omega
    exact .inr ⟨n.toUInt32, ip, rfl, hlt, by simpa using List.find?_some hn, h₁⟩
  · cases h
    exact .inl ⟨rfl, rfl⟩

end Calls

/-! ## The table shared by processes -/

/-- The inode layer as processes share it: the file system; the references held, a pair
`(h, ip)` for each `iget`, `idup` or `ialloc` of holder `h` not yet matched by an `iput`;
the holder of each entry's sleep-lock; the entries whose on-disk fields the lock holder has
changed since its last `iupdate`; and the entry of each holder inside `iput` between its
truncation and its final decrement. -/
structure Itab where
  fs : Fsys
  held : List (Nat × Fin NINODE)
  owner : Fin NINODE → Option Nat
  dirty : Fin NINODE → Bool
  ending : Nat → Option (Fin NINODE)

/-- A call by holder `h`. -/
inductive ICall where
  | iget (h : Nat) (inum : UInt32)
  /-- `idup` of a reference of `h`, the new reference going to `h'` (`fork` gives the
  child its own) -/
  | idup (h h' : Nat) (ip : Fin NINODE)
  | ilock (h : Nat) (ip : Fin NINODE)
  | iunlock (h : Nat) (ip : Fin NINODE)
  | iupdate (h : Nat) (ip : Fin NINODE)
  /-- a path of `sysfile.c` changing the locked inode's `major`, `minor` and `nlink` -/
  | set (h : Nat) (ip : Fin NINODE) (major minor nlink : Int16)
  | iput (h : Nat) (ip : Fin NINODE)
  /-- the end of an `iput` that freed its inode -/
  | iputEnd (h : Nat) (ip : Fin NINODE)
  | ialloc (h : Nat) (type : Int16)

/-- The references in `l` to entry `ip`. -/
def nrefs (l : List (Nat × Fin NINODE)) (ip : Fin NINODE) : Nat := l.countP fun r => r.2 == ip

namespace Itab

/-- Holder `h` is inside an `iput`, past its truncation. -/
def busy (t : Itab) (h : Nat) : Bool := (t.ending h).isSome

/-- One call: `none` when it is not the caller's to make (a reference it does not hold, a
lock it does not own, a call while it is inside `iput`) or when it waits for a sleep-lock,
`some (.error msg)` for a panic. -/
def step (t : Itab) : ICall → Option (Except String Itab)
  | .iget h inum =>
    if t.busy h ∨ t.fs.sb.ninodes ≤ inum then none
    else some ((Xv6.iget t.fs ROOTDEV inum).map fun r =>
      { t with fs := r.1, held := t.held ++ [(h, r.2)] })
  | .idup h h' ip =>
    if t.busy h ∨ (h, ip) ∉ t.held then none
    else some (.ok { t with fs := Xv6.idup t.fs ip, held := t.held ++ [(h', ip)] })
  | .ilock h ip =>
    -- acquiresleep waits while the lock is held
    if t.busy h ∨ (h, ip) ∉ t.held ∨ t.owner ip ≠ none then none
    else some ((Xv6.ilock t.fs ip).map fun fs =>
      { t with fs, owner := Function.update t.owner ip (some h) })
  | .iunlock h ip =>
    if t.busy h then none
    else if t.owner ip ≠ some h then some (.error "iunlock")
    else if t.dirty ip then none
    else some ((Xv6.iunlock t.fs ip).map fun fs =>
      { t with fs, owner := Function.update t.owner ip none })
  | .iupdate h ip =>
    if t.busy h ∨ t.owner ip ≠ some h then none
    else some (.ok { t with fs := Xv6.iupdate t.fs ip, dirty := Function.update t.dirty ip false })
  | .set h ip major minor nlink =>
    if t.busy h ∨ t.owner ip ≠ some h then none
    else some (.ok { t with fs := t.fs.setInode ip { t.fs.inode ip with major, minor, nlink },
                            dirty := Function.update t.dirty ip true })
  | .iput h ip =>
    if t.busy h ∨ (h, ip) ∉ t.held ∨ t.owner ip = some h then none
    else if (t.fs.inode ip).ref = 1 ∧ (t.fs.inode ip).valid ∧ (t.fs.inode ip).nlink = 0 then
      -- acquiresleep, which cannot wait here
      if t.owner ip ≠ none then none
      else some ((iputTrunc t.fs ip).map fun fs =>
        { t with fs, ending := Function.update t.ending h (some ip) })
    else some (.ok { t with fs := iputDrop t.fs ip, held := t.held.erase (h, ip) })
  | .iputEnd h ip =>
    if t.ending h ≠ some ip then none
    else some (.ok { t with fs := iputDrop t.fs ip, held := t.held.erase (h, ip),
                            ending := Function.update t.ending h none })
  | .ialloc h type =>
    if t.busy h then none
    else some ((Xv6.ialloc t.fs ROOTDEV type).map fun r =>
      { t with fs := r.1, held := t.held ++ (r.2.map fun ip => (h, ip)).toList })

/-- At boot: the zero-initialised table on a disk with superblock `sb`, nothing held. -/
def boot (sb : Superblock) (disk : Disk) : Itab :=
  ⟨⟨sb, disk, fun _ => Inode.zero⟩, [], fun _ => none, fun _ => false, fun _ => none⟩

/-! ### Inversion: what each call can do -/

section Inversion

variable {t t' : Itab} {h h' : Nat} {ip : Fin NINODE}

theorem step_iget {inum : UInt32} (hs : t.step (.iget h inum) = some (.ok t')) :
    t.busy h = false ∧ inum < t.fs.sb.ninodes ∧ ∃ fs ip,
      Xv6.iget t.fs ROOTDEV inum = .ok (fs, ip) ∧ t' = { t with fs, held := t.held ++ [(h, ip)] } := by
  obtain ⟨hg, hs⟩ := Outcome.ok_of_unless hs
  obtain ⟨⟨fs, ip⟩, h₁, rfl⟩ := Outcome.ok_of_map (Option.some.inj hs)
  simp only [not_or, Bool.not_eq_true] at hg
  exact ⟨hg.1, UInt32.not_le.1 hg.2, fs, ip, h₁, rfl⟩

theorem step_idup (hs : t.step (.idup h h' ip) = some (.ok t')) :
    t.busy h = false ∧ (h, ip) ∈ t.held ∧
      t' = { t with fs := Xv6.idup t.fs ip, held := t.held ++ [(h', ip)] } := by
  obtain ⟨hg, hs⟩ := Outcome.ok_of_unless hs
  simp only [not_or, Bool.not_eq_true, not_not] at hg
  simp only [Option.some.injEq, Except.ok.injEq] at hs
  exact ⟨hg.1, hg.2, hs.symm⟩

theorem step_ilock (hs : t.step (.ilock h ip) = some (.ok t')) :
    t.busy h = false ∧ (h, ip) ∈ t.held ∧ t.owner ip = none ∧ ∃ fs,
      Xv6.ilock t.fs ip = .ok fs ∧ t' = { t with fs, owner := Function.update t.owner ip (some h) } := by
  obtain ⟨hg, hs⟩ := Outcome.ok_of_unless hs
  obtain ⟨fs, h₁, rfl⟩ := Outcome.ok_of_map (Option.some.inj hs)
  simp only [not_or, Bool.not_eq_true, not_not] at hg
  exact ⟨hg.1, hg.2.1, hg.2.2, fs, h₁, rfl⟩

theorem step_iunlock (hs : t.step (.iunlock h ip) = some (.ok t')) :
    t.owner ip = some h ∧ t.dirty ip = false ∧
      t' = { t with owner := Function.update t.owner ip none } := by
  obtain ⟨-, hs⟩ := Outcome.ok_of_unless hs
  by_cases ho : t.owner ip = some h
  · rw [if_neg (not_not.2 ho)] at hs
    obtain ⟨hd, hs⟩ := Outcome.ok_of_unless hs
    obtain ⟨fs, h₁, rfl⟩ := Outcome.ok_of_map (Option.some.inj hs)
    rw [iunlock_eq h₁]
    exact ⟨ho, by simpa using hd, rfl⟩
  · rw [if_pos ho] at hs
    cases hs

theorem step_iupdate (hs : t.step (.iupdate h ip) = some (.ok t')) :
    t.owner ip = some h ∧
      t' = { t with fs := Xv6.iupdate t.fs ip, dirty := Function.update t.dirty ip false } := by
  obtain ⟨hg, hs⟩ := Outcome.ok_of_unless hs
  simp only [not_or, not_not] at hg
  simp only [Option.some.injEq, Except.ok.injEq] at hs
  exact ⟨hg.2, hs.symm⟩

theorem step_set {major minor nlink : Int16} (hs : t.step (.set h ip major minor nlink) = some (.ok t')) :
    t.owner ip = some h ∧
      t' = { t with fs := t.fs.setInode ip { t.fs.inode ip with major, minor, nlink },
                    dirty := Function.update t.dirty ip true } := by
  obtain ⟨hg, hs⟩ := Outcome.ok_of_unless hs
  simp only [not_or, not_not] at hg
  simp only [Option.some.injEq, Except.ok.injEq] at hs
  exact ⟨hg.2, hs.symm⟩

theorem step_iput (hs : t.step (.iput h ip) = some (.ok t')) :
    t.busy h = false ∧ (h, ip) ∈ t.held ∧ t.owner ip ≠ some h ∧
      ((((t.fs.inode ip).ref = 1 ∧ (t.fs.inode ip).valid ∧ (t.fs.inode ip).nlink = 0) ∧
          t.owner ip = none ∧ ∃ fs, iputTrunc t.fs ip = .ok fs ∧
            t' = { t with fs, ending := Function.update t.ending h (some ip) }) ∨
        (¬((t.fs.inode ip).ref = 1 ∧ (t.fs.inode ip).valid ∧ (t.fs.inode ip).nlink = 0) ∧
          t' = { t with fs := iputDrop t.fs ip, held := t.held.erase (h, ip) })) := by
  obtain ⟨hg, hs⟩ := Outcome.ok_of_unless hs
  simp only [not_or, Bool.not_eq_true, not_not] at hg
  refine ⟨hg.1, hg.2.1, hg.2.2, ?_⟩
  split at hs
  · -- the last reference to an inode with no links: truncate and free it
    obtain ⟨ho, hs⟩ := Outcome.ok_of_unless hs
    obtain ⟨fs, h₁, rfl⟩ := Outcome.ok_of_map (Option.some.inj hs)
    exact .inl ⟨‹_›, not_not.1 ho, fs, h₁, rfl⟩
  · simp only [Option.some.injEq, Except.ok.injEq] at hs
    exact .inr ⟨‹_›, hs.symm⟩

theorem step_iputEnd (hs : t.step (.iputEnd h ip) = some (.ok t')) :
    t.ending h = some ip ∧
      t' = { t with fs := iputDrop t.fs ip, held := t.held.erase (h, ip),
                    ending := Function.update t.ending h none } := by
  obtain ⟨hg, hs⟩ := Outcome.ok_of_unless hs
  simp only [Option.some.injEq, Except.ok.injEq] at hs
  exact ⟨not_not.1 hg, hs.symm⟩

theorem step_ialloc {type : Int16} (hs : t.step (.ialloc h type) = some (.ok t')) :
    t.busy h = false ∧ ∃ fs r, Xv6.ialloc t.fs ROOTDEV type = .ok (fs, r) ∧
      t' = { t with fs, held := t.held ++ (r.map fun ip => (h, ip)).toList } := by
  obtain ⟨hg, hs⟩ := Outcome.ok_of_unless hs
  obtain ⟨⟨fs, r⟩, h₁, rfl⟩ := Outcome.ok_of_map (Option.some.inj hs)
  exact ⟨by simpa using hg, fs, r, h₁, rfl⟩

end Inversion

/-! ### The references -/

@[simp] theorem nrefs_nil (ip : Fin NINODE) : nrefs [] ip = 0 := rfl

@[simp] theorem nrefs_append_single (l : List (Nat × Fin NINODE)) (h : Nat) (ip jp : Fin NINODE) :
    nrefs (l ++ [(h, ip)]) jp = nrefs l jp + if ip = jp then 1 else 0 := by
  simp [nrefs, List.countP_append]

theorem nrefs_pos {l : List (Nat × Fin NINODE)} {h : Nat} {ip : Fin NINODE} (hm : (h, ip) ∈ l) :
    0 < nrefs l ip :=
  List.countP_pos_iff.2 ⟨(h, ip), hm, by simp⟩

theorem nrefs_erase {l : List (Nat × Fin NINODE)} {h : Nat} {ip : Fin NINODE} (hm : (h, ip) ∈ l)
    (jp : Fin NINODE) : nrefs l jp = nrefs (l.erase (h, ip)) jp + if ip = jp then 1 else 0 := by
  have hp := (List.perm_cons_erase hm).countP_eq fun r => r.2 == jp
  simp only [List.countP_cons, beq_iff_eq] at hp
  simp only [nrefs, hp]

/-! ### The invariant -/

/-- The entries in use hold distinct inodes. -/
def Distinct (f : Fin NINODE → Inode) : Prop :=
  ∀ ip jp, 0 < (f ip).ref → 0 < (f jp).ref → (f ip).inum = (f jp).inum → ip = jp

theorem Distinct.update {f : Fin NINODE → Inode} (hu : Distinct f) {ip : Fin NINODE} {x : Inode}
    (hx : ∀ jp, jp ≠ ip → 0 < x.ref → 0 < (f jp).ref → (f jp).inum ≠ x.inum) :
    Distinct (Function.update f ip x) := by
  intro a b ha hb he
  by_cases ha' : a = ip <;> by_cases hb' : b = ip
  · rw [ha', hb']
  · subst ha'
    simp only [Function.update_self, Function.update_of_ne hb'] at ha hb he
    exact absurd he.symm (hx b hb' ha hb)
  · subst hb'
    simp only [Function.update_self, Function.update_of_ne ha'] at ha hb he
    exact absurd he (hx a ha' hb ha)
  · simp only [Function.update_of_ne ha', Function.update_of_ne hb'] at ha hb he
    exact hu a b ha hb he

theorem Distinct.update_same {f : Fin NINODE → Inode} (hu : Distinct f) {ip : Fin NINODE}
    {x : Inode} (hinum : x.inum = (f ip).inum) (href : 0 < x.ref → 0 < (f ip).ref) :
    Distinct (Function.update f ip x) :=
  hu.update fun jp hj hx hjp he => hj (hu jp ip hjp (href hx) (he.trans hinum))

/-- What an entry in use satisfies, given whether it is dirty: it holds an inode of the
file system on `ROOTDEV`; if valid, it has its disk inode's type, which is not zero, and if
also not dirty, it equals its disk inode. -/
structure EntryOk (fs : Fsys) (dirty : Bool) (x : Inode) : Prop where
  dev : x.dev = ROOTDEV
  inum_lt : x.inum < fs.sb.ninodes
  typed : x.valid → x.type ≠ 0 ∧ (fs.dinode x.inum).type = x.type
  coherent : x.valid → dirty = false → x.toDInode = fs.dinode x.inum

theorem EntryOk.congr {fs fs' : Fsys} {d : Bool} {x : Inode} (hx : EntryOk fs d x)
    (hsb : fs'.sb = fs.sb) (hd : x.valid → fs'.dinode x.inum = fs.dinode x.inum) :
    EntryOk fs' d x where
  dev := hx.dev
  inum_lt := hsb ▸ hx.inum_lt
  typed hv := by rw [hd hv]; exact hx.typed hv
  coherent hv hc := by rw [hd hv]; exact hx.coherent hv hc

/-- The invariant of the shared table: the superblock keeps inodes out of the free map's
way; each entry's count is the number of references held to it; entries in use hold
distinct inodes and are right; a lock is owned by a holder of the entry, a dirty entry is
locked; and a holder inside `iput` still holds its reference and does not own the lock. -/
structure Inv (t : Itab) : Prop where
  sb : t.fs.sb.InodesFirst
  ref_eq : ∀ ip, (t.fs.inode ip).ref = nrefs t.held ip
  unique : Distinct t.fs.inode
  entry : ∀ ip, 0 < (t.fs.inode ip).ref → EntryOk t.fs (t.dirty ip) (t.fs.inode ip)
  owner_held : ∀ ip h, t.owner ip = some h → (h, ip) ∈ t.held
  dirty_owned : ∀ ip, t.dirty ip = true → t.owner ip ≠ none
  ending_held : ∀ h ip, t.ending h = some ip → (h, ip) ∈ t.held
  ending_owner : ∀ h ip, t.ending h = some ip → t.owner ip ≠ some h

theorem boot_inv {sb : Superblock} (hsb : sb.InodesFirst) (disk : Disk) : (boot sb disk).Inv where
  sb := hsb
  ref_eq _ := rfl
  unique _ _ ha := absurd ha (lt_irrefl 0)
  entry _ ha := absurd ha (lt_irrefl 0)
  owner_held _ _ h := by cases h
  dirty_owned _ h := by cases h
  ending_held _ _ h := by cases h
  ending_owner _ _ h := by cases h

section Preserve

variable {t t' : Itab} {h h' : Nat} {ip : Fin NINODE}

theorem Inv.pos_of_held (hi : t.Inv) (hm : (h, ip) ∈ t.held) : 0 < (t.fs.inode ip).ref := by
  rw [hi.ref_eq]
  exact_mod_cast nrefs_pos hm

theorem Inv.pos_of_owner (hi : t.Inv) (ho : t.owner ip = some h) : 0 < (t.fs.inode ip).ref :=
  hi.pos_of_held (hi.owner_held ip h ho)

theorem Inv.clean (hi : t.Inv) (hown : t.owner ip = none) : t.dirty ip = false := by
  cases hd : t.dirty ip with
  | false => rfl
  | true => exact absurd hown (hi.dirty_owned ip hd)

/-- An entry with no reference has no lock holder, so it is not dirty. -/
theorem Inv.free_entry (hi : t.Inv) (h0 : (t.fs.inode ip).ref = 0) :
    t.owner ip = none ∧ t.dirty ip = false := by
  have hown : t.owner ip = none := by
    cases ho : t.owner ip with
    | none => rfl
    | some h => have := hi.pos_of_owner ho; omega
  exact ⟨hown, hi.clean hown⟩

/-- One more reference, by `h`, to an entry in use: a hit of `iget`, and `idup`. -/
theorem Inv.add_ref (hi : t.Inv) (hpos : 0 < (t.fs.inode ip).ref) (h : Nat) :
    ({ t with fs := t.fs.setInode ip { t.fs.inode ip with ref := (t.fs.inode ip).ref + 1 },
              held := t.held ++ [(h, ip)] } : Itab).Inv := by
  refine ⟨hi.sb, fun jp => ?_, hi.unique.update_same rfl fun _ => hpos, fun jp hjp => ?_,
    fun jp h' ho => List.mem_append_left _ (hi.owner_held jp h' ho), hi.dirty_owned,
    fun h' jp he => List.mem_append_left _ (hi.ending_held h' jp he), hi.ending_owner⟩
  · by_cases hj : ip = jp
    · subst hj
      simp [hi.ref_eq]
    · simp [hj, Function.update_of_ne (Ne.symm hj), hi.ref_eq]
  · by_cases hj : jp = ip
    · subst hj
      have hx := hi.entry jp hpos
      simp only [Fsys.setInode_inode, Function.update_self]
      exact ⟨hx.1, hx.2, hx.3, hx.4⟩
    · simp only [Fsys.setInode_inode, Function.update_of_ne hj] at hjp ⊢
      exact (hi.entry jp hjp).congr rfl fun _ => rfl

theorem Inv.iget_ok (hi : t.Inv) {inum : UInt32} (hlt : inum < t.fs.sb.ninodes) {fs : Fsys}
    (hg : Xv6.iget t.fs ROOTDEV inum = .ok (fs, ip)) (h : Nat) :
    ({ t with fs, held := t.held ++ [(h, ip)] } : Itab).Inv := by
  rcases iget_cases hg with ⟨hpos, -, -, rfl⟩ | ⟨h0, hfree, rfl⟩
  · exact hi.add_ref hpos h
  · -- a miss: the recycled entry had no reference, so no lock and no change pending
    have hclean := (hi.free_entry h0).2
    refine ⟨hi.sb, fun jp => ?_,
      hi.unique.update fun jp _ _ hjp he => hfree jp hjp (hi.entry jp hjp).dev he,
      fun jp hjp => ?_, fun jp h' ho => List.mem_append_left _ (hi.owner_held jp h' ho),
      hi.dirty_owned, fun h' jp he => List.mem_append_left _ (hi.ending_held h' jp he),
      hi.ending_owner⟩
    · by_cases hj : ip = jp
      · subst hj
        have := hi.ref_eq ip
        simp only [Fsys.setInode_inode, Function.update_self, nrefs_append_single, if_pos]
        omega
      · simp [hj, Function.update_of_ne (Ne.symm hj), hi.ref_eq]
    · by_cases hj : jp = ip
      · subst hj
        refine ⟨by simp, by simpa using hlt, fun hv => by simp at hv, fun hv => by simp at hv⟩
      · simp only [Fsys.setInode_inode, Function.update_of_ne hj] at hjp ⊢
        exact (hi.entry jp hjp).congr rfl fun _ => rfl

/-- A reference of `h` to `ip` dropped by the decrement of `iput`, `h` not owning the lock,
with `E` the holders inside `iput` afterwards, all of them there before and none of them `h`. -/
theorem Inv.drop (hi : t.Inv) (hm : (h, ip) ∈ t.held) (ho : t.owner ip ≠ some h)
    {E : Nat → Option (Fin NINODE)} (hE : ∀ h' jp, E h' = some jp → t.ending h' = some jp ∧ h' ≠ h) :
    ({ t with fs := iputDrop t.fs ip, held := t.held.erase (h, ip), ending := E } : Itab).Inv := by
  have hpos := hi.pos_of_held hm
  refine ⟨hi.sb, fun jp => ?_, hi.unique.update_same rfl fun hx => by simp at hx; omega,
    fun jp hjp => ?_, fun jp h' hown => ?_, hi.dirty_owned, fun h' jp he => ?_,
    fun h' jp he => hi.ending_owner h' jp (hE h' jp he).1⟩
  · have hc := nrefs_erase hm jp
    by_cases hj : ip = jp
    · subst hj
      have := hi.ref_eq ip
      simp only [iputDrop, Fsys.setInode_inode, Function.update_self, if_pos] at hc ⊢
      omega
    · simp only [iputDrop, Fsys.setInode_inode, Function.update_of_ne (Ne.symm hj), if_neg hj] at hc ⊢
      rw [hi.ref_eq, hc]
      simp
  · by_cases hj : jp = ip
    · subst hj
      have hx := hi.entry jp (by simp [iputDrop] at hjp; omega)
      simp only [iputDrop, Fsys.setInode_inode, Function.update_self]
      exact ⟨hx.1, hx.2, hx.3, hx.4⟩
    · simp only [iputDrop, Fsys.setInode_inode, Function.update_of_ne hj] at hjp ⊢
      exact (hi.entry jp hjp).congr rfl fun _ => rfl
  · -- the lock holder's reference is not the one dropped
    refine (List.mem_erase_of_ne fun he => ?_).2 (hi.owner_held jp h' hown)
    simp only [Prod.mk.injEq] at he
    obtain ⟨rfl, rfl⟩ := he
    exact ho hown
  · obtain ⟨he, hne⟩ := hE h' jp he
    refine (List.mem_erase_of_ne fun he => hne ?_).2 (hi.ending_held h' jp he)
    simp only [Prod.mk.injEq] at he
    exact he.1

theorem Inv.alloc_dinode (hi : t.Inv) {inum : UInt32} (htype : (t.fs.dinode inum).type = 0)
    (d : DInode) : ({ t with fs := t.fs.setDinode inum d } : Itab).Inv := by
  refine ⟨hi.sb, hi.ref_eq, hi.unique, fun jp hjp => ?_, hi.owner_held, hi.dirty_owned,
    hi.ending_held, hi.ending_owner⟩
  refine (hi.entry jp hjp).congr rfl fun hv => t.fs.dinode_setDinode_of_ne d fun he => ?_
  have ht := (hi.entry jp hjp).typed hv
  rw [he, htype] at ht
  exact ht.1 ht.2.symm

/-! ### Each call keeps the invariant -/

theorem Inv.iget (hi : t.Inv) {inum : UInt32} (hs : t.step (.iget h inum) = some (.ok t')) :
    t'.Inv := by
  obtain ⟨-, hlt, fs, ip, hg, rfl⟩ := step_iget hs
  exact hi.iget_ok hlt hg h

theorem Inv.idup (hi : t.Inv) (hs : t.step (.idup h h' ip) = some (.ok t')) : t'.Inv := by
  obtain ⟨-, hm, rfl⟩ := step_idup hs
  exact hi.add_ref (hi.pos_of_held hm) h'

theorem Inv.ilock (hi : t.Inv) (hs : t.step (.ilock h ip) = some (.ok t')) : t'.Inv := by
  obtain ⟨hb, hm, hfree, fs, hl, rfl⟩ := step_ilock hs
  obtain ⟨x, rfl, hdev, hinum, href, -, hx⟩ := ilock_cases hl
  have hpos := hi.pos_of_held hm
  have hE := hi.entry ip hpos
  -- no lock holder, so no change pending: the entry is read from disk, or already right
  have hclean := hi.clean hfree
  refine ⟨hi.sb, fun jp => ?_, hi.unique.update_same hinum fun _ => hpos, fun jp hjp => ?_,
    fun jp h' ho => ?_, fun jp hd => ?_, hi.ending_held, fun h' jp he => ?_⟩
  · by_cases hj : jp = ip
    · subst hj
      simp [href, hi.ref_eq]
    · simp [hj, hi.ref_eq]
  · by_cases hj : jp = ip
    · subst hj
      simp only [Fsys.setInode_inode, Function.update_self]
      rcases hx with rfl | ⟨hty, hd⟩
      · exact hE.congr rfl fun _ => rfl
      · refine ⟨hdev ▸ hE.dev, hinum ▸ hE.inum_lt, fun _ => ⟨hty, ?_⟩, fun _ _ => ?_⟩
        · rw [hinum, Fsys.dinode_setInode, ← hd]
          rfl
        · rw [hinum, Fsys.dinode_setInode, ← hd]
    · simp only [Fsys.setInode_inode, Function.update_of_ne hj] at hjp ⊢
      exact (hi.entry jp hjp).congr rfl fun _ => rfl
  · by_cases hj : jp = ip
    · subst hj
      simp only [Function.update_self, Option.some.injEq] at ho
      exact ho ▸ hm
    · simp only [Function.update_of_ne hj] at ho
      exact hi.owner_held jp h' ho
  · by_cases hj : jp = ip
    · subst hj
      simp
    · simp only [Function.update_of_ne hj]
      exact hi.dirty_owned jp hd
  · by_cases hj : jp = ip
    · -- a holder inside `iput` makes no call: the new owner is another
      subst hj
      have hne : h ≠ h' := by
        rintro rfl
        simp [busy] at hb
        simp [hb] at he
      simpa [Function.update_self] using hne
    · simp only [Function.update_of_ne hj]
      exact hi.ending_owner h' jp he

theorem Inv.iunlock (hi : t.Inv) (hs : t.step (.iunlock h ip) = some (.ok t')) : t'.Inv := by
  obtain ⟨-, hclean, rfl⟩ := step_iunlock hs
  refine ⟨hi.sb, hi.ref_eq, hi.unique, hi.entry, fun jp h' ho => ?_, fun jp hd => ?_,
    hi.ending_held, fun h' jp he => ?_⟩
  · by_cases hj : jp = ip
    · subst hj
      simp at ho
    · simp only [Function.update_of_ne hj] at ho
      exact hi.owner_held jp h' ho
  · by_cases hj : jp = ip
    · subst hj
      simp [hclean] at hd
    · simp only [Function.update_of_ne hj]
      exact hi.dirty_owned jp hd
  · by_cases hj : jp = ip
    · subst hj
      simp
    · simp only [Function.update_of_ne hj]
      exact hi.ending_owner h' jp he

theorem Inv.iupdate (hi : t.Inv) (hs : t.step (.iupdate h ip) = some (.ok t')) : t'.Inv := by
  obtain ⟨ho, rfl⟩ := step_iupdate hs
  have hpos := hi.pos_of_owner ho
  have hE := hi.entry ip hpos
  refine ⟨hi.sb, hi.ref_eq, hi.unique, fun jp hjp => ?_, hi.owner_held, fun jp hd => ?_,
    hi.ending_held, hi.ending_owner⟩
  · by_cases hj : jp = ip
    · -- the entry written to its disk inode
      subst hj
      have hself : (Xv6.iupdate t.fs jp).dinode (t.fs.inode jp).inum = (t.fs.inode jp).toDInode :=
        t.fs.dinode_setDinode_self _ _
      refine ⟨hE.dev, hE.inum_lt, fun hv => ⟨(hE.typed hv).1, ?_⟩, fun _ _ => ?_⟩
      · simp only [Xv6.iupdate, Fsys.setDinode_inode] at hself ⊢
        rw [hself]
        rfl
      · simpa [Xv6.iupdate] using hself.symm
    · -- another entry in use holds another inode, whose disk inode is unchanged
      have hne : (t.fs.inode jp).inum ≠ (t.fs.inode ip).inum := fun he => hj (hi.unique jp ip hjp hpos he)
      simp only [Xv6.iupdate, Fsys.setDinode_inode, Function.update_of_ne hj] at hjp ⊢
      exact (hi.entry jp hjp).congr rfl fun _ => t.fs.dinode_setDinode_of_ne _ hne
  · by_cases hj : jp = ip
    · subst hj
      simp at hd
    · simp only [Function.update_of_ne hj] at hd
      exact hi.dirty_owned jp hd

theorem Inv.set (hi : t.Inv) {major minor nlink : Int16}
    (hs : t.step (.set h ip major minor nlink) = some (.ok t')) : t'.Inv := by
  obtain ⟨ho, rfl⟩ := step_set hs
  have hpos := hi.pos_of_owner ho
  refine ⟨hi.sb, fun jp => ?_, hi.unique.update_same rfl fun _ => hpos, fun jp hjp => ?_,
    hi.owner_held, fun jp hd => ?_, hi.ending_held, hi.ending_owner⟩
  · by_cases hj : jp = ip
    · subst hj
      simp [hi.ref_eq]
    · simp [hj, hi.ref_eq]
  · by_cases hj : jp = ip
    · -- the type and the disk inode are unchanged, and the entry is now dirty
      subst hj
      have hE := hi.entry jp hpos
      simp only [Fsys.setInode_inode, Function.update_self]
      exact ⟨hE.dev, hE.inum_lt, hE.typed, fun _ hd => by simp at hd⟩
    · simp only [Fsys.setInode_inode, Function.update_of_ne hj] at hjp ⊢
      exact (hi.entry jp hjp).congr rfl fun _ => rfl
  · by_cases hj : jp = ip
    · subst hj
      simp [ho]
    · simp only [Function.update_of_ne hj] at hd
      exact hi.dirty_owned jp hd

/-- The truncation of `iput`, by a holder of the only reference, the lock free. -/
theorem Inv.trunc (hi : t.Inv) (hm : (h, ip) ∈ t.held) (hone : (t.fs.inode ip).ref = 1)
    (hfree : t.owner ip = none) {fs : Fsys} (ht : iputTrunc t.fs ip = .ok fs) :
    ({ t with fs, ending := Function.update t.ending h (some ip) } : Itab).Inv := by
  obtain ⟨hf, hv⟩ := iputTrunc_spec hi.sb ht
  have hpos : 0 < (t.fs.inode ip).ref := by omega
  have hinode : fs.inode = Function.update t.fs.inode ip (fs.inode ip) := by
    funext jp
    by_cases hj : jp = ip
    · subst hj
      simp
    · rw [Function.update_of_ne hj, hf.inode jp hj]
  refine ⟨hf.sb ▸ hi.sb, fun jp => ?_, ?_, fun jp hjp => ?_, hi.owner_held, hi.dirty_owned,
    fun h' jp he => ?_, fun h' jp he => ?_⟩
  · by_cases hj : jp = ip
    · subst hj
      rw [hf.ref, hi.ref_eq]
    · rw [hf.inode jp hj, hi.ref_eq]
  · rw [hinode]
    exact hi.unique.update_same hf.inum fun _ => hpos
  · by_cases hj : jp = ip
    · -- the freed entry is no longer valid
      subst hj
      have hE := hi.entry jp hpos
      exact ⟨hf.dev ▸ hE.dev, hf.sb ▸ hf.inum ▸ hE.inum_lt, fun h => by simp [hv] at h,
        fun h => by simp [hv] at h⟩
    · -- another entry in use holds another inode, whose disk inode is unchanged
      simp only [hf.inode jp hj] at hjp ⊢
      have hne : (t.fs.inode jp).inum ≠ (t.fs.inode ip).inum := fun he => hj (hi.unique jp ip hjp hpos he)
      have hE := hi.entry jp hjp
      exact hE.congr hf.sb fun _ => hf.dinode _ hE.inum_lt hne
  · by_cases hh : h' = h
    · subst hh
      simp only [Function.update_self, Option.some.injEq] at he
      exact he ▸ hm
    · simp only [Function.update_of_ne hh] at he
      exact hi.ending_held h' jp he
  · by_cases hh : h' = h
    · subst hh
      simp only [Function.update_self, Option.some.injEq] at he
      subst he
      simp [hfree]
    · simp only [Function.update_of_ne hh] at he
      exact hi.ending_owner h' jp he

theorem Inv.iput (hi : t.Inv) (hs : t.step (.iput h ip) = some (.ok t')) : t'.Inv := by
  obtain ⟨hb, hm, ho, ⟨⟨hone, -⟩, hfree, fs, ht, rfl⟩ | ⟨-, rfl⟩⟩ := step_iput hs
  · exact hi.trunc hm hone hfree ht
  · -- the holder is not inside another `iput`
    refine hi.drop hm ho fun h' jp he => ⟨he, ?_⟩
    rintro rfl
    simp [busy, he] at hb

theorem Inv.iputEnd (hi : t.Inv) (hs : t.step (.iputEnd h ip) = some (.ok t')) : t'.Inv := by
  obtain ⟨he, rfl⟩ := step_iputEnd hs
  refine hi.drop (hi.ending_held h ip he) (hi.ending_owner h ip he) fun h' jp he' => ?_
  by_cases hh : h' = h
  · subst hh
    simp at he'
  · simp only [Function.update_of_ne hh] at he'
    exact ⟨he', hh⟩

theorem Inv.ialloc (hi : t.Inv) {type : Int16} (hs : t.step (.ialloc h type) = some (.ok t')) :
    t'.Inv := by
  obtain ⟨-, fs, r, ha, rfl⟩ := step_ialloc hs
  rcases ialloc_cases ha with ⟨rfl, rfl⟩ | ⟨inum, ip, rfl, hlt, htype, hg⟩
  · simpa using hi
  · -- the disk inode marked allocated, then an entry for it from `iget`
    have h₁ := hi.alloc_dinode htype (DInode.alloc type)
    simpa using h₁.iget_ok hlt hg h

theorem Inv.step (hi : t.Inv) {c : ICall} (hs : t.step c = some (.ok t')) : t'.Inv := by
  cases c with
  | iget h inum => exact hi.iget hs
  | idup h h' ip => exact hi.idup hs
  | ilock h ip => exact hi.ilock hs
  | iunlock h ip => exact hi.iunlock hs
  | iupdate h ip => exact hi.iupdate hs
  | set h ip major minor nlink => exact hi.set hs
  | iput h ip => exact hi.iput hs
  | iputEnd h ip => exact hi.iputEnd hs
  | ialloc h type => exact hi.ialloc hs

theorem run_inv {sb : Superblock} (hsb : sb.InodesFirst) (disk : Disk) {cs : List ICall}
    (hrun : Outcome.run step (boot sb disk) cs = some (.ok t)) : t.Inv :=
  Outcome.run_inv Inv (fun _ _ _ hi hs => hi.step hs) (boot_inv hsb disk) hrun

end Preserve

/-- In every state a run of the calls from boot reaches: no two entries in use hold the same
inode; each entry's count is the number of references held to it; a valid entry in use
that is not locked equals its disk inode; and `iget` returns the entry in use that holds
the inode, or an entry no one holds. -/
theorem itable_coherent {sb : Superblock} (hsb : sb.InodesFirst) (disk : Disk) {cs : List ICall}
    {t : Itab} (hrun : Outcome.run step (boot sb disk) cs = some (.ok t)) :
    (∀ ip jp, 0 < (t.fs.inode ip).ref → 0 < (t.fs.inode jp).ref →
      (t.fs.inode ip).dev = (t.fs.inode jp).dev → (t.fs.inode ip).inum = (t.fs.inode jp).inum →
      ip = jp) ∧
    (∀ ip, (t.fs.inode ip).ref = nrefs t.held ip) ∧
    (∀ ip, 0 < (t.fs.inode ip).ref → (t.fs.inode ip).valid → t.owner ip = none →
      (t.fs.inode ip).toDInode = t.fs.dinode (t.fs.inode ip).inum) ∧
    (∀ inum fs ip, Xv6.iget t.fs ROOTDEV inum = .ok (fs, ip) →
      0 < (t.fs.inode ip).ref ∧ (t.fs.inode ip).inum = inum ∨ (t.fs.inode ip).ref = 0) := by
  have hi := run_inv hsb disk hrun
  refine ⟨fun ip jp ha hb _ he => hi.unique ip jp ha hb he, hi.ref_eq,
    fun ip hpos hv hown => (hi.entry ip hpos).coherent hv (hi.clean hown), fun inum fs ip hg => ?_⟩
  rcases iget_cases hg with ⟨hpos, -, hinum, -⟩ | ⟨h0, -, -⟩
  · exact .inl ⟨hpos, hinum⟩
  · exact .inr h0

/-- A disk whose inode block `32` holds two directories, inodes `1` and `2`, with one link
each: `type` at byte `64 * inum`, `nlink` at byte `64 * inum + 6`. -/
def twoDirs : Disk := fun a j =>
  if a = 32 ∧ (j.val = 64 ∨ j.val = 70 ∨ j.val = 128 ∨ j.val = 134) then 1 else 0

theorem itable_coherent_twoDirs :
    ∃ t, Outcome.run step (boot Mkfs.sb twoDirs)
        [.iget 0 1, .ilock 0 ⟨0, by decide⟩, .set 0 ⟨0, by decide⟩ 0 0 2, .iupdate 0 ⟨0, by decide⟩,
          .iunlock 0 ⟨0, by decide⟩, .idup 0 1 ⟨0, by decide⟩, .iput 0 ⟨0, by decide⟩, .iget 1 2] =
        some (.ok t) ∧
      (∀ ip jp, 0 < (t.fs.inode ip).ref → 0 < (t.fs.inode jp).ref →
        (t.fs.inode ip).dev = (t.fs.inode jp).dev → (t.fs.inode ip).inum = (t.fs.inode jp).inum →
        ip = jp) ∧
      (∀ ip, (t.fs.inode ip).ref = nrefs t.held ip) ∧
      (∀ ip, 0 < (t.fs.inode ip).ref → (t.fs.inode ip).valid → t.owner ip = none →
        (t.fs.inode ip).toDInode = t.fs.dinode (t.fs.inode ip).inum) ∧
      (∀ inum fs ip, Xv6.iget t.fs ROOTDEV inum = .ok (fs, ip) →
        0 < (t.fs.inode ip).ref ∧ (t.fs.inode ip).inum = inum ∨ (t.fs.inode ip).ref = 0) := by
  -- the run is computed once, by the kernel
  have hrun : Outcome.holds (fun _ => true) (Outcome.run step (boot Mkfs.sb twoDirs)
      [.iget 0 1, .ilock 0 ⟨0, by decide⟩, .set 0 ⟨0, by decide⟩ 0 0 2, .iupdate 0 ⟨0, by decide⟩,
        .iunlock 0 ⟨0, by decide⟩, .idup 0 1 ⟨0, by decide⟩, .iput 0 ⟨0, by decide⟩, .iget 1 2]) = true := by
    decide +kernel
  obtain ⟨t, ht, -⟩ := Outcome.exists_of_holds hrun
  exact ⟨t, ht, itable_coherent Mkfs.sb_inodesFirst twoDirs ht⟩

/-- An entry no one holds stays valid after its inode changes through another entry: inode
`2` is read into entry `1` and put, entry `0` is freed and then recycled for inode `2`, whose
link count is changed, written and unlocked; entry `1`, not locked and still valid, keeps
the old count. -/
theorem itable_stale_entry :
    ∃ t, Outcome.run step (boot Mkfs.sb twoDirs)
        [.iget 0 1, .iget 0 2, .ilock 0 ⟨1, by decide⟩, .iunlock 0 ⟨1, by decide⟩,
          .iput 0 ⟨1, by decide⟩, .iput 0 ⟨0, by decide⟩, .iget 0 2, .ilock 0 ⟨0, by decide⟩,
          .set 0 ⟨0, by decide⟩ 0 0 2, .iupdate 0 ⟨0, by decide⟩, .iunlock 0 ⟨0, by decide⟩] =
        some (.ok t) ∧
      (t.fs.inode ⟨1, by decide⟩).ref = 0 ∧ (t.fs.inode ⟨1, by decide⟩).valid ∧
      t.owner ⟨1, by decide⟩ = none ∧
      (t.fs.inode ⟨1, by decide⟩).toDInode ≠ t.fs.dinode (t.fs.inode ⟨1, by decide⟩).inum := by
  have hrun : Outcome.holds (fun t => (t.fs.inode ⟨1, by decide⟩).ref == 0 &&
      (t.fs.inode ⟨1, by decide⟩).valid && t.owner ⟨1, by decide⟩ == none &&
      (t.fs.inode ⟨1, by decide⟩).nlink != (t.fs.dinode (t.fs.inode ⟨1, by decide⟩).inum).nlink)
      (Outcome.run step (boot Mkfs.sb twoDirs)
        [.iget 0 1, .iget 0 2, .ilock 0 ⟨1, by decide⟩, .iunlock 0 ⟨1, by decide⟩,
          .iput 0 ⟨1, by decide⟩, .iput 0 ⟨0, by decide⟩, .iget 0 2, .ilock 0 ⟨0, by decide⟩,
          .set 0 ⟨0, by decide⟩ 0 0 2, .iupdate 0 ⟨0, by decide⟩, .iunlock 0 ⟨0, by decide⟩]) = true := by
    decide +kernel
  obtain ⟨t, ht, hp⟩ := Outcome.exists_of_holds hrun
  simp only [Bool.and_eq_true, beq_iff_eq, bne_iff_ne, ne_eq] at hp
  obtain ⟨⟨⟨h0, hv⟩, hown⟩, hn⟩ := hp
  exact ⟨t, ht, h0, hv, hown, fun he => hn (congrArg DInode.nlink he)⟩

end Itab

end Xv6
