import Xv6.Fs.Inode

/-!
# The blocks of a file

`bmap`, `balloc` and the stores of `kernel/fs.c`, seen from one file.  The file `x` is the
map `fileBlock` from its block numbers to disk blocks (a direct address, or an entry of
the indirect block; `0` for none), and its bytes `fileByte` are read through that map,
`0` in a block it has none for.

The file's representation is well formed (`FileWF`) when every block below its size is
mapped and the blocks it refers to are distinct data blocks marked in use; the disk's
`Layout` keeps every metadata block marked in use, with the free map and the inodes
among them.  Then a store to a block the file does not refer to (`Foreign`) leaves its
blocks and bytes alone, `balloc` returns such a block, and `bmap` either finds the block,
or maps a fresh zeroed one, or finds the disk full, and in each case leaves the file's
bytes as they were (`bmap_spec`).
-/

namespace Xv6

open Bytes

namespace Fsys

variable (s : Fsys)

/-- The number of metadata blocks, `sb.size - sb.nblocks`: the boot block, the
superblock, the log, the inodes and the free map. -/
def nmeta : Nat := s.sb.size.toNat - s.sb.nblocks.toNat

/-- Block `fbn` of the file `x`, as `bmap` finds it when it allocates nothing: a direct
address, or an entry of the indirect block; `0` when there is none. -/
def fileBlock (x : Inode) (fbn : Nat) : UInt32 :=
  if h : fbn < NDIRECT then x.addrs ⟨fbn, Nat.lt_succ_of_lt h⟩
  else if x.addrs (Fin.last NDIRECT) = 0 then 0
  else s.indirect (x.addrs (Fin.last NDIRECT)) (fbn - NDIRECT)

/-- Byte `i` of the file `x`; `0` in a block it has none for. -/
def fileByte (x : Inode) (i : Nat) : UInt8 :=
  if s.fileBlock x (i / BSIZE) = 0 then 0
  else (byteAt (s.disk (s.fileBlock x (i / BSIZE)).toNat) (i % BSIZE)).toUInt8

/-- The contents of the file of the entry `ip`: its bytes below its size. -/
def content (ip : Fin NINODE) : List UInt8 :=
  (List.range (s.inode ip).size.toNat).map (s.fileByte (s.inode ip))

/-- Every block of the disk is marked in use: `balloc` finds none. -/
def Full : Prop := ∀ b : UInt32, b.toNat < s.sb.size.toNat → s.bit b = true

/-- A data block marked in use. -/
def Owned (b : UInt32) : Prop := s.nmeta ≤ b.toNat ∧ b.toNat < s.sb.size.toNat ∧ s.bit b = true

/-- The layout the superblock describes: the boot block and every other metadata block
marked in use, the free map among them, and the inodes below the free map. -/
structure Layout : Prop where
  nmeta_pos : 0 < s.nmeta
  meta_used : ∀ b : UInt32, b.toNat < s.nmeta → s.bit b = true
  bblock : ∀ b : UInt32, b.toNat < s.sb.size.toNat →
    s.sb.bmapstart.toNat ≤ (BBLOCK b s.sb).toNat ∧ (BBLOCK b s.sb).toNat < s.nmeta
  iblock : ∀ inum : UInt32, inum < s.sb.ninodes → (IBLOCK inum s.sb).toNat < s.sb.bmapstart.toNat

/-- The representation of the file `x` is well formed: at most `MAXFILE` blocks long,
every block below its size mapped, and the blocks it refers to (the indirect block and
each mapped block) distinct data blocks marked in use. -/
structure FileWF (x : Inode) : Prop where
  size_le : x.size.toNat ≤ MAXFILE * BSIZE
  inum_lt : x.inum < s.sb.ninodes
  mapped : ∀ f, f * BSIZE < x.size.toNat → s.fileBlock x f ≠ 0
  owned : ∀ f, s.fileBlock x f ≠ 0 → s.Owned (s.fileBlock x f)
  ind_owned : x.addrs (Fin.last NDIRECT) ≠ 0 → s.Owned (x.addrs (Fin.last NDIRECT))
  inj : ∀ f g, s.fileBlock x f ≠ 0 → s.fileBlock x f = s.fileBlock x g → f = g
  ne_ind : ∀ f, s.fileBlock x f ≠ 0 → s.fileBlock x f ≠ x.addrs (Fin.last NDIRECT)

/-- Block `a` is none the file `x` refers to. -/
def Foreign (x : Inode) (a : Nat) : Prop :=
  (x.addrs (Fin.last NDIRECT) ≠ 0 → a ≠ (x.addrs (Fin.last NDIRECT)).toNat) ∧
    ∀ f, s.fileBlock x f ≠ 0 → a ≠ (s.fileBlock x f).toNat

variable {s}

/-! ## Block maps -/

theorem fileBlock_direct (x : Inode) {f : Nat} (h : f < NDIRECT) :
    s.fileBlock x f = x.addrs ⟨f, by omega⟩ := by
  simp [fileBlock, h]

theorem fileBlock_indirect (x : Inode) {f : Nat} (h : NDIRECT ≤ f)
    (hind : x.addrs (Fin.last NDIRECT) ≠ 0) :
    s.fileBlock x f = s.indirect (x.addrs (Fin.last NDIRECT)) (f - NDIRECT) := by
  simp [fileBlock, Nat.not_lt.2 h, hind]

theorem fileBlock_of_le (x : Inode) {f : Nat} (h : MAXFILE ≤ f) : s.fileBlock x f = 0 := by
  have hf : NDIRECT ≤ f := Nat.le_trans (by decide) h
  by_cases hind : x.addrs (Fin.last NDIRECT) = 0
  · simp [fileBlock, Nat.not_lt.2 hf, hind]
  · have h' : BSIZE ≤ 4 * (f - NDIRECT) := by
      rw [BSIZE_eq, NDIRECT_eq]; rw [show MAXFILE = 268 from rfl] at h; omega
    rw [fileBlock_indirect x hf hind, indirect, getWord_of_le _ _ h']
    rfl

theorem fileBlock_lt {x : Inode} {f : Nat} (h : s.fileBlock x f ≠ 0) : f < MAXFILE :=
  Nat.lt_of_not_le fun h' => h (fileBlock_of_le x h')

theorem fileByte_eq (x : Inode) (i : Nat) :
    s.fileByte x i = if s.fileBlock x (i / BSIZE) = 0 then 0
      else (byteAt (s.disk (s.fileBlock x (i / BSIZE)).toNat) (i % BSIZE)).toUInt8 := rfl

/-! ## The free map -/

theorem bit_put {a : Nat} (v : Block) {b : UInt32} (h : a ≠ (BBLOCK b s.sb).toNat) :
    (s.put a v).bit b = s.bit b := by
  simp [bit, Function.update_of_ne (Ne.symm h)]

theorem bit_markUsed (c b : UInt32) : (s.markUsed c).bit b = (decide (b = c) || s.bit b) := by
  have hbit : b.toNat % BPB < BPB := Nat.mod_lt _ (by decide)
  by_cases hb : (BBLOCK b s.sb).toNat = (BBLOCK c s.sb).toNat
  · have hbc : BBLOCK b s.sb = BBLOCK c s.sb := UInt32.toNat_inj.1 hb
    simp only [bit, markUsed, hb, Function.update_self]
    rw [bitAt_setBit _ hbit]
    by_cases h : b = c
    · subst h; simp
    · have hk : b.toNat % BPB ≠ c.toNat % BPB := fun hk => h (BBLOCK_slot_inj hbc hk)
      simp [h, hk]
  · have h : b ≠ c := by rintro rfl; exact hb rfl
    rw [markUsed_eq, bit_put _ (Ne.symm hb)]
    simp [h]

theorem nmeta_le (s : Fsys) : s.nmeta ≤ s.sb.size.toNat := Nat.sub_le _ _

section Layout

variable (hl : s.Layout)
include hl

theorem Layout.size_pos : 0 < s.sb.size.toNat := Nat.lt_of_lt_of_le hl.nmeta_pos (nmeta_le s)

theorem Layout.bmapstart_le : s.sb.bmapstart.toNat ≤ s.nmeta := by
  have h := hl.bblock 0 (by rw [UInt32.toNat_zero]; exact hl.size_pos)
  omega

theorem Layout.bit_put {a : Nat} (ha : s.nmeta ≤ a ∨ a < s.sb.bmapstart.toNat) (v : Block)
    {b : UInt32} (hb : b.toNat < s.sb.size.toNat) : (s.put a v).bit b = s.bit b := by
  have := hl.bblock b hb
  exact Fsys.bit_put v (by omega)

theorem Layout.nmeta_le_of_bit {c : UInt32} (hc : s.bit c = false) : s.nmeta ≤ c.toNat :=
  Nat.le_of_not_lt fun h => by rw [hl.meta_used c h] at hc; cases hc

end Layout

theorem nmeta_congr {s' : Fsys} (h : s'.sb = s.sb) : s'.nmeta = s.nmeta := by
  simp [nmeta, h]

/-- The layout survives a change that keeps the superblock and sets no bit clear. -/
theorem Layout.mono {s' : Fsys} (hl : s.Layout) (hsb : s'.sb = s.sb)
    (hbit : ∀ b : UInt32, b.toNat < s.sb.size.toNat → s.bit b = true → s'.bit b = true) :
    s'.Layout := by
  have hm := nmeta_congr hsb
  refine ⟨?_, ?_, ?_, ?_⟩
  · rw [hm]; exact hl.nmeta_pos
  · intro b hb
    rw [hm] at hb
    exact hbit b (Nat.lt_of_lt_of_le hb (nmeta_le s)) (hl.meta_used b hb)
  · intro b hb
    rw [hm, hsb]
    rw [hsb] at hb
    exact hl.bblock b hb
  · intro inum hi
    rw [hsb]
    rw [hsb] at hi
    exact hl.iblock inum hi

theorem Owned.mono {s' : Fsys} {b : UInt32} (h : s.Owned b) (hsb : s'.sb = s.sb)
    (hbit : ∀ b : UInt32, b.toNat < s.sb.size.toNat → s.bit b = true → s'.bit b = true) :
    s'.Owned b := by
  obtain ⟨h1, h2, h3⟩ := h
  exact ⟨by rw [nmeta_congr hsb]; exact h1, by rw [hsb]; exact h2, hbit b h2 h3⟩

/-- A file stays well formed across a change that keeps its block map, its indirect block,
its size and inode number, the superblock, and sets no bit clear. -/
theorem FileWF.mono {s' : Fsys} {x x' : Inode} (hw : s.FileWF x) (hsb : s'.sb = s.sb)
    (hbit : ∀ b : UInt32, b.toNat < s.sb.size.toNat → s.bit b = true → s'.bit b = true)
    (hfb : s'.fileBlock x' = s.fileBlock x)
    (hind : x'.addrs (Fin.last NDIRECT) = x.addrs (Fin.last NDIRECT))
    (hsize : x'.size = x.size) (hinum : x'.inum = x.inum) : s'.FileWF x' := by
  refine ⟨?_, ?_, ?_, ?_, ?_, ?_, ?_⟩
  · rw [hsize]; exact hw.size_le
  · rw [hinum, hsb]; exact hw.inum_lt
  · intro f hf
    rw [hfb]
    exact hw.mapped f (by rw [← hsize]; exact hf)
  · intro f hf
    rw [hfb] at hf ⊢
    exact (hw.owned f hf).mono hsb hbit
  · intro h
    rw [hind] at h ⊢
    exact (hw.ind_owned h).mono hsb hbit
  · intro f g hf
    rw [hfb] at hf ⊢
    exact hw.inj f g hf
  · intro f hf
    rw [hfb] at hf ⊢
    rw [hind]
    exact hw.ne_ind f hf

/-! ## Stores to blocks the file does not refer to -/

section Foreign

variable {x : Inode} {a : Nat}

theorem fileBlock_put (h : x.addrs (Fin.last NDIRECT) ≠ 0 → a ≠ (x.addrs (Fin.last NDIRECT)).toNat)
    (v : Block) : (s.put a v).fileBlock x = s.fileBlock x := by
  funext f
  unfold fileBlock
  split
  · rfl
  · split
    · rfl
    · rename_i hind
      simp only [indirect, put_disk]
      rw [Function.update_of_ne (Ne.symm (h hind))]

theorem fileByte_put (h : s.Foreign x a) (v : Block) : (s.put a v).fileByte x = s.fileByte x := by
  funext i
  rw [fileByte_eq, fileByte_eq, fileBlock_put h.1]
  split
  · rfl
  · rename_i hf
    simp only [put_disk]
    rw [Function.update_of_ne (Ne.symm (h.2 _ hf))]

theorem FileWF.foreign_of_lt (hw : s.FileWF x) (ha : a < s.nmeta) : s.Foreign x a := by
  refine ⟨fun hind => ?_, fun f hf => ?_⟩
  · have := (hw.ind_owned hind).1; omega
  · have := (hw.owned f hf).1; omega

theorem FileWF.foreign_of_bit (hw : s.FileWF x) {c : UInt32} (hc : s.bit c = false) :
    s.Foreign x c.toNat := by
  refine ⟨fun hind he => ?_, fun f hf he => ?_⟩
  · have h3 := (hw.ind_owned hind).2.2
    rw [← UInt32.toNat_inj.1 he, hc] at h3
    cases h3
  · have h3 := (hw.owned f hf).2.2
    rw [← UInt32.toNat_inj.1 he, hc] at h3
    cases h3

/-- A store to a foreign block that is a data block or an inode block keeps a well-formed
file well formed. -/
theorem FileWF.put (hl : s.Layout) (hw : s.FileWF x) (hf : s.Foreign x a)
    (ha : s.nmeta ≤ a ∨ a < s.sb.bmapstart.toNat) (v : Block) : (s.put a v).FileWF x :=
  hw.mono rfl (fun b hb h => by rw [hl.bit_put ha v hb]; exact h) (fileBlock_put hf.1 v) rfl rfl rfl

theorem Layout.put (hl : s.Layout) (ha : s.nmeta ≤ a ∨ a < s.sb.bmapstart.toNat) (v : Block) :
    (s.put a v).Layout :=
  hl.mono rfl fun b hb h => by rw [hl.bit_put ha v hb]; exact h

end Foreign

theorem Foreign.congr {s' : Fsys} {x : Inode} {a : Nat} (h : s.Foreign x a)
    (hfb : s'.fileBlock x = s.fileBlock x) : s'.Foreign x a :=
  ⟨h.1, fun f hf => by rw [hfb] at hf ⊢; exact h.2 f hf⟩

/-! ## `balloc` -/

/-- `balloc` finds the disk full and changes nothing, or returns a block below `sb.size`
whose bit was clear, now marked in use and zeroed. -/
theorem balloc_spec (hl : s.Layout) :
    (balloc s = (s, 0) ∧ s.Full) ∨
      ∃ c : UInt32, balloc s = (bzero (s.markUsed c) c, c) ∧ c ≠ 0 ∧ s.bit c = false ∧
        c.toNat < s.sb.size.toNat := by
  unfold balloc
  split
  · rename_i b hb
    have hlt := List.mem_range.1 (List.mem_of_find?_eq_some hb)
    have hfree := List.find?_some hb
    have hc : b.toUInt32.toNat = b :=
      UInt32.toNat_ofNat_of_lt' (Nat.lt_trans hlt s.sb.size.toNat_lt)
    have hbit : s.bit b.toUInt32 = false := by simpa using hfree
    refine .inr ⟨b.toUInt32, rfl, ?_, hbit, by rw [hc]; exact hlt⟩
    -- block `0` is the boot block, which the free map marks in use
    rintro h0
    have := hl.meta_used b.toUInt32 (by rw [h0]; exact hl.nmeta_pos)
    rw [hbit] at this
    cases this
  · rename_i hnone
    refine .inl ⟨rfl, fun b hb => ?_⟩
    have h := List.find?_eq_none.1 hnone b.toNat (List.mem_range.2 hb)
    simpa using h

section Alloc

/-! What the store of a successful `balloc` does to a file that does not refer to the block
`c` it returns. -/

variable {c : UInt32}

theorem alloc_disk : (bzero (s.markUsed c) c).disk c.toNat = fun _ => 0 := by
  simp [bzero_eq]

variable (hl : s.Layout) (hc : s.bit c = false)
include hl hc

theorem alloc_bit {b : UInt32} (hb : b.toNat < s.sb.size.toNat) :
    (bzero (s.markUsed c) c).bit b = (decide (b = c) || s.bit b) := by
  have h := hl.bblock b hb
  have hcm := hl.nmeta_le_of_bit hc
  rw [bzero_eq, bit_put _ (by simp only [markUsed_eq, put_sb]; omega), bit_markUsed]

theorem alloc_layout : (bzero (s.markUsed c) c).Layout :=
  hl.mono rfl fun b hb h => by rw [alloc_bit hl hc hb, h, Bool.or_true]

variable (hcs : c.toNat < s.sb.size.toNat)
include hcs

theorem alloc_owned : (bzero (s.markUsed c) c).Owned c :=
  ⟨hl.nmeta_le_of_bit hc, hcs, by rw [alloc_bit hl hc hcs]; simp⟩

variable {x : Inode} (hw : s.FileWF x)
include hw

theorem alloc_fileBlock : (bzero (s.markUsed c) c).fileBlock x = s.fileBlock x := by
  have hm : (s.markUsed c).fileBlock x = s.fileBlock x := by
    rw [markUsed_eq]
    exact fileBlock_put (hw.foreign_of_lt (hl.bblock c hcs).2).1 _
  rw [bzero_eq, fileBlock_put ((hw.foreign_of_bit hc).congr hm).1, hm]

theorem alloc_fileByte : (bzero (s.markUsed c) c).fileByte x = s.fileByte x := by
  have hm : (s.markUsed c).fileBlock x = s.fileBlock x := by
    rw [markUsed_eq]
    exact fileBlock_put (hw.foreign_of_lt (hl.bblock c hcs).2).1 _
  have hm' : (s.markUsed c).fileByte x = s.fileByte x := by
    rw [markUsed_eq]
    exact fileByte_put (hw.foreign_of_lt (hl.bblock c hcs).2) _
  rw [bzero_eq, fileByte_put ((hw.foreign_of_bit hc).congr hm), hm']

theorem alloc_fileWF : (bzero (s.markUsed c) c).FileWF x :=
  hw.mono rfl (fun b hb h => by rw [alloc_bit hl hc hb, h, Bool.or_true])
    (alloc_fileBlock hl hc hcs hw) rfl rfl rfl

theorem alloc_foreign : (bzero (s.markUsed c) c).Foreign x c.toNat :=
  (hw.foreign_of_bit hc).congr (alloc_fileBlock hl hc hcs hw)

end Alloc

/-! ## Mapping a block -/

theorem fileBlock_setDirect (x : Inode) {f : Nat} (hf : f < NDIRECT) (c : UInt32) :
    s.fileBlock { x with addrs := Function.update x.addrs ⟨f, by omega⟩ c } =
      Function.update (s.fileBlock x) f c := by
  funext g
  by_cases hg : g < NDIRECT
  · by_cases hgf : g = f
    · subst hgf; simp [fileBlock_direct _ hg]
    · rw [Function.update_of_ne hgf, fileBlock_direct _ hg, fileBlock_direct _ hg]
      simp [Fin.ext_iff, hgf]
  · have hne : Fin.last NDIRECT ≠ ⟨f, by omega⟩ := by simp [Fin.ext_iff, NDIRECT_eq] at hf ⊢; omega
    rw [Function.update_of_ne (show g ≠ f by omega)]
    simp only [fileBlock, dif_neg hg, Function.update_of_ne hne]

theorem fileBlock_setInd (x : Inode) (hind : x.addrs (Fin.last NDIRECT) = 0) {c : UInt32}
    (hz : s.disk c.toNat = fun _ => 0) :
    s.fileBlock { x with addrs := Function.update x.addrs (Fin.last NDIRECT) c } =
      s.fileBlock x := by
  funext g
  by_cases hg : g < NDIRECT
  · have hne : (⟨g, by omega⟩ : Fin (NDIRECT + 1)) ≠ Fin.last NDIRECT := by
      simp [Fin.ext_iff]; omega
    simp [fileBlock_direct _ hg, Function.update_of_ne hne]
  · simp only [fileBlock, dif_neg hg, hind, Function.update_self, indirect, hz, getWord_zero]
    simp

theorem fileBlock_setIndirect (x : Inode) (hind : x.addrs (Fin.last NDIRECT) ≠ 0) {j : Nat}
    (hj : j < NINDIRECT) (c : UInt32) :
    (s.setIndirect (x.addrs (Fin.last NDIRECT)) j c).fileBlock x =
      Function.update (s.fileBlock x) (NDIRECT + j) c := by
  funext g
  by_cases hg : g < NDIRECT
  · rw [Function.update_of_ne (by omega)]
    simp [fileBlock, hg]
  · have hfit : 4 * j + 4 ≤ BSIZE := by rw [BSIZE_eq]; rw [show NINDIRECT = 256 from rfl] at hj; omega
    simp only [fileBlock, dif_neg hg, if_neg hind, indirect, setIndirect_eq, put_disk,
      Function.update_self]
    by_cases hgj : g = NDIRECT + j
    · subst hgj
      rw [Function.update_self, Nat.add_sub_cancel_left, getWord_setWord_self _ _ _ _ hfit]
      simp
    · rw [Function.update_of_ne hgj, getWord_setWord_of_disjoint _ _ _ _ _ _ (by omega),
        fileBlock_indirect x (by omega) hind]
      rfl

/-! ## The file's bytes -/

@[simp] theorem fileBlock_setInode (ip : Fin NINODE) (y : Inode) :
    (s.setInode ip y).fileBlock = s.fileBlock := rfl

@[simp] theorem fileByte_setInode (ip : Fin NINODE) (y : Inode) :
    (s.setInode ip y).fileByte = s.fileByte := rfl

@[simp] theorem bit_setInode (ip : Fin NINODE) (y : Inode) : (s.setInode ip y).bit = s.bit := rfl

theorem fileByte_congr {s' : Fsys} {x x' : Inode} (hfb : s'.fileBlock x' = s.fileBlock x)
    (hdisk : ∀ f, s.fileBlock x f ≠ 0 →
      s'.disk (s.fileBlock x f).toNat = s.disk (s.fileBlock x f).toNat) :
    s'.fileByte x' = s.fileByte x := by
  funext i
  rw [fileByte_eq, fileByte_eq, hfb]
  split
  · rfl
  · rename_i hf
    rw [hdisk _ hf]

theorem fileByte_map_zero {s' : Fsys} {x x' : Inode} {f : Nat} {c : UInt32}
    (hfb : s'.fileBlock x' = Function.update (s.fileBlock x) f c) (hf : s.fileBlock x f = 0)
    (hz : s'.disk c.toNat = fun _ => 0)
    (hdisk : ∀ g, s.fileBlock x g ≠ 0 →
      s'.disk (s.fileBlock x g).toNat = s.disk (s.fileBlock x g).toNat) :
    s'.fileByte x' = s.fileByte x := by
  funext i
  rw [fileByte_eq, fileByte_eq, hfb]
  by_cases hi : i / BSIZE = f
  · rw [hi, Function.update_self, hf, if_pos rfl, hz]
    split
    · rfl
    · simp [byteAt]
  · rw [Function.update_of_ne hi]
    split
    · rfl
    · rename_i hg
      rw [hdisk _ hg]

theorem fileByte_put_block {x : Inode} (hw : s.FileWF x) {f : Nat} (hf : s.fileBlock x f ≠ 0)
    (v : Block) (i : Nat) :
    (s.put (s.fileBlock x f).toNat v).fileByte x i =
      if i / BSIZE = f then (byteAt v (i % BSIZE)).toUInt8 else s.fileByte x i := by
  have hfb : (s.put (s.fileBlock x f).toNat v).fileBlock x = s.fileBlock x :=
    fileBlock_put (fun _ he => hw.ne_ind f hf (UInt32.toNat_inj.1 he)) v
  rw [fileByte_eq, fileByte_eq, hfb]
  by_cases hi : i / BSIZE = f
  · rw [if_pos hi, hi, if_neg hf, put_disk, Function.update_self]
  · rw [if_neg hi]
    split
    · rfl
    · rename_i hg
      have hne : (s.fileBlock x (i / BSIZE)).toNat ≠ (s.fileBlock x f).toNat := fun he =>
        hi (hw.inj _ _ hg (UInt32.toNat_inj.1 he))
      rw [put_disk, Function.update_of_ne hne]

/-! ## Well-formedness across a new block -/

section Map

variable {s' : Fsys} {x x' : Inode} (hw : s.FileWF x) (hsb : s'.sb = s.sb)
  (hbit : ∀ b : UInt32, b.toNat < s.sb.size.toNat → s.bit b = true → s'.bit b = true)
  (hsize : x'.size = x.size) (hinum : x'.inum = x.inum)
  {c : UInt32} (hco : s.Owned c) (hcf : s.Foreign x c.toNat)
include hw hsb hbit hsize hinum hco hcf

/-- A file stays well formed when a data block it does not refer to is mapped at `f`. -/
theorem FileWF.map_block (hc0 : c ≠ 0) {f : Nat} (hfb : s'.fileBlock x' = Function.update (s.fileBlock x) f c)
    (hind : x'.addrs (Fin.last NDIRECT) = x.addrs (Fin.last NDIRECT)) : s'.FileWF x' := by
  have hnew : ∀ g, s.fileBlock x g ≠ c := fun g h =>
    hcf.2 g (by rw [h]; exact hc0) (by rw [h])
  refine ⟨?_, ?_, ?_, ?_, ?_, ?_, ?_⟩
  · rw [hsize]; exact hw.size_le
  · rw [hinum, hsb]; exact hw.inum_lt
  · intro g hg
    rw [hfb]
    by_cases hgf : g = f
    · rw [hgf, Function.update_self]; exact hc0
    · rw [Function.update_of_ne hgf]; exact hw.mapped g (by rw [← hsize]; exact hg)
  · intro g hg
    rw [hfb] at hg ⊢
    by_cases hgf : g = f
    · rw [hgf, Function.update_self]; exact hco.mono hsb hbit
    · rw [Function.update_of_ne hgf] at hg ⊢; exact (hw.owned g hg).mono hsb hbit
  · intro h
    rw [hind] at h ⊢
    exact (hw.ind_owned h).mono hsb hbit
  · intro g g' hg he
    rw [hfb] at hg he
    by_cases hgf : g = f <;> by_cases hgf' : g' = f
    · rw [hgf, hgf']
    · rw [hgf, Function.update_self, Function.update_of_ne hgf'] at he
      exact absurd he.symm (hnew g')
    · rw [hgf', Function.update_self, Function.update_of_ne hgf] at he
      exact absurd he (hnew g)
    · rw [Function.update_of_ne hgf, Function.update_of_ne hgf'] at he
      rw [Function.update_of_ne hgf] at hg
      exact hw.inj g g' hg he
  · intro g hg
    rw [hfb] at hg ⊢
    rw [hind]
    by_cases hgf : g = f
    · rw [hgf, Function.update_self]
      intro he
      by_cases hi : x.addrs (Fin.last NDIRECT) = 0
      · exact hc0 (he.trans hi)
      · exact hcf.1 hi (by rw [he])
    · rw [Function.update_of_ne hgf] at hg ⊢
      exact hw.ne_ind g hg

/-- A file with no indirect block stays well formed when a data block it does not refer
to becomes its indirect block, mapping nothing more. -/
theorem FileWF.map_ind (hfb : s'.fileBlock x' = s.fileBlock x)
    (hind : x'.addrs (Fin.last NDIRECT) = c) : s'.FileWF x' := by
  refine ⟨?_, ?_, ?_, ?_, ?_, ?_, ?_⟩
  · rw [hsize]; exact hw.size_le
  · rw [hinum, hsb]; exact hw.inum_lt
  · intro g hg
    rw [hfb]
    exact hw.mapped g (by rw [← hsize]; exact hg)
  · intro g hg
    rw [hfb] at hg ⊢
    exact (hw.owned g hg).mono hsb hbit
  · intro _
    rw [hind]
    exact hco.mono hsb hbit
  · intro g g' hg he
    rw [hfb] at hg he
    exact hw.inj g g' hg he
  · intro g hg
    rw [hfb] at hg ⊢
    rw [hind]
    intro he
    exact hcf.2 g hg (by rw [he])

end Map

/-! ## `bmap` -/

/-- What `bmap` and the stores of `writei` keep of the file of the entry `ip`: the
superblock, the file's size and inode number, the layout and the file's
well-formedness. -/
structure Keeps (s s' : Fsys) (ip : Fin NINODE) : Prop where
  sb : s'.sb = s.sb
  size : (s'.inode ip).size = (s.inode ip).size
  inum : (s'.inode ip).inum = (s.inode ip).inum
  layout : s'.Layout
  wf : s'.FileWF (s'.inode ip)

theorem Keeps.refl {ip : Fin NINODE} (hl : s.Layout) (hw : s.FileWF (s.inode ip)) :
    Keeps s s ip :=
  ⟨rfl, rfl, rfl, hl, hw⟩

theorem Keeps.trans {s₁ s₂ : Fsys} {ip : Fin NINODE} (h₁ : Keeps s s₁ ip) (h₂ : Keeps s₁ s₂ ip) :
    Keeps s s₂ ip :=
  ⟨h₂.sb.trans h₁.sb, h₂.size.trans h₁.size, h₂.inum.trans h₁.inum, h₂.layout, h₂.wf⟩

theorem Layout.setAddr (hl : s.Layout) (ip : Fin NINODE) (i : Fin (NDIRECT + 1)) (a : UInt32) :
    (s.setAddr ip i a).Layout :=
  hl.mono rfl fun _ _ h => h

/-- What `bmap` of block `bn` of the file `ip` does when it returns `b` in `s'`: it keeps
the file well formed and its bytes as they were, and either finds the disk full, with
block `bn` still unmapped, or maps block `bn` to `b`. -/
def BmapSpec (s : Fsys) (ip : Fin NINODE) (bn : Nat) (s' : Fsys) (b : UInt32) : Prop :=
  Keeps s s' ip ∧ s'.fileByte (s'.inode ip) = s.fileByte (s.inode ip) ∧
    (b = 0 ∧ s'.Full ∧ s.fileBlock (s.inode ip) bn = 0 ∧
        s'.fileBlock (s'.inode ip) = s.fileBlock (s.inode ip) ∨
      b ≠ 0 ∧ s'.fileBlock (s'.inode ip) = Function.update (s.fileBlock (s.inode ip)) bn b)

section Bmap

variable {ip : Fin NINODE} (hl : s.Layout) (hw : s.FileWF (s.inode ip))
include hl hw

/-- The block is mapped: `bmap` returns it and changes nothing. -/
theorem BmapSpec.found {bn : Nat} (hb : s.fileBlock (s.inode ip) bn ≠ 0) :
    BmapSpec s ip bn s (s.fileBlock (s.inode ip) bn) :=
  ⟨Keeps.refl hl hw, rfl, .inr ⟨hb, (Function.update_eq_self _ _).symm⟩⟩

/-- The block is not mapped and the disk is full: `bmap` returns `0` and changes nothing. -/
theorem BmapSpec.full {bn : Nat} (hfull : s.Full) (hb : s.fileBlock (s.inode ip) bn = 0) :
    BmapSpec s ip bn s 0 :=
  ⟨Keeps.refl hl hw, rfl, .inl ⟨rfl, hfull, hb, rfl⟩⟩

omit hl hw in
/-- A first store that keeps the file's blocks and bytes, then `bmap`'s work. -/
theorem BmapSpec.of_prefix {s₁ s' : Fsys} {bn : Nat} {b : UInt32} (hk : Keeps s s₁ ip)
    (hby : s₁.fileByte (s₁.inode ip) = s.fileByte (s.inode ip))
    (hfb : s₁.fileBlock (s₁.inode ip) = s.fileBlock (s.inode ip))
    (h : BmapSpec s₁ ip bn s' b) : BmapSpec s ip bn s' b := by
  obtain ⟨hk', hby', hr⟩ := h
  refine ⟨hk.trans hk', hby'.trans hby, ?_⟩
  rw [← hfb]
  exact hr

variable {c : UInt32} (hc : s.bit c = false) (hcs : c.toNat < s.sb.size.toNat)
include hc hcs

/-- A fresh block as direct address `f`. -/
theorem BmapSpec.direct (hc0 : c ≠ 0) {f : Nat} (hf : f < NDIRECT) (h0 : s.fileBlock (s.inode ip) f = 0) :
    BmapSpec s ip f ((bzero (s.markUsed c) c).setAddr ip ⟨f, by omega⟩ c) c := by
  have hfb1 := alloc_fileBlock hl hc hcs hw
  have hfb : ((bzero (s.markUsed c) c).setAddr ip ⟨f, by omega⟩ c).fileBlock
      (((bzero (s.markUsed c) c).setAddr ip ⟨f, by omega⟩ c).inode ip) =
      Function.update ((bzero (s.markUsed c) c).fileBlock (s.inode ip)) f c := by
    rw [setAddr_inode_self, setAddr_eq, fileBlock_setInode]
    exact fileBlock_setDirect _ hf c
  have hne : (⟨f, by omega⟩ : Fin (NDIRECT + 1)) ≠ Fin.last NDIRECT := by
    simp [Fin.ext_iff]; omega
  refine ⟨⟨by simp, by simp, by simp, (alloc_layout hl hc).setAddr ip _ c, ?_⟩, ?_, ?_⟩
  · exact (alloc_fileWF hl hc hcs hw).map_block (by simp) (fun _ _ h => h) (by simp) (by simp)
      (alloc_owned hl hc hcs) (alloc_foreign hl hc hcs hw) hc0 hfb
      (by simp [Function.update_of_ne hne.symm])
  · exact (fileByte_map_zero hfb (by rw [hfb1]; exact h0) alloc_disk (fun _ _ => rfl)).trans
      (alloc_fileByte hl hc hcs hw)
  · exact .inr ⟨hc0, by rw [hfb, hfb1]⟩

/-- A fresh block as entry `j` of the indirect block. -/
theorem BmapSpec.entry (hc0 : c ≠ 0) (hind : (s.inode ip).addrs (Fin.last NDIRECT) ≠ 0) {j : Nat}
    (hj : j < NINDIRECT) (h0 : s.fileBlock (s.inode ip) (NDIRECT + j) = 0) :
    BmapSpec s ip (NDIRECT + j)
      ((bzero (s.markUsed c) c).setIndirect ((s.inode ip).addrs (Fin.last NDIRECT)) j c) c := by
  have hl1 := alloc_layout hl hc
  have hw1 := alloc_fileWF hl hc hcs hw
  have hfb1 := alloc_fileBlock hl hc hcs hw
  have hcf := alloc_foreign hl hc hcs hw
  have hi := (hw1.ind_owned hind).1
  have hfb : ((bzero (s.markUsed c) c).setIndirect ((s.inode ip).addrs (Fin.last NDIRECT)) j c).fileBlock
      (s.inode ip) = Function.update ((bzero (s.markUsed c) c).fileBlock (s.inode ip)) (NDIRECT + j) c :=
    fileBlock_setIndirect _ hind hj c
  refine ⟨⟨by simp, by simp, by simp, ?_, ?_⟩, ?_, ?_⟩
  · rw [setIndirect_eq]; exact hl1.put (.inl hi) _
  · exact hw1.map_block (by simp [setIndirect_eq])
      (fun b hb h => by rw [setIndirect_eq, hl1.bit_put (.inl hi) _ hb]; exact h) rfl rfl
      (alloc_owned hl hc hcs) hcf hc0 hfb rfl
  · refine (fileByte_map_zero hfb (by rw [hfb1]; exact h0) ?_ fun g hg => ?_).trans
      (alloc_fileByte hl hc hcs hw)
    · rw [setIndirect_eq, put_disk, Function.update_of_ne (hcf.1 hind)]
      exact alloc_disk
    · rw [setIndirect_eq, put_disk, Function.update_of_ne]
      intro he
      exact hw1.ne_ind g hg (UInt32.toNat_inj.1 he)
  · refine .inr ⟨hc0, ?_⟩
    simp only [setIndirect_inode, bzero_inode, markUsed_inode]
    rw [hfb, hfb1]

theorem Keeps.ind (hind : (s.inode ip).addrs (Fin.last NDIRECT) = 0) :
    let s' := (bzero (s.markUsed c) c).setAddr ip (Fin.last NDIRECT) c
    Keeps s s' ip ∧ s'.fileByte (s'.inode ip) = s.fileByte (s.inode ip) ∧
      s'.fileBlock (s'.inode ip) = s.fileBlock (s.inode ip) ∧
      (s'.inode ip).addrs (Fin.last NDIRECT) = c := by
  intro s'
  have hfb1 := alloc_fileBlock hl hc hcs hw
  have hfb : s'.fileBlock (s'.inode ip) = s.fileBlock (s.inode ip) := by
    simp only [s', setAddr_inode_self, bzero_inode, markUsed_inode]
    rw [setAddr_eq, fileBlock_setInode, fileBlock_setInd _ hind alloc_disk, hfb1]
  refine ⟨⟨by simp [s'], by simp [s'], by simp [s'], (alloc_layout hl hc).setAddr ip _ c, ?_⟩, ?_,
    hfb, by simp [s']⟩
  · exact (alloc_fileWF hl hc hcs hw).map_ind (by simp [s']) (fun _ _ h => h) (by simp [s'])
      (by simp [s'])
      (alloc_owned hl hc hcs) (alloc_foreign hl hc hcs hw) (hfb.trans hfb1.symm) (by simp [s'])
  · rw [← alloc_fileByte hl hc hcs hw]
    exact fileByte_congr (hfb.trans hfb1.symm) fun _ _ => rfl

end Bmap

theorem bmap_of_mapped {ip : Fin NINODE} {bn : Nat} (hb : s.fileBlock (s.inode ip) bn ≠ 0) :
    bmap s ip bn = .ok (s, s.fileBlock (s.inode ip) bn) := by
  have hbn := fileBlock_lt hb
  unfold bmap
  split
  · rename_i hd
    rw [fileBlock_direct _ hd] at hb ⊢
    simp [hb]
  · rename_i hd
    have hind : (s.inode ip).addrs (Fin.last NDIRECT) ≠ 0 := by
      intro h0; apply hb; simp [fileBlock, hd, h0]
    have hj : bn - NDIRECT < NINDIRECT := by
      rw [show MAXFILE = NDIRECT + NINDIRECT from rfl] at hbn; omega
    rw [fileBlock_indirect _ (by omega) hind] at hb ⊢
    simp [hj, hind, bmapEntry, hb]

section Spec

variable {ip : Fin NINODE} (hl : s.Layout) (hw : s.FileWF (s.inode ip))
include hl hw

/-- The second half of `bmap`, on the indirect block of a well-formed file: `bmap`'s work
for block `NDIRECT + j`. -/
theorem bmapEntry_spec (hind : (s.inode ip).addrs (Fin.last NDIRECT) ≠ 0) {j : Nat}
    (hj : j < NINDIRECT) :
    BmapSpec s ip (NDIRECT + j) (bmapEntry s ((s.inode ip).addrs (Fin.last NDIRECT)) j).1
      (bmapEntry s ((s.inode ip).addrs (Fin.last NDIRECT)) j).2 := by
  have hfb : s.fileBlock (s.inode ip) (NDIRECT + j) =
      s.indirect ((s.inode ip).addrs (Fin.last NDIRECT)) j := by
    rw [fileBlock_indirect _ (by omega) hind, Nat.add_sub_cancel_left]
  unfold bmapEntry
  split
  · rename_i h0
    rcases balloc_spec hl with ⟨hb, hfull⟩ | ⟨c, hb, hc0, hc, hcs⟩
    · simp only [hb, if_true]
      exact BmapSpec.full hl hw hfull (hfb.trans h0)
    · simp only [hb, if_neg hc0]
      exact BmapSpec.entry hl hw hc hcs hc0 hind hj (hfb.trans h0)
  · rename_i h0
    rw [← hfb]
    exact BmapSpec.found hl hw (by rw [hfb]; exact h0)

/-- `bmap` of a block of a well-formed file, below `MAXFILE`: it returns, and does what
`BmapSpec` says. -/
theorem bmap_spec {bn : Nat} (hbn : bn < MAXFILE) :
    ∃ s' b, bmap s ip bn = .ok (s', b) ∧ BmapSpec s ip bn s' b := by
  unfold bmap
  split
  · -- a direct block
    rename_i hd
    have hfb : s.fileBlock (s.inode ip) bn = (s.inode ip).addrs ⟨bn, by omega⟩ :=
      fileBlock_direct _ hd
    dsimp only
    split
    · rename_i h0
      rcases balloc_spec hl with ⟨hb, hfull⟩ | ⟨c, hb, hc0, hc, hcs⟩
      · exact ⟨s, 0, by simp [hb], BmapSpec.full hl hw hfull (hfb.trans h0)⟩
      · exact ⟨_, c, by simp [hb, hc0], BmapSpec.direct hl hw hc hcs hc0 hd (hfb.trans h0)⟩
    · rename_i h0
      refine ⟨s, _, rfl, ?_⟩
      rw [← hfb]
      exact BmapSpec.found hl hw (by rw [hfb]; exact h0)
  · -- a block through the indirect block
    rename_i hd
    obtain ⟨j, rfl⟩ : ∃ j, bn = NDIRECT + j := ⟨bn - NDIRECT, by omega⟩
    have hj : j < NINDIRECT := by rw [show MAXFILE = NDIRECT + NINDIRECT from rfl] at hbn; omega
    simp only [Nat.add_sub_cancel_left, if_pos hj]
    split
    · rename_i hind
      rcases balloc_spec hl with ⟨hb, hfull⟩ | ⟨c, hb, hc0, hc, hcs⟩
      · refine ⟨s, 0, by simp [hb], BmapSpec.full hl hw hfull ?_⟩
        simp [fileBlock, hd, hind]
      · -- a fresh indirect block, then its entry
        obtain ⟨hk, hby, hfb, haddr⟩ := Keeps.ind hl hw hc hcs hind
        refine ⟨(bmapEntry ((bzero (s.markUsed c) c).setAddr ip (Fin.last NDIRECT) c) c j).1,
          (bmapEntry ((bzero (s.markUsed c) c).setAddr ip (Fin.last NDIRECT) c) c j).2,
          by simp [hb, hc0], BmapSpec.of_prefix hk hby hfb ?_⟩
        have h := bmapEntry_spec hk.layout hk.wf (by rw [haddr]; exact hc0) hj
        rw [haddr] at h
        exact h
    · rename_i hind
      -- the pair given by its parts: unifying it with the call unfolds too much
      exact ⟨(bmapEntry s ((s.inode ip).addrs (Fin.last NDIRECT)) j).1,
        (bmapEntry s ((s.inode ip).addrs (Fin.last NDIRECT)) j).2, by rw [Prod.mk.eta],
        bmapEntry_spec hl hw hind hj⟩

end Spec

end Fsys

end Xv6
