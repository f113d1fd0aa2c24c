import Xv6.Fs.Bmap
import Xv6.Fs.Mkfs

/-!
# The contents of a file: `readi` and `writei`

`kernel/fs.c`, lines 465-540, against the view of a file that `Xv6.Fs.Bmap` sets up: the
file's bytes `fileByte`, read through its block map, and its contents `content`, the
bytes below its size.

`readi` of a well-formed file returns the slice of its contents that the offset and the
count select, and changes nothing (`readi_spec`).  `writei` writes the bytes block by
block through `bmap`; it stops early only where `bmap` finds the disk full, at the start
of a block, and the file is then its old contents with the bytes written laid over them
(`writeiLoop_spec`).  Each loop is proved by induction on its fuel, one pass per block.
-/

namespace Xv6

open Bytes

namespace Fsys

variable {s : Fsys} {ip : Fin NINODE}

theorem BSIZE_toUInt32 : BSIZE.toUInt32 = 1024 := rfl

theorem getBytes_fileBlock {x : Inode} {off m : Nat} (hb : s.fileBlock x (off / BSIZE) ≠ 0)
    (hm : off % BSIZE + m ≤ BSIZE) :
    getBytes (s.disk (s.fileBlock x (off / BSIZE)).toNat) (off % BSIZE) m =
      (List.range m).map fun j => s.fileByte x (off + j) := by
  unfold getBytes
  refine List.map_congr_left fun j hj => ?_
  rw [List.mem_range] at hj
  have hdiv : (off + j) / BSIZE = off / BSIZE := by rw [BSIZE_eq] at hm ⊢; omega
  have hmod : (off + j) % BSIZE = off % BSIZE + j := by rw [BSIZE_eq] at hm ⊢; omega
  rw [fileByte_eq, hdiv, hmod, if_neg hb]

theorem drop_take_range {α : Type} (f : Nat → α) (n o m : Nat) :
    (((List.range n).map f).drop o).take m = (List.range (min m (n - o))).map fun j => f (o + j) := by
  apply List.ext_getElem
  · simp
  · intro j h1 h2
    simp

/-! ## `readi` -/

/-- The `m` bytes of the file `ip` from offset `o`, through its block map. -/
def bytesFrom (s : Fsys) (ip : Fin NINODE) (o m : Nat) : List UInt8 :=
  (List.range m).map fun j => s.fileByte (s.inode ip) (o + j)

@[simp] theorem length_bytesFrom (o m : Nat) : (s.bytesFrom ip o m).length = m := by
  simp [bytesFrom]

theorem bytesFrom_add (o t k : Nat) :
    s.bytesFrom ip o (t + k) = s.bytesFrom ip o t ++ s.bytesFrom ip (o + t) k := by
  simp [bytesFrom, List.range_add, Function.comp_def, Nat.add_assoc]

theorem drop_take_content (o m : Nat) :
    ((s.content ip).drop o).take m = s.bytesFrom ip o (min m ((s.inode ip).size.toNat - o)) := by
  rw [content, drop_take_range]
  rfl

section Rule

variable {n : UInt32} {o₀ : Nat} (P : Dst → Nat → Prop)

/-- `readi`'s loop over a well-formed file, `n` bytes from `o₀` within the size with `tot`
of them read, under an invariant `P` of the destination and the count that each copy out
of the file's next bytes keeps, unless it fails: the loop changes nothing, and ends with
all `n` bytes read and `P`, or with `-1` after a copy that failed. -/
theorem readiLoop_rule (hw : s.FileWF (s.inode ip)) (hsz : o₀ + n.toNat ≤ (s.inode ip).size.toNat)
    (hP : ∀ dst t m, P dst t → t + m ≤ n.toNat →
      (eitherCopyout dst t (s.bytesFrom ip (o₀ + t) m)).2 ≠ -1 →
      P (eitherCopyout dst t (s.bytesFrom ip (o₀ + t) m)).1 (t + m)) (fuel : Nat) :
    ∀ (tot off : UInt32) (dst : Dst), P dst tot.toNat → tot ≤ n → off.toNat = o₀ + tot.toNat →
      n.toNat - tot.toNat ≤ fuel →
      ∃ dst' r, readiLoop ip n fuel s tot off dst = .ok (s, dst', r) ∧
        (r = n ∧ P dst' n.toNat ∨
          r = -1 ∧ ∃ d t m, P d t ∧ (eitherCopyout d t (s.bytesFrom ip (o₀ + t) m)).2 = -1) := by
  induction fuel with
  | zero =>
    intro tot off dst hp htn _ hf
    have htn' := UInt32.le_iff_toNat_le.1 htn
    refine ⟨dst, tot, rfl, .inl ⟨UInt32.toNat_inj.1 (by omega), ?_⟩⟩
    rwa [show n.toNat = tot.toNat by omega]
  | succ fuel ih =>
    intro tot off dst hp htn hoff hf
    have htn' := UInt32.le_iff_toNat_le.1 htn
    have hsize := (s.inode ip).size.toNat_lt
    unfold readiLoop
    by_cases hlt : tot < n
    · rw [if_pos hlt]
      rw [UInt32.lt_iff_toNat_lt] at hlt
      -- the block of `off` starts below the size, so it is mapped
      have hfbn : (off / BSIZE.toUInt32).toNat = off.toNat / BSIZE := by
        rw [UInt32.toNat_div, BSIZE_toUInt32]; rfl
      have hmapped : s.fileBlock (s.inode ip) (off.toNat / BSIZE) ≠ 0 :=
        hw.mapped _ (by rw [BSIZE_eq]; omega)
      rw [hfbn, bmap_of_mapped hmapped]
      simp only [if_neg hmapped]
      have hm : (min (n - tot) (BSIZE.toUInt32 - off % BSIZE.toUInt32)).toNat =
          min (n.toNat - tot.toNat) (BSIZE - off.toNat % BSIZE) := by
        rw [UInt32.toNat_min, UInt32.toNat_sub_of_le _ _ htn,
          UInt32.toNat_sub_of_le, UInt32.toNat_mod, BSIZE_toUInt32]
        · rfl
        · rw [UInt32.le_iff_toNat_le, UInt32.toNat_mod, BSIZE_toUInt32]
          exact Nat.le_of_lt (Nat.mod_lt _ (by decide))
      have hmod : (off % BSIZE.toUInt32).toNat = off.toNat % BSIZE := by
        rw [UInt32.toNat_mod, BSIZE_toUInt32]; rfl
      have hb := Nat.mod_lt off.toNat (show 0 < BSIZE by decide)
      set m := min (n - tot) (BSIZE.toUInt32 - off % BSIZE.toUInt32) with hm_def
      have htot : (tot + m).toNat = tot.toNat + m.toNat := by
        rw [UInt32.toNat_add, Nat.mod_eq_of_lt (by have := n.toNat_lt; omega)]
      have hoff' : (off + m).toNat = o₀ + (tot + m).toNat := by
        rw [UInt32.toNat_add, Nat.mod_eq_of_lt (by omega), htot]; omega
      rw [hmod, getBytes_fileBlock hmapped (by omega), ← bytesFrom, hoff]
      rcases hc : eitherCopyout dst tot.toNat (s.bytesFrom ip (o₀ + tot.toNat) m.toNat) with ⟨d, r⟩
      dsimp only
      by_cases hr : r = -1
      · -- the copy failed: `tot` becomes `-1`
        rw [if_pos hr]
        exact ⟨d, -1, rfl, .inr ⟨rfl, dst, tot.toNat, m.toNat, hp, by rw [hc, hr]⟩⟩
      · rw [if_neg hr]
        have hp' : P d (tot + m).toNat := by
          have := hP dst tot.toNat m.toNat hp (by omega) (by rw [hc]; exact hr)
          rwa [hc, ← htot] at this
        exact ih (tot + m) (off + m) d hp' (UInt32.le_iff_toNat_le.2 (by omega)) hoff' (by omega)
    · rw [if_neg hlt]
      rw [UInt32.lt_iff_toNat_lt] at hlt
      refine ⟨dst, tot, rfl, .inl ⟨UInt32.toNat_inj.1 (by omega), ?_⟩⟩
      rwa [show n.toNat = tot.toNat by omega]

end Rule

theorem toInt_toInt32_of_le {x : UInt32} (hw : s.FileWF (s.inode ip))
    (hx : x.toNat ≤ (s.inode ip).size.toNat) : x.toInt32.toInt = x.toNat := by
  have hsize : (s.inode ip).size.toNat ≤ 274432 := hw.size_le
  rw [← Int32.toInt_toBitVec]
  exact BitVec.toInt_eq_toNat_of_lt (show 2 * x.toBitVec.toNat < 2 ^ 32 by
    rw [UInt32.toNat_toBitVec]; omega)

/-- `readi` of a well-formed file from offset `o` for `m` bytes with no overflow, under an
invariant `P` of the destination as `readiLoop_rule` has it, for the `len` bytes of the
slice `[o, o + m)` cut at the size: it changes nothing, and returns `len` with `P` holding,
or `-1` after a copy that failed. -/
theorem readi_rule (hw : s.FileWF (s.inode ip)) {o m : UInt32} (hom : o.toNat + m.toNat < 2 ^ 32)
    (P : Dst → Nat → Prop)
    (hP : ∀ dst t k, P dst t → t + k ≤ (((s.content ip).drop o.toNat).take m.toNat).length →
      (eitherCopyout dst t (s.bytesFrom ip (o.toNat + t) k)).2 ≠ -1 →
      P (eitherCopyout dst t (s.bytesFrom ip (o.toNat + t) k)).1 (t + k))
    (dst : Dst) (h0 : P dst 0) :
    ∃ dst' r, readi s ip dst o m = .ok (s, dst', r) ∧
      (r = (((s.content ip).drop o.toNat).take m.toNat).length ∧
          P dst' (((s.content ip).drop o.toNat).take m.toNat).length ∨
        r = -1 ∧ ∃ d t k, P d t ∧ (eitherCopyout d t (s.bytesFrom ip (o.toNat + t) k)).2 = -1) := by
  have hlen : (((s.content ip).drop o.toNat).take m.toNat).length =
      min m.toNat ((s.inode ip).size.toNat - o.toNat) := by
    simp [content]
  rw [hlen] at hP ⊢
  unfold readi
  have hno : ¬ o + m < o := by
    rw [UInt32.lt_iff_toNat_lt, UInt32.toNat_add, Nat.mod_eq_of_lt hom]; omega
  by_cases ho : o > (s.inode ip).size
  · -- past the end: nothing
    rw [if_pos (.inl ho)]
    rw [gt_iff_lt, UInt32.lt_iff_toNat_lt] at ho
    rw [show (s.inode ip).size.toNat - o.toNat = 0 by omega, Nat.min_zero]
    exact ⟨dst, 0, rfl, .inl ⟨rfl, h0⟩⟩
  · rw [if_neg (by tauto)]
    rw [gt_iff_lt, UInt32.lt_iff_toNat_lt, Nat.not_lt] at ho
    set n := if o + m > (s.inode ip).size then (s.inode ip).size - o else m with hn_def
    have hn : n.toNat = min m.toNat ((s.inode ip).size.toNat - o.toNat) := by
      rw [hn_def]
      split
      · rename_i h
        rw [gt_iff_lt, UInt32.lt_iff_toNat_lt, UInt32.toNat_add, Nat.mod_eq_of_lt hom] at h
        rw [UInt32.toNat_sub_of_le _ _ (UInt32.le_iff_toNat_le.2 ho)]
        omega
      · rename_i h
        rw [gt_iff_lt, UInt32.lt_iff_toNat_lt, UInt32.toNat_add, Nat.mod_eq_of_lt hom] at h
        omega
    rw [← hn] at hP ⊢
    obtain ⟨dst', r, hrun, hr⟩ := readiLoop_rule P hw
      (show o.toNat + n.toNat ≤ (s.inode ip).size.toNat by omega) hP n.toNat 0 o dst
      (by rwa [UInt32.toNat_zero]) (UInt32.le_iff_toNat_le.2 (Nat.zero_le _))
      (by rw [UInt32.toNat_zero, Nat.add_zero]) (by simp)
    dsimp only
    rw [hrun]
    refine ⟨dst', r.toInt32.toInt, rfl, ?_⟩
    rcases hr with ⟨rfl, hp⟩ | ⟨rfl, hfail⟩
    · exact .inl ⟨toInt_toInt32_of_le hw (by omega), hp⟩
    · exact .inr ⟨by decide, hfail⟩

/-- `readi` of a well-formed file into a kernel buffer, from offset `o` for `m` bytes with
no overflow: the slice of its contents from `o`, at most `m` bytes long, and its length;
nothing changes. -/
theorem readi_spec (hw : s.FileWF (s.inode ip)) (o m : UInt32) (hom : o.toNat + m.toNat < 2 ^ 32) :
    readi s ip (.kernel []) o m = .ok (s, .kernel (((s.content ip).drop o.toNat).take m.toNat),
      (((s.content ip).drop o.toNat).take m.toNat).length) := by
  -- the buffer holds the bytes copied so far, and a copy into it never fails
  obtain ⟨dst', r, hrun, hr⟩ := readi_rule hw hom
    (fun dst t => dst = .kernel (s.bytesFrom ip o.toNat t))
    (fun dst t k hp _ _ => by rw [hp, eitherCopyout, bytesFrom_add]) (.kernel [])
    (by simp [bytesFrom])
  rcases hr with ⟨rfl, rfl⟩ | ⟨-, d, t, k, rfl, hfail⟩
  · rw [hrun, drop_take_content, length_bytesFrom]
  · exact absurd hfail (by simp [eitherCopyout])

/-- What the first `tot` bytes of `writei`'s loop, from offset `off₀` of the file `ip` of
`s₀`, have made of it in `s`: the file is kept well formed, its bytes are its old ones with
the first `tot` bytes of `src` laid over them from `off₀`, and every block below
`off₀ + tot` is mapped. -/
structure Written (s₀ s : Fsys) (ip : Fin NINODE) (src : List UInt8) (off₀ tot : Nat) : Prop where
  keeps : Keeps s₀ s ip
  bytes : ∀ i, s.fileByte (s.inode ip) i =
    if off₀ ≤ i ∧ i < off₀ + tot then src.getD (i - off₀) 0 else s₀.fileByte (s₀.inode ip) i
  mapped : ∀ f, f * BSIZE < off₀ + tot → s.fileBlock (s.inode ip) f ≠ 0

/-- What `either_copyin` from `source` does for `m` bytes from `tot`, against the bytes `src`
the source holds: it returns `0` or `-1`, and copies those of `src` from `tot` when it
returns `0`. -/
structure CopyinSpec (source : Src) (src : List UInt8) (tot m : Nat) : Prop where
  ret : (eitherCopyin source tot m).2 = 0 ∨ (eitherCopyin source tot m).2 = -1
  ok : (eitherCopyin source tot m).2 = 0 → (eitherCopyin source tot m).1 = (src.drop tot).take m

theorem CopyinSpec.kernel (buf : List UInt8) (tot m : Nat) : CopyinSpec (.kernel buf) buf tot m :=
  ⟨.inl rfl, fun _ => rfl⟩

theorem CopyinSpec.user (vm : VM) (pt va : UInt64) {N t m : Nat} (h : t + m ≤ N) (hm : m < 2 ^ 64) :
    CopyinSpec (.user vm pt va) (ubytes vm pt va N) t m := by
  have hm' : m.toUInt64.toNat = m := by
    rw [Nat.toUInt64_eq, UInt64.toNat_ofNat', Nat.mod_eq_of_lt hm]
  have hc : eitherCopyin (.user vm pt va) t m = copyinLoop vm pt m (va + t.toUInt64) m.toUInt64 := by
    rw [eitherCopyin, copyin, hm']
  have hcopy := @copyinLoop_spec vm pt m.toUInt64.toNat (va + t.toUInt64) m.toUInt64 le_rfl
  rw [hm'] at hcopy
  rcases hcopy with ⟨-, he⟩ | ⟨-, he, -⟩
  · -- the bytes from `va + t` are those of `[va, va + N)` from `t`
    refine ⟨.inl (by rw [hc, he]), fun _ => ?_⟩
    rw [hc, he, show N = t + (N - t) by omega, ubytes_add, List.drop_left' (length_ubytes _ _),
      take_ubytes _ (by omega)]
  · refine ⟨.inr (by rw [hc]; exact he), fun h0 => ?_⟩
    rw [hc, he] at h0
    exact absurd h0 (by decide)

/-- What a pass of `writei`'s loop whose copy failed leaves of the first `tot` bytes: the
file is kept well formed, its bytes below `off₀ + tot` are as `Written` has them, and every
block below `off₀ + tot` is mapped. -/
structure WrittenBelow (s₀ s : Fsys) (ip : Fin NINODE) (src : List UInt8) (off₀ tot : Nat) :
    Prop where
  keeps : Keeps s₀ s ip
  bytes : ∀ i < off₀ + tot, s.fileByte (s.inode ip) i =
    if off₀ ≤ i then src.getD (i - off₀) 0 else s₀.fileByte (s₀.inode ip) i
  mapped : ∀ f, f * BSIZE < off₀ + tot → s.fileBlock (s.inode ip) f ≠ 0

variable {s₀ : Fsys} {src : List UInt8} {off₀ tot : Nat}

theorem Written.below (h : Written s₀ s ip src off₀ tot) : WrittenBelow s₀ s ip src off₀ tot :=
  ⟨h.keeps, fun i hi => by rw [h.bytes i]; by_cases h0 : off₀ ≤ i <;> simp [h0, hi], h.mapped⟩

theorem Written.start (hl : s₀.Layout) (hw : s₀.FileWF (s₀.inode ip))
    (hoff : off₀ ≤ (s₀.inode ip).size.toNat) : Written s₀ s₀ ip src off₀ 0 :=
  ⟨Keeps.refl hl hw, fun i => by rw [if_neg (by omega)],
    fun f hf => hw.mapped f (by omega)⟩

theorem Written.bmap {s₁ : Fsys} {bn : Nat} {b : UInt32} (h : Written s₀ s ip src off₀ tot)
    (hb : BmapSpec s ip bn s₁ b) : Written s₀ s₁ ip src off₀ tot := by
  obtain ⟨hk, hby, hr⟩ := hb
  refine ⟨h.keeps.trans hk, fun i => by rw [hby]; exact h.bytes i, fun f hf => ?_⟩
  rcases hr with ⟨-, -, -, hfb⟩ | ⟨hb0, hfb⟩
  · rw [hfb]; exact h.mapped f hf
  · rw [hfb]
    by_cases hf' : f = bn
    · rw [hf', Function.update_self]; exact hb0
    · rw [Function.update_of_ne hf']; exact h.mapped f hf

theorem getD_take_drop (src : List UInt8) {tot m k : Nat} (hk : k < m) :
    ((src.drop tot).take m).getD k 0 = src.getD (tot + k) 0 := by
  simp [List.getD_eq_getElem?_getD, hk]

theorem Keeps.put_block (hl : s.Layout) (hw : s.FileWF (s.inode ip)) {f : Nat}
    (hf : s.fileBlock (s.inode ip) f ≠ 0) (v : Block) :
    Keeps s (s.put (s.fileBlock (s.inode ip) f).toNat v) ip := by
  have hown := (hw.owned _ hf).1
  have hfb := fileBlock_put (s := s) (fun _ he => hw.ne_ind _ hf (UInt32.toNat_inj.1 he)) v
  exact ⟨rfl, rfl, rfl, hl.put (.inl hown) _,
    hw.mono rfl (fun b hb hb' => by rw [hl.bit_put (.inl hown) _ hb]; exact hb') hfb rfl rfl rfl⟩

/-- One pass of `writei`'s loop: `m` bytes of `src` stored in the mapped block of offset
`off₀ + tot`, within it. -/
theorem Written.store {m : Nat} (h : Written s₀ s ip src off₀ tot) (hsrc : tot + m ≤ src.length)
    (hf : s.fileBlock (s.inode ip) ((off₀ + tot) / BSIZE) ≠ 0)
    (hm : (off₀ + tot) % BSIZE + m ≤ BSIZE) :
    Written s₀ (s.put (s.fileBlock (s.inode ip) ((off₀ + tot) / BSIZE)).toNat
      (setBytes (s.disk (s.fileBlock (s.inode ip) ((off₀ + tot) / BSIZE)).toNat)
        ((off₀ + tot) % BSIZE) ((src.drop tot).take m))) ip src off₀ (tot + m) := by
  have hw := h.keeps.wf
  have hfb := fileBlock_put (s := s) (fun _ he => hw.ne_ind _ hf (UInt32.toNat_inj.1 he))
    (setBytes (s.disk (s.fileBlock (s.inode ip) ((off₀ + tot) / BSIZE)).toNat)
      ((off₀ + tot) % BSIZE) ((src.drop tot).take m))
  have hlen : ((src.drop tot).take m).length = m := by simp; omega
  have hB : BSIZE = 1024 := BSIZE_eq
  refine ⟨h.keeps.trans (Keeps.put_block h.keeps.layout hw hf _), fun i => ?_, fun f hf' => ?_⟩
  · simp only [put_inode]
    rw [fileByte_put_block hw hf]
    by_cases hi : i / BSIZE = (off₀ + tot) / BSIZE
    · rw [if_pos hi, byteAt_setBytes, hlen]
      by_cases hr : (off₀ + tot) % BSIZE ≤ i % BSIZE ∧ i % BSIZE < (off₀ + tot) % BSIZE + m ∧
          i % BSIZE < BSIZE
      · -- a byte this pass writes
        have hin : off₀ + tot ≤ i ∧ i < off₀ + tot + m ∧
            i - off₀ = tot + (i % BSIZE - (off₀ + tot) % BSIZE) := by
          rw [hB] at hi hr ⊢; omega
        rw [if_pos hr, if_pos (by omega), getD_take_drop _ (by omega), hin.2.2]
        simp
      · -- a byte of the block that this pass leaves alone
        have hout : i < off₀ + tot ∨ off₀ + tot + m ≤ i := by rw [hB] at hi hr hm; omega
        have hbyte : (byteAt (s.disk (s.fileBlock (s.inode ip) ((off₀ + tot) / BSIZE)).toNat)
            (i % BSIZE)).toUInt8 = s.fileByte (s.inode ip) i := by
          rw [fileByte_eq, hi, if_neg hf]
        rw [if_neg hr, hbyte, h.bytes i]
        by_cases hold : off₀ ≤ i ∧ i < off₀ + tot
        · rw [if_pos hold, if_pos (by omega)]
        · rw [if_neg hold, if_neg (by omega)]
    · -- a byte of another block
      have hout : i < off₀ + tot ∨ off₀ + tot + m ≤ i := by rw [hB] at hi hm; omega
      rw [if_neg hi, h.bytes i]
      by_cases hold : off₀ ≤ i ∧ i < off₀ + tot
      · rw [if_pos hold, if_pos (by omega)]
      · rw [if_neg hold, if_neg (by omega)]
  · simp only [put_inode]
    rw [hfb]
    by_cases hlt : f * BSIZE < off₀ + tot
    · exact h.mapped f hlt
    · -- the block of this pass
      have : f = (off₀ + tot) / BSIZE := by rw [hB] at hlt hf' hm ⊢; omega
      rw [this]; exact hf

/-- A pass of `writei`'s loop whose copy failed: whatever bytes it did copy, stored in the
block of offset `off₀ + tot` from there on, leave the first `tot` bytes written. -/
theorem Written.partial (h : Written s₀ s ip src off₀ tot)
    (hf : s.fileBlock (s.inode ip) ((off₀ + tot) / BSIZE) ≠ 0) (bs : List UInt8) :
    WrittenBelow s₀ (s.put (s.fileBlock (s.inode ip) ((off₀ + tot) / BSIZE)).toNat
      (setBytes (s.disk (s.fileBlock (s.inode ip) ((off₀ + tot) / BSIZE)).toNat)
        ((off₀ + tot) % BSIZE) bs)) ip src off₀ tot := by
  have hw := h.keeps.wf
  have hB : BSIZE = 1024 := BSIZE_eq
  refine ⟨h.keeps.trans (Keeps.put_block h.keeps.layout hw hf _), fun i hi => ?_, fun f hf' => ?_⟩
  · -- the bytes stored lie at or past `off₀ + tot`
    simp only [put_inode]
    rw [fileByte_put_block hw hf, (h.below).bytes i hi]
    by_cases hblk : i / BSIZE = (off₀ + tot) / BSIZE
    · have hlow : ¬((off₀ + tot) % BSIZE ≤ i % BSIZE) := by rw [hB] at hblk ⊢; omega
      have hold : (byteAt (s.disk (s.fileBlock (s.inode ip) ((off₀ + tot) / BSIZE)).toNat)
          (i % BSIZE)).toUInt8 = s.fileByte (s.inode ip) i := by
        rw [fileByte_eq, hblk, if_neg hf]
      rw [if_pos hblk, byteAt_setBytes, if_neg (fun h' => hlow h'.1), hold, (h.below).bytes i hi]
    · rw [if_neg hblk]
  · simp only [put_inode]
    rw [fileBlock_put (fun _ he => hw.ne_ind _ hf (UInt32.toNat_inj.1 he))]
    exact h.mapped f hf'

/-- `writei`'s loop over a well-formed file, `n` bytes from `off₀` within `MAXFILE`
blocks, copied from a `source` that holds the bytes `src`, with `tot` of them written so
far and the blocks from `off₀ + tot` on mapped as they were: it returns having written
`tot'` bytes, all `n` of them unless `bmap` found the disk full at the start of a block
that was not mapped, or unless a copy from `tot'` failed, which leaves only the bytes
below `off₀ + tot'` as written. -/
theorem writeiLoop_spec {n : UInt32} {source : Src}
    (hcopy : ∀ t m, t + m ≤ n.toNat → CopyinSpec source src t m) (hsrc : n.toNat ≤ src.length)
    (hmax : off₀ + n.toNat ≤ MAXFILE * BSIZE) (fuel : Nat) :
    ∀ (s : Fsys) (tot off : UInt32), Written s₀ s ip src off₀ tot.toNat →
      (∀ f, off₀ + tot.toNat ≤ f * BSIZE →
        s.fileBlock (s.inode ip) f = s₀.fileBlock (s₀.inode ip) f) →
      off.toNat = off₀ + tot.toNat → tot ≤ n → n.toNat - tot.toNat ≤ fuel →
      ∃ s' tot' off', writeiLoop ip n source fuel s tot off = .ok (s', tot', off') ∧
        off'.toNat = off₀ + tot'.toNat ∧ tot' ≤ n ∧
        (Written s₀ s' ip src off₀ tot'.toNat ∧
            (tot' = n ∨ (off₀ + tot'.toNat) % BSIZE = 0 ∧ s'.Full ∧
              s₀.fileBlock (s₀.inode ip) ((off₀ + tot'.toNat) / BSIZE) = 0) ∨
          tot' < n ∧ WrittenBelow s₀ s' ip src off₀ tot'.toNat ∧
            ∃ m, 0 < m ∧ (eitherCopyin source tot'.toNat m).2 = -1) := by
  have hB : BSIZE = 1024 := BSIZE_eq
  have hmax' : off₀ + n.toNat ≤ 268 * 1024 := hmax
  induction fuel with
  | zero =>
    intro s tot off h _ hoff htn hf
    have htn' := UInt32.le_iff_toNat_le.1 htn
    exact ⟨s, tot, off, rfl, hoff, htn, .inl ⟨h, .inl (UInt32.toNat_inj.1 (by omega))⟩⟩
  | succ fuel ih =>
    intro s tot off h hlater hoff htn hf
    have htn' := UInt32.le_iff_toNat_le.1 htn
    unfold writeiLoop
    by_cases hlt : tot < n
    · rw [if_pos hlt]
      rw [UInt32.lt_iff_toNat_lt] at hlt
      have hfbn : (off / BSIZE.toUInt32).toNat = (off₀ + tot.toNat) / BSIZE := by
        rw [UInt32.toNat_div, BSIZE_toUInt32, hoff]; rfl
      have hbn : (off₀ + tot.toNat) / BSIZE < MAXFILE := by
        rw [hB, show MAXFILE = 268 from rfl]; omega
      obtain ⟨s₁, b, hbm, hspec⟩ := bmap_spec h.keeps.layout h.keeps.wf hbn
      rw [hfbn, hbm]
      dsimp only
      have h₁ := h.bmap hspec
      by_cases hb : b = 0
      · -- `bmap` found the disk full: the loop stops at the start of a block not mapped
        rw [if_pos hb]
        obtain ⟨-, hfull, hf0, -⟩ := hspec.2.2.resolve_right fun h' => h'.1 hb
        have hstart : (off₀ + tot.toNat) % BSIZE = 0 := by
          refine Nat.eq_zero_of_not_pos fun hpos => h.mapped _ ?_ hf0
          rw [hB] at hpos ⊢; omega
        refine ⟨s₁, tot, off, rfl, hoff, htn, .inl ⟨h₁, .inr ⟨hstart, hfull, ?_⟩⟩⟩
        rw [← hlater _ (by rw [hB] at hstart ⊢; omega)]
        exact hf0
      · rw [if_neg hb]
        have hfb₁ : s₁.fileBlock (s₁.inode ip) ((off₀ + tot.toNat) / BSIZE) = b := by
          rcases hspec.2.2 with ⟨hb0, -⟩ | ⟨-, hfb⟩
          · exact absurd hb0 hb
          · rw [hfb, Function.update_self]
        have hmod : (off % BSIZE.toUInt32).toNat = (off₀ + tot.toNat) % BSIZE := by
          rw [UInt32.toNat_mod, BSIZE_toUInt32, hoff]; rfl
        have hm : (min (n - tot) (BSIZE.toUInt32 - off % BSIZE.toUInt32)).toNat =
            min (n.toNat - tot.toNat) (BSIZE - (off₀ + tot.toNat) % BSIZE) := by
          rw [UInt32.toNat_min, UInt32.toNat_sub_of_le _ _ htn, UInt32.toNat_sub_of_le, hmod,
            BSIZE_toUInt32]
          · rfl
          · rw [UInt32.le_iff_toNat_le, UInt32.toNat_mod, BSIZE_toUInt32]
            exact Nat.le_of_lt (Nat.mod_lt _ (by decide))
        have hb' := Nat.mod_lt (off₀ + tot.toNat) (show 0 < BSIZE by decide)
        set m := min (n - tot) (BSIZE.toUInt32 - off % BSIZE.toUInt32) with hm_def
        obtain ⟨hret, hok⟩ := hcopy tot.toNat m.toNat (by omega)
        rcases hcr : eitherCopyin source tot.toNat m.toNat with ⟨bs, r⟩
        rw [hcr] at hret hok
        dsimp only
        rw [hmod]
        by_cases hr : r = -1
        · -- the copy failed: the bytes it copied are in the block, past `off₀ + tot`
          rw [if_pos hr]
          have hbelow := h₁.partial (by rw [hfb₁]; exact hb) bs
          rw [hfb₁] at hbelow
          exact ⟨_, tot, off, rfl, hoff, htn, .inr ⟨UInt32.lt_iff_toNat_lt.2 hlt, hbelow, m.toNat,
            by rw [hm]; omega, by rw [hcr]; exact hr⟩⟩
        · rw [if_neg hr]
          have hbs : bs = (src.drop tot.toNat).take m.toNat := hok (hret.resolve_right hr)
          have htot : (tot + m).toNat = tot.toNat + m.toNat := by
            rw [UInt32.toNat_add, Nat.mod_eq_of_lt (by have := n.toNat_lt; omega)]
          have hoff' : (off + m).toNat = off₀ + (tot + m).toNat := by
            rw [UInt32.toNat_add, Nat.mod_eq_of_lt (by omega), htot]; omega
          have h₂ := h₁.store (m := m.toNat) (by omega) (by rw [hfb₁]; exact hb) (by omega)
          -- the blocks past this pass's are mapped as they were: `bmap` mapped only this one
          have hlater₂ : ∀ f, off₀ + (tot + m).toNat ≤ f * BSIZE →
              s₁.fileBlock (s₁.inode ip) f = s₀.fileBlock (s₀.inode ip) f := fun f hf => by
            have hne : f ≠ (off₀ + tot.toNat) / BSIZE := by rw [htot, hB] at hf; rw [hB]; omega
            rcases hspec.2.2 with ⟨hb0, -⟩ | ⟨-, hfb⟩
            · exact absurd hb0 hb
            · rw [hfb, Function.update_of_ne hne]
              exact hlater f (by omega)
          rw [hfb₁, ← htot] at h₂
          rw [hbs]
          refine ih _ (tot + m) (off + m) h₂ (fun f hf => ?_) hoff'
            (UInt32.le_iff_toNat_le.2 (by omega)) (by omega)
          -- the store is `put` at a data block, never the indirect one
          refine (congrFun (fileBlock_put (s := s₁) (x := s₁.inode ip) (fun _ he => ?_) _) f).trans
            (hlater₂ f hf)
          exact h₁.keeps.wf.ne_ind _ (hfb₁ ▸ hb) (UInt32.toNat_inj.1 (hfb₁ ▸ he))
    · rw [if_neg hlt]
      rw [UInt32.lt_iff_toNat_lt] at hlt
      exact ⟨s, tot, off, rfl, hoff, htn, .inl ⟨h, .inl (UInt32.toNat_inj.1 (by omega))⟩⟩

/-! ## The end of `writei`: the new size, and `iupdate` -/

@[simp] theorem fileBlock_resize (x : Inode) (sz : UInt32) :
    s.fileBlock { x with size := sz } = s.fileBlock x := rfl

@[simp] theorem fileByte_resize (x : Inode) (sz : UInt32) :
    s.fileByte { x with size := sz } = s.fileByte x := rfl

theorem FileWF.resize {x : Inode} (hw : s.FileWF x) {sz : UInt32}
    (hsz : sz.toNat ≤ MAXFILE * BSIZE) (hmap : ∀ f, f * BSIZE < sz.toNat → s.fileBlock x f ≠ 0) :
    s.FileWF { x with size := sz } :=
  ⟨hsz, hw.inum_lt, hmap, hw.owned, hw.ind_owned, hw.inj, hw.ne_ind⟩

theorem FileWF.setInode {x : Inode} (hw : s.FileWF x) (ip : Fin NINODE) (y : Inode) :
    (s.setInode ip y).FileWF x :=
  hw.mono rfl (fun _ _ h => h) rfl rfl rfl rfl

theorem iupdate_eq_put (ip : Fin NINODE) :
    iupdate s ip = s.put (IBLOCK (s.inode ip).inum s.sb).toNat
      (DInode.write (s.disk (IBLOCK (s.inode ip).inum s.sb).toNat)
        ((s.inode ip).inum.toNat % IPB) (s.inode ip).toDInode) := rfl

section Iupdate

variable (hl : s.Layout) (hw : s.FileWF (s.inode ip))
include hl hw

/-- `iupdate` stores to an inode block: none of the file's, and no block of the free map. -/
theorem iupdate_block :
    (IBLOCK (s.inode ip).inum s.sb).toNat < s.sb.bmapstart.toNat ∧
      s.Foreign (s.inode ip) (IBLOCK (s.inode ip).inum s.sb).toNat := by
  have h := hl.iblock _ hw.inum_lt
  exact ⟨h, hw.foreign_of_lt (Nat.lt_of_lt_of_le h hl.bmapstart_le)⟩

theorem Layout.iupdate : (iupdate s ip).Layout := by
  rw [iupdate_eq_put]
  exact hl.put (.inr (iupdate_block hl hw).1) _

theorem FileWF.iupdate : (iupdate s ip).FileWF ((iupdate s ip).inode ip) :=
  hw.put hl (iupdate_block hl hw).2 (.inr (iupdate_block hl hw).1) _

theorem fileByte_iupdate : (iupdate s ip).fileByte ((iupdate s ip).inode ip) = s.fileByte (s.inode ip) := by
  rw [iupdate_eq_put]
  exact fileByte_put (iupdate_block hl hw).2 _

theorem Full.iupdate (hfull : s.Full) : (iupdate s ip).Full := fun b hb => by
  rw [iupdate_eq_put, hl.bit_put (.inr (iupdate_block hl hw).1) _ hb]
  exact hfull b hb

end Iupdate

/-- The contents of a file whose bytes are those of `s₀`'s with `k` bytes of `src` laid
over them from `off₀`, within or at the end of the old contents. -/
theorem content_of_bytes {k : Nat}
    (hb : ∀ i, s.fileByte (s.inode ip) i =
      if off₀ ≤ i ∧ i < off₀ + k then src.getD (i - off₀) 0 else s₀.fileByte (s₀.inode ip) i)
    (hoff : off₀ ≤ (s₀.inode ip).size.toNat) (hk : k ≤ src.length)
    (hsz : (s.inode ip).size.toNat = max (s₀.inode ip).size.toNat (off₀ + k)) :
    s.content ip = (s₀.content ip).take off₀ ++ src.take k ++ (s₀.content ip).drop (off₀ + k) := by
  apply List.ext_getElem
  · simp only [content, List.length_map, List.length_range, List.length_append, List.length_take,
      List.length_drop, hsz]
    omega
  · intro i h1 h2
    have hl₀ : (s₀.content ip).length = (s₀.inode ip).size.toNat := by simp [content]
    have hget : ∀ j (hj : j < (s₀.content ip).length),
        (s₀.content ip)[j] = s₀.fileByte (s₀.inode ip) j := by
      intro j hj; simp [content]
    have htake : ((s₀.content ip).take off₀).length = off₀ := by
      rw [List.length_take, hl₀]; omega
    have hsrc : (src.take k).length = k := by rw [List.length_take]; omega
    rw [show (s.content ip)[i] = s.fileByte (s.inode ip) i by simp [content], hb i]
    by_cases hi : i < off₀
    · -- before the bytes written
      rw [if_neg (by omega), List.getElem_append_left (by rw [List.length_append]; omega),
        List.getElem_append_left (by omega), List.getElem_take, hget]
    · by_cases hi' : i < off₀ + k
      · -- a byte written
        rw [if_pos ⟨by omega, hi'⟩, List.getElem_append_left (by rw [List.length_append]; omega),
          List.getElem_append_right (by omega), List.getElem_take, List.getD_eq_getElem?_getD,
          List.getElem?_eq_getElem (by omega), Option.getD_some]
        congr 1
        omega
      · -- after the bytes written
        rw [if_neg (by omega), List.getElem_append_right (by rw [List.length_append]; omega),
          List.getElem_drop, hget]
        congr 1
        rw [List.length_append]
        omega

/-- The contents below `off₀ + k` of a file whose bytes there are those of `s₀`'s with `k`
bytes of `src` laid over them from `off₀`, and whose size reaches `off₀ + k`. -/
theorem content_take_of_bytes {k : Nat}
    (hb : ∀ i < off₀ + k, s.fileByte (s.inode ip) i =
      if off₀ ≤ i then src.getD (i - off₀) 0 else s₀.fileByte (s₀.inode ip) i)
    (hoff : off₀ ≤ (s₀.inode ip).size.toNat) (hk : k ≤ src.length)
    (hsz : off₀ + k ≤ (s.inode ip).size.toNat) :
    (s.content ip).take (off₀ + k) = (s₀.content ip).take off₀ ++ src.take k := by
  apply List.ext_getElem
  · simp only [content, List.length_take, List.length_map, List.length_range, List.length_append]
    omega
  · intro i h1 h2
    have hi : i < off₀ + k := by simp only [List.length_take] at h1; omega
    have htake : ((s₀.content ip).take off₀).length = off₀ := by simp [content]; omega
    have hget : ∀ j (hj : j < (s.content ip).length), (s.content ip)[j] = s.fileByte (s.inode ip) j := by
      intro j hj; simp [content]
    rw [List.getElem_take, hget, hb i hi]
    by_cases hlo : off₀ ≤ i
    · -- a byte written
      rw [if_pos hlo, List.getElem_append_right (by omega), List.getElem_take,
        List.getD_eq_getElem?_getD, List.getElem?_eq_getElem (by omega), Option.getD_some]
      congr 1
      omega
    · -- a byte before them
      rw [if_neg hlo, List.getElem_append_left (by omega), List.getElem_take]
      simp [content]

/-! ## The law of `writei` and `readi` -/

@[simp] theorem iupdate_inode (ip : Fin NINODE) : (iupdate s ip).inode = s.inode := rfl

@[simp] theorem iupdate_sb (ip : Fin NINODE) : (iupdate s ip).sb = s.sb := rfl

/-- `writei` of `n` bytes from a `source` that holds the bytes `src`, at an offset `off`
within a well-formed file, with `off + n` within `MAXFILE` blocks: it returns the number
`k ≤ n` of bytes written; the size becomes `max size (off + k)`, the file stays well formed,
and its contents below `off + k` are the old ones with the `k` bytes laid over them from
`off`.  Either its contents are exactly that, and `k` is `n` unless `balloc` failed, in
which case `k` ends at the start of a block the file did not map before the write and the
disk is full; or the copy from `k` failed. -/
theorem writei_spec (hl : s.Layout) (hw : s.FileWF (s.inode ip)) {source : Src} {src : List UInt8}
    {off n : UInt32} (hoff : off ≤ (s.inode ip).size) (hmax : off.toNat + n.toNat ≤ MAXFILE * BSIZE)
    (hsrc : n.toNat ≤ src.length) (hcopy : ∀ t m, t + m ≤ n.toNat → CopyinSpec source src t m) :
    ∃ (s' : Fsys) (k : Nat), writei s ip source off n = .ok (s', (k : Int)) ∧ k ≤ n.toNat ∧
      (s'.inode ip).size.toNat = max (s.inode ip).size.toNat (off.toNat + k) ∧
      s'.Layout ∧ s'.FileWF (s'.inode ip) ∧
      (s'.content ip).take (off.toNat + k) = (s.content ip).take off.toNat ++ src.take k ∧
      ((k = n.toNat ∨ (off.toNat + k) % BSIZE = 0 ∧ s'.Full ∧
            s.fileBlock (s.inode ip) ((off.toNat + k) / BSIZE) = 0) ∧
          s'.content ip = (s.content ip).take off.toNat ++ src.take k ++
            (s.content ip).drop (off.toNat + k) ∨
        k < n.toNat ∧ ∃ m, 0 < m ∧ (eitherCopyin source k m).2 = -1) := by
  have hmax' : off.toNat + n.toNat ≤ 274432 := hmax
  have hoff' := UInt32.le_iff_toNat_le.1 hoff
  have hsum : (off + n).toNat = off.toNat + n.toNat := by
    rw [UInt32.toNat_add, Nat.mod_eq_of_lt (by omega)]
  obtain ⟨s₁, tot, off₁, hrun, hoff₁, htn, hend⟩ :=
    writeiLoop_spec hcopy hsrc hmax n.toNat s 0 off
      (Written.start hl hw hoff') (fun _ _ => rfl) (by simp) (UInt32.le_iff_toNat_le.2 (Nat.zero_le _))
      (by simp)
  have hwr : WrittenBelow s s₁ ip src off.toNat tot.toNat := hend.elim (·.1.below) (·.2.1)
  have htn' := UInt32.le_iff_toNat_le.1 htn
  have hsize₁ := hwr.keeps.size
  set sz := if off₁ > (s₁.inode ip).size then off₁ else (s₁.inode ip).size with hsz_def
  have hs₂ : (if off₁ > (s₁.inode ip).size then s₁.setInode ip { s₁.inode ip with size := off₁ }
      else s₁) = s₁.setInode ip { s₁.inode ip with size := sz } := by
    rw [hsz_def]
    split
    · rfl
    · simp [setInode]
  have hsz : sz.toNat = max (s.inode ip).size.toNat (off.toNat + tot.toNat) := by
    rw [hsz_def, ← hoff₁, ← hsize₁]
    split
    · rename_i h
      rw [gt_iff_lt, UInt32.lt_iff_toNat_lt] at h
      omega
    · rename_i h
      rw [gt_iff_lt, UInt32.lt_iff_toNat_lt] at h
      omega
  set s₂ := s₁.setInode ip { s₁.inode ip with size := sz } with hs₂_def
  have hw₂ : s₂.FileWF (s₂.inode ip) := by
    simp only [s₂, setInode_inode, Function.update_self]
    have hsize := hw.size_le
    have hres : s₁.FileWF { s₁.inode ip with size := sz } :=
      hwr.keeps.wf.resize (by rw [hsz]; omega) fun f hf => by
        rw [hsz] at hf
        by_cases hf' : f * BSIZE < off.toNat + tot.toNat
        · exact hwr.mapped f hf'
        · exact hwr.keeps.wf.mapped f (by rw [hsize₁]; omega)
    exact hres.setInode ip _
  have hl₂ : s₂.Layout := hwr.keeps.layout.mono rfl fun _ _ h => h
  have hby₂ : (iupdate s₂ ip).fileByte ((iupdate s₂ ip).inode ip) = s₁.fileByte (s₁.inode ip) := by
    rw [fileByte_iupdate hl₂ hw₂]
    simp [s₂]
  have hsz₂ : ((iupdate s₂ ip).inode ip).size.toNat = max (s.inode ip).size.toNat (off.toNat + tot.toNat) := by
    simp [s₂, hsz]
  refine ⟨iupdate s₂ ip, tot.toNat, ?_, htn', hsz₂, hl₂.iupdate hw₂, hw₂.iupdate hl₂, ?_, ?_⟩
  · unfold writei
    rw [if_neg (by rw [gt_iff_lt, UInt32.lt_iff_toNat_lt, UInt32.lt_iff_toNat_lt, hsum]; omega),
      if_neg (by rw [hsum]; omega), hrun]
    simp only [bind, Except.bind, pure, Except.pure]
    rw [hs₂]
  · refine content_take_of_bytes (fun i hi => ?_) hoff' (by omega) (by omega)
    rw [hby₂]
    exact hwr.bytes i hi
  · rcases hend with ⟨hw₁, hstop⟩ | ⟨hlt, -, m, hm, hfail⟩
    · -- every copy succeeded: the whole file is as `Written` has it
      refine .inl ⟨?_, content_of_bytes (fun i => ?_) hoff' (by omega) hsz₂⟩
      · rcases hstop with h | ⟨h1, h2, h3⟩
        · exact .inl (by rw [h])
        · exact .inr ⟨h1, Full.iupdate hl₂ hw₂ fun b hb => h2 b hb, h3⟩
      · rw [hby₂]
        exact hw₁.bytes i
    · exact .inr ⟨UInt32.lt_iff_toNat_lt.1 hlt, m, hm, hfail⟩

/-- `writei` of `n` bytes of `src` at an offset `off` within a well-formed file, with
`off + n` within `MAXFILE` blocks: it returns the number `k` of bytes written, all `n`
unless `balloc` failed, in which case `k` ends at the start of a block the file did not
map before the write, and the disk is full; the size
becomes `max size (off + k)`, the file stays well formed, and `readi` of any `m` bytes
from any `o` then reads the slice `[o, o + m)` of the old contents with the `k` bytes laid
over them from `off`, and nothing past the size. -/
theorem writei_readi (hl : s.Layout) (hw : s.FileWF (s.inode ip)) {src : List UInt8}
    {off n : UInt32} (hoff : off ≤ (s.inode ip).size) (hmax : off.toNat + n.toNat ≤ MAXFILE * BSIZE)
    (hsrc : n.toNat ≤ src.length) :
    ∃ (s' : Fsys) (k : Nat), writei s ip (.kernel src) off n = .ok (s', (k : Int)) ∧ k ≤ n.toNat ∧
      (k = n.toNat ∨ (off.toNat + k) % BSIZE = 0 ∧ s'.Full ∧
        s.fileBlock (s.inode ip) ((off.toNat + k) / BSIZE) = 0) ∧
      (s'.inode ip).size.toNat = max (s.inode ip).size.toNat (off.toNat + k) ∧
      s'.Layout ∧ s'.FileWF (s'.inode ip) ∧
      (∀ o m : UInt32, o.toNat + m.toNat < 2 ^ 32 →
        readi s' ip (.kernel []) o m = .ok (s', .kernel ((((s.content ip).take off.toNat ++
          src.take k ++ (s.content ip).drop (off.toNat + k)).drop o.toNat).take m.toNat),
          ((((s.content ip).take off.toNat ++ src.take k ++
            (s.content ip).drop (off.toNat + k)).drop o.toNat).take m.toNat).length)) ∧
      ∀ o m : UInt32, (s'.inode ip).size < o →
        readi s' ip (.kernel []) o m = .ok (s', .kernel [], 0) := by
  obtain ⟨s', k, hrun, hk, hsz, hl', hw', -, hend⟩ :=
    writei_spec hl hw hoff hmax hsrc fun t m _ => CopyinSpec.kernel src t m
  obtain ⟨hstop, hc⟩ := hend.resolve_right fun ⟨_, m, _, hfail⟩ => by simp [eitherCopyin] at hfail
  refine ⟨s', k, hrun, hk, hstop, hsz, hl', hw', fun o m hom => ?_, fun o m ho => ?_⟩
  · rw [readi_spec hw' o m hom, hc]
  · unfold readi
    rw [if_pos (.inl ho)]

/-- A fresh disk with `mkfs`'s superblock, whose free map marks the metadata blocks in use,
and an empty regular file, inode `1`, held once in every entry of `itable`. -/
def fresh : Fsys := ⟨Mkfs.sb,
  fun b => if b = 45 then (fun i => if i.val < 6 then 255 else 0) else fun _ => 0,
  fun _ => { Inode.zero with inum := 1, ref := 1, valid := true, type := T_FILE, nlink := 1 }⟩

theorem fresh_layout : fresh.Layout := by
  have hn : fresh.nmeta = 46 := by decide
  refine ⟨by rw [hn]; decide, fun b hb => ?_, fun b hb => ?_, fun inum hi => ?_⟩
  · -- the free map marks blocks `0` to `47`
    rw [hn] at hb
    have hB : (BBLOCK b fresh.sb).toNat = 45 := by
      simp only [BBLOCK, UInt32.toNat_add, UInt32.toNat_div]
      have : (Mkfs.sb.bmapstart).toNat = 45 := by decide
      simp only [fresh, this]
      have : BPB.toUInt32.toNat = 8192 := by decide
      rw [this]; omega
    have hbits : ∀ k < 46, bitAt (fun i : Fin BSIZE => if i.val < 6 then (255 : UInt8) else 0) k =
        true := by decide +kernel
    simp only [bit, hB]
    exact hbits _ (by rw [BPB_eq]; omega)
  · have : (Mkfs.sb.bmapstart).toNat = 45 := by decide
    have h8 : BPB.toUInt32.toNat = 8192 := by decide
    have hs : (Mkfs.sb.size).toNat = 2000 := by decide
    rw [hn]
    simp only [fresh, BBLOCK, UInt32.toNat_add, UInt32.toNat_div, this, h8] at hb ⊢
    rw [hs] at hb
    omega
  · have : (Mkfs.sb.bmapstart).toNat = 45 := by decide
    have h16 : IPB.toUInt32.toNat = 16 := by decide
    have h200 : (Mkfs.sb.ninodes).toNat = 200 := by decide
    have hi' : inum.toNat < 200 := by
      rw [UInt32.lt_iff_toNat_lt] at hi; simpa [fresh, h200] using hi
    simp only [fresh, IBLOCK, UInt32.toNat_add, UInt32.toNat_div, this, h16]
    have : (Mkfs.sb.inodestart).toNat = 32 := by decide
    rw [this]; omega

theorem fresh_fileWF (ip : Fin NINODE) : fresh.FileWF (fresh.inode ip) := by
  rw [show fresh.inode ip = fresh.inode ⟨0, by decide⟩ from rfl]
  have hfb : ∀ f, fresh.fileBlock (fresh.inode ⟨0, by decide⟩) f = 0 := by
    intro f
    unfold fileBlock
    split <;> simp [fresh, Inode.zero]
  refine ⟨by decide, by decide, fun f hf => ?_, fun f h => absurd (hfb f) h, fun h => ?_,
    fun f _ h => absurd (hfb f) h, fun f h => absurd (hfb f) h⟩
  · simp [fresh, Inode.zero] at hf
  · simp [fresh, Inode.zero] at h

/-- Three bytes written to an empty file on a fresh disk with `mkfs`'s superblock, whose
free map marks the metadata blocks in use. -/
theorem writei_readi_fresh :
    let s : Fsys := ⟨Mkfs.sb,
      fun b => if b = 45 then (fun i => if i.val < 6 then 255 else 0) else fun _ => 0,
      fun _ => { Inode.zero with inum := 1, ref := 1, valid := true, type := T_FILE, nlink := 1 }⟩
    let ip : Fin NINODE := ⟨0, by decide⟩
    ∃ (s' : Fsys) (k : Nat), writei s ip (.kernel [1, 2, 3]) 0 3 = .ok (s', (k : Int)) ∧
      k ≤ (3 : UInt32).toNat ∧
      (k = (3 : UInt32).toNat ∨ ((0 : UInt32).toNat + k) % BSIZE = 0 ∧ s'.Full ∧
        s.fileBlock (s.inode ip) (((0 : UInt32).toNat + k) / BSIZE) = 0) ∧
      (s'.inode ip).size.toNat = max (s.inode ip).size.toNat ((0 : UInt32).toNat + k) ∧
      s'.Layout ∧ s'.FileWF (s'.inode ip) ∧
      (∀ o m : UInt32, o.toNat + m.toNat < 2 ^ 32 →
        readi s' ip (.kernel []) o m = .ok (s', .kernel ((((s.content ip).take (0 : UInt32).toNat ++
          [1, 2, 3].take k ++ (s.content ip).drop ((0 : UInt32).toNat + k)).drop o.toNat).take m.toNat),
          ((((s.content ip).take (0 : UInt32).toNat ++ [1, 2, 3].take k ++
            (s.content ip).drop ((0 : UInt32).toNat + k)).drop o.toNat).take m.toNat).length)) ∧
      ∀ o m : UInt32, (s'.inode ip).size < o →
        readi s' ip (.kernel []) o m = .ok (s', .kernel [], 0) := by
  intro s ip
  exact writei_readi fresh_layout (fresh_fileWF ip) (by decide) (by decide) (by decide)

/-- A file whose blocks `0` and `1` are the same disk block: every block below its size is
mapped to a nonzero block, yet the byte written at offset `0` shows up again at offset
`1024`, where the old contents held `0`. -/
theorem writei_aliased_blocks :
    let s : Fsys := ⟨Mkfs.sb, fun _ _ => 0, fun _ =>
      { Inode.zero with inum := 1, ref := 1, valid := true, type := T_FILE, nlink := 1,
                        size := 2048, addrs := fun i => if i.val < 2 then 50 else 0 }⟩
    let ip : Fin NINODE := ⟨0, by decide⟩
    (s.inode ip).size.toNat ≤ MAXFILE * BSIZE ∧
      (∀ f, f * BSIZE < (s.inode ip).size.toNat → s.fileBlock (s.inode ip) f ≠ 0) ∧
      (readi s ip (.kernel []) 1024 1).map (·.2.1.buf) = .ok [0] ∧
      ∃ s', writei s ip (.kernel [1]) 0 1 = .ok (s', 1) ∧
        (readi s' ip (.kernel []) 1024 1).map (·.2.1.buf) = .ok [1] := by
  intro s ip
  refine ⟨by decide, fun f hf => ?_, by decide +kernel, ?_⟩
  · have hf' : f < 2 := by
      have : (s.inode ip).size.toNat = 2048 := by decide
      rw [this, BSIZE_eq] at hf; omega
    rw [fileBlock_direct _ (by rw [NDIRECT_eq]; omega)]
    simp [s, hf']
  · -- the write and the read after it, computed once, by the kernel
    have h : (match writei s ip (.kernel [1]) 0 1 with
        | .ok (s', k) => (k, (readi s' ip (.kernel []) 1024 1).map (·.2.1.buf))
        | .error _ => (0, .ok [])) = (1, .ok [1]) := by
      decide +kernel
    generalize writei s ip (.kernel [1]) 0 1 = r at h ⊢
    rcases r with e | ⟨s', k⟩
    · simp at h
    · simp only [Prod.mk.injEq] at h
      exact ⟨s', by rw [h.1], h.2⟩

end Fsys

end Xv6
