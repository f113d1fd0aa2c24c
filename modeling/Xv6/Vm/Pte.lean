import Xv6.Lib.Bits
import Mathlib.Tactic.IntervalCases

/-!
# Sv39 page-table entries

`kernel/riscv.h`, lines 335-363: page sizes, PTE flags, and the macros that pack a
physical page number into a PTE, unpack it, and cut a virtual address into its three
9-bit indices.  The macros are kept on `UInt64` as the C computes them; each has a lemma
giving its value as arithmetic on `Nat` (`PX_toNat`, `PA2PTE_or_toNat`, `PTE2PA_toNat`,
...), from which the facts the page-table proofs use follow: a PTE built by `PA2PTE(pa) |
flags` gives back the rounded-down `pa` and `flags` (`PTE2PA_PA2PTE_or`,
`PTE_FLAGS_PA2PTE_or`), and the three indices of an address below `MAXVA` determine its
page (`vpn_eq_of_vidx`).
-/

namespace Xv6

/-- `PGSIZE`. -/
def PGSIZE : UInt64 := 4096

/-- `PGSHIFT`. -/
def PGSHIFT : UInt64 := 12

/-- `PGROUNDDOWN(a)`. -/
def PGROUNDDOWN (a : UInt64) : UInt64 := a &&& ~~~(PGSIZE - 1)

/-- `PTE_V`. -/
def PTE_V : UInt64 := (1 : UInt64) <<< 0
/-- `PTE_R`. -/
def PTE_R : UInt64 := (1 : UInt64) <<< 1
/-- `PTE_W`. -/
def PTE_W : UInt64 := (1 : UInt64) <<< 2
/-- `PTE_X`. -/
def PTE_X : UInt64 := (1 : UInt64) <<< 3
/-- `PTE_U`. -/
def PTE_U : UInt64 := (1 : UInt64) <<< 4

/-- `PA2PTE(pa)`. -/
def PA2PTE (pa : UInt64) : UInt64 := (pa >>> 12) <<< 10

/-- `PTE2PA(pte)`. -/
def PTE2PA (pte : UInt64) : UInt64 := (pte >>> 10) <<< 12

/-- `PTE_FLAGS(pte)`. -/
def PTE_FLAGS (pte : UInt64) : UInt64 := pte &&& 0x3FF

/-- `PXMASK`. -/
def PXMASK : UInt64 := 0x1FF

/-- `PXSHIFT(level)`. -/
def PXSHIFT (level : Nat) : UInt64 := PGSHIFT + 9 * level.toUInt64

/-- `PX(level, va)`. -/
def PX (level : Nat) (va : UInt64) : UInt64 := (va >>> PXSHIFT level) &&& PXMASK

/-- `MAXVA`. -/
def MAXVA : UInt64 := (1 : UInt64) <<< (9 + 9 + 9 + 12 - 1)

/-- The slot a 9-bit index names in a table page of 512 PTEs. -/
def pidx (x : UInt64) : Fin 512 := ⟨x.toNat % 512, Nat.mod_lt _ (by decide)⟩

/-- The index at `level` of virtual page number `vpn`. -/
def vidx (level vpn : Nat) : Fin 512 := ⟨vpn / 512 ^ level % 512, Nat.mod_lt _ (by decide)⟩

/-! ## The macros as arithmetic -/

theorem PGSIZE_toNat : PGSIZE.toNat = 4096 := rfl

theorem MAXVA_toNat : MAXVA.toNat = 2 ^ 38 := rfl

theorem PGROUNDDOWN_toNat (a : UInt64) : (PGROUNDDOWN a).toNat = a.toNat / 4096 * 4096 := by
  have h : (~~~(PGSIZE - 1)).toNat = 2 ^ 64 - 2 ^ 12 := by decide
  rw [PGROUNDDOWN, UInt64.toNat_and, h, Bits.and_two_pow_sub_two_pow a.toNat_lt (by decide)]
  rfl

theorem PX_toNat {level : Nat} (hl : level ≤ 2) (va : UInt64) :
    (PX level va).toNat = va.toNat / 2 ^ (12 + 9 * level) % 512 := by
  have hs : (PXSHIFT level).toNat % 64 = 12 + 9 * level := by
    interval_cases level <;> decide
  rw [PX, UInt64.toNat_and, UInt64.toNat_shiftRight, hs, Nat.shiftRight_eq_div_pow,
    show PXMASK.toNat = 2 ^ 9 - 1 from rfl, Nat.and_two_pow_sub_one_eq_mod]

theorem PA2PTE_toNat (pa : UInt64) : (PA2PTE pa).toNat = pa.toNat / 4096 * 1024 := by
  have ha := pa.toNat_lt
  rw [PA2PTE, UInt64.toNat_shiftLeft, UInt64.toNat_shiftRight]
  simp only [UInt64.toNat_ofNat, Nat.shiftRight_eq_div_pow, Nat.shiftLeft_eq]
  norm_num
  omega

theorem PTE2PA_toNat (pte : UInt64) : (PTE2PA pte).toNat = pte.toNat / 1024 * 4096 % 2 ^ 64 := by
  rw [PTE2PA, UInt64.toNat_shiftLeft, UInt64.toNat_shiftRight]
  simp only [UInt64.toNat_ofNat, Nat.shiftRight_eq_div_pow, Nat.shiftLeft_eq]

theorem PTE_FLAGS_toNat (pte : UInt64) : (PTE_FLAGS pte).toNat = pte.toNat % 1024 := by
  rw [PTE_FLAGS, UInt64.toNat_and, show (0x3FF : UInt64).toNat = 2 ^ 10 - 1 from rfl,
    Nat.and_two_pow_sub_one_eq_mod]

/-- `PA2PTE(pa) | f` for flags `f` below `2^10` packs the page number over the flags. -/
theorem PA2PTE_or_toNat (pa f : UInt64) (hf : f.toNat < 1024) :
    (PA2PTE pa ||| f).toNat = pa.toNat / 4096 * 1024 + f.toNat := by
  rw [UInt64.toNat_or, PA2PTE_toNat]
  exact Bits.mul_two_pow_or_of_lt (pa.toNat / 4096) (n := 10) hf

/-! ## Reading a packed PTE back -/

theorem PTE2PA_PA2PTE_or (pa f : UInt64) (hf : f.toNat < 1024) :
    PTE2PA (PA2PTE pa ||| f) = PGROUNDDOWN pa := by
  have ha := pa.toNat_lt
  apply UInt64.toNat_inj.1
  rw [PTE2PA_toNat, PA2PTE_or_toNat pa f hf, PGROUNDDOWN_toNat]
  omega

theorem PTE_FLAGS_PA2PTE_or (pa f : UInt64) (hf : f.toNat < 1024) :
    PTE_FLAGS (PA2PTE pa ||| f) = f := by
  apply UInt64.toNat_inj.1
  rw [PTE_FLAGS_toNat, PA2PTE_or_toNat pa f hf]
  omega

theorem PA2PTE_or_and (pa f m : UInt64) (hf : f.toNat < 1024) (hm : m.toNat < 1024) :
    (PA2PTE pa ||| f) &&& m = f &&& m := by
  apply UInt64.toNat_inj.1
  rw [UInt64.toNat_and, UInt64.toNat_and, PA2PTE_or_toNat pa f hf]
  exact Bits.mul_two_pow_add_and_of_lt (pa.toNat / 4096) (n := 10) hf hm

theorem PTE_FLAGS_and (pte m : UInt64) (hm : m.toNat < 1024) : PTE_FLAGS pte &&& m = pte &&& m := by
  apply UInt64.toNat_inj.1
  rw [UInt64.toNat_and, UInt64.toNat_and, PTE_FLAGS_toNat]
  exact Bits.mod_two_pow_and_of_lt pte.toNat (n := 10) hm

theorem PGROUNDDOWN_of_aligned {pa : UInt64} (h : pa.toNat % 4096 = 0) : PGROUNDDOWN pa = pa := by
  apply UInt64.toNat_inj.1
  rw [PGROUNDDOWN_toNat]
  omega

theorem PGROUNDDOWN_add_pages (pa : UInt64) (k : Nat) :
    PGROUNDDOWN (pa + k.toUInt64 * PGSIZE) = PGROUNDDOWN pa + k.toUInt64 * PGSIZE := by
  have ha := pa.toNat_lt
  apply UInt64.toNat_inj.1
  simp only [PGROUNDDOWN_toNat, UInt64.toNat_add, UInt64.toNat_mul, PGSIZE_toNat,
    Nat.toUInt64_eq]
  omega

/-! ## Indices of a virtual address -/

/-- The index `PX(level, va)` names is the level's digit of `va`'s page number. -/
theorem pidx_PX {level : Nat} (hl : level ≤ 2) (va : UInt64) :
    pidx (PX level va) = vidx level (va.toNat / 4096) := by
  apply Fin.ext
  simp only [pidx, vidx, PX_toNat hl, Nat.mod_mod]
  rw [Nat.div_div_eq_div_mul, Nat.pow_add, Nat.pow_mul]

theorem vpn_digits {vpn : Nat} (h : vpn < 2 ^ 27) :
    vpn = (vidx 2 vpn : Nat) * 262144 + (vidx 1 vpn : Nat) * 512 + vidx 0 vpn := by
  simp only [vidx]
  omega

theorem vpn_eq_of_vidx {vpn vpn' : Nat} (h : vpn < 2 ^ 27) (h' : vpn' < 2 ^ 27)
    (h2 : vidx 2 vpn = vidx 2 vpn') (h1 : vidx 1 vpn = vidx 1 vpn')
    (h0 : vidx 0 vpn = vidx 0 vpn') : vpn = vpn' := by
  rw [vpn_digits h, vpn_digits h', h2, h1, h0]

theorem vidx_digits (i j k : Fin 512) :
    (i : Nat) * 262144 + j * 512 + k < 2 ^ 27 ∧
      vidx 2 (i * 262144 + j * 512 + k) = i ∧ vidx 1 (i * 262144 + j * 512 + k) = j ∧
      vidx 0 (i * 262144 + j * 512 + k) = k := by
  have hi := i.isLt
  have hj := j.isLt
  have hk := k.isLt
  refine ⟨by omega, Fin.ext ?_, Fin.ext ?_, Fin.ext ?_⟩ <;> simp only [vidx] <;> omega

end Xv6
