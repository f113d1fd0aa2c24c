import Xv6.Vm.Walk
import Xv6.Vm.Refine
import Mathlib.Tactic.Ring
import Mathlib.Tactic.Positivity
import Mathlib.Tactic.Linarith

/-!
# Copying between the kernel and user memory

`kernel/vm.c` lines 348-439: `copyout`, `copyin` and `copyinstr`.  Each splits the user
range at page boundaries and asks `walkaddr` for the physical page of each piece: a page
below `MAXVA` whose level-0 PTE has `PTE_V` and `PTE_U`.  `walkaddr` returns `0` for a page
it refuses, so a page mapped to physical address `0` is refused too.

Physical memory is the words of `VM.mem`; a byte is byte `pa % 8` of its word,
little-endian (`VM.byte`, `VM.setByte`).  The kernel buffer is outside the model: `copyin`
and `copyinstr` return the bytes they write to `dst`, in order from `dst[0]`, and `copyout`
reads `src[k]` for each offset `k`.  Each loop runs for at most `len` (resp. `max`) passes,
which is its fuel.

`copyin_spec` and `copyinstr_spec` say exactly when each returns `0` and what it copies.
`copyout` checks `PTE_U` but not `PTE_W` (`copyout_ignores_PTE_W`).
-/

namespace Xv6

/-! ## Bytes of physical memory -/

/-- Byte `k` of a little-endian 64-bit word. -/
def wordByte (w : UInt64) (k : Nat) : UInt8 := (w.toNat / 256 ^ k % 256).toUInt8

/-- The word with byte `k` replaced by `b`. -/
def setWordByte (w : UInt64) (k : Nat) (b : UInt8) : UInt64 :=
  (w.toNat - w.toNat / 256 ^ k % 256 * 256 ^ k + b.toNat * 256 ^ k).toUInt64

/-- The byte at physical address `pa`. -/
def VM.byte (s : VM) (pa : UInt64) : UInt8 :=
  wordByte (s.mem (PGROUNDDOWN pa) (pidx (pa % PGSIZE / 8))) (pa % 8).toNat

/-- `*(char *)pa = b`. -/
def VM.setByte (s : VM) (pa : UInt64) (b : UInt8) : VM :=
  s.write (PGROUNDDOWN pa) (pidx (pa % PGSIZE / 8))
    (setWordByte (s.mem (PGROUNDDOWN pa) (pidx (pa % PGSIZE / 8))) (pa % 8).toNat b)

section Bytes

theorem split_digit (x p : Nat) :
    x = x / (p * 256) * (p * 256) + x / p % 256 * p + x % p := by
  have h1 := Nat.div_add_mod x p
  have h2 := Nat.div_add_mod (x / p) 256
  rw [Nat.div_div_eq_div_mul] at h2
  calc x = p * (x / p) + x % p := h1.symm
    _ = p * (256 * (x / (p * 256)) + x / p % 256) + x % p := by rw [h2]
    _ = _ := by ring

theorem digit_split {k j : Nat} (H c r : Nat) (hc : c < 256) (hr : r < 256 ^ k) :
    (H * (256 ^ k * 256) + c * 256 ^ k + r) / 256 ^ j % 256 =
      if j = k then c else if j < k then r / 256 ^ j % 256 else H / 256 ^ (j - k - 1) % 256 := by
  have hp : 0 < 256 ^ k := by positivity
  split
  · subst j
    have : H * (256 ^ k * 256) + c * 256 ^ k + r = r + (H * 256 + c) * 256 ^ k := by ring
    rw [this, Nat.add_mul_div_right _ _ hp, Nat.div_eq_of_lt hr, Nat.zero_add]
    omega
  · split
    · -- below: the digits from `k` up are a multiple of `256 ^ (j + 1)`
      have e : 256 ^ k = 256 ^ j * 256 * 256 ^ (k - j - 1) := by
        rw [← pow_succ, ← pow_add]
        congr 1
        omega
      have : H * (256 ^ k * 256) + c * 256 ^ k + r =
          r + (256 * ((H * 256 + c) * 256 ^ (k - j - 1))) * 256 ^ j := by
        rw [e]
        ring
      rw [this, Nat.add_mul_div_right _ _ (by positivity), Nat.add_mul_mod_self_left]
    · -- above: the digits below `k + 1` are less than `256 ^ (k + 1)`
      have e : 256 ^ j = 256 ^ k * 256 * 256 ^ (j - k - 1) := by
        rw [← pow_succ, ← pow_add]
        congr 1
        omega
      have hlow : c * 256 ^ k + r < 256 ^ k * 256 := by nlinarith
      rw [e, ← Nat.div_div_eq_div_mul, Nat.add_assoc, Nat.mul_comm H,
        Nat.mul_add_div (by positivity), Nat.div_eq_of_lt hlow, Nat.add_zero]

theorem wordByte_toNat (w : UInt64) (k : Nat) : (wordByte w k).toNat = w.toNat / 256 ^ k % 256 := by
  simp only [wordByte, Nat.toUInt8_eq, UInt8.toNat_ofNat']
  omega

theorem setWordByte_toNat (w : UInt64) {k : Nat} (hk : k < 8) (b : UInt8) :
    (setWordByte w k b).toNat =
      w.toNat / (256 ^ k * 256) * (256 ^ k * 256) + b.toNat * 256 ^ k + w.toNat % 256 ^ k := by
  have hw := w.toNat_lt
  have hb := b.toNat_lt
  have hs := split_digit w.toNat (256 ^ k)
  rw [setWordByte, Nat.toUInt64_eq, UInt64.toNat_ofNat']
  interval_cases k <;> omega

theorem wordByte_setWordByte (w : UInt64) {k : Nat} (hk : k < 8) (b : UInt8) (j : Nat) :
    wordByte (setWordByte w k b) j = if j = k then b else wordByte w j := by
  have hr : w.toNat % 256 ^ k < 256 ^ k := Nat.mod_lt _ (by positivity)
  have hq : w.toNat / 256 ^ k % 256 < 256 := Nat.mod_lt _ (by decide)
  apply UInt8.toNat_inj.1
  rw [wordByte_toNat, setWordByte_toNat w hk, digit_split _ _ _ b.toNat_lt hr]
  by_cases hjk : j = k
  · rw [if_pos hjk, if_pos hjk]
  · -- the other digits are those of `w`, split the same way
    have hold : (wordByte w j).toNat = (w.toNat / (256 ^ k * 256) * (256 ^ k * 256) +
        w.toNat / 256 ^ k % 256 * 256 ^ k + w.toNat % 256 ^ k) / 256 ^ j % 256 := by
      rw [wordByte_toNat, ← split_digit]
    rw [if_neg hjk, if_neg hjk, hold, digit_split _ _ _ hq hr, if_neg hjk]

theorem eq_of_byte_place {p q : UInt64} (hpg : PGROUNDDOWN q = PGROUNDDOWN p)
    (hw : pidx (q % PGSIZE / 8) = pidx (p % PGSIZE / 8)) (hb : q % 8 = p % 8) : q = p := by
  have h1 := congrArg UInt64.toNat hpg
  have h2 : (q % PGSIZE / 8).toNat % 512 = (p % PGSIZE / 8).toNat % 512 := congrArg Fin.val hw
  have h3 := congrArg UInt64.toNat hb
  simp only [PGROUNDDOWN_toNat, UInt64.toNat_div, UInt64.toNat_mod, PGSIZE_toNat,
    UInt64.reduceToNat] at h1 h2 h3
  apply UInt64.toNat_inj.1
  omega

end Bytes

/-! ## The copy loops -/

/-- The `n` bytes of physical memory from `pa` on. -/
def VM.bytes (s : VM) (pa : UInt64) (n : Nat) : List UInt8 :=
  (List.range n).map fun i => s.byte (pa + i.toUInt64)

/-- `memmove(pa, src + off, n)` into physical memory. -/
def VM.setBytes (s : VM) (pa : UInt64) (src : Nat → UInt8) (off : Nat) : Nat → VM
  | 0 => s
  | n + 1 => (s.setByte pa (src off)).setBytes (pa + 1) src (off + 1) n

/-- The loop of `copyout`, with `fuel` passes left: `len` bytes of `src` from `off` on, to
`dstva`. -/
def copyoutLoop (pt : UInt64) (src : Nat → UInt8) : Nat → VM → UInt64 → Nat → UInt64 → VM × Int
  | 0, s, _, _, _ => (s, 0)
  | fuel + 1, s, dstva, off, len =>
    if len = 0 then (s, 0)
    else
      let va0 := PGROUNDDOWN dstva
      let pa0 := walkaddr s pt va0
      if pa0 = 0 then (s, -1)
      else
        let n := if PGSIZE - (dstva - va0) > len then len else PGSIZE - (dstva - va0)
        let s := s.setBytes (pa0 + (dstva - va0)) src off n.toNat
        copyoutLoop pt src fuel s (va0 + PGSIZE) (off + n.toNat) (len - n)

/-- `copyout`: `len` bytes of `src` to `dstva`. -/
def copyout (s : VM) (pt dstva : UInt64) (src : Nat → UInt8) (len : UInt64) : VM × Int :=
  copyoutLoop pt src len.toNat s dstva 0 len

/-- The loop of `copyin`, with `fuel` passes left: the bytes it copies to `dst`, in order,
and its result. -/
def copyinLoop (s : VM) (pt : UInt64) : Nat → UInt64 → UInt64 → List UInt8 × Int
  | 0, _, _ => ([], 0)
  | fuel + 1, srcva, len =>
    if len = 0 then ([], 0)
    else
      let va0 := PGROUNDDOWN srcva
      let pa0 := walkaddr s pt va0
      if pa0 = 0 then ([], -1)
      else
        let n := if PGSIZE - (srcva - va0) > len then len else PGSIZE - (srcva - va0)
        let r := copyinLoop s pt fuel (va0 + PGSIZE) (len - n)
        (s.bytes (pa0 + (srcva - va0)) n.toNat ++ r.1, r.2)

/-- `copyin`: `len` bytes from `srcva`. -/
def copyin (s : VM) (pt srcva len : UInt64) : List UInt8 × Int :=
  copyinLoop s pt len.toNat srcva len

/-- The inner loop of `copyinstr` over `n` bytes of one page from physical `p`, with `max`
bytes left: the bytes it copies, whether it met a `0`, and `max` after. -/
def copyinstrScan (s : VM) : Nat → UInt64 → UInt64 → List UInt8 × Bool × UInt64
  | 0, _, max => ([], false, max)
  | n + 1, p, max =>
    if s.byte p = 0 then ([0], true, max)
    else
      let r := copyinstrScan s n (p + 1) (max - 1)
      (s.byte p :: r.1, r.2)

/-- The loop of `copyinstr`, with `fuel` passes left. -/
def copyinstrLoop (s : VM) (pt : UInt64) : Nat → UInt64 → UInt64 → List UInt8 × Int
  | 0, _, _ => ([], -1)
  | fuel + 1, srcva, max =>
    if max = 0 then ([], -1)
    else
      let va0 := PGROUNDDOWN srcva
      let pa0 := walkaddr s pt va0
      if pa0 = 0 then ([], -1)
      else
        let n := if PGSIZE - (srcva - va0) > max then max else PGSIZE - (srcva - va0)
        let r := copyinstrScan s n.toNat (pa0 + (srcva - va0)) max
        if r.2.1 then (r.1, 0)
        else
          let r' := copyinstrLoop s pt fuel (va0 + PGSIZE) r.2.2
          (r.1 ++ r'.1, r'.2)

/-- `copyinstr`: the string at `srcva`, at most `max` bytes with its `0`. -/
def copyinstr (s : VM) (pt srcva max : UInt64) : List UInt8 × Int :=
  copyinstrLoop s pt max.toNat srcva max

/-! ## The user range -/

/-- The page of `va` is one `walkaddr` gives: below `MAXVA`, with a valid level-0 PTE that
has `PTE_U`, mapping a physical page other than `0`. -/
def UserPage (s : VM) (pt va : UInt64) : Prop :=
  PGROUNDDOWN va < MAXVA ∧
    ∃ pa flags, absMap s.mem pt (va.toNat / 4096) = some (pa, flags) ∧ flags &&& PTE_U ≠ 0 ∧ pa ≠ 0

/-- Every byte of `[va, va + n)`, as numbers, lies below `MAXVA` in such a page. -/
def UserRange (s : VM) (pt va : UInt64) (n : Nat) : Prop :=
  ∀ k < n, va.toNat + k < MAXVA.toNat ∧ UserPage s pt (va + k.toUInt64)

/-- The byte at user address `va`. -/
def ubyte (s : VM) (pt va : UInt64) : UInt8 :=
  s.byte (walkaddr s pt (PGROUNDDOWN va) + (va - PGROUNDDOWN va))

/-- The `n` user bytes from `va` on. -/
def ubytes (s : VM) (pt va : UInt64) (n : Nat) : List UInt8 :=
  (List.range n).map fun k => ubyte s pt (va + k.toUInt64)

section Range

variable {s : VM} {pt : UInt64}

theorem toNat_add_toUInt64 {a : UInt64} {k : Nat} (h : a.toNat + k < 2 ^ 64) :
    (a + k.toUInt64).toNat = a.toNat + k := by
  simp only [UInt64.toNat_add, Nat.toUInt64_eq, UInt64.toNat_ofNat']
  omega

theorem off_toNat (va : UInt64) : (va - PGROUNDDOWN va).toNat = va.toNat % 4096 := by
  have h := PGROUNDDOWN_toNat va
  rw [UInt64.toNat_sub_of_le _ _ (UInt64.le_iff_toNat_le.2 (by omega)), h]
  omega

theorem vpn_PGROUNDDOWN (va : UInt64) : (PGROUNDDOWN va).toNat / 4096 = va.toNat / 4096 := by
  rw [PGROUNDDOWN_toNat]
  omega

theorem walkaddr_ne_zero_iff (va : UInt64) : walkaddr s pt (PGROUNDDOWN va) ≠ 0 ↔ UserPage s pt va := by
  rw [walkaddr_eq, vpn_PGROUNDDOWN, UserPage]
  by_cases hva : MAXVA ≤ PGROUNDDOWN va
  · rw [if_pos hva]
    exact iff_of_false (by simp) fun h => absurd h.1 (UInt64.not_lt.2 hva)
  · rw [if_neg hva]
    cases ha : absMap s.mem pt (va.toNat / 4096) with
    | none => simp
    | some e =>
      obtain ⟨pa, flags⟩ := e
      by_cases hu : flags &&& PTE_U = 0 <;> simp [hu, UInt64.not_le.1 hva]

theorem userPage_congr {a b : UInt64} (h : PGROUNDDOWN a = PGROUNDDOWN b) :
    UserPage s pt a ↔ UserPage s pt b := by
  have hv : a.toNat / 4096 = b.toNat / 4096 := by
    have := congrArg UInt64.toNat h
    rw [PGROUNDDOWN_toNat, PGROUNDDOWN_toNat] at this
    omega
  rw [UserPage, UserPage, h, hv]

theorem PGROUNDDOWN_add {va : UInt64} {k : Nat} (hk : va.toNat % 4096 + k < 4096) :
    PGROUNDDOWN (va + k.toUInt64) = PGROUNDDOWN va := by
  have hva := va.toNat_lt
  apply UInt64.toNat_inj.1
  rw [PGROUNDDOWN_toNat, PGROUNDDOWN_toNat, toNat_add_toUInt64 (by omega)]
  omega

theorem off_add {va : UInt64} {k : Nat} (hk : va.toNat % 4096 + k < 4096) :
    (va + k.toUInt64) - PGROUNDDOWN (va + k.toUInt64) = (va - PGROUNDDOWN va) + k.toUInt64 := by
  have hva := va.toNat_lt
  have hpg := PGROUNDDOWN_toNat va
  have hsum : (va + k.toUInt64).toNat = va.toNat + k := toNat_add_toUInt64 (by omega)
  rw [PGROUNDDOWN_add hk]
  apply UInt64.toNat_inj.1
  have hoff : ((va - PGROUNDDOWN va) + k.toUInt64).toNat = va.toNat % 4096 + k := by
    rw [toNat_add_toUInt64 (by rw [off_toNat]; omega), off_toNat]
  rw [UInt64.toNat_sub_of_le _ _ (UInt64.le_iff_toNat_le.2 (by omega)), hsum, hoff, hpg]
  omega

theorem next_page_add (va : UInt64) (j : Nat) :
    PGROUNDDOWN va + PGSIZE + j.toUInt64 = va + (4096 - va.toNat % 4096 + j).toUInt64 := by
  have hva := va.toNat_lt
  apply UInt64.toNat_inj.1
  simp only [UInt64.toNat_add, PGROUNDDOWN_toNat, PGSIZE_toNat, Nat.toUInt64_eq, UInt64.toNat_ofNat']
  omega

theorem pass_toNat (va len : UInt64) :
    (if PGSIZE - (va - PGROUNDDOWN va) > len then len else PGSIZE - (va - PGROUNDDOWN va)).toNat =
      min (4096 - va.toNat % 4096) len.toNat := by
  have ho := off_toNat va
  have hp : (PGSIZE - (va - PGROUNDDOWN va)).toNat = 4096 - va.toNat % 4096 := by
    rw [UInt64.toNat_sub_of_le _ _ (UInt64.le_iff_toNat_le.2 (by rw [ho, PGSIZE_toNat]; omega)),
      ho, PGSIZE_toNat]
  split
  · rename_i h
    have := UInt64.lt_iff_toNat_lt.1 h
    omega
  · rename_i h
    have := UInt64.not_lt.1 h
    have := UInt64.le_iff_toNat_le.1 this
    omega

theorem userRange_pass {va : UInt64} {len : Nat} (hlen : 0 < len) :
    UserRange s pt va len ↔ UserPage s pt va ∧
      UserRange s pt (PGROUNDDOWN va + PGSIZE) (len - min (4096 - va.toNat % 4096) len) := by
  have hva := va.toNat_lt
  have hpg := PGROUNDDOWN_toNat va
  constructor
  · intro h
    have hp : UserPage s pt va := by simpa using (h 0 hlen).2
    refine ⟨hp, fun k hk => ?_⟩
    have hkn := h (4096 - va.toNat % 4096 + k) (by omega)
    have hmax : (PGROUNDDOWN va).toNat + 4096 < 2 ^ 64 := by
      have := hkn.1
      rw [MAXVA_toNat] at this
      omega
    refine ⟨?_, by rw [next_page_add]; exact hkn.2⟩
    rw [UInt64.toNat_add, PGSIZE_toNat, Nat.mod_eq_of_lt hmax]
    have := hkn.1
    omega
  · rintro ⟨hp, hrest⟩ k hk
    have hmax : (PGROUNDDOWN va).toNat + 4096 ≤ MAXVA.toNat := by
      have := UInt64.lt_iff_toNat_lt.1 hp.1
      rw [MAXVA_toNat] at this ⊢
      omega
    by_cases hin : va.toNat % 4096 + k < 4096
    · -- in the first page
      exact ⟨by omega, (userPage_congr (PGROUNDDOWN_add hin)).2 hp⟩
    · -- in the rest, from the next page on
      have h' := hrest (k - (4096 - va.toNat % 4096)) (by omega)
      rw [next_page_add, show 4096 - va.toNat % 4096 + (k - (4096 - va.toNat % 4096)) = k by omega] at h'
      refine ⟨?_, h'.2⟩
      have := h'.1
      rw [UInt64.toNat_add, PGSIZE_toNat, Nat.mod_eq_of_lt (by rw [MAXVA_toNat] at hmax; omega)] at this
      omega

theorem ubyte_first {va : UInt64} {j : Nat} (hj : va.toNat % 4096 + j < 4096) :
    ubyte s pt (va + j.toUInt64) =
      s.byte (walkaddr s pt (PGROUNDDOWN va) + (va - PGROUNDDOWN va) + j.toUInt64) := by
  rw [ubyte, off_add hj, PGROUNDDOWN_add hj, UInt64.add_assoc]

@[simp] theorem length_ubytes (va : UInt64) (n : Nat) : (ubytes s pt va n).length = n := by
  simp [ubytes]

theorem ubytes_add (va : UInt64) (m n : Nat) :
    ubytes s pt va (m + n) = ubytes s pt va m ++ ubytes s pt (va + m.toUInt64) n := by
  simp only [ubytes, List.range_add, List.map_append, List.map_map]
  congr 1
  apply List.map_congr_left
  intro k _
  simp only [Function.comp_apply, Nat.toUInt64_eq, UInt64.ofNat_add, UInt64.add_assoc]

theorem take_ubytes (va : UInt64) {k n : Nat} (hk : k ≤ n) : (ubytes s pt va n).take k = ubytes s pt va k := by
  rw [show n = k + (n - k) by omega, ubytes_add, List.take_left' (length_ubytes va k)]

theorem ubytes_pass {va : UInt64} (len : Nat) :
    ubytes s pt va len =
      s.bytes (walkaddr s pt (PGROUNDDOWN va) + (va - PGROUNDDOWN va)) (min (4096 - va.toNat % 4096) len) ++
        ubytes s pt (PGROUNDDOWN va + PGSIZE) (len - min (4096 - va.toNat % 4096) len) := by
  generalize hn : min (4096 - va.toNat % 4096) len = n
  obtain ⟨m, rfl⟩ : ∃ m, len = n + m := ⟨len - n, by omega⟩
  rw [ubytes_add, Nat.add_sub_cancel_left]
  refine congrArg₂ (· ++ ·) ?_ ?_
  · -- the first page: its bytes from the offset of `va` on
    refine List.map_congr_left fun k hk => ?_
    have hin : va.toNat % 4096 + k < 4096 := by
      have := List.mem_range.1 hk
      omega
    exact ubyte_first hin
  · -- the rest starts on the next page whenever there is a rest
    rcases Nat.eq_zero_or_pos m with rfl | hm
    · simp [ubytes]
    · have e : PGROUNDDOWN va + PGSIZE = va + n.toUInt64 := by
        have := next_page_add va 0
        rw [show 4096 - va.toNat % 4096 + 0 = n by omega] at this
        simpa using this
      rw [e]

theorem userRange_first {va : UInt64} (hp : UserPage s pt va) {j : Nat} (hj : j ≤ 4096 - va.toNat % 4096) :
    UserRange s pt va j := by
  rcases Nat.eq_zero_or_pos j with rfl | hpos
  · exact fun k hk => absurd hk (by omega)
  · exact (userRange_pass hpos).2 ⟨hp, fun k hk => absurd hk (by omega)⟩

theorem ubytes_first {va : UInt64} {j : Nat} (hj : j ≤ 4096 - va.toNat % 4096) :
    ubytes s pt va j = s.bytes (walkaddr s pt (PGROUNDDOWN va) + (va - PGROUNDDOWN va)) j := by
  rw [ubytes_pass, Nat.min_eq_right hj, Nat.sub_self]
  simp [ubytes]

end Range

/-! ## `copyin` and `copyinstr` -/

section Copyin

variable (s : VM) (pt : UInt64)

theorem length_bytes (pa : UInt64) (n : Nat) : (s.bytes pa n).length = n := by
  simp [VM.bytes]

theorem len_toNat_pos {len : UInt64} (h0 : len ≠ 0) : 0 < len.toNat := by
  rcases Nat.eq_zero_or_pos len.toNat with h | h
  · exact absurd (UInt64.toNat_inj.1 (by simpa using h)) h0
  · exact h

theorem pass_facts {va len n : UInt64} (hlen : 0 < len.toNat)
    (hn : (if PGSIZE - (va - PGROUNDDOWN va) > len then len else PGSIZE - (va - PGROUNDDOWN va)) = n) :
    n.toNat = min (4096 - va.toNat % 4096) len.toNat ∧ 0 < n.toNat ∧
      (len - n).toNat = len.toNat - min (4096 - va.toNat % 4096) len.toNat := by
  have hnt : n.toNat = min (4096 - va.toNat % 4096) len.toNat := hn ▸ pass_toNat va len
  refine ⟨hnt, by omega, ?_⟩
  rw [UInt64.toNat_sub_of_le _ _ (UInt64.le_iff_toNat_le.2 (by omega)), hnt]

/-- `copyin`'s loop from `va`, with fuel for `len` passes: all of `[va, va + len)` in user
pages, and its bytes copied; or a page refused, `-1`, and at most `len` bytes copied. -/
theorem copyinLoop_spec (fuel : Nat) {va len : UInt64} (hf : len.toNat ≤ fuel) :
    (UserRange s pt va len.toNat ∧ copyinLoop s pt fuel va len = (ubytes s pt va len.toNat, 0)) ∨
    (¬UserRange s pt va len.toNat ∧ (copyinLoop s pt fuel va len).2 = -1 ∧
      (copyinLoop s pt fuel va len).1.length ≤ len.toNat) := by
  induction fuel generalizing va len with
  | zero =>
    have h0 : len.toNat = 0 := by omega
    exact .inl ⟨fun k hk => absurd hk (by omega), by simp [copyinLoop, ubytes, h0]⟩
  | succ fuel ih =>
    by_cases h0 : len = 0
    · subst h0
      exact .inl ⟨fun k hk => absurd hk (by simp at hk), by simp [copyinLoop, ubytes]⟩
    have hlen := len_toNat_pos h0
    rw [copyinLoop, if_neg h0]
    dsimp only
    by_cases hw : walkaddr s pt (PGROUNDDOWN va) = 0
    · -- the first page is refused
      rw [if_pos hw]
      exact .inr ⟨fun h => (walkaddr_ne_zero_iff va).2 ((userRange_pass hlen).1 h).1 hw, rfl, by simp⟩
    · -- the first page is copied, and the loop goes on from the next
      rw [if_neg hw]
      have hp := (walkaddr_ne_zero_iff va).1 hw
      generalize hn : (if PGSIZE - (va - PGROUNDDOWN va) > len then len
        else PGSIZE - (va - PGROUNDDOWN va)) = n
      obtain ⟨hnt, hpos, hrest⟩ := pass_facts hlen hn
      rcases @ih (PGROUNDDOWN va + PGSIZE) (len - n) (by omega) with ⟨hr, he⟩ | ⟨hr, he, hl⟩
      · refine .inl ⟨(userRange_pass hlen).2 ⟨hp, hrest ▸ hr⟩, ?_⟩
        rw [he, hnt, hrest, ← ubytes_pass]
      · refine .inr ⟨fun h => hr (hrest ▸ ((userRange_pass hlen).1 h).2), he, ?_⟩
        rw [List.length_append, length_bytes]
        omega

/-- The first `0` of the user string at `va` is at offset `k`, and the pages of its first
`k + 1` bytes are user pages. -/
def StrAt (va : UInt64) (k : Nat) : Prop :=
  UserRange s pt va (k + 1) ∧ ubyte s pt (va + k.toUInt64) = 0 ∧ ∀ j < k, ubyte s pt (va + j.toUInt64) ≠ 0

theorem add_one_add_toUInt64 (p : UInt64) (j : Nat) : p + 1 + j.toUInt64 = p + (j + 1).toUInt64 := by
  apply UInt64.toNat_inj.1
  simp only [UInt64.toNat_add, Nat.toUInt64_eq, UInt64.toNat_ofNat', UInt64.toNat_one]
  omega

theorem sub_one_sub_toUInt64 (m : UInt64) (j : Nat) : m - 1 - j.toUInt64 = m - (j + 1).toUInt64 := by
  have := m.toNat_lt
  apply UInt64.toNat_inj.1
  simp only [UInt64.toNat_sub, Nat.toUInt64_eq, UInt64.toNat_ofNat', UInt64.toNat_one]
  omega

theorem bytes_succ (p : UInt64) (n : Nat) : s.bytes p (n + 1) = s.byte p :: s.bytes (p + 1) n := by
  simp only [VM.bytes, List.range_succ_eq_map, List.map_cons, List.map_map]
  congr 1
  · simp
  · refine List.map_congr_left fun k _ => ?_
    rw [Function.comp_apply, Nat.succ_eq_add_one, add_one_add_toUInt64]

/-- The inner loop of `copyinstr` over `n ≤ max` bytes from physical `p`: it stops at the
first `0`, copying it, or copies all `n`. -/
theorem copyinstrScan_spec (n : Nat) (p max : UInt64) (hn : n ≤ max.toNat) :
    (∃ i < n, s.byte (p + i.toUInt64) = 0 ∧ (∀ j < i, s.byte (p + j.toUInt64) ≠ 0) ∧
      copyinstrScan s n p max = (s.bytes p (i + 1), true, max - i.toUInt64)) ∨
    ((∀ j < n, s.byte (p + j.toUInt64) ≠ 0) ∧
      copyinstrScan s n p max = (s.bytes p n, false, max - n.toUInt64)) := by
  induction n generalizing p max with
  | zero => exact .inr ⟨fun j hj => absurd hj (by omega), by simp [copyinstrScan, VM.bytes]⟩
  | succ n ih =>
    rw [copyinstrScan]
    by_cases h0 : s.byte p = 0
    · -- a `0` here ends the scan
      refine .inl ⟨0, by omega, by simpa using h0, fun j hj => absurd hj (by omega), ?_⟩
      rw [if_pos h0]
      simp [VM.bytes, h0]
    · rw [if_neg h0]
      -- the byte at `j + 1` from `p` is the byte at `j` from `p + 1`
      have hshift : ∀ j : Nat, s.byte (p + (j + 1).toUInt64) = s.byte (p + 1 + j.toUInt64) := fun j => by
        rw [add_one_add_toUInt64]
      have hbefore : ∀ i, (∀ j < i, s.byte (p + 1 + j.toUInt64) ≠ 0) →
          ∀ j < i + 1, s.byte (p + j.toUInt64) ≠ 0 := fun i h j hj => by
        rcases j with _ | j
        · simpa using h0
        · rw [hshift]
          exact h j (by omega)
      rcases ih (p + 1) (max - 1) (by rw [UInt64.toNat_sub_of_le _ _ (UInt64.le_iff_toNat_le.2 (by simp; omega))]; simp; omega)
        with ⟨i, hi, hz, hnz, he⟩ | ⟨hnz, he⟩
      · refine .inl ⟨i + 1, by omega, by rw [hshift]; exact hz, hbefore i hnz, ?_⟩
        simp only [he, bytes_succ _ p (i + 1), sub_one_sub_toUInt64]
      · refine .inr ⟨hbefore n hnz, ?_⟩
        simp only [he, bytes_succ _ p n, sub_one_sub_toUInt64]

/-- A string whose first `0` lies past the first page of `va`: the first page is a user
page without a `0`, and the string goes on from the next page. -/
theorem strAt_next {va : UInt64} {k : Nat} :
    StrAt s pt va (4096 - va.toNat % 4096 + k) ↔ UserPage s pt va ∧
      (∀ j < 4096 - va.toNat % 4096, ubyte s pt (va + j.toUInt64) ≠ 0) ∧
      StrAt s pt (PGROUNDDOWN va + PGSIZE) k := by
  have hmin : min (4096 - va.toNat % 4096) (4096 - va.toNat % 4096 + k + 1) = 4096 - va.toNat % 4096 :=
    Nat.min_eq_left (by omega)
  rw [StrAt, StrAt, userRange_pass (by omega), hmin,
    show 4096 - va.toNat % 4096 + k + 1 - (4096 - va.toNat % 4096) = k + 1 by omega, ← next_page_add]
  constructor
  · rintro ⟨⟨hp, hr⟩, hz, hnz⟩
    refine ⟨hp, fun j hj => hnz j (by omega), hr, hz, fun j hj => ?_⟩
    rw [next_page_add]
    exact hnz _ (by omega)
  · rintro ⟨hp, hfirst, hr, hz, hnz⟩
    refine ⟨⟨hp, hr⟩, hz, fun j hj => ?_⟩
    by_cases hjn : j < 4096 - va.toNat % 4096
    · exact hfirst j hjn
    · have := hnz (j - (4096 - va.toNat % 4096)) (by omega)
      rwa [next_page_add, show 4096 - va.toNat % 4096 + (j - (4096 - va.toNat % 4096)) = j by omega] at this

/-- `copyinstr`'s loop from `va`, with fuel for `max` passes: a first `0` at some offset
`k < max` in user pages, and the `k + 1` bytes up to it copied; or none such, `-1`, and at
most `max` bytes copied. -/
theorem copyinstrLoop_spec (fuel : Nat) {va max : UInt64} (hf : max.toNat ≤ fuel) :
    (∃ k < max.toNat, StrAt s pt va k ∧ copyinstrLoop s pt fuel va max = (ubytes s pt va (k + 1), 0)) ∨
    ((¬∃ k < max.toNat, StrAt s pt va k) ∧ (copyinstrLoop s pt fuel va max).2 = -1 ∧
      (copyinstrLoop s pt fuel va max).1.length ≤ max.toNat) := by
  induction fuel generalizing va max with
  | zero =>
    exact .inr ⟨fun ⟨k, hk, _⟩ => absurd hk (by omega), rfl, by simp [copyinstrLoop]⟩
  | succ fuel ih =>
    by_cases h0 : max = 0
    · subst h0
      exact .inr ⟨fun ⟨k, hk, _⟩ => absurd hk (by simp), by simp [copyinstrLoop], by simp [copyinstrLoop]⟩
    have hmax : 0 < max.toNat := by
      rcases Nat.eq_zero_or_pos max.toNat with h | h
      · exact absurd (UInt64.toNat_inj.1 (by simpa using h)) h0
      · exact h
    rw [copyinstrLoop, if_neg h0]
    dsimp only
    by_cases hw : walkaddr s pt (PGROUNDDOWN va) = 0
    · -- the first page is refused
      rw [if_pos hw]
      refine .inr ⟨fun ⟨k, _, hs⟩ => (walkaddr_ne_zero_iff va).2 ?_ hw, rfl, by simp⟩
      simpa using (hs.1 0 (by omega)).2
    · rw [if_neg hw]
      have hp := (walkaddr_ne_zero_iff va).1 hw
      generalize hn : (if PGSIZE - (va - PGROUNDDOWN va) > max then max
        else PGSIZE - (va - PGROUNDDOWN va)) = n
      obtain ⟨hnt, hpos, hrest⟩ := pass_facts hmax hn
      have hpage : ∀ j < n.toNat, ubyte s pt (va + j.toUInt64) =
          s.byte (walkaddr s pt (PGROUNDDOWN va) + (va - PGROUNDDOWN va) + j.toUInt64) :=
        fun j hj => ubyte_first (by omega)
      rcases copyinstrScan_spec s n.toNat _ max (by omega) with ⟨i, hi, hz, hnz, he⟩ | ⟨hnz, he⟩
      · -- the first `0` is on this page
        rw [he, if_pos rfl]
        refine .inl ⟨i, by omega, ⟨userRange_first hp (by omega), by rw [hpage i hi]; exact hz,
          fun j hj => by rw [hpage j (by omega)]; exact hnz j hj⟩, ?_⟩
        rw [ubytes_first (by omega)]
      · -- no `0` on this page: the loop goes on from the next with what is left of `max`
        have hmn : max - n.toNat.toUInt64 = max - n := by rw [Nat.toUInt64_eq, UInt64.ofNat_toNat]
        rw [he, if_neg (by simp), hmn]
        dsimp only
        have hfirst : ∀ j < n.toNat, ubyte s pt (va + j.toUInt64) ≠ 0 := fun j hj => by
          rw [hpage j hj]
          exact hnz j hj
        rcases @ih (PGROUNDDOWN va + PGSIZE) (max - n) (by omega) with
          ⟨k, hk, hs, he'⟩ | ⟨hno, he', hl⟩
        · -- `max` was not used up, so the page was
          have hfull : n.toNat = 4096 - va.toNat % 4096 := by omega
          refine .inl ⟨n.toNat + k, by omega, ?_, ?_⟩
          · rw [hfull]
            exact (strAt_next s pt).2 ⟨hp, hfull ▸ hfirst, hs⟩
          · rw [he', hfull, @ubytes_pass s pt va _, Nat.min_eq_left (by omega),
              show 4096 - va.toNat % 4096 + k + 1 - (4096 - va.toNat % 4096) = k + 1 by omega]
        · refine .inr ⟨fun ⟨k, hk, hs⟩ => ?_, he', by rw [List.length_append, length_bytes]; omega⟩
          by_cases hkn : k < n.toNat
          · exact hfirst k hkn hs.2.1
          · -- past this page: the string goes on from the next
            have hfull : n.toNat = 4096 - va.toNat % 4096 := by omega
            rw [show k = 4096 - va.toNat % 4096 + (k - n.toNat) by omega] at hs
            exact hno ⟨k - n.toNat, by omega, ((strAt_next s pt).1 hs).2.2⟩

theorem strAt_unique {va : UInt64} {k k' : Nat} (h : StrAt s pt va k) (h' : StrAt s pt va k') : k = k' := by
  rcases Nat.lt_trichotomy k k' with hlt | heq | hgt
  · exact absurd h.2.1 (h'.2.2 k hlt)
  · exact heq
  · exact absurd h'.2.1 (h.2.2 k' hgt)

/-- `copyin` returns `0` exactly on a range of user pages, and then copies its bytes; it
never copies more than `len` bytes. -/
theorem copyin_spec (srcva len : UInt64) :
    ((copyin s pt srcva len).2 = 0 ↔ UserRange s pt srcva len.toNat) ∧
    (UserRange s pt srcva len.toNat → (copyin s pt srcva len).1 = ubytes s pt srcva len.toNat) ∧
    (copyin s pt srcva len).1.length ≤ len.toNat := by
  rw [copyin]
  rcases @copyinLoop_spec s pt len.toNat srcva len le_rfl with ⟨hr, he⟩ | ⟨hr, he, hl⟩
  · rw [he]
    exact ⟨iff_of_true rfl hr, fun _ => rfl, by simp [ubytes]⟩
  · exact ⟨iff_of_false (by rw [he]; decide) hr, fun h => absurd h hr, hl⟩

theorem copyin_one (va : UInt64) : (copyin s pt va 1).2 = -1 ∨ copyin s pt va 1 = ([ubyte s pt va], 0) := by
  rw [copyin]
  rcases @copyinLoop_spec s pt (1 : UInt64).toNat va 1 le_rfl with ⟨-, he⟩ | ⟨-, he, -⟩
  · right
    rw [he]
    simp [ubytes]
  · exact .inl he

/-- `copyinstr` returns `0` exactly when a first `0` lies within `max` bytes of `srcva`, with
the pages up to it user pages, and then copies the bytes up to it; it never copies more
than `max` bytes. -/
theorem copyinstr_spec (srcva max : UInt64) :
    ((copyinstr s pt srcva max).2 = 0 ↔ ∃ k < max.toNat, StrAt s pt srcva k) ∧
    (∀ k < max.toNat, StrAt s pt srcva k → (copyinstr s pt srcva max).1 = ubytes s pt srcva (k + 1)) ∧
    (copyinstr s pt srcva max).1.length ≤ max.toNat := by
  rw [copyinstr]
  rcases @copyinstrLoop_spec s pt max.toNat srcva max le_rfl with
    ⟨k, hk, hs, he⟩ | ⟨hno, he, hl⟩
  · rw [he]
    refine ⟨iff_of_true rfl ⟨k, hk, hs⟩, fun k' _ hs' => by rw [strAt_unique s pt hs hs'], ?_⟩
    simp [ubytes]
    omega
  · exact ⟨iff_of_false (by rw [he]; decide) hno, fun k hk hs => absurd ⟨k, hk, hs⟩ hno, hl⟩

end Copyin

/-! ## `copyout` -/

/-- No user page of `pt` has one of `pt`'s table pages for its frame, so that a write into
user memory leaves the translation as it is. -/
def FramesApart (s : VM) (pt : UInt64) : Prop :=
  ∀ v pa fl pre c, absMap s.mem pt v = some (pa, fl) → pre.length ≤ 2 → pageAt s.mem pt pre = some c →
    pa ≠ c

section Copyout

variable {s : VM} {pt : UInt64}

theorem VM.setBytes_mem {pa q : UInt64} {src : Nat → UInt8} {off n : Nat}
    (hq : ∀ i < n, PGROUNDDOWN (pa + i.toUInt64) ≠ q) : (s.setBytes pa src off n).mem q = s.mem q := by
  induction n generalizing s pa off with
  | zero => rfl
  | succ n ih =>
    rw [VM.setBytes, ih fun i hi => by rw [add_one_add_toUInt64]; exact hq (i + 1) (by omega)]
    exact VM.write_mem_ne _ _ _ fun h => hq 0 (by omega) (by simpa using h.symm)

theorem absMap_frame_aligned {v : Nat} {pa fl : UInt64} (h : absMap s.mem pt v = some (pa, fl)) :
    pa.toNat % 4096 = 0 := by
  unfold absMap at h
  split at h
  · obtain ⟨e, -, he⟩ := Option.map_eq_some_iff.1 h
    cases he
    rw [PTE2PA_toNat]
    omega
  · cases h

theorem PGROUNDDOWN_frame_add {pa o : UInt64} {i : Nat} (hpa : pa.toNat % 4096 = 0)
    (hi : o.toNat + i < 4096) : PGROUNDDOWN (pa + o + i.toUInt64) = pa := by
  have := pa.toNat_lt
  apply UInt64.toNat_inj.1
  simp only [PGROUNDDOWN_toNat, UInt64.toNat_add, Nat.toUInt64_eq, UInt64.toNat_ofNat']
  omega

theorem walkaddr_of_entry {va pa fl : UInt64} (hva : PGROUNDDOWN va < MAXVA)
    (ha : absMap s.mem pt (va.toNat / 4096) = some (pa, fl)) (hu : fl &&& PTE_U ≠ 0) :
    walkaddr s pt (PGROUNDDOWN va) = pa := by
  rw [walkaddr_eq, if_neg (UInt64.not_le.2 hva), vpn_PGROUNDDOWN, ha]
  exact if_neg hu

theorem tables_setBytes (hsep : FramesApart s pt) {v : Nat} {pa fl o : UInt64} {src : Nat → UInt8}
    {off n : Nat} (ha : absMap s.mem pt v = some (pa, fl)) (hn : o.toNat + n ≤ 4096) :
    ∀ pre c, pre.length ≤ 2 → pageAt s.mem pt pre = some c →
      (s.setBytes (pa + o) src off n).mem c = s.mem c := fun pre c hl hc =>
  VM.setBytes_mem fun i hi => by
    rw [PGROUNDDOWN_frame_add (absMap_frame_aligned ha) (by omega)]
    exact hsep v pa fl pre c ha hl hc

theorem absMap_setBytes (hsep : FramesApart s pt) {v : Nat} {pa fl o : UInt64} {src : Nat → UInt8}
    {off n : Nat} (ha : absMap s.mem pt v = some (pa, fl)) (hn : o.toNat + n ≤ 4096) :
    absMap (s.setBytes (pa + o) src off n).mem pt = absMap s.mem pt :=
  absMap_of_agree (tables_setBytes hsep ha hn)

theorem FramesApart.setBytes (hsep : FramesApart s pt) {v : Nat} {pa fl o : UInt64}
    {src : Nat → UInt8} {off n : Nat} (ha : absMap s.mem pt v = some (pa, fl)) (hn : o.toNat + n ≤ 4096) :
    FramesApart (s.setBytes (pa + o) src off n) pt := by
  intro v' pa' fl' pre c ha' hl hc
  rw [absMap_setBytes hsep ha hn] at ha'
  rw [pageAt_of_agree (fun pre c hl hc => tables_setBytes hsep ha hn pre c (Nat.le_of_lt hl) hc) pre hl] at hc
  exact hsep v' pa' fl' pre c ha' hl hc

theorem userRange_of_absMap {s' : VM} (h : absMap s'.mem pt = absMap s.mem pt) (va : UInt64) (n : Nat) :
    UserRange s' pt va n ↔ UserRange s pt va n := by
  simp only [UserRange, UserPage, h]

/-- `copyout`'s loop from `dstva`, with fuel for `len` passes, on a table none of whose user
frames is a table page: it returns `0` exactly when all of `[dstva, dstva + len)` lies in
user pages. -/
theorem copyoutLoop_ret (src : Nat → UInt8) (fuel : Nat) {dstva : UInt64} {off : Nat} {len : UInt64}
    (hsep : FramesApart s pt) (hf : len.toNat ≤ fuel) :
    (copyoutLoop pt src fuel s dstva off len).2 = 0 ↔ UserRange s pt dstva len.toNat := by
  induction fuel generalizing s dstva off len with
  | zero =>
    have h0 : len.toNat = 0 := by omega
    rw [h0]
    exact iff_of_true rfl fun k hk => absurd hk (by omega)
  | succ fuel ih =>
    by_cases h0 : len = 0
    · subst h0
      exact iff_of_true (by simp [copyoutLoop]) fun k hk => absurd hk (by simp at hk)
    have hlen := len_toNat_pos h0
    rw [copyoutLoop, if_neg h0]
    dsimp only
    by_cases hw : walkaddr s pt (PGROUNDDOWN dstva) = 0
    · -- the first page is refused
      rw [if_pos hw]
      exact iff_of_false (by simp) fun h => (walkaddr_ne_zero_iff dstva).2 ((userRange_pass hlen).1 h).1 hw
    · -- the first page is written, and the loop goes on from the next with the same map
      rw [if_neg hw]
      have hp := (walkaddr_ne_zero_iff dstva).1 hw
      obtain ⟨hva, pa, fl, ha, hu, -⟩ := hp
      generalize hn : (if PGSIZE - (dstva - PGROUNDDOWN dstva) > len then len
        else PGSIZE - (dstva - PGROUNDDOWN dstva)) = n
      obtain ⟨hnt, hpos, hrest⟩ := pass_facts hlen hn
      have hfit : (dstva - PGROUNDDOWN dstva).toNat + n.toNat ≤ 4096 := by
        rw [off_toNat]
        omega
      rw [walkaddr_of_entry hva ha hu, ih (hsep.setBytes ha hfit) (by omega),
        userRange_of_absMap (absMap_setBytes hsep ha hfit), hrest, userRange_pass hlen]
      exact ⟨fun h => ⟨(walkaddr_ne_zero_iff dstva).1 hw, h⟩, fun h => h.2⟩

/-- `copyout` on a table none of whose user frames is a table page returns `0` exactly when
`[dstva, dstva + len)` lies in user pages: whether they have `PTE_W` plays no part. -/
theorem copyout_ignores_PTE_W (src : Nat → UInt8) (hsep : FramesApart s pt) (dstva len : UInt64) :
    (copyout s pt dstva src len).2 = 0 ↔ UserRange s pt dstva len.toNat :=
  copyoutLoop_ret src len.toNat hsep le_rfl

end Copyout

/-! ## What the copies check -/

/-- `copyin` and `copyinstr` check a user range exactly, for every page table and every
`srcva`, `len` and `max`: each returns `0` just when its bytes lie in user pages (and, for
`copyinstr`, end in a `0` within `max`), copies exactly those bytes then, and never copies
more than it was asked for. -/
theorem copy_user_ranges_exact (s : VM) (pt srcva len max : UInt64) :
    (((copyin s pt srcva len).2 = 0 ↔ UserRange s pt srcva len.toNat) ∧
      (UserRange s pt srcva len.toNat → (copyin s pt srcva len).1 = ubytes s pt srcva len.toNat) ∧
      (copyin s pt srcva len).1.length ≤ len.toNat) ∧
    (((copyinstr s pt srcva max).2 = 0 ↔ ∃ k < max.toNat, StrAt s pt srcva k) ∧
      (∀ k < max.toNat, StrAt s pt srcva k → (copyinstr s pt srcva max).1 = ubytes s pt srcva (k + 1)) ∧
      (copyinstr s pt srcva max).1.length ≤ max.toNat) :=
  ⟨copyin_spec s pt srcva len, copyinstr_spec s pt srcva max⟩

/-- Page `0` of a fresh table mapped read-only for the user: a range inside it is copied,
one that runs into page `1` is not. -/
theorem copy_user_ranges_exact_fresh :
    ∃ s p s1, uvmcreate ⟨fun _ _ => 0, [0x80001000, 0x80002000, 0x80003000], 0x80000000⟩ = (s, p) ∧
      mappages s p 0 PGSIZE 0x80004000 (PTE_R ||| PTE_U) = .ok (s1, 0) ∧
      UserRange s1 p 4000 96 ∧ (copyin s1 p 4000 96).1 = ubytes s1 p 4000 96 ∧
      ¬UserRange s1 p 4095 2 := by
  refine ⟨_, _, _, rfl, rfl, ?_, ?_, ?_⟩
  -- the state is evaluated; each fact is read off a return value
  · exact (copy_user_ranges_exact _ _ 4000 96 0).1.1.1 (by decide)
  · exact (copy_user_ranges_exact _ _ 4000 96 0).1.2.1 ((copy_user_ranges_exact _ _ 4000 96 0).1.1.1 (by decide))
  · exact fun h => absurd ((copy_user_ranges_exact _ _ 4095 2 0).1.1.2 h) (by decide)

/-- A user page mapped to physical address `0`, with `PTE_V`, `PTE_R` and `PTE_U`: its first
byte is `0`, yet `copyin` and `copyinstr` refuse it, since `walkaddr` answers `0` for it. -/
theorem copyin_refuses_frame_zero :
    ∃ s p s1, uvmcreate ⟨fun _ _ => 0, [0x80001000, 0x80002000, 0x80003000], 0x80000000⟩ = (s, p) ∧
      mappages s p 0 PGSIZE 0 (PTE_R ||| PTE_U) = .ok (s1, 0) ∧
      absMap s1.mem p 0 = some (0, PTE_R ||| PTE_U ||| PTE_V) ∧ s1.byte 0 = 0 ∧
      copyin s1 p 0 1 = ([], -1) ∧ copyinstr s1 p 0 1 = ([], -1) :=
  ⟨_, _, _, rfl, rfl, by decide, by decide, rfl, rfl⟩

/-- `copyout` into page `0` of a fresh table, mapped for the user without `PTE_W`: it
returns `0` and the byte has changed. -/
theorem copyout_writes_readonly_page :
    ∃ s p s1, uvmcreate ⟨fun _ _ => 0, [0x80001000, 0x80002000, 0x80003000], 0x80000000⟩ = (s, p) ∧
      mappages s p 0 PGSIZE 0x80004000 (PTE_R ||| PTE_U) = .ok (s1, 0) ∧
      absMap s1.mem p 0 = some (0x80004000, PTE_R ||| PTE_U ||| PTE_V) ∧ ubyte s1 p 0 = 0 ∧
      (copyout s1 p 0 (fun _ => 7) 1).2 = 0 ∧ ubyte (copyout s1 p 0 (fun _ => 7) 1).1 p 0 = 7 :=
  ⟨_, _, _, rfl, rfl, by decide, by decide, by decide, by decide⟩

end Xv6
