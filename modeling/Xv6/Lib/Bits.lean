import Mathlib.Data.Nat.Bitwise

/-!
# Fields of a machine word

A word packs a value shifted left by `n` over an `n`-bit field.  Reading the packed
word back with masks and shifts is arithmetic on `Nat`: clearing the low bits rounds down
(`and_two_pow_sub_two_pow`), oring a small field under a shifted value adds it
(`mul_two_pow_or_of_lt`), and masking a packed word with a mask of the field's width sees
only the field (`mul_two_pow_add_and_of_lt`, `mod_two_pow_and_of_lt`).  All are proved bit
by bit with `Nat.eq_of_testBit_eq`.

A count stored in an `int` is the count mod `2^32`: counts below `2^32` stay apart
(`int32_ofNat_inj`), and those below `2^31` stay positive (`int32_ofNat_pos`).
-/

namespace Bits

/-- Clearing the low `n` bits of a `w`-bit word rounds it down to a multiple of `2^n`. -/
theorem and_two_pow_sub_two_pow {x w n : Nat} (hx : x < 2 ^ w) (hn : n ≤ w) :
    x &&& (2 ^ w - 2 ^ n) = x / 2 ^ n * 2 ^ n := by
  apply Nat.eq_of_testBit_eq
  intro i
  have hm : 2 ^ w - 2 ^ n = (2 ^ (w - n) - 1) * 2 ^ n := by
    rw [Nat.sub_mul, Nat.one_mul, ← Nat.pow_add, Nat.sub_add_cancel hn]
  rw [Nat.testBit_and, hm, Nat.testBit_mul_two_pow, Nat.testBit_mul_two_pow,
    Nat.testBit_two_pow_sub_one, Nat.testBit_div_two_pow]
  by_cases h1 : n ≤ i
  · have e : i - n + n = i := Nat.sub_add_cancel h1
    by_cases h2 : i < w
    · simp [h1, e, show i - n < w - n by omega]
    · -- above the word, `x` has no bits
      have hx' : x.testBit i = false :=
        Nat.testBit_lt_two_pow (Nat.lt_of_lt_of_le hx (Nat.pow_le_pow_right (by decide) (by omega)))
      simp [h1, e, hx']
  · simp [h1]

/-- A field below `2^n` ored under a value shifted left by `n` is added to it. -/
theorem mul_two_pow_or_of_lt (a : Nat) {b n : Nat} (hb : b < 2 ^ n) :
    a * 2 ^ n ||| b = a * 2 ^ n + b := by
  rw [← Nat.shiftLeft_eq, Nat.shiftLeft_add_eq_or_of_lt hb]

/-- A mask of the field's width sees only the field of a packed word. -/
theorem mul_two_pow_add_and_of_lt (a : Nat) {b m n : Nat} (hb : b < 2 ^ n) (hm : m < 2 ^ n) :
    (a * 2 ^ n + b) &&& m = b &&& m := by
  apply Nat.eq_of_testBit_eq
  intro i
  rw [Nat.testBit_and, Nat.testBit_and, Nat.mul_comm, Nat.testBit_two_pow_mul_add a hb]
  by_cases hi : i < n
  · simp [hi]
  · have : m.testBit i = false :=
      Nat.testBit_lt_two_pow (Nat.lt_of_lt_of_le hm (Nat.pow_le_pow_right (by decide) (by omega)))
    simp [this]

/-- ... and so does the same mask on the field alone. -/
theorem mod_two_pow_and_of_lt (x : Nat) {m n : Nat} (hm : m < 2 ^ n) :
    (x % 2 ^ n) &&& m = x &&& m := by
  apply Nat.eq_of_testBit_eq
  intro i
  rw [Nat.testBit_and, Nat.testBit_and, Nat.testBit_mod_two_pow]
  by_cases hi : i < n
  · simp [hi]
  · have : m.testBit i = false :=
      Nat.testBit_lt_two_pow (Nat.lt_of_lt_of_le hm (Nat.pow_le_pow_right (by decide) (by omega)))
    simp [this]

theorem int32_ofNat_inj {a b : Nat} (ha : a < 2 ^ 32) (hb : b < 2 ^ 32)
    (h : Int32.ofNat a = Int32.ofNat b) : a = b := by
  have h' := congrArg (fun x => x.toBitVec.toNat) h
  simp only [Int32.toBitVec_ofNat', BitVec.toNat_ofNat] at h'
  omega

theorem int32_ofNat_pos {a : Nat} (h1 : 0 < a) (h2 : a < 2 ^ 31) : 0 < Int32.ofNat a := by
  have hs : (Int32.size : Int) = 2 ^ 32 := rfl
  rw [Int32.lt_iff_toInt_lt, Int32.toInt_zero, Int32.toInt_ofNat', Int.bmod_def, hs]
  split <;> omega

end Bits
