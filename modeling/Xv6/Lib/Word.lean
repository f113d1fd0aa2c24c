import Mathlib.Tactic.Ring
import Mathlib.Data.Fin.Basic

/-!
# Little-endian words in a block of bytes

A block of `n` bytes is a function `Fin n → UInt8`.  A C program that casts a
byte buffer to an array of `int`, `uint` or `ushort` reads and writes
little-endian words in it; `getWord w b off` is the unsigned value of the `w`
bytes at offset `off`, and `setWord w b off v` stores the low `8 * w` bits of `v`
there.  Bytes past the end of the block read as `0` and are never written.

The two laws every codec proof uses: a word reads back what was stored
(`getWord_setWord_self`), and storing a word leaves every byte outside it alone
(`byteAt_setWord_of_lt`, `byteAt_setWord_of_le`, `getWord_setWord_of_disjoint`).
-/

namespace Bytes

variable {n : Nat}

/-- Byte `i` of a block, as a number; `0` past the end. -/
def byteAt (b : Fin n → UInt8) (i : Nat) : Nat :=
  if h : i < n then (b ⟨i, h⟩).toNat else 0

/-- The block with byte `i` set to the low eight bits of `v`. -/
def setByte (b : Fin n → UInt8) (i v : Nat) : Fin n → UInt8 :=
  fun j => if j.val = i then v.toUInt8 else b j

/-- The unsigned little-endian word of `w` bytes at offset `off`. -/
def getWord : Nat → (Fin n → UInt8) → Nat → Nat
  | 0, _, _ => 0
  | w + 1, b, off => byteAt b off + 256 * getWord w b (off + 1)

/-- Store the low `8 * w` bits of `v`, little-endian, at offset `off`. -/
def setWord : Nat → (Fin n → UInt8) → Nat → Nat → (Fin n → UInt8)
  | 0, b, _, _ => b
  | w + 1, b, off, v => setWord w (setByte b off v) (off + 1) (v / 256)

theorem byteAt_lt (b : Fin n → UInt8) (i : Nat) : byteAt b i < 256 := by
  unfold byteAt
  split
  · exact UInt8.toNat_lt _
  · omega

theorem byteAt_setByte (b : Fin n → UInt8) (i v j : Nat) :
    byteAt (setByte b i v) j = if j = i ∧ j < n then v % 256 else byteAt b j := by
  unfold byteAt setByte
  by_cases hj : j < n
  · by_cases hji : j = i
    · subst hji
      simp [hj, Nat.toUInt8]
    · simp [hj, hji]
  · simp [hj]

theorem byteAt_setByte_of_ne (b : Fin n → UInt8) {i j : Nat} (v : Nat) (h : j ≠ i) :
    byteAt (setByte b i v) j = byteAt b j := by
  rw [byteAt_setByte, if_neg (fun h' => h h'.1)]

theorem byteAt_setWord_of_lt (w : Nat) (b : Fin n → UInt8) (off v j : Nat) (h : j < off) :
    byteAt (setWord w b off v) j = byteAt b j := by
  induction w generalizing b off v with
  | zero => rfl
  | succ w ih =>
    rw [setWord, ih _ _ _ (by omega), byteAt_setByte_of_ne _ _ (by omega)]

theorem byteAt_setWord_of_le (w : Nat) (b : Fin n → UInt8) (off v j : Nat) (h : off + w ≤ j) :
    byteAt (setWord w b off v) j = byteAt b j := by
  induction w generalizing b off v with
  | zero => rfl
  | succ w ih =>
    rw [setWord, ih _ _ _ (by omega), byteAt_setByte_of_ne _ _ (by omega)]

/-- A word reads back the low `8 * w` bits of what was stored, when it fits in the block. -/
theorem getWord_setWord_self (w : Nat) (b : Fin n → UInt8) (off v : Nat) (h : off + w ≤ n) :
    getWord w (setWord w b off v) off = v % 256 ^ w := by
  induction w generalizing b off v with
  | zero => simp [getWord, Nat.mod_one]
  | succ w ih =>
    rw [getWord, setWord, ih _ _ _ (by omega), byteAt_setWord_of_lt _ _ _ _ _ (by omega),
      byteAt_setByte, if_pos ⟨rfl, by omega⟩, Nat.pow_succ', Nat.mod_mul]

theorem getWord_setWord_of_disjoint (w w' : Nat) (b : Fin n → UInt8) (off v off' : Nat)
    (h : off' + w' ≤ off ∨ off + w ≤ off') :
    getWord w' (setWord w b off v) off' = getWord w' b off' := by
  induction w' generalizing off' with
  | zero => rfl
  | succ w' ih =>
    rw [getWord, getWord, ih _ (by omega)]
    rcases h with h | h
    · rw [byteAt_setWord_of_lt _ _ _ _ _ (by omega)]
    · rw [byteAt_setWord_of_le _ _ _ _ _ (by omega)]

/-! ## Arrays of words and runs of bytes -/

/-- Store the words `vs`, `w` bytes each, from offset `off`: a C array store, or the
`memmove` of one. -/
def setWords (w : Nat) (b : Fin n → UInt8) (off : Nat) : List Nat → (Fin n → UInt8)
  | [] => b
  | v :: vs => setWords w (setWord w b off v) (off + w) vs

theorem getWord_setWords_of_disjoint (w w' : Nat) (b : Fin n → UInt8) (off o : Nat)
    (vs : List Nat) (h : o + w' ≤ off ∨ off + w * vs.length ≤ o) :
    getWord w' (setWords w b off vs) o = getWord w' b o := by
  induction vs generalizing b off with
  | nil => rfl
  | cons v vs ih =>
    rw [List.length_cons, Nat.mul_succ] at h
    rw [setWords, ih _ _ (by omega)]
    exact getWord_setWord_of_disjoint _ _ _ _ _ _ (by omega)

theorem getWord_setWords_get (w : Nat) (b : Fin n → UInt8) (off : Nat) (vs : List Nat) {i : Nat}
    (hi : i < vs.length) (hfit : off + w * vs.length ≤ n) :
    getWord w (setWords w b off vs) (off + w * i) = vs[i] % 256 ^ w := by
  induction vs generalizing b off i with
  | nil => cases hi
  | cons v vs ih =>
    rw [List.length_cons, Nat.mul_succ] at hfit
    rw [setWords]
    cases i with
    | zero =>
      rw [Nat.mul_zero, Nat.add_zero, getWord_setWords_of_disjoint _ _ _ _ _ _ (by omega),
        getWord_setWord_self _ _ _ _ (by omega)]
      rfl
    | succ i =>
      have h := ih (setWord w b off v) (off + w) (Nat.lt_of_succ_lt_succ hi) (by omega)
      rw [show off + w + w * i = off + w * (i + 1) by rw [Nat.mul_succ]; omega] at h
      simpa using h

theorem getWord_of_le (w : Nat) (b : Fin n → UInt8) {off : Nat} (h : n ≤ off) :
    getWord w b off = 0 := by
  induction w generalizing off with
  | zero => rfl
  | succ w ih =>
    have h0 : byteAt b off = 0 := by simp [byteAt, Nat.not_lt.2 h]
    rw [getWord, h0, ih (by omega)]

theorem getWord_zero (w off : Nat) : getWord w (fun _ : Fin n => (0 : UInt8)) off = 0 := by
  induction w generalizing off with
  | zero => rfl
  | succ w ih =>
    have h0 : byteAt (fun _ : Fin n => (0 : UInt8)) off = 0 := by unfold byteAt; split <;> rfl
    rw [getWord, h0, ih]

/-- The `m` bytes from offset `off`, as `memmove` copies them out. -/
def getBytes (b : Fin n → UInt8) (off m : Nat) : List UInt8 :=
  (List.range m).map fun i => (byteAt b (off + i)).toUInt8

/-- The block with the bytes `bs` copied in from offset `off`. -/
def setBytes (b : Fin n → UInt8) (off : Nat) : List UInt8 → (Fin n → UInt8)
  | [] => b
  | x :: xs => setBytes (setByte b off x.toNat) (off + 1) xs

theorem byteAt_setBytes (b : Fin n → UInt8) (off : Nat) (bs : List UInt8) (j : Nat) :
    byteAt (setBytes b off bs) j =
      if off ≤ j ∧ j < off + bs.length ∧ j < n then (bs.getD (j - off) 0).toNat
      else byteAt b j := by
  induction bs generalizing b off with
  | nil => rw [setBytes, if_neg (by simp only [List.length_nil]; omega)]
  | cons x xs ih =>
    rw [setBytes, ih, byteAt_setByte]
    by_cases hj : j = off
    · subst hj
      simp
    · by_cases h : off + 1 ≤ j ∧ j < off + 1 + xs.length ∧ j < n
      · rw [if_pos h, if_pos (by simp only [List.length_cons]; omega)]
        obtain ⟨k, rfl⟩ : ∃ k, j = off + 1 + k := ⟨j - (off + 1), by omega⟩
        simp [show off + 1 + k - off = k + 1 by omega, show off + 1 + k - (off + 1) = k by omega]
      · rw [if_neg h, if_neg (fun h' => hj h'.1), if_neg (by simp only [List.length_cons]; omega)]

end Bytes
