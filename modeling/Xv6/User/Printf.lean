import Mathlib.Data.Nat.Digits.Lemmas

/-!
# `printf`

`user/printf.c` and `kernel/printf.c`.  `printint` writes the digits of the `uint` of its
`int` argument into `buf`, least significant first, then a `-`, and puts them out
backwards; `printptr` puts out `0x` and the 16 hex digits of a `uint64`, top first; the
format loop puts out each ordinary byte, and one conversion after each `%`.  The two files
differ in their digit tables (upper and lower case), in the conversions they know, in
the sign of `%x`, and in how their loops meet a `%` that ends the format.

What a call writes, to `fd` or to the console, is its result.  An argument is what the
caller passed (`Arg`), read by `va_arg` as the conversion says: an `int` is the low 32
bits of its 64-bit slot and is passed sign-extended.  A string read as a number, or a
number as a string, is outside the model (`0`, and a null pointer).

A reference formatter `formatBy` renders each conversion from a table, over Mathlib's
`Nat.digits`; `format` is the one the documentation describes.  `printint` gives the
reference digits in every base up to 16 and at `INT_MIN` (`printintWith_eq`), and
`printptr` the 16 hex digits (`printptrWith_eq`).  So the user's `vprintf` is the reference
in every conversion but `%l`, whose `uint64` goes through `printint`'s `int` parameter:
only its low 32 bits are printed (`vprintf_eq`, `vprintf_long_narrowed`).  The kernel's
`printf` is the reference with lower-case digits and a signed `%x` (`Kprintf.printf_eq`).
-/

namespace Xv6

namespace Printf

/-! ## The reference formatter -/

/-- The byte of the digit `d < 16`, in upper or lower case. -/
def digitByte (upper : Bool) (d : Nat) : UInt8 :=
  if d < 10 then (48 + d).toUInt8 else ((if upper then 55 else 87) + d).toUInt8

/-- The digits of `n` in `base`, most significant first; `0` has the one digit `0`. -/
def numeral (upper : Bool) (base n : Nat) : List UInt8 :=
  if n = 0 then [48] else ((Nat.digits base n).map (digitByte upper)).reverse

/-- `-` and the digits of `|v|` for a negative `v`. -/
def signedNumeral (upper : Bool) (base : Nat) (v : Int) : List UInt8 :=
  if v < 0 then 45 :: numeral upper base v.natAbs else numeral upper base v.toNat

/-- The 16 hex digits of a 64-bit `x`, leading zeros included. -/
def hex16 (upper : Bool) (x : Nat) : List UInt8 :=
  (List.range 16).map fun i => digitByte upper (x / 16 ^ (15 - i) % 16)

/-- `(null)`. -/
def nullStr : List UInt8 := [40, 110, 117, 108, 108, 41]

/-- An argument as the caller passed it: an `int` (a `char` is promoted to one), a
`uint64` (or a pointer), or a string, `none` for a null pointer. -/
inductive Arg where
  | int (v : Int32)
  | long (v : UInt64)
  | str (s : Option (List UInt8))
  deriving DecidableEq

/-- `va_arg(ap, int)`. -/
def Arg.asInt : Arg → Int32
  | .int v => v
  | .long v => v.toUInt32.toInt32
  | .str _ => 0

/-- `va_arg(ap, uint64)`. -/
def Arg.asLong : Arg → UInt64
  | .int v => v.toInt64.toUInt64
  | .long v => v
  | .str _ => 0

/-- `va_arg(ap, char*)`. -/
def Arg.asStr : Arg → Option (List UInt8)
  | .str s => s
  | _ => none

/-- A formatter, given the rendering of each conversion byte that takes an argument: each
ordinary byte as it is; `%%` is a `%`; any other byte after a `%` is printed with it; a
`%` that ends the format prints nothing. -/
def formatBy (conv : UInt8 → Option (Arg → List UInt8)) : List UInt8 → List Arg → List UInt8
  | [], _ => []
  | c :: fmt, args =>
    if c ≠ 37 then c :: formatBy conv fmt args
    else
      match fmt with
      | [] => []
      | c :: fmt =>
        match conv c with
        | some f => f (args.headD (.int 0)) ++ formatBy conv fmt args.tail
        | none => if c = 37 then 37 :: formatBy conv fmt args else 37 :: c :: formatBy conv fmt args

/-- The conversions of the user's `printf`, with `%l` rendered by `long`: `d` signed decimal,
`x` the hex of the 32-bit pattern, `p` `0x` and 16 hex digits, `s` the string or `(null)`,
`c` the byte. -/
def userConv (long : UInt64 → List UInt8) (c : UInt8) : Option (Arg → List UInt8) :=
  if c = 100 then some fun a => signedNumeral true 10 a.asInt.toInt
  else if c = 108 then some fun a => long a.asLong
  else if c = 120 then some fun a => numeral true 16 a.asInt.toUInt32.toNat
  else if c = 112 then some fun a => [48, 120] ++ hex16 true a.asLong.toNat
  else if c = 115 then some fun a => a.asStr.getD nullStr
  else if c = 99 then some fun a => [a.asInt.toUInt32.toUInt8]
  else none

/-- The documented formatter: `%l` is the unsigned decimal of all 64 bits. -/
def format : List UInt8 → List Arg → List UInt8 := formatBy (userConv fun v => numeral true 10 v.toNat)

/-- The conversions of the kernel's `printf`: `d` and `x` signed, in lower case, `p` `0x`
and 16 lower-case hex digits, `s` the string or `(null)`. -/
def kernelConv (c : UInt8) : Option (Arg → List UInt8) :=
  if c = 100 then some fun a => signedNumeral false 10 a.asInt.toInt
  else if c = 120 then some fun a => signedNumeral false 16 a.asInt.toInt
  else if c = 112 then some fun a => [48, 120] ++ hex16 false a.asLong.toNat
  else if c = 115 then some fun a => a.asStr.getD nullStr
  else none

/-! ## `printint` and `printptr` -/

/-- `digits` of `user/printf.c`: `"0123456789ABCDEF"`. -/
def digitsU : List UInt8 := [48, 49, 50, 51, 52, 53, 54, 55, 56, 57, 65, 66, 67, 68, 69, 70]

/-- `digits` of `kernel/printf.c`: `"0123456789abcdef"`. -/
def digitsK : List UInt8 := [48, 49, 50, 51, 52, 53, 54, 55, 56, 57, 97, 98, 99, 100, 101, 102]

/-- The `do`/`while` loop of `printint`: the digits of `x` in `base` from the table,
least significant first, as they fill `buf`. -/
def digitLoop (digits : List UInt8) (base : Nat) : Nat → Nat → List UInt8
  | 0, _ => []
  | fuel + 1, x =>
    digits.getD (x % base) 0 :: if x / base ≠ 0 then digitLoop digits base fuel (x / base) else []

/-- `printint(xx, base, sgn)` with the table `digits`.  `-xx` is computed in `int`, so
`INT_MIN` stays `INT_MIN`, whose `uint` is `2^31`; a `uint` has at most 32 digits. -/
def printintWith (digits : List UInt8) (xx : Int32) (base : Nat) (sgn : Bool) : List UInt8 :=
  let neg := sgn && decide (xx < 0)
  let x : UInt32 := if neg then (-xx).toUInt32 else xx.toUInt32
  let buf := digitLoop digits base 32 x.toNat
  (if neg then buf ++ [45] else buf).reverse

/-- The loop of `printptr`: `n` hex digits from the top of `x`, shifted left 4 bits a pass. -/
def ptrLoop (digits : List UInt8) : Nat → UInt64 → List UInt8
  | 0, _ => []
  | n + 1, x => digits.getD (x >>> 60).toNat 0 :: ptrLoop digits n (x <<< 4)

/-- `printptr` with the table `digits`. -/
def printptrWith (digits : List UInt8) (x : UInt64) : List UInt8 := [48, 120] ++ ptrLoop digits 16 x

/-- `printint` of `user/printf.c`. -/
def printint (xx : Int32) (base : Nat) (sgn : Bool) : List UInt8 := printintWith digitsU xx base sgn

/-- `printptr` of `user/printf.c`. -/
def printptr (x : UInt64) : List UInt8 := printptrWith digitsU x

/-! ## `vprintf` -/

/-- The loop of `vprintf` from its `state` (`true` just after a `%`): the bytes it puts. -/
def vprintfLoop : Bool → List UInt8 → List Arg → List UInt8
  | _, [], _ => []
  | false, c :: fmt, args =>
    if c = 37 then vprintfLoop true fmt args else c :: vprintfLoop false fmt args
  | true, c :: fmt, args =>
    let a := args.headD (.int 0)
    if c = 100 then printint a.asInt 10 true ++ vprintfLoop false fmt args.tail
    -- `printint`'s `int xx` takes the `uint64`
    else if c = 108 then printint a.asLong.toUInt32.toInt32 10 false ++ vprintfLoop false fmt args.tail
    else if c = 120 then printint a.asInt 16 false ++ vprintfLoop false fmt args.tail
    else if c = 112 then printptr a.asLong ++ vprintfLoop false fmt args.tail
    else if c = 115 then a.asStr.getD nullStr ++ vprintfLoop false fmt args.tail
    -- `va_arg(ap, uint)`, put as a `char`
    else if c = 99 then a.asInt.toUInt32.toUInt8 :: vprintfLoop false fmt args.tail
    else if c = 37 then 37 :: vprintfLoop false fmt args
    -- unknown `%` sequence: print it to draw attention
    else 37 :: c :: vprintfLoop false fmt args

/-- `vprintf(fd, fmt, ap)`: the bytes it writes to `fd`. -/
def vprintf (fmt : List UInt8) (args : List Arg) : List UInt8 := vprintfLoop false fmt args

/-! ## The digit loops give the reference digits -/

section Digits

variable {digits : List UInt8} {upper : Bool}

theorem digitsU_getD : ∀ d : Fin 16, digitsU.getD d 0 = digitByte true d := by decide

theorem digitsK_getD : ∀ d : Fin 16, digitsK.getD d 0 = digitByte false d := by decide

/-- With enough passes, the loop of `printint` gives the digits of a positive `x`, least
significant first. -/
theorem digitLoop_eq {base : Nat} (hb : 2 ≤ base) :
    ∀ {fuel x : Nat}, 0 < x → (Nat.digits base x).length ≤ fuel →
      digitLoop digits base fuel x = (Nat.digits base x).map fun d => digits.getD d 0
  | 0, x, hx, hl => by
    rw [Nat.digits_def' (by omega) hx] at hl
    simp at hl
  | fuel + 1, x, hx, hl => by
    rw [Nat.digits_def' (by omega) hx] at hl ⊢
    simp only [digitLoop, List.map_cons, List.cons.injEq, true_and]
    by_cases hq : x / base = 0
    · simp [hq]
    · rw [if_pos hq, digitLoop_eq hb (Nat.pos_of_ne_zero hq) (by simpa using hl)]

/-- The 32 passes `printint` may make give every `uint` in the reference's digits. -/
theorem digitLoop_reverse (hd : ∀ d : Fin 16, digits.getD d 0 = digitByte upper d) {base : Nat}
    (hb : 2 ≤ base) (hb16 : base ≤ 16) {n : Nat} (hn : n < 2 ^ 32) :
    (digitLoop digits base 32 n).reverse = numeral upper base n := by
  by_cases h0 : n = 0
  · subst h0
    have := hd ⟨0, by decide⟩
    simp only [digitLoop, Nat.zero_mod, Nat.zero_div, ne_eq, not_true_eq_false, if_false,
      List.reverse_singleton, numeral, if_true]
    simpa [digitByte] using this
  · have hlen : (Nat.digits base n).length ≤ 32 :=
      (Nat.digits_length_le_iff (by omega) n).2 (lt_of_lt_of_le hn (Nat.pow_le_pow_left hb 32))
    rw [digitLoop_eq hb (Nat.pos_of_ne_zero h0) hlen, numeral, if_neg h0]
    congr 1
    apply List.map_congr_left
    intro d hdm
    exact hd ⟨d, by have := Nat.digits_lt_base (by omega) hdm; omega⟩

theorem toInt_eq_cond (x : Int32) : x.toInt =
    if 2 * x.toUInt32.toNat < 2 ^ 32 then (x.toUInt32.toNat : Int)
    else x.toUInt32.toNat - 2 ^ 32 := by
  rw [← Int32.toInt_toBitVec, BitVec.toInt_eq_toNat_cond, Int32.toNat_toBitVec]
  rfl

/-- `x = -xx` for a negative `int`, as a `uint`, is `|xx|`, also at `INT_MIN`. -/
theorem toUInt32_neg_toNat {x : Int32} (h : x < 0) : (-x).toUInt32.toNat = x.toInt.natAbs := by
  have h1 := Int32.lt_iff_toInt_lt.1 h
  have h2 := toInt_eq_cond x
  have h3 := x.toUInt32.toNat_lt
  rw [Int32.toUInt32_neg, UInt32.toNat_neg]
  simp only [Int32.toInt_zero] at h1
  split_ifs at h2 <;> simp only [UInt32.size] <;> omega

theorem toUInt32_toNat_of_nonneg {x : Int32} (h : ¬x < 0) : x.toUInt32.toNat = x.toInt.toNat := by
  have h1 : ¬x.toInt < 0 := fun h' => h (Int32.lt_iff_toInt_lt.2 (by simpa using h'))
  have h2 := toInt_eq_cond x
  have h3 := x.toUInt32.toNat_lt
  split_ifs at h2 <;> omega

/-- `printint` puts out the reference digits: signed, the sign and the digits of `|xx|`;
unsigned, the digits of the 32-bit pattern. -/
theorem printintWith_eq (hd : ∀ d : Fin 16, digits.getD d 0 = digitByte upper d) {base : Nat}
    (hb : 2 ≤ base) (hb16 : base ≤ 16) (xx : Int32) (sgn : Bool) :
    printintWith digits xx base sgn =
      if sgn then signedNumeral upper base xx.toInt else numeral upper base xx.toUInt32.toNat := by
  have hlt : ∀ y : UInt32, y.toNat < 2 ^ 32 := fun y => y.toNat_lt
  by_cases hneg : xx < 0
  · have hi : xx.toInt < 0 := by simpa using Int32.lt_iff_toInt_lt.1 hneg
    cases sgn with
    | false => simp [printintWith, digitLoop_reverse hd hb hb16 (hlt _)]
    | true =>
      simp only [printintWith, Bool.true_and, decide_eq_true hneg, if_true, List.reverse_append,
        List.reverse_singleton, List.singleton_append, signedNumeral, if_pos hi]
      rw [digitLoop_reverse hd hb hb16 (hlt _), toUInt32_neg_toNat hneg]
  · have hi : ¬xx.toInt < 0 := fun h' => hneg (Int32.lt_iff_toInt_lt.2 (by simpa using h'))
    cases sgn with
    | false => simp [printintWith, digitLoop_reverse hd hb hb16 (hlt _)]
    | true =>
      simp only [printintWith, Bool.true_and, decide_eq_false hneg, Bool.false_eq_true, if_false,
        if_true, signedNumeral, if_neg hi]
      rw [digitLoop_reverse hd hb hb16 (hlt _), toUInt32_toNat_of_nonneg hneg]

theorem hexDigit_shift (y : Nat) {j : Nat} (hj : 1 ≤ j) (hj15 : j ≤ 15) :
    y * 16 % 2 ^ 64 / 16 ^ j % 16 = y / 16 ^ (j - 1) % 16 := by
  have h64 : (2 : Nat) ^ 64 = 16 * 16 ^ 15 := by norm_num
  have hsplit : (16 : Nat) ^ 15 = 16 ^ (j - 1) * 16 ^ (16 - j) := by
    rw [← pow_add]
    congr 1
    omega
  have hj' : (16 : Nat) ^ j = 16 * 16 ^ (j - 1) := by
    rw [← pow_succ']
    congr 1
    omega
  have hdvd : 16 ∣ 16 ^ (16 - j) := dvd_pow_self 16 (by omega)
  calc y * 16 % 2 ^ 64 / 16 ^ j % 16
      = 16 * (y % 16 ^ 15) / (16 * 16 ^ (j - 1)) % 16 := by
        rw [h64, hj', mul_comm y 16, Nat.mul_mod_mul_left]
    _ = y % (16 ^ (j - 1) * 16 ^ (16 - j)) / 16 ^ (j - 1) % 16 := by
        rw [Nat.mul_div_mul_left _ _ (by norm_num), hsplit]
    _ = y / 16 ^ (j - 1) % 16 := by
        rw [Nat.mod_mul_right_div_self, Nat.mod_mod_of_dvd _ hdvd]

theorem ptrLoop_eq : ∀ {n : Nat} (x : UInt64), n ≤ 16 →
    ptrLoop digits n x = (List.range n).map fun i => digits.getD (x.toNat / 16 ^ (15 - i) % 16) 0
  | 0, _, _ => rfl
  | n + 1, x, hn => by
    have hx := x.toNat_lt
    have htop : (x >>> 60).toNat = x.toNat / 16 ^ 15 % 16 := by
      have h60 : (60 : UInt64).toNat % 64 = 60 := rfl
      rw [UInt64.toNat_shiftRight, Nat.shiftRight_eq_div_pow, h60]
      omega
    have hshl : (x <<< 4).toNat = x.toNat * 16 % 2 ^ 64 := by
      have h4 : (4 : UInt64).toNat % 64 = 4 := rfl
      rw [UInt64.toNat_shiftLeft, Nat.shiftLeft_eq, h4]
    rw [ptrLoop, ptrLoop_eq (x <<< 4) (by omega), List.range_succ_eq_map, List.map_cons,
      List.map_map, htop]
    congr 1
    apply List.map_congr_left
    intro i hi
    have hi' := List.mem_range.1 hi
    rw [Function.comp_apply, hshl, hexDigit_shift x.toNat (by omega) (by omega),
      show 15 - i - 1 = 15 - (i + 1) by omega]

/-- `printptr` puts out `0x` and the 16 reference hex digits. -/
theorem printptrWith_eq (hd : ∀ d : Fin 16, digits.getD d 0 = digitByte upper d) (x : UInt64) :
    printptrWith digits x = [48, 120] ++ hex16 upper x.toNat := by
  rw [printptrWith, ptrLoop_eq x le_rfl, hex16]
  congr 1
  apply List.map_congr_left
  intro i _
  exact hd ⟨_, Nat.mod_lt _ (by norm_num)⟩

end Digits

/-! ## `vprintf` against the reference -/

theorem printint_dec (v : Int32) : printint v 10 true = signedNumeral true 10 v.toInt := by
  simp [printint, printintWith_eq digitsU_getD]

theorem printint_hex (v : Int32) : printint v 16 false = numeral true 16 v.toUInt32.toNat := by
  simp [printint, printintWith_eq digitsU_getD]

/-- `%l`'s `uint64`, passed to `printint`'s `int`, keeps its low 32 bits. -/
theorem printint_long (v : UInt64) :
    printint v.toUInt32.toInt32 10 false = numeral true 10 (v.toNat % 2 ^ 32) := by
  simp [printint, printintWith_eq digitsU_getD, UInt64.toNat_toUInt32]

theorem printptr_eq (x : UInt64) : printptr x = [48, 120] ++ hex16 true x.toNat :=
  printptrWith_eq digitsU_getD x

theorem vprintfLoop_true (c : UInt8) (fmt : List UInt8) (args : List Arg) :
    vprintfLoop true (c :: fmt) args =
      match userConv (fun v => numeral true 10 (v.toNat % 2 ^ 32)) c with
      | some f => f (args.headD (.int 0)) ++ vprintfLoop false fmt args.tail
      | none => if c = 37 then 37 :: vprintfLoop false fmt args
          else 37 :: c :: vprintfLoop false fmt args := by
  simp only [vprintfLoop, userConv]
  split_ifs <;> simp_all [printint_dec, printint_long, printint_hex, printptr_eq]

/-- The user's `vprintf` is the reference formatter with `%l` cut to 32 bits. -/
theorem vprintf_eq : ∀ (fmt : List UInt8) (args : List Arg),
    vprintf fmt args = formatBy (userConv fun v => numeral true 10 (v.toNat % 2 ^ 32)) fmt args
  | [], _ => rfl
  | c :: fmt, args => by
    by_cases hc : c = 37
    · subst hc
      match fmt with
      | [] => rfl
      | c :: fmt =>
        have ih := vprintf_eq fmt
        simp only [vprintf] at ih ⊢
        rw [vprintfLoop, if_pos rfl, vprintfLoop_true]
        simp only [formatBy, ne_eq, not_true_eq_false, if_false, ih]
    · have ih := vprintf_eq fmt args
      simp only [vprintf] at ih ⊢
      rw [vprintfLoop, if_neg hc, formatBy.eq_def]
      simp only [ne_eq, hc, not_false_eq_true, if_true, ih]

/-- `printf("%l", 2^32)` prints `0`, where the documented `%l` prints `4294967296`. -/
theorem vprintf_long_narrowed :
    vprintf [37, 108] [.long 4294967296] = [48] ∧
      format [37, 108] [.long 4294967296] = [52, 50, 57, 52, 57, 54, 55, 50, 57, 54] := by
  constructor
  · decide
  · decide

end Printf

namespace Kprintf

open Printf

/-- `printint` of `kernel/printf.c`. -/
def printint (xx : Int32) (base : Nat) (sign : Bool) : List UInt8 :=
  printintWith digitsK xx base sign

/-- `printptr` of `kernel/printf.c`. -/
def printptr (x : UInt64) : List UInt8 := printptrWith digitsK x

/-- `printf(fmt, ...)` of the kernel: the bytes it puts on the console.  A `%` that ends
the format is followed by its `NUL`, and the loop stops. -/
def printf : List UInt8 → List Arg → List UInt8
  | [], _ => []
  | c :: fmt, args =>
    if c ≠ 37 then c :: printf fmt args
    else
      match fmt with
      | [] => []
      | c :: fmt =>
        let a := args.headD (.int 0)
        if c = 100 then printint a.asInt 10 true ++ printf fmt args.tail
        else if c = 120 then printint a.asInt 16 true ++ printf fmt args.tail
        else if c = 112 then printptr a.asLong ++ printf fmt args.tail
        else if c = 115 then a.asStr.getD nullStr ++ printf fmt args.tail
        else if c = 37 then 37 :: printf fmt args
        -- print unknown `%` sequence to draw attention
        else 37 :: c :: printf fmt args

/-- The kernel's `printint` with `sign` set: the reference's signed digits, lower case. -/
theorem printint_signed (v : Int32) (base : Nat) (hb : 2 ≤ base) (hb16 : base ≤ 16) :
    printint v base true = signedNumeral false base v.toInt := by
  simp [printint, printintWith_eq digitsK_getD hb hb16]

theorem printf_conv (c : UInt8) (fmt : List UInt8) (args : List Arg) :
    printf (37 :: c :: fmt) args =
      match kernelConv c with
      | some f => f (args.headD (.int 0)) ++ printf fmt args.tail
      | none => if c = 37 then 37 :: printf fmt args else 37 :: c :: printf fmt args := by
  have h10 := printint_signed (args.headD (.int 0)).asInt 10 (by norm_num) (by norm_num)
  have h16 := printint_signed (args.headD (.int 0)).asInt 16 (by norm_num) (by norm_num)
  rw [printf.eq_def]
  simp only [ne_eq, not_true_eq_false, if_false, kernelConv]
  split_ifs <;> simp_all [printptr, printptrWith_eq digitsK_getD]

/-- The kernel's `printf` is the reference formatter with its own conversions. -/
theorem printf_eq : ∀ (fmt : List UInt8) (args : List Arg), printf fmt args = formatBy kernelConv fmt args
  | [], _ => rfl
  | c :: fmt, args => by
    by_cases hc : c = 37
    · subst hc
      match fmt with
      | [] => rfl
      | c :: fmt =>
        rw [printf_conv, formatBy.eq_def]
        simp only [ne_eq, not_true_eq_false, if_false, printf_eq fmt]
    · rw [printf.eq_def, formatBy.eq_def]
      simp only [ne_eq, hc, not_false_eq_true, if_true, printf_eq fmt args]

end Kprintf

end Xv6
