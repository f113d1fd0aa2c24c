import Mathlib.Algebra.BigOperators.Group.List.Basic
import Xv6.User.Sh.Scan

/-!
# `wc`

`user/wc.c`: `wc(fd, name)` reads its input into a 512-byte buffer until `read` returns
`0`, and counts, over every byte read, the lines (`'\n'` bytes), the words and the bytes, in
the `int`s `l`, `w` and `c`.  A word starts at a byte that is not white space while
`inword` is clear; `inword` survives from one `read` to the next, so a word that a `read`
boundary splits is counted once.

The input is the list of what the successive `read`s return, up to the end of the file.
Since `inword` is carried over, the counts depend on the stream only, not on how `read`
chunks it (`wcLoop_data`): the lines are the `'\n'` bytes, the words the maximal runs of
bytes that are not white space (`runs`), and `c` the length of the stream, each taken into
the 32-bit `int` that holds it (`wc_counts`).  They are exact below `2 ^ 31` bytes; at
`2 ^ 31` bytes `c` wraps (`wc_wraps`).
-/

namespace Xv6.Wc

/-- The white space of `strchr(" \r\t\n\v", buf[i])`. -/
def spaces : List UInt8 := [32, 13, 9, 10, 11]

/-- What one `read(fd, buf, sizeof(buf))` returns: the bytes it put in `buf`, `[]` at the
end of the file, or `-1`. -/
inductive ReadResult where
  | data (bs : List UInt8)
  | error

/-- The variables of `wc`: `int l, w, c, inword`. -/
structure Counts where
  l : Int32
  w : Int32
  c : Int32
  inword : Bool

/-- One pass of the inner loop, over the byte `buf[i]`. -/
def wcByte (st : Counts) (b : UInt8) : Counts :=
  let st := { st with c := st.c + 1 }
  let st := if b = 10 then { st with l := st.l + 1 } else st
  if Sh.strchr spaces b then { st with inword := false }
  else if !st.inword then { st with w := st.w + 1, inword := true }
  else st

/-- The outer loop: each `read` that returns bytes runs the inner loop over them; it stops
when `read` returns `0`, and a `read` that fails makes `wc` print its error and exit. -/
def wcLoop : List ReadResult → Counts → Except String Counts
  | [], st => .ok st
  | .data [] :: _, st => .ok st
  | .data bs :: rs, st => wcLoop rs (bs.foldl wcByte st)
  | .error :: _, _ => .error "wc: read error\n"

/-- `wc(fd, name)`: the `l`, `w` and `c` it prints. -/
def wc (reads : List ReadResult) : Except String (Int32 × Int32 × Int32) :=
  (wcLoop reads ⟨0, 0, 0, false⟩).map fun st => (st.l, st.w, st.c)

/-! ## What the inner loop counts -/

/-- A white-space byte. -/
def isSpace (b : UInt8) : Bool := decide (b ∈ spaces)

/-- The maximal runs of bytes that are not white space: the pieces between white-space
bytes, less the empty ones. -/
def runs (bs : List UInt8) : List (List UInt8) :=
  (bs.splitOnP isSpace).filter fun r => !r.isEmpty

/-- The words the inner loop counts in `bs` from the state `inword`: the runs, less the
first piece if it carries on a word already counted. -/
def wordsFrom (inword : Bool) (bs : List UInt8) : Nat :=
  ((if inword then (bs.splitOnP isSpace).tail else bs.splitOnP isSpace).filter
    fun r => !r.isEmpty).length

theorem strchr_spaces (b : UInt8) : Sh.strchr spaces b = isSpace b := by
  simp [Sh.strchr, isSpace]

theorem wordsFrom_false (bs : List UInt8) : wordsFrom false bs = (runs bs).length := rfl

theorem wordsFrom_space {b : UInt8} (hb : isSpace b = true) (inword : Bool) (bs : List UInt8) :
    wordsFrom inword (b :: bs) = wordsFrom false bs := by
  cases inword <;> simp [wordsFrom, List.splitOnP_cons_eq_if_modifyHead, hb]

theorem wordsFrom_word {b : UInt8} (hb : isSpace b = false) (inword : Bool) (bs : List UInt8) :
    wordsFrom inword (b :: bs) = (if inword then 0 else 1) + wordsFrom true bs := by
  obtain ⟨r, rs, hrs⟩ := List.exists_cons_of_ne_nil (List.splitOnP_ne_nil isSpace bs)
  cases inword <;> simp [wordsFrom, List.splitOnP_cons_eq_if_modifyHead, hb, hrs, Nat.add_comm]

theorem wordsFrom_le (inword : Bool) (bs : List UInt8) : wordsFrom inword bs ≤ bs.length := by
  induction bs generalizing inword with
  | nil => cases inword <;> simp [wordsFrom]
  | cons b bs ih =>
    cases hb : isSpace b
    · rw [wordsFrom_word hb, List.length_cons]
      have := ih true
      split <;> omega
    · rw [wordsFrom_space hb, List.length_cons]
      have := ih false
      omega

/-- One byte: counted, counted as a line if it is `'\n'`, and as a word if it is not white
space and no word is in progress, which it then leaves in progress exactly if it is not
white space. -/
theorem wcByte_eq (st : Counts) (b : UInt8) :
    wcByte st b = ⟨st.l + Int32.ofNat (if b = 10 then 1 else 0),
      st.w + Int32.ofNat (if !isSpace b && !st.inword then 1 else 0), st.c + 1, !isSpace b⟩ := by
  unfold wcByte
  rw [strchr_spaces]
  by_cases hl : b = 10 <;> cases isSpace b <;> cases st.inword <;> simp [hl, Int32.add_zero]

theorem wcByte_c (st : Counts) (b : UInt8) : (wcByte st b).c = st.c + 1 := by
  rw [wcByte_eq]

theorem wcByte_l (st : Counts) (b : UInt8) :
    (wcByte st b).l = st.l + Int32.ofNat (if b = 10 then 1 else 0) := by
  rw [wcByte_eq]

theorem wcByte_space (st : Counts) {b : UInt8} (hb : isSpace b = true) :
    (wcByte st b).w = st.w ∧ (wcByte st b).inword = false := by
  rw [wcByte_eq, hb]
  exact ⟨Int32.add_zero _, rfl⟩

theorem wcByte_word (st : Counts) {b : UInt8} (hb : isSpace b = false) :
    (wcByte st b).w = st.w + Int32.ofNat (if st.inword then 0 else 1) ∧
      (wcByte st b).inword = true := by
  rw [wcByte_eq, hb]
  cases st.inword <;> exact ⟨rfl, rfl⟩

section Fold

variable (bs : List UInt8)

theorem foldl_c (st : Counts) : (bs.foldl wcByte st).c = st.c + Int32.ofNat bs.length := by
  induction bs generalizing st with
  | nil => exact (Int32.add_zero _).symm
  | cons b bs ih =>
    rw [List.foldl_cons, ih, wcByte_c, List.length_cons, Int32.ofNat_add, Int32.add_assoc,
      Int32.add_comm (Int32.ofNat _)]
    rfl

theorem foldl_l (st : Counts) : (bs.foldl wcByte st).l = st.l + Int32.ofNat (bs.count 10) := by
  induction bs generalizing st with
  | nil => exact (Int32.add_zero _).symm
  | cons b bs ih =>
    rw [List.foldl_cons, ih, wcByte_l, List.count_cons, Int32.ofNat_add, Int32.add_assoc,
      Int32.add_comm (Int32.ofNat _) (Int32.ofNat (bs.count 10))]
    simp only [beq_iff_eq]

/-- The inner loop over `bs` counts the words that start in it: the state `inword` it
starts from decides whether the first piece of `bs` is a new word. -/
theorem foldl_w (st : Counts) :
    (bs.foldl wcByte st).w = st.w + Int32.ofNat (wordsFrom st.inword bs) := by
  induction bs generalizing st with
  | nil => cases st.inword <;> exact (Int32.add_zero _).symm
  | cons b bs ih =>
    rw [List.foldl_cons, ih]
    cases hb : isSpace b
    · -- a word byte: one more word, unless one was in progress
      obtain ⟨hw, hi⟩ := wcByte_word st hb
      rw [hw, hi, wordsFrom_word hb, Int32.ofNat_add, Int32.add_assoc]
    · obtain ⟨hw, hi⟩ := wcByte_space st hb
      rw [hw, hi, wordsFrom_space hb]

end Fold

/-! ## Reading in chunks -/

/-- Reads that each return some bytes: `wc` runs its inner loop over them all, as one
stream. -/
theorem wcLoop_data (chunks : List (List UInt8)) (h : ∀ ch ∈ chunks, ch ≠ []) (st : Counts) :
    wcLoop (chunks.map .data) st = .ok (chunks.flatten.foldl wcByte st) := by
  induction chunks generalizing st with
  | nil => rfl
  | cons ch chunks ih =>
    obtain ⟨b, bs, rfl⟩ := List.exists_cons_of_ne_nil (h _ List.mem_cons_self)
    rw [List.map_cons, List.flatten_cons, List.foldl_append]
    exact ih (fun ch hch => h ch (List.mem_cons_of_mem _ hch)) _

theorem wc_stream (chunks : List (List UInt8)) (h : ∀ ch ∈ chunks, ch ≠ []) :
    wc (chunks.map .data) = .ok (Int32.ofNat (chunks.flatten.count 10),
      Int32.ofNat (runs chunks.flatten).length, Int32.ofNat chunks.flatten.length) := by
  unfold wc
  rw [wcLoop_data chunks h]
  simp only [Except.map, foldl_l, foldl_w, foldl_c, wordsFrom_false]
  simp only [Int32.zero_add]

/-- For every chunking of the stream into reads of `1` to `512` bytes, `wc` prints the
number of `'\n'` bytes, of maximal runs of bytes that are not white space and of bytes of
the whole stream, each taken into an `int`; for a stream of fewer than `2 ^ 31` bytes these
are the counts themselves. -/
theorem wc_counts (chunks : List (List UInt8))
    (hsz : ∀ ch ∈ chunks, 1 ≤ ch.length ∧ ch.length ≤ 512) :
    wc (chunks.map .data) = .ok (Int32.ofNat (chunks.flatten.count 10),
      Int32.ofNat (runs chunks.flatten).length, Int32.ofNat chunks.flatten.length) ∧
    (chunks.flatten.length < 2 ^ 31 →
      (Int32.ofNat (chunks.flatten.count 10)).toInt = chunks.flatten.count 10 ∧
      (Int32.ofNat (runs chunks.flatten).length).toInt = (runs chunks.flatten).length ∧
      (Int32.ofNat chunks.flatten.length).toInt = chunks.flatten.length) := by
  have hne : ∀ ch ∈ chunks, ch ≠ [] := fun ch hch =>
    List.ne_nil_of_length_pos (hsz ch hch).1
  refine ⟨wc_stream chunks hne, fun hlt => ⟨?_, ?_, ?_⟩⟩
  · exact Int32.toInt_ofNat_of_lt (Nat.lt_of_le_of_lt List.count_le_length hlt)
  · rw [← wordsFrom_false]
    exact Int32.toInt_ofNat_of_lt (Nat.lt_of_le_of_lt (wordsFrom_le false _) hlt)
  · exact Int32.toInt_ofNat_of_lt hlt

/-- `ab` then `c d\n`: the word split by the reads is counted once. -/
theorem wc_counts_split :
    (∀ ch ∈ ([[97, 98], [99, 32, 100, 10]] : List (List UInt8)),
      1 ≤ ch.length ∧ ch.length ≤ 512) ∧
    wc ([[97, 98], [99, 32, 100, 10]].map .data) =
      .ok (Int32.ofNat ([[97, 98], [99, 32, 100, 10]].flatten.count 10),
        Int32.ofNat (runs [[97, 98], [99, 32, 100, 10]].flatten).length,
        Int32.ofNat [[97, 98], [99, 32, 100, 10]].flatten.length) ∧
    ([[97, 98], [99, 32, 100, 10]].flatten.length < 2 ^ 31 →
      (Int32.ofNat ([[97, 98], [99, 32, 100, 10]].flatten.count 10)).toInt =
        [[97, 98], [99, 32, 100, 10]].flatten.count 10 ∧
      (Int32.ofNat (runs [[97, 98], [99, 32, 100, 10]].flatten).length).toInt =
        (runs [[97, 98], [99, 32, 100, 10]].flatten).length ∧
      (Int32.ofNat [[97, 98], [99, 32, 100, 10]].flatten.length).toInt =
        [[97, 98], [99, 32, 100, 10]].flatten.length) := by
  have hsz : ∀ ch ∈ ([[97, 98], [99, 32, 100, 10]] : List (List UInt8)),
      1 ≤ ch.length ∧ ch.length ≤ 512 := by
    simp
  exact ⟨hsz, wc_counts _ hsz⟩

example : wc ([[97, 98], [99, 32, 100, 10]].map .data) = .ok (1, 2, 6) := by decide

/-- `2 ^ 22` reads of `512` bytes `a`: the `2 ^ 31` bytes overflow `c`, which `wc` prints
as `-2 ^ 31`. -/
theorem wc_wraps :
    (∀ ch ∈ List.replicate (2 ^ 22) (List.replicate 512 (97 : UInt8)),
      1 ≤ ch.length ∧ ch.length ≤ 512) ∧
    (List.replicate (2 ^ 22) (List.replicate 512 (97 : UInt8))).flatten.length = 2 ^ 31 ∧
    ∃ l w c, wc ((List.replicate (2 ^ 22) (List.replicate 512 (97 : UInt8))).map .data) =
      .ok (l, w, c) ∧ c.toInt = -2 ^ 31 := by
  have hlen : (List.replicate (2 ^ 22) (List.replicate 512 (97 : UInt8))).flatten.length =
      2 ^ 31 := by
    rw [List.length_flatten, List.map_replicate, List.length_replicate, List.sum_replicate]
    norm_num
  refine ⟨fun ch hch => ?_, hlen, _, _, _,
    wc_stream _ fun ch hch => ?_, ?_⟩
  · rw [List.eq_of_mem_replicate hch, List.length_replicate]
    omega
  · rw [List.eq_of_mem_replicate hch]
    exact List.ne_nil_of_length_pos (by rw [List.length_replicate]; omega)
  · rw [hlen]
    decide

end Xv6.Wc
