import Xv6.Lib.Words

/-!
# grep

`user/grep.c`: the matcher of Kernighan and Pike (`match`, `matchhere`, `matchstar`), and
the driver `grep`, which reads its file into `buf` a chunk at a time and writes each whole
line that matches.

A pattern and a text are the bytes before their `NUL`.  What a pattern means is a language
of words: read after a leading `^` as atoms, a byte followed by `*` standing for any number
of such bytes, `.` for any byte, a last `$` anchoring at the end of the text and any other
byte for itself (`atoms`, `Atom.lang`).  `grepMatch_iff` says `match` decides whether some
stretch of the text, a prefix of it under `^`, is in that language.

The `i`-th `read` of `grep` returns `chunk i` bytes, or as many as it asks for or as are
left if fewer.  For any `chunk` that never returns nothing while bytes are left,
`grep_writes_matching_lines` says `grep` writes the matching lines of a file whose lines
fit the buffer, and no more.
-/

namespace Xv6

namespace Grep

open Words Computability

/-! ## The matcher -/

/-- `matchstar(c, re, text)`, with `here` for `matchhere(re, ·)`: `re` tried at each point of
`text` reached over bytes that `c` matches. -/
def matchstar (here : List UInt8 → Bool) (c : UInt8) : List UInt8 → Bool
  | [] => here []
  | t :: text => here (t :: text) || ((t == c || c == 46) && matchstar here c text)

/-- `matchhere(re, text)`: `re` at the start of `text`; its tests in the source's order. -/
def matchhere : List UInt8 → List UInt8 → Bool
  | [], _ => true
  | c :: 42 :: re, text => matchstar (matchhere re) c text
  | [36], text => text.isEmpty
  | c :: re, text =>
    match text with
    | t :: text => (c == 46 || c == t) && matchhere re text
    | [] => false

/-- The loop of `match` without `^`: `re` at each suffix of `text`, the empty one last. -/
def matchLoop (re : List UInt8) : List UInt8 → Bool
  | [] => matchhere re []
  | t :: text => matchhere re (t :: text) || matchLoop re text

/-- `match(re, text)`; `match` is a keyword of Lean. -/
def grepMatch : List UInt8 → List UInt8 → Bool
  | 94 :: re, text => matchhere re text
  | re, text => matchLoop re text

/-! ## The language of a pattern -/

/-- The bytes a pattern byte stands for: `.` any byte, another byte itself. -/
def Stands (c t : UInt8) : Prop := c = 46 ∨ c = t

/-- An atom of a pattern: a byte, or a byte under `*`. -/
inductive Atom where
  | one (c : UInt8)
  | star (c : UInt8)
  deriving DecidableEq

/-- The words an atom stands for. -/
def Atom.lang : Atom → Language UInt8
  | .one c => letters (Stands c)
  | .star c => (letters (Stands c))∗

/-- A pattern read as atoms, and whether it ends in the anchor `$`: a byte followed by `*` is
a starred atom, a `$` that is the last byte anchors, and any other byte is an atom. -/
def atoms : List UInt8 → List Atom × Bool
  | [] => ([], false)
  | c :: 42 :: re => (.star c :: (atoms re).1, (atoms re).2)
  | [36] => ([], true)
  | c :: re => (.one c :: (atoms re).1, (atoms re).2)

/-- The language of a sequence of atoms: their concatenation. -/
def atomsLang (as : List Atom) : Language UInt8 := (as.map Atom.lang).prod

/-- A prefix of `text` is in the language of `re`'s atoms; all of `text` when `re` ends in
the anchor. -/
def PrefixIn (re text : List UInt8) : Prop :=
  ∃ w post, text = w ++ post ∧ w ∈ atomsLang (atoms re).1 ∧ ((atoms re).2 = true → post = [])

/-- What `match(re, text)` is to decide: some stretch of `text` is in the language of the
pattern, a prefix of `text` when the pattern starts with `^`. -/
def Matches : List UInt8 → List UInt8 → Prop
  | 94 :: re, text => PrefixIn re text
  | re, text => ∃ pre suf, text = pre ++ suf ∧ PrefixIn re suf

@[simp] theorem atomsLang_nil : atomsLang [] = 1 := List.prod_nil

@[simp] theorem atomsLang_cons (a : Atom) (as : List Atom) :
    atomsLang (a :: as) = a.lang * atomsLang as := List.prod_cons

theorem stands_iff_here (c t : UInt8) : (c == 46 || c == t) = true ↔ Stands c t := by
  simp only [Bool.or_eq_true, beq_iff_eq, Stands]

theorem stands_iff_star (c t : UInt8) : (t == c || c == 46) = true ↔ Stands c t := by
  rw [Bool.or_eq_true, beq_iff_eq, beq_iff_eq, Stands, or_comm, @eq_comm _ t c]

theorem atoms_one {c : UInt8} {re : List UInt8} (h42 : ∀ re', re = 42 :: re' → False)
    (h36 : c = 36 → re = [] → False) :
    atoms (c :: re) = (.one c :: (atoms re).1, (atoms re).2) := by
  rw [atoms.eq_def]
  split
  · rename_i h; cases h
  · rename_i re' h; cases h; exact absurd rfl (h42 re')
  · rename_i h; cases h; exact absurd rfl (h36 rfl)
  · rename_i h; cases h; rfl

/-! ## The matcher decides the language -/

/-- `matchstar` finds a prefix of bytes that `c` stands for, and `here` after it. -/
theorem matchstar_iff (here : List UInt8 → Bool) (c : UInt8) (text : List UInt8) :
    matchstar here c text = true ↔
      ∃ u v, text = u ++ v ∧ u ∈ (letters (Stands c))∗ ∧ here v = true := by
  induction text with
  | nil =>
    constructor
    · intro h
      exact ⟨[], [], rfl, Language.nil_mem_kstar _, h⟩
    · rintro ⟨u, v, huv, -, hv⟩
      obtain ⟨rfl, rfl⟩ := List.append_eq_nil_iff.mp huv.symm
      exact hv
  | cons t text ih =>
    rw [matchstar, Bool.or_eq_true, Bool.and_eq_true, stands_iff_star, ih]
    constructor
    · rintro (h | ⟨hs, u, v, rfl, hu, hv⟩)
      · exact ⟨[], t :: text, rfl, Language.nil_mem_kstar _, h⟩
      · exact ⟨t :: u, v, rfl, cons_mem_kstar_letters.mpr ⟨hs, hu⟩, hv⟩
    · rintro ⟨_ | ⟨t', u⟩, v, huv, hu, hv⟩
      · rw [List.nil_append] at huv
        exact .inl (huv ▸ hv)
      · -- the star took at least the first byte
        obtain ⟨rfl, rfl⟩ := List.cons.inj huv
        obtain ⟨hs, hu⟩ := cons_mem_kstar_letters.mp hu
        exact .inr ⟨hs, u, v, rfl, hu, hv⟩

/-- `matchhere` decides `PrefixIn`; the induction follows its cases. -/
theorem matchhere_iff (re text : List UInt8) : matchhere re text = true ↔ PrefixIn re text := by
  -- `matchstar` is handed `matchhere re` unapplied, so the induction is on the pattern's length
  induction hn : re.length using Nat.strong_induction_on generalizing re text with
  | _ n ih =>
  fun_cases matchhere re text with
  | case1 text =>
    simp only [PrefixIn, atoms, atomsLang_nil, Language.mem_one, true_iff]
    exact ⟨[], text, rfl, rfl, nofun⟩
  | case2 c re text =>
    have ih' : ∀ v, matchhere re v = true ↔ PrefixIn re v :=
      fun v => ih re.length (by simp only [← hn, List.length_cons]; omega) re v rfl
    simp only [PrefixIn, atoms, atomsLang_cons, Atom.lang]
    rw [matchstar_iff, exists_prefix_mul]
    simp only [PrefixIn] at ih'
    simp only [ih']
  | case3 text =>
    simp only [PrefixIn, atoms, atomsLang_nil, Language.mem_one, List.isEmpty_iff, forall_const]
    constructor
    · rintro rfl
      exact ⟨[], [], rfl, rfl, rfl⟩
    · rintro ⟨w, post, rfl, rfl, rfl⟩
      rfl
  | case4 c re h42 h36 t text =>
    rw [Bool.and_eq_true, stands_iff_here, ih re.length (by rw [← hn]; simp) re text rfl]
    simp only [PrefixIn, atoms_one h42 h36, atomsLang_cons, Atom.lang]
    rw [exists_prefix_mul, exists_prefix_letters_cons]
  | case5 c re h42 h36 =>
    simp only [PrefixIn, atoms_one h42 h36, atomsLang_cons, Atom.lang, Bool.false_eq_true,
      false_iff]
    rw [exists_prefix_mul]
    exact exists_prefix_letters_nil

/-- Without `^`, `match` tries `matchhere` at every suffix. -/
theorem matchLoop_iff (re text : List UInt8) :
    matchLoop re text = true ↔ ∃ pre suf, text = pre ++ suf ∧ matchhere re suf = true := by
  induction text with
  | nil =>
    constructor
    · intro h
      exact ⟨[], [], rfl, h⟩
    · rintro ⟨pre, suf, h, hs⟩
      obtain ⟨rfl, rfl⟩ := List.append_eq_nil_iff.mp h.symm
      exact hs
  | cons t text ih =>
    rw [matchLoop, Bool.or_eq_true, ih]
    constructor
    · rintro (h | ⟨pre, suf, rfl, hs⟩)
      · exact ⟨[], t :: text, rfl, h⟩
      · exact ⟨t :: pre, suf, rfl, hs⟩
    · rintro ⟨_ | ⟨t', pre⟩, suf, h, hs⟩
      · rw [List.nil_append] at h
        exact .inl (h ▸ hs)
      · obtain ⟨rfl, rfl⟩ := List.cons.inj h
        exact .inr ⟨pre, suf, rfl, hs⟩

theorem grepMatch_iff (re text : List UInt8) : grepMatch re text = true ↔ Matches re text := by
  fun_cases grepMatch re text with
  | case1 re text => rw [Matches, matchhere_iff]
  | case2 re text h94 =>
    rw [Matches.eq_2 re text h94, matchLoop_iff]
    simp only [matchhere_iff]

/-! ## The driver -/

/-- `strchr(s, c)` of `user/ulib.c`: the offset of the first `c` before the `NUL`. -/
def strchr (c : UInt8) : List UInt8 → Option Nat
  | [] => none
  | x :: s => if x = 0 then none else if x = c then some 0 else (strchr c s).map (· + 1)

/-- The inner loop of `grep` from `p`: each line up to a newline that `match`es written with
its newline, and `p` moved past the newline; the bytes written, and the bytes from `p` when
no newline is left. -/
def scanLines (pattern : List UInt8) : Nat → List UInt8 → List UInt8 × List UInt8
  | 0, p => ([], p)
  | fuel + 1, p =>
    match strchr 10 p with
    | none => ([], p)
    | some q =>
      let r := scanLines pattern fuel (p.drop (q + 1))
      ((if grepMatch pattern (p.take q) then p.take q ++ [10] else []) ++ r.1, r.2)

/-- The loop of `grep` at its `i`-th `read`, with the bytes `buf` of a line begun and the
bytes `rest` of the file not yet read: the bytes written to fd 1.  The `read` returns
`chunk i` bytes, or as many as it asks for or as are left if fewer; `0` ends the loop. -/
def grepLoop (pattern : List UInt8) (chunk : Nat → Nat) :
    Nat → Nat → List UInt8 → List UInt8 → List UInt8
  | 0, _, _, _ => []
  | fuel + 1, i, buf, rest =>
    let n := min (chunk i) (min (1024 - buf.length - 1) rest.length)
    if n = 0 then []
    else
      let buf := buf ++ rest.take n
      let r := scanLines pattern (buf.length + 1) buf
      -- `m > 0` after a read, so the bytes after the last newline move to the front
      r.1 ++ grepLoop pattern chunk fuel (i + 1) r.2 (rest.drop n)

/-- `grep(pattern, fd)` on a file of the bytes `input`.  Each pass of the loop but the last
reads a byte or more, and the inner loop takes a newline each pass. -/
def grep (pattern : List UInt8) (chunk : Nat → Nat) (input : List UInt8) : List UInt8 :=
  grepLoop pattern chunk (input.length + 1) 0 [] input

/-- What `grep` is to write for the lines `ls`: each that `match`es, with its newline. -/
def grepOut (pattern : List UInt8) (ls : List (List UInt8)) : List UInt8 :=
  joinTerm 10 (ls.filter fun l => grepMatch pattern l)

/-- What holds of the buffer at each `read`: the line begun has no newline, neither it nor the
file left has a `NUL`, the buffer has room, and each line still to come fits in it. -/
structure LoopInv (buf rest : List UInt8) : Prop where
  nl : 10 ∉ buf
  nul_buf : 0 ∉ buf
  nul_rest : 0 ∉ rest
  fits : buf.length ≤ 1023
  lines : ∀ l ∈ ((buf ++ rest).splitOn 10).dropLast, l.length + 1 ≤ 1023

section Driver

variable (pattern : List UInt8)

@[simp] theorem grepOut_nil : grepOut pattern [] = [] := rfl

theorem grepOut_cons (l : List UInt8) (ls : List (List UInt8)) :
    grepOut pattern (l :: ls) =
      (if grepMatch pattern l then l ++ [10] else []) ++ grepOut pattern ls := by
  simp only [grepOut, List.filter_cons]
  split <;> simp

theorem grepOut_append (ls ls' : List (List UInt8)) :
    grepOut pattern (ls ++ ls') = grepOut pattern ls ++ grepOut pattern ls' := by
  simp [grepOut]

theorem strchr_some {c : UInt8} {s : List UInt8} {q : Nat} (h : strchr c s = some q) :
    ∃ l r, s = l ++ c :: r ∧ l.length = q ∧ c ∉ l := by
  induction s generalizing q with
  | nil => cases h
  | cons x s ih =>
    by_cases h0 : x = 0
    · simp [strchr, h0] at h
    by_cases hc : x = c
    · simp only [strchr, if_neg h0, if_pos hc, Option.some.injEq] at h
      subst h hc
      exact ⟨[], s, rfl, rfl, List.not_mem_nil⟩
    · simp only [strchr, if_neg h0, if_neg hc] at h
      obtain ⟨q', hq', rfl⟩ := Option.map_eq_some_iff.mp h
      obtain ⟨l, r, rfl, rfl, hl⟩ := ih hq'
      exact ⟨x :: l, r, rfl, rfl, by simp [Ne.symm hc, hl]⟩

theorem not_mem_of_strchr_none {c : UInt8} {s : List UInt8} (h0 : 0 ∉ s)
    (h : strchr c s = none) : c ∉ s := by
  induction s with
  | nil => exact List.not_mem_nil
  | cons x s ih =>
    rw [List.mem_cons, not_or] at h0
    by_cases hc : x = c
    · subst hc
      simp [strchr, Ne.symm h0.1] at h
    · simp only [strchr, if_neg (Ne.symm h0.1), if_neg hc, Option.map_eq_none_iff] at h
      simp [Ne.symm hc, ih h0.2 h]

/-- The inner loop on a buffer without `NUL`: the buffer is lines ended by newlines and a
rest without one, and the loop writes the lines that match and stops at the rest. -/
theorem scanLines_eq {fuel : Nat} {p : List UInt8} (h0 : 0 ∉ p) (hf : p.length < fuel) :
    ∃ ls r, p = joinTerm 10 ls ++ r ∧ (∀ l ∈ ls, 10 ∉ l) ∧ 10 ∉ r ∧
      scanLines pattern fuel p = (grepOut pattern ls, r) := by
  induction fuel generalizing p with
  | zero => omega
  | succ fuel ih =>
    rcases hq : strchr 10 p with _ | q
    · refine ⟨[], p, rfl, nofun, not_mem_of_strchr_none h0 hq, ?_⟩
      rw [scanLines, hq, grepOut_nil]
    · -- a line up to the first newline, then the loop again on what follows it
      obtain ⟨l, r, rfl, rfl, hl⟩ := strchr_some hq
      have h0r : 0 ∉ r := fun h => h0 (List.mem_append_right _ (List.mem_cons_of_mem _ h))
      have hfr : r.length < fuel := by
        simp only [List.length_append, List.length_cons] at hf
        omega
      obtain ⟨ls, r', rfl, hls, hr', hscan⟩ := ih h0r hfr
      refine ⟨l :: ls, r', by simp, ?_, hr', ?_⟩
      · exact List.forall_mem_cons.mpr ⟨hl, hls⟩
      · have hdrop : (l ++ 10 :: (joinTerm 10 ls ++ r')).drop (l.length + 1) =
            joinTerm 10 ls ++ r' := by
          rw [List.drop_length_add_append, List.drop_one, List.tail_cons]
        simp only [scanLines, hq, List.take_left' rfl, hdrop, hscan, grepOut_cons]

theorem no_line_of_full {buf rest : List UInt8} (hinv : LoopInv buf rest)
    (hfull : buf.length = 1023) : 10 ∉ rest := by
  intro h10
  obtain ⟨l, r, rfl, hl⟩ := exists_eq_append_sep h10
  have hsplit : ((buf ++ (l ++ 10 :: r)).splitOn 10).dropLast =
      [buf ++ l] ++ (r.splitOn 10).dropLast := by
    rw [← dropLast_splitOn_joinTerm_append (by simp [hinv.nl, hl]), joinTerm_cons, joinTerm_nil]
    simp only [List.append_assoc, List.cons_append, List.nil_append]
  have hmem := hinv.lines (buf ++ l) (by rw [hsplit]; simp)
  simp only [List.length_append] at hmem
  omega

/-- The loop of `grep` from a state with the invariant writes the lines still to come that
match: by induction on the fuel, a read at a time. -/
theorem grepLoop_eq {chunk : Nat → Nat} (hchunk : ∀ i, 0 < chunk i) {fuel i : Nat}
    {buf rest : List UInt8} (hinv : LoopInv buf rest) (hf : rest.length < fuel) :
    grepLoop pattern chunk fuel i buf rest = grepOut pattern ((buf ++ rest).splitOn 10).dropLast := by
  induction fuel generalizing i buf rest with
  | zero => omega
  | succ fuel ih =>
    have hc := hchunk i
    by_cases hn : min (chunk i) (min (1024 - buf.length - 1) rest.length) = 0
    · -- the file is read, or the buffer is full: no line is left either way
      have hno : 10 ∉ buf ++ rest := by
        rw [List.mem_append, not_or]
        refine ⟨hinv.nl, fun h10 => ?_⟩
        rcases Nat.eq_zero_or_pos rest.length with h | h
        · rw [List.length_eq_zero_iff] at h
          subst h
          exact List.not_mem_nil h10
        · exact no_line_of_full hinv (by have := hinv.fits; omega) h10
      rw [dropLast_splitOn_of_not_mem hno, grepOut_nil, grepLoop, if_pos hn]
    · set n := min (chunk i) (min (1024 - buf.length - 1) rest.length) with hn_def
      have hn_le : n ≤ rest.length := by omega
      have h0 : 0 ∉ buf ++ rest.take n := by
        rw [List.mem_append, not_or]
        exact ⟨hinv.nul_buf, fun h => hinv.nul_rest (List.mem_of_mem_take h)⟩
      obtain ⟨ls, r, hbuf, hls, hr, hscan⟩ := scanLines_eq pattern h0 (Nat.lt_add_one _)
      have hsplit : ((buf ++ rest).splitOn 10).dropLast =
          ls ++ ((r ++ rest.drop n).splitOn 10).dropLast := by
        rw [← dropLast_splitOn_joinTerm_append hls, ← List.append_assoc, ← hbuf,
          List.append_assoc, List.take_append_drop]
      have hinv' : LoopInv r (rest.drop n) :=
        { nl := hr
          nul_buf := fun h => h0 (hbuf ▸ List.mem_append_right _ h)
          nul_rest := fun h => hinv.nul_rest (List.mem_of_mem_drop h)
          fits := by
            have hlen := congrArg List.length hbuf
            simp only [List.length_append, List.length_take] at hlen
            have := hinv.fits
            omega
          lines := fun l hl => hinv.lines l (by rw [hsplit]; exact List.mem_append_right _ hl) }
      have hf' : (rest.drop n).length < fuel := by
        rw [List.length_drop]
        omega
      rw [grepLoop, if_neg hn, ← hn_def]
      dsimp only
      rw [hscan, ih hinv' hf', hsplit, grepOut_append]

end Driver

theorem grep_writes_matching_lines (pattern : List UInt8) (chunk : Nat → Nat)
    (input : List UInt8) (hchunk : ∀ i, 0 < chunk i) (hnul : 0 ∉ input)
    (hlen : ∀ l ∈ (input.splitOn 10).dropLast, l.length + 1 ≤ 1023) :
    grep pattern chunk input = grepOut pattern (input.splitOn 10).dropLast :=
  grepLoop_eq pattern hchunk
    ⟨List.not_mem_nil, List.not_mem_nil, hnul, Nat.zero_le _, by simpa using hlen⟩
    (Nat.lt_succ_self _)

theorem grep_writes_matching_lines_a :
    (∀ i, 0 < (fun _ : Nat => 1) i) ∧ (0 : UInt8) ∉ ([97, 10, 98, 10, 97, 98] : List UInt8) ∧
      (∀ l ∈ (([97, 10, 98, 10, 97, 98] : List UInt8).splitOn 10).dropLast,
        l.length + 1 ≤ 1023) ∧
      grep [97] (fun _ => 1) [97, 10, 98, 10, 97, 98] =
        grepOut [97] (([97, 10, 98, 10, 97, 98] : List UInt8).splitOn 10).dropLast := by
  have h0 : (0 : UInt8) ∉ ([97, 10, 98, 10, 97, 98] : List UInt8) := by decide
  have hlen : ∀ l ∈ (([97, 10, 98, 10, 97, 98] : List UInt8).splitOn 10).dropLast,
      l.length + 1 ≤ 1023 := by
    intro l hl
    have hs : (([97, 10, 98, 10, 97, 98] : List UInt8).splitOn 10).dropLast = [[97], [98]] := by
      decide
    rw [hs] at hl
    simp only [List.mem_cons, List.not_mem_nil, or_false] at hl
    rcases hl with rfl | rfl <;> decide
  exact ⟨fun _ => Nat.one_pos, h0, hlen,
    grep_writes_matching_lines [97] (fun _ => 1) _ (fun _ => Nat.one_pos) h0 hlen⟩

/-- Read a byte at a time, `grep a` on `"a\nb\nab"` writes `"a\n"`: the last piece has
no newline. -/
example : grep [97] (fun _ => 1) [97, 10, 98, 10, 97, 98] = [97, 10] := by decide

end Grep

end Xv6
