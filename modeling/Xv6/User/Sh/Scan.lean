import Xv6.User.Sh.Syntax

/-!
# `gettoken` and `peek`

`user/sh.c` lines 263-321.  The parser reads its line through two functions on a pointer
`*ps` into the line, which ends at `es` with a `NUL`: `peek` skips whitespace and says
whether the next byte is one of `toks`; `gettoken` skips whitespace, reads one token,
returns its kind (`ret`: the symbol's byte, `+` for `>>`, `a` for a word, `0` at the end),
stores where it starts and ends (`q` and `eq`), and skips the whitespace after it.

Here the line is the list of its bytes before the `NUL`, and a pointer is a position in
it.  `scan buf p` is the list of tokens `gettoken` reads from `p` on, one call after
another, each word given by its positions `(q, eq)`.  The parser's calls are read off it:
`gettoken` takes its head (`gettoken_cons`, `gettoken_nil`), and `peek` looks at the first
byte of its head (`peek_fst`).  The words among its tokens are runs of bytes that are
neither whitespace nor symbols, each ended by one that is (`WordAt`).
-/

namespace Xv6.Sh

/-- `whitespace[] = " \t\r\n\v"`. -/
def whitespace : List UInt8 := [32, 9, 13, 10, 11]

/-- `symbols[] = "<|>&;()"`. -/
def symbols : List UInt8 := [60, 124, 62, 38, 59, 40, 41]

/-- `strchr(s, c)` of `user/ulib.c` is not null: `c` is one of the bytes of `s` before its
`NUL`, so never `0`. -/
def strchr (s : List UInt8) (c : UInt8) : Bool := s.contains c

/-- A byte that `gettoken` takes into a word. -/
def wordByte (c : UInt8) : Bool := !strchr whitespace c && !strchr symbols c

/-! ## Skipping -/

section Skip

variable {α : Type} (f : α → Bool)

theorem takeWhile_drop_length (l : List α) : (l.drop (l.takeWhile f).length).takeWhile f = [] := by
  induction l with
  | nil => rfl
  | cons a l ih =>
    by_cases ha : f a
    · rw [List.takeWhile_cons_of_pos ha, List.length_cons, List.drop_succ_cons]
      exact ih
    · rw [List.takeWhile_cons_of_neg ha, List.length_nil, List.drop_zero,
        List.takeWhile_cons_of_neg ha]

theorem getD_takeWhile_length (l : List α) (d : α) (h : (l.takeWhile f).length < l.length) :
    f (l.getD (l.takeWhile f).length d) = false := by
  have hd := takeWhile_drop_length f l
  rw [List.drop_eq_getElem_cons h, List.takeWhile_cons] at hd
  rw [List.getD_eq_getElem?_getD, List.getElem?_eq_getElem h, Option.getD_some]
  by_contra hf
  rw [if_pos (Bool.not_eq_false _ ▸ hf)] at hd
  exact List.cons_ne_nil _ _ hd

theorem getD_of_lt_takeWhile (l : List α) (d : α) {i : Nat} (h : i < (l.takeWhile f).length) :
    i < l.length ∧ f (l.getD i d) = true := by
  have hp := List.takeWhile_prefix f (l := l)
  have hl : i < l.length := Nat.lt_of_lt_of_le h hp.length_le
  refine ⟨hl, ?_⟩
  rw [List.getD_eq_getElem?_getD, List.getElem?_eq_getElem hl, Option.getD_some,
    ← hp.getElem h]
  exact List.all_eq_true.mp List.all_takeWhile _ (List.getElem_mem h)

end Skip

section Scan

variable (buf : List UInt8)

/-- `*s` at `p`: the byte there, or the `NUL` at `es` and past it. -/
def char (p : Nat) : UInt8 := buf.getD p 0

/-- Where `while(s < es && f(*s)) s++` from `p` stops. -/
def skip (f : UInt8 → Bool) (p : Nat) : Nat := p + ((buf.drop p).takeWhile f).length

/-- The loop `while(s < es && strchr(whitespace, *s)) s++`. -/
def skipWs (p : Nat) : Nat := skip buf (strchr whitespace) p

/-- What `gettoken(ps, es, q, eq)` returns and stores: `ret`, `*q`, `*eq` and `*ps`. -/
structure Got where
  ret : UInt8
  q : Nat
  eq : Nat
  ps : Nat

/-- `gettoken`. -/
def gettoken (p : Nat) : Got :=
  let s := skipWs buf p
  let e : UInt8 × Nat :=
    match char buf s with
    | 0 => (0, s)
    | 124 | 40 | 41 | 59 | 38 | 60 => (char buf s, s + 1)
    | 62 => if char buf (s + 1) = 62 then (43, s + 2) else (62, s + 1)
    | _ => (97, skip buf wordByte s)
  ⟨e.1, s, e.2, skipWs buf e.2⟩

/-- `peek(ps, es, toks)`: whether the byte after the whitespace is one of `toks`, and
`*ps`, moved past the whitespace. -/
def peek (p : Nat) (toks : List UInt8) : Bool × Nat :=
  let s := skipWs buf p
  (char buf s != 0 && strchr toks (char buf s), s)

end Scan

/-! ## Tokens as `gettoken` returns them -/

variable {ω : Type}

/-- The token `gettoken` read, from its `ret`, with `w` for a word. -/
def Tok.ofRet (ret : UInt8) (w : ω) : Tok ω :=
  match ret with
  | 124 => .sym .pipe
  | 40 => .sym .lparen
  | 41 => .sym .rparen
  | 59 => .sym .semi
  | 38 => .sym .amp
  | 60 => .sym .lt
  | 62 => .sym .gt
  | 43 => .sym .gtgt
  | _ => .word w

/-- The `ret` of `gettoken` for a symbol. -/
def Sym.code : Sym → UInt8
  | .pipe => 124
  | .lparen => 40
  | .rparen => 41
  | .semi => 59
  | .amp => 38
  | .lt => 60
  | .gt => 62
  | .gtgt => 43

/-- The `ret` of `gettoken` for a token. -/
def Tok.code : Tok ω → UInt8
  | .word _ => 97
  | .sym s => s.code

/-- What `peek` sees of the tokens ahead: the first byte of the first, `a` standing for
any byte of a word, and `0` at the end. -/
def lead : List (Tok ω) → UInt8
  | [] => 0
  | .word _ :: _ => 97
  | .sym .gtgt :: _ => 62
  | .sym s :: _ => s.code

section Scan

variable (buf : List UInt8)

theorem char_eq_zero {i : Nat} (h : buf.length ≤ i) : char buf i = 0 := by
  rw [char, List.getD_eq_getElem?_getD, List.getElem?_eq_none h, Option.getD_none]

theorem lt_of_char_ne_zero {i : Nat} (h : char buf i ≠ 0) : i < buf.length :=
  Nat.lt_of_not_le fun hle => h (char_eq_zero buf hle)

theorem char_drop (p i : Nat) : (buf.drop p).getD i 0 = char buf (p + i) := by
  rw [char, List.getD_eq_getElem?_getD, List.getD_eq_getElem?_getD, List.getElem?_drop]

theorem le_skip (f : UInt8 → Bool) (p : Nat) : p ≤ skip buf f p := Nat.le_add_right _ _

theorem skip_le_length (f : UInt8 → Bool) {p : Nat} (hp : p ≤ buf.length) :
    skip buf f p ≤ buf.length := by
  have := (List.takeWhile_prefix f (l := buf.drop p)).length_le
  rw [List.length_drop] at this
  unfold skip
  omega

theorem skip_stop (f : UInt8 → Bool) (p : Nat) (h : skip buf f p < buf.length) :
    f (char buf (skip buf f p)) = false := by
  have hlt : ((buf.drop p).takeWhile f).length < (buf.drop p).length := by
    rw [List.length_drop]
    unfold skip at h
    omega
  rw [skip, ← char_drop]
  exact getD_takeWhile_length f _ 0 hlt

theorem skip_pass (f : UInt8 → Bool) {p i : Nat} (h1 : p ≤ i) (h2 : i < skip buf f p) :
    i < buf.length ∧ f (char buf i) = true := by
  obtain ⟨hl, hf⟩ := getD_of_lt_takeWhile f (buf.drop p) 0 (i := i - p) (by unfold skip at h2; omega)
  rw [char_drop, Nat.add_sub_cancel' h1] at hf
  rw [List.length_drop] at hl
  exact ⟨by omega, hf⟩

theorem skip_skip (f : UInt8 → Bool) (p : Nat) : skip buf f (skip buf f p) = skip buf f p := by
  unfold skip
  rw [← List.drop_drop, takeWhile_drop_length, List.length_nil, Nat.add_zero]

theorem skipWs_skipWs (p : Nat) : skipWs buf (skipWs buf p) = skipWs buf p := skip_skip buf _ p

theorem not_whitespace_skipWs {p : Nat} (h : char buf (skipWs buf p) ≠ 0) :
    strchr whitespace (char buf (skipWs buf p)) = false :=
  skip_stop buf _ p (lt_of_char_ne_zero buf h)

/-- What `gettoken` can do, by the byte after the whitespace. -/
theorem gettoken_cases (p : Nat) :
    (gettoken buf p).q = skipWs buf p ∧ (gettoken buf p).ps = skipWs buf (gettoken buf p).eq ∧
      (char buf (skipWs buf p) = 0 ∧ (gettoken buf p).ret = 0 ∧
          (gettoken buf p).eq = skipWs buf p ∨
        char buf (skipWs buf p) ∈ [124, 40, 41, 59, 38, 60] ∧
          (gettoken buf p).ret = char buf (skipWs buf p) ∧ (gettoken buf p).eq = skipWs buf p + 1 ∨
        char buf (skipWs buf p) = 62 ∧ char buf (skipWs buf p + 1) = 62 ∧
          (gettoken buf p).ret = 43 ∧ (gettoken buf p).eq = skipWs buf p + 2 ∨
        char buf (skipWs buf p) = 62 ∧ char buf (skipWs buf p + 1) ≠ 62 ∧
          (gettoken buf p).ret = 62 ∧ (gettoken buf p).eq = skipWs buf p + 1 ∨
        char buf (skipWs buf p) ≠ 0 ∧ wordByte (char buf (skipWs buf p)) = true ∧
          (gettoken buf p).ret = 97 ∧ (gettoken buf p).eq = skip buf wordByte (skipWs buf p)) := by
  refine ⟨rfl, rfl, ?_⟩
  simp only [gettoken]
  split
  · exact .inl ⟨‹_›, rfl, rfl⟩
  case h_2 | h_3 | h_4 | h_5 | h_6 | h_7 =>
    rename_i h
    exact .inr (.inl ⟨by rw [h]; decide, rfl, rfl⟩)
  case h_8 =>
    rename_i h
    split
    · exact .inr (.inr (.inl ⟨h, ‹_›, rfl, rfl⟩))
    · exact .inr (.inr (.inr (.inl ⟨h, ‹_›, rfl, rfl⟩)))
  case h_9 =>
    -- any other byte starts a word: it is no symbol, and no whitespace after `skipWs`
    rename_i h0 h1 h2 h3 h4 h5 h6 h7
    have hs : strchr symbols (char buf (skipWs buf p)) = false := by
      rw [Bool.eq_false_iff]
      intro hc
      simp only [strchr, symbols, List.contains_cons, List.contains_nil, Bool.or_false,
        Bool.or_eq_true, beq_iff_eq] at hc
      rcases hc with h | h | h | h | h | h | h <;> contradiction
    refine .inr (.inr (.inr (.inr ⟨h0, ?_, rfl, rfl⟩)))
    rw [wordByte, not_whitespace_skipWs buf h0, hs]
    rfl

theorem gettoken_skipWs (p : Nat) : gettoken buf (skipWs buf p) = gettoken buf p := by
  simp only [gettoken, skipWs_skipWs]

theorem lt_skip {f : UInt8 → Bool} {s : Nat} (hs : s < buf.length) (hf : f (char buf s) = true) :
    s < skip buf f s := by
  have hd : buf.drop s = char buf s :: buf.drop (s + 1) := by
    rw [List.drop_eq_getElem_cons hs, char, List.getD_eq_getElem?_getD,
      List.getElem?_eq_getElem hs, Option.getD_some]
  rw [skip, hd, List.takeWhile_cons_of_pos hf, List.length_cons]
  omega

theorem gettoken_advance {p : Nat} (h : (gettoken buf p).ret ≠ 0) :
    skipWs buf p < buf.length ∧ skipWs buf p < (gettoken buf p).eq ∧
      (gettoken buf p).eq ≤ buf.length := by
  obtain ⟨-, -, h0 | ⟨hc, -, he⟩ | ⟨hc, hc', -, he⟩ | ⟨hc, -, -, he⟩ | ⟨hc, hw, -, he⟩⟩ :=
    gettoken_cases buf p
  · exact absurd h0.2.1 h
  · have hs := lt_of_char_ne_zero buf (i := skipWs buf p) (fun h0 => by rw [h0] at hc; simp at hc)
    exact ⟨hs, by omega, by omega⟩
  · have hs := lt_of_char_ne_zero buf (i := skipWs buf p + 1) (by rw [hc']; decide)
    exact ⟨by omega, by omega, by omega⟩
  · have hs := lt_of_char_ne_zero buf (i := skipWs buf p) (by rw [hc]; decide)
    exact ⟨hs, by omega, by omega⟩
  · have hs := lt_of_char_ne_zero buf hc
    rw [he]
    exact ⟨hs, lt_skip buf hs hw, skip_le_length buf _ hs.le⟩

theorem lt_gettoken_ps {p : Nat} (h : (gettoken buf p).ret ≠ 0) :
    p < buf.length ∧ p < (gettoken buf p).ps := by
  obtain ⟨hs, hlt, -⟩ := gettoken_advance buf h
  have hp := le_skip buf (strchr whitespace) p
  have he := le_skip buf (strchr whitespace) (gettoken buf p).eq
  rw [(gettoken_cases buf p).2.1]
  exact ⟨Nat.lt_of_le_of_lt hp hs, by unfold skipWs at hs hlt ⊢; omega⟩

/-- The tokens `gettoken` reads from `p` on, one call after another. -/
def scan (p : Nat) : List (Tok (Nat × Nat)) :=
  let g := gettoken buf p
  if g.ret = 0 then [] else Tok.ofRet g.ret (g.q, g.eq) :: scan g.ps
termination_by buf.length - p
decreasing_by
  rename_i h
  have := lt_gettoken_ps buf h
  omega

theorem scan_eq (p : Nat) :
    scan buf p = if (gettoken buf p).ret = 0 then [] else
      Tok.ofRet (gettoken buf p).ret ((gettoken buf p).q, (gettoken buf p).eq) ::
        scan buf (gettoken buf p).ps := by
  rw [scan]

theorem scan_skipWs (p : Nat) : scan buf (skipWs buf p) = scan buf p := by
  rw [scan_eq, scan_eq buf p, gettoken_skipWs]

theorem gettoken_nil {p : Nat} (h : scan buf p = []) : (gettoken buf p).ret = 0 := by
  rw [scan_eq] at h
  by_contra h0
  rw [if_neg h0] at h
  exact List.cons_ne_nil _ _ h

theorem gettoken_cons {p : Nat} {t ts} (h : scan buf p = t :: ts) :
    (gettoken buf p).ret ≠ 0 ∧
      Tok.ofRet (gettoken buf p).ret ((gettoken buf p).q, (gettoken buf p).eq) = t ∧
      scan buf (gettoken buf p).ps = ts := by
  rw [scan_eq] at h
  by_cases h0 : (gettoken buf p).ret = 0
  · rw [if_pos h0] at h
    cases h
  · rw [if_neg h0, List.cons.injEq] at h
    exact ⟨h0, h.1, h.2⟩

theorem gettoken_ret_mem {p : Nat} (h : (gettoken buf p).ret ≠ 0) :
    (gettoken buf p).ret ∈ [124, 40, 41, 59, 38, 60, 62, 43, 97] := by
  obtain ⟨-, -, h0 | ⟨hc, hr, -⟩ | ⟨-, -, hr, -⟩ | ⟨-, -, hr, -⟩ | ⟨-, -, hr, -⟩⟩ :=
    gettoken_cases buf p
  · exact absurd h0.2.1 h
  · rw [hr]
    exact List.mem_append_left [62, 43, 97] hc
  all_goals rw [hr]; decide

theorem code_ofRet {r : UInt8} (w : ω) (h : r ∈ [124, 40, 41, 59, 38, 60, 62, 43, 97]) :
    (Tok.ofRet r w).code = r := by
  simp only [List.mem_cons, List.not_mem_nil, or_false] at h
  rcases h with rfl | rfl | rfl | rfl | rfl | rfl | rfl | rfl | rfl <;> rfl

theorem gettoken_code {p : Nat} {t ts} (h : scan buf p = t :: ts) : (gettoken buf p).ret = t.code := by
  obtain ⟨h0, rfl, -⟩ := gettoken_cons buf h
  exact (code_ofRet _ (gettoken_ret_mem buf h0)).symm

theorem peek_fst (p : Nat) {toks : List UInt8} (htoks : toks.all (strchr symbols) = true) :
    (peek buf p toks).1 = strchr toks (lead (scan buf p)) := by
  have hno : ∀ c, strchr symbols c = false → strchr toks c = false := by
    intro c hc
    rw [Bool.eq_false_iff] at hc ⊢
    intro h
    exact hc (List.all_eq_true.mp htoks c (List.contains_iff_mem.mp h))
  simp only [peek]
  rw [scan_eq]
  obtain ⟨-, -, ⟨hc, hr, -⟩ | ⟨hc, hr, -⟩ | ⟨hc, -, hr, -⟩ | ⟨hc, -, hr, -⟩ | ⟨hc, hw, hr, -⟩⟩ :=
    gettoken_cases buf p
  · rw [if_pos hr, hc]
    exact (hno 0 rfl).symm
  · rw [if_neg (by rw [hr]; exact fun h0 => by rw [h0] at hc; simp at hc), hr]
    simp only [List.mem_cons, List.not_mem_nil, or_false] at hc
    rcases hc with hc | hc | hc | hc | hc | hc <;> rw [hc] <;> rfl
  · rw [if_neg (by rw [hr]; decide), hr, hc]
    rfl
  · rw [if_neg (by rw [hr]; decide), hr, hc]
    rfl
  · rw [if_neg (by rw [hr]; decide), hr]
    have hs : strchr symbols (char buf (skipWs buf p)) = false := by
      simp only [wordByte, Bool.and_eq_true, Bool.not_eq_true'] at hw
      exact hw.2
    rw [hno _ hs, Bool.and_false]
    exact (hno 97 rfl).symm

theorem scan_peek (p : Nat) (toks : List UInt8) : scan buf (peek buf p toks).2 = scan buf p :=
  scan_skipWs buf p

theorem gettoken_peek (p : Nat) (toks : List UInt8) :
    gettoken buf (peek buf p toks).2 = gettoken buf p :=
  gettoken_skipWs buf p

theorem gettoken_sym {p : Nat} {s : Sym} {ts} (h : scan buf p = .sym s :: ts) :
    (gettoken buf p).ret = s.code ∧ scan buf (gettoken buf p).ps = ts :=
  ⟨gettoken_code buf h, (gettoken_cons buf h).2.2⟩

theorem scan_of_ret_word {p : Nat} (h : (gettoken buf p).ret = 97) :
    scan buf p = .word ((gettoken buf p).q, (gettoken buf p).eq) :: scan buf (gettoken buf p).ps := by
  rw [scan_eq, if_neg (by rw [h]; decide), h]
  rfl

theorem gettoken_eq_of_ret_zero {p : Nat} (h : (gettoken buf p).ret = 0) :
    (gettoken buf p).eq = skipWs buf p := by
  obtain ⟨-, -, h1 | ⟨hc, hr, -⟩ | ⟨-, -, hr, -⟩ | ⟨-, -, hr, -⟩ | ⟨-, -, hr, -⟩⟩ :=
    gettoken_cases buf p
  · exact h1.2.2
  · rw [h] at hr
    rw [← hr] at hc
    simp at hc
  all_goals rw [h] at hr; cases hr

theorem ret_eq_zero_iff (p : Nat) : (gettoken buf p).ret = 0 ↔ char buf (skipWs buf p) = 0 := by
  obtain ⟨-, -, h | ⟨-, hr, -⟩ | ⟨hc, -, hr, -⟩ | ⟨hc, -, hr, -⟩ | ⟨hc, -, hr, -⟩⟩ :=
    gettoken_cases buf p
  · exact ⟨fun _ => h.1, fun _ => h.2.1⟩
  · rw [hr]
  · rw [hr, hc]
    decide
  · rw [hr, hc]
  · rw [hr]
    exact ⟨fun h => absurd h (by decide), fun h => absurd h hc⟩

theorem scan_eq_nil_iff (p : Nat) : scan buf p = [] ↔ char buf (skipWs buf p) = 0 := by
  rw [← ret_eq_zero_iff, scan_eq]
  by_cases h : (gettoken buf p).ret = 0
  · rw [if_pos h]
    exact iff_of_true rfl h
  · rw [if_neg h]
    exact iff_of_false (List.cons_ne_nil _ _) h

theorem scan_gettoken_nil {p : Nat} (h : scan buf p = []) : scan buf (gettoken buf p).ps = [] := by
  rw [(gettoken_cases buf p).2.1, gettoken_eq_of_ret_zero buf (gettoken_nil buf h), scan_skipWs,
    scan_skipWs, h]

theorem skipWs_le_length {p : Nat} (h : p ≤ buf.length) : skipWs buf p ≤ buf.length :=
  skip_le_length buf _ h

theorem gettoken_ps_le {p : Nat} (h : p ≤ buf.length) : (gettoken buf p).ps ≤ buf.length := by
  rw [(gettoken_cases buf p).2.1]
  apply skipWs_le_length
  by_cases h0 : (gettoken buf p).ret = 0
  · rw [gettoken_eq_of_ret_zero buf h0]
    exact skipWs_le_length buf h
  · exact (gettoken_advance buf h0).2.2

/-! ## Words -/

/-- A word of the line: the bytes from `q` to `eq` are in the line and go into words, and
the byte at `eq` does not, or is the end. -/
structure WordAt (q eq : Nat) : Prop where
  lt : q < eq
  le : eq ≤ buf.length
  inside : ∀ i, q ≤ i → i < eq → wordByte (char buf i) = true
  stop : eq < buf.length → wordByte (char buf eq) = false

theorem ofRet_eq_word {r : UInt8} {w w' : Nat × Nat} (h : Tok.ofRet r w = .word w') :
    r ∉ [124, 40, 41, 59, 38, 60, 62, 43] ∧ w = w' := by
  unfold Tok.ofRet at h
  split at h
  case h_9 h1 h2 h3 h4 h5 h6 h7 h8 =>
    cases h
    refine ⟨?_, rfl⟩
    simp only [List.mem_cons, List.not_mem_nil, or_false, not_or]
    exact ⟨h1, h2, h3, h4, h5, h6, h7, h8⟩
  all_goals cases h

theorem gettoken_word {p : Nat} {w : Nat × Nat} {ts} (h : scan buf p = .word w :: ts) :
    (gettoken buf p).ret = 97 ∧ ((gettoken buf p).q, (gettoken buf p).eq) = w ∧
      scan buf (gettoken buf p).ps = ts := by
  obtain ⟨-, hw, hts⟩ := gettoken_cons buf h
  exact ⟨gettoken_code buf h, (ofRet_eq_word hw).2, hts⟩

theorem wordAt_of_mem {p : Nat} {w : Nat × Nat} (h : Tok.word w ∈ scan buf p) :
    WordAt buf w.1 w.2 := by
  fun_induction scan buf p with
  | case1 => simp at h
  | case2 p g h0 ih =>
    rcases List.mem_cons.mp h with h | h
    · obtain ⟨hr, rfl⟩ := ofRet_eq_word h.symm
      obtain ⟨hq, -, h1 | ⟨hc, hr', -⟩ | ⟨-, -, hr', -⟩ | ⟨-, -, hr', -⟩ | ⟨hc, hw, -, he⟩⟩ :=
        gettoken_cases buf p
      · exact absurd h1.2.1 h0
      · exact absurd (hr' ▸ List.mem_append_left [62, 43] hc) hr
      · exact absurd (by rw [hr']; decide) hr
      · exact absurd (by rw [hr']; decide) hr
      · have hs := lt_of_char_ne_zero buf hc
        simp only [g, hq, he]
        exact ⟨lt_skip buf hs hw, skip_le_length buf _ hs.le,
          fun i h1 h2 => (skip_pass buf _ h1 h2).2, skip_stop buf _ _⟩
    · exact ih h

theorem length_scan_le (p : Nat) : (scan buf p).length ≤ buf.length - p := by
  fun_induction scan buf p with
  | case1 => exact Nat.zero_le _
  | case2 p g h0 ih =>
    have : p < buf.length ∧ p < g.ps := lt_gettoken_ps buf h0
    rw [List.length_cons]
    omega

end Scan

end Xv6.Sh
