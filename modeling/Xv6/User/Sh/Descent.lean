import Xv6.User.Sh.Loops

/-!
# `parseline`, `parsepipe`, `parseexec` and `parseblock`

The four functions call one another, so their specs are proved together: `parse_sound`,
by induction on the fuel, from one step lemma for each (`_sound_succ`), which takes the
specs at the fuel below.  `Sound f k P fuel` is the spec of `f`: `k` is the function's rank,
one more than that of a function it calls at the same point, so that four times the tokens
left plus the rank stays below the fuel.

Completeness is by induction on the derivation (`parse_complete`), one lemma for each rule
of the grammar (`parses_line` and so on): where what may follow the nonterminal follows
its tokens, the call for it reads them and returns the tree.
-/

namespace Xv6.Sh

section Spec

variable (buf : List UInt8)

/-- The spec of the function `f` of the parser at `fuel`, from wherever `4` times the tokens
left, plus `k`, is less than the fuel: `k` is one more for a function that calls another
with the same tokens. -/
def Sound (f : Nat → Nat → Except Stop (Cmd (Nat × Nat) × Nat)) (k : Nat)
    (P : List (Tok (Nat × Nat)) → Cmd (Nat × Nat) → Prop) (fuel : Nat) : Prop :=
  ∀ p, 4 * (scan buf p).length + k < fuel → Consumed buf P p (f fuel p)

section Step

variable {fuel : Nat}

theorem parseline_sound_succ (hpipe : Sound buf (parsepipe buf) 3 (Derives .pipe) fuel)
    (hline : Sound buf (parseline buf) 4 (Derives .line) fuel) :
    Sound buf (parseline buf) 4 (Derives .line) (fuel + 1) := by
  intro p hfuel
  rw [parseline]
  apply Consumed.bind buf (hpipe p (by omega))
  intro pre1 c1 p1 hs1 _ hc1
  have hl1 := length_scan_le_of_append buf hs1
  apply Consumed.bind buf (parselineLoop_spec buf (by omega))
  rintro pre2 c2 p2 hs2 _ ⟨n, rfl, rfl⟩
  have hl2 := length_scan_le_of_append buf hs2
  dsimp only
  by_cases hsemi : strchr [59] (lead (scan buf p2)) = true
  · -- `;` and the rest of the line
    obtain ⟨ts, hts⟩ := eq_sym_of_strchr (s := .semi) (by decide) hsemi
    have hl3 := length_scan_gettoken buf hts
    rw [peek_fst buf p2 rfl, if_pos hsemi, gettoken_peek]
    apply Consumed.tok buf hts
    apply Consumed.bind buf (hline _ (by omega))
    intro pre3 c3 p3 _ _ hc3
    apply Consumed.ok_nil buf
    simpa only [List.append_assoc, List.cons_append, List.append_nil] using
      Derives.list n hc1 hc3
  · rw [peek_fst buf p2 rfl, if_neg hsemi]
    apply Consumed.ok_skipWs buf
    simpa only [List.append_nil] using Derives.line n hc1

theorem parsepipe_sound_succ (hexec : Sound buf (parseexec buf) 2 (Derives .exec) fuel)
    (hpipe : Sound buf (parsepipe buf) 3 (Derives .pipe) fuel) :
    Sound buf (parsepipe buf) 3 (Derives .pipe) (fuel + 1) := by
  intro p hfuel
  rw [parsepipe]
  apply Consumed.bind buf (hexec p (by omega))
  intro pre1 c1 p1 hs1 _ hc1
  have hl1 := length_scan_le_of_append buf hs1
  dsimp only
  by_cases hbar : strchr [124] (lead (scan buf p1)) = true
  · -- `|` and the rest of the pipeline
    obtain ⟨ts, hts⟩ := eq_sym_of_strchr (s := .pipe) (by decide) hbar
    have hl2 := length_scan_gettoken buf hts
    rw [peek_fst buf p1 rfl, if_pos hbar, gettoken_peek]
    apply Consumed.tok buf hts
    apply Consumed.bind buf (hpipe _ (by omega))
    intro pre2 c2 p2 _ _ hc2
    apply Consumed.ok_nil buf
    simpa only [List.append_nil] using Derives.pipeTo hc1 hc2
  · rw [peek_fst buf p1 rfl, if_neg hbar]
    apply Consumed.ok_skipWs buf
    simpa only [List.append_nil] using Derives.pipe hc1

theorem parseblock_sound_succ (hline : Sound buf (parseline buf) 4 (Derives .line) fuel) :
    Sound buf (parseblock buf) 1 (Derives .exec) (fuel + 1) := by
  intro p hfuel
  rw [parseblock]
  dsimp only
  by_cases hl : strchr [40] (lead (scan buf p)) = true
  · obtain ⟨ts, hts⟩ := eq_sym_of_strchr (s := .lparen) (by decide) hl
    have hl0 := length_scan_gettoken buf hts
    rw [peek_fst buf p rfl, hl, Bool.not_true, if_neg Bool.false_ne_true, gettoken_peek]
    apply Consumed.tok buf hts
    apply Consumed.bind buf (hline _ (by omega))
    intro pre1 c1 p1 hs1 _ hc1
    have hl1 := length_scan_le_of_append buf hs1
    dsimp only
    by_cases hr : strchr [41] (lead (scan buf p1)) = true
    · -- the `)` and the redirections of the block
      obtain ⟨ts', hts'⟩ := eq_sym_of_strchr (s := .rparen) (by decide) hr
      have hl2 := length_scan_gettoken buf hts'
      rw [peek_fst buf p1 rfl, hr, Bool.not_true, if_neg Bool.false_ne_true, gettoken_peek]
      apply Consumed.tok buf hts'
      refine Consumed.mono buf (parseredirs_spec buf (by omega)) ?_
      rintro pre2 c ⟨rs, hrs, rfl⟩
      exact Derives.block hc1 hrs
    · rw [peek_fst buf p1 rfl, Bool.eq_false_iff.mpr hr, Bool.not_false, if_pos rfl]
      exact Consumed.panic buf _
  · rw [peek_fst buf p rfl, Bool.eq_false_iff.mpr hl, Bool.not_false, if_pos rfl]
    exact Consumed.panic buf _

theorem parseexec_sound_succ (hblock : Sound buf (parseblock buf) 1 (Derives .exec) fuel) :
    Sound buf (parseexec buf) 2 (Derives .exec) (fuel + 1) := by
  intro p hfuel
  rw [parseexec]
  dsimp only
  by_cases hl : strchr [40] (lead (scan buf p)) = true
  · rw [peek_fst buf p rfl, if_pos hl]
    exact Consumed.peek buf [40] (hblock _ (by rw [scan_peek]; omega))
  · -- the redirections, then the loop over the words
    rw [peek_fst buf p rfl, if_neg hl]
    apply Consumed.peek buf [40]
    apply Consumed.bind buf (parseredirs_spec buf (by rw [scan_peek]; omega))
    rintro pre1 c1 p1 hs1 _ ⟨rs, hrs, rfl⟩
    have hl1 := length_scan_le_of_append buf hs1
    rw [scan_peek] at hl1
    refine Consumed.mono buf (parseexecLoop_spec buf (by omega) (by decide)) ?_
    rintro pre2 c ⟨ws, rs', hws, hn, rfl⟩
    rw [List.nil_append, setArgv_wrap, setArgv_wrap, ← wrap_append]
    exact Derives.exec hrs hws (by simpa using hn)

end Step

/-- `parseline`, `parsepipe`, `parseexec` and `parseblock` at once, by induction on the
fuel. -/
theorem parse_sound (fuel : Nat) :
    Sound buf (parseline buf) 4 (Derives .line) fuel ∧
      Sound buf (parsepipe buf) 3 (Derives .pipe) fuel ∧
      Sound buf (parseexec buf) 2 (Derives .exec) fuel ∧
      Sound buf (parseblock buf) 1 (Derives .exec) fuel := by
  induction fuel with
  | zero => refine ⟨?_, ?_, ?_, ?_⟩ <;> intro p h <;> omega
  | succ fuel ih =>
    obtain ⟨hline, hpipe, hexec, hblock⟩ := ih
    exact ⟨parseline_sound_succ buf hpipe hline, parsepipe_sound_succ buf hexec hpipe,
      parseexec_sound_succ buf hblock, parseblock_sound_succ buf hline⟩

/-! ### Completeness -/

/-- The function `f` of the parser reads the tokens `ts` from wherever they start, when what
`toks` allows follows them, and returns `c`: with the fuel `Sound` asks for. -/
def Parses (f : Nat → Nat → Except Stop (Cmd (Nat × Nat) × Nat)) (k : Nat) (toks : List UInt8)
    (ts : List (Tok (Nat × Nat))) (c : Cmd (Nat × Nat)) : Prop :=
  ∀ fuel p rest, scan buf p = ts ++ rest → Ends toks rest → 4 * (scan buf p).length + k < fuel →
    ∃ p', f fuel p = .ok (c, p') ∧ scan buf p' = rest

/-- The function for each nonterminal, its rank in `Sound`, and what may follow it. -/
def parser : Nt → Nat → Nat → Except Stop (Cmd (Nat × Nat) × Nat)
  | .line => parseline buf
  | .pipe => parsepipe buf
  | .exec => parseexec buf

def rank : Nt → Nat
  | .line => 4
  | .pipe => 3
  | .exec => 2

def follow : Nt → List UInt8
  | .line => [41]
  | .pipe => [41, 38, 59]
  | .exec => [124, 41, 38, 59]

section Complete

variable {ts ts' : List (Tok (Nat × Nat))} {c c' : Cmd (Nat × Nat)}

theorem parses_line (n : Nat) (h : Parses buf (parsepipe buf) 3 [41, 38, 59] ts c) :
    Parses buf (parseline buf) 4 [41] (ts ++ List.replicate n (.sym .amp)) (backs c n) := by
  intro fuel p rest hs hend hfuel
  obtain ⟨fuel, rfl⟩ : ∃ f, fuel = f + 1 := ⟨fuel - 1, by omega⟩
  have hend1 : Ends [41, 38, 59] (List.replicate n (.sym .amp) ++ rest) := by
    rcases n with _ | n
    · exact hend.mono (by decide)
    · exact .inr (by rfl)
  have hstop : strchr [38] (lead rest) = false := hend.strchr_eq_false (by decide) (by decide)
  obtain ⟨p1, hp1, hs1⟩ := h fuel p _ (by rw [hs, List.append_assoc]) hend1 (by omega)
  obtain ⟨p2, hp2, hs2⟩ := parselineLoop_complete buf fuel c hs1 hstop (by
    rw [hs] at hfuel
    rw [hs1]
    simp only [List.length_append] at hfuel ⊢
    omega)
  refine ⟨skipWs buf p2, ?_, by rw [scan_skipWs, hs2]⟩
  rw [parseline, hp1, ok_bind]
  dsimp only
  rw [hp2, ok_bind]
  dsimp only
  rw [peek_fst buf p2 rfl, hs2, hend.strchr_eq_false (by decide) (by decide),
    if_neg Bool.false_ne_true]
  rfl

theorem parses_list (n : Nat) (h : Parses buf (parsepipe buf) 3 [41, 38, 59] ts c)
    (h' : Parses buf (parseline buf) 4 [41] ts' c') :
    Parses buf (parseline buf) 4 [41] (ts ++ List.replicate n (.sym .amp) ++ .sym .semi :: ts')
      (.list (backs c n) c') := by
  intro fuel p rest hs hend hfuel
  obtain ⟨fuel, rfl⟩ : ∃ f, fuel = f + 1 := ⟨fuel - 1, by omega⟩
  have hend1 : Ends [41, 38, 59] (List.replicate n (.sym .amp) ++ .sym .semi :: (ts' ++ rest)) := by
    rcases n with _ | n <;> exact .inr (by rfl)
  have hlen := congrArg List.length hs
  simp only [List.length_append, List.length_cons, List.length_replicate] at hlen
  obtain ⟨p1, hp1, hs1⟩ := h fuel p _ (by
    rw [hs]
    simp only [List.append_assoc, List.cons_append]) hend1 (by omega)
  obtain ⟨p2, hp2, hs2⟩ := parselineLoop_complete buf fuel c hs1 (by rfl) (by
    rw [hs1]
    simp only [List.length_append, List.length_cons, List.length_replicate]
    omega)
  have h3 := (gettoken_sym buf hs2).2
  obtain ⟨p3, hp3, hs3⟩ := h' fuel _ rest h3 hend (by
    rw [h3, List.length_append]
    omega)
  refine ⟨p3, ?_, hs3⟩
  rw [parseline, hp1, ok_bind]
  dsimp only
  rw [hp2, ok_bind]
  dsimp only
  rw [peek_fst buf p2 rfl, hs2, if_pos (by rfl), gettoken_peek, hp3, ok_bind]

theorem parses_pipe (h : Parses buf (parseexec buf) 2 [124, 41, 38, 59] ts c) :
    Parses buf (parsepipe buf) 3 [41, 38, 59] ts c := by
  intro fuel p rest hs hend hfuel
  obtain ⟨fuel, rfl⟩ : ∃ f, fuel = f + 1 := ⟨fuel - 1, by omega⟩
  obtain ⟨p1, hp1, hs1⟩ := h fuel p rest hs (hend.mono (by decide)) (by omega)
  refine ⟨skipWs buf p1, ?_, by rw [scan_skipWs, hs1]⟩
  rw [parsepipe, hp1, ok_bind]
  dsimp only
  rw [peek_fst buf p1 rfl, hs1, hend.strchr_eq_false (by decide) (by decide),
    if_neg Bool.false_ne_true]
  rfl

theorem parses_pipeTo (h : Parses buf (parseexec buf) 2 [124, 41, 38, 59] ts c)
    (h' : Parses buf (parsepipe buf) 3 [41, 38, 59] ts' c') :
    Parses buf (parsepipe buf) 3 [41, 38, 59] (ts ++ .sym .pipe :: ts') (.pipe c c') := by
  intro fuel p rest hs hend hfuel
  obtain ⟨fuel, rfl⟩ : ∃ f, fuel = f + 1 := ⟨fuel - 1, by omega⟩
  have hlen := congrArg List.length hs
  simp only [List.length_append, List.length_cons] at hlen
  obtain ⟨p1, hp1, hs1⟩ := h fuel p (.sym .pipe :: (ts' ++ rest))
    (by rw [hs, List.append_assoc, List.cons_append]) (.inr (by rfl)) (by omega)
  have h2 := (gettoken_sym buf hs1).2
  obtain ⟨p2, hp2, hs2⟩ := h' fuel _ rest h2 hend (by
    rw [h2, List.length_append]
    omega)
  refine ⟨p2, ?_, hs2⟩
  rw [parsepipe, hp1, ok_bind]
  dsimp only
  rw [peek_fst buf p1 rfl, hs1, if_pos (by rfl), gettoken_peek, hp2, ok_bind]

theorem parses_block {rs} (h : Parses buf (parseline buf) 4 [41] ts c) (h' : Redirs ts' rs) :
    Parses buf (parseexec buf) 2 [124, 41, 38, 59] (.sym .lparen :: (ts ++ .sym .rparen :: ts'))
      (wrap c rs) := by
  intro fuel p rest hs hend hfuel
  obtain ⟨fuel, rfl⟩ : ∃ f, fuel = f + 2 := ⟨fuel - 2, by omega⟩
  have hs' : scan buf p = .sym .lparen :: (ts ++ .sym .rparen :: (ts' ++ rest)) := by
    rw [hs, List.cons_append, List.append_assoc, List.cons_append]
  have hlen := congrArg List.length hs'
  simp only [List.length_append, List.length_cons] at hlen
  have h1 := (gettoken_sym buf hs').2
  obtain ⟨p1, hp1, hs1⟩ := h fuel _ (.sym .rparen :: (ts' ++ rest)) h1 (.inr (by rfl)) (by
    rw [h1]
    simp only [List.length_append, List.length_cons]
    omega)
  have h2 := (gettoken_sym buf hs1).2
  obtain ⟨p2, hp2, hs2⟩ := parseredirs_complete buf h' fuel c h2
    (hend.strchr_eq_false (by decide) (by decide)) (by
      rw [h2, List.length_append]
      omega)
  refine ⟨p2, ?_, hs2⟩
  have hpeek : (peek buf p [40]).1 = true := by
    rw [peek_fst buf p rfl, hs']
    rfl
  have hpeek2 : (peek buf (peek buf p [40]).2 [40]).1 = true := by
    rw [peek_fst buf _ rfl, scan_peek, hs']
    rfl
  have hpeek' : (peek buf p1 [41]).1 = true := by
    rw [peek_fst buf p1 rfl, hs1]
    rfl
  -- `parseexec` sees the `(` and `parseblock` sees it again
  rw [parseexec]
  dsimp only
  rw [if_pos hpeek, parseblock]
  dsimp only
  rw [hpeek2, Bool.not_true, if_neg Bool.false_ne_true, gettoken_peek, gettoken_peek, hp1,
    ok_bind]
  dsimp only
  rw [hpeek', Bool.not_true, if_neg Bool.false_ne_true, gettoken_peek, hp2]

theorem parses_exec {rs ws rs'} (h : Redirs ts rs) (h' : Words ts' ws rs')
    (hn : ws.length < MAXARGS) :
    Parses buf (parseexec buf) 2 [124, 41, 38, 59] (ts ++ ts') (wrap (.exec ws) (rs ++ rs')) := by
  intro fuel p rest hs hend hfuel
  obtain ⟨fuel, rfl⟩ : ∃ f, fuel = f + 1 := ⟨fuel - 1, by omega⟩
  have hs' : scan buf p = ts ++ (ts' ++ rest) := by rw [hs, List.append_assoc]
  obtain ⟨p1, hp1, hs1⟩ := parseredirs_complete buf h fuel (.exec [])
    (p := (peek buf p [40]).2) (by rw [scan_peek, hs'])
    (h'.strchr_eq_false hend (by decide) (by decide) (by decide)) (by rw [scan_peek]; omega)
  obtain ⟨p2, hp2, hs2⟩ := parseexecLoop_complete buf h' fuel [] (wrap (.exec []) rs) hs1 hend (by simpa using hn) (by
      have := length_scan_le_of_append buf (hs'.trans (congrArg (ts ++ ·) hs1.symm))
      omega)
  refine ⟨p2, ?_, hs2⟩
  have hl : strchr [40] (lead (ts ++ (ts' ++ rest))) = false :=
    h.not_lparen (h'.strchr_eq_false hend (by decide) (by decide) (by decide))
  rw [parseexec]
  dsimp only
  rw [peek_fst buf p rfl, hs', hl, if_neg Bool.false_ne_true, hp1, ok_bind]
  dsimp only
  rw [hp2, List.nil_append, setArgv_wrap, setArgv_wrap, ← wrap_append]
  rfl

end Complete

/-- Each call of the parser reads all of what it derives, when what may follow it follows. -/
theorem parse_complete {nt ts c} (h : Derives nt ts c) :
    Parses buf (parser buf nt) (rank nt) (follow nt) ts c := by
  induction h with
  | line n _ ih => exact parses_line buf n ih
  | list n _ _ ih ih' => exact parses_list buf n ih ih'
  | pipe _ ih => exact parses_pipe buf ih
  | pipeTo _ _ ih ih' => exact parses_pipeTo buf ih ih'
  | block _ hr ih => exact parses_block buf ih hr
  | exec hr hw hn => exact parses_exec buf hr hw hn

end Spec

end Xv6.Sh
