import Xv6.User.Sh.Parse

/-!
# What each call of the parser consumes

A call of the parser from the point `p` of the line either panics or returns a tree and a
point `p'`; `Consumed` says that it then read the tokens `pre` with `scan buf p =
pre ++ scan buf p'`, that a property of `pre` and the tree holds, and that `p'` is still in
the line.  `Consumed.bind` is the rule for the parser's `do` blocks, and `Consumed.tok` and
`Consumed.peek` those for `gettoken` and `peek`.

Here are `parseredirs` and the loops of `parseline` and `parseexec`, each with its step
lemmas, its spec (`_spec`: by induction on the fuel) and its completeness (`_complete`:
by induction on what it reads).  `Ends` says what may follow a command, a pipeline or a
line.
-/

namespace Xv6.Sh

variable {ω : Type}

section Spec

variable (buf : List UInt8)

/-- What a call of the parser from `p` did: it returned `c` at `p'` after tokens `pre` with
`P pre c`, staying in the line; or it panicked. -/
def Consumed (P : List (Tok (Nat × Nat)) → Cmd (Nat × Nat) → Prop) (p : Nat) :
    Except Stop (Cmd (Nat × Nat) × Nat) → Prop
  | .ok (c, p') =>
    ∃ pre, scan buf p = pre ++ scan buf p' ∧ P pre c ∧ (p ≤ buf.length → p' ≤ buf.length)
  | .error e => ∃ msg, e = .panic msg

theorem ok_bind {α β : Type} (a : α) (f : α → Except Stop β) : (Except.ok a >>= f) = f a := rfl

theorem Consumed.panic {P} {p : Nat} (msg : String) : Consumed buf P p (.error (.panic msg)) :=
  ⟨msg, rfl⟩

theorem Consumed.ok_nil {R : List (Tok (Nat × Nat)) → Cmd (Nat × Nat) → Prop} {p : Nat} {c}
    (h : R [] c) : Consumed buf R p (.ok (c, p)) :=
  ⟨[], rfl, h, id⟩

theorem Consumed.mono {P Q : List (Tok (Nat × Nat)) → Cmd (Nat × Nat) → Prop} {p : Nat} {x}
    (h : Consumed buf P p x) (hPQ : ∀ pre c, P pre c → Q pre c) : Consumed buf Q p x := by
  rcases x with e | ⟨c, p'⟩
  · exact h
  · obtain ⟨pre, hs, hP, hp⟩ := h
    exact ⟨pre, hs, hPQ pre c hP, hp⟩

theorem Consumed.shift {R : List (Tok (Nat × Nat)) → Cmd (Nat × Nat) → Prop} {p p1 : Nat}
    (pre0 : List (Tok (Nat × Nat))) {x} (hs : scan buf p = pre0 ++ scan buf p1) (hp : p ≤ buf.length → p1 ≤ buf.length)
    (h : Consumed buf (fun pre => R (pre0 ++ pre)) p1 x) : Consumed buf R p x := by
  rcases x with e | ⟨c, p'⟩
  · exact h
  · obtain ⟨pre, hs', hR, hp'⟩ := h
    exact ⟨pre0 ++ pre, by rw [hs, hs', List.append_assoc], hR, fun h => hp' (hp h)⟩

theorem Consumed.ok_skipWs {R : List (Tok (Nat × Nat)) → Cmd (Nat × Nat) → Prop} {p : Nat} {c}
    (h : R [] c) : Consumed buf R p (.ok (c, skipWs buf p)) :=
  Consumed.shift buf [] (scan_skipWs buf p).symm (skipWs_le_length buf)
    (Consumed.ok_nil buf h)

theorem Consumed.tok {R : List (Tok (Nat × Nat)) → Cmd (Nat × Nat) → Prop} {p : Nat} {t ts} {x}
    (h : scan buf p = t :: ts) (hx : Consumed buf (fun pre => R (t :: pre)) (gettoken buf p).ps x) :
    Consumed buf R p x :=
  Consumed.shift buf [t] (by rw [h, (gettoken_cons buf h).2.2]; rfl)
    (gettoken_ps_le buf) hx

theorem length_scan_gettoken {p : Nat} {t ts} (h : scan buf p = t :: ts) :
    (scan buf (gettoken buf p).ps).length + 1 = (scan buf p).length := by
  rw [h, (gettoken_cons buf h).2.2, List.length_cons]

/-- The rule for a bind of the parser's monad: the tokens of the two calls one after the
other. -/
theorem Consumed.bind {P R : List (Tok (Nat × Nat)) → Cmd (Nat × Nat) → Prop} {p : Nat}
    {x : Except Stop (Cmd (Nat × Nat) × Nat)}
    {f : Cmd (Nat × Nat) × Nat → Except Stop (Cmd (Nat × Nat) × Nat)} (hx : Consumed buf P p x)
    (hf : ∀ pre c p', scan buf p = pre ++ scan buf p' → (p ≤ buf.length → p' ≤ buf.length) →
      P pre c → Consumed buf (fun pre' => R (pre ++ pre')) p' (f (c, p'))) :
    Consumed buf R p (x >>= f) := by
  rcases x with e | ⟨c, p'⟩
  · exact hx
  · obtain ⟨pre, hs, hP, hp⟩ := hx
    exact Consumed.shift buf pre hs hp (hf pre c p' hs hp hP)

@[simp] theorem lead_word (w : ω) (ts : List (Tok ω)) : lead (.word w :: ts) = 97 := rfl

theorem Consumed.peek {R : List (Tok (Nat × Nat)) → Cmd (Nat × Nat) → Prop} {p : Nat}
    (toks : List UInt8) {x}
    (h : Consumed buf R (peek buf p toks).2 x) : Consumed buf R p x :=
  Consumed.shift buf [] (scan_peek buf p toks).symm (skipWs_le_length buf) h

theorem length_scan_le_of_append {p p' : Nat} {pre} (h : scan buf p = pre ++ scan buf p') :
    (scan buf p').length ≤ (scan buf p).length := by
  rw [h, List.length_append]
  omega

theorem Sym.code_ne_zero (s : Sym) : s.code ≠ 0 := by
  cases s <;> decide

theorem Sym.code_ne_word (s : Sym) : s.code ≠ 97 := by
  cases s <;> decide

theorem eq_sym_of_strchr {ts : List (Tok ω)} {s : Sym} (hs : s.code ≠ 62)
    (h : strchr [s.code] (lead ts) = true) : ∃ ts', ts = .sym s :: ts' := by
  rcases ts with _ | ⟨_ | s', ts⟩
  · cases s <;> simp [lead, strchr, Sym.code] at h
  · cases s <;> simp [lead, strchr, Sym.code] at h
  · cases s <;> cases s' <;> simp_all [lead, strchr, Sym.code]

theorem strchr_redir_lead {ts : List (Tok ω)} :
    strchr [60, 62] (lead ts) = true ↔ ∃ s ts', ts = .sym s :: ts' ∧ s.redir ≠ none := by
  rcases ts with _ | ⟨_ | s, ts⟩
  · simp [lead, strchr]
  · simp [lead, strchr]
  · cases s <;> simp [lead, strchr, Sym.code, Sym.redir]

theorem redircmdOf_code {s : Sym} {md : Int32 × Nat} (hs : s.redir = some md)
    (cmd : Cmd (Nat × Nat)) (w : Nat × Nat) : redircmdOf s.code cmd w = .redir cmd w md.1 md.2 := by
  cases s <;> cases hs <;> rfl

/-! ### `parseredirs` -/

theorem parseredirs_stop {fuel : Nat} {cmd : Cmd (Nat × Nat)} {p : Nat}
    (h : strchr [60, 62] (lead (scan buf p)) = false) :
    parseredirs buf (fuel + 1) cmd p = .ok (cmd, skipWs buf p) := by
  rw [parseredirs]
  dsimp only
  rw [peek_fst buf p rfl, h, if_neg Bool.false_ne_true]
  rfl

theorem parseredirs_file (fuel : Nat) (cmd : Cmd (Nat × Nat)) {p : Nat} {s : Sym}
    {md : Int32 × Nat} {w : Nat × Nat} {ts} (h : scan buf p = .sym s :: .word w :: ts)
    (hs : s.redir = some md) :
    ∃ p', scan buf p' = ts ∧ (p ≤ buf.length → p' ≤ buf.length) ∧
      parseredirs buf (fuel + 1) cmd p = parseredirs buf fuel (.redir cmd w md.1 md.2) p' := by
  obtain ⟨hc, hts⟩ := gettoken_sym buf h
  obtain ⟨hw, hq, hts'⟩ := gettoken_word buf hts
  refine ⟨_, hts', fun hp => gettoken_ps_le buf (gettoken_ps_le buf hp), ?_⟩
  have hpeek : (peek buf p [60, 62]).1 = true := by
    rw [peek_fst buf p rfl, h, strchr_redir_lead]
    exact ⟨s, _, rfl, by rw [hs]; exact Option.some_ne_none _⟩
  rw [parseredirs]
  dsimp only
  rw [if_pos hpeek, gettoken_peek, if_neg (by rw [hw]; decide), hc, redircmdOf_code hs, hq]

theorem parseredirs_nofile {fuel : Nat} {cmd : Cmd (Nat × Nat)} {p : Nat} {s : Sym}
    {md : Int32 × Nat} {ts} (h : scan buf p = .sym s :: ts) (hs : s.redir = some md)
    (hw : ∀ w ts', ts ≠ .word w :: ts') :
    parseredirs buf (fuel + 1) cmd p = .error (.panic "missing file for redirection") := by
  obtain ⟨-, hts⟩ := gettoken_sym buf h
  have hpeek : (peek buf p [60, 62]).1 = true := by
    rw [peek_fst buf p rfl, h, strchr_redir_lead]
    exact ⟨s, _, rfl, by rw [hs]; exact Option.some_ne_none _⟩
  rw [parseredirs]
  dsimp only
  rw [if_pos hpeek, gettoken_peek, if_pos]
  intro h97
  exact hw _ _ (hts ▸ scan_of_ret_word buf h97)

/-- `parseredirs` reads redirections, or panics at one without a file. -/
theorem parseredirs_spec {fuel : Nat} {cmd : Cmd (Nat × Nat)} {p : Nat}
    (hfuel : 4 * (scan buf p).length < fuel) :
    Consumed buf (fun pre c => ∃ rs, Redirs pre rs ∧ c = wrap cmd rs) p
      (parseredirs buf fuel cmd p) := by
  induction fuel generalizing cmd p with
  | zero => omega
  | succ fuel ih =>
    by_cases hr : strchr [60, 62] (lead (scan buf p)) = true
    · obtain ⟨s, ts, hts, hs⟩ := strchr_redir_lead.mp hr
      obtain ⟨md, hmd⟩ := Option.ne_none_iff_exists'.mp hs
      by_cases hw : ∃ w ts', ts = .word w :: ts'
      · -- a redirection: the rest by the loop
        obtain ⟨w, ts', rfl⟩ := hw
        obtain ⟨p1, h1, hp1, heq⟩ := parseredirs_file buf fuel cmd hts hmd
        have hlen : 4 * (scan buf p1).length < fuel := by
          rw [hts, List.length_cons, List.length_cons] at hfuel
          rw [h1]
          omega
        rw [heq]
        refine Consumed.shift buf [.sym s, .word w] (by rw [hts, ← h1]; rfl) hp1
          (Consumed.mono buf (ih hlen) ?_)
        rintro pre c ⟨rs, hrs, rfl⟩
        exact ⟨(w, md) :: rs, .cons hmd hrs, rfl⟩
      · simp only [not_exists] at hw
        rw [parseredirs_nofile buf hts hmd hw]
        exact Consumed.panic buf _
    · rw [parseredirs_stop buf (Bool.eq_false_iff.mpr hr)]
      exact ⟨[], by rw [List.nil_append, scan_skipWs], ⟨[], .nil, rfl⟩, skipWs_le_length buf⟩

/-- Redirections followed by no other: `parseredirs` reads them all. -/
theorem parseredirs_complete {ts : List (Tok (Nat × Nat))} {rs} (hr : Redirs ts rs) :
    ∀ (fuel : Nat) (cmd : Cmd (Nat × Nat)) {p : Nat} {rest}, scan buf p = ts ++ rest →
      strchr [60, 62] (lead rest) = false → 4 * (scan buf p).length < fuel →
      ∃ p', parseredirs buf fuel cmd p = .ok (wrap cmd rs, p') ∧ scan buf p' = rest := by
  induction hr with
  | nil =>
    intro fuel cmd p rest h hstop hfuel
    obtain ⟨fuel, rfl⟩ : ∃ f, fuel = f + 1 := ⟨fuel - 1, by omega⟩
    rw [List.nil_append] at h
    exact ⟨_, parseredirs_stop buf (h ▸ hstop), by rw [scan_skipWs, h]⟩
  | @cons s md w ts rs hs _ ih =>
    intro fuel cmd p rest h hstop hfuel
    obtain ⟨fuel, rfl⟩ : ∃ f, fuel = f + 1 := ⟨fuel - 1, by omega⟩
    have h' : scan buf p = .sym s :: .word w :: (ts ++ rest) := h
    obtain ⟨p1, h1, -, heq⟩ := parseredirs_file buf fuel cmd h' hs
    rw [heq]
    refine ih fuel _ h1 hstop ?_
    rw [h] at hfuel
    rw [h1]
    simp only [List.cons_append, List.length_cons] at hfuel
    omega

/-! ### The loop of `parseline` -/

theorem backs_back (c : Cmd ω) (n : Nat) : backs (.back c) n = backs c (n + 1) := by
  induction n with
  | zero => rfl
  | succ n ih => rw [backs, ih]; rfl

theorem parselineLoop_stop {fuel : Nat} {cmd : Cmd (Nat × Nat)} {p : Nat}
    (h : strchr [38] (lead (scan buf p)) = false) :
    parselineLoop buf (fuel + 1) cmd p = .ok (cmd, skipWs buf p) := by
  rw [parselineLoop]
  rw [peek_fst buf p rfl, h, if_neg Bool.false_ne_true]
  rfl

theorem parselineLoop_amp {fuel : Nat} {cmd : Cmd (Nat × Nat)} {p : Nat} {ts}
    (h : scan buf p = .sym .amp :: ts) :
    parselineLoop buf (fuel + 1) cmd p = parselineLoop buf fuel (.back cmd) (gettoken buf p).ps := by
  rw [parselineLoop]
  rw [peek_fst buf p rfl, h, if_pos (by rfl), gettoken_peek]

/-- The loop of `parseline` reads `&`s, a `backcmd` for each. -/
theorem parselineLoop_spec {fuel : Nat} {cmd : Cmd (Nat × Nat)} {p : Nat}
    (hfuel : 4 * (scan buf p).length < fuel) :
    Consumed buf (fun pre c => ∃ n, pre = List.replicate n (.sym .amp) ∧ c = backs cmd n) p
      (parselineLoop buf fuel cmd p) := by
  induction fuel generalizing cmd p with
  | zero => omega
  | succ fuel ih =>
    by_cases ha : strchr [38] (lead (scan buf p)) = true
    · obtain ⟨ts, hts⟩ := eq_sym_of_strchr (s := .amp) (by decide) ha
      have hlen : 4 * (scan buf (gettoken buf p).ps).length < fuel := by
        have := length_scan_gettoken buf hts
        omega
      rw [parselineLoop_amp buf hts]
      apply Consumed.tok buf hts
      refine Consumed.mono buf (ih hlen) ?_
      rintro pre c ⟨n, rfl, rfl⟩
      exact ⟨n + 1, rfl, backs_back cmd n⟩
    · rw [parselineLoop_stop buf (Bool.eq_false_iff.mpr ha)]
      exact Consumed.ok_skipWs buf ⟨0, rfl, rfl⟩

theorem parselineLoop_complete {n : Nat} : ∀ (fuel : Nat) (cmd : Cmd (Nat × Nat)) {p : Nat} {rest},
    scan buf p = List.replicate n (.sym .amp) ++ rest → strchr [38] (lead rest) = false →
      4 * (scan buf p).length < fuel →
      ∃ p', parselineLoop buf fuel cmd p = .ok (backs cmd n, p') ∧ scan buf p' = rest := by
  induction n with
  | zero =>
    intro fuel cmd p rest h hstop hfuel
    obtain ⟨fuel, rfl⟩ : ∃ f, fuel = f + 1 := ⟨fuel - 1, by omega⟩
    rw [List.replicate_zero, List.nil_append] at h
    exact ⟨_, parselineLoop_stop buf (h ▸ hstop), by rw [scan_skipWs, h]⟩
  | succ n ih =>
    intro fuel cmd p rest h hstop hfuel
    obtain ⟨fuel, rfl⟩ : ∃ f, fuel = f + 1 := ⟨fuel - 1, by omega⟩
    have h' : scan buf p = .sym .amp :: (List.replicate n (.sym .amp) ++ rest) := h
    have hl := length_scan_gettoken buf h'
    rw [parselineLoop_amp buf h', ← backs_back]
    exact ih fuel _ (gettoken_sym buf h').2 hstop (by omega)

/-! ### The loop of `parseexec` -/

theorem setArgv_wrap (argv : List ω) (c : Cmd ω) (rs : List (ω × Int32 × Nat)) :
    (wrap c rs).setArgv argv = wrap (c.setArgv argv) rs := by
  induction rs generalizing c with
  | nil => rfl
  | cons r rs ih => rw [wrap, ih]; rfl

section ExecLoop

variable {fuel : Nat} {argv : List (Nat × Nat)} {ret : Cmd (Nat × Nat)} {p : Nat}

theorem parseexecLoop_stop (h : strchr [124, 41, 38, 59] (lead (scan buf p)) = true) :
    parseexecLoop buf (fuel + 1) argv ret p = .ok (ret.setArgv argv, skipWs buf p) := by
  rw [parseexecLoop]
  dsimp only
  rw [peek_fst buf p rfl, h, if_pos rfl]
  rfl

theorem parseexecLoop_end (h : scan buf p = []) :
    parseexecLoop buf (fuel + 1) argv ret p = .ok (ret.setArgv argv, (gettoken buf p).ps) := by
  rw [parseexecLoop]
  dsimp only
  rw [peek_fst buf p rfl, h, if_neg (by decide), gettoken_peek, if_pos (gettoken_nil buf h)]

theorem parseexecLoop_sym {s : Sym} {ts} (h : scan buf p = .sym s :: ts)
    (hs : strchr [124, 41, 38, 59] (lead (scan buf p)) = false) :
    parseexecLoop buf (fuel + 1) argv ret p = .error (.panic "syntax") := by
  have hc : (gettoken buf p).ret = s.code := gettoken_code buf h
  rw [parseexecLoop]
  dsimp only
  rw [peek_fst buf p rfl, hs, if_neg Bool.false_ne_true, gettoken_peek, hc,
    if_neg (Sym.code_ne_zero s), if_pos (Sym.code_ne_word s)]

theorem parseexecLoop_many {w ts} (h : scan buf p = .word w :: ts)
    (hn : MAXARGS ≤ argv.length + 1) :
    parseexecLoop buf (fuel + 1) argv ret p = .error (.panic "too many args") := by
  have hw := (gettoken_word buf h).1
  rw [parseexecLoop]
  dsimp only
  rw [peek_fst buf p rfl, h, lead_word, if_neg (by decide), gettoken_peek, hw,
    if_neg (by decide), if_neg (by decide), if_pos hn]

theorem parseexecLoop_word {w ts} (h : scan buf p = .word w :: ts)
    (hn : argv.length + 1 < MAXARGS) :
    parseexecLoop buf (fuel + 1) argv ret p = parseredirs buf fuel ret (gettoken buf p).ps >>=
      fun r => parseexecLoop buf fuel (argv ++ [w]) r.1 r.2 := by
  obtain ⟨hw, hq, -⟩ := gettoken_word buf h
  rw [parseexecLoop]
  dsimp only
  rw [peek_fst buf p rfl, h, lead_word, if_neg (by decide), gettoken_peek, hw,
    if_neg (by decide), if_neg (by decide), if_neg (Nat.not_le.mpr hn), hq]

/-- The loop of `parseexec` reads words, each with the redirections after it, until a
symbol that ends a command. -/
theorem parseexecLoop_spec (hfuel : 4 * (scan buf p).length < fuel)
    (hargv : argv.length < MAXARGS) :
    Consumed buf (fun pre c => ∃ ws rs, Words pre ws rs ∧ argv.length + ws.length < MAXARGS ∧
      c = (wrap ret rs).setArgv (argv ++ ws)) p (parseexecLoop buf fuel argv ret p) := by
  induction fuel generalizing argv ret p with
  | zero => omega
  | succ fuel ih =>
    have hnil : ∃ ws rs, Words [] ws rs ∧ argv.length + ws.length < MAXARGS ∧
        ret.setArgv argv = (wrap ret rs).setArgv (argv ++ ws) :=
      ⟨[], [], .nil, hargv, by rw [wrap_nil, List.append_nil]⟩
    by_cases hs : strchr [124, 41, 38, 59] (lead (scan buf p)) = true
    · rw [parseexecLoop_stop buf hs]
      exact Consumed.ok_skipWs buf hnil
    · rcases hT : scan buf p with _ | ⟨_ | s, ts⟩
      · -- the end of the line: the `break`
        rw [parseexecLoop_end buf hT]
        exact Consumed.shift buf [] (by rw [hT, scan_gettoken_nil buf hT]; rfl)
          (gettoken_ps_le buf) (Consumed.ok_nil buf hnil)
      · rename_i w
        by_cases hn : argv.length + 1 < MAXARGS
        · have hl := length_scan_gettoken buf hT
          rw [parseexecLoop_word buf hT hn]
          apply Consumed.tok buf hT
          apply Consumed.bind buf (parseredirs_spec buf (by omega))
          rintro pre1 c1 p1 hs1 - ⟨rs1, hrs1, rfl⟩
          have hlen : 4 * (scan buf p1).length < fuel := by
            have := length_scan_le_of_append buf hs1
            omega
          refine Consumed.mono buf (ih hlen (by rw [List.length_append]; exact hn)) ?_
          rintro pre2 c ⟨ws, rs2, hws, hlen', rfl⟩
          refine ⟨w :: ws, rs1 ++ rs2, .cons hrs1 hws, ?_, ?_⟩
          · rw [List.length_append, List.length_singleton] at hlen'
            rw [List.length_cons]
            omega
          · rw [wrap_append, List.append_assoc, List.singleton_append]
        · rw [parseexecLoop_many buf hT (by omega)]
          exact Consumed.panic buf _
      · rw [parseexecLoop_sym buf hT (Bool.eq_false_iff.mpr hs)]
        exact Consumed.panic buf _

/-- What may end a command, a pipeline or a line: the end of the line, or one of the
symbols `toks`. -/
def Ends (toks : List UInt8) (rest : List (Tok ω)) : Prop :=
  rest = [] ∨ strchr toks (lead rest) = true

theorem Ends.strchr_eq_false {toks toks' : List UInt8} {rest : List (Tok ω)} (h : Ends toks rest)
    (hd : toks.all (fun c => !strchr toks' c) = true) (h0 : strchr toks' 0 = false) :
    strchr toks' (lead rest) = false := by
  rcases h with rfl | h
  · exact h0
  · have hm : lead rest ∈ toks := by simpa [strchr] using h
    simpa using List.all_eq_true.mp hd _ hm

theorem Ends.mono {toks toks' : List UInt8} {rest : List (Tok ω)} (h : Ends toks rest)
    (hsub : toks.all (strchr toks') = true) : Ends toks' rest := by
  rcases h with rfl | h
  · exact .inl rfl
  · have hm : lead rest ∈ toks := by simpa [strchr] using h
    exact .inr (List.all_eq_true.mp hsub _ hm)

theorem Ends.sym {toks : List UInt8} {s : Sym} {ts : List (Tok ω)}
    (h : strchr toks (lead (.sym s :: ts)) = true) : Ends toks (.sym s :: ts) :=
  .inr h

theorem Words.eq_nil_or_word {ts : List (Tok ω)} {ws rs} (h : Words ts ws rs) :
    ts = [] ∨ ∃ w ts', ts = .word w :: ts' := by
  cases h with
  | nil => exact .inl rfl
  | cons => exact .inr ⟨_, _, rfl⟩

theorem Words.strchr_eq_false {ts : List (Tok ω)} {ws rs} {rest} {toks toks' : List UInt8}
    (h : Words ts ws rs) (hend : Ends toks rest)
    (hd : toks.all (fun c => !strchr toks' c) = true) (h0 : strchr toks' 0 = false)
    (h97 : strchr toks' 97 = false) : strchr toks' (lead (ts ++ rest)) = false := by
  rcases h.eq_nil_or_word with rfl | ⟨w, ts', rfl⟩
  · exact hend.strchr_eq_false hd h0
  · rw [List.cons_append, lead_word]
    exact h97

theorem Redirs.not_lparen {ts : List (Tok ω)} {rs} {rest} (h : Redirs ts rs)
    (hrest : strchr [40] (lead rest) = false) : strchr [40] (lead (ts ++ rest)) = false := by
  cases h with
  | nil => exact hrest
  | @cons s md w ts rs hs _ => cases s <;> first | rfl | cases hs

/-- Words and their redirections before the end of a command: the loop of `parseexec` reads
them all. -/
theorem parseexecLoop_complete {ts : List (Tok (Nat × Nat))} {ws rs} (hw : Words ts ws rs) :
    ∀ (fuel : Nat) (argv : List (Nat × Nat)) (ret : Cmd (Nat × Nat)) {p : Nat} {rest},
      scan buf p = ts ++ rest → Ends [124, 41, 38, 59] rest →
      argv.length + ws.length < MAXARGS → 4 * (scan buf p).length < fuel →
      ∃ p', parseexecLoop buf fuel argv ret p = .ok ((wrap ret rs).setArgv (argv ++ ws), p') ∧
        scan buf p' = rest := by
  induction hw with
  | nil =>
    intro fuel argv ret p rest h hend _ hfuel
    obtain ⟨fuel, rfl⟩ : ∃ f, fuel = f + 1 := ⟨fuel - 1, by omega⟩
    rw [List.nil_append] at h
    rw [wrap_nil, List.append_nil]
    rcases hend with rfl | hend
    · exact ⟨_, parseexecLoop_end buf h, scan_gettoken_nil buf h⟩
    · exact ⟨_, parseexecLoop_stop buf (h ▸ hend), by rw [scan_skipWs, h]⟩
  | @cons w ts1 rs1 ts2 ws2 rs2 hr hws ih =>
    intro fuel argv ret p rest h hend hn hfuel
    obtain ⟨fuel, rfl⟩ : ∃ f, fuel = f + 1 := ⟨fuel - 1, by omega⟩
    have h' : scan buf p = .word w :: (ts1 ++ (ts2 ++ rest)) := by
      rw [h, List.cons_append, List.append_assoc]
    have h1 := (gettoken_word buf h').2.2
    rw [List.length_cons] at hn
    rw [h', List.length_cons, List.length_append, List.length_append] at hfuel
    obtain ⟨p1, hr1, hs1⟩ := parseredirs_complete buf hr fuel ret h1
      (hws.strchr_eq_false hend (by decide) (by decide) (by decide)) (by rw [h1, List.length_append, List.length_append]; omega)
    obtain ⟨p2, hr2, hs2⟩ := ih fuel (argv ++ [w]) (wrap ret rs1) hs1 hend
      (by rw [List.length_append, List.length_singleton]; omega)
      (by rw [hs1, List.length_append]; omega)
    refine ⟨p2, ?_, hs2⟩
    rw [parseexecLoop_word buf h' (by omega), hr1, ok_bind, hr2, wrap_append, List.append_assoc,
      List.singleton_append]

end ExecLoop

end Spec

end Xv6.Sh
