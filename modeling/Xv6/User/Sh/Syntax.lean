import Xv6.Fs.Sysfile

/-!
# The shell's command language

`user/sh.c` parses a line into a tree of `struct cmd`: an `execcmd` holds the words of a
command, a `redircmd` a command with a file, the mode to `open` it with and the descriptor
it replaces, and `pipecmd`, `listcmd` and `backcmd` join or wrap commands.  Its tokens are
the words and the symbols `|` `(` `)` `;` `&` `<` `>` `>>`.

This module states the language the parser is meant to accept, as a grammar whose
derivations build the tree:

    line   := pipe '&'* (';' line)?
    pipe   := exec ('|' pipe)?
    exec   := '(' line ')' redirs | redirs (word redirs)*     (fewer than MAXARGS words)
    redirs := (('<' | '>' | '>>') word)*

The redirections around a command nest in the order they are written, the last outermost;
the words of a simple command are its `argv`, whatever redirections stand between them.
Tokens and trees are over any type of words: the parser's words are positions in its
buffer, the user's are strings.  A derivation carries over along any map of the words
(`Derives.map`), and every derivation over the mapped tokens comes from one over the
tokens themselves (`Derives.of_map`).
-/

namespace Xv6.Sh

/-- `MAXARGS`. -/
def MAXARGS : Nat := 10

/-- The symbols among the tokens of `gettoken`. -/
inductive Sym where
  | pipe
  | lparen
  | rparen
  | semi
  | amp
  | lt
  | gt
  | gtgt
  deriving DecidableEq, Repr

/-- A token: a word, or a symbol. -/
inductive Tok (ω : Type) where
  | word (w : ω)
  | sym (s : Sym)
  deriving DecidableEq, Repr

/-- `struct cmd`: the five kinds of command, with words of type `ω`. -/
inductive Cmd (ω : Type) where
  | exec (argv : List ω)
  | redir (cmd : Cmd ω) (file : ω) (mode : Int32) (fd : Nat)
  | pipe (left right : Cmd ω)
  | list (left right : Cmd ω)
  | back (cmd : Cmd ω)
  deriving DecidableEq, Repr

variable {ω ω' : Type}

/-- The mode and the descriptor of a redirection: `<` opens `O_RDONLY` for `0`, `>` opens
`O_WRONLY|O_CREATE|O_TRUNC` for `1`, `>>` opens `O_WRONLY|O_CREATE` for `1`. -/
def Sym.redir : Sym → Option (Int32 × Nat)
  | .lt => some (O_RDONLY, 0)
  | .gt => some (O_WRONLY ||| O_CREATE ||| O_TRUNC, 1)
  | .gtgt => some (O_WRONLY ||| O_CREATE, 1)
  | _ => none

/-- `c` inside the redirections `rs`, each a file, a mode and a descriptor; the first
innermost. -/
def wrap (c : Cmd ω) : List (ω × Int32 × Nat) → Cmd ω
  | [] => c
  | (f, m, d) :: rs => wrap (.redir c f m d) rs

/-- `c` inside `n` `backcmd`s. -/
def backs (c : Cmd ω) : Nat → Cmd ω
  | 0 => c
  | n + 1 => .back (backs c n)

@[simp] theorem wrap_nil (c : Cmd ω) : wrap c [] = c := rfl

theorem wrap_append (c : Cmd ω) (rs rs' : List (ω × Int32 × Nat)) :
    wrap c (rs ++ rs') = wrap (wrap c rs) rs' := by
  induction rs generalizing c with
  | nil => rfl
  | cons r rs ih => exact ih _

/-! ## The grammar -/

/-- `redirs := (('<' | '>' | '>>') word)*`: the tokens of the redirections `rs`. -/
inductive Redirs : List (Tok ω) → List (ω × Int32 × Nat) → Prop
  | nil : Redirs [] []
  | cons {s : Sym} {md : Int32 × Nat} {w : ω} {ts rs} (hs : s.redir = some md)
      (h : Redirs ts rs) : Redirs (.sym s :: .word w :: ts) ((w, md) :: rs)

/-- `(word redirs)*`: the words `ws`, and the redirections after each in `rs`. -/
inductive Words : List (Tok ω) → List ω → List (ω × Int32 × Nat) → Prop
  | nil : Words [] [] []
  | cons {w : ω} {ts rs ts' ws rs'} (h : Redirs ts rs) (h' : Words ts' ws rs') :
      Words (.word w :: (ts ++ ts')) (w :: ws) (rs ++ rs')

/-- The nonterminals that nest. -/
inductive Nt where
  | line
  | pipe
  | exec
  deriving DecidableEq, Repr

/-- `Derives nt ts c`: the tokens `ts` are a `nt`, whose tree is `c`. -/
inductive Derives : Nt → List (Tok ω) → Cmd ω → Prop
  /-- A pipeline and its `&`s. -/
  | line {ts c} (n : Nat) (h : Derives .pipe ts c) :
      Derives .line (ts ++ List.replicate n (.sym .amp)) (backs c n)
  /-- A pipeline, its `&`s, then `;` and a line. -/
  | list {ts c ts' c'} (n : Nat) (h : Derives .pipe ts c) (h' : Derives .line ts' c') :
      Derives .line (ts ++ List.replicate n (.sym .amp) ++ .sym .semi :: ts')
        (.list (backs c n) c')
  /-- A command alone. -/
  | pipe {ts c} (h : Derives .exec ts c) : Derives .pipe ts c
  /-- A command, `|` and a pipeline. -/
  | pipeTo {ts c ts' c'} (h : Derives .exec ts c) (h' : Derives .pipe ts' c') :
      Derives .pipe (ts ++ .sym .pipe :: ts') (.pipe c c')
  /-- A line in parentheses, then redirections. -/
  | block {ts c ts' rs} (h : Derives .line ts c) (h' : Redirs ts' rs) :
      Derives .exec (.sym .lparen :: (ts ++ .sym .rparen :: ts')) (wrap c rs)
  /-- Redirections, then fewer than `MAXARGS` words with the redirections after each. -/
  | exec {ts rs ts' ws rs'} (h : Redirs ts rs) (h' : Words ts' ws rs')
      (hn : ws.length < MAXARGS) : Derives .exec (ts ++ ts') (wrap (.exec ws) (rs ++ rs'))

/-! ## Words -/

/-- The words of a token. -/
def Tok.map (f : ω → ω') : Tok ω → Tok ω'
  | .word w => .word (f w)
  | .sym s => .sym s

/-- The words of a tree. -/
def Cmd.map (f : ω → ω') : Cmd ω → Cmd ω'
  | .exec argv => .exec (argv.map f)
  | .redir c file mode fd => .redir (c.map f) (f file) mode fd
  | .pipe l r => .pipe (l.map f) (r.map f)
  | .list l r => .list (l.map f) (r.map f)
  | .back c => .back (c.map f)

/-- The files of redirections. -/
def mapFiles (f : ω → ω') (rs : List (ω × Int32 × Nat)) : List (ω' × Int32 × Nat) :=
  rs.map fun r => (f r.1, r.2)

/-- Every word of a tree: the `argv` of its commands and the files of its redirections. -/
def Cmd.words : Cmd ω → List ω
  | .exec argv => argv
  | .redir c file _ _ => c.words ++ [file]
  | .pipe l r => l.words ++ r.words
  | .list l r => l.words ++ r.words
  | .back c => c.words

@[simp] theorem Tok.map_word (f : ω → ω') (w : ω) : (Tok.word w).map f = .word (f w) := rfl

@[simp] theorem Tok.map_sym (f : ω → ω') (s : Sym) : (Tok.sym s : Tok ω).map f = .sym s := rfl

theorem Tok.map_eq_sym {f : ω → ω'} {t : Tok ω} {s : Sym} : t.map f = .sym s ↔ t = .sym s := by
  cases t <;> simp [Tok.map]

theorem Tok.map_eq_word {f : ω → ω'} {t : Tok ω} {w' : ω'} :
    t.map f = .word w' ↔ ∃ w, t = .word w ∧ f w = w' := by
  cases t <;> simp [Tok.map]

theorem map_eq_replicate_sym {f : ω → ω'} {ts : List (Tok ω)} {n : Nat} {s : Sym}
    (h : ts.map (Tok.map f) = List.replicate n (.sym s)) : ts = List.replicate n (.sym s) := by
  obtain ⟨hlen, hall⟩ := List.eq_replicate_iff.mp h
  rw [List.length_map] at hlen
  exact List.eq_replicate_iff.mpr
    ⟨hlen, fun t ht => Tok.map_eq_sym.mp (hall _ (List.mem_map_of_mem ht))⟩

theorem Cmd.map_wrap (f : ω → ω') (c : Cmd ω) (rs : List (ω × Int32 × Nat)) :
    (wrap c rs).map f = wrap (c.map f) (mapFiles f rs) := by
  induction rs generalizing c with
  | nil => rfl
  | cons r rs ih => exact ih _

theorem Cmd.map_backs (f : ω → ω') (c : Cmd ω) (n : Nat) : (backs c n).map f = backs (c.map f) n := by
  induction n with
  | zero => rfl
  | succ n ih => exact congrArg Cmd.back ih

theorem Cmd.map_congr {f g : ω → ω'} (c : Cmd ω) (h : ∀ w ∈ c.words, f w = g w) :
    c.map f = c.map g := by
  induction c with
  | exec argv => exact congrArg Cmd.exec (List.map_congr_left h)
  | redir c file mode fd ih =>
    simp only [Cmd.words, List.mem_append, List.mem_singleton] at h
    rw [Cmd.map, Cmd.map, ih fun w hw => h w (.inl hw), h file (.inr rfl)]
  | pipe l r ihl ihr =>
    simp only [Cmd.words, List.mem_append] at h
    rw [Cmd.map, Cmd.map, ihl fun w hw => h w (.inl hw), ihr fun w hw => h w (.inr hw)]
  | list l r ihl ihr =>
    simp only [Cmd.words, List.mem_append] at h
    rw [Cmd.map, Cmd.map, ihl fun w hw => h w (.inl hw), ihr fun w hw => h w (.inr hw)]
  | back c ih => exact congrArg Cmd.back (ih h)

/-! ## Derivations along a map of the words -/

section Map

variable {f : ω → ω'}

theorem Redirs.map {ts : List (Tok ω)} {rs} (h : Redirs ts rs) :
    Redirs (ts.map (Tok.map f)) (mapFiles f rs) := by
  induction h with
  | nil => exact .nil
  | cons hs _ ih => exact .cons hs ih

theorem Words.map {ts : List (Tok ω)} {ws rs} (h : Words ts ws rs) :
    Words (ts.map (Tok.map f)) (ws.map f) (mapFiles f rs) := by
  induction h with
  | nil => exact .nil
  | cons hr _ ih =>
    rw [List.map_cons, List.map_append, mapFiles, List.map_append]
    exact .cons hr.map ih

theorem Derives.map {nt} {ts : List (Tok ω)} {c} (h : Derives nt ts c) :
    Derives nt (ts.map (Tok.map f)) (c.map f) := by
  induction h with
  | line n _ ih =>
    rw [List.map_append, List.map_replicate, Cmd.map_backs]
    exact .line n ih
  | list n _ _ ih ih' =>
    simp only [List.map_append, List.map_replicate, List.map_cons, Tok.map_sym, Cmd.map,
      Cmd.map_backs]
    exact .list n ih ih'
  | pipe _ ih => exact .pipe ih
  | pipeTo _ _ ih ih' =>
    simp only [List.map_append, List.map_cons, Tok.map_sym, Cmd.map]
    exact .pipeTo ih ih'
  | block _ hr ih =>
    simp only [List.map_cons, List.map_append, Tok.map_sym, Cmd.map_wrap]
    exact .block ih hr.map
  | exec hr hw hn =>
    rw [List.map_append, Cmd.map_wrap, mapFiles, List.map_append]
    exact .exec hr.map hw.map (by rw [List.length_map]; exact hn)

theorem Redirs.of_map {ts' : List (Tok ω')} {rs'} (h : Redirs ts' rs') :
    ∀ {ts : List (Tok ω)}, ts.map (Tok.map f) = ts' → ∃ rs, Redirs ts rs ∧ mapFiles f rs = rs' := by
  induction h with
  | nil =>
    intro ts hts
    rw [List.map_eq_nil_iff] at hts
    exact ⟨[], hts ▸ .nil, rfl⟩
  | cons hs _ ih =>
    intro ts0 h0
    obtain ⟨t, ts1, rfl, ht, h1⟩ := List.map_eq_cons_iff.mp h0
    obtain ⟨u, ts2, rfl, hu, h2⟩ := List.map_eq_cons_iff.mp h1
    obtain ⟨w, rfl, rfl⟩ := Tok.map_eq_word.mp hu
    obtain ⟨rs, hrs, rfl⟩ := ih h2
    rw [Tok.map_eq_sym.mp ht]
    exact ⟨_, .cons hs hrs, rfl⟩

theorem Words.of_map {ts' : List (Tok ω')} {ws' rs'} (h : Words ts' ws' rs') :
    ∀ {ts : List (Tok ω)}, ts.map (Tok.map f) = ts' →
      ∃ ws rs, Words ts ws rs ∧ ws.map f = ws' ∧ mapFiles f rs = rs' := by
  induction h with
  | nil =>
    intro ts hts
    rw [List.map_eq_nil_iff] at hts
    exact ⟨[], [], hts ▸ .nil, rfl, rfl⟩
  | cons hr _ ih =>
    intro ts0 h0
    obtain ⟨u, ts, rfl, hu, hts⟩ := List.map_eq_cons_iff.mp h0
    obtain ⟨w, rfl, rfl⟩ := Tok.map_eq_word.mp hu
    obtain ⟨ts1, ts2, rfl, h1, h2⟩ := List.map_eq_append_iff.mp hts
    obtain ⟨rs, hrs, rfl⟩ := hr.of_map h1
    obtain ⟨ws, rs', hws, rfl, rfl⟩ := ih h2
    exact ⟨w :: ws, rs ++ rs', .cons hrs hws, rfl, by rw [mapFiles, List.map_append]; rfl⟩

theorem Derives.of_map {nt} {ts' : List (Tok ω')} {c'} (h : Derives nt ts' c') :
    ∀ {ts : List (Tok ω)}, ts.map (Tok.map f) = ts' → ∃ c, Derives nt ts c ∧ c.map f = c' := by
  induction h with
  | line n _ ih =>
    intro ts hts
    obtain ⟨ts1, ts2, rfl, h1, h2⟩ := List.map_eq_append_iff.mp hts
    obtain ⟨c, hc, rfl⟩ := ih h1
    rw [map_eq_replicate_sym h2]
    exact ⟨_, .line n hc, Cmd.map_backs f c n⟩
  | list n _ _ ih ih' =>
    intro ts hts
    obtain ⟨ts1, ts2, rfl, h1, h2⟩ := List.map_eq_append_iff.mp hts
    obtain ⟨ts1, ts3, rfl, h1, h3⟩ := List.map_eq_append_iff.mp h1
    obtain ⟨t, ts2, rfl, ht, h2⟩ := List.map_eq_cons_iff.mp h2
    obtain ⟨c, hc, rfl⟩ := ih h1
    obtain ⟨c', hc', rfl⟩ := ih' h2
    rw [map_eq_replicate_sym h3, Tok.map_eq_sym.mp ht]
    exact ⟨_, .list n hc hc', by rw [Cmd.map, Cmd.map_backs]⟩
  | pipe _ ih =>
    intro ts hts
    obtain ⟨c, hc, rfl⟩ := ih hts
    exact ⟨c, .pipe hc, rfl⟩
  | pipeTo _ _ ih ih' =>
    intro ts hts
    obtain ⟨ts1, ts2, rfl, h1, h2⟩ := List.map_eq_append_iff.mp hts
    obtain ⟨t, ts2, rfl, ht, h2⟩ := List.map_eq_cons_iff.mp h2
    obtain ⟨c, hc, rfl⟩ := ih h1
    obtain ⟨c', hc', rfl⟩ := ih' h2
    rw [Tok.map_eq_sym.mp ht]
    exact ⟨_, .pipeTo hc hc', rfl⟩
  | block _ hr ih =>
    intro ts0 h0
    obtain ⟨t, ts, rfl, ht, hts⟩ := List.map_eq_cons_iff.mp h0
    obtain ⟨ts1, ts2, rfl, h1, h2⟩ := List.map_eq_append_iff.mp hts
    obtain ⟨u, ts3, rfl, hu, h3⟩ := List.map_eq_cons_iff.mp h2
    obtain ⟨c, hc, rfl⟩ := ih h1
    obtain ⟨rs, hrs, rfl⟩ := hr.of_map h3
    rw [Tok.map_eq_sym.mp ht, Tok.map_eq_sym.mp hu]
    exact ⟨_, .block hc hrs, Cmd.map_wrap f c rs⟩
  | exec hr hw hn =>
    intro ts hts
    obtain ⟨ts1, ts2, rfl, h1, h2⟩ := List.map_eq_append_iff.mp hts
    obtain ⟨rs, hrs, rfl⟩ := hr.of_map h1
    obtain ⟨ws, rs', hws, rfl, rfl⟩ := hw.of_map h2
    refine ⟨_, .exec hrs hws (by rw [List.length_map] at hn; exact hn), ?_⟩
    rw [Cmd.map_wrap, mapFiles, mapFiles, mapFiles, List.map_append]
    rfl

end Map

/-! ## The words of a derivation are among its tokens -/

theorem words_wrap (c : Cmd ω) (rs : List (ω × Int32 × Nat)) :
    ∀ w ∈ (wrap c rs).words, w ∈ c.words ∨ ∃ r ∈ rs, r.1 = w := by
  induction rs generalizing c with
  | nil => exact fun w hw => .inl hw
  | cons r rs ih =>
    intro w hw
    rcases ih _ w hw with hw | ⟨r', hr', rfl⟩
    · simp only [Cmd.words, List.mem_append, List.mem_singleton] at hw
      rcases hw with hw | rfl
      · exact .inl hw
      · exact .inr ⟨r, List.mem_cons_self .., rfl⟩
    · exact .inr ⟨r', List.mem_cons_of_mem _ hr', rfl⟩

theorem words_backs (c : Cmd ω) (n : Nat) : (backs c n).words = c.words := by
  induction n with
  | zero => rfl
  | succ n ih => exact ih

theorem Redirs.mem {ts : List (Tok ω)} {rs} (h : Redirs ts rs) : ∀ r ∈ rs, Tok.word r.1 ∈ ts := by
  induction h with
  | nil => nofun
  | cons _ _ ih =>
    intro r hr
    rcases List.mem_cons.mp hr with rfl | hr
    · exact List.mem_cons_of_mem _ (List.mem_cons_self ..)
    · exact List.mem_cons_of_mem _ (List.mem_cons_of_mem _ (ih r hr))

theorem Words.mem {ts : List (Tok ω)} {ws rs} (h : Words ts ws rs) :
    (∀ w ∈ ws, Tok.word w ∈ ts) ∧ ∀ r ∈ rs, Tok.word r.1 ∈ ts := by
  induction h with
  | nil => exact ⟨nofun, nofun⟩
  | cons hr _ ih =>
    refine ⟨fun w hw => ?_, fun r hr' => ?_⟩
    · rcases List.mem_cons.mp hw with rfl | hw
      · exact List.mem_cons_self ..
      · exact List.mem_cons_of_mem _ (List.mem_append_right _ (ih.1 w hw))
    · rcases List.mem_append.mp hr' with hr' | hr'
      · exact List.mem_cons_of_mem _ (List.mem_append_left _ (hr.mem r hr'))
      · exact List.mem_cons_of_mem _ (List.mem_append_right _ (ih.2 r hr'))

theorem Derives.words_mem {nt} {ts : List (Tok ω)} {c} (h : Derives nt ts c) :
    ∀ w ∈ c.words, Tok.word w ∈ ts := by
  induction h with
  | line n _ ih =>
    intro w hw
    rw [words_backs] at hw
    exact List.mem_append_left _ (ih w hw)
  | list n _ _ ih ih' =>
    intro w hw
    simp only [Cmd.words, List.mem_append, words_backs] at hw
    rcases hw with hw | hw
    · exact List.mem_append_left _ (List.mem_append_left _ (ih w hw))
    · exact List.mem_append_right _ (List.mem_cons_of_mem _ (ih' w hw))
  | pipe _ ih => exact ih
  | pipeTo _ _ ih ih' =>
    intro w hw
    simp only [Cmd.words, List.mem_append] at hw
    rcases hw with hw | hw
    · exact List.mem_append_left _ (ih w hw)
    · exact List.mem_append_right _ (List.mem_cons_of_mem _ (ih' w hw))
  | block _ hr ih =>
    intro w hw
    rcases words_wrap _ _ w hw with hw | ⟨r, hr', rfl⟩
    · exact List.mem_cons_of_mem _ (List.mem_append_left _ (ih w hw))
    · exact List.mem_cons_of_mem _ (List.mem_append_right _ (List.mem_cons_of_mem _ (hr.mem r hr')))
  | exec hr hw _ =>
    intro w hw'
    rcases words_wrap _ _ w hw' with hw' | ⟨r, hr', rfl⟩
    · exact List.mem_append_right _ (hw.mem.1 w hw')
    · rcases List.mem_append.mp hr' with hr' | hr'
      · exact List.mem_append_left _ (hr.mem r hr')
      · exact List.mem_append_right _ (hw.mem.2 r hr')

end Xv6.Sh
