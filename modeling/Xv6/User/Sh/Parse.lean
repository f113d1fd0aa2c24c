import Xv6.User.Sh.Scan

/-!
# `parsecmd`

`user/sh.c` lines 328-494: `parsecmd` runs `parseline` over the line, panics if anything
but whitespace is left, and then `nulterminate` writes a `NUL` after each word in the line,
so that the tree's `argv` and file pointers are strings.

The parser is a recursive descent: `parseline`, `parsepipe`, `parseexec` and `parseblock`
call one another, and `parseredirs` and the loops of `parseline` and `parseexec` read
tokens until a `peek` says to stop.  Each function here takes a `fuel` argument that one
call spends; `parsecmd` gives more than the recursion of the source needs
(`parsecmd_ok_or_panic`).  A `panic` is `Stop.panic` with its message.  `malloc` is taken to
succeed, and the trees are values: the `execcmd` that `parseexec` fills word by word,
inside the redirections that wrap it, is given its `argv` when the loop ends
(`Cmd.setArgv`).
-/

namespace Xv6.Sh

/-- How the parser stops without returning: a call of `panic`, or, in this model only, the
fuel of its recursion running out. -/
inductive Stop where
  | panic (msg : String)
  | fuel
  deriving DecidableEq, Repr

variable {ω : Type}

/-- `cmd->argv[i] = q` for each word: the `argv` of the `execcmd` inside the redirections. -/
def Cmd.setArgv (argv : List ω) : Cmd ω → Cmd ω
  | .exec _ => .exec argv
  | .redir c f m d => .redir (c.setArgv argv) f m d
  | c => c

section Parse

variable (buf : List UInt8)

/-- The `switch(tok)` of `parseredirs`: `cmd` inside the redirection that the symbol `tok`
makes to the file `w`. -/
def redircmdOf (tok : UInt8) (cmd : Cmd (Nat × Nat)) (w : Nat × Nat) : Cmd (Nat × Nat) :=
  match tok with
  | 60 => .redir cmd w O_RDONLY 0
  | 62 => .redir cmd w (O_WRONLY ||| O_CREATE ||| O_TRUNC) 1
  | 43 => .redir cmd w (O_WRONLY ||| O_CREATE) 1
  | _ => cmd

/-- `parseredirs(cmd, ps, es)`: `cmd` inside each redirection from `p` on, the last
outermost; the file is the word after the symbol. -/
def parseredirs : Nat → Cmd (Nat × Nat) → Nat → Except Stop (Cmd (Nat × Nat) × Nat)
  | 0, _, _ => .error .fuel
  | fuel + 1, cmd, p =>
    let r := peek buf p [60, 62]
    if r.1 then
      let tok := gettoken buf r.2
      let file := gettoken buf tok.ps
      if file.ret ≠ 97 then .error (.panic "missing file for redirection")
      else parseredirs fuel (redircmdOf tok.ret cmd (file.q, file.eq)) file.ps
    else .ok (cmd, r.2)

/-- The loop `while(peek(ps, es, "&"))` of `parseline`: a `backcmd` around `cmd` for each
`&`. -/
def parselineLoop : Nat → Cmd (Nat × Nat) → Nat → Except Stop (Cmd (Nat × Nat) × Nat)
  | 0, _, _ => .error .fuel
  | fuel + 1, cmd, p =>
    let r := peek buf p [38]
    if r.1 then parselineLoop fuel (.back cmd) (gettoken buf r.2).ps
    else .ok (cmd, r.2)

/-- The loop of `parseexec`: `argv` holds the words so far, and `ret` the `execcmd` inside
the redirections read so far.  A word that is the `MAXARGS`-th panics. -/
def parseexecLoop : Nat → List (Nat × Nat) → Cmd (Nat × Nat) → Nat →
    Except Stop (Cmd (Nat × Nat) × Nat)
  | 0, _, _, _ => .error .fuel
  | fuel + 1, argv, ret, p => do
    let r := peek buf p [124, 41, 38, 59]
    if r.1 then .ok (ret.setArgv argv, r.2)
    else
      let g := gettoken buf r.2
      if g.ret = 0 then .ok (ret.setArgv argv, g.ps)
      else if g.ret ≠ 97 then .error (.panic "syntax")
      else if MAXARGS ≤ argv.length + 1 then .error (.panic "too many args")
      else
        let (ret, p) ← parseredirs buf fuel ret g.ps
        parseexecLoop fuel (argv ++ [(g.q, g.eq)]) ret p

mutual

/-- `parseline`. -/
def parseline : Nat → Nat → Except Stop (Cmd (Nat × Nat) × Nat)
  | 0, _ => .error .fuel
  | fuel + 1, p => do
    let (cmd, p) ← parsepipe fuel p
    let (cmd, p) ← parselineLoop buf fuel cmd p
    let r := peek buf p [59]
    if r.1 then
      let (cmd2, p) ← parseline fuel (gettoken buf r.2).ps
      .ok (.list cmd cmd2, p)
    else .ok (cmd, r.2)

/-- `parsepipe`. -/
def parsepipe : Nat → Nat → Except Stop (Cmd (Nat × Nat) × Nat)
  | 0, _ => .error .fuel
  | fuel + 1, p => do
    let (cmd, p) ← parseexec fuel p
    let r := peek buf p [124]
    if r.1 then
      let (cmd2, p) ← parsepipe fuel (gettoken buf r.2).ps
      .ok (.pipe cmd cmd2, p)
    else .ok (cmd, r.2)

/-- `parseblock`. -/
def parseblock : Nat → Nat → Except Stop (Cmd (Nat × Nat) × Nat)
  | 0, _ => .error .fuel
  | fuel + 1, p => do
    let r := peek buf p [40]
    if !r.1 then .error (.panic "parseblock")
    else
      let (cmd, p) ← parseline fuel (gettoken buf r.2).ps
      let r := peek buf p [41]
      if !r.1 then .error (.panic "syntax - missing )")
      else parseredirs buf fuel cmd (gettoken buf r.2).ps

/-- `parseexec`. -/
def parseexec : Nat → Nat → Except Stop (Cmd (Nat × Nat) × Nat)
  | 0, _ => .error .fuel
  | fuel + 1, p => do
    let r := peek buf p [40]
    if r.1 then parseblock fuel r.2
    else
      let (ret, p) ← parseredirs buf fuel (.exec []) r.2
      parseexecLoop buf fuel [] ret p

end

end Parse

/-- `nulterminate`: a `NUL` written at the end of each word of the tree.  An end at `es`
is the line's own `NUL`. -/
def nulterminate : Cmd (Nat × Nat) → List UInt8 → List UInt8
  | .exec argv, buf => argv.foldl (fun buf a => buf.set a.2 0) buf
  | .redir cmd file _ _, buf => (nulterminate cmd buf).set file.2 0
  | .pipe l r, buf => nulterminate r (nulterminate l buf)
  | .list l r, buf => nulterminate r (nulterminate l buf)
  | .back cmd, buf => nulterminate cmd buf

/-- `parsecmd(s)` for the line `buf`, the bytes of `s` before its `NUL`: the tree, and
the line after `nulterminate`.  `leftovers` are printed before the panic. -/
def parsecmd (buf : List UInt8) : Except Stop (Cmd (Nat × Nat) × List UInt8) :=
  match parseline buf (4 * buf.length + 5) 0 with
  | .error e => .error e
  | .ok (cmd, p) =>
    if (peek buf p []).2 ≠ buf.length then .error (.panic "syntax")
    else .ok (cmd, nulterminate cmd buf)

/-- The string at `q` in the line `buf`: its bytes up to the first `NUL`. -/
def cstr (buf : List UInt8) (w : Nat × Nat) : List UInt8 := (buf.drop w.1).takeWhile (· != 0)

/-- The bytes of the line from `q` to `eq`. -/
def slice (buf : List UInt8) (w : Nat × Nat) : List UInt8 := (buf.drop w.1).take (w.2 - w.1)

/-- The tokens of the line as `gettoken` reads them, each word as its bytes. -/
def tokens (buf : List UInt8) : List (Tok (List UInt8)) := (scan buf 0).map (Tok.map (slice buf))

end Xv6.Sh
