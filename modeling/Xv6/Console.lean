import Xv6.Lib.Ring
import Xv6.Lib.Outcome
import Mathlib.Data.List.Infix

/-!
# Console input

`kernel/console.c`: the input ring `cons.buf` of `INPUT_BUF_SIZE` bytes with three `uint`
counters that wrap at `2^32` (a multiple of `INPUT_BUF_SIZE`): `r` (read), `w` (write:
the end of the committed input) and `e` (edit: the end of the line being typed).
`consoleintr` runs under `cons.lock` for each character from the UART; `consoleread`
holds the lock except while it sleeps on `r == w`, so each stretch of its loop between
two sleeps is one step, and a reader that has slept may be interleaved with anything.
Echo to the UART and `procdump` leave the input alone and are not modelled.  As in
`Xv6.Pipe`, `copyout` at `dst + i` is given by the reader's user memory: a `Bool` per
byte of its buffer.

`ConsSys` runs `n` readers with ghost histories: the bytes committed by `consoleintr` (at
`'\n'`, `^D` or a full buffer), the bytes `consoleread` took out, and the bytes it copied
to user memory.  In every reachable state (`console_invariants`):
`(w - r) mod 2^32 ≤ (e - r) mod 2^32 ≤ INPUT_BUF_SIZE`, the bytes taken out are a prefix
of those committed, and the bytes delivered are a sublist of those taken out; editing
never touches committed input (`consoleintr_edit_committed`).

`consoleread` advances `r` before its `copyout` and breaks without undoing it when the
`copyout` fails: the byte is taken out but never delivered (`consoleread_drops_byte`).
-/

namespace Xv6

open Ring

/-- `INPUT_BUF_SIZE`. -/
def INPUT_BUF_SIZE : Nat := 128

instance : NeZero INPUT_BUF_SIZE := ⟨by decide⟩

theorem INPUT_BUF_SIZE_eq : INPUT_BUF_SIZE = 128 := rfl

/-- `C(x)`: Control-x. -/
def ctrl (x : Char) : UInt8 := (x.toNat - '@'.toNat).toUInt8

/-- The input half of `cons`, less its lock. -/
structure Cons where
  buf : Fin INPUT_BUF_SIZE → UInt8
  r : UInt32
  w : UInt32
  e : UInt32

namespace Cons

/-- `i % INPUT_BUF_SIZE` for a `uint` counter `i`. -/
def slot (i : UInt32) : Fin INPUT_BUF_SIZE := Ring.slot INPUT_BUF_SIZE i.toNat

/-- `(w - r) mod 2^32`: the committed bytes not yet read. -/
def ready (cons : Cons) : Nat := (cons.w - cons.r).toNat

/-- `(e - r) mod 2^32`: every byte in the buffer. -/
def used (cons : Cons) : Nat := (cons.e - cons.r).toNat

/-- The committed bytes not yet read, oldest first. -/
def readable (cons : Cons) : List UInt8 := Ring.contents cons.buf cons.r.toNat cons.ready

end Cons

open Cons

/-! ## The interrupt handler -/

/-- The loop of `^U` (kill line): erase back to `w`, or to the last newline. -/
def killLine : Nat → Cons → Cons
  | 0, cons => cons
  | fuel + 1, cons =>
    if cons.e ≠ cons.w ∧ cons.buf (slot (cons.e - 1)) ≠ 10 then
      killLine fuel { cons with e := cons.e - 1 }
    else cons

/-- `consoleintr` for the input character `c`. -/
def consoleintr (cons : Cons) (c : UInt8) : Cons :=
  if c = ctrl 'P' then cons
  -- each pass takes one byte of the `e - w` after `w`
  else if c = ctrl 'U' then killLine (cons.e - cons.w).toNat cons
  else if c = ctrl 'H' ∨ c = 0x7f then
    if cons.e ≠ cons.w then { cons with e := cons.e - 1 } else cons
  else if c ≠ 0 ∧ cons.e - cons.r < INPUT_BUF_SIZE.toUInt32 then
    let c := if c = 13 then 10 else c
    let cons := { cons with buf := Function.update cons.buf (slot cons.e) c, e := cons.e + 1 }
    if c = 10 ∨ c = ctrl 'D' ∨ cons.e - cons.r = INPUT_BUF_SIZE.toUInt32 then
      { cons with w := cons.e }
    else cons
  else cons

/-! ## The reader -/

/-- How a stretch of `consoleread`'s loop ends. -/
inductive ReadNext where
  /-- the call returns `r`, having copied out `out` -/
  | ret (cons : Cons) (out : List UInt8) (r : Int)
  /-- `r == w`: the reader sleeps, having copied out `out`, with the user bytes `dst`
  still to fill -/
  | sleep (cons : Cons) (out : List UInt8) (dst : List Bool)

/-- `consoleread`'s loop for a read of `target` bytes, with the user bytes `dst` still to
fill (`n` is their number), while the reader holds `cons.lock`. -/
def consolereadLoop (killed : Bool) (target : Nat) : Cons → List Bool → ReadNext
  | cons, [] => .ret cons [] target
  | cons, ok :: dst =>
    if cons.r = cons.w then
      if killed then .ret cons [] (-1) else .sleep cons [] (ok :: dst)
    else
      let c := cons.buf (slot cons.r)
      let cons := { cons with r := cons.r + 1 }
      if c = ctrl 'D' then
        -- a `^D` after data is put back, for a 0-byte result next time
        .ret (if dst.length + 1 < target then { cons with r := cons.r - 1 } else cons) []
          (target - (dst.length + 1 : Nat))
      else if !ok then .ret cons [] (target - (dst.length + 1 : Nat))
      else if c = 10 then .ret cons [c] (target - dst.length)
      else
        match consolereadLoop killed target cons dst with
        | .ret cons out r => .ret cons (c :: out) r
        | .sleep cons out dst => .sleep cons (c :: out) dst

/-! ## Readers and the interrupt handler -/

/-- Where a process is with respect to the console. -/
inductive CPhase where
  | idle
  /-- inside `consoleread` of `target` bytes, with the user bytes `dst` still to fill -/
  | reading (target : Nat) (dst : List Bool)
  /-- back from a call that returned `r` -/
  | returned (r : Int)

/-- Whether a process is inside `consoleread`. -/
def CPhase.isReading : CPhase → Bool
  | .reading _ _ => true
  | _ => false

/-- The console, the processes, and the ghost histories. -/
structure ConsSys (n : Nat) where
  cons : Cons
  phase : Fin n → CPhase
  committed : List UInt8
  removed : List UInt8
  delivered : List UInt8

/-- What may happen next. -/
inductive ConsAct (n : Nat) where
  /-- `consoleintr` for a character from the UART -/
  | intr (c : UInt8)
  /-- process `p` calls `consoleread` into a buffer of `dst.length` bytes -/
  | read (p : Fin n) (dst : List Bool)
  /-- process `p` runs its loop until it sleeps or returns -/
  | readStep (p : Fin n) (killed : Bool)

variable {n : Nat}

/-- One step; `none` if it cannot be taken now: a process calls `consoleread` only outside
another call, and runs its loop only inside one. -/
def consStep (s : ConsSys n) : ConsAct n → Option (ConsSys n)
  | .intr c =>
    let cons := consoleintr s.cons c
    some { s with cons,
                  committed := s.committed ++
                    Ring.contents cons.buf s.cons.w.toNat (cons.w - s.cons.w).toNat }
  | .read p dst =>
    if (s.phase p).isReading = false then
      some { s with phase := Function.update s.phase p (.reading dst.length dst) }
    else none
  | .readStep p killed =>
    match s.phase p with
    | .reading target dst =>
      let taken (cons : Cons) := Ring.contents s.cons.buf s.cons.r.toNat (cons.r - s.cons.r).toNat
      match consolereadLoop killed target s.cons dst with
      | .ret cons out r =>
        some { s with cons, phase := Function.update s.phase p (.returned r),
                      removed := s.removed ++ taken cons, delivered := s.delivered ++ out }
      | .sleep cons out dst =>
        some { s with cons, phase := Function.update s.phase p (.reading target dst),
                      removed := s.removed ++ taken cons, delivered := s.delivered ++ out }
    | _ => none

/-- A run of steps. -/
def consExec (s : ConsSys n) (as : List (ConsAct n)) : Option (ConsSys n) :=
  as.foldlM consStep s

/-- The console after `consoleinit`: an empty buffer, every process idle. -/
def ConsSys.init (n : Nat) : ConsSys n :=
  ⟨⟨fun _ => 0, 0, 0, 0⟩, fun _ => .idle, [], [], []⟩

/-! ## Counters -/

namespace Cons

variable (cons : Cons)

theorem readable_advance {k : Nat} (hk : k ≤ cons.ready) :
    cons.readable = Ring.contents cons.buf cons.r.toNat k ++
      ({ cons with r := cons.r + k.toUInt32 } : Cons).readable ∧
    ({ cons with r := cons.r + k.toUInt32 } : Cons).ready = cons.ready - k := by
  have hr := cons.r.toNat_lt
  have hw := cons.w.toNat_lt
  have hk' : k < 2 ^ 32 := by
    have := (cons.w - cons.r).toNat_lt
    unfold ready at hk
    omega
  have hkn : k.toUInt32.toNat = k := by simp; omega
  unfold ready at hk
  have hlen : (cons.w - cons.r).toNat = k + (cons.w - (cons.r + k.toUInt32)).toNat := by
    simp only [UInt32.toNat_sub, UInt32.toNat_add, hkn] at hk ⊢
    omega
  constructor
  · have hmod : (cons.r.toNat + k) % INPUT_BUF_SIZE =
        (cons.r + k.toUInt32).toNat % INPUT_BUF_SIZE := by
      rw [UInt32.toNat_add, hkn, INPUT_BUF_SIZE_eq]
      omega
    simp only [readable, ready]
    rw [hlen, contents_add, contents_congr cons.buf hmod]
  · show (cons.w - (cons.r + k.toUInt32)).toNat = (cons.w - cons.r).toNat - k
    omega

theorem used_advance {k : Nat} (hk : k ≤ cons.used) :
    ({ cons with r := cons.r + k.toUInt32 } : Cons).used = cons.used - k := by
  have hr := cons.r.toNat_lt
  have he := cons.e.toNat_lt
  have hk' : k < 2 ^ 32 := by
    have := (cons.e - cons.r).toNat_lt
    unfold used at hk
    omega
  have hkn : k.toUInt32.toNat = k := by simp; omega
  simp only [used, UInt32.toNat_sub, UInt32.toNat_add, hkn] at hk ⊢
  omega

theorem used_retreat {k : Nat} (hk : k ≤ cons.used) :
    ({ cons with e := cons.e - k.toUInt32 } : Cons).used = cons.used - k := by
  have hr := cons.r.toNat_lt
  have he := cons.e.toNat_lt
  have hk' : k < 2 ^ 32 := by
    have := (cons.e - cons.r).toNat_lt
    unfold used at hk
    omega
  have hkn : k.toUInt32.toNat = k := by simp; omega
  simp only [used, UInt32.toNat_sub, hkn] at hk ⊢
  omega

theorem used_push (b : Fin INPUT_BUF_SIZE → UInt8) (h : cons.used < INPUT_BUF_SIZE) :
    ({ cons with buf := b, e := cons.e + 1 } : Cons).used = cons.used + 1 := by
  have hr := cons.r.toNat_lt
  have he := cons.e.toNat_lt
  simp only [used, UInt32.toNat_sub, UInt32.toNat_add, UInt32.toNat_one, INPUT_BUF_SIZE_eq] at h ⊢
  omega

theorem slot_e : slot cons.e = Ring.slot INPUT_BUF_SIZE (cons.r.toNat + cons.used) := by
  have hr := cons.r.toNat_lt
  have he := cons.e.toNat_lt
  apply slot_congr
  simp only [used, UInt32.toNat_sub, INPUT_BUF_SIZE_eq]
  omega

theorem w_mod : (cons.r.toNat + cons.ready) % INPUT_BUF_SIZE = cons.w.toNat % INPUT_BUF_SIZE := by
  have hr := cons.r.toNat_lt
  have hw := cons.w.toNat_lt
  simp only [ready, UInt32.toNat_sub, INPUT_BUF_SIZE_eq]
  omega

theorem ready_lt_of_ne (h : cons.ready ≤ cons.used) (hne : cons.e ≠ cons.w) :
    cons.ready < cons.used := by
  have hr := cons.r.toNat_lt
  have hw := cons.w.toNat_lt
  have he := cons.e.toNat_lt
  have hne' : cons.e.toNat ≠ cons.w.toNat := fun e => hne (UInt32.toNat_inj.1 e)
  simp only [ready, used, UInt32.toNat_sub] at h ⊢
  omega

theorem sub_w_push (h : cons.ready ≤ cons.used) (hu : cons.used < INPUT_BUF_SIZE) :
    (cons.e + 1 - cons.w).toNat = cons.used + 1 - cons.ready := by
  have hr := cons.r.toNat_lt
  have hw := cons.w.toNat_lt
  have he := cons.e.toNat_lt
  simp only [ready, used, UInt32.toNat_sub, UInt32.toNat_add, UInt32.toNat_one,
    INPUT_BUF_SIZE_eq] at h hu ⊢
  omega

end Cons

/-! ## What a stretch of `consoleread` takes out -/

/-- The console a stretch of the reader's loop ends with, and the bytes it copied out. -/
def ReadNext.result : ReadNext → Cons × List UInt8
  | .ret cons out _ => (cons, out)
  | .sleep cons out _ => (cons, out)

theorem ReadNext.result_push (c : UInt8) (rn : ReadNext) :
    (match rn with
      | .ret cons out r => ReadNext.ret cons (c :: out) r
      | .sleep cons out dst => ReadNext.sleep cons (c :: out) dst).result =
      (rn.result.1, c :: rn.result.2) := by
  cases rn <;> rfl

/-- A stretch of `consoleread`'s loop advances `r` by at most the committed bytes and
changes nothing else; the bytes it copies out are among those it passed. -/
theorem consolereadLoop_spec (killed : Bool) (target : Nat) (cons : Cons) (dst : List Bool) :
    ∃ k ≤ cons.ready,
      (consolereadLoop killed target cons dst).result.1 = { cons with r := cons.r + k.toUInt32 } ∧
      (consolereadLoop killed target cons dst).result.2.Sublist
        (Ring.contents cons.buf cons.r.toNat k) := by
  induction dst generalizing cons with
  | nil => exact ⟨0, Nat.zero_le _, by simp [consolereadLoop, ReadNext.result], by
      simp [consolereadLoop, ReadNext.result]⟩
  | cons ok dst ih =>
    unfold consolereadLoop
    by_cases hrw : cons.r = cons.w
    · -- nothing committed: the loop returns or sleeps where it is
      rw [if_pos hrw]
      refine ⟨0, Nat.zero_le _, ?_, ?_⟩ <;> cases killed <;> simp [ReadNext.result]
    · rw [if_neg hrw]
      have hpos : 0 < cons.ready := by
        have hr := cons.r.toNat_lt
        have hw := cons.w.toNat_lt
        have hne : cons.r.toNat ≠ cons.w.toNat := fun e => hrw (UInt32.toNat_inj.1 e)
        simp only [Cons.ready, UInt32.toNat_sub]
        omega
      have h1 : ((1 : Nat).toUInt32 : UInt32) = 1 := rfl
      by_cases hd : cons.buf (slot cons.r) = ctrl 'D'
      · -- `^D`: taken, or put back
        rw [if_pos hd]
        by_cases hb : dst.length + 1 < target
        · refine ⟨0, Nat.zero_le _, ?_, by simp [ReadNext.result]⟩
          simp [ReadNext.result, hb]
        · refine ⟨1, hpos, ?_, by simp [ReadNext.result]⟩
          simp [ReadNext.result, hb, h1]
      · rw [if_neg hd]
        cases ok with
        | false => exact ⟨1, hpos, by simp [ReadNext.result, h1], by simp [ReadNext.result]⟩
        | true =>
          simp only [Bool.not_true, Bool.false_eq_true, if_false]
          by_cases hn : cons.buf (slot cons.r) = 10
          · rw [if_pos hn]
            exact ⟨1, hpos, by simp [ReadNext.result, h1], by simp [ReadNext.result, Cons.slot]⟩
          · -- an ordinary byte: copied out, and the loop goes on from `r + 1`
            rw [if_neg hn, ReadNext.result_push]
            obtain ⟨k, hk, hc, ho⟩ := ih { cons with r := cons.r + 1 }
            obtain ⟨-, hready⟩ := cons.readable_advance (k := 1) hpos
            rw [h1] at hready
            have hr := cons.r.toNat_lt
            refine ⟨k + 1, by omega, ?_, ?_⟩
            · rw [hc]
              show ({ cons with r := cons.r + 1 + k.toUInt32 } : Cons) =
                { cons with r := cons.r + (k + 1).toUInt32 }
              congr 1
              apply UInt32.toNat_inj.1
              simp only [UInt32.toNat_add, UInt32.toNat_one]
              simp
              omega
            · have hmod : (cons.r + 1).toNat % INPUT_BUF_SIZE =
                  (cons.r.toNat + 1) % INPUT_BUF_SIZE := by
                rw [UInt32.toNat_add, UInt32.toNat_one, INPUT_BUF_SIZE_eq]
                omega
              rw [Ring.contents_succ, ← contents_congr cons.buf hmod]
              exact ho.cons_cons _

/-! ## What the interrupt handler does -/

/-- `^U` moves `e` back, never past `w`, and changes nothing else. -/
theorem killLine_spec (fuel : Nat) (cons : Cons) (h : cons.ready ≤ cons.used) :
    ∃ k ≤ cons.used - cons.ready, killLine fuel cons = { cons with e := cons.e - k.toUInt32 } := by
  induction fuel generalizing cons with
  | zero => exact ⟨0, Nat.zero_le _, by simp [killLine]⟩
  | succ fuel ih =>
    unfold killLine
    split
    · rename_i hc
      have hlt := cons.ready_lt_of_ne h hc.1
      have h1 : ((1 : Nat).toUInt32 : UInt32) = 1 := rfl
      have hu := cons.used_retreat (k := 1) (by omega)
      rw [h1] at hu
      obtain ⟨k, hk, hkl⟩ := ih { cons with e := cons.e - 1 } (by
        show cons.ready ≤ ({ cons with e := cons.e - 1 } : Cons).used
        omega)
      refine ⟨k + 1, ?_, ?_⟩
      · have : ({ cons with e := cons.e - 1 } : Cons).ready = cons.ready := rfl
        omega
      · rw [hkl]
        show ({ cons with e := cons.e - 1 - k.toUInt32 } : Cons) =
          { cons with e := cons.e - (k + 1).toUInt32 }
        congr 1
        have he := cons.e.toNat_lt
        have hk' : k + 1 < 2 ^ 32 := by
          have hu32 : cons.used < 2 ^ 32 := (cons.e - cons.r).toNat_lt
          have : ({ cons with e := cons.e - 1 } : Cons).ready = cons.ready := rfl
          omega
        apply UInt32.toNat_inj.1
        simp only [UInt32.toNat_sub, UInt32.toNat_one]
        simp
        omega
    · exact ⟨0, Nat.zero_le _, by simp⟩

/-- `consoleintr` keeps the counters in order and the buffer from overflowing, and the
readable bytes after it are those before it, then the bytes it committed. -/
theorem consoleintr_spec (cons : Cons) (c : UInt8) (h1 : cons.ready ≤ cons.used)
    (h2 : cons.used ≤ INPUT_BUF_SIZE) :
    (consoleintr cons c).r = cons.r ∧
      (consoleintr cons c).ready ≤ (consoleintr cons c).used ∧
      (consoleintr cons c).used ≤ INPUT_BUF_SIZE ∧
      (consoleintr cons c).readable = cons.readable ++
        Ring.contents (consoleintr cons c).buf cons.w.toNat ((consoleintr cons c).w - cons.w).toNat := by
  have hedit : ∀ k ≤ cons.used - cons.ready,
      let cons' : Cons := { cons with e := cons.e - k.toUInt32 }
      cons'.r = cons.r ∧ cons'.ready ≤ cons'.used ∧ cons'.used ≤ INPUT_BUF_SIZE ∧
        cons'.readable = cons.readable ++
          Ring.contents cons'.buf cons.w.toNat (cons'.w - cons.w).toNat := by
    intro k hk
    have hu := cons.used_retreat (k := k) (by omega)
    refine ⟨rfl, ?_, ?_, by simp [Cons.readable, Cons.ready]⟩
    · show cons.ready ≤ ({ cons with e := cons.e - k.toUInt32 } : Cons).used
      omega
    · omega
  have hsame : cons.readable = cons.readable ++
      Ring.contents cons.buf cons.w.toNat (cons.w - cons.w).toNat := by simp
  unfold consoleintr
  by_cases hP : c = ctrl 'P'
  · rw [if_pos hP]
    exact ⟨rfl, h1, h2, hsame⟩
  rw [if_neg hP]
  by_cases hU : c = ctrl 'U'
  · rw [if_pos hU]
    obtain ⟨k, hk, hkl⟩ := killLine_spec (cons.e - cons.w).toNat cons h1
    rw [hkl]
    exact hedit k hk
  rw [if_neg hU]
  by_cases hH : c = ctrl 'H' ∨ c = 0x7f
  · rw [if_pos hH]
    split
    · rename_i hne
      have hlt := cons.ready_lt_of_ne h1 hne
      exact hedit 1 (by omega)
    · exact ⟨rfl, h1, h2, hsame⟩
  rw [if_neg hH]
  split
  · -- a byte stored at `e`, then committed with the line
    rename_i hc
    have hlt : cons.used < INPUT_BUF_SIZE := by
      have := hc.2
      rw [UInt32.lt_iff_toNat_lt] at this
      exact this
    have hkeep : ∀ c' : UInt8,
        Ring.contents (Function.update cons.buf (slot cons.e) c') cons.r.toNat cons.ready =
          cons.readable := by
      intro c'
      rw [Cons.slot_e]
      exact contents_update_of_le cons.buf c' h1 hlt
    dsimp only
    generalize (if c = 13 then 10 else c) = c'
    have hkeep' := hkeep c'
    generalize Function.update cons.buf (slot cons.e) c' = b at hkeep' ⊢
    have hu := cons.used_push b hlt
    split
    · refine ⟨rfl, le_refl _, ?_, ?_⟩
      · show ({ cons with buf := b, e := cons.e + 1 } : Cons).used ≤ INPUT_BUF_SIZE
        omega
      · have hlen : ({ cons with buf := b, e := cons.e + 1 } : Cons).used =
            cons.ready + (cons.e + 1 - cons.w).toNat := by
          rw [hu, cons.sub_w_push h1 hlt]
          omega
        show Ring.contents b cons.r.toNat ({ cons with buf := b, e := cons.e + 1 } : Cons).used =
          cons.readable ++ Ring.contents b cons.w.toNat (cons.e + 1 - cons.w).toNat
        rw [hlen, contents_add, hkeep', contents_congr _ cons.w_mod]
    · refine ⟨rfl, ?_, ?_, ?_⟩
      · show cons.ready ≤ ({ cons with buf := b, e := cons.e + 1 } : Cons).used
        omega
      · show ({ cons with buf := b, e := cons.e + 1 } : Cons).used ≤ INPUT_BUF_SIZE
        omega
      · show Ring.contents b cons.r.toNat cons.ready =
          cons.readable ++ Ring.contents b cons.w.toNat (cons.w - cons.w).toNat
        simp [hkeep']
  · exact ⟨rfl, h1, h2, hsame⟩

/-- Backspace, delete and kill-line move `e` back, never past `w`: the committed bytes,
`r` and `w` stay as they are. -/
theorem consoleintr_edit_committed (cons : Cons) (c : UInt8) (h : cons.ready ≤ cons.used)
    (hc : c = ctrl 'H' ∨ c = 0x7f ∨ c = ctrl 'U') :
    ∃ k ≤ cons.used - cons.ready, consoleintr cons c = { cons with e := cons.e - k.toUInt32 } := by
  unfold consoleintr
  have hP : c ≠ ctrl 'P' := by
    rcases hc with rfl | rfl | rfl <;> decide
  rw [if_neg hP]
  by_cases hU : c = ctrl 'U'
  · rw [if_pos hU]
    exact killLine_spec _ cons h
  · rw [if_neg hU, if_pos (by rcases hc with h | h | h <;> [exact .inl h; exact .inr h; exact absurd h hU])]
    split
    · rename_i hne
      have hlt := cons.ready_lt_of_ne h hne
      exact ⟨1, by omega, rfl⟩
    · exact ⟨0, Nat.zero_le _, by simp⟩

/-! ## Inversion: what each step can do -/

section Steps

variable {s s' : ConsSys n}

theorem consStep_intr {c : UInt8} (h : consStep s (.intr c) = some s') :
    s' = { s with cons := consoleintr s.cons c,
                  committed := s.committed ++ Ring.contents (consoleintr s.cons c).buf
                    s.cons.w.toNat ((consoleintr s.cons c).w - s.cons.w).toNat } := by
  simp only [consStep, Option.some.injEq] at h
  exact h.symm

theorem consStep_read {p : Fin n} {dst : List Bool} (h : consStep s (.read p dst) = some s') :
    s' = { s with phase := Function.update s.phase p (.reading dst.length dst) } := by
  simp only [consStep] at h
  split at h
  · exact (Option.some.inj h).symm
  · cases h

theorem consStep_readStep {p : Fin n} {killed : Bool}
    (h : consStep s (.readStep p killed) = some s') :
    ∃ target dst ph, s.phase p = .reading target dst ∧
      s' = { s with cons := (consolereadLoop killed target s.cons dst).result.1,
                    phase := Function.update s.phase p ph,
                    removed := s.removed ++ Ring.contents s.cons.buf s.cons.r.toNat
                      ((consolereadLoop killed target s.cons dst).result.1.r - s.cons.r).toNat,
                    delivered := s.delivered ++ (consolereadLoop killed target s.cons dst).result.2 } := by
  simp only [consStep] at h
  split at h
  · rename_i target dst hp
    refine ⟨target, dst, ?_⟩
    cases hl : consolereadLoop killed target s.cons dst with
    | ret cons out r =>
      rw [hl] at h
      exact ⟨.returned r, hp, (Option.some.inj h).symm⟩
    | sleep cons out dst' =>
      rw [hl] at h
      exact ⟨.reading target dst', hp, (Option.some.inj h).symm⟩
  · cases h

end Steps

/-! ## The invariant -/

/-- The counters in order with at most `INPUT_BUF_SIZE` bytes in the buffer; the bytes
taken out, then the readable ones, are the bytes committed; and the bytes delivered are
among those taken out, in order. -/
structure ConsSys.Inv (s : ConsSys n) : Prop where
  ready_le : s.cons.ready ≤ s.cons.used
  used_le : s.cons.used ≤ INPUT_BUF_SIZE
  fifo : s.removed ++ s.cons.readable = s.committed
  delivered : s.delivered.Sublist s.removed

theorem ConsSys.init_inv : (ConsSys.init n).Inv where
  ready_le := le_refl _
  used_le := by simp [ConsSys.init, Cons.used]
  fifo := by simp [ConsSys.init, Cons.readable, Cons.ready]
  delivered := List.Sublist.slnil

section Preserve

variable {s s' : ConsSys n}

theorem ConsSys.Inv.intr {c : UInt8} (hi : s.Inv) (h : consStep s (.intr c) = some s') :
    s'.Inv := by
  rw [consStep_intr h]
  obtain ⟨-, h1, h2, hread⟩ := consoleintr_spec s.cons c hi.ready_le hi.used_le
  refine ⟨h1, h2, ?_, hi.delivered⟩
  show s.removed ++ (consoleintr s.cons c).readable = _
  rw [hread, ← List.append_assoc, hi.fifo]

theorem ConsSys.Inv.read {p : Fin n} {dst : List Bool} (hi : s.Inv)
    (h : consStep s (.read p dst) = some s') : s'.Inv := by
  rw [consStep_read h]
  exact ⟨hi.ready_le, hi.used_le, hi.fifo, hi.delivered⟩

theorem ConsSys.Inv.readStep {p : Fin n} {killed : Bool} (hi : s.Inv)
    (h : consStep s (.readStep p killed) = some s') : s'.Inv := by
  obtain ⟨target, dst, ph, -, rfl⟩ := consStep_readStep h
  obtain ⟨k, hk, hc, ho⟩ := consolereadLoop_spec killed target s.cons dst
  obtain ⟨hread, hready⟩ := s.cons.readable_advance hk
  have hused := s.cons.used_advance (Nat.le_trans hk hi.ready_le)
  have hr : ((consolereadLoop killed target s.cons dst).result.1.r - s.cons.r).toNat = k := by
    rw [hc]
    have hk' : k < 2 ^ 32 := Nat.lt_of_le_of_lt hk (s.cons.w - s.cons.r).toNat_lt
    have hkn : k.toUInt32.toNat = k := by simp; omega
    have hr0 := s.cons.r.toNat_lt
    show (s.cons.r + k.toUInt32 - s.cons.r).toNat = k
    simp only [UInt32.toNat_sub, UInt32.toNat_add, hkn]
    omega
  refine ⟨?_, ?_, ?_, ?_⟩
  · show (consolereadLoop killed target s.cons dst).result.1.ready ≤
      (consolereadLoop killed target s.cons dst).result.1.used
    rw [hc, hready, hused]
    have := hi.ready_le
    omega
  · show (consolereadLoop killed target s.cons dst).result.1.used ≤ INPUT_BUF_SIZE
    rw [hc, hused]
    have := hi.used_le
    omega
  · show s.removed ++ Ring.contents s.cons.buf s.cons.r.toNat
        ((consolereadLoop killed target s.cons dst).result.1.r - s.cons.r).toNat ++
      (consolereadLoop killed target s.cons dst).result.1.readable = s.committed
    rw [hr, hc, List.append_assoc, ← hread, hi.fifo]
  · show (s.delivered ++ (consolereadLoop killed target s.cons dst).result.2).Sublist
      (s.removed ++ Ring.contents s.cons.buf s.cons.r.toNat
        ((consolereadLoop killed target s.cons dst).result.1.r - s.cons.r).toNat)
    rw [hr]
    exact hi.delivered.append ho

theorem ConsSys.Inv.consStep (hi : s.Inv) {a : ConsAct n} (h : Xv6.consStep s a = some s') :
    s'.Inv := by
  cases a with
  | intr c => exact hi.intr h
  | read p dst => exact hi.read h
  | readStep p killed => exact hi.readStep h

end Preserve

/-- In every reachable state: `(w - r) mod 2^32 ≤ (e - r) mod 2^32 ≤ INPUT_BUF_SIZE`; the
bytes taken out by `consoleread` are a prefix of the bytes committed; and the bytes it
delivered are a sublist of those it took out. -/
theorem console_invariants {as : List (ConsAct n)} {s : ConsSys n}
    (h : consExec (ConsSys.init n) as = some s) :
    (s.cons.w - s.cons.r).toNat ≤ (s.cons.e - s.cons.r).toNat ∧
      (s.cons.e - s.cons.r).toNat ≤ INPUT_BUF_SIZE ∧ s.removed.IsPrefix s.committed ∧
      s.delivered.Sublist s.removed := by
  have hi := Outcome.foldlM_inv ConsSys.Inv (fun _ _ _ hi hs => hi.consStep hs)
    ConsSys.init_inv h
  exact ⟨hi.ready_le, hi.used_le, ⟨s.cons.readable, hi.fifo⟩, hi.delivered⟩

/-! ## A byte lost to a failed `copyout` -/

/-- The line `ab\n` is typed; one process reads three bytes into a buffer whose second
byte `copyout` cannot write: `consoleread` returns 1, having taken out `a` and `b`.  A read
of one more byte returns the newline.  The bytes delivered, `a\n`, are not a prefix of the
bytes committed, `ab\n`; and the first read returned 1 for two bytes taken out. -/
theorem consoleread_drops_byte :
    let typed : List (ConsAct 1) := [.intr 97, .intr 98, .intr 10]
    let first : List (ConsAct 1) := [.read 0 [true, false, true], .readStep 0 false]
    let second : List (ConsAct 1) := [.read 0 [true], .readStep 0 false]
    (consExec (ConsSys.init 1) (typed ++ first)).map
        (fun s => (s.phase 0, s.removed, s.delivered)) = some (.returned 1, [97, 98], [97]) ∧
    (consExec (ConsSys.init 1) (typed ++ first ++ second)).map
        (fun s => (s.delivered, s.committed)) = some ([97, 10], [97, 98, 10]) ∧
    ¬ ([97, 10] : List UInt8).IsPrefix [97, 98, 10] := by
  refine ⟨rfl, rfl, ?_⟩
  decide

end Xv6
