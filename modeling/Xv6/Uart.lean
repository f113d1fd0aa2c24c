import Xv6.Lib.Ring
import Xv6.Lib.Outcome
import Mathlib.Data.Fintype.Basic

/-!
# The UART's transmit ring

`kernel/uart.c`: `uartputc` stores a byte in the ring `uart_tx_buf` at `uart_tx_w` and calls
`uartstart`, which hands the bytes from `uart_tx_r` on to the transmit holding register `THR`
while the line status register says the transmitter is idle; `uartintr` calls `uartstart`
too.  All of it runs under `uart_tx_lock`, which `uartputc` lets go only to sleep while the
ring is full.  So a call of `uartputc` is one step per pass of its `while`, and each
`uartstart` is part of the step of its caller.  The counters are `uint64`; the ring has
`UART_TX_BUF_SIZE` slots, which divides `2^64`.

`uartstart` reads `LSR` once per pass, and the transmitter goes busy and idle on its own,
so a step is given the idle bits its reads see.  A process asleep in `uartputc` may run
its loop again at any time; a `wakeup(&uart_tx_r)` is one such time.  `panicked` is taken
as `0`: a kernel that has panicked spins in `uartputc` before it touches the ring.

Ghost histories record the bytes stored into the ring (`stored`) and the bytes written to
`THR` (`sent`).  In every reachable state (`uart_tx_fifo`) `uart_tx_w - uart_tx_r` is at
most `UART_TX_BUF_SIZE`, the bytes sent followed by those in the ring are the bytes stored,
and a `uartstart` that finds the transmitter idle and the ring not empty first sends the
oldest byte not yet sent.
-/

namespace Xv6

open Ring

/-- `UART_TX_BUF_SIZE`. -/
def UART_TX_BUF_SIZE : Nat := 32

instance : NeZero UART_TX_BUF_SIZE := ⟨by decide⟩

theorem UART_TX_BUF_SIZE_eq : UART_TX_BUF_SIZE = 32 := rfl

/-- `uart_tx_buf`, `uart_tx_w` and `uart_tx_r`. -/
structure Uart where
  buf : Fin UART_TX_BUF_SIZE → UInt8
  w : UInt64
  r : UInt64

namespace Uart

/-- `i % UART_TX_BUF_SIZE` for a `uint64` counter `i`. -/
def slot (i : UInt64) : Fin UART_TX_BUF_SIZE := Ring.slot UART_TX_BUF_SIZE i.toNat

/-- `uart_tx_buf[uart_tx_w % UART_TX_BUF_SIZE] = c; uart_tx_w += 1`. -/
def push (u : Uart) (c : UInt8) : Uart :=
  { u with buf := Function.update u.buf (slot u.w) c, w := u.w + 1 }

/-- The loop of `uartstart` from its `i`-th read of `LSR`, whose idle bits are `lsr`: the
ring after, and the bytes written to `THR`. -/
def uartstartLoop (lsr : Nat → Bool) : Nat → Nat → Uart → Uart × List UInt8
  | 0, _, u => (u, [])
  | fuel + 1, i, u =>
    if u.w = u.r then (u, [])
    else if lsr i = false then (u, [])
    else
      let c := u.buf (slot u.r)
      -- `wakeup(&uart_tx_r)`: a process asleep in `uartputc` may run again
      let r := uartstartLoop lsr fuel (i + 1) { u with r := u.r + 1 }
      (r.1, c :: r.2)

/-- `uart_tx_w - uart_tx_r`, as the `uint64` it is. -/
def count (u : Uart) : Nat := (u.w - u.r).toNat

/-- `uartstart`: each pass sends a byte or returns, so it passes at most once per byte in
the ring and once more. -/
def uartstart (lsr : Nat → Bool) (u : Uart) : Uart × List UInt8 :=
  uartstartLoop lsr (u.count + 1) 0 u

/-- One pass of `uartputc(c)`'s loop and what follows it: `none` when the ring is full and
the caller sleeps; else the ring after the store and the `uartstart`, and the bytes sent. -/
def uartputc (lsr : Nat → Bool) (u : Uart) (c : UInt8) : Option (Uart × List UInt8) :=
  if u.w = u.r + UART_TX_BUF_SIZE.toUInt64 then none
  else some (uartstart lsr (u.push c))

/-- The bytes in the ring, oldest first. -/
def contents (u : Uart) : List UInt8 := Ring.contents u.buf u.r.toNat u.count

@[simp] theorem length_contents (u : Uart) : u.contents.length = u.count := by
  simp [contents]

/-! ## The ring as a FIFO -/

theorem slot_w (u : Uart) : slot u.w = Ring.slot UART_TX_BUF_SIZE (u.r.toNat + u.count) := by
  apply slot_congr
  have ha := u.w.toNat_lt
  have hb := u.r.toNat_lt
  simp only [count, UInt64.toNat_sub, UART_TX_BUF_SIZE_eq]
  omega

theorem full_iff (u : Uart) :
    u.w = u.r + UART_TX_BUF_SIZE.toUInt64 ↔ u.count = UART_TX_BUF_SIZE := by
  have ha := u.w.toNat_lt
  have hb := u.r.toNat_lt
  rw [← UInt64.toNat_inj]
  simp only [count, UInt64.toNat_sub, UInt64.toNat_add, UART_TX_BUF_SIZE_eq]
  simp
  omega

theorem count_eq_zero {u : Uart} : u.count = 0 ↔ u.w = u.r := by
  have ha := u.w.toNat_lt
  have hb := u.r.toNat_lt
  rw [← UInt64.toNat_inj]
  simp only [count, UInt64.toNat_sub]
  omega

theorem count_push (u : Uart) (c : UInt8) (h : u.count < UART_TX_BUF_SIZE) :
    (u.push c).count = u.count + 1 := by
  have ha := u.w.toNat_lt
  have hb := u.r.toNat_lt
  simp only [count, push, UInt64.toNat_sub, UInt64.toNat_add, UInt64.toNat_one,
    UART_TX_BUF_SIZE_eq] at *
  omega

theorem contents_push (u : Uart) (c : UInt8) (h : u.count < UART_TX_BUF_SIZE) :
    (u.push c).contents = u.contents ++ [c] := by
  have hc := u.count_push c h
  simp only [contents, hc]
  rw [push, u.slot_w]
  exact Ring.contents_push u.buf c h

theorem count_pop (u : Uart) (h : u.w ≠ u.r) :
    ({ u with r := u.r + 1 } : Uart).count + 1 = u.count := by
  have ha := u.w.toNat_lt
  have hb := u.r.toNat_lt
  have hne : u.w.toNat ≠ u.r.toNat := fun e => h (UInt64.toNat_inj.1 e)
  simp only [count, UInt64.toNat_sub, UInt64.toNat_add, UInt64.toNat_one]
  omega

theorem contents_pop (u : Uart) (h : u.w ≠ u.r) :
    u.contents = u.buf (slot u.r) :: ({ u with r := u.r + 1 } : Uart).contents := by
  have hc := u.count_pop h
  have hb := u.r.toNat_lt
  have hmod : (u.r.toNat + 1) % UART_TX_BUF_SIZE = (u.r + 1).toNat % UART_TX_BUF_SIZE := by
    simp only [UInt64.toNat_add, UInt64.toNat_one, UART_TX_BUF_SIZE_eq]
    omega
  simp only [contents]
  rw [← hc, Ring.contents_succ, contents_congr u.buf hmod]
  rfl

/-! ## What `uartstart` and `uartputc` do -/

/-- The loop of `uartstart` takes its bytes off the front of the ring, in order, and changes
nothing else. -/
theorem uartstartLoop_spec (lsr : Nat → Bool) (fuel i : Nat) (u : Uart) :
    (uartstartLoop lsr fuel i u).1.buf = u.buf ∧ (uartstartLoop lsr fuel i u).1.w = u.w ∧
      u.contents = (uartstartLoop lsr fuel i u).2 ++ (uartstartLoop lsr fuel i u).1.contents := by
  induction fuel generalizing i u with
  | zero => exact ⟨rfl, rfl, rfl⟩
  | succ fuel ih =>
    simp only [uartstartLoop]
    split_ifs with he hl
    · exact ⟨rfl, rfl, rfl⟩
    · exact ⟨rfl, rfl, rfl⟩
    · -- one byte sent, the rest by the loop from the next read
      obtain ⟨h1, h2, h3⟩ := ih (i + 1) ({ u with r := u.r + 1 } : Uart)
      refine ⟨h1, h2, ?_⟩
      rw [u.contents_pop he, h3, List.cons_append]

theorem uartstartLoop_first (lsr : Nat → Bool) (fuel i : Nat) (u : Uart) (he : u.w ≠ u.r)
    (hl : lsr i = true) :
    ∃ rest, (uartstartLoop lsr (fuel + 1) i u).2 = u.buf (slot u.r) :: rest := by
  simp only [uartstartLoop, if_neg he, hl, Bool.true_eq_false, if_false]
  exact ⟨_, rfl⟩

theorem uartstart_spec (lsr : Nat → Bool) (u : Uart) :
    (uartstart lsr u).1.buf = u.buf ∧ (uartstart lsr u).1.w = u.w ∧
      u.contents = (uartstart lsr u).2 ++ (uartstart lsr u).1.contents :=
  uartstartLoop_spec lsr _ 0 u

theorem count_uartstart_le (lsr : Nat → Bool) (u : Uart) : (uartstart lsr u).1.count ≤ u.count := by
  obtain ⟨-, -, hs⟩ := uartstart_spec lsr u
  have hlen := congrArg List.length hs
  rw [length_contents, List.length_append, length_contents] at hlen
  omega

/-- `uartstart` on a ring that is not empty, with the transmitter idle at its first read,
first sends the oldest byte in the ring. -/
theorem uartstart_sends_head (lsr : Nat → Bool) (u : Uart) (he : u.w ≠ u.r)
    (hl : lsr 0 = true) : ∃ c rest, (uartstart lsr u).2 = c :: rest ∧ u.contents.head? = some c := by
  obtain ⟨rest, hr⟩ := uartstartLoop_first lsr u.count 0 u he hl
  refine ⟨u.buf (slot u.r), rest, hr, ?_⟩
  rw [u.contents_pop he, List.head?_cons]

/-- The same, for a ring whose contents are what was stored after what was sent: the first
byte sent is the oldest stored byte not yet sent. -/
theorem uartstart_sends_oldest (lsr : Nat → Bool) (u : Uart) {sent stored : List UInt8}
    (hf : sent ++ u.contents = stored) (he : u.w ≠ u.r) (hl : lsr 0 = true) :
    ∃ c rest, (uartstart lsr u).2 = c :: rest ∧ stored[sent.length]? = some c := by
  obtain ⟨c, rest, hr, hc⟩ := u.uartstart_sends_head lsr he hl
  refine ⟨c, rest, hr, ?_⟩
  rw [← hf, List.getElem?_append_right (Nat.le_refl _), Nat.sub_self, ← List.head?_eq_getElem?]
  exact hc

/-- A pass of `uartputc` either sleeps on a full ring, or stores its byte at the end and has
`uartstart` take bytes off the front; the ring is never over full. -/
theorem uartputc_spec (lsr : Nat → Bool) (u : Uart) (c : UInt8)
    (hle : u.count ≤ UART_TX_BUF_SIZE) :
    (uartputc lsr u c = none ∧ u.count = UART_TX_BUF_SIZE) ∨
      ∃ u' out, uartputc lsr u c = some (u', out) ∧ u.contents ++ [c] = out ++ u'.contents ∧
        u'.count ≤ UART_TX_BUF_SIZE := by
  unfold uartputc
  by_cases hf : u.w = u.r + UART_TX_BUF_SIZE.toUInt64
  · exact .inl ⟨if_pos hf, (u.full_iff).1 hf⟩
  · rw [if_neg hf]
    have hlt : u.count < UART_TX_BUF_SIZE := by
      have := (u.full_iff).not.1 hf
      omega
    obtain ⟨-, -, hs⟩ := uartstart_spec lsr (u.push c)
    refine .inr ⟨(uartstart lsr (u.push c)).1, (uartstart lsr (u.push c)).2, rfl,
      by rw [← u.contents_push c hlt, hs], ?_⟩
    have hle' := count_uartstart_le lsr (u.push c)
    rw [u.count_push c hlt] at hle'
    omega

end Uart

/-! ## Processes writing to the UART -/

/-- The ring, the byte of each process asleep in `uartputc`, and the ghost histories of the
bytes stored into the ring and of the bytes written to `THR`. -/
structure UartSys (n : Nat) where
  uart : Uart
  asleep : Fin n → Option UInt8
  stored : List UInt8
  sent : List UInt8

/-- What can happen at the UART. -/
inductive UartAct (n : Nat) where
  /-- process `p` calls `uartputc(c)`, and its `uartstart` reads the idle bits `lsr` -/
  | putc (p : Fin n) (c : UInt8) (lsr : Nat → Bool)
  /-- process `p`, asleep in `uartputc`, runs its loop again -/
  | retry (p : Fin n) (lsr : Nat → Bool)
  /-- `uartintr` runs `uartstart` -/
  | intr (lsr : Nat → Bool)

variable {n : Nat}

/-- A pass of `uartputc(c)` by `p`: it sleeps, holding `c`, or stores `c` and returns. -/
def UartSys.put (s : UartSys n) (p : Fin n) (c : UInt8) (lsr : Nat → Bool) : UartSys n :=
  match s.uart.uartputc lsr c with
  | none => { s with asleep := Function.update s.asleep p (some c) }
  | some (u, out) =>
    { s with uart := u, asleep := Function.update s.asleep p none, stored := s.stored ++ [c],
             sent := s.sent ++ out }

/-- One step; `none` if it cannot be taken: a process calls `uartputc` only when it is not
asleep in one, and only a sleeping process runs its loop again. -/
def uartStep (s : UartSys n) : UartAct n → Option (UartSys n)
  | .putc p c lsr => if s.asleep p = none then some (s.put p c lsr) else none
  | .retry p lsr => (s.asleep p).map fun c => s.put p c lsr
  | .intr lsr =>
    let r := s.uart.uartstart lsr
    some { s with uart := r.1, sent := s.sent ++ r.2 }

/-- The ring of a booted kernel, with no process at the UART. -/
def UartSys.init (n : Nat) : UartSys n := ⟨⟨fun _ => 0, 0, 0⟩, fun _ => none, [], []⟩

/-- The invariant: at most `UART_TX_BUF_SIZE` bytes in the ring, and the bytes sent, then
those in the ring, are the bytes stored. -/
structure UartSys.Inv (s : UartSys n) : Prop where
  count_le : s.uart.count ≤ UART_TX_BUF_SIZE
  fifo : s.sent ++ s.uart.contents = s.stored

theorem UartSys.init_inv (n : Nat) : (UartSys.init n).Inv where
  count_le := show ((0 : UInt64) - 0).toNat ≤ UART_TX_BUF_SIZE by decide
  fifo := by simp [UartSys.init, Uart.contents, Uart.count]

theorem UartSys.Inv.put {s : UartSys n} (hi : s.Inv) (p : Fin n) (c : UInt8)
    (lsr : Nat → Bool) : (s.put p c lsr).Inv := by
  unfold UartSys.put
  rcases s.uart.uartputc_spec lsr c hi.count_le with ⟨hn, -⟩ | ⟨u', out, hs, hc, hle⟩
  · rw [hn]
    exact ⟨hi.count_le, hi.fifo⟩
  · rw [hs]
    refine ⟨hle, ?_⟩
    show s.sent ++ out ++ u'.contents = s.stored ++ [c]
    rw [List.append_assoc, ← hc, ← List.append_assoc, hi.fifo]

theorem UartSys.Inv.intr {s : UartSys n} (hi : s.Inv) (lsr : Nat → Bool) :
    ({ s with uart := (s.uart.uartstart lsr).1, sent := s.sent ++ (s.uart.uartstart lsr).2 } :
      UartSys n).Inv := by
  obtain ⟨-, -, hs⟩ := s.uart.uartstart_spec lsr
  refine ⟨(s.uart.count_uartstart_le lsr).trans hi.count_le, ?_⟩
  show s.sent ++ (s.uart.uartstart lsr).2 ++ (s.uart.uartstart lsr).1.contents = s.stored
  rw [List.append_assoc, ← hs, hi.fifo]

theorem UartSys.Inv.step {s s' : UartSys n} (hi : s.Inv) {a : UartAct n}
    (h : uartStep s a = some s') : s'.Inv := by
  cases a with
  | putc p c lsr =>
    simp only [uartStep] at h
    split_ifs at h
    cases h
    exact hi.put p c lsr
  | retry p lsr =>
    obtain ⟨c, -, rfl⟩ := Option.map_eq_some_iff.mp h
    exact hi.put p c lsr
  | intr lsr =>
    cases h
    exact hi.intr lsr

theorem uart_tx_fifo {as : List (UartAct n)} {s : UartSys n}
    (h : as.foldlM uartStep (UartSys.init n) = some s) :
    (s.uart.w - s.uart.r).toNat ≤ UART_TX_BUF_SIZE ∧ s.sent ++ s.uart.contents = s.stored ∧
      ∀ lsr (u : Uart) (stored : List UInt8),
        (u = s.uart ∧ stored = s.stored ∨
          ∃ c, s.uart.count < UART_TX_BUF_SIZE ∧ u = s.uart.push c ∧ stored = s.stored ++ [c]) →
        u.w ≠ u.r → lsr 0 = true →
        ∃ c rest, (u.uartstart lsr).2 = c :: rest ∧ stored[s.sent.length]? = some c := by
  have hi : s.Inv := Outcome.foldlM_inv _ (fun _ _ _ hi h => hi.step h) (UartSys.init_inv n) h
  refine ⟨hi.count_le, hi.fifo, ?_⟩
  -- `uartintr` runs `uartstart` on the ring as it is, `uartputc` on it with one byte more
  rintro lsr u stored (⟨rfl, rfl⟩ | ⟨c, hc, rfl, rfl⟩) he hl
  · exact s.uart.uartstart_sends_oldest lsr hi.fifo he hl
  · have hf : s.sent ++ (s.uart.push c).contents = s.stored ++ [c] := by
      rw [s.uart.contents_push c hc, ← List.append_assoc, hi.fifo]
    exact (s.uart.push c).uartstart_sends_oldest lsr hf he hl

theorem uart_tx_fifo_putc :
    ∃ s : UartSys 1,
      [UartAct.putc 0 65 (fun _ => false), .intr (fun _ => true)].foldlM uartStep
          (UartSys.init 1) = some s ∧
        (s.uart.w - s.uart.r).toNat ≤ UART_TX_BUF_SIZE ∧ s.sent ++ s.uart.contents = s.stored ∧
          ∀ lsr (u : Uart) (stored : List UInt8),
            (u = s.uart ∧ stored = s.stored ∨
              ∃ c, s.uart.count < UART_TX_BUF_SIZE ∧ u = s.uart.push c ∧
                stored = s.stored ++ [c]) →
            u.w ≠ u.r → lsr 0 = true →
            ∃ c rest, (u.uartstart lsr).2 = c :: rest ∧ stored[s.sent.length]? = some c := by
  obtain ⟨s, hs⟩ := Option.isSome_iff_exists.mp
    (by decide : ([UartAct.putc 0 65 (fun _ => false), .intr (fun _ => true)].foldlM uartStep
      (UartSys.init 1)).isSome = true)
  exact ⟨s, hs, uart_tx_fifo hs⟩

end Xv6
