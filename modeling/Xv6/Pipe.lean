import Xv6.Lib.Ring
import Xv6.Vm.Copy
import Mathlib.Data.Fintype.Basic
import Mathlib.Data.List.Infix

/-!
# Pipes

`kernel/pipe.c`.  A pipe is a ring of `PIPESIZE` bytes with two `uint` counters,
`nread` and `nwrite`, that wrap at `2^32` (a multiple of `PIPESIZE`), and a flag per end.
Every function runs under `pi->lock`; `pipewrite` releases it when it sleeps on a full
pipe, so its loop is one step per pass, and a process between two passes may be
interleaved with any other.  `piperead` sleeps only before it copies, so its copy loop
is one step.  `copyin` and `copyout` are given by the caller's user memory: `pipewrite`
reads a list of `Option UInt8` (`none` where `copyin` fails) and `piperead` a list of
`Bool` (whether `copyout` succeeds at `addr + i`).

`PipeSys` runs `n` processes on one pipe with ghost histories of the bytes `pipewrite`
stored (`accepted`), the bytes `piperead` took out (`removed`) and the bytes it copied
to user memory (`delivered`).  In every reachable state (`pipe_invariants`):
`(nwrite - nread) mod 2^32 ≤ PIPESIZE`, the bytes removed are a prefix of those
accepted, the bytes delivered are a sublist of those removed, and the page is freed once,
exactly when both ends are closed.

`piperead` advances `nread` before its `copyout`: when a `copyout` fails it returns `i`
having removed `i + 1` bytes, and the byte it removed last reaches nobody
(`piperead_drops_byte`).  So the delivered bytes need not be a prefix of the accepted ones.

`pipereadUser` and `pipewriteUser` are the two calls as `fileread` and `filewrite` make
them, with `copyout` and `copyin` of one byte at a time through the caller's page table.
A read is the one `PipeSys` takes for the `copyout` outcomes the memory gives
(`pipereadUser_piperead`); a write that does not sleep appends the user bytes it counts to
the pipe's contents (`pipewriteUser_spec`).
-/

namespace Xv6

open Ring

/-- `PIPESIZE`. -/
def PIPESIZE : Nat := 512

instance : NeZero PIPESIZE := ⟨by decide⟩

theorem PIPESIZE_eq : PIPESIZE = 512 := rfl

/-- `struct pipe`, less its lock. -/
structure Pipe where
  data : Fin PIPESIZE → UInt8
  nread : UInt32
  nwrite : UInt32
  readopen : Bool
  writeopen : Bool

/-- `i % PIPESIZE` for a `uint` counter `i`. -/
def slot (i : UInt32) : Fin PIPESIZE := Ring.slot PIPESIZE i.toNat

/-- `pipealloc`'s pipe, on a fresh page holding `page`. -/
def pipealloc (page : Fin PIPESIZE → UInt8) : Pipe := ⟨page, 0, 0, true, true⟩

/-- `pipeclose`: the pipe with one end closed, and whether the page is freed. -/
def pipeclose (pi : Pipe) (writable : Bool) : Pipe × Bool :=
  let pi := if writable then { pi with writeopen := false } else { pi with readopen := false }
  (pi, !pi.readopen && !pi.writeopen)

/-- `pi->data[pi->nwrite++ % PIPESIZE] = ch`. -/
def Pipe.push (pi : Pipe) (ch : UInt8) : Pipe :=
  { pi with data := Function.update pi.data (slot pi.nwrite) ch, nwrite := pi.nwrite + 1 }

/-- What one pass of `pipewrite`'s loop does. -/
inductive WriteNext where
  /-- the loop returns `r` -/
  | ret (r : Int)
  /-- the pipe is full: the writer sleeps and runs the pass again when woken -/
  | sleep
  /-- one byte stored, on to the next -/
  | next (pi : Pipe)

/-- One pass of `pipewrite`'s `while(i < n)` loop, at user byte `c` (`none` where
`copyin` fails). -/
def pipewrite (pi : Pipe) (killed : Bool) (c : Option UInt8) (i : Nat) : WriteNext :=
  if !pi.readopen || killed then .ret (-1)
  else if pi.nwrite = pi.nread + PIPESIZE.toUInt32 then .sleep
  else
    match c with
    | none => .ret i
    | some ch => .next (pi.push ch)

/-- `piperead`'s copy loop from byte `i`: the pipe, the bytes copied out, and `i` at the
end.  `nread` advances before the `copyout`. -/
def pipereadCopy (pi : Pipe) : List Bool → Nat → Pipe × List UInt8 × Nat
  | [], i => (pi, [], i)
  | ok :: dst, i =>
    if pi.nread = pi.nwrite then (pi, [], i)
    else
      let ch := pi.data (slot pi.nread)
      let pi := { pi with nread := pi.nread + 1 }
      if ok then
        let r := pipereadCopy pi dst (i + 1)
        (r.1, ch :: r.2.1, r.2.2)
      else (pi, [], i)

/-- `piperead` of `n = dst.length` bytes: `none` while it sleeps on an empty pipe whose
write end is open; else the pipe, the bytes copied out and the return value. -/
def piperead (pi : Pipe) (killed : Bool) (dst : List Bool) : Option (Pipe × List UInt8 × Int) :=
  if pi.nread = pi.nwrite ∧ pi.writeopen = true then
    if killed then some (pi, [], -1) else none
  else
    let r := pipereadCopy pi dst 0
    some (r.1, r.2.1, r.2.2)

/-! ## The bytes in the pipe -/

/-- `(nwrite - nread) mod 2^32`. -/
def Pipe.count (pi : Pipe) : Nat := (pi.nwrite - pi.nread).toNat

/-- The bytes in the pipe, oldest first. -/
def Pipe.contents (pi : Pipe) : List UInt8 :=
  Ring.contents pi.data pi.nread.toNat pi.count

@[simp] theorem Pipe.length_contents (pi : Pipe) : pi.contents.length = pi.count := by
  simp [Pipe.contents]

theorem Pipe.slot_nwrite (pi : Pipe) :
    slot pi.nwrite = Ring.slot PIPESIZE (pi.nread.toNat + pi.count) := by
  apply slot_congr
  have ha := pi.nwrite.toNat_lt
  have hb := pi.nread.toNat_lt
  simp only [Pipe.count, UInt32.toNat_sub, PIPESIZE_eq]
  omega

theorem Pipe.full_iff (pi : Pipe) : pi.nwrite = pi.nread + PIPESIZE.toUInt32 ↔ pi.count = PIPESIZE := by
  have ha := pi.nwrite.toNat_lt
  have hb := pi.nread.toNat_lt
  rw [← UInt32.toNat_inj]
  simp only [Pipe.count, UInt32.toNat_sub, UInt32.toNat_add, PIPESIZE_eq]
  simp
  omega

theorem Pipe.count_push (pi : Pipe) (ch : UInt8) (h : pi.count < PIPESIZE) :
    (pi.push ch).count = pi.count + 1 := by
  have ha := pi.nwrite.toNat_lt
  have hb := pi.nread.toNat_lt
  simp only [Pipe.count, Pipe.push, UInt32.toNat_sub, UInt32.toNat_add, UInt32.toNat_one,
    PIPESIZE_eq] at *
  omega

theorem Pipe.contents_push (pi : Pipe) (ch : UInt8) (h : pi.count < PIPESIZE) :
    (pi.push ch).contents = pi.contents ++ [ch] := by
  have hc := pi.count_push ch h
  simp only [Pipe.contents, hc]
  rw [Pipe.push, pi.slot_nwrite]
  exact Ring.contents_push pi.data ch h

theorem Pipe.count_pop (pi : Pipe) (h : pi.nread ≠ pi.nwrite) :
    ({ pi with nread := pi.nread + 1 } : Pipe).count + 1 = pi.count := by
  have ha := pi.nwrite.toNat_lt
  have hb := pi.nread.toNat_lt
  have hne : pi.nread.toNat ≠ pi.nwrite.toNat := fun e => h (UInt32.toNat_inj.1 e)
  simp only [Pipe.count, UInt32.toNat_sub, UInt32.toNat_add, UInt32.toNat_one]
  omega

theorem Pipe.contents_pop (pi : Pipe) (h : pi.nread ≠ pi.nwrite) :
    pi.contents = pi.data (slot pi.nread) :: ({ pi with nread := pi.nread + 1 } : Pipe).contents := by
  have hc := pi.count_pop h
  have hb := pi.nread.toNat_lt
  have hmod : (pi.nread.toNat + 1) % PIPESIZE = (pi.nread + 1).toNat % PIPESIZE := by
    simp only [UInt32.toNat_add, UInt32.toNat_one, PIPESIZE_eq]
    omega
  simp only [Pipe.contents]
  rw [← hc, Ring.contents_succ, contents_congr pi.data hmod]
  rfl

theorem Pipe.count_eq_zero {pi : Pipe} : pi.count = 0 ↔ pi.nread = pi.nwrite := by
  have ha := pi.nwrite.toNat_lt
  have hb := pi.nread.toNat_lt
  rw [← UInt32.toNat_inj]
  simp only [Pipe.count, UInt32.toNat_sub]
  omega

/-! ## What `piperead` takes out -/

/-- The copy loop leaves everything but `nread` alone; the pipe's contents are the bytes
copied out, then at most one byte lost to a failed `copyout`, then what is left; it
returns `i` plus the number of bytes copied out. -/
theorem pipereadCopy_spec (pi : Pipe) (dst : List Bool) (i : Nat) :
    let r := pipereadCopy pi dst i
    r.1.data = pi.data ∧ r.1.nwrite = pi.nwrite ∧ r.1.readopen = pi.readopen ∧
      r.1.writeopen = pi.writeopen ∧ r.2.2 = i + r.2.1.length ∧
      ∃ lost : List UInt8, (lost = [] ∨ dst[r.2.1.length]? = some false) ∧ lost.length ≤ 1 ∧
        pi.contents = r.2.1 ++ lost ++ r.1.contents := by
  induction dst generalizing pi i with
  | nil => exact ⟨rfl, rfl, rfl, rfl, rfl, [], Or.inl rfl, by simp, by simp [pipereadCopy]⟩
  | cons ok dst ih =>
    simp only [pipereadCopy]
    by_cases he : pi.nread = pi.nwrite
    · -- the pipe is empty: nothing is taken
      rw [if_pos he]
      refine ⟨rfl, rfl, rfl, rfl, rfl, [], Or.inl rfl, by simp, ?_⟩
      have h0 : pi.contents = [] := by
        rw [← List.length_eq_zero_iff, Pipe.length_contents, Pipe.count_eq_zero.2 he]
      simp [h0]
    · rw [if_neg he]
      have hpop := pi.contents_pop he
      cases ok with
      | true =>
        obtain ⟨h1, h2, h3, h4, h5, lost, hl, hlen, hc⟩ :=
          ih ({ pi with nread := pi.nread + 1 } : Pipe) (i + 1)
        refine ⟨h1, h2, h3, h4, by simp only [if_true, List.length_cons]; omega, lost, ?_, hlen, ?_⟩
        · simpa using hl
        · simp only [if_true, List.cons_append]
          rw [hpop, hc]
      | false =>
        -- `copyout` fails: the byte popped is lost
        refine ⟨rfl, rfl, rfl, rfl, rfl, [pi.data (slot pi.nread)], Or.inr rfl, by simp, ?_⟩
        simp only [Bool.false_eq_true, if_false, List.nil_append, List.singleton_append]
        exact hpop

/-- Every `piperead` that does not return `-1` returns the number of bytes it copied
out; it took those out of the pipe, and one byte more when a `copyout` failed. -/
theorem piperead_spec {pi pi' : Pipe} {killed : Bool} {dst : List Bool} {out : List UInt8}
    {r : Int} (h : piperead pi killed dst = some (pi', out, r)) :
    pi'.data = pi.data ∧ pi'.nwrite = pi.nwrite ∧ pi'.readopen = pi.readopen ∧
      pi'.writeopen = pi.writeopen ∧
      ((r = -1 ∧ out = [] ∧ pi' = pi) ∨
        (r = out.length ∧ ∃ lost : List UInt8, (lost = [] ∨ dst[out.length]? = some false) ∧
          lost.length ≤ 1 ∧ pi.contents = out ++ lost ++ pi'.contents)) := by
  unfold piperead at h
  split at h
  · split at h
    · simp only [Option.some.injEq, Prod.mk.injEq] at h
      obtain ⟨rfl, rfl, rfl⟩ := h
      exact ⟨rfl, rfl, rfl, rfl, Or.inl ⟨rfl, rfl, rfl⟩⟩
    · cases h
  · simp only [Option.some.injEq, Prod.mk.injEq] at h
    obtain ⟨rfl, rfl, rfl⟩ := h
    obtain ⟨h1, h2, h3, h4, h5, lost, hl, hlen, hc⟩ := pipereadCopy_spec pi dst 0
    refine ⟨h1, h2, h3, h4, Or.inr ⟨by rw [h5]; simp, lost, hl, hlen, hc⟩⟩

/-! ## Processes on one pipe -/

/-- Where a process is with respect to the pipe. -/
inductive PPhase where
  | idle
  /-- inside `pipewrite`, with the user bytes not yet stored and `i` -/
  | writing (rest : List (Option UInt8)) (i : Nat)
  /-- back from a call that returned `r` -/
  | returned (r : Int)

/-- Whether a process is inside `pipewrite`. -/
def PPhase.isWriting : PPhase → Bool
  | .writing _ _ => true
  | _ => false

/-- The pipe, the processes, how often the page was freed, and the ghost histories. -/
structure PipeSys (n : Nat) where
  pipe : Pipe
  phase : Fin n → PPhase
  freed : Nat
  accepted : List UInt8
  removed : List UInt8
  delivered : List UInt8

/-- What a process may do. -/
inductive PipeAct (n : Nat) where
  /-- call `pipewrite` with the user bytes `src` -/
  | write (p : Fin n) (src : List (Option UInt8))
  /-- one pass of the caller's `pipewrite` loop, or its return -/
  | writeStep (p : Fin n) (killed : Bool)
  | read (p : Fin n) (killed : Bool) (dst : List Bool)
  /-- `fileclose` of the last reference to one end -/
  | close (writable : Bool)

variable {n : Nat}

/-- One step; `none` if it cannot be taken now: a process calls `pipewrite` or
`piperead` only on an open end and outside another call, a writer sleeps on a full pipe,
and an end is closed once, the write end only when no process is inside `pipewrite`
(each holds a reference to the write end's file). -/
def pipeStep (s : PipeSys n) : PipeAct n → Option (PipeSys n)
  | .write p src =>
    if (s.phase p).isWriting = false ∧ s.pipe.writeopen = true then
      some { s with phase := Function.update s.phase p (.writing src 0) }
    else none
  | .writeStep p killed =>
    match s.phase p with
    | .writing [] i => some { s with phase := Function.update s.phase p (.returned i) }
    | .writing (c :: cs) i =>
      match pipewrite s.pipe killed c i with
      | .ret r => some { s with phase := Function.update s.phase p (.returned r) }
      | .sleep => none
      | .next pi =>
        some { s with pipe := pi, phase := Function.update s.phase p (.writing cs (i + 1)),
                      accepted := s.accepted ++ c.toList }
    | _ => none
  | .read p killed dst =>
    if (s.phase p).isWriting = false ∧ s.pipe.readopen = true then
      (piperead s.pipe killed dst).map fun r =>
        { s with pipe := r.1, phase := Function.update s.phase p (.returned r.2.2),
                 removed := s.removed ++ s.pipe.contents.take (s.pipe.count - r.1.count),
                 delivered := s.delivered ++ r.2.1 }
    else none
  | .close writable =>
    if (if writable then s.pipe.writeopen = true ∧ ∀ p, (s.phase p).isWriting = false
        else s.pipe.readopen = true) then
      let r := pipeclose s.pipe writable
      some { s with pipe := r.1, freed := s.freed + if r.2 then 1 else 0 }
    else none

/-- A run of actions, `none` if some action could not be taken. -/
def pipeExec (s : PipeSys n) : List (PipeAct n) → Option (PipeSys n)
  | [] => some s
  | a :: as => (pipeStep s a).bind fun s' => pipeExec s' as

/-- A pipe just made by `pipealloc`, every process idle. -/
def PipeSys.init (n : Nat) (page : Fin PIPESIZE → UInt8) : PipeSys n :=
  { pipe := pipealloc page, phase := fun _ => .idle, freed := 0, accepted := [],
    removed := [], delivered := [] }

/-! ## Inversion: what each step can do -/

section Steps

variable {s s' : PipeSys n} {p : Fin n}

theorem pipeStep_write {src : List (Option UInt8)} (h : pipeStep s (.write p src) = some s') :
    (s.phase p).isWriting = false ∧ s.pipe.writeopen = true ∧
      s' = { s with phase := Function.update s.phase p (.writing src 0) } := by
  simp only [pipeStep] at h
  split at h
  · rename_i hc
    simp only [Option.some.injEq] at h
    exact ⟨hc.1, hc.2, h.symm⟩
  · cases h

theorem pipeStep_writeStep {killed : Bool} (h : pipeStep s (.writeStep p killed) = some s') :
    ∃ rest i, s.phase p = .writing rest i ∧
      ((∃ r, s' = { s with phase := Function.update s.phase p (.returned r) }) ∨
        ∃ ch cs, rest = some ch :: cs ∧ s.pipe.readopen = true ∧ s.pipe.count ≠ PIPESIZE ∧
          s' = { s with pipe := s.pipe.push ch,
                        phase := Function.update s.phase p (.writing cs (i + 1)),
                        accepted := s.accepted ++ [ch] }) := by
  simp only [pipeStep] at h
  split at h
  · rename_i i hp
    simp only [Option.some.injEq] at h
    exact ⟨[], i, hp, Or.inl ⟨i, h.symm⟩⟩
  · rename_i c cs i hp
    refine ⟨c :: cs, i, hp, ?_⟩
    unfold pipewrite at h
    by_cases h1 : (!s.pipe.readopen || killed) = true
    · rw [if_pos h1] at h
      simp only [Option.some.injEq] at h
      exact Or.inl ⟨-1, h.symm⟩
    · rw [if_neg h1] at h
      have hro : s.pipe.readopen = true := (by simpa using h1 : _ ∧ _).1
      by_cases h2 : s.pipe.nwrite = s.pipe.nread + PIPESIZE.toUInt32
      · rw [if_pos h2] at h
        cases h
      · rw [if_neg h2] at h
        cases c with
        | none =>
          simp only [Option.some.injEq] at h
          exact Or.inl ⟨i, h.symm⟩
        | some ch =>
          simp only [Option.some.injEq, Option.toList_some] at h
          exact Or.inr ⟨ch, cs, rfl, hro, fun e => h2 (s.pipe.full_iff.2 e), h.symm⟩
  · cases h

theorem pipeStep_read {killed : Bool} {dst : List Bool} (h : pipeStep s (.read p killed dst) = some s') :
    s.pipe.readopen = true ∧ ∃ pi out r, piperead s.pipe killed dst = some (pi, out, r) ∧
      s' = { s with pipe := pi, phase := Function.update s.phase p (.returned r),
                    removed := s.removed ++ s.pipe.contents.take (s.pipe.count - pi.count),
                    delivered := s.delivered ++ out } := by
  simp only [pipeStep] at h
  split at h
  · rename_i hc
    refine ⟨hc.2, ?_⟩
    cases hr : piperead s.pipe killed dst with
    | none => rw [hr] at h; cases h
    | some r =>
      rw [hr] at h
      simp only [Option.map_some, Option.some.injEq] at h
      exact ⟨r.1, r.2.1, r.2.2, rfl, h.symm⟩
  · cases h

theorem pipeStep_close {writable : Bool} (h : pipeStep s (.close writable) = some s') :
    (if writable then s.pipe.writeopen = true ∧ ∀ p, (s.phase p).isWriting = false
      else s.pipe.readopen = true) ∧
      s' = { s with pipe := (pipeclose s.pipe writable).1,
                    freed := s.freed + if (pipeclose s.pipe writable).2 then 1 else 0 } := by
  rw [pipeStep] at h
  by_cases hc : (if writable then s.pipe.writeopen = true ∧ ∀ p, (s.phase p).isWriting = false
      else s.pipe.readopen = true)
  · rw [if_pos hc] at h
    simp only [Option.some.injEq] at h
    exact ⟨hc, h.symm⟩
  · rw [if_neg hc] at h
    cases h

end Steps

/-! ## The invariant -/

/-- The invariant of a pipe shared by processes: at most `PIPESIZE` bytes in the pipe;
the bytes removed, then those in the pipe, are the bytes accepted; the bytes delivered are
among those removed, in order; the page was freed once if both ends are closed and never
before; and a process is inside `pipewrite` only while the write end is open. -/
structure PipeSys.Inv (s : PipeSys n) : Prop where
  count_le : s.pipe.count ≤ PIPESIZE
  fifo : s.removed ++ s.pipe.contents = s.accepted
  delivered : s.delivered.Sublist s.removed
  freed : s.freed = if s.pipe.readopen = false ∧ s.pipe.writeopen = false then 1 else 0
  writer_open : ∀ p, (s.phase p).isWriting = true → s.pipe.writeopen = true

theorem PipeSys.init_inv (page : Fin PIPESIZE → UInt8) : (PipeSys.init n page).Inv where
  count_le := by simp [PipeSys.init, pipealloc, Pipe.count]
  fifo := by simp [PipeSys.init, pipealloc, Pipe.contents, Pipe.count]
  delivered := List.Sublist.slnil
  freed := by simp [PipeSys.init, pipealloc]
  writer_open := by simp [PipeSys.init, PPhase.isWriting]

theorem Pipe.take_count_sub {pi pi' : Pipe} {taken : List UInt8}
    (h : pi.contents = taken ++ pi'.contents) : pi.contents.take (pi.count - pi'.count) = taken := by
  have hl : pi.count - pi'.count = taken.length := by
    rw [← Pipe.length_contents, ← Pipe.length_contents, h, List.length_append]
    omega
  rw [hl, h, List.take_left]

@[simp] theorem pipeclose_contents (pi : Pipe) (writable : Bool) :
    (pipeclose pi writable).1.contents = pi.contents := by
  cases writable <;> rfl

@[simp] theorem pipeclose_count (pi : Pipe) (writable : Bool) :
    (pipeclose pi writable).1.count = pi.count := by
  cases writable <;> rfl

section Preserve

variable {s s' : PipeSys n} {p : Fin n}

theorem PipeSys.Inv.writer_open_update (hi : s.Inv) {ph : PPhase}
    (hph : ph.isWriting = true → s.pipe.writeopen = true) (q : Fin n) :
    (Function.update s.phase p ph q).isWriting = true → s.pipe.writeopen = true := by
  by_cases hq : q = p
  · subst hq
    rw [Function.update_self]
    exact hph
  · rw [Function.update_of_ne hq]
    exact hi.writer_open q

theorem PipeSys.Inv.write {src : List (Option UInt8)} (hi : s.Inv)
    (h : pipeStep s (.write p src) = some s') : s'.Inv := by
  obtain ⟨-, hw, rfl⟩ := pipeStep_write h
  exact ⟨hi.count_le, hi.fifo, hi.delivered, hi.freed, hi.writer_open_update (fun _ => hw)⟩

theorem PipeSys.Inv.writeStep {killed : Bool} (hi : s.Inv)
    (h : pipeStep s (.writeStep p killed) = some s') : s'.Inv := by
  obtain ⟨rest, i, hp, ⟨r, rfl⟩ | ⟨ch, cs, -, -, hfull, rfl⟩⟩ := pipeStep_writeStep h
  · -- the call returns: only its phase changes
    exact ⟨hi.count_le, hi.fifo, hi.delivered, hi.freed,
      hi.writer_open_update (fun h => absurd h (by simp [PPhase.isWriting]))⟩
  · -- one byte stored at the end of a pipe that is not full
    have hlt : s.pipe.count < PIPESIZE := Nat.lt_of_le_of_ne hi.count_le hfull
    have hw : s.pipe.writeopen = true := hi.writer_open p (by simp [hp, PPhase.isWriting])
    refine ⟨?_, ?_, hi.delivered, hi.freed, hi.writer_open_update (fun _ => hw)⟩
    · show (s.pipe.push ch).count ≤ PIPESIZE
      rw [s.pipe.count_push ch hlt]
      exact hlt
    · show s.removed ++ (s.pipe.push ch).contents = s.accepted ++ [ch]
      rw [s.pipe.contents_push ch hlt, ← List.append_assoc, hi.fifo]

theorem PipeSys.Inv.read {killed : Bool} {dst : List Bool} (hi : s.Inv)
    (h : pipeStep s (.read p killed dst) = some s') : s'.Inv := by
  obtain ⟨-, pi, out, r, hr, rfl⟩ := pipeStep_read h
  obtain ⟨-, -, hro, hwo, hres⟩ := piperead_spec hr
  obtain ⟨taken, hout, hc⟩ : ∃ taken : List UInt8,
      out.Sublist taken ∧ s.pipe.contents = taken ++ pi.contents := by
    rcases hres with ⟨-, rfl, rfl⟩ | ⟨-, lost, -, -, hc⟩
    · exact ⟨[], List.Sublist.slnil, rfl⟩
    · exact ⟨out ++ lost, List.sublist_append_left out lost, by rw [hc, List.append_assoc]⟩
  have hcount : pi.count ≤ s.pipe.count := by
    rw [← Pipe.length_contents, ← Pipe.length_contents, hc, List.length_append]
    omega
  refine ⟨Nat.le_trans hcount hi.count_le, ?_, ?_, ?_, ?_⟩
  · show s.removed ++ s.pipe.contents.take (s.pipe.count - pi.count) ++ pi.contents = s.accepted
    rw [Pipe.take_count_sub hc, List.append_assoc, ← hc, hi.fifo]
  · show (s.delivered ++ out).Sublist (s.removed ++ s.pipe.contents.take (s.pipe.count - pi.count))
    rw [Pipe.take_count_sub hc]
    exact hi.delivered.append hout
  · show s.freed = if pi.readopen = false ∧ pi.writeopen = false then 1 else 0
    rw [hro, hwo]
    exact hi.freed
  · show ∀ q, (Function.update s.phase p (.returned r) q).isWriting = true → pi.writeopen = true
    rw [hwo]
    exact hi.writer_open_update (fun h => absurd h (by simp [PPhase.isWriting]))

theorem PipeSys.Inv.close {writable : Bool} (hi : s.Inv) (h : pipeStep s (.close writable) = some s') :
    s'.Inv := by
  obtain ⟨hc, rfl⟩ := pipeStep_close h
  have hf := hi.freed
  refine ⟨by simpa using hi.count_le, by simpa using hi.fifo, hi.delivered, ?_, ?_⟩
  · -- the end was open, so the page was not freed before; it is freed now if the other
    -- end is closed
    cases writable with
    | true =>
      obtain ⟨hw, -⟩ := hc
      simp [pipeclose, hw] at hf ⊢
      exact hf
    | false =>
      simp only [Bool.false_eq_true, if_false] at hc
      simp [pipeclose, hc] at hf ⊢
      exact hf
  · intro q hq
    cases writable with
    | true => exact absurd hq (by simp [hc.2 q])
    | false => exact hi.writer_open q hq

theorem PipeSys.Inv.pipeStep (hi : s.Inv) {a : PipeAct n} (h : Xv6.pipeStep s a = some s') :
    s'.Inv := by
  cases a with
  | write p src => exact hi.write h
  | writeStep p killed => exact hi.writeStep h
  | read p killed dst => exact hi.read h
  | close writable => exact hi.close h

theorem PipeSys.Inv.pipeExec (hi : s.Inv) {as : List (PipeAct n)}
    (h : Xv6.pipeExec s as = some s') : s'.Inv := by
  induction as generalizing s with
  | nil =>
    simp only [Xv6.pipeExec, Option.some.injEq] at h
    exact h ▸ hi
  | cons a as ih =>
    simp only [Xv6.pipeExec] at h
    cases h1 : Xv6.pipeStep s a with
    | none => simp [h1] at h
    | some s1 =>
      simp only [h1, Option.bind_some] at h
      exact ih (hi.pipeStep h1) h

end Preserve

/-- In every reachable state: `(nwrite - nread) mod 2^32 ≤ PIPESIZE`; the bytes removed
are a prefix of the bytes accepted; the bytes delivered are a sublist of those removed;
and the page has been freed once if both ends are closed, and never otherwise. -/
theorem pipe_invariants {page : Fin PIPESIZE → UInt8} {as : List (PipeAct n)} {s : PipeSys n}
    (h : pipeExec (PipeSys.init n page) as = some s) :
    (s.pipe.nwrite - s.pipe.nread).toNat ≤ PIPESIZE ∧ s.removed.IsPrefix s.accepted ∧
      s.delivered.Sublist s.removed ∧
      s.freed = if s.pipe.readopen = false ∧ s.pipe.writeopen = false then 1 else 0 := by
  have hi := (PipeSys.init_inv page).pipeExec h
  exact ⟨hi.count_le, ⟨s.pipe.contents, hi.fifo⟩, hi.delivered, hi.freed⟩

/-! ## A byte lost to a failed `copyout` -/

/-- One process writes the bytes 1 and 2 and reads two bytes into a buffer whose second
byte `copyout` cannot write: `piperead` returns 1, with `nread` advanced by 2.  It then
writes 3 and reads one byte, 3.  The bytes delivered, 1 and 3, are not a prefix of the
bytes accepted, 1, 2 and 3. -/
theorem piperead_drops_byte :
    let w : List (PipeAct 1) :=
      [.write 0 [some 1, some 2], .writeStep 0 false, .writeStep 0 false, .writeStep 0 false,
       .read 0 false [true, false]]
    let w' : List (PipeAct 1) :=
      [.write 0 [some 3], .writeStep 0 false, .writeStep 0 false, .read 0 false [true]]
    (pipeExec (PipeSys.init 1 fun _ => 0) w).map
        (fun s => (s.phase 0, s.pipe.nread, s.delivered, s.removed)) =
      some (.returned 1, 2, [1], [1, 2]) ∧
    (pipeExec (PipeSys.init 1 fun _ => 0) (w ++ w')).map (fun s => (s.delivered, s.accepted)) =
      some ([1, 3], [1, 2, 3]) ∧
    ¬ ([1, 3] : List UInt8).IsPrefix [1, 2, 3] := by
  refine ⟨rfl, rfl, ?_⟩
  decide

/-! ## Through the caller's memory -/

/-- `piperead`'s copy loop into the memory `vm` through the page table `pt`, from byte `i`
with `k` passes left: each byte is taken out (`nread++`) before its `copyout` to
`addr + i`, and the loop ends on an empty pipe or at a `copyout` that fails. -/
def pipereadLoop (pt addr : UInt64) : Nat → Pipe → VM → Nat → Pipe × VM × Nat
  | 0, pi, vm, i => (pi, vm, i)
  | k + 1, pi, vm, i =>
    if pi.nread = pi.nwrite then (pi, vm, i)
    else
      let ch := pi.data (slot pi.nread)
      let pi := { pi with nread := pi.nread + 1 }
      let (vm, r) := copyout vm pt (addr + i.toUInt64) (fun _ => ch) 1
      if r = -1 then (pi, vm, i) else pipereadLoop pt addr k pi vm (i + 1)

/-- `piperead(pi, addr, n)` into the memory `vm` of a process with page table `pt`, killed
or not: `none` while it sleeps on an empty pipe whose write end is open. -/
def pipereadUser (pi : Pipe) (killed : Bool) (vm : VM) (pt addr : UInt64) (n : Int) :
    Option (Pipe × VM × Int) :=
  if pi.nread = pi.nwrite ∧ pi.writeopen = true then
    if killed then some (pi, vm, -1) else none
  else
    let r := pipereadLoop pt addr n.toNat pi vm 0
    some (r.1, r.2.1, r.2.2)

/-- `pipewrite`'s loop from the memory `vm`, from byte `i` with `k` passes left: each pass
is `pipewrite`'s, with the byte `copyin` reads at `addr + i` (`none` if it fails).  `none`
when a pass finds the pipe full: the writer sleeps there, with the bytes it stored before in
the pipe, and one call at a time it goes no further. -/
def pipewriteLoop (vm : VM) (pt addr : UInt64) (killed : Bool) (n : Int) :
    Nat → Pipe → Nat → Option (Pipe × Int)
  | 0, pi, i => some (pi, i)
  | k + 1, pi, i =>
    if n ≤ i then some (pi, i)
    else
      let (bs, r) := copyin vm pt (addr + i.toUInt64) 1
      match pipewrite pi killed (if r = -1 then none else bs.head?) i with
      | .ret v => some (pi, v)
      | .sleep => none
      | .next pi => pipewriteLoop vm pt addr killed n k pi (i + 1)

/-- `pipewrite(pi, addr, n)` from the memory `vm` of a process with page table `pt`, killed
or not. -/
def pipewriteUser (pi : Pipe) (killed : Bool) (vm : VM) (pt addr : UInt64) (n : Int) :
    Option (Pipe × Int) :=
  pipewriteLoop vm pt addr killed n n.toNat pi 0

section User

variable (pt addr : UInt64)

/-- `piperead`'s loop through memory takes out what `pipereadCopy` takes out for the
`copyout` outcomes the memory gives, and counts the same. -/
theorem pipereadLoop_copy (k : Nat) (pi : Pipe) (vm : VM) (i : Nat) :
    ∃ dst : List Bool, dst.length = k ∧
      (pipereadCopy pi dst i).1 = (pipereadLoop pt addr k pi vm i).1 ∧
      (pipereadCopy pi dst i).2.2 = (pipereadLoop pt addr k pi vm i).2.2 := by
  induction k generalizing pi vm i with
  | zero => exact ⟨[], rfl, rfl, rfl⟩
  | succ k ih =>
    by_cases he : pi.nread = pi.nwrite
    · -- an empty pipe: neither loop takes a byte
      refine ⟨List.replicate (k + 1) true, by simp, ?_, ?_⟩ <;>
        simp [List.replicate_succ, pipereadCopy, pipereadLoop, he]
    · rcases hc : copyout vm pt (addr + i.toUInt64) (fun _ => pi.data (slot pi.nread)) 1 with ⟨vm', r⟩
      by_cases hr : r = -1
      · -- the `copyout` fails after the byte is taken out
        refine ⟨false :: List.replicate k true, by simp, ?_, ?_⟩ <;>
          simp [pipereadCopy, pipereadLoop, he, hc, hr]
      · obtain ⟨dst, hl, h1, h2⟩ := ih { pi with nread := pi.nread + 1 } vm' (i + 1)
        refine ⟨true :: dst, by simp [hl], ?_, ?_⟩ <;>
          simp [pipereadCopy, pipereadLoop, he, hc, hr, h1, h2]

/-- Each `piperead` a process makes through its memory is one that `PipeSys` takes: for the
`copyout` outcomes its memory gives, it leaves the same pipe and returns the same value. -/
theorem pipereadUser_piperead {pi pi' : Pipe} {killed : Bool} {vm vm' : VM} {n r : Int}
    (h : pipereadUser pi killed vm pt addr n = some (pi', vm', r)) :
    ∃ dst out, dst.length = n.toNat ∧ piperead pi killed dst = some (pi', out, r) := by
  obtain ⟨dst, hl, h1, h2⟩ := pipereadLoop_copy pt addr n.toNat pi vm 0
  unfold pipereadUser at h
  unfold piperead
  split at h
  · -- an empty pipe with its write end open: only a killed reader comes back
    rename_i he
    split at h
    · simp only [Option.some.injEq, Prod.mk.injEq] at h
      obtain ⟨rfl, -, rfl⟩ := h
      exact ⟨dst, [], hl, by rw [if_pos he, if_pos ‹_›]⟩
    · cases h
  · rename_i he
    simp only [Option.some.injEq, Prod.mk.injEq] at h
    obtain ⟨rfl, -, rfl⟩ := h
    refine ⟨dst, (pipereadCopy pi dst 0).2.1, hl, ?_⟩
    rw [if_neg he]
    dsimp only
    rw [h1, h2]

/-- `pipewrite`'s loop through memory, as far as it goes without sleeping, on a pipe that
holds at most `PIPESIZE` bytes: it appends the user bytes from `addr + i` on, as many as it
counts, to the pipe's contents, and returns the count from `0`, at most `max n i`, or `-1`. -/
theorem pipewriteLoop_spec (vm : VM) (killed : Bool) (n : Int) (k : Nat) :
    ∀ (pi : Pipe) (i : Nat), pi.count ≤ PIPESIZE → ∀ {pi' : Pipe} {r : Int},
      pipewriteLoop vm pt addr killed n k pi i = some (pi', r) →
      ∃ j, pi'.contents = pi.contents ++ ubytes vm pt (addr + i.toUInt64) j ∧
        pi'.count ≤ PIPESIZE ∧ (r = i + j ∨ r = -1) ∧ ((i + j : Nat) : Int) ≤ max n i := by
  induction k with
  | zero =>
    intro pi i hc pi' r h
    simp only [pipewriteLoop, Option.some.injEq, Prod.mk.injEq] at h
    obtain ⟨rfl, rfl⟩ := h
    exact ⟨0, by simp [ubytes], hc, .inl (by simp), by simp⟩
  | succ k ih =>
    intro pi i hc pi' r h
    unfold pipewriteLoop at h
    split at h
    · -- the loop is done
      simp only [Option.some.injEq, Prod.mk.injEq] at h
      obtain ⟨rfl, rfl⟩ := h
      exact ⟨0, by simp [ubytes], hc, .inl (by simp), by simp⟩
    rename_i hn
    dsimp only at h
    have hpass : ∀ c, pipewrite pi killed c i = .ret (-1) ∨
        (pi.count < PIPESIZE ∧ (c = none → pipewrite pi killed c i = .ret i) ∧
          ∀ ch, c = some ch → pipewrite pi killed c i = .next (pi.push ch)) ∨
        pipewrite pi killed c i = .sleep := by
      intro c
      unfold pipewrite
      split
      · exact .inl rfl
      split
      · exact .inr (.inr rfl)
      rename_i hfull
      have hlt : pi.count < PIPESIZE := lt_of_le_of_ne hc (fun e => hfull ((pi.full_iff).2 e))
      exact .inr (.inl ⟨hlt, fun e => by rw [e], fun ch e => by rw [e]⟩)
    rcases hpass (if (copyin vm pt (addr + i.toUInt64) 1).2 = -1 then none
        else (copyin vm pt (addr + i.toUInt64) 1).1.head?) with hret | ⟨hlt, hnone, hsome⟩ | hsleep
    · -- the read end is closed, or the writer is killed
      rw [hret] at h
      simp only [Option.some.injEq, Prod.mk.injEq] at h
      obtain ⟨rfl, rfl⟩ := h
      exact ⟨0, by simp [ubytes], hc, .inr rfl, by simp⟩
    · rcases copyin_one vm pt (addr + i.toUInt64) with hf | hok
      · -- `copyin` fails: the loop breaks with `i`
        rw [hnone (by rw [if_pos hf])] at h
        simp only [Option.some.injEq, Prod.mk.injEq] at h
        obtain ⟨rfl, rfl⟩ := h
        exact ⟨0, by simp [ubytes], hc, .inl (by simp), by simp⟩
      · -- the byte is stored, and the loop goes on from `i + 1`
        rw [hsome (ubyte vm pt (addr + i.toUInt64)) (by rw [hok]; rfl)] at h
        have hc' : (pi.push (ubyte vm pt (addr + i.toUInt64))).count ≤ PIPESIZE := by
          rw [pi.count_push _ hlt]
          omega
        obtain ⟨j, hcont, hcnt, hr, hle⟩ := ih _ (i + 1) hc' h
        refine ⟨j + 1, ?_, hcnt, ?_, ?_⟩
        · rw [hcont, pi.contents_push _ hlt, Nat.add_comm j 1, ubytes_add, List.append_assoc]
          simp [ubytes, Nat.toUInt64_eq, UInt64.ofNat_add, UInt64.add_assoc]
        · rcases hr with hr | hr
          · exact .inl (by rw [hr]; push_cast; ring)
          · exact .inr hr
        · push_cast at hle ⊢
          omega
    · rw [hsleep] at h
      cases h

/-- A `pipewrite` through memory that does not sleep, on a pipe that holds at most
`PIPESIZE` bytes: it appends the first `j` user bytes from `addr` to the pipe's contents
and returns `j`, or `-1`, with `j` at most `max n 0`. -/
theorem pipewriteUser_spec {pi pi' : Pipe} {killed : Bool} {vm : VM} {n r : Int}
    (hc : pi.count ≤ PIPESIZE) (h : pipewriteUser pi killed vm pt addr n = some (pi', r)) :
    ∃ j, pi'.contents = pi.contents ++ ubytes vm pt addr j ∧ pi'.count ≤ PIPESIZE ∧
      (r = j ∨ r = -1) ∧ (j : Int) ≤ max n 0 := by
  obtain ⟨j, hcont, hcnt, hr, hle⟩ := pipewriteLoop_spec pt addr vm killed n n.toNat pi 0 hc h
  have h0 : addr + (0 : Nat).toUInt64 = addr := by simp
  rw [h0] at hcont
  simp only [Nat.cast_zero, zero_add] at hr hle
  exact ⟨j, hcont, hcnt, hr, hle⟩

end User

end Xv6
