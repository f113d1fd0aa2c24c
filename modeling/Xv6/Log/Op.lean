import Xv6.Log.Basic
import Xv6.Lib.Tally
import Xv6.Lib.Outcome
import Mathlib.Algebra.BigOperators.Ring.Finset

/-!
# `begin_op`, `log_write` and `end_op`: log space admission

`kernel/log.c`, lines 125-235.  Each region between `acquire(&log.lock)` and its
`release` is one atomic step on the log's state; a step that would `sleep` is not
taken.  `n` processes run file-system operations; each is idle, inside an operation
(`begin_op` passed, `end_op` not yet called), or running `commit()` from its `end_op`.
An operation logs at most `MAXOPBLOCKS` distinct blocks (its ghost list `written`).

* `reserved_le`: in every reachable state the header plus the unused reservations of
  the operations in progress fit in `LOGSIZE`; so a `log_write` of a block that is new
  to its operation always finds `lh.n < LOGSIZE` (`logWrite_fresh_lt`).
* `logWrite_panics_at_mkfs_size`: on a log of `LOGSIZE` blocks, as `mkfs` makes it
  (one header block, `LOGSIZE - 1` slots), three admitted operations of ten distinct
  blocks each drive `log_write` into its "too big a transaction" panic: admission
  counts `LOGSIZE` slots where the log has `LOGSIZE - 1`.
* `commit_quiescent`: while a process runs `commit()` no operation is in progress, and
  `begin_op` admits nobody until it is done.
-/

namespace Xv6

open Tally

/-! ## The log's steps -/

/-- `begin_op`: `none` while it must sleep (a commit in progress, or the log might not
have room for one more operation's reservation). -/
def beginOp (log : Log) : Option Log :=
  if log.committing then none
  else if LOGSIZE < log.lh.length + (log.outstanding + 1) * MAXOPBLOCKS then none
  else some { log with outstanding := log.outstanding + 1 }

/-- `log_write` of a buffer holding block `b`; the pin is the buffer cache's business.
Both checks come before the absorption scan. -/
def logWrite (log : Log) (b : Nat) : Except String Log :=
  if LOGSIZE ≤ log.lh.length ∨ (log.size : Int) - 1 ≤ log.lh.length then
    .error "too big a transaction"
  else if log.outstanding < 1 then .error "log_write outside of trans"
  else if b ∈ log.lh then .ok log
  else .ok { log with lh := log.lh ++ [b] }

/-- `end_op` up to its decision: the new state, and whether this caller commits. -/
def endOp (log : Log) : Except String (Log × Bool) :=
  let log := { log with outstanding := log.outstanding - 1 }
  if log.committing then .error "log.committing"
  else if log.outstanding = 0 then .ok ({ log with committing := true }, true)
  else .ok (log, false)

/-- The rest of `end_op` for the caller that committed: `commit()` has emptied the
header (`log.lh.n = 0`), then `log.committing = 0`. -/
def commitDone (log : Log) : Log :=
  { log with lh := [], committing := false }

/-! ## What `begin_op`, `log_write` and `end_op` do when they go through -/

theorem beginOp_eq_some {log log' : Log} (h : beginOp log = some log') :
    log.committing = false ∧ log.lh.length + (log.outstanding + 1) * MAXOPBLOCKS ≤ LOGSIZE ∧
      log' = { log with outstanding := log.outstanding + 1 } := by
  unfold beginOp at h
  by_cases hc : log.committing = true
  · rw [if_pos hc] at h; cases h
  · by_cases hl : LOGSIZE < log.lh.length + (log.outstanding + 1) * MAXOPBLOCKS
    · rw [if_neg hc, if_pos hl] at h; cases h
    · rw [if_neg hc, if_neg hl] at h
      exact ⟨by simpa using hc, by omega, (Option.some.inj h).symm⟩

/-- A `log_write` that does not panic found room in the header and an operation in
progress; it appends the block unless the header has it. -/
theorem logWrite_eq_ok {log log' : Log} {b : Nat} (h : logWrite log b = .ok log') :
    log.lh.length < LOGSIZE ∧ 1 ≤ log.outstanding ∧
      log' = if b ∈ log.lh then log else { log with lh := log.lh ++ [b] } := by
  unfold logWrite at h
  by_cases h1 : LOGSIZE ≤ log.lh.length ∨ (log.size : Int) - 1 ≤ log.lh.length
  · rw [if_pos h1] at h; cases h
  · by_cases h2 : log.outstanding < 1
    · rw [if_neg h1, if_pos h2] at h; cases h
    · rw [if_neg h1, if_neg h2] at h
      refine ⟨by omega, by omega, ?_⟩
      by_cases hb : b ∈ log.lh
      · rw [if_pos hb] at h ⊢; exact (Except.ok.inj h).symm
      · rw [if_neg hb] at h ⊢; exact (Except.ok.inj h).symm

/-- An `end_op` that does not panic found no commit in progress; its caller commits
exactly when it was the last operation. -/
theorem endOp_eq_ok {log : Log} {r : Log × Bool} (h : endOp log = .ok r) :
    log.committing = false ∧
      r = ({ log with outstanding := log.outstanding - 1,
                      committing := decide (log.outstanding - 1 = 0) },
           decide (log.outstanding - 1 = 0)) := by
  unfold endOp at h
  simp only at h
  by_cases hc : log.committing = true
  · rw [if_pos hc] at h; cases h
  · rw [if_neg hc] at h
    refine ⟨by simpa using hc, ?_⟩
    by_cases h0 : log.outstanding - 1 = 0
    · rw [if_pos h0] at h
      rw [← Except.ok.inj h]
      simp [h0]
    · rw [if_neg h0] at h
      rw [← Except.ok.inj h]
      simpa [h0] using hc

/-! ## Processes -/

/-- Where a process is with respect to the log. -/
inductive OpPhase where
  | idle
  /-- between `begin_op` and `end_op`, having logged the distinct blocks `written` -/
  | inOp (written : List Nat)
  /-- in `end_op`, running `commit()` -/
  | committing
  deriving DecidableEq, Repr

/-- The log and `n` processes. -/
structure LogSys (n : Nat) where
  log : Log
  phase : Fin n → OpPhase

/-- What a process may do next. -/
inductive Act (n : Nat) where
  | beginOp (p : Fin n)
  | logWrite (p : Fin n) (b : Nat)
  | endOp (p : Fin n)
  | commit (p : Fin n)
  deriving DecidableEq, Repr

variable {n : Nat}

/-- One step: `none` if the action cannot be taken now (the process is elsewhere,
`begin_op` sleeps, or the operation would log an `(MAXOPBLOCKS + 1)`-th distinct block),
`some (.error msg)` for a panic. -/
def sysStep (s : LogSys n) : Act n → Option (Except String (LogSys n))
  | .beginOp p =>
    match s.phase p with
    | .idle => (beginOp s.log).map fun log =>
        .ok { log, phase := Function.update s.phase p (.inOp []) }
    | _ => none
  | .logWrite p b =>
    match s.phase p with
    | .inOp w =>
      if b ∈ w ∨ w.length < MAXOPBLOCKS then
        some ((logWrite s.log b).map fun log =>
          { log, phase := Function.update s.phase p (.inOp (if b ∈ w then w else w ++ [b])) })
      else none
    | _ => none
  | .endOp p =>
    match s.phase p with
    | .inOp _ => some ((endOp s.log).map fun r =>
        { log := r.1, phase := Function.update s.phase p (if r.2 then .committing else .idle) })
    | _ => none
  | .commit p =>
    match s.phase p with
    | .committing => some (.ok { log := commitDone s.log, phase := Function.update s.phase p .idle })
    | _ => none

/-- A run of actions: the final state, a panic, or `none` if some action could not be
taken. -/
def exec (s : LogSys n) : List (Act n) → Option (Except String (LogSys n))
  | [] => some (.ok s)
  | a :: as =>
    match sysStep s a with
    | some (.ok s') => exec s' as
    | r => r

/-- The initial state: an empty log of `size` blocks at `start`, every process idle. -/
def LogSys.init (start size : Nat) : LogSys n :=
  { log := ⟨start, size, 0, false, []⟩, phase := fun _ => .idle }

/-! ## Inversion: what each step can do -/

theorem sysStep_beginOp {s s' : LogSys n} {p : Fin n} (h : sysStep s (.beginOp p) = some (.ok s')) :
    s.phase p = .idle ∧ s.log.committing = false ∧
      s.log.lh.length + (s.log.outstanding + 1) * MAXOPBLOCKS ≤ LOGSIZE ∧
      s' = { log := { s.log with outstanding := s.log.outstanding + 1 },
             phase := Function.update s.phase p (.inOp []) } := by
  simp only [sysStep] at h
  split at h
  · rename_i hp
    obtain ⟨log, hl, hs⟩ := Option.map_eq_some_iff.1 h
    obtain ⟨hc, hle, rfl⟩ := beginOp_eq_some hl
    exact ⟨hp, hc, hle, (Except.ok.inj hs).symm⟩
  · simp at h

theorem sysStep_logWrite {s s' : LogSys n} {p : Fin n} {b : Nat}
    (h : sysStep s (.logWrite p b) = some (.ok s')) :
    ∃ w, s.phase p = .inOp w ∧ (b ∈ w ∨ w.length < MAXOPBLOCKS) ∧ 1 ≤ s.log.outstanding ∧
      s'.log.lh = (if b ∈ s.log.lh then s.log.lh else s.log.lh ++ [b]) ∧
      s'.log.outstanding = s.log.outstanding ∧ s'.log.committing = s.log.committing ∧
      s'.phase = Function.update s.phase p (.inOp (if b ∈ w then w else w ++ [b])) := by
  simp only [sysStep] at h
  split at h
  · rename_i w hp
    by_cases hw : b ∈ w ∨ w.length < MAXOPBLOCKS
    · rw [if_pos hw] at h
      obtain ⟨log, hl, rfl⟩ := Outcome.ok_of_map (Option.some.inj h)
      obtain ⟨-, hout, rfl⟩ := logWrite_eq_ok hl
      refine ⟨w, hp, hw, hout, ?_, ?_, ?_, rfl⟩ <;> split <;> rfl
    · rw [if_neg hw] at h
      simp at h
  · simp at h

theorem sysStep_endOp {s s' : LogSys n} {p : Fin n} (h : sysStep s (.endOp p) = some (.ok s')) :
    ∃ w, s.phase p = .inOp w ∧ s.log.committing = false ∧
      s' = { log := { s.log with outstanding := s.log.outstanding - 1,
                                 committing := decide (s.log.outstanding - 1 = 0) },
             phase := Function.update s.phase p
               (if s.log.outstanding - 1 = 0 then .committing else .idle) } := by
  simp only [sysStep] at h
  split at h
  · rename_i w hp
    obtain ⟨r, hr, rfl⟩ := Outcome.ok_of_map (Option.some.inj h)
    obtain ⟨hc, rfl⟩ := endOp_eq_ok hr
    exact ⟨w, hp, hc, by simp⟩
  · simp at h

theorem sysStep_commit {s s' : LogSys n} {p : Fin n} (h : sysStep s (.commit p) = some (.ok s')) :
    s.phase p = .committing ∧
      s' = { log := commitDone s.log, phase := Function.update s.phase p .idle } := by
  simp only [sysStep] at h
  split at h
  · rename_i hp
    simp only [Option.some.injEq, Except.ok.injEq] at h
    exact ⟨hp, h.symm⟩
  · simp at h

/-! ## The reservation invariant -/

/-- What an operation in progress may still add to the header. -/
def reserve : OpPhase → Nat
  | .inOp w => MAXOPBLOCKS - w.length
  | _ => 0

/-- `1` for an operation in progress. -/
def inOpCount : OpPhase → Nat
  | .inOp _ => 1
  | _ => 0

/-- `1` for a process running `commit()`. -/
def commitCount : OpPhase → Nat
  | .committing => 1
  | _ => 0

@[simp] theorem reserve_idle : reserve .idle = 0 := rfl
@[simp] theorem reserve_inOp (w : List Nat) : reserve (.inOp w) = MAXOPBLOCKS - w.length := rfl
@[simp] theorem reserve_committing : reserve .committing = 0 := rfl
@[simp] theorem inOpCount_idle : inOpCount .idle = 0 := rfl
@[simp] theorem inOpCount_inOp (w : List Nat) : inOpCount (.inOp w) = 1 := rfl
@[simp] theorem inOpCount_committing : inOpCount .committing = 0 := rfl
@[simp] theorem commitCount_idle : commitCount .idle = 0 := rfl
@[simp] theorem commitCount_inOp (w : List Nat) : commitCount (.inOp w) = 0 := rfl
@[simp] theorem commitCount_committing : commitCount .committing = 1 := rfl

/-- The invariant of the log protocol: `outstanding` counts the operations in progress,
`committing` the processes in `commit()` (at most one, and then no operation is in
progress), each operation's blocks are in the header, and the header plus the unused
reservations fit in `LOGSIZE`. -/
structure LogSys.Inv (s : LogSys n) : Prop where
  outstanding : s.log.outstanding = ∑ p, inOpCount (s.phase p)
  committing : (if s.log.committing then 1 else 0) = ∑ p, commitCount (s.phase p)
  quiet : s.log.committing = true → s.log.outstanding = 0
  written : ∀ p w, s.phase p = .inOp w → (∀ b ∈ w, b ∈ s.log.lh) ∧ w.length ≤ MAXOPBLOCKS
  reserved : s.log.lh.length + ∑ p, reserve (s.phase p) ≤ LOGSIZE

theorem sum_reserve_le (f : Fin n → OpPhase) :
    ∑ p, reserve (f p) ≤ MAXOPBLOCKS * ∑ p, inOpCount (f p) := by
  rw [Finset.mul_sum]
  apply Finset.sum_le_sum
  intro p _
  cases f p <;> simp

theorem not_inOp_of_sum_eq_zero {f : Fin n → OpPhase} (h : ∑ p, inOpCount (f p) = 0)
    (p : Fin n) (w : List Nat) : f p ≠ .inOp w := by
  intro hp
  have := le_sum inOpCount f p
  rw [hp, inOpCount_inOp] at this
  omega

theorem LogSys.init_inv (start size : Nat) : (LogSys.init start size : LogSys n).Inv where
  outstanding := by simp [LogSys.init]
  committing := by simp [LogSys.init]
  quiet := by simp [LogSys.init]
  written := by simp [LogSys.init]
  reserved := by simp [LogSys.init]

section Preserve

variable {s s' : LogSys n} {p : Fin n}

theorem LogSys.Inv.beginOp (hi : s.Inv) (h : sysStep s (.beginOp p) = some (.ok s')) :
    s'.Inv := by
  obtain ⟨hp, hc, hl, rfl⟩ := sysStep_beginOp h
  have h1 := sum_comp_update_add inOpCount s.phase p (.inOp [])
  have h2 := sum_comp_update_add commitCount s.phase p (.inOp [])
  have h3 := sum_comp_update_add reserve s.phase p (.inOp [])
  have h4 := sum_reserve_le s.phase
  have hr := hi.reserved
  have ho := hi.outstanding
  rw [hp] at h1 h2 h3
  simp only [inOpCount_inOp, inOpCount_idle, commitCount_inOp, commitCount_idle, reserve_inOp,
    reserve_idle, List.length_nil, Nat.sub_zero] at h1 h2 h3
  rw [MAXOPBLOCKS_eq, LOGSIZE_eq] at *
  refine ⟨by simp only; omega, by simp only; rw [hi.committing]; omega,
    by simp [hc], fun q w hq => ?_, by simp only; rw [LOGSIZE_eq]; omega⟩
  dsimp only at hq ⊢
  by_cases hqp : q = p
  · subst hqp
    simp only [Function.update_self, OpPhase.inOp.injEq] at hq
    subst hq
    simp
  · rw [Function.update_of_ne hqp] at hq
    exact hi.written q w hq

theorem LogSys.Inv.logWrite {b : Nat} (hi : s.Inv) (h : sysStep s (.logWrite p b) = some (.ok s')) :
    s'.Inv := by
  obtain ⟨w, hp, hw, hout, hlh, ho, hc, hph⟩ := sysStep_logWrite h
  obtain ⟨hwl, hwm⟩ := hi.written p w hp
  have hsub : ∀ c ∈ s.log.lh, c ∈ s'.log.lh := by
    intro c hc; rw [hlh]; split <;> simp [hc]
  have hb : b ∈ s'.log.lh := by
    rw [hlh]; split <;> simp_all
  have hlen : s'.log.lh.length ≤ s.log.lh.length + 1 := by
    rw [hlh]; split <;> simp
  by_cases hbw : b ∈ w
  · -- a block this operation has logged before: absorbed, nothing changes
    have hbl : b ∈ s.log.lh := hwl b hbw
    rw [if_pos hbw, ← hp, Function.update_eq_self] at hph
    rw [if_pos hbl] at hlh
    exact ⟨by rw [ho, hph]; exact hi.outstanding, by rw [hc, hph]; exact hi.committing,
      by rw [hc, ho]; exact hi.quiet, by rw [hph, hlh]; exact hi.written,
      by rw [hph, hlh]; exact hi.reserved⟩
  · -- a block new to this operation: its reservation shrinks by one
    have hlt : w.length < MAXOPBLOCKS := hw.resolve_left hbw
    rw [if_neg hbw] at hph
    have h1 := sum_comp_update_add inOpCount s.phase p (.inOp (w ++ [b]))
    have h2 := sum_comp_update_add commitCount s.phase p (.inOp (w ++ [b]))
    have h3 := sum_comp_update_add reserve s.phase p (.inOp (w ++ [b]))
    have hr := hi.reserved
    rw [hp] at h1 h2 h3
    rw [← hph] at h1 h2 h3
    simp only [inOpCount_inOp, commitCount_inOp, reserve_inOp, List.length_append,
      List.length_singleton] at h1 h2 h3
    refine ⟨?_, ?_, ?_, fun q w' hq => ?_, ?_⟩
    · rw [ho, hi.outstanding]; omega
    · rw [hc, hi.committing]; omega
    · rw [hc, ho]; exact hi.quiet
    · rw [hph] at hq
      by_cases hqp : q = p
      · subst hqp
        simp only [Function.update_self, OpPhase.inOp.injEq] at hq
        subst hq
        refine ⟨fun c hc => ?_, by simp; omega⟩
        rcases List.mem_append.1 hc with hc | hc
        · exact hsub c (hwl c hc)
        · rw [List.mem_singleton.1 hc]; exact hb
      · rw [Function.update_of_ne hqp] at hq
        obtain ⟨hq1, hq2⟩ := hi.written q w' hq
        exact ⟨fun c hc => hsub c (hq1 c hc), hq2⟩
    · rw [MAXOPBLOCKS_eq] at h3 hlt
      omega

theorem LogSys.Inv.endOp (hi : s.Inv) (h : sysStep s (.endOp p) = some (.ok s')) : s'.Inv := by
  obtain ⟨w, hp, hc, rfl⟩ := sysStep_endOp h
  have hpos : 1 ≤ ∑ q, inOpCount (s.phase q) := by
    have := le_sum inOpCount s.phase p
    rwa [hp, inOpCount_inOp] at this
  have hc0 : ∑ q, commitCount (s.phase q) = 0 := by
    rw [← hi.committing, hc]; rfl
  have hr := hi.reserved
  have ho := hi.outstanding
  -- the caller commits exactly when it was the last operation in progress
  by_cases h0 : s.log.outstanding - 1 = 0
  · have h1 := sum_comp_update_add inOpCount s.phase p .committing
    have h2 := sum_comp_update_add commitCount s.phase p .committing
    have h3 := sum_comp_update_add reserve s.phase p .committing
    rw [hp] at h1 h2 h3
    simp only [inOpCount_inOp, inOpCount_committing, commitCount_inOp, commitCount_committing,
      reserve_inOp, reserve_committing] at h1 h2 h3
    refine ⟨?_, ?_, ?_, fun q w' hq => ?_, ?_⟩
    · simp only [if_pos h0]; omega
    · simp only [if_pos h0, decide_eq_true h0, if_true]; omega
    · simp [h0]
    · simp only [if_pos h0] at hq
      by_cases hqp : q = p
      · subst hqp; rw [Function.update_self] at hq; cases hq
      · rw [Function.update_of_ne hqp] at hq; exact hi.written q w' hq
    · simp only [if_pos h0]; omega
  · have h1 := sum_comp_update_add inOpCount s.phase p .idle
    have h2 := sum_comp_update_add commitCount s.phase p .idle
    have h3 := sum_comp_update_add reserve s.phase p .idle
    rw [hp] at h1 h2 h3
    simp only [inOpCount_inOp, inOpCount_idle, commitCount_inOp, commitCount_idle,
      reserve_inOp, reserve_idle] at h1 h2 h3
    refine ⟨?_, ?_, ?_, fun q w' hq => ?_, ?_⟩
    · simp only [if_neg h0]; omega
    · simp only [if_neg h0, decide_eq_false h0, Bool.false_eq_true, if_false]; omega
    · simp [h0]
    · simp only [if_neg h0] at hq
      by_cases hqp : q = p
      · subst hqp; rw [Function.update_self] at hq; cases hq
      · rw [Function.update_of_ne hqp] at hq; exact hi.written q w' hq
    · simp only [if_neg h0]; omega

theorem LogSys.Inv.commit (hi : s.Inv) (h : sysStep s (.commit p) = some (.ok s')) : s'.Inv := by
  obtain ⟨hp, rfl⟩ := sysStep_commit h
  have hflag : s.log.committing = true := by
    have h0 := le_sum commitCount s.phase p
    rw [hp, commitCount_committing, ← hi.committing] at h0
    by_contra hf
    simp [hf] at h0
  have h0 : ∑ q, inOpCount (s.phase q) = 0 := by
    rw [← hi.outstanding]; exact hi.quiet hflag
  have h1 := sum_comp_update_add inOpCount s.phase p .idle
  have h2 := sum_comp_update_add commitCount s.phase p .idle
  have h4 := sum_reserve_le (Function.update s.phase p .idle)
  have hc1 := hi.committing
  rw [hp] at h1 h2
  rw [hflag] at hc1
  simp only [inOpCount_committing, inOpCount_idle, commitCount_committing, commitCount_idle,
    if_true] at h1 h2 hc1
  refine ⟨?_, ?_, ?_, fun q w' hq => ?_, ?_⟩
  · simp only [commitDone]
    rw [hi.quiet hflag]; omega
  · simp only [commitDone, Bool.false_eq_true, if_false]; omega
  · simp [commitDone]
  · dsimp only at hq
    by_cases hqp : q = p
    · subst hqp
      rw [Function.update_self] at hq
      cases hq
    · rw [Function.update_of_ne hqp] at hq
      exact absurd hq (not_inOp_of_sum_eq_zero h0 q w')
  · simp only [commitDone, List.length_nil, Nat.zero_add]
    rw [LOGSIZE_eq, MAXOPBLOCKS_eq] at *
    omega

theorem LogSys.Inv.sysStep (hi : s.Inv) {a : Act n} (h : sysStep s a = some (.ok s')) :
    s'.Inv := by
  cases a with
  | beginOp p => exact hi.beginOp h
  | logWrite p b => exact hi.logWrite h
  | endOp p => exact hi.endOp h
  | commit p => exact hi.commit h

theorem exec_eq_run (s : LogSys n) (as : List (Act n)) : exec s as = Outcome.run sysStep s as := by
  induction as generalizing s with
  | nil => rfl
  | cons a as ih =>
    simp only [exec, Outcome.run]
    cases sysStep s a with
    | none => rfl
    | some r =>
      cases r with
      | error e => rfl
      | ok s1 => exact ih s1

theorem LogSys.Inv.exec (hi : s.Inv) {as : List (Act n)} (h : Xv6.exec s as = some (.ok s')) :
    s'.Inv := by
  rw [exec_eq_run] at h
  exact Outcome.run_inv LogSys.Inv (fun _ _ _ hi hs => hi.sysStep hs) hi h

end Preserve

/-! ## What the invariant gives, and where admission falls short -/

theorem LogSys.reachable_inv {start size : Nat} {as : List (Act n)} {s : LogSys n}
    (h : exec (LogSys.init start size) as = some (.ok s)) : s.Inv :=
  (LogSys.init_inv start size).exec h

/-- A `log_write` of a block new to its operation finds the header below `LOGSIZE`: the
operation still holds part of its reservation. -/
theorem logWrite_fresh_lt {s : LogSys n} (hi : s.Inv) {p : Fin n} {w : List Nat}
    (hp : s.phase p = .inOp w) (hw : w.length < MAXOPBLOCKS) : s.log.lh.length < LOGSIZE := by
  have h1 := le_sum reserve s.phase p
  have h2 := hi.reserved
  rw [hp, reserve_inOp] at h1
  omega

/-- While a process runs `commit()`, no operation is in progress and `begin_op` lets no
process in. -/
theorem commit_quiescent {s : LogSys n} (hi : s.Inv) {p : Fin n} (hp : s.phase p = .committing) :
    (∀ q w, s.phase q ≠ .inOp w) ∧ ∀ q, sysStep s (.beginOp q) = none := by
  have hflag : s.log.committing = true := by
    have h0 := le_sum commitCount s.phase p
    rw [hp, commitCount_committing, ← hi.committing] at h0
    by_contra hf
    simp [hf] at h0
  have h0 : ∑ q, inOpCount (s.phase q) = 0 := by
    rw [← hi.outstanding]; exact hi.quiet hflag
  refine ⟨not_inOp_of_sum_eq_zero h0, fun q => ?_⟩
  simp only [sysStep]
  split
  · simp [beginOp, hflag]
  · rfl

/-- On a log of `LOGSIZE` blocks, as `mkfs` makes it, three operations pass `begin_op`
together (`0 + 3 * MAXOPBLOCKS ≤ LOGSIZE`), and each logs ten distinct blocks: the
thirtieth `log_write` finds `lh.n = LOGSIZE - 1 = log.size - 1` and panics. -/
theorem logWrite_panics_at_mkfs_size :
    exec (LogSys.init 2 LOGSIZE : LogSys 3)
      ([.beginOp 0, .beginOp 1, .beginOp 2] ++
        (List.range 10).map (fun i => .logWrite 0 (100 + i)) ++
        (List.range 10).map (fun i => .logWrite 1 (110 + i)) ++
        (List.range 10).map (fun i => .logWrite 2 (120 + i))) =
      some (.error "too big a transaction") := by
  rfl

end Xv6
