import Xv6.Log.Basic

/-!
# Crash atomicity of the write-ahead log

A crash may stop `commit` after any prefix of its block writes; the next boot runs
`recover_from_log`, which may itself be stopped after any prefix of its writes, any
number of times, until one run completes.  `commit_crash_atomic`: whatever the crash
points, every block outside the log region ends up holding what it held before the
commit, or the committed contents, the same choice for all of them, and the header
ends with `n = 0`.

The argument is by stages.  Every disk reachable this way is `Clean` (header empty,
home blocks untouched), `Committed` (header lists the transaction, its slots hold the
cached contents, each home block old or new) or `Done` (header empty, home blocks new):
`write_head` of the full header is the commit point, and `install_trans` only copies
slots that no write of it touches, so repeating it is harmless.
-/

namespace Xv6

open Crash

/-! ## The writes of each phase -/

theorem writeLog_take (start : Nat) (cache : Nat → Block) (i : Nat) (bs : List Nat) (k : Nat) :
    (writeLog start cache i bs).take k = writeLog start cache i (bs.take k) := by
  induction bs generalizing i k with
  | nil => simp [writeLog]
  | cons b bs ih =>
    cases k with
    | zero => simp [writeLog]
    | succ k => simp [writeLog, ih]

theorem installTrans_take (start i : Nat) (bs : List Nat) (k : Nat) :
    (installTrans start i bs).take k = installTrans start i (bs.take k) := by
  induction bs generalizing i k with
  | nil => simp [installTrans]
  | cons b bs ih =>
    cases k with
    | zero => simp [installTrans]
    | succ k => simp [installTrans, ih]

theorem length_writeLog (start : Nat) (cache : Nat → Block) (i : Nat) (bs : List Nat) :
    (writeLog start cache i bs).length = bs.length := by
  induction bs generalizing i with
  | nil => rfl
  | cons b bs ih => simp [writeLog, ih]

theorem length_installTrans (start i : Nat) (bs : List Nat) :
    (installTrans start i bs).length = bs.length := by
  induction bs generalizing i with
  | nil => rfl
  | cons b bs ih => simp [installTrans, ih]

theorem writeLog_apply_of_not_slot (start : Nat) (cache : Nat → Block) (i : Nat)
    (bs : List Nat) (d : Disk) (x : Nat)
    (hx : x < start + i + 1 ∨ start + i + bs.length + 1 ≤ x) :
    run (writeLog start cache i bs) d x = d x := by
  induction bs generalizing i d with
  | nil => rfl
  | cons b bs ih =>
    simp only [writeLog, run_cons, List.length_cons] at hx ⊢
    rw [ih _ _ (by omega)]
    exact step_apply_of_ne _ _ (by simp [put]; omega)

theorem writeLog_apply_slot (start : Nat) (cache : Nat → Block) (i : Nat) (bs : List Nat)
    (d : Disk) (t : Nat) (ht : t < bs.length) :
    run (writeLog start cache i bs) d (start + i + t + 1) = cache bs[t] := by
  induction bs generalizing i t d with
  | nil => simp at ht
  | cons b bs ih =>
    simp only [writeLog, run_cons]
    cases t with
    | zero =>
      rw [writeLog_apply_of_not_slot _ _ _ _ _ _ (by omega)]
      simp [step, put]
    | succ t =>
      rw [show start + i + (t + 1) + 1 = start + (i + 1) + t + 1 by omega]
      exact ih _ _ _ (by simpa using ht)

/-- What `install_trans` does when every slot it reads holds the cached contents of its
block, and no block it installs is one of those slots: each listed block gets its cached
contents, and nothing else changes. -/
theorem installTrans_apply (start : Nat) (cache : Nat → Block) (i : Nat) (bs : List Nat)
    (d : Disk) (hslot : ∀ t (h : t < bs.length), d (start + (i + t) + 1) = cache bs[t])
    (hdis : ∀ b ∈ bs, ∀ t, t < bs.length → b ≠ start + (i + t) + 1) (x : Nat) :
    run (installTrans start i bs) d x = if x ∈ bs then cache x else d x := by
  induction bs generalizing i d with
  | nil => simp [installTrans]
  | cons b bs ih =>
    simp only [installTrans, run_cons]
    have hb : d (start + i + 1) = cache b := by
      have h0 := hslot 0 (by simp)
      rwa [Nat.add_zero, List.getElem_cons_zero] at h0
    rw [ih (i + 1) (step (copy (start + i + 1) b) d)]
    · by_cases hxb : x = b
      · subst hxb; simp [step, copy, hb]
      · by_cases hx : x ∈ bs
        · simp [hx]
        · simp [hx, hxb, step, copy]
    · intro t ht
      have hne : start + (i + 1 + t) + 1 ≠ b :=
        (hdis b List.mem_cons_self (t + 1) (by simp; omega)).symm ∘ (by omega)
      rw [step, copy, Function.update_of_ne hne]
      have h1 := hslot (t + 1) (by simp; omega)
      rwa [List.getElem_cons_succ, show i + (t + 1) = i + 1 + t by omega] at h1
    · intro b' hb' t ht
      have := hdis b' (List.mem_cons_of_mem _ hb') (t + 1) (by simp; omega)
      omega

theorem run_writeHead (start : Nat) (lh : List Nat) (d : Disk) (x : Nat) :
    step (writeHead start lh) d x = if x = start then putHead lh (d start) else d x := by
  rw [step_apply]
  rfl

theorem recoverFromLog_of_headN (start : Nat) (d : Disk) (h : headN (d start) = 0) :
    recoverFromLog start d = [writeHead start []] := by
  simp [recoverFromLog, readHead, h, installTrans]

/-! ## Crashes and recoveries -/

/-- A run of `recover_from_log` that a crash stops after `j` of its writes. -/
def recoverCrash (start j : Nat) (d : Disk) : Disk :=
  run ((recoverFromLog start d).take j) d

/-- Runs of recovery, one after the other, each stopped by a crash after the given number
of its writes (a number at least its length lets that run complete). -/
def recoverRuns (start : Nat) : List Nat → Disk → Disk
  | [], d => d
  | j :: js, d => recoverRuns start js (recoverCrash start j d)

/-- `recover_from_log` run to completion. -/
def recovered (start : Nat) (d : Disk) : Disk :=
  run (recoverFromLog start d) d

/-! ## Stages -/

section Stages

variable (log : Log) (cache : Nat → Block) (d0 : Disk)

/-- Block `x` lies in the log region `[log.start, log.start + log.size)`. -/
def InLog (x : Nat) : Prop := log.start ≤ x ∧ x < log.start + log.size

/-- What the transaction writes: `commit` may assume its header fits the header's array
and the log's slots, and that each logged block is a `uint` block number outside the log. -/
structure TxnOk : Prop where
  fits : log.lh.length ≤ LOGSIZE
  room : log.lh.length + 1 ≤ log.size
  home : ∀ b ∈ log.lh, b < 2 ^ 32 ∧ ¬ InLog log b

/-- The committed contents: the cached contents of each block of the transaction. -/
def installed (x : Nat) : Block := if x ∈ log.lh then cache x else d0 x

/-- Before the commit point: the header is empty and no home block has changed. -/
def Clean (d : Disk) : Prop :=
  headN (d log.start) = 0 ∧ ∀ x, ¬ InLog log x → d x = d0 x

/-- Past the commit point: the header lists the transaction, its slots hold the cached
contents, and each home block is old or new. -/
def Committed (d : Disk) : Prop :=
  readHead (d log.start) = log.lh ∧
    (∀ t (h : t < log.lh.length), d (log.start + (0 + t) + 1) = cache log.lh[t]) ∧
    ∀ x, ¬ InLog log x → d x = d0 x ∨ d x = installed log cache d0 x

/-- Installed: the header is empty and every home block is new. -/
def Done (d : Disk) : Prop :=
  headN (d log.start) = 0 ∧ ∀ x, ¬ InLog log x → d x = installed log cache d0 x

/-- The disks a crash can leave. -/
def Stage (d : Disk) : Prop :=
  Clean log d0 d ∨ Committed log cache d0 d ∨ Done log cache d0 d

variable {log}

theorem TxnOk.start_inLog (hok : TxnOk log) : InLog log log.start := by
  have := hok.room
  unfold InLog; omega

theorem TxnOk.slot_inLog (hok : TxnOk log) {t : Nat} (ht : t < log.lh.length) :
    InLog log (log.start + (0 + t) + 1) := by
  have := hok.room
  unfold InLog; omega

theorem TxnOk.not_mem_of_inLog (hok : TxnOk log) {x : Nat} (hx : InLog log x) : x ∉ log.lh :=
  fun h => (hok.home x h).2 hx

theorem headN_clear (d : Disk) :
    headN (step (writeHead log.start []) d log.start) = 0 := by
  rw [run_writeHead, if_pos rfl, headN_putHead_nil]

theorem clear_apply_home (hok : TxnOk log) (d : Disk) {x : Nat} (hx : ¬ InLog log x) :
    step (writeHead log.start []) d x = d x := by
  rw [run_writeHead, if_neg (fun (h : x = log.start) => hx (h ▸ hok.start_inLog))]

variable {cache d0}

theorem clean_recoverCrash (hok : TxnOk log) (d : Disk) (hd : Clean log d0 d) (j : Nat) :
    Clean log d0 (recoverCrash log.start j d) := by
  unfold recoverCrash
  rw [recoverFromLog_of_headN _ _ hd.1]
  cases j with
  | zero => exact hd
  | succ j =>
    simp only [List.take_succ_cons, List.take_nil, run_cons, run_nil]
    exact ⟨headN_clear d, fun x hx => (clear_apply_home hok d hx).trans (hd.2 x hx)⟩

theorem done_recoverCrash (hok : TxnOk log) (d : Disk) (hd : Done log cache d0 d) (j : Nat) :
    Done log cache d0 (recoverCrash log.start j d) := by
  unfold recoverCrash
  rw [recoverFromLog_of_headN _ _ hd.1]
  cases j with
  | zero => exact hd
  | succ j =>
    simp only [List.take_succ_cons, List.take_nil, run_cons, run_nil]
    exact ⟨headN_clear d, fun x hx => (clear_apply_home hok d hx).trans (hd.2 x hx)⟩

/-- `install_trans` of the first `j` logged blocks from a committed disk: those blocks get
their cached contents and nothing else changes. -/
theorem committed_installTrans_apply (hok : TxnOk log) (d : Disk)
    (hd : Committed log cache d0 d) (j x : Nat) :
    run (installTrans log.start 0 (log.lh.take j)) d x =
      if x ∈ log.lh.take j then cache x else d x := by
  apply installTrans_apply
  · intro t ht
    rw [List.getElem_take]
    exact hd.2.1 t (by simp at ht; omega)
  · intro b hb t ht heq
    have ht' : t < log.lh.length := by simp at ht; omega
    exact (hok.home b (List.mem_of_mem_take hb)).2 (heq ▸ hok.slot_inLog ht')

theorem committed_recoverFromLog (d : Disk) (hd : Committed log cache d0 d) :
    recoverFromLog log.start d = installTrans log.start 0 log.lh ++ [writeHead log.start []] := by
  rw [recoverFromLog, hd.1]

/-- A crash inside `install_trans` leaves the disk committed: the header and the slots are
untouched, and each home block it reached holds its new contents. -/
theorem committed_installTrans_take (hok : TxnOk log) (d : Disk) (hd : Committed log cache d0 d)
    (j : Nat) : Committed log cache d0 (run (installTrans log.start 0 (log.lh.take j)) d) := by
  have hnot : ∀ x, InLog log x → x ∉ log.lh.take j :=
    fun x hx hm => hok.not_mem_of_inLog hx (List.mem_of_mem_take hm)
  refine ⟨?_, ?_, ?_⟩
  · rw [committed_installTrans_apply hok d hd, if_neg (hnot _ hok.start_inLog)]
    exact hd.1
  · intro t ht
    rw [committed_installTrans_apply hok d hd, if_neg (hnot _ (hok.slot_inLog ht))]
    exact hd.2.1 t ht
  · intro x hx
    rw [committed_installTrans_apply hok d hd]
    split
    · rename_i hm
      right
      rw [installed, if_pos (List.mem_of_mem_take hm)]
    · exact hd.2.2 x hx

theorem done_of_committed (hok : TxnOk log) (d : Disk) (hd : Committed log cache d0 d) :
    Done log cache d0 (step (writeHead log.start []) (run (installTrans log.start 0 log.lh) d)) := by
  refine ⟨headN_clear _, fun x hx => ?_⟩
  rw [clear_apply_home hok _ hx]
  have h := committed_installTrans_apply hok d hd log.lh.length x
  rw [List.take_length] at h
  rw [h]
  by_cases hm : x ∈ log.lh
  · rw [if_pos hm, installed, if_pos hm]
  · rw [if_neg hm]
    rcases hd.2.2 x hx with h0 | h0
    · rw [h0, installed, if_neg hm]
    · exact h0

theorem stage_recoverCrash (hok : TxnOk log) (d : Disk) (hd : Stage log cache d0 d) (j : Nat) :
    Stage log cache d0 (recoverCrash log.start j d) := by
  rcases hd with hd | hd | hd
  · exact Or.inl (clean_recoverCrash hok d hd j)
  · unfold recoverCrash
    rw [committed_recoverFromLog d hd, run_take_append]
    split
    · rename_i hj
      rw [installTrans_take]
      exact Or.inr (Or.inl (committed_installTrans_take hok d hd j))
    · rename_i hj
      rw [length_installTrans] at hj
      obtain ⟨m, hm⟩ : ∃ m, j - (installTrans log.start 0 log.lh).length = m + 1 :=
        ⟨j - log.lh.length - 1, by rw [length_installTrans]; omega⟩
      rw [hm, List.take_succ_cons, List.take_nil, run_cons, run_nil]
      exact Or.inr (Or.inr (done_of_committed hok d hd))
  · exact Or.inr (Or.inr (done_recoverCrash hok d hd j))

theorem clean_or_done_recovered (hok : TxnOk log) (d : Disk) (hd : Stage log cache d0 d) :
    Clean log d0 (recovered log.start d) ∨ Done log cache d0 (recovered log.start d) := by
  have hfull : recovered log.start d =
      recoverCrash log.start (recoverFromLog log.start d).length d := by
    rw [recoverCrash, List.take_length]; rfl
  rcases hd with hd | hd | hd
  · exact Or.inl (hfull ▸ clean_recoverCrash hok d hd _)
  · right
    unfold recovered
    rw [committed_recoverFromLog d hd, run_concat]
    exact done_of_committed hok d hd
  · exact Or.inr (hfull ▸ done_recoverCrash hok d hd _)

theorem stage_recoverRuns (hok : TxnOk log) (js : List Nat) (d : Disk)
    (hd : Stage log cache d0 d) : Stage log cache d0 (recoverRuns log.start js d) := by
  induction js generalizing d with
  | nil => exact hd
  | cons j js ih => exact ih _ (stage_recoverCrash hok d hd j)

/-- The disk when `write_log` is done and `write_head` has stored the full header: the
commit point. -/
theorem committed_after_writeHead (hok : TxnOk log) :
    Committed log cache d0
      (step (writeHead log.start log.lh) (run (writeLog log.start cache 0 log.lh) d0)) := by
  have hroom := hok.room
  refine ⟨?_, ?_, ?_⟩
  · rw [run_writeHead, if_pos rfl]
    exact readHead_putHead _ _ hok.fits (fun b hb => (hok.home b hb).1)
  · intro t ht
    rw [run_writeHead, if_neg (by omega), Nat.zero_add,
      show log.start + t + 1 = log.start + 0 + t + 1 by omega]
    exact writeLog_apply_slot _ _ _ _ _ _ ht
  · intro x hx
    left
    have hx' : x < log.start ∨ log.start + log.size ≤ x := by unfold InLog at hx; omega
    rw [run_writeHead, if_neg (by omega), writeLog_apply_of_not_slot _ _ _ _ _ _ (by omega)]

theorem stage_commit_take (hok : TxnOk log) (hhead : headN (d0 log.start) = 0) (k : Nat) :
    Stage log cache d0 (run ((commit log cache).take k) d0) := by
  have hroom := hok.room
  unfold commit
  split
  · rw [run_take_append, length_writeLog]
    split
    · rename_i hk
      left
      rw [writeLog_take]
      refine ⟨?_, fun x hx => ?_⟩
      · rw [writeLog_apply_of_not_slot _ _ _ _ _ _ (by omega)]
        exact hhead
      · have hx' : x < log.start ∨ log.start + log.size ≤ x := by unfold InLog at hx; omega
        rw [writeLog_apply_of_not_slot _ _ _ _ _ _ (by simp; omega)]
    · rename_i hk
      obtain ⟨m, hm⟩ : ∃ m, k - log.lh.length = m + 1 := ⟨k - log.lh.length - 1, by omega⟩
      rw [hm, List.take_succ_cons, run_cons]
      -- past the commit point, the rest of `commit` is what recovery would do
      have hc : Committed log cache d0 (step (writeHead log.start log.lh)
          (run (writeLog log.start cache 0 log.lh) d0)) := committed_after_writeHead hok
      rw [← committed_recoverFromLog _ hc]
      exact stage_recoverCrash hok _ (Or.inr (Or.inl hc)) m
  · simp only [List.take_nil, run_nil]
    exact Or.inl ⟨hhead, fun _ _ => rfl⟩

end Stages

/-! ## The theorem -/

/-- **Crash atomicity of the log.**  From a disk whose header has `n = 0`, crash `commit`
after any `k` of its writes, then crash recovery after the given numbers of writes of
each run, then let one run of recovery complete: the header ends with `n = 0`, and either
every block outside the log holds what it held before, or every one holds the committed
contents. -/
theorem commit_crash_atomic (log : Log) (cache : Nat → Block) (d0 : Disk) (hok : TxnOk log)
    (hhead : headN (d0 log.start) = 0) (k : Nat) (crashes : List Nat) :
    let d := recovered log.start
      (recoverRuns log.start crashes (run ((commit log cache).take k) d0))
    headN (d log.start) = 0 ∧
      ((∀ x, ¬ InLog log x → d x = d0 x) ∨
        (∀ x, ¬ InLog log x → d x = installed log cache d0 x)) := by
  intro d
  have hs : Stage log cache d0
      (recoverRuns log.start crashes (run ((commit log cache).take k) d0)) :=
    stage_recoverRuns hok crashes _ (stage_commit_take hok hhead k)
  rcases clean_or_done_recovered hok _ hs with h | h
  · exact ⟨h.1, Or.inl h.2⟩
  · exact ⟨h.1, Or.inr h.2⟩

/-- Two logged blocks on a zeroed disk; `commit` stopped after three writes (the log
written, the header committed) and one run of recovery stopped after its first write. -/
theorem commit_crash_atomic_two_blocks :
    TxnOk (⟨2, 30, 0, false, [40, 41]⟩ : Log) ∧ headN ((fun _ _ => 0 : Disk) 2) = 0 ∧
    let d := recovered 2
      (recoverRuns 2 [1] (run ((commit ⟨2, 30, 0, false, [40, 41]⟩ (fun _ _ => 7)).take 3)
        (fun _ _ => 0)))
    headN (d 2) = 0 ∧
      ((∀ x, ¬ InLog ⟨2, 30, 0, false, [40, 41]⟩ x → d x = (fun _ _ => 0 : Disk) x) ∨
        (∀ x, ¬ InLog ⟨2, 30, 0, false, [40, 41]⟩ x →
          d x = installed ⟨2, 30, 0, false, [40, 41]⟩ (fun _ _ => 7) (fun _ _ => 0) x)) := by
  have h1 : TxnOk (⟨2, 30, 0, false, [40, 41]⟩ : Log) :=
    ⟨by decide, by decide, by simp [InLog]⟩
  have h2 : headN ((fun _ _ => 0 : Disk) 2) = 0 := by decide
  exact ⟨h1, h2, commit_crash_atomic ⟨2, 30, 0, false, [40, 41]⟩ (fun _ _ => 7) (fun _ _ => 0) h1 h2 3 [1]⟩

end Xv6
