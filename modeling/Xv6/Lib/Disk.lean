import Mathlib.Logic.Function.Basic
import Mathlib.Data.List.Basic

/-!
# Disks written one block at a time, and the states a crash can leave

A disk is a map `α → β` from addresses to block contents.  A program is a list
of writes; a write may look at the disk as it stands when it is issued (the
contents the writer has just read) to choose its address and its contents.
Writes complete in issue order and each is atomic, so a crash leaves the disk
as some prefix of the program left it: `run (ws.take k) d`.

The lemmas are the ones crash arguments need: how runs compose (`run_append`,
`run_concat`, `run_take_append`) and what one write changes (`step_apply`,
`step_apply_of_ne`).
-/

namespace Crash

variable {α β : Type} [DecidableEq α]

/-- One write: from the disk as it stands, the address written and its new contents. -/
abbrev Write (α β : Type) := (α → β) → α × β

/-- The disk after one write has completed. -/
def step (w : Write α β) (d : α → β) : α → β :=
  Function.update d (w d).1 (w d).2

/-- The disk after every write of a program has completed, in order. -/
def run : List (Write α β) → (α → β) → α → β
  | [], d => d
  | w :: ws, d => run ws (step w d)

/-- A write whose address and contents are fixed. -/
def put (a : α) (v : β) : Write α β := fun _ => (a, v)

/-- A write that copies the contents of `src` to `dst`. -/
def copy (src dst : α) : Write α β := fun d => (dst, d src)

@[simp] theorem run_nil (d : α → β) : run [] d = d := rfl

@[simp] theorem run_cons (w : Write α β) (ws : List (Write α β)) (d : α → β) :
    run (w :: ws) d = run ws (step w d) := rfl

theorem step_apply (w : Write α β) (d : α → β) (x : α) :
    step w d x = if x = (w d).1 then (w d).2 else d x := by
  unfold step
  by_cases h : x = (w d).1
  · subst h; simp
  · simp [h]

theorem step_apply_of_ne (w : Write α β) (d : α → β) {x : α} (h : x ≠ (w d).1) :
    step w d x = d x := by
  rw [step_apply, if_neg h]

@[simp] theorem step_apply_self (w : Write α β) (d : α → β) :
    step w d (w d).1 = (w d).2 := by
  rw [step_apply, if_pos rfl]

theorem run_append (ws vs : List (Write α β)) (d : α → β) :
    run (ws ++ vs) d = run vs (run ws d) := by
  induction ws generalizing d with
  | nil => rfl
  | cons w ws ih => exact ih _

theorem run_concat (ws : List (Write α β)) (w : Write α β) (d : α → β) :
    run (ws ++ [w]) d = step w (run ws d) := by
  rw [run_append]; rfl

/-- A crash inside `ws ++ vs`: either inside `ws`, or after all of `ws` and inside `vs`. -/
theorem run_take_append (ws vs : List (Write α β)) (d : α → β) (k : Nat) :
    run ((ws ++ vs).take k) d =
      if k ≤ ws.length then run (ws.take k) d else run (vs.take (k - ws.length)) (run ws d) := by
  rw [List.take_append, run_append]
  split
  · rename_i h
    rw [Nat.sub_eq_zero_of_le h]
    rfl
  · rename_i h
    rw [List.take_of_length_le (show ws.length ≤ k by omega)]

end Crash
