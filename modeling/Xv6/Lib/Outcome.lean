import Mathlib.Logic.Basic

/-!
# Runs of steps that may be disabled or panic

A step of a system from a state `σ` under an action `α` either cannot be taken now
(`none`), panics (`some (.error e)`), or moves to a new state (`some (.ok s')`).  A run
takes its actions in order and stops at the first one that is disabled or panics.

An invariant that every successful step keeps holds at the end of every successful run
(`run_inv`).  A step whose outcome is another's mapped by a function got its new state
from a successful outcome of the other (`ok_of_map`, `ok_of_map_map`): the inversion
every step built from a smaller one starts with.

A concrete run is evaluated once, by a test of its outcome (`holds`), and what the test
passed is read back from it (`exists_of_holds`).
-/

namespace Outcome

variable {σ α β ε : Type}

/-- A run of actions: the final state, the first panic, or `none` at the first action that
cannot be taken. -/
def run (step : σ → α → Option (Except ε σ)) (s : σ) : List α → Option (Except ε σ)
  | [] => some (.ok s)
  | a :: as =>
    match step s a with
    | some (.ok s') => run step s' as
    | r => r

section Run

variable {step : σ → α → Option (Except ε σ)} {s s' : σ}

@[simp] theorem run_nil : run step s [] = some (.ok s) := rfl

theorem run_cons_ok {a : α} {as : List α} (h : run step s (a :: as) = some (.ok s')) :
    ∃ s1, step s a = some (.ok s1) ∧ run step s1 as = some (.ok s') := by
  simp only [run] at h
  cases h1 : step s a with
  | none => simp [h1] at h
  | some r =>
    cases r with
    | error e => simp [h1] at h
    | ok s1 =>
      simp only [h1] at h
      exact ⟨s1, rfl, h⟩

theorem run_append {as bs : List α} (h : run step s as = some (.ok s')) :
    run step s (as ++ bs) = run step s' bs := by
  induction as generalizing s with
  | nil =>
    simp only [run_nil, Option.some.injEq, Except.ok.injEq] at h
    rw [h, List.nil_append]
  | cons a as ih =>
    obtain ⟨s1, h1, h2⟩ := run_cons_ok h
    rw [List.cons_append, run, h1]
    exact ih h2

/-- An invariant that every successful step keeps holds after every successful run. -/
theorem run_inv (I : σ → Prop) (hstep : ∀ s a s', I s → step s a = some (.ok s') → I s')
    {as : List α} (hs : I s) (h : run step s as = some (.ok s')) : I s' := by
  induction as generalizing s with
  | nil =>
    simp only [run_nil, Option.some.injEq, Except.ok.injEq] at h
    exact h ▸ hs
  | cons a as ih =>
    obtain ⟨s1, h1, h2⟩ := run_cons_ok h
    exact ih (hstep s a s1 hs h1) h2

end Run

/-- The same rule for steps that cannot panic, run by `List.foldlM` in `Option`. -/
theorem foldlM_inv (I : σ → Prop) {step : σ → α → Option σ}
    (hstep : ∀ s a s', I s → step s a = some s' → I s') {as : List α} {s s' : σ} (hs : I s)
    (h : as.foldlM step s = some s') : I s' := by
  induction as generalizing s with
  | nil =>
    simp only [List.foldlM_nil, pure, Option.some.injEq] at h
    exact h ▸ hs
  | cons a as ih =>
    rw [List.foldlM_cons] at h
    cases h1 : step s a with
    | none => simp [h1] at h
    | some s1 =>
      rw [h1, Option.bind_eq_bind, Option.bind_some] at h
      exact ih (hstep s a s1 hs h1) h

/-- The outcome is a state that passes the test `p`. -/
def holds (p : σ → Bool) : Option (Except ε σ) → Bool
  | some (.ok s) => p s
  | _ => false

theorem exists_of_holds {p : σ → Bool} {r : Option (Except ε σ)} (h : holds p r = true) :
    ∃ s, r = some (.ok s) ∧ p s = true := by
  match r, h with
  | some (.ok s), h => exact ⟨s, rfl, h⟩

theorem ok_of_map {f : α → β} {e : Except ε α} {y : β} (h : e.map f = .ok y) :
    ∃ x, e = .ok x ∧ f x = y := by
  cases e with
  | error e => cases h
  | ok x => exact ⟨x, rfl, Except.ok.inj h⟩

theorem ok_of_map_map {f : α → β} {o : Option (Except ε α)} {y : β}
    (h : o.map (Except.map f) = some (.ok y)) : ∃ x, o = some (.ok x) ∧ f x = y := by
  cases o with
  | none => cases h
  | some e =>
    obtain ⟨x, rfl, hx⟩ := ok_of_map (Option.some.inj h)
    exact ⟨x, rfl, hx⟩

theorem ok_of_unless {p : Prop} [Decidable p] {o : Option (Except ε σ)} {y : σ}
    (h : (if p then none else o) = some (.ok y)) : ¬p ∧ o = some (.ok y) := by
  by_cases hp : p
  · rw [if_pos hp] at h
    cases h
  · rw [if_neg hp] at h
    exact ⟨hp, h⟩

theorem ok_of_bind {e : Except ε α} {f : α → Except ε β} {y : β} (h : e >>= f = .ok y) :
    ∃ x, e = .ok x ∧ f x = .ok y := by
  cases e with
  | error e => cases h
  | ok x => exact ⟨x, rfl, h⟩

@[simp] theorem ok_bind (x : α) (f : α → Except ε β) : (Except.ok x >>= f) = f x := rfl

/-- The rule of `foldlM_inv` for steps that may fail, run in `Except`. -/
theorem foldlM_ok_inv (I : σ → Prop) {step : σ → α → Except ε σ}
    (hstep : ∀ s a s', I s → step s a = .ok s' → I s') {as : List α} {s s' : σ} (hs : I s)
    (h : as.foldlM step s = .ok s') : I s' := by
  induction as generalizing s with
  | nil =>
    simp only [List.foldlM_nil, pure, Except.pure, Except.ok.injEq] at h
    exact h ▸ hs
  | cons a as ih =>
    rw [List.foldlM_cons] at h
    obtain ⟨s1, h1, h2⟩ := ok_of_bind h
    exact ih (hstep s a s1 hs h1) h2

end Outcome
