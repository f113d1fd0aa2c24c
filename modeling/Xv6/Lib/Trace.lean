import Mathlib.Logic.Basic

/-!
# Runs that return results, and their refinement

A step from a state `σ` under a request `α` panics or moves to a new state with a result
`ρ`; a run serves the requests in order, collecting their results, and stops at the first
panic (`runOut`).  An abstract step is a relation between abstract states, a request and
its result, which may leave open what the concrete step decides (whether memory runs out,
say); its runs are its `Traces`.

A concrete step that, from every state satisfying an invariant, succeeds, keeps the
invariant and is an abstract step between the abstractions of its states makes every run
succeed as an abstract trace (`runOut_refines`): the forward simulation of runs, by
induction on the requests.  An invariant that moves along a preorder holds the same way of
every run that does not panic (`runOut_preserves`).
-/

namespace Trace

variable {σ α β ρ ε : Type}

/-- A run of requests: the final state and the results in order, or the first panic. -/
def runOut (step : σ → α → Except ε (σ × ρ)) (s : σ) : List α → Except ε (σ × List ρ)
  | [] => .ok (s, [])
  | a :: as =>
    match step s a with
    | .error e => .error e
    | .ok (s1, r) => (runOut step s1 as).map fun p => (p.1, r :: p.2)

/-- The runs of the abstract step relation `A`: from a state, through requests and their
results, to a state. -/
inductive Traces (A : β → α → β → ρ → Prop) : β → List α → β → List ρ → Prop
  | nil (b : β) : Traces A b [] b []
  | cons {b b1 b' : β} {a : α} {as : List α} {r : ρ} {rs : List ρ} :
      A b a b1 r → Traces A b1 as b' rs → Traces A b (a :: as) b' (r :: rs)

variable {step : σ → α → Except ε (σ × ρ)}

theorem runOut_cons_of_ok {a : α} {as : List α} {s s1 : σ} {r : ρ} (h : step s a = .ok (s1, r)) :
    runOut step s (a :: as) = (runOut step s1 as).map fun p => (p.1, r :: p.2) := by
  rw [runOut, h]

/-- Forward simulation of runs: a step that from every state satisfying `I` succeeds, keeps
`I` and moves the abstraction by an abstract step makes every run an abstract trace. -/
theorem runOut_refines (I : σ → Prop) (abs : σ → β) {A : β → α → β → ρ → Prop}
    (hstep : ∀ s a, I s → ∃ s' r, step s a = .ok (s', r) ∧ I s' ∧ A (abs s) a (abs s') r) :
    ∀ (as : List α) (s : σ), I s →
      ∃ s' rs, runOut step s as = .ok (s', rs) ∧ I s' ∧ Traces A (abs s) as (abs s') rs := by
  intro as
  induction as with
  | nil =>
    intro s hs
    exact ⟨s, [], rfl, hs, .nil _⟩
  | cons a as ih =>
    intro s hs
    obtain ⟨s1, r, h1, hs1, hA⟩ := hstep s a hs
    obtain ⟨s', rs, h2, hs', hT⟩ := ih s1 hs1
    exact ⟨s', r :: rs, by rw [runOut_cons_of_ok h1, h2]; rfl, hs', .cons hA hT⟩

/-- An invariant of the steps under requests satisfying `P` that moves along a preorder `R`:
every run of such requests that does not panic keeps the invariant and moves along `R`. -/
theorem runOut_preserves (I : σ → Prop) (R : σ → σ → Prop) (P : α → Prop) (hrefl : ∀ s, R s s)
    (htrans : ∀ {s₁ s₂ s₃}, R s₁ s₂ → R s₂ s₃ → R s₁ s₃)
    (hstep : ∀ s a s' r, I s → P a → step s a = .ok (s', r) → I s' ∧ R s s') :
    ∀ (as : List α), (∀ a ∈ as, P a) → ∀ (s s' : σ) (rs : List ρ), I s →
      runOut step s as = .ok (s', rs) → I s' ∧ R s s' := by
  intro as
  -- induction on the requests, from the state each one starts in
  induction as with
  | nil =>
    intro _ s s' rs hs h
    cases h
    exact ⟨hs, hrefl s⟩
  | cons a as ih =>
    intro hP s s' rs hs h
    rw [runOut] at h
    split at h
    · cases h
    · rename_i s1 r h1
      obtain ⟨hs1, hR1⟩ := hstep s a s1 r hs (hP a List.mem_cons_self) h1
      cases h2 : runOut step s1 as with
      | error e =>
        rw [h2] at h
        cases h
      | ok q =>
        rw [h2] at h
        cases h
        obtain ⟨hs', hR2⟩ := ih (fun b hb => hP b (List.mem_cons_of_mem a hb)) s1 q.1 q.2 hs1 h2
        exact ⟨hs', htrans hR1 hR2⟩

end Trace
