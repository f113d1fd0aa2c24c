import Mathlib.Algebra.BigOperators.Group.Finset.Piecewise
import Mathlib.Algebra.Order.BigOperators.Group.Finset

/-!
# Tallies over a finite set of agents

A system of finitely many agents, each in some state, and a per-state count (a
reservation, a 0/1 flag).  When one agent changes state the tally over all agents
changes by the difference of its counts: `sum_comp_update_add`.  Every counting
invariant over the agents of a step relation is kept through this one lemma.
-/

namespace Tally

open Finset

variable {ι α : Type} [Fintype ι] [DecidableEq ι]

/-- The tally after agent `i` moves to `v`, plus its old count, is the old tally plus its
new count. -/
theorem sum_comp_update_add (g : α → ℕ) (f : ι → α) (i : ι) (v : α) :
    ∑ x, g (Function.update f i v x) + g (f i) = ∑ x, g (f x) + g v := by
  have h1 := sum_update_of_mem (mem_univ i) (fun x => g (f x)) (g v)
  have h2 := add_sum_erase univ (fun x => g (f x)) (mem_univ i)
  have h3 : (fun x => g (Function.update f i v x)) = Function.update (fun x => g (f x)) i (g v) := by
    funext x
    by_cases hx : x = i
    · subst hx; simp
    · simp [Function.update_of_ne hx]
  rw [h3, h1, sdiff_singleton_eq_erase, ← h2]
  omega

omit [DecidableEq ι] in
theorem le_sum (g : α → ℕ) (f : ι → α) (i : ι) : g (f i) ≤ ∑ x, g (f x) := by
  have h := single_le_sum (fun x _ => Nat.zero_le (g (f x))) (mem_univ i)
  exact h

theorem add_le_sum (g : α → ℕ) (f : ι → α) {i j : ι} (hij : i ≠ j) :
    g (f i) + g (f j) ≤ ∑ x, g (f x) := by
  have h := sum_le_sum_of_subset (f := fun x => g (f x)) (subset_univ {i, j})
  rwa [sum_pair hij] at h

end Tally
