import Mathlib.Logic.Function.Basic

/-!
# Moving a block of memory one cell at a time

A memory is a function from addresses to values.  `copyUp m d s n` copies the `n` cells
from `s` to `d` lowest address first, the loop `while(n-- > 0) *d++ = *s++`; `copyDown`
copies them highest address first, the loop `while(n-- > 0) *--d = *--s` once `d` and `s`
point past the block.  Each loop reads a source cell after the stores before it, so it moves
the block (`Moved`) only where none of those stores lands on a source cell it has still to
read: `copyUp` unless the destination starts inside the source above its start
(`copyUp_moved`), `copyDown` unless it starts inside it below (`copyDown_moved`).  Both
leave every cell outside the destination alone, whatever the overlap.
-/

namespace Move

variable {α : Type}

/-- `while(n-- > 0) *d++ = *s++;` -/
def copyUp (m : Nat → α) (d s : Nat) : Nat → Nat → α
  | 0 => m
  | n + 1 => copyUp (Function.update m d (m s)) (d + 1) (s + 1) n

/-- `d += n; s += n; while(n-- > 0) *--d = *--s;` -/
def copyDown (m : Nat → α) (d s : Nat) : Nat → Nat → α
  | 0 => m
  | n + 1 => copyDown (Function.update m (d + n) (m (s + n))) d s n

/-- `m'` is `m` with the `n` cells from `s` copied to the `n` cells from `d`, as they were
before the copy, and every other cell unchanged. -/
structure Moved (m m' : Nat → α) (d s n : Nat) : Prop where
  moved : ∀ k < n, m' (d + k) = m (s + k)
  frame : ∀ a, a < d ∨ d + n ≤ a → m' a = m a

theorem Moved.zero (m : Nat → α) (d s : Nat) : Moved m m d s 0 :=
  ⟨fun _ hk => absurd hk (Nat.not_lt_zero _), fun _ _ => rfl⟩

variable {m : Nat → α} {d s n : Nat}

theorem copyUp_frame (m : Nat → α) (d s n : Nat) {a : Nat} (ha : a < d ∨ d + n ≤ a) :
    copyUp m d s n a = m a := by
  induction n generalizing m d s with
  | zero => rfl
  | succ n ih =>
    rw [copyUp, ih _ _ _ (by omega), Function.update_of_ne (by omega)]

theorem copyDown_frame (m : Nat → α) (d s n : Nat) {a : Nat} (ha : a < d ∨ d + n ≤ a) :
    copyDown m d s n a = m a := by
  induction n generalizing m with
  | zero => rfl
  | succ n ih =>
    rw [copyDown, ih _ (by omega), Function.update_of_ne (by omega)]

/-- `copyUp` copies cell `s + k` to `d + k`, when the destination does not start inside the
source above its start: the store to `d + j` for `j < k` then misses `s + k`. -/
theorem copyUp_get (m : Nat → α) (h : d ≤ s ∨ s + n ≤ d) {k : Nat} (hk : k < n) :
    copyUp m d s n (d + k) = m (s + k) := by
  induction n generalizing m d s k with
  | zero => omega
  | succ n ih =>
    rw [copyUp]
    cases k with
    | zero =>
      -- the first store, which the rest of the loop does not touch again
      rw [copyUp_frame _ _ _ _ (by omega), Nat.add_zero, Function.update_self, Nat.add_zero]
    | succ k =>
      have hd : d + (k + 1) = d + 1 + k := by omega
      have hs : s + (k + 1) = s + 1 + k := by omega
      rw [hd, ih _ (by omega) (by omega), Function.update_of_ne (by omega), hs]

/-- `copyDown` copies cell `s + k` to `d + k`, when the destination does not start inside
the source below its start: the store to `d + j` for `j > k` then misses `s + k`. -/
theorem copyDown_get (m : Nat → α) (h : s ≤ d ∨ d + n ≤ s) {k : Nat} (hk : k < n) :
    copyDown m d s n (d + k) = m (s + k) := by
  induction n generalizing m with
  | zero => omega
  | succ n ih =>
    rw [copyDown]
    by_cases hkn : k = n
    · -- the first store, the top cell, which the rest of the loop does not touch again
      subst hkn
      rw [copyDown_frame _ _ _ _ (by omega), Function.update_self]
    · rw [ih _ (by omega) (by omega), Function.update_of_ne (by omega)]

theorem copyUp_moved (m : Nat → α) (h : d ≤ s ∨ s + n ≤ d) : Moved m (copyUp m d s n) d s n :=
  ⟨fun _ hk => copyUp_get m h hk, fun _ ha => copyUp_frame m d s n ha⟩

theorem copyDown_moved (m : Nat → α) (h : s ≤ d ∨ d + n ≤ s) :
    Moved m (copyDown m d s n) d s n :=
  ⟨fun _ hk => copyDown_get m h hk, fun _ ha => copyDown_frame m d s n ha⟩

end Move
