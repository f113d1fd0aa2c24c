import Mathlib

/-!
# Ring buffers addressed by running counters

A buffer of `N` slots written at a running counter and read at another, each counter
used modulo `N` only.  `contents data r k` is the FIFO view: the `k` elements from
counter `r` on, oldest first.  Storing at counter `r + k` appends to the view while
`k < N` (`contents_push`); reading the slot of `r` pops its head (`contents_succ`); and
the view depends on `r` only modulo `N` (`contents_congr`), which is what lets a
counter wrap at any multiple of `N`.
-/

namespace Ring

variable {α : Type} {N : Nat} [NeZero N]

/-- The slot of counter value `n`. -/
def slot (N : Nat) [NeZero N] (n : Nat) : Fin N :=
  ⟨n % N, Nat.mod_lt _ (Nat.pos_of_neZero N)⟩

/-- The `k` elements from counter `r` on, oldest first. -/
def contents (data : Fin N → α) (r : Nat) : Nat → List α
  | 0 => []
  | k + 1 => data (slot N r) :: contents data (r + 1) k

@[simp] theorem contents_zero (data : Fin N → α) (r : Nat) : contents data r 0 = [] := rfl

@[simp] theorem contents_succ (data : Fin N → α) (r k : Nat) :
    contents data r (k + 1) = data (slot N r) :: contents data (r + 1) k := rfl

@[simp] theorem length_contents (data : Fin N → α) (r k : Nat) :
    (contents data r k).length = k := by
  induction k generalizing r with
  | zero => rfl
  | succ k ih => simp [ih]

theorem slot_congr {r r' : Nat} (h : r % N = r' % N) : slot N r = slot N r' :=
  Fin.ext h

theorem slot_add_ne (r : Nat) {j m : Nat} (hjm : j < m) (hm : m < N) :
    slot N (r + j) ≠ slot N (r + m) := by
  intro h
  have h1 : (r + m) % N = (r + j) % N := (congrArg Fin.val h).symm
  have h2 : N ∣ (r + m) - (r + j) := Nat.dvd_of_mod_eq_zero (Nat.sub_mod_eq_zero_of_mod_eq h1)
  have h3 : (r + m) - (r + j) = m - j := by omega
  rw [h3] at h2
  have := Nat.le_of_dvd (by omega) h2
  omega

theorem contents_congr (data : Fin N → α) {r r' : Nat} (h : r % N = r' % N) (k : Nat) :
    contents data r k = contents data r' k := by
  induction k generalizing r r' with
  | zero => rfl
  | succ k ih =>
    have h1 : (r + 1) % N = (r' + 1) % N := by rw [Nat.add_mod, h, ← Nat.add_mod]
    rw [contents_succ, contents_succ, slot_congr h, ih h1]

theorem contents_concat (data : Fin N → α) (r k : Nat) :
    contents data r (k + 1) = contents data r k ++ [data (slot N (r + k))] := by
  induction k generalizing r with
  | zero => simp
  | succ k ih =>
    have hk : r + 1 + k = r + (k + 1) := by omega
    rw [contents_succ, ih (r + 1), contents_succ, List.cons_append, hk]

theorem contents_add (data : Fin N → α) (r a b : Nat) :
    contents data r (a + b) = contents data r a ++ contents data (r + a) b := by
  induction a generalizing r with
  | zero => simp
  | succ a ih =>
    rw [Nat.add_right_comm, contents_succ, contents_succ, ih (r + 1), List.cons_append,
      Nat.add_assoc r 1 a, Nat.add_comm 1 a]

theorem contents_update_of_le (data : Fin N → α) (x : α) {r k m : Nat} (hkm : k ≤ m)
    (hm : m < N) : contents (Function.update data (slot N (r + m)) x) r k = contents data r k := by
  induction k generalizing r m with
  | zero => rfl
  | succ k ih =>
    have hne : slot N r ≠ slot N (r + m) := by
      simpa using slot_add_ne r (j := 0) (by omega) hm
    have hm' : r + m = r + 1 + (m - 1) := by omega
    rw [contents_succ, contents_succ, Function.update_of_ne hne, hm',
      ih (by omega) (by omega)]

theorem contents_push (data : Fin N → α) (x : α) {r k : Nat} (hk : k < N) :
    contents (Function.update data (slot N (r + k)) x) r (k + 1) = contents data r k ++ [x] := by
  rw [contents_concat, contents_update_of_le data x (Nat.le_refl k) hk, Function.update_self]

end Ring
