import Mathlib.Logic.Function.Basic
import Mathlib.Data.List.Range
import Mathlib.Data.List.Nodup
import Mathlib.Data.List.Perm.Subperm

/-!
# Runs of keys in a partial map

A partial map from `Nat` keys, changed on a run of `n` consecutive keys from `v`:
`setRange` sets key `v + k` to `g k`, `clearRange` removes them, and `values` lists the
values stored there, in key order.  Each is taken apart one key at a time from the
bottom of the run (`setRange_succ`, `clearRange_succ`, `values_succ`), which is how a
loop over the run builds them.
-/

namespace Span

variable {β : Type}

/-- `M` with key `v + k` set to `g k` for every `k < n`. -/
def setRange (M : Nat → Option β) (v n : Nat) (g : Nat → β) : Nat → Option β :=
  fun x => if v ≤ x ∧ x < v + n then some (g (x - v)) else M x

/-- `M` with the `n` keys from `v` removed. -/
def clearRange (M : Nat → Option β) (v n : Nat) : Nat → Option β :=
  fun x => if v ≤ x ∧ x < v + n then none else M x

/-- The values stored at the `n` keys from `v`, in key order. -/
def values (M : Nat → Option β) (v n : Nat) : List β :=
  (List.range' v n).filterMap M

variable {M M' : Nat → Option β} {v n : Nat}

@[simp] theorem setRange_zero (g : Nat → β) : setRange M v 0 g = M := by
  funext x
  simp only [setRange]
  rw [if_neg (by omega)]

theorem setRange_succ (g : Nat → β) :
    setRange M v (n + 1) g =
      setRange (Function.update M v (some (g 0))) (v + 1) n fun k => g (k + 1) := by
  funext x
  simp only [setRange, Function.update_apply]
  by_cases hx : x = v
  · subst hx
    simp
  · by_cases hr : v + 1 ≤ x ∧ x < v + 1 + n
    · rw [if_pos (by omega), if_pos hr]
      congr 2
      omega
    · rw [if_neg (by omega), if_neg hr, if_neg hx]

@[simp] theorem clearRange_zero : clearRange M v 0 = M := by
  funext x
  simp only [clearRange]
  rw [if_neg (by omega)]

theorem clearRange_succ :
    clearRange M v (n + 1) = clearRange (Function.update M v none) (v + 1) n := by
  funext x
  simp only [clearRange, Function.update_apply]
  by_cases hx : x = v
  · subst hx
    simp
  · by_cases hr : v + 1 ≤ x ∧ x < v + 1 + n
    · rw [if_pos (by omega), if_pos hr]
    · rw [if_neg (by omega), if_neg hr, if_neg hx]

@[simp] theorem values_zero : values M v 0 = [] := rfl

theorem values_succ : values M v (n + 1) = (M v).toList ++ values M (v + 1) n := by
  simp only [values, List.range'_succ, List.filterMap_cons]
  cases M v <;> rfl

theorem mem_values {e : β} : e ∈ values M v n ↔ ∃ x, v ≤ x ∧ x < v + n ∧ M x = some e := by
  simp only [values, List.mem_filterMap, List.mem_range'_1]
  constructor
  · rintro ⟨x, ⟨hx, hx'⟩, he⟩
    exact ⟨x, hx, hx', he⟩
  · rintro ⟨x, hx, hx', he⟩
    exact ⟨x, ⟨hx, hx'⟩, he⟩

theorem values_congr (h : ∀ x, v ≤ x → x < v + n → M' x = M x) : values M' v n = values M v n := by
  unfold values
  refine List.filterMap_congr fun x hx => h x ?_ ?_ <;>
    · rw [List.mem_range'_1] at hx
      omega

theorem map_values {γ : Type} (f : β → γ) : (values M v n).map f = values (fun x => (M x).map f) v n := by
  rw [values, values, List.map_filterMap]

theorem values_add (a b : Nat) : values M v (a + b) = values M v a ++ values M (v + a) b := by
  rw [values, values, values, ← List.range'_append_1, List.filterMap_append]

theorem values_split {w : Nat} (h : v ≤ w) (h' : w ≤ v + n) :
    values M v n = values M v (w - v) ++ values M w (v + n - w) := by
  conv_lhs => rw [show n = (w - v) + (v + n - w) by omega]
  rw [values_add, show v + (w - v) = w by omega]

theorem length_values (h : ∀ x, v ≤ x → x < v + n → (M x).isSome) : (values M v n).length = n := by
  induction n generalizing v with
  | zero => rfl
  | succ n ih =>
    obtain ⟨y, hy⟩ := Option.isSome_iff_exists.1 (h v (le_refl v) (by omega))
    rw [values_succ, hy, Option.toList_some, List.singleton_append, List.length_cons,
      ih fun x hx hx' => h x (by omega) (by omega)]

theorem length_le_of_aligned {l : List Nat} {d k : Nat} (hl : l.Nodup)
    (h : ∀ x ∈ l, x % d = 0 ∧ x < d * k) : l.length ≤ k := by
  -- the quotients by `d` are distinct numbers below `k`
  have hinj : (l.map (· / d)).Nodup := by
    refine hl.map_on fun x hx y hy hxy => ?_
    rw [← Nat.div_add_mod x d, ← Nat.div_add_mod y d, hxy, (h x hx).1, (h y hy).1]
  have hsub : l.map (· / d) ⊆ List.range k := by
    intro q hq
    obtain ⟨x, hx, rfl⟩ := List.mem_map.1 hq
    exact List.mem_range.2 (Nat.div_lt_of_lt_mul (h x hx).2)
  simpa using (hinj.subperm hsub).length_le

end Span
