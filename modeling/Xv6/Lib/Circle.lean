import Mathlib.Data.List.Chain
import Mathlib.Data.List.Rotate

/-!
# Walks around circular lists

A singly linked list whose last node points back to its first is a list `c` of its nodes
with a successor function `next`: `c` followed by its first node again is a path along
`next` (`IsCircle`).  A loop that follows the links from a node until a test holds is
`walk`; along a path it stops at the first node that passes the test (`walk_of_path`).
Rotating a circle gives the circle seen from another node (`IsCircle.rotate`).
-/

namespace Circle

variable {α : Type} (next : α → α)

/-- `l` is a path along `next`: each node's successor is the node after it. -/
def IsPath (l : List α) : Prop := l.IsChain fun a b => next a = b

/-- `c` is a circle: a path from its first node round to the first node again. -/
def IsCircle (c : List α) : Prop := IsPath next (c ++ c.take 1)

/-- From `x`, follow `next` until `stop` holds; `none` when the fuel runs out. -/
def walk (stop : α → Bool) : Nat → α → Option α
  | 0, _ => none
  | fuel + 1, x => if stop x then some x else walk stop fuel (next x)

variable {next}

/-! ## Chains -/

/-- A chain keeps a relation that follows from its own at each node but the last. -/
theorem isChain_of_dropLast {R S : α → α → Prop} {l : List α} (h : l.IsChain R)
    (hag : ∀ x ∈ l.dropLast, ∀ y, R x y → S x y) : l.IsChain S := by
  induction l with
  | nil => exact List.IsChain.nil
  | cons x l ih =>
    cases l with
    | nil => exact List.IsChain.singleton x
    | cons y l =>
      rw [List.isChain_cons_cons] at h ⊢
      refine ⟨hag x (by simp) y h.1, ih h.2 fun z hz => hag z ?_⟩
      rw [List.dropLast_cons_cons]
      exact List.mem_cons_of_mem x hz

theorem isChain_glue {R : α → α → Prop} {a l : List α} (ha : (a ++ l.take 1).IsChain R)
    (hl : l.IsChain R) : (a ++ l).IsChain R := by
  cases l with
  | nil => simpa using ha
  | cons c l => exact List.isChain_split.2 ⟨by simpa using ha, hl⟩

/-! ## Paths -/

@[simp] theorem isPath_nil : IsPath next [] := List.IsChain.nil

@[simp] theorem isPath_singleton (x : α) : IsPath next [x] := List.IsChain.singleton x

theorem isPath_cons_cons {x y : α} {l : List α} :
    IsPath next (x :: y :: l) ↔ next x = y ∧ IsPath next (y :: l) :=
  List.isChain_cons_cons

theorem IsPath.tail {l : List α} (h : IsPath next l) : IsPath next l.tail := List.IsChain.tail h

theorem IsPath.append {l₁ l₂ : List α} (h₁ : IsPath next l₁) (h₂ : IsPath next l₂)
    (h : ∀ x ∈ l₁.getLast?, ∀ y ∈ l₂.head?, next x = y) : IsPath next (l₁ ++ l₂) :=
  List.IsChain.append h₁ h₂ h

theorem IsPath.left {l₁ l₂ : List α} (h : IsPath next (l₁ ++ l₂)) : IsPath next l₁ :=
  List.IsChain.left_of_append h

theorem IsPath.right {l₁ l₂ : List α} (h : IsPath next (l₁ ++ l₂)) : IsPath next l₂ :=
  List.IsChain.right_of_append h

/-- A path does not look at the successor of its last node: another successor function
that agrees on the other nodes has the same path. -/
theorem IsPath.congr {next' : α → α} {l : List α} (h : IsPath next l)
    (hag : ∀ x ∈ l.dropLast, next' x = next x) : IsPath next' l :=
  isChain_of_dropLast h fun x hx _ hxy => (hag x hx).trans hxy

theorem IsPath.next_getLast {l : List α} {y : α} (h : IsPath next (l ++ [y])) (hl : l ≠ []) :
    next (l.getLast hl) = y := by
  rw [← List.dropLast_append_getLast hl, List.append_assoc, List.singleton_append] at h
  exact (List.isChain_append_cons_cons.1 h).2.1

/-- Along a path, `walk` stops at the first node that passes the test, given fuel for every
node of the path. -/
theorem walk_of_path {stop : α → Bool} {x y : α} {l : List α} (hp : IsPath next (x :: l))
    (hf : (x :: l).find? stop = some y) {fuel : Nat} (hfuel : (x :: l).length ≤ fuel) :
    walk next stop fuel x = some y := by
  induction l generalizing x fuel with
  | nil =>
    obtain ⟨fuel, rfl⟩ : ∃ k, fuel = k + 1 := ⟨fuel - 1, by simp at hfuel; omega⟩
    by_cases hs : stop x
    · simp_all [walk]
    · simp [hs] at hf
  | cons z l ih =>
    obtain ⟨fuel, rfl⟩ : ∃ k, fuel = k + 1 := ⟨fuel - 1, by simp at hfuel; omega⟩
    rw [isPath_cons_cons] at hp
    by_cases hs : stop x
    · simp_all [walk]
    · rw [walk, if_neg hs, hp.1]
      rw [List.find?_cons_of_neg (by simpa using hs)] at hf
      exact ih hp.2 hf (by simp at hfuel ⊢; omega)

theorem IsCircle.rotate_one {x : α} {l : List α} (h : IsCircle next (x :: l)) :
    IsCircle next (l ++ [x]) := by
  unfold IsCircle at h ⊢
  cases l with
  | nil => simpa using h
  | cons y l =>
    simp only [List.take_succ_cons, List.take_zero, List.cons_append, isPath_cons_cons] at h ⊢
    obtain ⟨hxy, hrest⟩ := h
    refine List.IsChain.append hrest (isPath_singleton y) fun a ha b hb => ?_
    rw [← List.cons_append, List.getLast?_concat, Option.mem_def, Option.some.injEq] at ha
    simp only [List.head?_cons, Option.mem_def, Option.some.injEq] at hb
    rw [← ha, ← hb, hxy]

theorem IsCircle.rotate {c : List α} (h : IsCircle next c) (k : Nat) : IsCircle next (c.rotate k) := by
  induction k generalizing c with
  | zero => simpa using h
  | succ k ih =>
    cases c with
    | nil => simpa using h
    | cons x l =>
      rw [List.rotate_cons_succ]
      exact ih h.rotate_one

theorem IsCircle.from_mem {s t : List α} {x : α} (h : IsCircle next (s ++ x :: t)) :
    IsCircle next (x :: t ++ s) := by
  have := h.rotate s.length
  rwa [List.rotate_append_length_eq] at this

theorem isCircle_cons {x : α} {l : List α} : IsCircle next (x :: l) ↔ IsPath next (x :: l ++ [x]) :=
  Iff.rfl

theorem IsCircle.isPath {c : List α} (h : IsCircle next c) : IsPath next c := h.left

end Circle
