import Mathlib.Data.List.Infix
import Mathlib.Data.List.Nodup

/-!
# Paths through a radix tree

A radix tree stored in memory: from a node, an index gives the child node, if any
(`next`).  `follow next r path` is the node reached from the root `r` along `path`.
Two kinds of change to the memory matter to a page-table walk:

* a change that leaves `next` alone at every node a short path reaches keeps every
  short path's end (`follow_congr_of_agree`);
* linking a new childless node `p` at an empty entry `(t, i)` (`Linked`) keeps every
  path that reached a node (`follow_linked_of_some`, as long as no node on the way was
  `p`), and adds only paths ending at `p` through the new entry
  (`follow_linked_some`).

`nodes next idx r d` lists the nodes within `d` steps of `r`, in the order a post-order
walk over the indices `idx` visits them.  They are the ends of the short paths
(`mem_nodes`); they are distinct when no two short paths end at one node (`nodes_nodup`);
and they depend on `next` at those nodes only (`nodes_congr`).
-/

namespace Radix

variable {α ι : Type}

/-- The node reached from `r` along `path`. -/
def follow (next : α → ι → Option α) (r : α) : List ι → Option α
  | [] => some r
  | i :: is => (next r i).bind fun c => follow next c is

@[simp] theorem follow_nil (next : α → ι → Option α) (r : α) : follow next r [] = some r := rfl

@[simp] theorem follow_cons (next : α → ι → Option α) (r : α) (i : ι) (is : List ι) :
    follow next r (i :: is) = (next r i).bind fun c => follow next c is := rfl

theorem follow_append_singleton (next : α → ι → Option α) (r : α) (pre : List ι) (j : ι) :
    follow next r (pre ++ [j]) = (follow next r pre).bind fun c => next c j := by
  induction pre generalizing r with
  | nil => simp
  | cons i is ih =>
    simp only [List.cons_append, follow_cons, ih]
    cases next r i <;> simp

/-- A change to `next` at nodes no path shorter than `n` reaches keeps the ends of the
paths of length at most `n`. -/
theorem follow_congr_of_agree {next next' : α → ι → Option α} {r : α} {n : Nat}
    (h : ∀ pre c, pre.length < n → follow next r pre = some c → next' c = next c)
    (path : List ι) (hp : path.length ≤ n) : follow next' r path = follow next r path := by
  induction path generalizing r n with
  | nil => rfl
  | cons i is ih =>
    have hr : next' r = next r := h [] r (by simp at hp ⊢; omega) rfl
    simp only [follow_cons, hr]
    cases hc : next r i with
    | none => rfl
    | some c =>
      -- the paths from `c` are the paths from `r` through `i`, one step shorter
      refine ih (n := n - 1) (fun pre d hpre hd => h (i :: pre) d (by simp; omega) ?_) (by simp at hp; omega)
      simp [hc, hd]

/-- `next'` is `next` with the empty entry `(t, i)` now leading to a new node `p` that
has no children. -/
structure Linked (next next' : α → ι → Option α) (t : α) (i : ι) (p : α) : Prop where
  was_empty : next t i = none
  at_link : next' t i = some p
  at_new : ∀ j, next' p j = none
  other : ∀ q j, q ≠ p → q ≠ t ∨ j ≠ i → next' q j = next q j

section Linked

variable {next next' : α → ι → Option α} {t p : α} {i : ι}

theorem follow_linked_of_some (h : Linked next next' t i p) {r q : α} (path : List ι)
    (hfresh : ∀ pre, pre.length < path.length → pre <+: path → follow next r pre ≠ some p)
    (hq : follow next r path = some q) : follow next' r path = some q := by
  induction path generalizing r with
  | nil => exact hq
  | cons j js ih =>
    simp only [follow_cons] at hq ⊢
    cases hc : next r j with
    | none => rw [hc] at hq; cases hq
    | some c =>
      rw [hc] at hq
      -- the step from `r` is unchanged: `r` is not the new node, and `(t, i)` was empty
      have hrp : r ≠ p := fun e => hfresh [] (by simp) (List.nil_prefix) (by simp [e])
      have hstep : next' r j = some c := by
        rw [h.other r j hrp]
        · exact hc
        · by_contra hti
          rcases not_or.1 hti with ⟨hrt, hji⟩
          rw [not_not] at hrt hji
          rw [hrt, hji, h.was_empty] at hc
          cases hc
      rw [hstep]
      refine ih (fun pre hpre hpfx => ?_) hq
      have := hfresh (j :: pre) (by simp; omega) (List.cons_prefix_cons.2 ⟨rfl, hpfx⟩)
      simpa [hc] using this

/-- A path that reaches a node after the link reached it before, or it ends at the new
node through the new entry. -/
theorem follow_linked_some (h : Linked next next' t i p) {r q : α} (path : List ι)
    (hq : follow next' r path = some q) :
    follow next r path = some q ∨ (q = p ∧ ∃ pre, path = pre ++ [i] ∧ follow next r pre = some t) := by
  induction path generalizing r with
  | nil => exact Or.inl hq
  | cons j js ih =>
    simp only [follow_cons] at hq ⊢
    cases hc : next' r j with
    | none => rw [hc] at hq; cases hq
    | some c =>
      rw [hc] at hq
      by_cases hrp : r = p
      · rw [hrp, h.at_new] at hc
        cases hc
      by_cases hti : r = t ∧ j = i
      · -- the step takes the new entry: the path ends at the new node
        obtain ⟨rfl, rfl⟩ := hti
        rw [h.at_link] at hc
        cases hc
        cases js with
        | nil =>
          simp only [follow_nil, Option.bind_some, Option.some.injEq] at hq
          exact Or.inr ⟨hq.symm, [], rfl, rfl⟩
        | cons k ks => simp [h.at_new] at hq
      · rw [h.other r j hrp (not_and_or.1 hti)] at hc
        rw [hc]
        rcases ih hq with hold | ⟨hqp, pre, hpre, hpt⟩
        · exact Or.inl hold
        · exact Or.inr ⟨hqp, j :: pre, by rw [hpre]; rfl, by simpa [hc] using hpt⟩

end Linked

/-! ## The nodes of a tree -/

/-- The nodes within `d` steps of `r`: each child's nodes, in the order of `idx`, then `r`. -/
def nodes (next : α → ι → Option α) (idx : List ι) : α → Nat → List α
  | r, 0 => [r]
  | r, d + 1 => idx.flatMap (fun i => ((next r i).map fun c => nodes next idx c d).getD []) ++ [r]

/-- The nodes of the tree below the entry `i` of `r`, `d` steps deep. -/
def below (next : α → ι → Option α) (idx : List ι) (r : α) (i : ι) (d : Nat) : List α :=
  ((next r i).map fun c => nodes next idx c d).getD []

variable {next : α → ι → Option α} {idx : List ι}

@[simp] theorem nodes_zero (r : α) : nodes next idx r 0 = [r] := rfl

theorem nodes_succ (r : α) (d : Nat) :
    nodes next idx r (d + 1) = idx.flatMap (fun i => below next idx r i d) ++ [r] := rfl

theorem mem_below {r q : α} {i : ι} {d : Nat} :
    q ∈ below next idx r i d ↔ ∃ c, next r i = some c ∧ q ∈ nodes next idx c d := by
  unfold below
  cases next r i <;> simp

theorem below_of_some {r c : α} {i : ι} {d : Nat} (h : next r i = some c) :
    below next idx r i d = nodes next idx c d := by
  simp [below, h]

theorem below_of_none {r : α} {i : ι} {d : Nat} (h : next r i = none) :
    below next idx r i d = [] := by
  simp [below, h]

theorem mem_nodes {r q : α} {d : Nat} :
    q ∈ nodes next idx r d ↔
      ∃ path : List ι, path.length ≤ d ∧ (∀ i ∈ path, i ∈ idx) ∧ follow next r path = some q := by
  induction d generalizing r with
  | zero =>
    constructor
    · intro h
      exact ⟨[], le_refl _, by simp, by simpa [eq_comm] using h⟩
    · rintro ⟨path, hlen, -, hq⟩
      cases path with
      | nil => simpa [eq_comm] using hq
      | cons i is => simp at hlen
  | succ d ih =>
    simp only [nodes_succ, List.mem_append, List.mem_flatMap, mem_below, List.mem_singleton]
    constructor
    · rintro (⟨i, hi, c, hc, hq⟩ | rfl)
      · obtain ⟨p, hlen, hidx, hp⟩ := ih.1 hq
        refine ⟨i :: p, by simp; omega, ?_, by simp [hc, hp]⟩
        intro j hj
        rcases List.mem_cons.1 hj with rfl | hj
        · exact hi
        · exact hidx j hj
      · exact ⟨[], by simp, by simp, rfl⟩
    · rintro ⟨path, hlen, hidx, hq⟩
      cases path with
      | nil => exact Or.inr (by simpa [eq_comm] using hq)
      | cons i is =>
        simp only [follow_cons] at hq
        cases hc : next r i with
        | none => rw [hc] at hq; cases hq
        | some c =>
          rw [hc, Option.bind_some] at hq
          refine Or.inl ⟨i, hidx i (List.mem_cons_self), c, hc, ih.2 ⟨is, ?_, ?_, hq⟩⟩
          · simp at hlen; omega
          · exact fun j hj => hidx j (List.mem_cons_of_mem _ hj)

theorem mem_nodes_of_below {r q : α} {i : ι} {d : Nat} (hi : i ∈ idx)
    (hq : q ∈ below next idx r i d) : q ∈ nodes next idx r (d + 1) := by
  rw [nodes_succ]
  exact List.mem_append_left _ (List.mem_flatMap.2 ⟨i, hi, hq⟩)

theorem nodes_nodup {r : α} {d : Nat} (hidx : idx.Nodup)
    (hinj : ∀ a b q, a.length ≤ d → b.length ≤ d → follow next r a = some q →
      follow next r b = some q → a = b) :
    (nodes next idx r d).Nodup := by
  induction d generalizing r with
  | zero => simp
  | succ d ih =>
    rw [nodes_succ, List.nodup_append]
    refine ⟨List.nodup_flatMap.2 ⟨fun i _ => ?_, hidx.imp fun {i j} hij => ?_⟩, by simp, ?_⟩
    · -- below one entry: the paths from the child are the paths from `r` through it
      cases hc : next r i with
      | none => simp [below_of_none hc]
      | some c =>
        rw [below_of_some hc]
        refine ih fun a b q ha hb hqa hqb => ?_
        have := hinj (i :: a) (i :: b) q (by simp; omega) (by simp; omega)
          (by simp [hc, hqa]) (by simp [hc, hqb])
        simpa using this
    · -- below two entries: a common node would end two paths that differ at the first step
      rw [Function.onFun_apply, List.disjoint_left]
      intro q hqi hqj
      obtain ⟨c, hc, hq⟩ := mem_below.1 hqi
      obtain ⟨c', hc', hq'⟩ := mem_below.1 hqj
      obtain ⟨p, hp, -, hfp⟩ := mem_nodes.1 hq
      obtain ⟨p', hp', -, hfp'⟩ := mem_nodes.1 hq'
      have := hinj (i :: p) (j :: p') q (by simp; omega) (by simp; omega)
        (by simp [hc, hfp]) (by simp [hc', hfp'])
      exact hij (List.cons.inj this).1
    · -- `r` itself ends the empty path only
      intro q hq r' hr' e
      rw [List.mem_singleton] at hr'
      subst hr' e
      obtain ⟨i, -, hq⟩ := List.mem_flatMap.1 hq
      obtain ⟨c, hc, hq⟩ := mem_below.1 hq
      obtain ⟨p, hp, -, hfp⟩ := mem_nodes.1 hq
      have := hinj (i :: p) [] q (by simp; omega) (by simp) (by simp [hc, hfp]) rfl
      simp at this

theorem nodes_congr {next' : α → ι → Option α} {r : α} {d : Nat}
    (h : ∀ q ∈ nodes next idx r d, next' q = next q) : nodes next' idx r d = nodes next idx r d := by
  induction d generalizing r with
  | zero => rfl
  | succ d ih =>
    have hr : next' r = next r := h r (by simp [nodes_succ])
    rw [nodes_succ, nodes_succ]
    congr 1
    refine List.flatMap_congr fun i hi => ?_
    cases hc : next r i with
    | none => rw [below_of_none hc, below_of_none (by rw [hr]; exact hc)]
    | some c =>
      rw [below_of_some hc, below_of_some (by rw [hr]; exact hc)]
      exact ih fun q hq => h q (mem_nodes_of_below hi (by rwa [below_of_some hc]))

end Radix
