import Mathlib.Logic.Function.Basic
import Mathlib.Data.List.Nodup

/-!
# Circular doubly linked lists through a sentinel

Nodes of type `ι` and a sentinel, the list's head, linked by `next` and `prev`
pointers; the sentinel is `none`.  `Represents k L` says that the links `k` form one
cycle `head, L[0], …, L[n-1], head` with `prev` the inverse of `next` on it.  Position
`i` of the cycle is `pos L i`: the head at `0`, `L[i-1]` at `1 ≤ i ≤ n`, the head again
at `n + 1`.

The operations are the pointer updates of C code: `unlink` (`b->next->prev = b->prev;
b->prev->next = b->next`) and `pushFront` (`b->next = head.next; b->prev = &head;
head.next->prev = b; head.next = b`), and the two scans `for (b = head.next; b != &head;
b = b->next)` and `for (b = head.prev; b != &head; b = b->prev)` as `findNext` and
`findPrev`.  Each is related to the list it represents: `represents_unlink`,
`represents_pushFront`, `findNext_eq`, `findPrev_eq`.
-/

namespace DList

variable {ι : Type}

/-- The `next` and `prev` pointers of the nodes and of the head (`none`). -/
structure Links (ι : Type) where
  next : Option ι → Option ι
  prev : Option ι → Option ι

/-- Position `i` of the cycle through `L`: the head at `0` and at `L.length + 1`. -/
def pos (L : List ι) (i : Nat) : Option ι :=
  if i = 0 then none else L[i - 1]?

/-- The links form the cycle `head, L[0], …, L[n-1], head`. -/
def Represents (k : Links ι) (L : List ι) : Prop :=
  L.Nodup ∧ ∀ i, i ≤ L.length → k.next (pos L i) = pos L (i + 1) ∧ k.prev (pos L (i + 1)) = pos L i

/-- Scan forward from `x` for a node satisfying `p`, stopping at the head or after `fuel`
nodes. -/
def findNext (k : Links ι) (p : ι → Bool) : Nat → Option ι → Option ι
  | 0, _ => none
  | _ + 1, none => none
  | fuel + 1, some x => if p x then some x else findNext k p fuel (k.next (some x))

/-- Scan backward from `x` for a node satisfying `p`, stopping at the head or after `fuel`
nodes. -/
def findPrev (k : Links ι) (p : ι → Bool) : Nat → Option ι → Option ι
  | 0, _ => none
  | _ + 1, none => none
  | fuel + 1, some x => if p x then some x else findPrev k p fuel (k.prev (some x))

/-! ## Positions -/

@[simp] theorem pos_zero (L : List ι) : pos L 0 = none := rfl

theorem pos_succ (L : List ι) (i : Nat) : pos L (i + 1) = L[i]? := by
  simp [pos]

theorem pos_eq_none_iff (L : List ι) (i : Nat) : pos L i = none ↔ i = 0 ∨ L.length < i := by
  unfold pos
  split
  · simp_all
  · rename_i h
    rw [List.getElem?_eq_none_iff]
    omega

theorem pos_inj {L : List ι} (hL : L.Nodup) {i j : Nat} (hi : i ≤ L.length) (hj : j ≤ L.length)
    (h : pos L i = pos L j) : i = j := by
  unfold pos at h
  split at h <;> split at h
  · omega
  · rename_i h1 h2
    rw [eq_comm, List.getElem?_eq_none_iff] at h
    omega
  · rename_i h1 h2
    rw [List.getElem?_eq_none_iff] at h
    omega
  · rename_i h1 h2
    rw [List.getElem?_eq_getElem (by omega), List.getElem?_eq_getElem (by omega),
      Option.some.injEq, hL.getElem_inj_iff] at h
    omega

theorem pos_eq_pos_iff {L : List ι} (hL : L.Nodup) {i j : Nat} (hi : i ≤ L.length + 1)
    (hj : j ≤ L.length + 1) :
    pos L i = pos L j ↔ i = j ∨ (i = 0 ∧ j = L.length + 1) ∨ (i = L.length + 1 ∧ j = 0) := by
  constructor
  · intro h
    by_cases hi' : i ≤ L.length
    · by_cases hj' : j ≤ L.length
      · exact Or.inl (pos_inj hL hi' hj' h)
      · have hjn : pos L j = none := (pos_eq_none_iff L j).2 (Or.inr (by omega))
        rw [hjn, pos_eq_none_iff] at h
        omega
    · have hin : pos L i = none := (pos_eq_none_iff L i).2 (Or.inr (by omega))
      rw [hin, eq_comm, pos_eq_none_iff] at h
      omega
  · rintro (rfl | ⟨rfl, rfl⟩ | ⟨rfl, rfl⟩)
    · rfl
    · rw [pos_zero, eq_comm, pos_eq_none_iff]; omega
    · rw [pos_zero, pos_eq_none_iff]; omega

theorem Represents.next_pos {k : Links ι} {L : List ι} (h : Represents k L) {i : Nat}
    (hi : i ≤ L.length) : k.next (pos L i) = pos L (i + 1) :=
  (h.2 i hi).1

theorem Represents.prev_pos {k : Links ι} {L : List ι} (h : Represents k L) {i : Nat}
    (hi : i ≤ L.length) : k.prev (pos L (i + 1)) = pos L i :=
  (h.2 i hi).2

/-! ## The scans -/

theorem findNext_pos {k : Links ι} {L : List ι} (h : Represents k L) (p : ι → Bool) :
    ∀ (fuel j : Nat), L.length - j ≤ fuel →
      findNext k p fuel (pos L (j + 1)) = (L.drop j).find? p := by
  intro fuel
  induction fuel with
  | zero =>
    intro j hj
    rw [List.drop_of_length_le (by omega)]
    rfl
  | succ fuel ih =>
    intro j hj
    by_cases hjl : j < L.length
    · have heq : some L[j] = pos L (j + 1) := by rw [pos_succ, List.getElem?_eq_getElem hjl]
      rw [← heq, findNext, List.drop_eq_getElem_cons hjl, List.find?_cons]
      cases hp : p L[j] with
      | true => rfl
      | false =>
        simp only [Bool.false_eq_true, if_false]
        rw [heq, h.next_pos (by omega)]
        exact ih (j + 1) (by omega)
    · rw [pos_succ, List.getElem?_eq_none (by omega), List.drop_of_length_le (by omega)]
      rfl

/-- The forward scan from `head.next` finds the first node of the list that satisfies `p`. -/
theorem findNext_eq {k : Links ι} {L : List ι} (h : Represents k L) (p : ι → Bool) {fuel : Nat}
    (hf : L.length ≤ fuel) : findNext k p fuel (k.next none) = L.find? p := by
  have h0 : k.next none = pos L 1 := h.next_pos (Nat.zero_le _)
  rw [h0, findNext_pos h p fuel 0 (by omega), List.drop_zero]

theorem findPrev_pos {k : Links ι} {L : List ι} (h : Represents k L) (p : ι → Bool) :
    ∀ (fuel j : Nat), j ≤ L.length → j ≤ fuel →
      findPrev k p fuel (pos L j) = (L.take j).reverse.find? p := by
  intro fuel
  induction fuel with
  | zero =>
    intro j _ hj
    have : j = 0 := by omega
    subst this
    rfl
  | succ fuel ih =>
    intro j hjl hj
    cases j with
    | zero => rfl
    | succ j =>
      have heq : some L[j] = pos L (j + 1) := by
        rw [pos_succ, List.getElem?_eq_getElem (by omega)]
      rw [← heq, findPrev, List.take_add_one, List.getElem?_eq_getElem (by omega),
        Option.toList_some, List.reverse_append, List.reverse_singleton, List.singleton_append,
        List.find?_cons]
      cases hp : p L[j] with
      | true => rfl
      | false =>
        simp only [Bool.false_eq_true, if_false]
        rw [heq, h.prev_pos (by omega)]
        exact ih j (by omega) (by omega)

/-- The backward scan from `head.prev` finds the last node of the list that satisfies `p`. -/
theorem findPrev_eq {k : Links ι} {L : List ι} (h : Represents k L) (p : ι → Bool) {fuel : Nat}
    (hf : L.length ≤ fuel) : findPrev k p fuel (k.prev none) = L.reverse.find? p := by
  have h0 : k.prev none = pos L L.length := by
    have := h.prev_pos (Nat.le_refl L.length)
    rwa [(pos_eq_none_iff L (L.length + 1)).2 (Or.inr (by omega))] at this
  rw [h0, findPrev_pos h p fuel L.length (Nat.le_refl _) hf, List.take_length]

/-! ## The first node satisfying a test -/

/-- Changing the test at one node that fails the new test, other than the first node
that passes the old one, keeps that first node. -/
theorem find?_congr_of_ne {p q : ι → Bool} {L : List ι} {x b : ι} (h : L.find? p = some x)
    (hxb : x ≠ b) (hb : q b = false) (hpq : ∀ y, y ≠ b → p y = q y) : L.find? q = some x := by
  induction L with
  | nil => simp at h
  | cons y L ih =>
    rw [List.find?_cons] at h ⊢
    by_cases hy : y = b
    · subst hy
      rw [hb]
      cases hpy : p y
      · rw [hpy] at h; exact ih h
      · rw [hpy] at h; cases h; exact absurd rfl hxb
    · rw [← hpq y hy]
      cases hpy : p y
      · rw [hpy] at h; exact ih h
      · rw [hpy] at h; exact h

theorem find?_eq_some_of_unique {q : ι → Bool} {L : List ι} {b : ι} (hb : b ∈ L)
    (hq : q b = true) (hne : ∀ y, y ≠ b → q y = false) : L.find? q = some b := by
  induction L with
  | nil => simp at hb
  | cons y L ih =>
    rw [List.find?_cons]
    by_cases hy : y = b
    · subst hy; rw [hq]
    · rw [hne y hy]
      exact ih ((List.mem_cons.1 hb).resolve_left (Ne.symm hy))

theorem find?_eraseIdx_of_not {p : ι → Bool} {L : List ι} {m : Nat} (hm : m < L.length)
    (hp : p L[m] = false) : (L.eraseIdx m).find? p = L.find? p := by
  rw [List.eraseIdx_eq_take_drop_succ, List.find?_append]
  conv => rhs; rw [← List.take_append_drop m L, List.drop_eq_getElem_cons hm, List.find?_append,
    List.find?_cons, hp]

/-! ## Unlinking and pushing to the front -/

/-- The empty list: the head linked to itself. -/
def empty : Links ι := ⟨fun _ => none, fun _ => none⟩

theorem represents_empty : Represents (empty : Links ι) [] := by
  refine ⟨List.nodup_nil, fun i hi => ?_⟩
  have : i = 0 := by simpa using hi
  subst this
  simp [empty, pos]

variable [DecidableEq ι]


/-- Take `b` out of the cycle: `b->next->prev = b->prev; b->prev->next = b->next`. -/
def unlink (k : Links ι) (b : ι) : Links ι :=
  { next := Function.update k.next (k.prev (some b)) (k.next (some b))
    prev := Function.update k.prev (k.next (some b)) (k.prev (some b)) }

/-- Insert `b` after the head: `b->next = head.next; b->prev = &head;
head.next->prev = b; head.next = b`. -/
def pushFront (k : Links ι) (b : ι) : Links ι :=
  { next := Function.update (Function.update k.next (some b) (k.next none)) none (some b)
    prev := Function.update (Function.update k.prev (some b) none) (k.next none) (some b) }


omit [DecidableEq ι] in
theorem pos_eraseIdx (L : List ι) (m i : Nat) :
    pos (L.eraseIdx m) i = if i ≤ m then pos L i else pos L (i + 1) := by
  cases i with
  | zero => simp
  | succ i =>
    rw [pos_succ, pos_succ, pos_succ, List.getElem?_eraseIdx]
    by_cases h : i < m
    · rw [if_pos h, if_pos (by omega)]
    · rw [if_neg h, if_neg (by omega)]

theorem represents_unlink {k : Links ι} {L : List ι} (h : Represents k L) {m : Nat}
    (hm : m < L.length) : Represents (unlink k L[m]) (L.eraseIdx m) := by
  have hL := h.1
  have hb : some L[m] = pos L (m + 1) := by rw [pos_succ, List.getElem?_eq_getElem hm]
  have hp : k.prev (some L[m]) = pos L m := by rw [hb, h.prev_pos (by omega)]
  have hn : k.next (some L[m]) = pos L (m + 2) := by rw [hb, h.next_pos (by omega)]
  have hlen : (L.eraseIdx m).length = L.length - 1 := List.length_eraseIdx_of_lt hm
  refine ⟨hL.eraseIdx m, fun i hi => ?_⟩
  rw [hlen] at hi
  simp only [unlink, hp, hn, pos_eraseIdx]
  constructor
  · by_cases him : i ≤ m
    · rw [if_pos him]
      by_cases hieq : i = m
      · subst hieq
        rw [Function.update_self, if_neg (by omega)]
      · rw [Function.update_of_ne (fun e => hieq ((pos_eq_pos_iff hL (by omega) (by omega)).1 e
          |>.elim id (fun h => by omega))), h.next_pos (by omega), if_pos (by omega)]
    · rw [if_neg him, Function.update_of_ne (fun e => him (((pos_eq_pos_iff hL (by omega)
          (by omega)).1 e).elim (fun h => by omega) (fun h => by omega))), h.next_pos (by omega),
        if_neg (by omega)]
  · by_cases him : i < m
    · rw [if_pos (by omega : i + 1 ≤ m), Function.update_of_ne (fun e => (Nat.ne_of_lt him)
          (((pos_eq_pos_iff hL (by omega) (by omega)).1 e).elim (fun h => by omega)
            (fun h => by omega))), h.prev_pos (by omega), if_pos (by omega)]
    · by_cases hieq : i = m
      · subst hieq
        rw [if_neg (by omega), Function.update_self, if_pos (Nat.le_refl _)]
      · rw [if_neg (by omega), Function.update_of_ne (fun e => hieq
          (((pos_eq_pos_iff hL (by omega) (by omega)).1 e).elim (fun h => by omega)
            (fun h => by omega))), h.prev_pos (by omega), if_neg (by omega)]

omit [DecidableEq ι] in
theorem pos_cons_one (b : ι) (L : List ι) : pos (b :: L) 1 = some b := rfl

omit [DecidableEq ι] in
theorem pos_cons_add_two (b : ι) (L : List ι) (j : Nat) : pos (b :: L) (j + 2) = pos L (j + 1) := by
  simp [pos_succ]

theorem represents_pushFront {k : Links ι} {L : List ι} (h : Represents k L) {b : ι}
    (hb : b ∉ L) : Represents (pushFront k b) (b :: L) := by
  have hL := h.1
  have h0 : k.next none = pos L 1 := h.next_pos (Nat.zero_le _)
  have hnb : ∀ i, pos L i ≠ some b := by
    intro i e
    unfold pos at e
    split at e
    · cases e
    · exact hb (List.mem_of_getElem? e)
  refine ⟨List.nodup_cons.2 ⟨hb, hL⟩, fun i hi => ?_⟩
  simp only [List.length_cons] at hi
  simp only [pushFront, h0]
  match i with
  | 0 =>
    rw [pos_zero, pos_cons_one, Function.update_self, Function.update_of_ne (Ne.symm (hnb 1)),
      Function.update_self]
    exact ⟨rfl, rfl⟩
  | 1 =>
    rw [pos_cons_one, pos_cons_add_two, Nat.zero_add, Function.update_of_ne (by simp),
      Function.update_self, Function.update_self]
    exact ⟨rfl, rfl⟩
  | j + 2 =>
    rw [pos_cons_add_two, show j + 2 + 1 = (j + 1) + 2 by omega, pos_cons_add_two]
    have hj1 : pos L (j + 1) ≠ none := by rw [Ne, pos_eq_none_iff]; omega
    have hj2 : pos L (j + 1 + 1) ≠ pos L 1 := fun e =>
      (((pos_eq_pos_iff hL (by omega) (by omega)).1 e).elim (fun h => by omega)
        (fun h => by omega))
    rw [Function.update_of_ne hj1, Function.update_of_ne (hnb _), h.next_pos (by omega),
      Function.update_of_ne hj2, Function.update_of_ne (hnb _), h.prev_pos (by omega)]
    exact ⟨rfl, rfl⟩

omit [DecidableEq ι] in
theorem getElem_not_mem_eraseIdx {L : List ι} (hL : L.Nodup) {m : Nat} (hm : m < L.length) :
    L[m] ∉ L.eraseIdx m := by
  rw [List.mem_eraseIdx_iff_getElem]
  rintro ⟨i, hi, hne, he⟩
  exact hne ((hL.getElem_inj_iff).1 he)

/-- Moving the node at index `m` to the front, as `brelse` does: unlink, then push. -/
theorem represents_moveFront {k : Links ι} {L : List ι} (h : Represents k L) {m : Nat}
    (hm : m < L.length) :
    Represents (pushFront (unlink k L[m]) L[m]) (L[m] :: L.eraseIdx m) :=
  represents_pushFront (represents_unlink h hm) (getElem_not_mem_eraseIdx h.1 hm)

/-- Pushing distinct new nodes one after the other builds the list in reverse order. -/
theorem represents_foldl_pushFront {k : Links ι} {L : List ι} (h : Represents k L)
    (xs : List ι) (hxs : xs.Nodup) (hdis : ∀ x ∈ xs, x ∉ L) :
    Represents (xs.foldl pushFront k) (xs.reverse ++ L) := by
  induction xs generalizing k L with
  | nil => simpa using h
  | cons x xs ih =>
    rw [List.foldl_cons, List.reverse_cons, List.append_assoc, List.singleton_append]
    have hx : x ∉ L := hdis x List.mem_cons_self
    apply ih (represents_pushFront h hx) (List.nodup_cons.1 hxs).2
    intro y hy hmem
    rcases List.mem_cons.1 hmem with rfl | hmem
    · exact (List.nodup_cons.1 hxs).1 hy
    · exact hdis y (List.mem_cons_of_mem _ hy) hmem

end DList
