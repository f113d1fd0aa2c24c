import Mathlib.Computability.Language

/-!
# Words: a stretch in a language, and lines

Two facts about words that a scanner rests on.

A word has a prefix in `A * B` exactly when it has a prefix in `A` followed by a prefix in
`B` (`exists_prefix_mul`); and a word is in the star of a set of one-letter words exactly
when each of its letters is (`mem_kstar_letters`).

The lines of a word are the pieces of its `List.splitOn sep` but the last, the piece after
the last `sep`.  Lines without `sep` put back each with its `sep` (`joinTerm`) come off the
front of any word that starts with them (`splitOn_joinTerm_append`).
-/

namespace Words

open Computability

variable {α : Type*}

/-! ## Stretches of a word in a language -/

/-- The one-letter words whose letter satisfies `p`. -/
def letters (p : α → Prop) : Language α := {w | ∃ t, w = [t] ∧ p t}

@[simp] theorem mem_letters {p : α → Prop} {w : List α} :
    w ∈ letters p ↔ ∃ t, w = [t] ∧ p t := Iff.rfl

theorem mem_kstar_letters {p : α → Prop} {w : List α} : w ∈ (letters p)∗ ↔ ∀ t ∈ w, p t := by
  rw [Language.mem_kstar]
  constructor
  · rintro ⟨S, rfl, hS⟩ t ht
    obtain ⟨y, hy, hty⟩ := List.mem_flatten.mp ht
    obtain ⟨u, rfl, hu⟩ := hS y hy
    rw [List.mem_singleton] at hty
    exact hty ▸ hu
  · intro h
    refine ⟨w.map fun t => [t], by rw [← List.flatMap_def, List.flatMap_singleton'], ?_⟩
    intro y hy
    obtain ⟨t, ht, rfl⟩ := List.mem_map.mp hy
    exact ⟨t, rfl, h t ht⟩

theorem cons_mem_kstar_letters {p : α → Prop} {t : α} {w : List α} :
    t :: w ∈ (letters p)∗ ↔ p t ∧ w ∈ (letters p)∗ := by
  simp only [mem_kstar_letters, List.forall_mem_cons]

theorem exists_prefix_letters_cons {p : α → Prop} {Q : List α → Prop} {t : α} {text : List α} :
    (∃ u v, t :: text = u ++ v ∧ u ∈ letters p ∧ Q v) ↔ p t ∧ Q text := by
  constructor
  · rintro ⟨u, v, h, ⟨t', rfl, ht⟩, hv⟩
    rw [List.singleton_append, List.cons.injEq] at h
    obtain ⟨rfl, rfl⟩ := h
    exact ⟨ht, hv⟩
  · rintro ⟨ht, hq⟩
    exact ⟨[t], text, rfl, ⟨t, rfl, ht⟩, hq⟩

theorem exists_prefix_letters_nil {p : α → Prop} {Q : List α → Prop} :
    ¬∃ u v, ([] : List α) = u ++ v ∧ u ∈ letters p ∧ Q v := by
  rintro ⟨u, v, h, ⟨t, rfl, -⟩, -⟩
  simp at h

/-- A prefix in `A * B` is a prefix in `A` followed by a prefix in `B` of what is left. -/
theorem exists_prefix_mul (A B : Language α) (P : List α → Prop) (text : List α) :
    (∃ w post, text = w ++ post ∧ w ∈ A * B ∧ P post) ↔
      ∃ u v, text = u ++ v ∧ u ∈ A ∧ ∃ w post, v = w ++ post ∧ w ∈ B ∧ P post := by
  constructor
  · rintro ⟨w, post, rfl, hw, hp⟩
    obtain ⟨a, ha, b, hb, rfl⟩ := Language.mem_mul.mp hw
    exact ⟨a, b ++ post, by simp, ha, b, post, rfl, hb, hp⟩
  · rintro ⟨u, v, rfl, hu, w, post, rfl, hw, hp⟩
    exact ⟨u ++ w, post, by simp, Language.mem_mul.mpr ⟨u, hu, w, hw, rfl⟩, hp⟩

/-! ## Lines -/

section Lines

variable (sep : α)

/-- Lines put back, each followed by `sep`. -/
def joinTerm (ls : List (List α)) : List α := ls.flatMap (· ++ [sep])

@[simp] theorem joinTerm_nil : joinTerm sep [] = [] := rfl

@[simp] theorem joinTerm_cons (l : List α) (ls : List (List α)) :
    joinTerm sep (l :: ls) = l ++ sep :: joinTerm sep ls := by
  simp [joinTerm]

@[simp] theorem joinTerm_append (ls ls' : List (List α)) :
    joinTerm sep (ls ++ ls') = joinTerm sep ls ++ joinTerm sep ls' := by
  simp [joinTerm]

variable {sep}

theorem exists_eq_append_sep {s : List α} (h : sep ∈ s) :
    ∃ l r, s = l ++ sep :: r ∧ sep ∉ l := by
  induction s with
  | nil => simp at h
  | cons a s ih =>
    by_cases ha : a = sep
    · exact ⟨[], s, by rw [ha, List.nil_append], List.not_mem_nil⟩
    · have hs : sep ∈ s := (List.mem_cons.mp h).resolve_left (Ne.symm ha)
      obtain ⟨l, r, rfl, hl⟩ := ih hs
      exact ⟨a :: l, r, rfl, by simp [Ne.symm ha, hl]⟩

variable [BEq α] [LawfulBEq α]

/-- Lines ended by `sep` split off the front of a word, whatever follows them. -/
theorem splitOn_joinTerm_append {ls : List (List α)} (hls : ∀ l ∈ ls, sep ∉ l) (t : List α) :
    (joinTerm sep ls ++ t).splitOn sep = ls ++ t.splitOn sep := by
  induction ls with
  | nil => rfl
  | cons l ls ih =>
    have hl : sep ∉ l := hls l (List.mem_cons_self ..)
    rw [joinTerm_cons, List.append_assoc, List.cons_append,
      List.splitOn_append_cons_self_of_not_mem hl, ih fun l' h' => hls l' (List.mem_cons_of_mem _ h'),
      List.cons_append]

theorem dropLast_splitOn_joinTerm_append {ls : List (List α)} (hls : ∀ l ∈ ls, sep ∉ l)
    (t : List α) :
    ((joinTerm sep ls ++ t).splitOn sep).dropLast = ls ++ (t.splitOn sep).dropLast := by
  rw [splitOn_joinTerm_append hls, List.dropLast_append_of_ne_nil (List.splitOn_ne_nil sep t)]

theorem dropLast_splitOn_of_not_mem {s : List α} (h : sep ∉ s) : (s.splitOn sep).dropLast = [] := by
  rw [List.splitOn_eq_singleton h, List.dropLast_singleton]

end Lines

end Words
