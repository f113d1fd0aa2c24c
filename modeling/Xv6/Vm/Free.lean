import Xv6.Vm.Walk

/-!
# Freeing a page table

`freewalk` of `kernel/vm.c` (lines 271-287) frees the table pages of a tree whose leaves
are already gone: for each of the 512 entries of a table, a valid entry without R/W/X
bits is a table, freed first and then cleared; a valid entry with one of them is a leaf,
and `freewalk` panics; last the table itself goes to `kfree`.  The C recursion is bounded
by nothing but the tree; here `fuel` is the depth it may reach, and a table deeper than
that gives `none`.

The tables of the tree below `t` are `Radix.nodes` of the tree (`tables`), listed children
first, as `freewalk` frees them.  On a tree with no leaf anywhere (`NoLeaf`) whose tables are
distinct and accepted by `kfree`, `freewalk` with one level of fuel per level of the tree
pushes exactly those tables on the free list, in that order, and changes no other page
(`freewalk_tables`).  A well-formed tree whose abstract map is empty has no leaf
(`WF.noLeaf`).
-/

namespace Xv6

open Radix

/-- One pass of `freewalk`'s loop, at the entry `i` of `tbl`, with `rec` freeing the
tree below a child. -/
def freewalkStep (rec : VM → UInt64 → Option (Except String VM)) (tbl : UInt64) :
    Option (Except String VM) → Fin 512 → Option (Except String VM)
  | some (.ok s), i =>
    let pte := s.mem tbl i
    if pte &&& PTE_V ≠ 0 ∧ pte &&& (PTE_R ||| PTE_W ||| PTE_X) = 0 then
      -- this PTE points to a lower-level page table
      match rec s (PTE2PA pte) with
      | some (.ok s) => some (.ok (s.write tbl i 0))
      | r => r
    else if pte &&& PTE_V ≠ 0 then some (.error "freewalk: leaf")
    else some (.ok s)
  | r, _ => r

/-- The end of `freewalk`: `kfree(pagetable)`, unless the loop panicked or ran out of
fuel. -/
def freewalkEnd (tbl : UInt64) : Option (Except String VM) → Option (Except String VM)
  | some (.ok s) => some (kfree s tbl)
  | r => r

/-- `freewalk`, recursing at most `fuel - 1` levels below `tbl`. -/
def freewalk : Nat → VM → UInt64 → Option (Except String VM)
  | 0, _, _ => none
  | fuel + 1, s, tbl =>
    freewalkEnd tbl ((List.finRange 512).foldl (freewalkStep (freewalk fuel) tbl) (some (.ok s)))

/-- The table pages of the tree below `t`, `d` levels above the level-0 tables, in the
order `freewalk` frees them. -/
def tables (m : UInt64 → Fin 512 → UInt64) (t : UInt64) (d : Nat) : List UInt64 :=
  nodes (child m) (List.finRange 512) t d

/-- The tables of the trees below the entries `l` of `t`. -/
def belowAll (m : UInt64 → Fin 512 → UInt64) (t : UInt64) (d : Nat) (l : List (Fin 512)) :
    List UInt64 :=
  l.flatMap fun i => below (child m) (List.finRange 512) t i d

/-- The tree below `t`, `d` levels above the level-0 tables, has no leaf: every valid
entry above level 0 points to a table, and the level-0 tables are empty. -/
def NoLeaf (m : UInt64 → Fin 512 → UInt64) : UInt64 → Nat → Prop
  | t, 0 => ∀ i, m t i &&& PTE_V = 0
  | t, d + 1 => ∀ i, m t i &&& PTE_V ≠ 0 →
      m t i &&& (PTE_R ||| PTE_W ||| PTE_X) = 0 ∧ NoLeaf m (PTE2PA (m t i)) d

/-! ## The tables of a tree -/

section Tables

variable {m m' : UInt64 → Fin 512 → UInt64} {t : UInt64} {d : Nat}

theorem tables_succ : tables m t (d + 1) = belowAll m t d (List.finRange 512) ++ [t] :=
  nodes_succ t d

@[simp] theorem belowAll_nil : belowAll m t d [] = [] := rfl

theorem belowAll_cons (i : Fin 512) (l : List (Fin 512)) :
    belowAll m t d (i :: l) = below (child m) (List.finRange 512) t i d ++ belowAll m t d l := by
  simp [belowAll]

theorem mem_tables {q : UInt64} :
    q ∈ tables m t d ↔ ∃ path : List (Fin 512), path.length ≤ d ∧ pageAt m t path = some q := by
  rw [tables, mem_nodes]
  simp [pageAt]

theorem child_of_valid {i : Fin 512} (h : m t i &&& PTE_V ≠ 0) : child m t i = some (PTE2PA (m t i)) := by
  simp [child, h]

theorem tables_child_sub {i : Fin 512} (h : m t i &&& PTE_V ≠ 0) {q : UInt64}
    (hq : q ∈ tables m (PTE2PA (m t i)) d) : q ∈ tables m t (d + 1) :=
  mem_nodes_of_below (List.mem_finRange i) (by rwa [below_of_some (child_of_valid h)])

theorem tables_congr (h : ∀ q ∈ tables m t d, m' q = m q) : tables m' t d = tables m t d :=
  nodes_congr fun q hq => funext fun i => by simp only [child, h q hq]

theorem noLeaf_congr (h : ∀ q ∈ tables m t d, m' q = m q) : NoLeaf m' t d ↔ NoLeaf m t d := by
  induction d generalizing t with
  | zero =>
    have ht : m' t = m t := h t (by simp [tables])
    simp only [NoLeaf, ht]
  | succ d ih =>
    have ht : m' t = m t := h t (by rw [tables_succ]; simp)
    simp only [NoLeaf, ht]
    refine forall_congr' fun i => imp_congr_right fun hV => and_congr_right fun _ => ?_
    exact ih fun q hq => h q (tables_child_sub hV hq)

end Tables

/-! ## `freewalk` -/

section Step

variable {rec : VM → UInt64 → Option (Except String VM)} {tbl : UInt64} {s : VM} {i : Fin 512}

theorem freewalkStep_invalid (h : s.mem tbl i &&& PTE_V = 0) :
    freewalkStep rec tbl (some (.ok s)) i = some (.ok s) := by
  simp [freewalkStep, h]

theorem freewalkStep_table (hV : s.mem tbl i &&& PTE_V ≠ 0)
    (hd : s.mem tbl i &&& (PTE_R ||| PTE_W ||| PTE_X) = 0) {s1 : VM}
    (hrec : rec s (PTE2PA (s.mem tbl i)) = some (.ok s1)) :
    freewalkStep rec tbl (some (.ok s)) i = some (.ok (s1.write tbl i 0)) := by
  simp [freewalkStep, hV, hd, hrec]

theorem freewalk_fold_empty :
    ∀ (l : List (Fin 512)) (s : VM), (∀ i ∈ l, s.mem tbl i &&& PTE_V = 0) →
      l.foldl (freewalkStep rec tbl) (some (.ok s)) = some (.ok s)
  | [], _, _ => rfl
  | i :: l, s, h => by
    rw [List.foldl_cons, freewalkStep_invalid (h i List.mem_cons_self)]
    exact freewalk_fold_empty l s fun j hj => h j (List.mem_cons_of_mem _ hj)

theorem freewalk_of_fold {fuel : Nat} {s1 : VM}
    (h : (List.finRange 512).foldl (freewalkStep (freewalk fuel) tbl) (some (.ok s)) = some (.ok s1)) :
    freewalk (fuel + 1) s tbl = some (kfree s1 tbl) := by
  rw [freewalk, h, freewalkEnd]

end Step

/-- What `freewalk` with `d + 1` levels of fuel does to the tree below a table `d` levels
above the level-0 tables: it frees exactly the tree's tables, in order. -/
def FreesTables (d : Nat) : Prop :=
  ∀ (s : VM) (t : UInt64), NoLeaf s.mem t d → (tables s.mem t d).Nodup →
    (∀ q ∈ tables s.mem t d, pageOk s.kend q) →
    ∃ s', freewalk (d + 1) s t = some (.ok s') ∧
      s'.freelist = (tables s.mem t d).reverse ++ s.freelist ∧ s'.kend = s.kend ∧
      ∀ q ∉ tables s.mem t d, s'.mem q = s.mem q

section Fold

variable {d : Nat} {m : UInt64 → Fin 512 → UInt64} {t : UInt64}

/-- The loop of `freewalk` over the entries `l` of a table `t` with no leaf below, while the memory still
agrees with `m` on those entries and the trees below them: it frees those trees in turn. -/
theorem freewalk_fold (ih : FreesTables d) (hnl : NoLeaf m t (d + 1)) :
    ∀ (l : List (Fin 512)) (s : VM), l.Nodup → (belowAll m t d l).Nodup → t ∉ belowAll m t d l →
      (∀ q ∈ belowAll m t d l, pageOk s.kend q) → (∀ i ∈ l, s.mem t i = m t i) →
      (∀ q ∈ belowAll m t d l, s.mem q = m q) →
      ∃ s', l.foldl (freewalkStep (freewalk (d + 1)) t) (some (.ok s)) = some (.ok s') ∧
        s'.freelist = (belowAll m t d l).reverse ++ s.freelist ∧ s'.kend = s.kend ∧
        ∀ q, q ≠ t → q ∉ belowAll m t d l → s'.mem q = s.mem q := by
  intro l
  induction l with
  | nil => exact fun s _ _ _ _ _ _ => ⟨s, rfl, by simp, rfl, fun _ _ _ => rfl⟩
  | cons i l ihl =>
    intro s hl hnd ht hok hent hsub
    rw [belowAll_cons] at hnd ht hok hsub
    have hl' := (List.nodup_cons.1 hl).2
    have hnd' := (List.nodup_append.1 hnd).2.1
    by_cases hV : m t i &&& PTE_V = 0
    · -- an invalid entry: nothing below it, and the pass skips it
      have hB : below (child m) (List.finRange 512) t i d = [] := below_of_none (child_eq_none.2 hV)
      rw [hB, List.nil_append] at hnd ht hok hsub
      obtain ⟨s', hfold, hfl, hk, hmem⟩ := ihl s hl' hnd ht hok
        (fun j hj => hent j (List.mem_cons_of_mem _ hj)) hsub
      refine ⟨s', ?_, by rw [belowAll_cons, hB, List.nil_append]; exact hfl, hk,
        fun q hqt hq => hmem q hqt (by rwa [belowAll_cons, hB, List.nil_append] at hq)⟩
      rw [List.foldl_cons, freewalkStep_invalid (by rw [hent i List.mem_cons_self]; exact hV)]
      exact hfold
    · -- a table: free the tree below it, then clear the entry
      obtain ⟨hd, hc⟩ := hnl i hV
      have hB : below (child m) (List.finRange 512) t i d = tables m (PTE2PA (m t i)) d :=
        below_of_some (child_of_valid hV)
      rw [hB] at hnd ht hok hsub
      have hagree : ∀ q ∈ tables m (PTE2PA (m t i)) d, s.mem q = m q :=
        fun q hq => hsub q (List.mem_append_left _ hq)
      have htab : tables s.mem (PTE2PA (m t i)) d = tables m (PTE2PA (m t i)) d := tables_congr hagree
      obtain ⟨s1, hrec, hfl1, hk1, hmem1⟩ := ih s (PTE2PA (m t i)) ((noLeaf_congr hagree).2 hc)
        (htab ▸ (List.nodup_append.1 hnd).1) (htab ▸ fun q hq => hok q (List.mem_append_left _ hq))
      rw [htab] at hfl1 hmem1
      have hti : t ∉ tables m (PTE2PA (m t i)) d := fun h => ht (List.mem_append_left _ h)
      obtain ⟨s', hfold, hfl, hk, hmem⟩ := ihl (s1.write t i 0) hl' hnd'
        (fun h => ht (List.mem_append_right _ h))
        (fun q hq => by simpa [hk1] using hok q (List.mem_append_right _ hq))
        (fun j hj => by
          have hji : j ≠ i := fun e => (List.nodup_cons.1 hl).1 (e ▸ hj)
          rw [VM.write_mem, if_neg (fun h => hji h.2), hmem1 t hti]
          exact hent j (List.mem_cons_of_mem _ hj))
        (fun q hq => by
          have hqt : q ≠ t := fun e => ht (List.mem_append_right _ (e ▸ hq))
          have hqB : q ∉ tables m (PTE2PA (m t i)) d :=
            fun h => (List.nodup_append.1 hnd).2.2 q h q hq rfl
          rw [VM.write_mem_ne _ _ _ hqt, hmem1 q hqB]
          exact hsub q (List.mem_append_right _ hq))
      refine ⟨s', ?_, ?_, by simpa [hk1] using hk, fun q hqt hq => ?_⟩
      · rw [List.foldl_cons, freewalkStep_table (by rw [hent i List.mem_cons_self]; exact hV)
          (by rw [hent i List.mem_cons_self]; exact hd) (by rw [hent i List.mem_cons_self]; exact hrec)]
        exact hfold
      · rw [hfl, VM.write_freelist, hfl1, belowAll_cons, hB]
        simp
      · rw [belowAll_cons, hB, List.mem_append, not_or] at hq
        rw [hmem q hqt hq.2, VM.write_mem_ne _ _ _ hqt, hmem1 q hq.1]

end Fold

/-- `freewalk` with one level of fuel per level of a tree with no leaf frees exactly its tables. -/
theorem freewalk_tables (d : Nat) : FreesTables d := by
  -- induction on the levels below the table; the loop over its entries frees each child
  induction d with
  | zero =>
    intro s t hnl _ hok
    obtain ⟨s', hk, hfl, hke, hmem⟩ := kfree_spec (hok t (by simp [tables]))
    refine ⟨s', ?_, by simpa [tables] using hfl, hke, fun q hq => hmem q (by simpa [tables] using hq)⟩
    rw [freewalk_of_fold (freewalk_fold_empty _ s fun i _ => hnl i), hk]
  | succ d ih =>
    intro s t hnl hnd hok
    rw [tables_succ] at hnd hok
    have hnd' := (List.nodup_append.1 hnd).1
    have ht : t ∉ belowAll s.mem t d (List.finRange 512) :=
      fun h => (List.nodup_append.1 hnd).2.2 t h t (List.mem_singleton_self t) rfl
    obtain ⟨s1, hfold, hfl1, hk1, hmem1⟩ := freewalk_fold ih hnl (List.finRange 512) s
      (List.nodup_finRange 512) hnd' ht (fun q hq => hok q (List.mem_append_left _ hq))
      (fun _ _ => rfl) (fun _ _ => rfl)
    obtain ⟨s', hk, hfl, hke, hmem⟩ := kfree_spec (hk1 ▸ hok t (List.mem_append_right _ (List.mem_singleton_self t)))
    refine ⟨s', by rw [freewalk_of_fold hfold, hk], ?_, hke.trans hk1, fun q hq => ?_⟩
    · rw [hfl, hfl1, tables_succ]
      simp
    · rw [tables_succ, List.mem_append, List.mem_singleton, not_or] at hq
      rw [hmem q hq.2, hmem1 q hq.2 hq.1]

/-! ## Well-formed trees -/

section WF

variable {s : VM} {pt : UInt64}

theorem WF.tables_nodup (hwf : WF s pt) : (tables s.mem pt 2).Nodup :=
  nodes_nodup (List.nodup_finRange 512) fun a b q ha hb => hwf.inj a b q ha hb

theorem WF.tables_ok (hwf : WF s pt) : ∀ q ∈ tables s.mem pt 2, pageOk s.kend q := by
  intro q hq
  obtain ⟨path, hlen, hp⟩ := mem_tables.1 hq
  exact hwf.tableOk path q hlen hp

theorem WF.noLeaf (hwf : WF s pt) (hempty : ∀ v, absMap s.mem pt v = none) : NoLeaf s.mem pt 2 := by
  intro i hVi
  have hc1 : pageAt s.mem pt [i] = some (PTE2PA (s.mem pt i)) := by
    simp [pageAt, child_of_valid hVi]
  refine ⟨hwf.dir [] pt (by simp) rfl i hVi, fun j hVj => ⟨hwf.dir [i] _ (by simp) hc1 j hVj, ?_⟩⟩
  -- a valid level-0 entry would be a page of the abstract map
  have hc0 : pageAt s.mem pt [i, j] = some (PTE2PA (s.mem (PTE2PA (s.mem pt i)) j)) := by
    simp [pageAt, child_of_valid hVi, child_of_valid hVj]
  intro k
  by_contra hVk
  have hi : (i : Nat) < 256 := by
    by_contra h
    exact hVi (hwf.top i (by omega))
  obtain ⟨-, h2, h1, h0⟩ := vidx_digits i j k
  have hv : (i : Nat) * 262144 + j * 512 + k < 2 ^ 26 := by
    have := j.isLt
    have := k.isLt
    omega
  have := absMap_of_table hv (by rw [h2, h1]; exact hc0)
  rw [hempty, h0, if_neg hVk] at this
  cases this

end WF

end Xv6
