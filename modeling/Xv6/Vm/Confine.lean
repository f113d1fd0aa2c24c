import Xv6.Vm.Uvm

/-!
# What an operation on a page table may change, and what it keeps

Two relations between the memory before and after an operation on the table `pt`, each
carried through `walk`, `mappages`, `kfree` and `uvmunmap` of `kernel/vm.c` and
`kernel/kalloc.c`.

`Confined` says what may change: the tables of `pt`, the pages it takes from the free list
and the pages it frees; every other page keeps its contents, and every table or free page
afterwards was a table, a free page or a freed page before.

`Kept` says what is not lost.  The pages `pt` holds (`Held`) are the free pages, the
tables of `pt` and the frames of its user pages; an operation keeps them when each of them
is still free, a table or a user frame afterwards, so that a page taken from the free list
is always found again, in the table or back on the list.

A `walk` that allocates only links free pages as tables (`walkLevel_link`), and the loop of
`mappages` only adds such walks and stores into empty slots: any relation that holds of
those steps and composes holds across them (`walk_rel`, `mappagesLoop_rel`), and both
relations are instances.  `uvmunmap` keeps every table (`uvmunmap_frame`).
-/

namespace Xv6

open Span

/-! ## What an operation on a table may change -/

/-- `s'` differs from `s` only in the tables of `pt`, in pages that were free in `s` and in
the pages `fr`; each table and free page of `s'` was a table at the same path, a free page
or a page of `fr` in `s`. -/
structure Confined (s s' : VM) (pt : UInt64) (fr : List UInt64) : Prop where
  mem : ∀ q, q ∉ s.freelist → q ∉ fr → (∀ a, a.length ≤ 2 → pageAt s.mem pt a ≠ some q) →
    s'.mem q = s.mem q
  tables : ∀ a q, a.length ≤ 2 → pageAt s'.mem pt a = some q →
    pageAt s.mem pt a = some q ∨ q ∈ s.freelist ∨ q ∈ fr
  free : ∀ q ∈ s'.freelist, q ∈ s.freelist ∨ q ∈ fr

namespace Confined

variable {s s1 s2 : VM} {pt : UInt64} {fr fr1 fr2 : List UInt64}

theorem refl (s : VM) (pt : UInt64) : Confined s s pt [] :=
  ⟨fun _ _ _ _ => rfl, fun _ _ _ h => .inl h, fun _ h => .inl h⟩

theorem trans (h1 : Confined s s1 pt fr1) (h2 : Confined s1 s2 pt fr2) :
    Confined s s2 pt (fr1 ++ fr2) where
  mem q hq hfr htab := by
    rw [List.mem_append, not_or] at hfr
    -- a page outside both changes was neither free nor a table in between
    have hq1 : q ∉ s1.freelist := fun h => (h1.free q h).elim hq hfr.1
    have htab1 : ∀ a, a.length ≤ 2 → pageAt s1.mem pt a ≠ some q := fun a ha h =>
      (h1.tables a q ha h).elim (htab a ha) fun h' => h'.elim hq hfr.1
    rw [h2.mem q hq1 hfr.2 htab1, h1.mem q hq hfr.1 htab]
  tables a q ha h := by
    rcases h2.tables a q ha h with h | h | h
    · rcases h1.tables a q ha h with h | h | h
      · exact .inl h
      · exact .inr (.inl h)
      · exact .inr (.inr (List.mem_append_left _ h))
    · rcases h1.free q h with h | h
      · exact .inr (.inl h)
      · exact .inr (.inr (List.mem_append_left _ h))
    · exact .inr (.inr (List.mem_append_right _ h))
  free q h := by
    rcases h2.free q h with h | h
    · rcases h1.free q h with h | h
      · exact .inl h
      · exact .inr (List.mem_append_left _ h)
    · exact .inr (List.mem_append_right _ h)

theorem mono (h : Confined s s1 pt fr) (hsub : ∀ q ∈ fr, q ∈ fr2) : Confined s s1 pt fr2 where
  mem q hq hfr htab := h.mem q hq (fun h' => hfr (hsub q h')) htab
  tables a q ha hq := (h.tables a q ha hq).imp_right (Or.imp_right (hsub q))
  free q hq := (h.free q hq).imp_right (hsub q)

/-- Pages freed that were free before, or are among `fr2`, are pages of `fr2` as far as a
caller can tell. -/
theorem absorb (h : Confined s s1 pt fr) (hfr : ∀ q ∈ fr, q ∈ s.freelist ∨ q ∈ fr2) :
    Confined s s1 pt fr2 where
  mem q hq hfr2 htab := h.mem q hq (fun h' => (hfr q h').elim hq hfr2) htab
  tables a q ha hq := (h.tables a q ha hq).imp_right fun h' => h'.elim .inl (hfr q)
  free q hq := (h.free q hq).elim .inl (hfr q)

/-- A page that was neither free, nor freed, nor a table stays so, with its contents. -/
theorem keep (h : Confined s s1 pt fr) {q : UInt64} (hq : q ∉ s.freelist) (hfr : q ∉ fr)
    (htab : ∀ a, a.length ≤ 2 → pageAt s.mem pt a ≠ some q) :
    s1.mem q = s.mem q ∧ q ∉ s1.freelist ∧ ∀ a, a.length ≤ 2 → pageAt s1.mem pt a ≠ some q :=
  ⟨h.mem q hq hfr htab, fun h' => (h.free q h').elim hq hfr, fun a ha h' =>
    (h.tables a q ha h').elim (htab a ha) fun h'' => h''.elim hq hfr⟩

end Confined

/-! ## What an operation on a table keeps -/

/-- The pages that `s` holds through the table `pt`: a free page, a table of `pt`, or the
frame of a user page (a page below `TRAPFRAME`). -/
def Held (s : VM) (pt q : UInt64) : Prop :=
  q ∈ s.freelist ∨ (∃ a, a.length ≤ 2 ∧ pageAt s.mem pt a = some q) ∨
    ∃ x fl, x < TRAPFRAME.toNat / 4096 ∧ absMap s.mem pt x = some (q, fl)

/-- Every page `s` holds through `pt`, `s'` still holds: nothing is lost. -/
def Kept (s s' : VM) (pt : UInt64) : Prop := ∀ q, Held s pt q → Held s' pt q

namespace Kept

variable {s s1 s2 : VM} {pt : UInt64}

theorem refl (s : VM) (pt : UInt64) : Kept s s pt := fun _ h => h

theorem trans (h1 : Kept s s1 pt) (h2 : Kept s1 s2 pt) : Kept s s2 pt := fun q h => h2 q (h1 q h)

/-- A change keeps what `s` held when its free pages stay held, its tables stay at their
paths, and the frame of each of its user pages stays held. -/
theorem of (hfree : ∀ q ∈ s.freelist, Held s1 pt q)
    (htab : ∀ a q, a.length ≤ 2 → pageAt s.mem pt a = some q → pageAt s1.mem pt a = some q)
    (hfr : ∀ x q fl, x < TRAPFRAME.toNat / 4096 → absMap s.mem pt x = some (q, fl) → Held s1 pt q) :
    Kept s s1 pt := by
  rintro q (hq | ⟨a, ha, hq⟩ | ⟨x, fl, hx, hq⟩)
  · exact hfree q hq
  · exact .inr (.inl ⟨a, ha, htab a q ha hq⟩)
  · exact hfr x q fl hx hq

end Kept

section Steps

variable {s s' : VM} {pt : UInt64}

theorem walkLevel_link {t : UInt64} {path : List (Fin 512)} (hpath : path.length ≤ 1)
    (ht : pageAt s.mem pt path = some t) (va : UInt64) (level : Nat)
    (htop : path = [] → (pidx (PX level va) : Nat) < 256) :
    (walkLevel s t va level true).1 = s ∨
      ∃ p, LinkStep s (walkLevel s t va level true).1 pt path (pidx (PX level va)) t p := by
  by_cases hv : s.mem t (pidx (PX level va)) &&& PTE_V = 0
  · cases hk : kalloc s with
    | none => exact .inl (by simp [walkLevel, hv, hk])
    | some r =>
      obtain ⟨p, s1⟩ := r
      obtain ⟨hfl, hkend, hmem⟩ := kalloc_eq_some hk
      have heq : (walkLevel s t va level true).1 =
          (s1.fill p 0).write t (pidx (PX level va)) (PA2PTE p ||| PTE_V) := by
        simp [walkLevel, hv, hk]
      refine .inr ⟨p, ?_⟩
      rw [heq]
      refine ⟨hpath, ht, htop, hv, by simpa using hfl, by simpa using hkend, fun q j => ?_⟩
      rw [VM.write_mem, VM.fill_mem, hmem]
      by_cases hq : q = p <;> simp [hq]
  · exact .inl (by simp [walkLevel, hv])

/-- A relation that every linking step satisfies and that composes holds across a `walk`
that allocates. -/
theorem walk_rel (R : VM → VM → Prop) (hrefl : ∀ s, R s s)
    (htrans : ∀ {s₁ s₂ s₃ : VM}, R s₁ s₂ → R s₂ s₃ → R s₁ s₃)
    (hlink : ∀ {s₁ s₂ : VM} {path : List (Fin 512)} {i : Fin 512} {t p : UInt64}, WF s₁ pt →
      LinkStep s₁ s₂ pt path i t p → R s₁ s₂)
    {va : UInt64} (hwf : WF s pt) {r : Option (UInt64 × Fin 512)}
    (hw : walk s pt va true = .ok (s', r)) : R s s' := by
  -- each pass is the identity or a link
  have hpass : ∀ {s₁ : VM} {t : UInt64} {path : List (Fin 512)}, WF s₁ pt → path.length ≤ 1 →
      pageAt s₁.mem pt path = some t → ∀ level, (path = [] → (pidx (PX level va) : Nat) < 256) →
      R s₁ (walkLevel s₁ t va level true).1 := by
    intro s₁ t path hwf₁ hpath ht level htop
    rcases walkLevel_link hpath ht va level htop with h | ⟨p, hL⟩
    · rw [h]
      exact hrefl s₁
    · exact hlink hwf₁ hL
  have h2 : pidx (PX 2 va) = vidx 2 (va.toNat / 4096) := pidx_PX (by decide) va
  unfold walk at hw
  split at hw
  · cases hw
  rename_i hva
  have hva : va < MAXVA := UInt64.not_le.1 hva
  have htop : ([] : List (Fin 512)) = [] → (pidx (PX 2 va) : Nat) < 256 := fun _ => by
    rw [h2]
    exact vidx_two_lt (vpn_lt_of_lt_MAXVA hva)
  obtain ⟨s1, r1, hw1, hwf1, -, -, -, hr1⟩ := walkLevel_alloc hwf (by simp) rfl va 2 htop
  have hc1 : R s s1 := by
    have := hpass hwf (by simp) rfl 2 htop
    rwa [hw1] at this
  rw [hw1] at hw
  rcases hr1 with ⟨t1, rfl, ht1⟩ | ⟨rfl, -⟩
  · -- the second pass, below the level-1 table
    obtain ⟨s2, r2, hw2, -⟩ := walkLevel_alloc hwf1 (by simp) ht1 va 1 (fun h => by simp at h)
    have hc2 : R s1 s2 := by
      have := hpass hwf1 (by simp) ht1 1 (fun h => by simp at h)
      rwa [hw2] at this
    have hs' : s' = s2 := by
      simp only [hw2] at hw
      cases r2 <;> exact (Prod.mk.inj (Except.ok.inj hw)).1.symm
    rw [hs']
    exact htrans hc1 hc2
  · have hs' : s' = s1 := (Prod.mk.inj (Except.ok.inj hw)).1.symm
    rw [hs']
    exact hc1

theorem LinkStep.confined {path : List (Fin 512)} {i : Fin 512} {t p : UInt64}
    (h : LinkStep s s' pt path i t p) (hwf : WF s pt) : Confined s s' pt [] where
  mem q hq _ htab := funext fun j => h.mem_of_ne (fun e => hq (by rw [e]; exact h.p_mem))
    fun e => htab path (by have := h.path_le; omega) (e.1 ▸ h.dir)
  tables a q ha hq := by
    rcases h.new hwf ha hq with hold | ⟨rfl, -⟩
    · exact .inl hold
    · exact .inr (.inl h.p_mem)
  free q hq := .inl (by rw [h.freelist]; exact List.mem_cons_of_mem _ hq)

theorem LinkStep.kept {path : List (Fin 512)} {i : Fin 512} {t p : UInt64}
    (h : LinkStep s s' pt path i t p) (hwf : WF s pt) : Kept s s' pt := by
  refine Kept.of (fun q hq => ?_) (fun a q ha hq => h.old hwf ha hq)
    (fun x q fl hx hq => .inr (.inr ⟨x, fl, hx, by rw [h.absMap_eq hwf]; exact hq⟩))
  rw [h.freelist] at hq
  rcases List.mem_cons.1 hq with rfl | hq
  · have := h.path_le
    exact .inr (.inl ⟨path ++ [i], by simp; omega, h.pageAt_link hwf⟩)
  · exact .inl hq

theorem walk_confined {va : UInt64} (hwf : WF s pt) {r : Option (UInt64 × Fin 512)}
    (hw : walk s pt va true = .ok (s', r)) : Confined s s' pt [] :=
  walk_rel (fun s₁ s₂ => Confined s₁ s₂ pt []) (fun s => Confined.refl s pt)
    (fun h1 h2 => by simpa using h1.trans h2) (fun hwf h => h.confined hwf) hwf hw

theorem walk_kept {va : UInt64} (hwf : WF s pt) {r : Option (UInt64 × Fin 512)}
    (hw : walk s pt va true = .ok (s', r)) : Kept s s' pt :=
  walk_rel (fun s₁ s₂ => Kept s₁ s₂ pt) (fun s => Kept.refl s pt) Kept.trans
    (fun hwf h => h.kept hwf) hwf hw

/-- What a `walk` that allocates and returns tells: the address was below `MAXVA`, the
tree is still well formed, the change is confined, and a slot it returns is in a level-0
table. -/
theorem walk_alloc_ok {va : UInt64} (hwf : WF s pt) {r : Option (UInt64 × Fin 512)}
    (hw : walk s pt va true = .ok (s', r)) :
    va < MAXVA ∧ WF s' pt ∧ Confined s s' pt [] ∧
      ∀ t i, r = some (t, i) → i = vidx 0 (va.toNat / 4096) ∧
        pageAt s'.mem pt [vidx 2 (va.toNat / 4096), vidx 1 (va.toNat / 4096)] = some t := by
  have hva : va < MAXVA := by
    by_contra h
    rw [walk, if_pos (UInt64.not_lt.1 h)] at hw
    cases hw
  obtain ⟨s1, r1, hw1, hwf1, -, -, -, hr1⟩ := walk_alloc hwf hva
  rw [hw] at hw1
  obtain ⟨rfl, rfl⟩ := Prod.mk.inj (Except.ok.inj hw1)
  refine ⟨hva, hwf1, walk_confined hwf hw, fun t i hti => ?_⟩
  rcases hr1 with ⟨t', hr, ht'⟩ | ⟨hr, -⟩
  · rw [hr] at hti
    obtain ⟨rfl, rfl⟩ := Prod.mk.inj (Option.some.inj hti)
    exact ⟨rfl, ht'⟩
  · rw [hr] at hti
    cases hti

theorem confined_write_leaf {i j : Fin 512} {t : UInt64} (hwf : WF s pt)
    (ht : pageAt s.mem pt [i, j] = some t) (k : Fin 512) (e : UInt64) :
    Confined s (s.write t k e) pt [] where
  mem q _ _ htab := VM.write_mem_ne s k e fun hq => htab [i, j] (by simp) (hq ▸ ht)
  tables a q ha hq := .inl (by rwa [pageAt_write_leaf hwf ht k e a ha] at hq)
  free q hq := .inl hq


theorem kept_write_empty {v : Nat} {t : UInt64} (hwf : WF s pt) (hv : v < 2 ^ 26)
    (ht : pageAt s.mem pt [vidx 2 v, vidx 1 v] = some t) (hempty : s.mem t (vidx 0 v) &&& PTE_V = 0)
    (e : UInt64) : Kept s (s.write t (vidx 0 v) e) pt := by
  refine Kept.of (fun q hq => .inl hq) (fun a q ha hq => by rwa [pageAt_write_leaf hwf ht _ e a ha])
    (fun x q fl hx hq => .inr (.inr ⟨x, fl, hx, ?_⟩))
  have hxv : x ≠ v := by
    rintro rfl
    rw [absMap_of_table hv ht, if_pos hempty] at hq
    cases hq
  rw [absMap_write_slot hwf hv ht e, Function.update_of_ne hxv]
  exact hq

/-- A relation that holds across every allocating `walk` and every store into an empty
level-0 slot, and that composes, holds across the loop of `mappages`, which keeps the tree
well formed. -/
theorem mappagesLoop_rel (R : VM → VM → Prop) (hrefl : ∀ s, R s s)
    (htrans : ∀ {s₁ s₂ s₃ : VM}, R s₁ s₂ → R s₂ s₃ → R s₁ s₃)
    (hwalk : ∀ {s₁ s₂ : VM} {va : UInt64} {r : Option (UInt64 × Fin 512)}, WF s₁ pt →
      walk s₁ pt va true = .ok (s₂, r) → R s₁ s₂)
    (hstore : ∀ {s₁ : VM} {v : Nat} {t : UInt64} (e : UInt64), WF s₁ pt → v < 2 ^ 26 →
      pageAt s₁.mem pt [vidx 2 v, vidx 1 v] = some t → s₁.mem t (vidx 0 v) &&& PTE_V = 0 →
      R s₁ (s₁.write t (vidx 0 v) e))
    {last perm : UInt64} (fuel : Nat) :
    ∀ (s s' : VM) (a pa : UInt64) (r : Int), WF s pt →
      mappagesLoop pt last perm fuel s a pa = .ok (s', r) → WF s' pt ∧ R s s' := by
  induction fuel with
  | zero =>
    intro s s' a pa r hwf h
    obtain ⟨rfl, -⟩ := Prod.mk.inj (Except.ok.inj h)
    exact ⟨hwf, hrefl s⟩
  | succ fuel ih =>
    intro s s' a pa r hwf h
    rw [mappagesLoop] at h
    split at h
    · cases h
    · -- no table could be linked: the loop stops at `walk`'s state
      rename_i s1 hw
      obtain ⟨rfl, -⟩ := Prod.mk.inj (Except.ok.inj h)
      exact ⟨(walk_alloc_ok hwf hw).2.1, hwalk hwf hw⟩
    · rename_i s1 t i hw
      obtain ⟨hva, hwf1, -, hslot⟩ := walk_alloc_ok hwf hw
      obtain ⟨rfl, ht⟩ := hslot t i rfl
      split at h
      · cases h
      · -- the store into the slot, which `remap` checked empty, then the rest of the range
        rename_i hempty
        have hwf2 := WF.write_leaf hwf1 ht (vidx 0 (a.toNat / 4096)) (PA2PTE pa ||| perm ||| PTE_V)
        have hr2 := htrans (hwalk hwf hw)
          (hstore (PA2PTE pa ||| perm ||| PTE_V) hwf1 (vpn_lt_of_lt_MAXVA hva) ht (not_not.1 hempty))
        split at h
        · obtain ⟨rfl, -⟩ := Prod.mk.inj (Except.ok.inj h)
          exact ⟨hwf2, hr2⟩
        · obtain ⟨hwf', hr'⟩ := ih _ s' _ _ r hwf2 h
          exact ⟨hwf', htrans hr2 hr'⟩

/-- Every pass of `mappages`'s loop stores into a slot `walk` returned: the loop keeps the
tree well formed and changes only what it may. -/
theorem mappages_confined {va size pa perm : UInt64} {r : Int} (hwf : WF s pt)
    (h : mappages s pt va size pa perm = .ok (s', r)) : WF s' pt ∧ Confined s s' pt [] := by
  unfold mappages at h
  split at h
  · cases h
  · exact mappagesLoop_rel (fun s₁ s₂ => Confined s₁ s₂ pt []) (fun s => Confined.refl s pt)
      (fun h1 h2 => by simpa using h1.trans h2) (fun hwf hw => walk_confined hwf hw)
      (fun e hwf _ ht _ => confined_write_leaf hwf ht _ e) _ s s' _ _ r hwf h

theorem mappages_kept {va size pa perm : UInt64} {r : Int} (hwf : WF s pt)
    (h : mappages s pt va size pa perm = .ok (s', r)) : Kept s s' pt := by
  unfold mappages at h
  split at h
  · cases h
  · exact (mappagesLoop_rel (fun s₁ s₂ => Kept s₁ s₂ pt) (fun s => Kept.refl s pt) Kept.trans
      (fun hwf hw => walk_kept hwf hw) (fun e hwf hv ht hempty => kept_write_empty hwf hv ht hempty e)
      _ s s' _ _ r hwf h).2

theorem kfree_confined {q : UInt64} (hok : pageOk s.kend q)
    (htab : ∀ a, a.length ≤ 2 → pageAt s.mem pt a ≠ some q) (h : kfree s q = .ok s') :
    Confined s s' pt [q] := by
  obtain ⟨s1, hk, hfl, -, hmem⟩ := kfree_spec hok
  rw [h] at hk
  obtain rfl := Except.ok.inj hk
  refine ⟨fun q' _ hq' _ => hmem q' fun e => hq' (e ▸ List.mem_singleton_self q),
    fun a q' ha hq' => .inl ?_, fun q' hq' => ?_⟩
  · rwa [pageAt_of_frame htab hmem a ha] at hq'
  · rw [hfl] at hq'
    rcases List.mem_cons.1 hq' with rfl | hq'
    · exact .inr (List.mem_singleton_self _)
    · exact .inl hq'


theorem kfree_kept {q : UInt64} (hok : pageOk s.kend q)
    (htab : ∀ a, a.length ≤ 2 → pageAt s.mem pt a ≠ some q) (h : kfree s q = .ok s') :
    Kept s s' pt := by
  obtain ⟨s1, hk, hfl, -, hmem⟩ := kfree_spec hok
  rw [h] at hk
  obtain rfl := Except.ok.inj hk
  exact Kept.of (fun q' hq' => .inl (by rw [hfl]; exact List.mem_cons_of_mem _ hq'))
    (fun a q' ha hq' => by rwa [pageAt_of_frame htab hmem a ha])
    (fun x q' fl hx hq' => .inr (.inr ⟨x, fl, hx, by rwa [absMap_of_frame htab hmem]⟩))

end Steps

/-! ## `uvmunmap` -/

section Unmap

variable {s : VM} {pt stop : UInt64} {doFree : Bool}

/-- One pass of `uvmunmap`'s loop over the first of `n + 1` pages that may be unmapped:
it frees the page's frame if asked, clears its PTE, and goes on with the rest. -/
theorem uvmunmap_pass (fuel : Nat) {a : UInt64} {n : Nat} (hwf : WF s pt) (hlt : a < stop)
    (ha : a < MAXVA) (hU : Unmappable s pt (a.toNat / 4096) (n + 1) doFree) :
    ∃ e s2, absMap s.mem pt (a.toNat / 4096) = some e ∧
      uvmunmapLoop pt stop doFree (fuel + 1) s a = uvmunmapLoop pt stop doFree fuel s2 (a + PGSIZE) ∧
      WF s2 pt ∧ s2.kend = s.kend ∧ Confined s s2 pt (if doFree then [e.1] else []) ∧
      s2.freelist = (if doFree then [e.1] else []) ++ s.freelist ∧
      absMap s2.mem pt = Function.update (absMap s.mem pt) (a.toNat / 4096) none ∧
      Unmappable s2 pt (a.toNat / 4096 + 1) n doFree ∧
      ∀ p, p.length ≤ 2 → pageAt s2.mem pt p = pageAt s.mem pt p := by
  have hv := vpn_lt_of_lt_MAXVA ha
  obtain ⟨e, he, hflags⟩ := hU.leaf (a.toNat / 4096) (le_refl _) (by omega)
  obtain ⟨-, t, ht, hV, rfl⟩ := absMap_eq_some he
  obtain ⟨s1, hfree, hwf1, hk1, hfl1, htab1, habs1⟩ := unmap_free hwf hU he
  have hc1 : Confined s s1 pt (if doFree then [PTE2PA (s.mem t (vidx 0 (a.toNat / 4096)))] else []) := by
    cases doFree with
    | false =>
      obtain rfl := Except.ok.inj hfree
      exact Confined.refl s pt
    | true =>
      have hmem : PTE2PA (s.mem t (vidx 0 (a.toNat / 4096))) ∈ frames s.mem pt (a.toNat / 4096) (n + 1) := by
        rw [frames_succ he]
        exact List.mem_cons_self
      obtain ⟨hok, -, htab⟩ := hU.frame rfl _ hmem
      exact kfree_confined hok htab hfree
  have ht1 : pageAt s1.mem pt [vidx 2 (a.toNat / 4096), vidx 1 (a.toNat / 4096)] = some t := by
    rw [htab1 _ (by simp), ht]
  refine ⟨_, s1.write t (vidx 0 (a.toNat / 4096)) 0, he, ?_, WF.write_leaf hwf1 ht1 _ _, hk1,
    by simpa using hc1.trans (confined_write_leaf hwf1 ht1 (vidx 0 (a.toNat / 4096)) 0), hfl1, ?_, ?_,
    fun p hp => by rw [pageAt_write_leaf hwf1 ht1 _ _ p hp, htab1 p hp]⟩
  · rw [uvmunmapLoop, if_pos hlt, walk_noalloc s pt ha, ht]
    simp only [Option.map_some, if_neg hV, if_neg hflags, hfree]
  · rw [absMap_write_slot hwf1 hv ht1, habs1, if_pos UInt64.zero_and]
  · have habs2 : absMap (s1.write t (vidx 0 (a.toNat / 4096)) 0).mem pt =
        Function.update (absMap s.mem pt) (a.toNat / 4096) none := by
      rw [absMap_write_slot hwf1 hv ht1, habs1, if_pos UInt64.zero_and]
    exact hU.next he habs2 hk1 hfl1 fun p hp => by rw [pageAt_write_leaf hwf1 ht1 _ _ p hp, htab1 p hp]

theorem uvmunmapLoop_frame (hstop : stop ≤ MAXVA) (n : Nat) :
    ∀ (s s' : VM) (a : UInt64), WF s pt → a.toNat % 4096 = 0 → stop.toNat = a.toNat + n * 4096 →
      Unmappable s pt (a.toNat / 4096) n doFree →
      uvmunmapLoop pt stop doFree (n + 1) s a = .ok s' →
      Confined s s' pt (if doFree then frames s.mem pt (a.toNat / 4096) n else []) ∧
        ∀ p, p.length ≤ 2 → pageAt s'.mem pt p = pageAt s.mem pt p := by
  induction n with
  | zero =>
    intro s s' a _ _ hs _ h
    have : ¬ a < stop := fun h => by
      have := UInt64.lt_iff_toNat_lt.1 h
      omega
    rw [uvmunmapLoop, if_neg this] at h
    obtain rfl := Except.ok.inj h
    exact ⟨by simpa [frames] using Confined.refl s pt, fun _ _ => rfl⟩
  | succ n ih =>
    intro s s' a hwf hal hs hU h
    have hstop' : stop.toNat ≤ 2 ^ 38 := by rw [← MAXVA_toNat]; exact hstop
    have hlt : a < stop := UInt64.lt_iff_toNat_lt.2 (by omega)
    have ha : a < MAXVA := UInt64.lt_iff_toNat_lt.2 (by rw [MAXVA_toNat]; omega)
    have hnext : (a + PGSIZE).toNat = a.toNat + 4096 := by
      rw [UInt64.toNat_add, PGSIZE_toNat]
      omega
    have hv1 : (a + PGSIZE).toNat / 4096 = a.toNat / 4096 + 1 := by omega
    obtain ⟨e, s2, he, hloop, hwf2, -, hc2, -, habs2, hU2, htab2⟩ := uvmunmap_pass (n + 1) hwf hlt ha hU
    rw [hloop] at h
    obtain ⟨hc', htab'⟩ := ih s2 s' (a + PGSIZE) hwf2 (by omega) (by omega) (by rw [hv1]; exact hU2) h
    -- the frames of the rest are those of `s`: the pass changed the map at the first page only
    have hvals : frames s2.mem pt (a.toNat / 4096 + 1) n = frames s.mem pt (a.toNat / 4096 + 1) n := by
      unfold frames
      rw [values_congr fun x hx _ => by rw [habs2, Function.update_of_ne (by omega)]]
    rw [hv1, hvals] at hc'
    have := hc2.trans hc'
    refine ⟨?_, fun p hp => by rw [htab' p hp, htab2 p hp]⟩
    rw [frames_succ he]
    cases doFree <;> simpa using this

/-- `uvmunmap` of unmappable pages is confined to their frames (with `do_free`) and keeps
every table. -/
theorem uvmunmap_frame {va npages : UInt64} {s' : VM} (hwf : WF s pt)
    (hva : va.toNat % 4096 = 0) (hrange : va.toNat + npages.toNat * 4096 ≤ MAXVA.toNat)
    (hU : Unmappable s pt (va.toNat / 4096) npages.toNat doFree)
    (h : uvmunmap s pt va npages doFree = .ok s') :
    Confined s s' pt (if doFree then frames s.mem pt (va.toNat / 4096) npages.toNat else []) ∧
      ∀ p, p.length ≤ 2 → pageAt s'.mem pt p = pageAt s.mem pt p := by
  rw [MAXVA_toNat] at hrange
  have hal : ¬ va % PGSIZE ≠ 0 := by
    rw [not_not, ← UInt64.toNat_inj, UInt64.toNat_mod, PGSIZE_toNat, hva]
    rfl
  have hstop : (va + npages * PGSIZE).toNat = va.toNat + npages.toNat * 4096 := by
    rw [UInt64.toNat_add, UInt64.toNat_mul, PGSIZE_toNat]
    omega
  rw [uvmunmap, if_neg hal] at h
  exact uvmunmapLoop_frame (UInt64.le_iff_toNat_le.2 (by rw [hstop, MAXVA_toNat]; omega))
    npages.toNat s s' va hwf hva hstop hU h

theorem mem_frames {m : UInt64 → Fin 512 → UInt64} {v n x : Nat} {e : UInt64 × UInt64}
    (he : absMap m pt x = some e) (hx : v ≤ x) (hx' : x < v + n) : e.1 ∈ frames m pt v n :=
  List.mem_map_of_mem (mem_values.2 ⟨x, hx, hx', he⟩)

theorem exists_of_mem_frames {m : UInt64 → Fin 512 → UInt64} {v n : Nat} {q : UInt64}
    (hq : q ∈ frames m pt v n) : ∃ x fl, v ≤ x ∧ x < v + n ∧ absMap m pt x = some (q, fl) := by
  obtain ⟨⟨q', fl⟩, he, rfl⟩ := List.mem_map.1 hq
  obtain ⟨x, hx, hx', hm⟩ := mem_values.1 he
  exact ⟨x, fl, hx, hx', hm⟩

theorem uvmunmap_confined {va npages : UInt64} {s' : VM} (hwf : WF s pt)
    (hva : va.toNat % 4096 = 0) (hrange : va.toNat + npages.toNat * 4096 ≤ MAXVA.toNat)
    (hU : Unmappable s pt (va.toNat / 4096) npages.toNat doFree)
    (h : uvmunmap s pt va npages doFree = .ok s') :
    Confined s s' pt (if doFree then frames s.mem pt (va.toNat / 4096) npages.toNat else []) :=
  (uvmunmap_frame hwf hva hrange hU h).1

theorem uvmunmap_kept {va npages : UInt64} {s' : VM} (hwf : WF s pt)
    (hva : va.toNat % 4096 = 0) (hrange : va.toNat + npages.toNat * 4096 ≤ MAXVA.toNat)
    (hU : Unmappable s pt (va.toNat / 4096) npages.toNat true)
    (h : uvmunmap s pt va npages true = .ok s') : Kept s s' pt := by
  obtain ⟨s1, hun, -, -, habs, hfl⟩ := uvmunmap_spec hwf hva hrange hU
  rw [h] at hun
  obtain rfl := Except.ok.inj hun
  have htab := (uvmunmap_frame hwf hva hrange hU h).2
  simp only [if_true] at hfl
  refine Kept.of (fun q hq => .inl (by rw [hfl]; exact List.mem_append_right _ hq))
    (fun a q ha hq => by rwa [htab a ha]) (fun x q fl hx hq => ?_)
  by_cases hin : va.toNat / 4096 ≤ x ∧ x < va.toNat / 4096 + npages.toNat
  · -- an unmapped page: its frame is freed
    refine .inl ?_
    rw [hfl, List.mem_append, List.mem_reverse]
    exact .inl (mem_frames hq hin.1 hin.2)
  · refine .inr (.inr ⟨x, fl, hx, ?_⟩)
    rw [habs, clearRange, if_neg hin]
    exact hq

end Unmap

end Xv6
