import Xv6.Vm.Map
import Xv6.Vm.Free

/-!
# The page-table code refines the abstract map

On a well-formed tree (`WF`), each of `walk`, `mappages`, `uvmunmap`, `walkaddr` and
`freewalk` does to the abstract map `absMap` what its comment in `kernel/vm.c` says
(`Refines`, `pagetable_refines`): the lookup, the insertion of a range of pages, the
removal of a range, the lookup restricted to `PTE_U`, and the freeing of the tables of
an empty tree.  Each part asks what the code needs: addresses below `MAXVA`, flags that
fit the PTE's ten flag bits, and pages to unmap whose flags are more than `PTE_V` (a PTE
with `PTE_V` alone is what the code takes for a table).  A table `uvmcreate` makes is
well formed (`uvmcreate_wf`).
-/

namespace Xv6

open Span

/-- `uvmcreate`: a zeroed page from `kalloc` as an empty table; `0` when there is none. -/
def uvmcreate (s : VM) : VM × UInt64 :=
  match kalloc s with
  | none => (s, 0)
  | some (p, s) => (s.fill p 0, p)

theorem pageAt_of_zero {m : UInt64 → Fin 512 → UInt64} {pt : UInt64} (h : ∀ i, m pt i = 0)
    (path : List (Fin 512)) : pageAt m pt path = if path = [] then some pt else none := by
  cases path with
  | nil => rfl
  | cons i is =>
    have : child m pt i = none := child_eq_none.2 (by rw [h i]; rfl)
    simp [pageAt, this]

theorem eq_root_of_zero {m : UInt64 → Fin 512 → UInt64} {pt : UInt64} (h : ∀ i, m pt i = 0)
    {a : List (Fin 512)} {q : UInt64} (hq : pageAt m pt a = some q) : a = [] ∧ q = pt := by
  rw [pageAt_of_zero h] at hq
  split at hq
  · exact ⟨‹_›, (Option.some.inj hq).symm⟩
  · cases hq

theorem uvmcreate_wf {s : VM} {p : UInt64} {rest : List UInt64} (hfl : s.freelist = p :: rest)
    (hnd : s.freelist.Nodup) (hok : ∀ q ∈ s.freelist, pageOk s.kend q) :
    ∃ s', uvmcreate s = (s', p) ∧ WF s' p ∧ (∀ v, absMap s'.mem p v = none) ∧ s'.freelist = rest := by
  obtain ⟨s', hs'⟩ : ∃ s', s' = (({ s with freelist := rest } : VM).fill p 0x0505050505050505).fill p 0 :=
    ⟨_, rfl⟩
  have hk : uvmcreate s = (s', p) := by simp [uvmcreate, kalloc, hfl, hs']
  have hz : ∀ i, s'.mem p i = 0 := fun i => by simp [hs', VM.fill_mem]
  have hp : p ∈ s.freelist := by rw [hfl]; exact List.mem_cons_self
  have hnd' : p ∉ rest ∧ rest.Nodup := List.nodup_cons.1 (hfl ▸ hnd)
  have hrest : s'.freelist = rest := by rw [hs']; rfl
  have hkend : s'.kend = s.kend := by rw [hs']; rfl
  refine ⟨s', hk, ⟨?_, fun i _ => by rw [hz i]; rfl, ?_, ?_, hrest ▸ hnd'.2, ?_, ?_⟩, ?_, hrest⟩
  · -- dir: the root has no valid entry
    intro a t _ ht i hv
    obtain ⟨-, rfl⟩ := eq_root_of_zero hz ht
    rw [hz i] at hv
    exact absurd rfl hv
  · intro a b q _ _ ha hb
    rw [(eq_root_of_zero hz ha).1, (eq_root_of_zero hz hb).1]
  · intro q hq a _ ha
    obtain ⟨-, rfl⟩ := eq_root_of_zero hz ha
    exact hnd'.1 (hrest ▸ hq)
  · intro q hq
    rw [hkend]
    exact hok q (by rw [hfl]; exact List.mem_cons_of_mem _ (hrest ▸ hq))
  · intro a q _ ha
    obtain ⟨-, rfl⟩ := eq_root_of_zero hz ha
    rw [hkend]
    exact hok q hp
  · -- no level-0 table below the root
    intro v
    unfold absMap leafPte
    split <;> simp [pageAt_of_zero hz]

/-- What the page-table code does to the abstract map of the table `pt` in the state `s`. -/
structure Refines (s : VM) (pt : UInt64) : Prop where
  /-- `walk(pt, va, 0)` returns the level-0 slot of `va` exactly when both tables above it
  exist, and changes nothing. -/
  walk_lookup : ∀ va, va < MAXVA →
    walk s pt va false = .ok (s, (pageAt s.mem pt [vidx 2 (va.toNat / 4096),
      vidx 1 (va.toNat / 4096)]).map fun t => (t, vidx 0 (va.toNat / 4096)))
  /-- `mappages` over unmapped pages below `MAXVA` maps page `k` of the range to the `k`-th
  frame from `PGROUNDDOWN(pa)` with `perm | PTE_V` and nothing else, or returns `-1` with
  the free list empty and a prefix of the range mapped. -/
  mappages_adds : ∀ va size pa perm, size ≠ 0 → va.toNat + size.toNat ≤ MAXVA.toNat →
    perm.toNat < 1024 →
    (∀ k, va.toNat / 4096 ≤ k → k ≤ (va.toNat + size.toNat - 1) / 4096 → absMap s.mem pt k = none) →
    ∃ s' r, mappages s pt va size pa perm = .ok (s', r) ∧ WF s' pt ∧
      ((r = 0 ∧ absMap s'.mem pt = setRange (absMap s.mem pt) (va.toNat / 4096)
          ((va.toNat + size.toNat - 1) / 4096 - va.toNat / 4096 + 1) (pageEntry pa perm)) ∨
       (r = -1 ∧ s'.freelist = [] ∧ ∃ j ≤ (va.toNat + size.toNat - 1) / 4096 - va.toNat / 4096,
          absMap s'.mem pt = setRange (absMap s.mem pt) (va.toNat / 4096) j (pageEntry pa perm)))
  /-- `uvmunmap` of pages mapped by leaves removes exactly them, and with `do_free` frees
  their frames. -/
  uvmunmap_removes : ∀ va npages doFree, va.toNat % 4096 = 0 →
    va.toNat + npages.toNat * 4096 ≤ MAXVA.toNat →
    Unmappable s pt (va.toNat / 4096) npages.toNat doFree →
    ∃ s', uvmunmap s pt va npages doFree = .ok s' ∧ WF s' pt ∧
      absMap s'.mem pt = clearRange (absMap s.mem pt) (va.toNat / 4096) npages.toNat ∧
      s'.freelist = (if doFree then (frames s.mem pt (va.toNat / 4096) npages.toNat).reverse
        else []) ++ s.freelist
  /-- `walkaddr` is the lookup restricted to entries with `PTE_U`. -/
  walkaddr_lookup : ∀ va, walkaddr s pt va =
    if MAXVA ≤ va then 0
    else match absMap s.mem pt (va.toNat / 4096) with
      | some (pa, flags) => if flags &&& PTE_U = 0 then 0 else pa
      | none => 0
  /-- `freewalk` of a table with an empty abstract map frees exactly its table pages, each
  once, and changes no other page. -/
  freewalk_frees : (∀ v, absMap s.mem pt v = none) →
    ∃ s', freewalk 3 s pt = some (.ok s') ∧ ∃ L : List UInt64, L.Nodup ∧
      (∀ q, q ∈ L ↔ ∃ path : List (Fin 512), path.length ≤ 2 ∧ pageAt s.mem pt path = some q) ∧
      s'.freelist = L ++ s.freelist ∧ ∀ q ∉ L, s'.mem q = s.mem q

theorem pagetable_refines {s : VM} {pt : UInt64} (hwf : WF s pt) : Refines s pt where
  walk_lookup _ hva := walk_noalloc s pt hva
  mappages_adds _ _ _ _ hsize hrange hperm hfree := by
    obtain ⟨s', r, h, hwf', -, hr⟩ := mappages_spec hwf hsize hrange hperm hfree
    exact ⟨s', r, h, hwf', hr⟩
  uvmunmap_removes _ _ _ hva hrange hU := by
    obtain ⟨s', h, hwf', -, habs, hfl⟩ := uvmunmap_spec hwf hva hrange hU
    exact ⟨s', h, hwf', habs, hfl⟩
  walkaddr_lookup va := walkaddr_eq s pt va
  freewalk_frees hempty := by
    obtain ⟨s', h, hfl, -, hmem⟩ :=
      freewalk_tables 2 s pt (hwf.noLeaf hempty) hwf.tables_nodup hwf.tables_ok
    refine ⟨s', h, _, List.nodup_reverse.2 hwf.tables_nodup, fun q => ?_, hfl,
      fun q hq => hmem q (by rwa [List.mem_reverse] at hq)⟩
    rw [List.mem_reverse, mem_tables]

theorem pagetable_refines_fresh :
    ∃ s p, uvmcreate ⟨fun _ _ => 0, [0x80001000, 0x80002000], 0x80000000⟩ = (s, p) ∧
      WF s p ∧ Refines s p := by
  obtain ⟨s, hs, hwf, -⟩ := uvmcreate_wf (s := ⟨fun _ _ => 0, [0x80001000, 0x80002000], 0x80000000⟩)
    rfl (by decide) fun q hq => by
      simp only [List.mem_cons, List.not_mem_nil, or_false] at hq
      rcases hq with rfl | rfl <;> decide
  exact ⟨s, _, hs, hwf, pagetable_refines hwf⟩

/-- `mappages` with `perm = 0` maps page 0 of a fresh table with the flags `PTE_V` alone;
`uvmunmap` of that mapped page then panics, taking the leaf for a table. -/
theorem uvmunmap_refuses_mapped_page :
    ∃ s p s1, uvmcreate ⟨fun _ _ => 0, [0x80001000, 0x80002000, 0x80003000], 0x80000000⟩ = (s, p) ∧
      WF s p ∧ mappages s p 0 PGSIZE 0x80004000 0 = .ok (s1, 0) ∧
      absMap s1.mem p 0 = some (0x80004000, PTE_V) ∧
      uvmunmap s1 p 0 1 false = .error "uvmunmap: not a leaf" := by
  obtain ⟨s, hs, hwf, -⟩ := uvmcreate_wf
    (s := ⟨fun _ _ => 0, [0x80001000, 0x80002000, 0x80003000], 0x80000000⟩) rfl (by decide) fun q hq => by
      simp only [List.mem_cons, List.not_mem_nil, or_false] at hq
      rcases hq with rfl | rfl | rfl <;> decide
  -- the table is well formed; the three runs are evaluated
  obtain rfl : s = (uvmcreate ⟨fun _ _ => 0, [0x80001000, 0x80002000, 0x80003000], 0x80000000⟩).1 := by
    rw [hs]
  exact ⟨_, _, _, hs, hwf, rfl, by decide, rfl⟩

end Xv6
