import Xv6.Vm.Image

/-!
# A process's table, built and taken down

`proc_pagetable` (`kernel/proc.c` lines 176-202) makes a table that maps the trampoline and
the trapframe at the top of the address space and nothing else, or `0` when memory runs out,
with whatever it took given back.  `proc_freepagetable` (lines 206-212) unmaps those two
pages, which the table does not own, and `uvmfree` frees the user pages and then the tables.

Taking a table down puts every page it holds (`Held`) on the free list, once, and changes no
other page (`Freed`, `procFreepagetable_spec`).  A table built from the free pages of a state
`s₀` (`Drawn`: it holds exactly those pages, and every other page is as in `s₀`) taken down
gives back `s₀`'s free list in another order and `s₀`'s memory outside it (`Restored`).
`Built` is such a table of a process of size `sz`, with the trampoline and the trapframe at
the top; `proc_pagetable` makes one of size `0`, or gives back what it took
(`procPagetable_spec`).
-/

namespace Xv6

open Span

theorem TRAMPOLINE_toNat : TRAMPOLINE.toNat = 2 ^ 38 - 4096 := rfl

/-! ## Taking a table down -/

/-- `s'` is `s` with every page `pt` holds on the free list, each once, and every other page
as it was. -/
structure Freed (s s' : VM) (pt : UInt64) : Prop where
  nodup : s'.freelist.Nodup
  free : ∀ q, q ∈ s'.freelist ↔ Held s pt q
  kend : s'.kend = s.kend
  mem : ∀ q, ¬ Held s pt q → s'.mem q = s.mem q

section Free

variable {s s1 s2 : VM} {pt : UInt64}

theorem Within.freed (hw : Within s s1 pt) (hf : Freed s1 s2 pt) : Freed s s2 pt where
  nodup := hf.nodup
  free q := (hf.free q).trans (hw.held q)
  kend := hf.kend.trans hw.kend
  mem q hq := by rw [hf.mem q fun h => hq ((hw.held q).1 h), hw.mem q hq]

/-- Freeing what `pt` holds keeps a table `t` none of whose tables and frames `pt` holds,
when `kfree` accepts every page `pt` holds: `t` keeps its user map and map, and then holds
what `pt` held and what it owned itself. -/
theorem UserMap.freed {t : UInt64} {k : Nat} (hu : UserMap s t k) (hf : Freed s s1 pt)
    (hok : ∀ q, Held s pt q → pageOk s.kend q)
    (hapart : ∀ q, Held s pt q → q ∉ tables s.mem t 2 ∧ q ∉ frames s.mem t 0 k) :
    UserMap s1 t k ∧ absMap s1.mem t = absMap s.mem t ∧
      ∀ q, Held s1 t q ↔ Held s pt q ∨ (Held s t q ∧ q ∉ s.freelist) := by
  have htab : ∀ b q, b.length ≤ 2 → pageAt s.mem t b = some q → s1.mem q = s.mem q :=
    fun b q hb he => hf.mem q fun h => (hapart q h).1 (mem_tables.2 ⟨b, hb, he⟩)
  obtain ⟨hu1, habs⟩ := hu.of_fresh htab hf.kend hf.nodup fun q hq => by
    have hh := (hf.free q).1 hq
    refine ⟨by rw [hf.kend]; exact hok q hh, fun a ha he => (hapart q hh).1 (mem_tables.2 ⟨a, ha, he⟩),
      (hapart q hh).2⟩
  exact ⟨hu1, habs, fun q => by rw [hu.held_of_same hu1 htab habs, hf.free]⟩

theorem held_of_empty (hempty : ∀ v, absMap s.mem pt v = none) (q : UInt64) :
    Held s pt q ↔ q ∈ tables s.mem pt 2 ∨ q ∈ s.freelist := by
  unfold Held
  simp only [hempty, reduceCtorEq, and_false, exists_false, or_false]
  rw [mem_tables, or_comm]

theorem freewalk_empty (hwf : WF s pt) (hempty : ∀ v, absMap s.mem pt v = none) :
    ∃ s', freewalk 3 s pt = some (.ok s') ∧ Freed s s' pt := by
  obtain ⟨s', hfw, hfl, hk, hmem⟩ :=
    freewalk_tables 2 s pt (hwf.noLeaf hempty) hwf.tables_nodup hwf.tables_ok
  refine ⟨s', hfw, ⟨?_, fun q => ?_, hk, fun q hq => hmem q fun h => hq ?_⟩⟩
  · -- a free page is no table
    rw [hfl]
    refine List.nodup_append.2 ⟨List.nodup_reverse.2 hwf.tables_nodup, hwf.nodup, ?_⟩
    rintro a ha b hb rfl
    obtain ⟨path, hlen, hp⟩ := mem_tables.1 (List.mem_reverse.1 ha)
    exact hwf.fresh a hb path hlen hp
  · rw [hfl, List.mem_append, List.mem_reverse, held_of_empty hempty]
  · exact (held_of_empty hempty q).2 (.inl h)

/-- `uvmfree` of a process of size `sz` whose table maps nothing at or above `TRAPFRAME`:
it frees every page the table holds. -/
theorem uvmfree_spec {sz : UInt64} (hu : UserSpace s pt sz)
    (htop : ∀ x, TRAPFRAME.toNat / 4096 ≤ x → absMap s.mem pt x = none) :
    ∃ s', uvmfree s pt sz = .ok s' ∧ Freed s s' pt := by
  have hk : (PGROUNDUP sz / PGSIZE).toNat = (PGROUNDUP sz).toNat / 4096 := by
    rw [UInt64.toNat_div, PGSIZE_toNat]
  have hkp := hu.map.le_pages
  have hTF := TRAPFRAME_toNat
  by_cases hsz : sz > 0
  · -- the user pages go first, their frames on the free list
    have hrange : (0 : UInt64).toNat + (PGROUNDUP sz / PGSIZE).toNat * 4096 ≤ MAXVA.toNat := by
      rw [hk, MAXVA_toNat, UInt64.toNat_zero]
      omega
    have hU : Unmappable s pt ((0 : UInt64).toNat / 4096) (PGROUNDUP sz / PGSIZE).toNat true := by
      rw [hk]
      exact hu.map.pages
    obtain ⟨s1, hun, hwf1, hk1, habs1, hfl1⟩ := uvmunmap_spec hu.map.wf (by decide) hrange hU
    obtain ⟨hc1, htab1⟩ := uvmunmap_frame hu.map.wf (by decide) hrange hU hun
    simp only [UInt64.toNat_zero, Nat.zero_div, hk, if_true] at habs1 hfl1 hc1
    have hempty : ∀ v, absMap s1.mem pt v = none := by
      intro v
      rw [habs1, clearRange]
      split
      · rfl
      · by_cases hv : v < TRAPFRAME.toNat / 4096
        · exact hu.map.above v (by omega) hv
        · exact htop v (by omega)
    obtain ⟨s2, hfw, hf⟩ := freewalk_empty hwf1 hempty
    have hw : Within s s1 pt := by
      refine ⟨hk1, fun q => ?_, fun q hq => hc1.mem q (fun h => hq ((hu.map.held_iff q).2 (.inl h)))
        (fun h => hq ((hu.map.held_iff q).2 (.inr (.inr h))))
        fun a ha h => hq (.inr (.inl ⟨a, ha, h⟩))⟩
      rw [held_of_empty hempty, hu.map.held_iff, hfl1, List.mem_append, List.mem_reverse, mem_tables,
        mem_tables]
      have htabs : (∃ a : List (Fin 512), a.length ≤ 2 ∧ pageAt s1.mem pt a = some q) ↔
          ∃ a : List (Fin 512), a.length ≤ 2 ∧ pageAt s.mem pt a = some q :=
        exists_congr fun a => and_congr_right fun ha => by rw [htab1 a ha]
      rw [htabs]
      constructor
      · rintro (h | h | h)
        · exact .inr (.inl h)
        · exact .inr (.inr h)
        · exact .inl h
      · rintro (h | h | h)
        · exact .inr (.inr h)
        · exact .inl h
        · exact .inr (.inl h)
    refine ⟨s2, ?_, hw.freed hf⟩
    rw [uvmfree, if_pos hsz, hun]
    show (freewalk 3 s1 pt).getD _ = _
    rw [hfw]
    rfl
  · -- an empty process: its table maps nothing
    obtain rfl : sz = 0 := UInt64.le_zero_iff.1 (UInt64.not_lt.1 hsz)
    have hempty : ∀ v, absMap s.mem pt v = none := by
      intro v
      by_cases hv : v < TRAPFRAME.toNat / 4096
      · exact hu.map.above v (by rw [show (PGROUNDUP 0).toNat / 4096 = 0 by decide]; omega) hv
      · exact htop v (by omega)
    obtain ⟨s', hfw, hf⟩ := freewalk_empty hu.map.wf hempty
    refine ⟨s', ?_, hf⟩
    rw [uvmfree, if_neg hsz]
    show (freewalk 3 s pt).getD _ = _
    rw [hfw]
    rfl

end Free


/-! ## The trampoline and the trapframe -/

/-- The map `proc_pagetable` gives the top of a user address space: the trampoline's page at
`TRAMPOLINE`, readable and executable, and the trapframe's at `TRAPFRAME`, readable and
writable, neither with `PTE_U`. -/
def procTop (trampoline trapframe : UInt64) (x : Nat) : Option (UInt64 × UInt64) :=
  if x = TRAMPOLINE.toNat / 4096 then some (PGROUNDDOWN trampoline, PTE_R ||| PTE_X ||| PTE_V)
  else if x = TRAPFRAME.toNat / 4096 then some (PGROUNDDOWN trapframe, PTE_R ||| PTE_W ||| PTE_V)
  else none

section Top

variable {s : VM} {pt : UInt64}

theorem procTop_trampoline (trampoline trapframe : UInt64) :
    procTop trampoline trapframe (TRAMPOLINE.toNat / 4096) =
      some (PGROUNDDOWN trampoline, PTE_R ||| PTE_X ||| PTE_V) := by
  rw [procTop, if_pos rfl]

theorem procTop_trapframe (trampoline trapframe : UInt64) :
    procTop trampoline trapframe (TRAPFRAME.toNat / 4096) =
      some (PGROUNDDOWN trapframe, PTE_R ||| PTE_W ||| PTE_V) := by
  rw [procTop, if_neg (by rw [TRAMPOLINE_toNat, TRAPFRAME_toNat]; omega), if_pos rfl]

theorem procTop_other {trampoline trapframe : UInt64} {x : Nat} (h1 : x ≠ TRAMPOLINE.toNat / 4096)
    (h2 : x ≠ TRAPFRAME.toNat / 4096) : procTop trampoline trapframe x = none := by
  rw [procTop, if_neg h1, if_neg h2]

theorem procTop_noU {trampoline trapframe : UInt64} {x : Nat} {e : UInt64 × UInt64}
    (h : procTop trampoline trapframe x = some e) : e.2 &&& PTE_U = 0 := by
  unfold procTop at h
  split at h
  · cases h
    exact (by decide : (PTE_R ||| PTE_X ||| PTE_V) &&& PTE_U = 0)
  · split at h
    · cases h
      exact (by decide : (PTE_R ||| PTE_W ||| PTE_V) &&& PTE_U = 0)
    · cases h

theorem unmap_top (va : UInt64) {sz : UInt64} {e : UInt64 × UInt64} (hu : UserSpace s pt sz)
    (hva : va.toNat % 4096 = 0) (hx : TRAPFRAME.toNat ≤ va.toNat)
    (hmax : va.toNat + 4096 ≤ MAXVA.toNat)
    (he : absMap s.mem pt (va.toNat / 4096) = some e) (hleaf : e.2 ≠ PTE_V) :
    ∃ s', uvmunmap s pt va 1 false = .ok s' ∧ UserSpace s' pt sz ∧ Within s s' pt ∧
      absMap s'.mem pt = Function.update (absMap s.mem pt) (va.toNat / 4096) none := by
  have hU : Unmappable s pt (va.toNat / 4096) (1 : UInt64).toNat false :=
    ⟨fun k hk hk' => by
      obtain rfl : k = va.toNat / 4096 := by
        rw [UInt64.toNat_one] at hk'
        omega
      exact ⟨e, he, hleaf⟩, fun h => absurd h Bool.false_ne_true, fun h => absurd h Bool.false_ne_true⟩
  have hrange : va.toNat + (1 : UInt64).toNat * 4096 ≤ MAXVA.toNat := by
    rw [UInt64.toNat_one]
    omega
  obtain ⟨s', hun, hwf', hk', habs', hfl'⟩ := uvmunmap_spec hu.map.wf hva hrange hU
  obtain ⟨hc, htab⟩ := uvmunmap_frame hu.map.wf hva hrange hU hun
  have habs : absMap s'.mem pt = Function.update (absMap s.mem pt) (va.toNat / 4096) none := by
    rw [habs', UInt64.toNat_one, clearRange_succ, clearRange_zero]
  have hfree : s'.freelist = s.freelist := by simpa using hfl'
  have hfr : ∀ x, x < TRAPFRAME.toNat / 4096 → absMap s'.mem pt x = absMap s.mem pt x :=
    fun x hx => by rw [habs, Function.update_of_ne (by omega)]
  rw [if_neg Bool.false_ne_true] at hc
  refine ⟨s', hun, ⟨hu.size, hu.map.congr hwf' hk' hfree htab (fun x hx => by rw [hfr x hx])
    fun x hx => ?_⟩, Within.of_tables hk' hfree htab (fun x hx => by rw [hfr x hx]) hc, habs⟩
  have hkp := hu.map.le_pages
  rw [hfr x (by rw [TRAPFRAME_toNat]; omega)]
  exact hu.map.pages.leaf x (Nat.zero_le x) (by omega)

/-- `proc_freepagetable` of a process of size `sz` whose table maps the trampoline and the
trapframe at the top: it frees every page the table holds, and neither of those two. -/
theorem procFreepagetable_spec {trampoline trapframe sz : UInt64} (hu : UserSpace s pt sz)
    (htop : ∀ x, TRAPFRAME.toNat / 4096 ≤ x → absMap s.mem pt x = procTop trampoline trapframe x) :
    ∃ s', procFreepagetable s pt sz = .ok s' ∧ Freed s s' pt := by
  have hT := TRAMPOLINE_toNat
  have hF := TRAPFRAME_toNat
  obtain ⟨s1, h1, hu1, hw1, habs1⟩ := unmap_top TRAMPOLINE hu (by rw [hT]; norm_num)
    (by omega) (by rw [hT, MAXVA_toNat]; norm_num)
    (by rw [htop _ (by omega), procTop_trampoline]) (by decide : PTE_R ||| PTE_X ||| PTE_V ≠ PTE_V)
  obtain ⟨s2, h2, hu2, hw2, habs2⟩ := unmap_top TRAPFRAME hu1 (by rw [hF]; norm_num) le_rfl
    (by rw [hF, MAXVA_toNat]; norm_num)
    (by rw [habs1, Function.update_of_ne (by omega), htop _ le_rfl, procTop_trapframe])
    (by decide : PTE_R ||| PTE_W ||| PTE_V ≠ PTE_V)
  have htop2 : ∀ x, TRAPFRAME.toNat / 4096 ≤ x → absMap s2.mem pt x = none := by
    intro x hx
    rw [habs2, habs1]
    by_cases h2x : x = TRAPFRAME.toNat / 4096
    · rw [h2x, Function.update_self]
    by_cases h1x : x = TRAMPOLINE.toNat / 4096
    · rw [Function.update_of_ne h2x, h1x, Function.update_self]
    rw [Function.update_of_ne h2x, Function.update_of_ne h1x, htop x hx, procTop_other h1x h2x]
  obtain ⟨s3, h3, hf3⟩ := uvmfree_spec hu2 htop2
  refine ⟨s3, ?_, hw1.freed (hw2.freed hf3)⟩
  simp only [procFreepagetable, h1, h2]
  exact h3

end Top


/-! ## A table built from the free pages -/

/-- The allocator's invariant: distinct free pages that `kfree` accepts, all above page `0`,
which `kalloc` can never return as a page. -/
structure FreeOk (s : VM) : Prop where
  nodup : s.freelist.Nodup
  ok : ∀ q ∈ s.freelist, pageOk s.kend q
  pos : 0 < s.kend

/-- `s` is `s₀` with the same free pages, in some order, and every other page as it was. -/
structure Restored (s₀ s : VM) : Prop where
  perm : s.freelist.Perm s₀.freelist
  kend : s.kend = s₀.kend
  mem : ∀ q, q ∉ s₀.freelist → s.mem q = s₀.mem q

theorem Restored.refl (s : VM) : Restored s s := ⟨List.Perm.refl _, rfl, fun _ _ => rfl⟩

/-- Through `pt`, `s` holds exactly the free pages of `s₀`, and agrees with `s₀` on every
other page. -/
structure Drawn (s₀ s : VM) (pt : UInt64) : Prop where
  kend : s.kend = s₀.kend
  held : ∀ q, Held s pt q ↔ q ∈ s₀.freelist
  mem : ∀ q, q ∉ s₀.freelist → s.mem q = s₀.mem q

/-- The new table `pt` of a process of size `sz`, drawn from the free pages of `s₀`: its
user part, and the trampoline and the trapframe at the top. -/
structure Built (s₀ s : VM) (pt trampoline trapframe sz : UInt64) : Prop where
  space : UserSpace s pt sz
  top : ∀ x, TRAPFRAME.toNat / 4096 ≤ x → absMap s.mem pt x = procTop trampoline trapframe x
  drawn : Drawn s₀ s pt

section Build

variable {s₀ s s' : VM} {pt trampoline trapframe sz : UInt64}

theorem Drawn.within (h : Drawn s₀ s pt) (hw : Within s s' pt) : Drawn s₀ s' pt where
  kend := hw.kend.trans h.kend
  held q := (hw.held q).trans (h.held q)
  mem q hq := by rw [hw.mem q fun hh => hq ((h.held q).1 hh), h.mem q hq]

theorem Drawn.restored (h : Drawn s₀ s pt) (hnd : s₀.freelist.Nodup) (hf : Freed s s' pt) :
    Restored s₀ s' where
  perm := (List.perm_ext_iff_of_nodup hf.nodup hnd).2 fun q => (hf.free q).trans (h.held q)
  kend := hf.kend.trans h.kend
  mem q hq := by rw [hf.mem q fun hh => hq ((h.held q).1 hh), h.mem q hq]

theorem Built.within {sz' : UInt64} (h : Built s₀ s pt trampoline trapframe sz) (hw : Within s s' pt)
    (htop : ∀ x, TRAPFRAME.toNat / 4096 ≤ x → absMap s'.mem pt x = absMap s.mem pt x)
    (hu : UserSpace s' pt sz') : Built s₀ s' pt trampoline trapframe sz' where
  space := hu
  top x hx := (htop x hx).trans (h.top x hx)
  drawn := h.drawn.within hw

theorem Built.written (h : Built s₀ s pt trampoline trapframe sz) (hw : Written s s' pt) :
    Built s₀ s' pt trampoline trapframe sz :=
  h.within hw.within (fun x _ => by rw [hw.map]) ⟨h.space.size, h.space.map.written hw⟩

theorem Built.noU (h : Built s₀ s pt trampoline trapframe sz) :
    ∀ x, TRAPFRAME.toNat / 4096 ≤ x → ∀ e, absMap s.mem pt x = some e → e.2 &&& PTE_U = 0 :=
  fun x hx e he => procTop_noU (by rw [← h.top x hx]; exact he)

theorem Built.restore (h : Built s₀ s pt trampoline trapframe sz) (hnd : s₀.freelist.Nodup) :
    ∃ s', procFreepagetable s pt sz = .ok s' ∧ Restored s₀ s' := by
  obtain ⟨s', hfree, hf⟩ := procFreepagetable_spec h.space h.top
  exact ⟨s', hfree, h.drawn.restored hnd hf⟩

theorem UserSpace.of_top (hwf : WF s pt) (hnone : ∀ v, v < TRAPFRAME.toNat / 4096 → absMap s.mem pt v = none) :
    UserSpace s pt 0 := by
  refine ⟨UInt64.zero_le, ?_⟩
  rw [show (PGROUNDUP 0).toNat / 4096 = 0 by decide]
  exact ⟨hwf, ⟨fun _ _ h => absurd h (Nat.not_lt_zero _), fun _ => by simp [frames],
    fun _ q hq => by simp [frames] at hq⟩, fun v _ hv => hnone v hv⟩

end Build


/-! ## `proc_pagetable` -/

section Create

variable {s : VM} {pt : UInt64}

/-- `mappages` of one unmapped page at or above `TRAPFRAME`: it maps the page and returns
`0`, or memory runs out, it returns `-1` and maps nothing; either way the table holds the
same pages. -/
theorem mappages_top (va pa perm : UInt64) (hwf : WF s pt) (hva : va.toNat % 4096 = 0)
    (hx : TRAPFRAME.toNat ≤ va.toNat) (hmax : va.toNat + 4096 ≤ MAXVA.toNat)
    (hperm : perm.toNat < 1024) (hfree : absMap s.mem pt (va.toNat / 4096) = none) :
    ∃ s' r, mappages s pt va PGSIZE pa perm = .ok (s', r) ∧ WF s' pt ∧ Within s s' pt ∧
      ((r = 0 ∧ absMap s'.mem pt =
          Function.update (absMap s.mem pt) (va.toNat / 4096) (some (PGROUNDDOWN pa, perm ||| PTE_V))) ∨
       (r = -1 ∧ absMap s'.mem pt = absMap s.mem pt)) := by
  have hlast : (va.toNat + PGSIZE.toNat - 1) / 4096 = va.toNat / 4096 := by
    rw [PGSIZE_toNat]
    omega
  obtain ⟨s', r, hm, hwf', hk', hr⟩ := @mappages_spec s pt va PGSIZE pa perm hwf (by decide) (by rw [PGSIZE_toNat]; exact hmax)
    hperm fun k hk hk' => by rw [show k = va.toNat / 4096 by omega]; exact hfree
  rw [hlast, Nat.sub_self, Nat.zero_add] at hr
  -- the map changes at the page of `va` only, which is not a user page
  have hr' : (r = 0 ∧ absMap s'.mem pt =
        Function.update (absMap s.mem pt) (va.toNat / 4096) (some (PGROUNDDOWN pa, perm ||| PTE_V))) ∨
      (r = -1 ∧ absMap s'.mem pt = absMap s.mem pt) := by
    rcases hr with ⟨rfl, habs⟩ | ⟨rfl, -, j, hj, habs⟩
    · refine .inl ⟨rfl, ?_⟩
      rw [habs, setRange_succ, setRange_zero, pageEntry_zero]
    · refine .inr ⟨rfl, ?_⟩
      rw [habs, Nat.le_zero.1 hj, setRange_zero]
  have hbelow : ∀ x, x < TRAPFRAME.toNat / 4096 → absMap s'.mem pt x = absMap s.mem pt x := by
    intro x hx'
    rcases hr' with ⟨-, habs⟩ | ⟨-, habs⟩
    · rw [habs, Function.update_of_ne (by omega)]
    · rw [habs]
  exact ⟨s', r, hm, hwf', Within.of_confined (mappages_confined hwf hm).2
    (fun _ h => absurd h List.not_mem_nil) (mappages_kept hwf hm) hk' fun x q fl hx' he => .inr (.inr ⟨x, fl, hx', by rwa [← hbelow x hx']⟩), hr'⟩

theorem uvmcreate_drawn {p : UInt64} {rest : List UInt64} (hf : FreeOk s) (hfl : s.freelist = p :: rest) :
    ∃ s1, uvmcreate s = (s1, p) ∧ WF s1 p ∧ (∀ v, absMap s1.mem p v = none) ∧ Drawn s s1 p := by
  obtain ⟨s1, hc, hwf, hnone, hrest⟩ := uvmcreate_wf hfl hf.nodup hf.ok
  have hs1 : s1 = (({ s with freelist := rest } : VM).fill p 0x0505050505050505).fill p 0 := by
    simp only [uvmcreate, kalloc, hfl, Prod.mk.injEq] at hc
    exact hc.1.symm
  have hz : ∀ i, s1.mem p i = 0 := fun i => by simp [hs1, VM.fill_mem]
  refine ⟨s1, hc, hwf, hnone, ⟨by rw [hs1]; rfl, fun q => ?_, fun q hq => ?_⟩⟩
  · -- the root is the only table
    rw [held_of_empty hnone, hrest, hfl, List.mem_cons, mem_tables]
    simp only [pageAt_of_zero hz]
    constructor
    · rintro (⟨a, -, ha⟩ | hq)
      · split at ha
        · exact .inl (Option.some.inj ha).symm
        · cases ha
      · exact .inr hq
    · rintro (rfl | hq)
      · exact .inl ⟨[], by simp⟩
      · exact .inr hq
  · have hqp : q ≠ p := fun h => hq (by rw [hfl, h]; exact List.mem_cons_self)
    funext i
    simp [hs1, VM.fill_mem, hqp]


/-- `proc_pagetable` from a sound free list, with the trampoline's and the trapframe's
pages: a table of size `0` drawn from the free pages, with the two at the top, or `0` when
memory runs out, with every page it took given back and no other page changed. -/
theorem procPagetable_spec (hf : FreeOk s) (trampoline trapframe : UInt64) :
    ∃ s' pt, procPagetable s trampoline trapframe = .ok (s', pt) ∧
      (pt = 0 → Restored s s') ∧ (pt ≠ 0 → Built s s' pt trampoline trapframe 0) := by
  have hT := TRAMPOLINE_toNat
  have hF := TRAPFRAME_toNat
  have hM := MAXVA_toNat
  cases hfl : s.freelist with
  | nil =>
    refine ⟨s, 0, ?_, fun _ => Restored.refl s, fun h => absurd rfl h⟩
    simp [procPagetable, uvmcreate, kalloc, hfl]
  | cons p rest =>
    have hp : p ≠ 0 := by
      have := (hf.ok p (by rw [hfl]; exact List.mem_cons_self)).2.1
      rintro rfl
      exact absurd (UInt64.lt_of_lt_of_le hf.pos this) (UInt64.lt_irrefl 0)
    obtain ⟨s1, hc, hwf1, hnone1, hd1⟩ := uvmcreate_drawn hf hfl
    obtain ⟨s2, r1, hm1, hwf2, hw2, hr1⟩ := mappages_top TRAMPOLINE trampoline
      (PTE_R ||| PTE_X) hwf1 (by rw [hT]; norm_num) (by omega) (by rw [hT, hM]; norm_num)
      (by decide) (hnone1 _)
    have hd2 := hd1.within hw2
    rcases hr1 with ⟨rfl, habs2⟩ | ⟨rfl, habs2⟩
    · -- the trampoline is mapped: then the trapframe
      obtain ⟨s3, r2, hm2, hwf3, hw3, hr2⟩ := mappages_top TRAPFRAME trapframe
        (PTE_R ||| PTE_W) hwf2 (by rw [hF]; norm_num) le_rfl (by rw [hF, hM]; norm_num)
        (by decide) (by rw [habs2, Function.update_of_ne (by omega), hnone1])
      have hd3 := hd2.within hw3
      rcases hr2 with ⟨rfl, habs3⟩ | ⟨rfl, habs3⟩
      · -- both mapped: the new table
        refine ⟨s3, p, by simp [procPagetable, hc, hp, hm1, hm2], fun h => absurd h hp,
          fun _ => ⟨UserSpace.of_top hwf3 fun v hv => ?_, fun x hx => ?_, hd3⟩⟩
        · rw [habs3, Function.update_of_ne (by omega), habs2, Function.update_of_ne (by omega), hnone1]
        · rw [habs3, habs2]
          by_cases h2x : x = TRAPFRAME.toNat / 4096
          · rw [h2x, Function.update_self, procTop_trapframe]
          by_cases h1x : x = TRAMPOLINE.toNat / 4096
          · rw [Function.update_of_ne h2x, h1x, Function.update_self, procTop_trampoline]
          rw [Function.update_of_ne h2x, Function.update_of_ne h1x, hnone1, procTop_other h1x h2x]
      · -- no page for the trapframe: unmap the trampoline and free the tables
        have hu3 : UserSpace s3 p 0 := UserSpace.of_top hwf3 fun v hv => by
          rw [habs3, habs2, Function.update_of_ne (by omega), hnone1]
        obtain ⟨s4, hun, hu4, hw4, habs4⟩ := unmap_top TRAMPOLINE hu3 (by rw [hT]; norm_num)
          (by omega) (by rw [hT, hM]; norm_num) (by rw [habs3, habs2, Function.update_self])
          (by decide : (PTE_R ||| PTE_X) ||| PTE_V ≠ PTE_V)
        obtain ⟨s5, hfree, hf5⟩ := uvmfree_spec hu4 fun x _ => by
          rw [habs4, habs3, habs2]
          by_cases h1x : x = TRAMPOLINE.toNat / 4096
          · rw [h1x, Function.update_self]
          · rw [Function.update_of_ne h1x, Function.update_of_ne h1x, hnone1]
        refine ⟨s5, 0, ?_, fun _ => (hd3.within hw4).restored hf.nodup hf5, fun h => absurd rfl h⟩
        simp [procPagetable, hc, hp, hm1, hm2, hun, hfree, Except.map]
    · -- no page for the trampoline: free the tables
      obtain ⟨s3, hfree, hf3⟩ := uvmfree_spec (UserSpace.of_top hwf2 fun v _ => by rw [habs2, hnone1])
        fun x _ => by rw [habs2, hnone1]
      refine ⟨s3, 0, ?_, fun _ => hd2.restored hf.nodup hf3, fun h => absurd rfl h⟩
      simp [procPagetable, hc, hp, hm1, hfree, Except.map]

end Create

end Xv6
