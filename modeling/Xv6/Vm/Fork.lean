import Xv6.Vm.Sbrk
import Xv6.Lib.Outcome

/-!
# `uvmcopy`: a child's memory copied from its parent's

`uvmcopy` of `kernel/vm.c` (lines 299-333), by which `fork` copies the parent's `p->sz`
bytes into the child's new table.  Each page of the parent is found with `walk`, a fresh
page is taken with `kalloc`, filled by `memmove` from the parent's frame and mapped in the
child's table with the parent's flags; when memory runs out, the child's pages mapped so far
are unmapped and freed.

The parent's table `old` and the child's `new` are in one memory, `Apart`: no table of
`new` is a table of `old` or one of its frames.  What `uvmcopy` changes is `Confined` to
`new`'s tables and free pages, so the parent's tables and frames, being neither, keep their
contents and the parent keeps its image (`parent_keep`).  The loop's invariant (`Copied`)
says that the child's pages below `k` map pages that were free, hold what the parent's
frames hold, and carry the parent's flags.  On success the child's image is the parent's
and the child's frames are none of the parent's; on failure the child maps nothing below
`TRAPFRAME` again (`uvmcopy_spec`).
-/

namespace Xv6

open Span

/-- The loop of `uvmcopy` from `i` while `i < sz`. -/
def uvmcopyLoop (old new sz : UInt64) : Nat → VM → UInt64 → Except String (VM × Int)
  | 0, _, _ => .error "uvmcopy: fuel"
  | fuel + 1, s, i =>
    if i < sz then
      match walk s old i false with
      | .error e => .error e
      | .ok (_, none) => .error "uvmcopy: pte should exist"
      | .ok (s, some (t, j)) =>
        if s.mem t j &&& PTE_V = 0 then .error "uvmcopy: page not present"
        else
          let pa := PTE2PA (s.mem t j)
          let flags := PTE_FLAGS (s.mem t j)
          match kalloc s with
          | none => (uvmunmap s new 0 (i / PGSIZE) true).map fun s => (s, -1)
          | some (mem, s) =>
            match mappages (s.setPage mem (s.mem pa)) new i PGSIZE mem flags with
            | .error e => .error e
            | .ok (s, r) =>
              if r ≠ 0 then
                match kfree s mem with
                | .error e => .error e
                | .ok s => (uvmunmap s new 0 (i / PGSIZE) true).map fun s => (s, -1)
              else uvmcopyLoop old new sz fuel s (i + PGSIZE)
    else .ok (s, 0)

/-- `uvmcopy(old, new, sz)`: `0`, or `-1` when memory ran out.  The loop passes once for each
page below `sz` and once more. -/
def uvmcopy (s : VM) (old new sz : UInt64) : Except String (VM × Int) :=
  uvmcopyLoop old new sz ((sz.toNat + 4095) / 4096 + 1) s 0

/-- No table of `new` is a table of `old` or a frame of its first `K` pages. -/
def Apart (s : VM) (old new : UInt64) (K : Nat) : Prop :=
  ∀ a q, a.length ≤ 2 → pageAt s.mem new a = some q →
    (∀ b, b.length ≤ 2 → pageAt s.mem old b ≠ some q) ∧ q ∉ frames s.mem old 0 K

/-- What `uvmcopy`'s loop has done when it reaches page `k`: the child's pages below `k` map
pages that were free in `s₀`, hold what the parent's frames held and carry the parent's
flags; only the child's tables and free pages changed. -/
structure Copied (s₀ s : VM) (old new : UInt64) (k : Nat) : Prop where
  map : UserMap s new k
  kend : s.kend = s₀.kend
  conf : Confined s₀ s new []
  copy : ∀ x, x < k → ∃ q q' fl, absMap s₀.mem old x = some (q, fl) ∧
    absMap s.mem new x = some (q', fl) ∧ q' ∈ s₀.freelist ∧ s.mem q' = s₀.mem q

section Parent

variable {s₀ s : VM} {old new : UInt64} {K : Nat}

theorem PTE_FLAGS_or_V {pte : UInt64} (h : pte &&& PTE_V ≠ 0) : PTE_FLAGS pte ||| PTE_V = PTE_FLAGS pte := by
  have hodd : pte.toNat % 2 = 1 := by
    have : (pte &&& PTE_V).toNat ≠ 0 := fun h' => h (UInt64.toNat_inj.1 (by simpa using h'))
    rw [UInt64.toNat_and, show PTE_V.toNat = 1 from rfl, Nat.and_one_is_mod] at this
    omega
  apply UInt64.toNat_inj.1
  rw [UInt64.toNat_or, PTE_FLAGS_toNat, show PTE_V.toNat = 1 from rfl]
  -- bit 0 is set on both sides; the others are those of the flags
  apply Nat.eq_of_testBit_eq
  intro j
  rw [Nat.testBit_or]
  cases j with
  | zero =>
    simp [Nat.testBit_zero]
    omega
  | succ j => simp [Nat.testBit_succ]

/-- A tree whose tables keep their contents stays well formed under a free list of distinct
pages that `kfree` accepts and that are none of its tables. -/
theorem WF.of_fresh (hwf : WF s₀ old)
    (htab : ∀ b q, b.length ≤ 2 → pageAt s₀.mem old b = some q → s.mem q = s₀.mem q)
    (hkend : s.kend = s₀.kend) (hnd : s.freelist.Nodup)
    (hfresh : ∀ q ∈ s.freelist, pageOk s.kend q ∧ ∀ a, a.length ≤ 2 → pageAt s₀.mem old a ≠ some q) :
    WF s old := by
  have hpage : ∀ b, b.length ≤ 2 → pageAt s.mem old b = pageAt s₀.mem old b :=
    pageAt_of_agree fun pre c hpre hc => htab pre c (by omega) hc
  refine ⟨fun a t ha ht j hv => ?_, fun j hj => ?_, fun a b q ha hb => ?_, fun q hq a ha => ?_,
    hnd, fun q hq => (hfresh q hq).1, fun a q ha hq => ?_⟩
  · rw [hpage a (by omega)] at ht
    rw [htab a t (by omega) ht] at hv ⊢
    exact hwf.dir a t ha ht j hv
  · rw [htab [] old (by simp) rfl]
    exact hwf.top j hj
  · rw [hpage a ha, hpage b hb]
    exact hwf.inj a b q ha hb
  · rw [hpage a ha]
    exact (hfresh q hq).2 a ha
  · rw [hpage a ha] at hq
    rw [hkend]
    exact hwf.tableOk a q ha hq

theorem WF.of_tables (hwf : WF s₀ old)
    (htab : ∀ b q, b.length ≤ 2 → pageAt s₀.mem old b = some q → s.mem q = s₀.mem q)
    (hkend : s.kend = s₀.kend) (hnd : s.freelist.Nodup) (hfl : ∀ q ∈ s.freelist, q ∈ s₀.freelist) :
    WF s old :=
  hwf.of_fresh htab hkend hnd fun q hq =>
    ⟨by rw [hkend]; exact hwf.freeOk q (hfl q hq), hwf.fresh q (hfl q hq)⟩

/-- A user map whose tables keep their contents stays one, with the same map, under a free
list of distinct pages that `kfree` accepts and that are none of its tables or frames. -/
theorem UserMap.of_fresh (h : UserMap s₀ old K)
    (htab : ∀ b q, b.length ≤ 2 → pageAt s₀.mem old b = some q → s.mem q = s₀.mem q)
    (hkend : s.kend = s₀.kend) (hnd : s.freelist.Nodup)
    (hfresh : ∀ q ∈ s.freelist, pageOk s.kend q ∧
      (∀ a, a.length ≤ 2 → pageAt s₀.mem old a ≠ some q) ∧ q ∉ frames s₀.mem old 0 K) :
    UserMap s old K ∧ absMap s.mem old = absMap s₀.mem old := by
  have hwf := h.wf.of_fresh htab hkend hnd fun q hq => ⟨(hfresh q hq).1, (hfresh q hq).2.1⟩
  have hpage : ∀ b, b.length ≤ 2 → pageAt s.mem old b = pageAt s₀.mem old b :=
    pageAt_of_agree fun pre c hpre hc => htab pre c (by omega) hc
  have habs : absMap s.mem old = absMap s₀.mem old := absMap_of_agree htab
  have hvals : frames s.mem old 0 K = frames s₀.mem old 0 K := by
    unfold frames
    rw [habs]
  refine ⟨⟨hwf, ⟨fun x hx hx' => ?_, fun _ => ?_, fun _ q hq => ?_⟩, fun v hv hv' => ?_⟩, habs⟩
  · rw [habs]
    exact h.pages.leaf x hx hx'
  · rw [hvals]
    exact h.pages.nodup rfl
  · rw [hvals] at hq
    obtain ⟨hok, -, hnt⟩ := h.pages.frame rfl q hq
    refine ⟨hkend ▸ hok, fun hf => (hfresh q hf).2.2 hq, fun a ha => ?_⟩
    rw [hpage a ha]
    exact hnt a ha
  · rw [habs]
    exact h.above v hv hv'

theorem UserMap.of_tables (h : UserMap s₀ old K)
    (htab : ∀ b q, b.length ≤ 2 → pageAt s₀.mem old b = some q → s.mem q = s₀.mem q)
    (hkend : s.kend = s₀.kend) (hnd : s.freelist.Nodup) (hfl : ∀ q ∈ s.freelist, q ∈ s₀.freelist) :
    UserMap s old K ∧ absMap s.mem old = absMap s₀.mem old :=
  h.of_fresh htab hkend hnd fun q hq => ⟨by rw [hkend]; exact h.wf.freeOk q (hfl q hq),
    h.wf.fresh q (hfl q hq), fun hfr => (h.pages.frame rfl q hfr).2.1 (hfl q hq)⟩

/-- A change confined to `new`'s tables and free pages leaves the parent as it was: its
tables and frames keep their contents, so its tree, map and user map stay. -/
theorem parent_keep (h : UserMap s₀ old K) (hap : Apart s₀ old new K) (hc : Confined s₀ s new [])
    (hkend : s.kend = s₀.kend) (hnd : s.freelist.Nodup) :
    UserMap s old K ∧ absMap s.mem old = absMap s₀.mem old ∧
      ∀ q ∈ frames s₀.mem old 0 K, s.mem q = s₀.mem q := by
  have hfl : ∀ q ∈ s.freelist, q ∈ s₀.freelist := fun q hq =>
    (hc.free q hq).resolve_right List.not_mem_nil
  -- the parent's tables and frames are neither free nor tables of the child
  have htab : ∀ b q, b.length ≤ 2 → pageAt s₀.mem old b = some q → s.mem q = s₀.mem q :=
    fun b q hb hq => hc.mem q (fun hf => h.wf.fresh q hf b hb hq) List.not_mem_nil
      fun a ha hn => (hap a q ha hn).1 b hb hq
  have hframe : ∀ q ∈ frames s₀.mem old 0 K, s.mem q = s₀.mem q := fun q hq =>
    hc.mem q (h.pages.frame rfl q hq).2.1 List.not_mem_nil fun a ha hn => (hap a q ha hn).2 hq
  obtain ⟨hu, habs⟩ := h.of_tables htab hkend hnd hfl
  exact ⟨hu, habs, hframe⟩

theorem parent_image (h : UserMap s₀ old K) (hap : Apart s₀ old new K) (hc : Confined s₀ s new [])
    (hkend : s.kend = s₀.kend) (hnd : s.freelist.Nodup) : image s old = image s₀ old := by
  obtain ⟨-, habs, hframe⟩ := parent_keep h hap hc hkend hnd
  funext x
  by_cases hx : x < K
  · obtain ⟨e, he, -⟩ := h.pages.leaf x (Nat.zero_le x) (by omega)
    exact image_keep he (habs ▸ he) (hframe e.1 (mem_frames he (Nat.zero_le x) (by omega)))
  · exact image_none (congrFun habs x) fun hx' => h.above x (by omega) hx'

end Parent

/-! ## The loop -/

section Copy

variable {s₀ s : VM} {old new : UInt64} {K k : Nat}

theorem Copied.start (hnew : UserMap s new 0) : Copied s s old new 0 :=
  ⟨hnew, rfl, Confined.refl s new, fun x hx => absurd hx (Nat.not_lt_zero x)⟩

/-- One pass of `uvmcopy`'s loop at page `k` of the parent, whose entry is `e`: either a fresh
page holding the parent's page is mapped at page `k` of the child with the parent's flags
and the loop goes on, or memory runs out and the loop ends in `uvmunmap` of the child's first
`k` pages, from a state with the child's map and user map of `s`. -/
theorem uvmcopy_pass {sz i : UInt64} {e : UInt64 × UInt64} (fuel : Nat) (hu : UserMap s new k)
    (hi : i.toNat = k * 4096) (hk : k < TRAPFRAME.toNat / 4096) (hlt : i < sz)
    (he : absMap s.mem old k = some e) (hleaf : e.2 ≠ PTE_V) (hpa : e.1 ∉ s.freelist) :
    (∃ s2 mem, uvmcopyLoop old new sz (fuel + 1) s i = uvmcopyLoop old new sz fuel s2 (i + PGSIZE) ∧
      UserMap s2 new (k + 1) ∧ s2.kend = s.kend ∧ Confined s s2 new [] ∧ Kept s s2 new ∧
      mem ∈ s.freelist ∧
      absMap s2.mem new = Function.update (absMap s.mem new) k (some (mem, e.2)) ∧
      s2.mem mem = s.mem e.1) ∨
    (∃ s3, uvmcopyLoop old new sz (fuel + 1) s i =
        (uvmunmap s3 new 0 (i / PGSIZE) true).map (fun s => (s, -1)) ∧
      UserMap s3 new k ∧ s3.kend = s.kend ∧ Confined s s3 new [] ∧ Kept s s3 new ∧
      absMap s3.mem new = absMap s.mem new) := by
  have hk' := hk
  rw [TRAPFRAME_toNat] at hk'
  have hv : i.toNat / 4096 = k := by omega
  have hva : i < MAXVA := UInt64.lt_iff_toNat_lt.2 (by rw [MAXVA_toNat]; omega)
  obtain ⟨-, t, ht, hV, rfl⟩ := absMap_eq_some he
  have hwalk := walk_noalloc s old hva
  rw [hv, ht, Option.map_some] at hwalk
  cases hka : kalloc s with
  | none =>
    refine .inr ⟨s, ?_, hu, rfl, Confined.refl s new, Kept.refl s new, rfl⟩
    rw [uvmcopyLoop, if_pos hlt, hwalk]
    simp [hV, hka]
  | some p =>
    obtain ⟨mem, s1⟩ := p
    have hmemmove : s1.mem (PTE2PA (s.mem t (vidx 0 k))) = s.mem (PTE2PA (s.mem t (vidx 0 k))) := by
      have hne : PTE2PA (s.mem t (vidx 0 k)) ≠ mem := fun h' =>
        hpa (by rw [h', (kalloc_eq_some hka).1]; exact List.mem_cons_self)
      funext j
      rw [(kalloc_eq_some hka).2.2, if_neg hne]
    have hflags := PTE_FLAGS_or_V hV
    obtain ⟨s2, r, hmap, hr⟩ := map_fresh_page (s1.mem (PTE2PA (s.mem t (vidx 0 k)))) hu hi hk
      (show (PTE_FLAGS (s.mem t (vidx 0 k))).toNat < 1024 by rw [PTE_FLAGS_toNat]; omega)
      (by rw [hflags]; exact hleaf) hka
    rw [hflags] at hr
    rcases hr with ⟨rfl, hu2, hk2, hc2, hkp2, hmem, habs2, hz2, -⟩ |
      ⟨hr, s3, hfree, hu3, hk3, hc3, hkp3, habs3⟩
    · refine .inl ⟨s2, mem, ?_, hu2, hk2, hc2, hkp2, hmem, habs2, hz2.trans hmemmove⟩
      rw [uvmcopyLoop, if_pos hlt, hwalk]
      simp [hV, hka, hmap]
    · refine .inr ⟨s3, ?_, hu3, hk3, hc3, hkp3, habs3⟩
      rw [uvmcopyLoop, if_pos hlt, hwalk]
      simp [hV, hka, hmap, hr, hfree]

/-- Out of memory at page `k`: `uvmunmap` of the child's first `k` pages, which were free in
`s₀`, leaves the child mapping nothing below `TRAPFRAME`. -/
theorem uvmcopy_undo {i : UInt64} (hc : Copied s₀ s old new k) (hi : i.toNat = k * 4096)
    (hk : k ≤ TRAPFRAME.toNat / 4096) {s3 : VM} (hu3 : UserMap s3 new k) (hk3 : s3.kend = s.kend)
    (hc3 : Confined s s3 new []) (habs3 : absMap s3.mem new = absMap s.mem new) :
    ∃ s', uvmunmap s3 new 0 (i / PGSIZE) true = .ok s' ∧ UserMap s' new 0 ∧
      Confined s₀ s' new [] ∧ s'.kend = s₀.kend ∧ Kept s3 s' new ∧
      ∀ x, TRAPFRAME.toNat / 4096 ≤ x → absMap s'.mem new x = absMap s3.mem new x := by
  rw [TRAPFRAME_toNat] at hk
  have hdiv : (i / PGSIZE).toNat = k := by
    rw [UInt64.toNat_div, PGSIZE_toNat]
    omega
  have hU : Unmappable s3 new ((0 : UInt64).toNat / 4096) (i / PGSIZE).toNat true := by
    rw [hdiv]
    exact hu3.pages
  have hrange : (0 : UInt64).toNat + (i / PGSIZE).toNat * 4096 ≤ MAXVA.toNat := by
    rw [hdiv, MAXVA_toNat]
    simp only [UInt64.toNat_zero]
    omega
  obtain ⟨s', hun, hwf', hk', habs', -⟩ := uvmunmap_spec hu3.wf rfl hrange hU
  have hcu := uvmunmap_confined hu3.wf rfl hrange hU hun
  simp only [if_true, UInt64.toNat_zero, Nat.zero_div, hdiv] at habs' hcu
  refine ⟨s', hun, hu3.shrink (Nat.zero_le k) hwf' hk' (by rw [Nat.sub_zero]; exact habs')
    (by rw [Nat.sub_zero]; exact hcu), ((hc.conf.trans hc3).trans hcu).absorb fun q hq => ?_,
    hk'.trans (hk3.trans hc.kend), uvmunmap_kept hu3.wf rfl hrange hU hun, fun x hx => ?_⟩
  rotate_left
  · -- the pages unmapped lie below `TRAPFRAME`
    rw [TRAPFRAME_toNat] at hx
    rw [habs', clearRange, if_neg (by omega)]
  -- the frames freed are the copies, which were free in `s₀`
  rw [List.nil_append, List.nil_append] at hq
  obtain ⟨x, fl, -, hx, hq⟩ := exists_of_mem_frames hq
  obtain ⟨q₁, q', fl', -, hq', hfree, -⟩ := hc.copy x (by omega)
  rw [habs3, hq'] at hq
  obtain ⟨rfl, -⟩ := Prod.mk.inj (Option.some.inj hq)
  exact .inl hfree

/-- `uvmcopy`'s loop from page `k` of the parent's `K`, with a pass of fuel for each page left
and one more: it copies every page and returns `0`, or memory runs out and it returns `-1`
with the child mapping nothing below `TRAPFRAME`. -/
theorem uvmcopyLoop_spec {sz : UInt64} (h₀ : UserMap s₀ old K) (hap : Apart s₀ old new K)
    (hK : K = (sz.toNat + 4095) / 4096) (fuel : Nat) :
    ∀ (s : VM) (i : UInt64) (k : Nat), i.toNat = k * 4096 → k ≤ K → K - k < fuel →
      Copied s₀ s old new k → Kept s₀ s new →
      (∀ x, TRAPFRAME.toNat / 4096 ≤ x → absMap s.mem new x = absMap s₀.mem new x) →
      ∃ s' r, uvmcopyLoop old new sz fuel s i = .ok (s', r) ∧ Confined s₀ s' new [] ∧
        s'.kend = s₀.kend ∧ Kept s₀ s' new ∧
        (∀ x, TRAPFRAME.toNat / 4096 ≤ x → absMap s'.mem new x = absMap s₀.mem new x) ∧
        ((r = 0 ∧ Copied s₀ s' old new K) ∨ (r = -1 ∧ UserMap s' new 0)) := by
  have hKt : K ≤ TRAPFRAME.toNat / 4096 := by
    have := h₀.le_pages
    rw [TRAPFRAME_toNat]
    omega
  -- induction on the fuel, one page a pass
  induction fuel with
  | zero =>
    intro s i k _ _ hf _ _ _
    exact absurd hf (Nat.not_lt_zero _)
  | succ fuel ih =>
    intro s i k hi hk hf hc hkp hhi
    by_cases hlt : i < sz
    · have hkK : k < K := by
        have := UInt64.lt_iff_toNat_lt.1 hlt
        omega
      obtain ⟨-, habs, hframe⟩ := parent_keep h₀ hap hc.conf hc.kend hc.map.wf.nodup
      obtain ⟨e, he, hleaf⟩ := h₀.pages.leaf k (Nat.zero_le k) (by omega)
      have hfr : e.1 ∈ frames s₀.mem old 0 K := mem_frames he (Nat.zero_le k) (by omega)
      have hpa : e.1 ∉ s.freelist := fun hf' =>
        (h₀.pages.frame rfl e.1 hfr).2.1 ((hc.conf.free e.1 hf').resolve_right List.not_mem_nil)
      rcases uvmcopy_pass fuel hc.map hi (by omega) hlt (habs ▸ he) hleaf hpa with
        ⟨s2, mem, hloop, hu2, hk2, hc2, hkp2, hmem, habs2, hz2⟩ |
        ⟨s3, hloop, hu3, hk3, hc3, hkp3, habs3⟩
      · -- page `k` copied: the invariant holds at `k + 1`
        have hcop : Copied s₀ s2 old new (k + 1) := by
          refine ⟨hu2, hk2.trans hc.kend, by simpa using hc.conf.trans hc2, fun x hx => ?_⟩
          by_cases hxk : x = k
          · subst hxk
            exact ⟨e.1, mem, e.2, he, by rw [habs2, Function.update_self],
              (hc.conf.free mem hmem).resolve_right List.not_mem_nil,
              hz2.trans (hframe e.1 hfr)⟩
          · obtain ⟨q, q', fl, h1, h2, h3, h4⟩ := hc.copy x (by omega)
            exact ⟨q, q', fl, h1, by rw [habs2, Function.update_of_ne hxk]; exact h2, h3,
              (hc.map.keep_frame hc2 h2 (by omega)).trans h4⟩
        have hnext : (i + PGSIZE).toNat = (k + 1) * 4096 := by
          rw [UInt64.toNat_add, PGSIZE_toNat, TRAPFRAME_toNat] at *
          omega
        obtain ⟨s', r, hrun, hr⟩ := ih s2 (i + PGSIZE) (k + 1) hnext (by omega) (by omega) hcop
          (hkp.trans hkp2) fun x hx => by rw [habs2, Function.update_of_ne (by omega), hhi x hx]
        exact ⟨s', r, by rw [hloop]; exact hrun, hr⟩
      · obtain ⟨s', hun, hu', hc', hk', hkp', hhi'⟩ := uvmcopy_undo hc hi (by omega) hu3 hk3 hc3 habs3
        exact ⟨s', -1, by rw [hloop, hun]; rfl, hc', hk', (hkp.trans hkp3).trans hkp',
          fun x hx => by rw [hhi' x hx, habs3, hhi x hx], .inr ⟨rfl, hu'⟩⟩
    · -- every page is copied
      have hkK : k = K := by
        have := UInt64.le_iff_toNat_le.1 (UInt64.not_lt.1 hlt)
        omega
      subst hkK
      exact ⟨s, 0, by rw [uvmcopyLoop, if_neg hlt], hc.conf, hc.kend, hkp, hhi, .inl ⟨rfl, hc⟩⟩

end Copy

/-! ## `uvmcopy` -/

section Spec

variable {s : VM}

theorem image_eq_of_map {s' : VM} {pt pt' : UInt64} {x : Nat}
    (h : x < TRAPFRAME.toNat / 4096 → (absMap s'.mem pt' x).map (fun e => (e.2, s'.mem e.1)) =
      (absMap s.mem pt x).map fun e => (e.2, s.mem e.1)) :
    image s' pt' x = image s pt x := by
  unfold image
  split
  · rename_i hx
    exact h hx
  · rfl

theorem Copied.image {s₀ : VM} {old new : UInt64} {K : Nat} (hc : Copied s₀ s old new K) (h₀ : UserMap s₀ old K) :
    image s new = image s₀ old := by
  funext x
  refine image_eq_of_map fun hx' => ?_
  by_cases hx : x < K
  · -- a copied page: the parent's flags, and the parent's contents
    obtain ⟨q, q', fl, h1, h2, -, h4⟩ := hc.copy x hx
    rw [h1, h2, Option.map_some, Option.map_some, h4]
  · rw [hc.map.above x (by omega) hx', h₀.above x (by omega) hx', Option.map_none, Option.map_none]

/-- `uvmcopy` of a parent of size `sz` into a child whose table maps nothing below
`TRAPFRAME` and is apart from the parent's: its loop over the parent's pages, with the fuel
`uvmcopy` gives it. -/
theorem uvmcopy_copied {old new sz : UInt64} (h : UserSpace s old sz) (hnew : UserMap s new 0)
    (hap : Apart s old new ((PGROUNDUP sz).toNat / 4096)) :
    ∃ s' r, uvmcopy s old new sz = .ok (s', r) ∧ Confined s s' new [] ∧ s'.kend = s.kend ∧
      Kept s s' new ∧
      (∀ x, TRAPFRAME.toNat / 4096 ≤ x → absMap s'.mem new x = absMap s.mem new x) ∧
      ((r = 0 ∧ Copied s s' old new ((PGROUNDUP sz).toNat / 4096)) ∨ (r = -1 ∧ UserMap s' new 0)) := by
  have hK := pagesOf_eq h.size
  rw [pagesOf] at hK
  obtain ⟨s', r, hrun, hr⟩ := uvmcopyLoop_spec h.map hap hK.symm
    ((PGROUNDUP sz).toNat / 4096 + 1) s 0 0 rfl (Nat.zero_le _) (by omega) (Copied.start hnew)
    (Kept.refl s new) fun _ _ => rfl
  exact ⟨s', r, by rw [uvmcopy, hK]; exact hrun, hr⟩

/-- `uvmcopy` of a parent of size `sz` into a child whose table maps nothing below
`TRAPFRAME` and is apart from the parent's: it does not panic, changes only the child's
tables and free pages, and leaves the parent as it was; it returns `0` with the child's
image the parent's, in frames none of which is the parent's, or `-1` with the child mapping
nothing below `TRAPFRAME` again. -/
theorem uvmcopy_spec {old new sz : UInt64} (h : UserSpace s old sz) (hnew : UserMap s new 0)
    (hap : Apart s old new ((PGROUNDUP sz).toNat / 4096)) :
    ∃ s' r, uvmcopy s old new sz = .ok (s', r) ∧ UserSpace s' old sz ∧
      image s' old = image s old ∧ Confined s s' new [] ∧
      ((r = 0 ∧ UserSpace s' new sz ∧ image s' new = image s old ∧
          ∀ q ∈ frames s'.mem new 0 ((PGROUNDUP sz).toNat / 4096),
            q ∉ frames s'.mem old 0 ((PGROUNDUP sz).toNat / 4096)) ∨
       (r = -1 ∧ UserMap s' new 0)) := by
  obtain ⟨s', r, hrun, hc, hk, -, -, hr⟩ := uvmcopy_copied h hnew hap
  have hnd : s'.freelist.Nodup := by
    rcases hr with ⟨-, hcop⟩ | ⟨-, hu⟩
    · exact hcop.map.wf.nodup
    · exact hu.wf.nodup
  obtain ⟨hpar, habs, -⟩ := parent_keep h.map hap hc hk hnd
  refine ⟨s', r, hrun, ⟨h.size, hpar⟩,
    parent_image h.map hap hc hk hnd, hc, ?_⟩
  rcases hr with ⟨rfl, hcop⟩ | ⟨rfl, hu⟩
  · refine .inl ⟨rfl, ⟨h.size, hcop.map⟩, hcop.image h.map, fun q hq hq' => ?_⟩
    obtain ⟨x, fl, -, hx, hqx⟩ := exists_of_mem_frames hq
    obtain ⟨q₁, q', fl', -, h2, hfree, -⟩ := hcop.copy x (by omega)
    rw [h2] at hqx
    obtain ⟨rfl, -⟩ := Prod.mk.inj (Option.some.inj hqx)
    have hvals : frames s'.mem old 0 ((PGROUNDUP sz).toNat / 4096) =
        frames s.mem old 0 ((PGROUNDUP sz).toNat / 4096) := by
      unfold frames
      rw [habs]
    rw [hvals] at hq'
    exact (h.map.pages.frame rfl q' hq').2.1 hfree
  · exact .inr ⟨rfl, hu⟩

/-- `uvmcreate` takes the first free page `p` for its table and leaves every other
well-formed tree as it was; `p` is none of that tree's tables. -/
theorem uvmcreate_other {pt p p' : UInt64} {rest : List UInt64} {s' : VM} (hwf : WF s pt)
    (hfl : s.freelist = p :: rest) (h : uvmcreate s = (s', p')) :
    p' = p ∧ WF s' pt ∧ absMap s'.mem pt = absMap s.mem pt ∧ Confined s s' pt [] ∧
      ∀ a, a.length ≤ 2 → pageAt s'.mem pt a ≠ some p := by
  have hka : kalloc s = some (p, { s with freelist := rest }.fill p 0x0505050505050505) := by
    simp [kalloc, hfl]
  rw [uvmcreate, hka, VM.fill_eq_setPage] at h
  obtain ⟨rfl, rfl⟩ := Prod.mk.inj h
  obtain ⟨hwf', hc, habs, -, -, -, -, htab⟩ := kalloc_set hwf hka fun _ => 0
  exact ⟨rfl, hwf', habs, hc, htab⟩

/-- Eight free pages above a kernel that ends at `0x80000000`. -/
def eightVM : VM := ⟨fun _ _ => 0, [0x80001000, 0x80002000, 0x80003000, 0x80004000, 0x80005000,
  0x80006000, 0x80007000, 0x80008000], 0x80000000⟩

/-- A parent table `0x80001000` and a child table `0x80002000`, then `sbrk(4096)` by the
parent, which maps a page: the copy of the parent's one page. -/
theorem uvmcopy_spec_page :
    ∃ s2 s3 r0, (uvmcreate (uvmcreate eightVM).1).1 = s2 ∧
      sysSbrk s2 0x80001000 0 4096 = .ok ((s3, 4096), r0) ∧
      UserSpace s3 0x80001000 4096 ∧ UserMap s3 0x80002000 0 ∧
      Apart s3 0x80001000 0x80002000 ((PGROUNDUP 4096).toNat / 4096) ∧
      ∃ s' r, uvmcopy s3 0x80001000 0x80002000 4096 = .ok (s', r) ∧ UserSpace s' 0x80001000 4096 ∧
        image s' 0x80001000 = image s3 0x80001000 ∧ Confined s3 s' 0x80002000 [] ∧
        ((r = 0 ∧ UserSpace s' 0x80002000 4096 ∧ image s' 0x80002000 = image s3 0x80001000 ∧
            ∀ q ∈ frames s'.mem 0x80002000 0 ((PGROUNDUP 4096).toNat / 4096),
              q ∉ frames s'.mem 0x80001000 0 ((PGROUNDUP 4096).toNat / 4096)) ∨
         (r = -1 ∧ UserMap s' 0x80002000 0)) := by
  obtain ⟨s1, hs1, hwf1, hnone1, hfl1⟩ := uvmcreate_wf (s := eightVM) rfl (by decide) fun q hq => by
    simp only [eightVM, List.mem_cons, List.not_mem_nil, or_false] at hq
    rcases hq with rfl | rfl | rfl | rfl | rfl | rfl | rfl | rfl <;> decide
  obtain ⟨s2, hs2, hwf2, hnone2, hfl2⟩ := uvmcreate_wf (s := s1) hfl1 (hfl1 ▸ hwf1.nodup)
    (fun q hq => hwf1.freeOk q hq)
  obtain ⟨-, hwf2', habs2, -, htab2⟩ := uvmcreate_other hwf1 hfl1 hs2
  have hold : UserSpace s2 0x80001000 0 := UserSpace.empty hwf2' fun v => by rw [habs2, hnone1]
  have hnew : UserMap s2 0x80002000 0 := (UserSpace.empty hwf2 hnone2).map
  -- the parent's `sbrk(4096)`, computed once: it maps one page
  have hsb : Outcome.holds (fun r : (VM × UInt64) × Int => r.1.2 == 4096)
      (some (sysSbrk (uvmcreate (uvmcreate eightVM).1).1 0x80001000 0 4096)) = true := by
    decide +kernel
  rw [hs1, hs2] at hsb
  obtain ⟨⟨⟨s3, sz⟩, r0⟩, he, hsz⟩ := Outcome.exists_of_holds hsb
  obtain ⟨s3', sz', r', hrun, hu3, -, hfp⟩ := sysSbrk_step hold 4096
  obtain ⟨⟨rfl, rfl⟩, rfl⟩ := Prod.mk.inj (Except.ok.inj (hrun.symm.trans (Option.some.inj he)))
  obtain rfl : sz = 4096 := beq_iff_eq.1 hsz
  have hroot : (0x80002000 : UInt64) ∉ s2.freelist := by
    rw [hfl2]
    decide
  obtain ⟨hm3, -, htab3⟩ := hfp.conf.keep hroot List.not_mem_nil htab2
  have hz : ∀ i, s2.mem 0x80002000 i = 0 := by
    simp only [uvmcreate, kalloc, hfl1, Prod.mk.injEq] at hs2
    obtain ⟨rfl, -⟩ := hs2
    intro i
    simp [VM.fill_mem]
  obtain ⟨hnew3, -⟩ := hnew.of_tables (s := s3) (fun b q _ hq => by
      obtain ⟨-, rfl⟩ := eq_root_of_zero hz hq
      exact hm3) hfp.kend hu3.map.wf.nodup fun q hq => by
    rcases hfp.conf.free q hq with h | h
    · exact h
    · exact absurd h List.not_mem_nil
  have hap : Apart s3 0x80001000 0x80002000 ((PGROUNDUP 4096).toNat / 4096) := by
    intro a q _ hq
    obtain ⟨-, rfl⟩ := eq_root_of_zero (fun i => by rw [congrFun hm3 i, hz i]) hq
    refine ⟨htab3, fun hfr => ?_⟩
    rcases hfp.origin _ hfr with h | h
    · simp [frames, pagesOf] at h
    · exact hroot h
  exact ⟨s2, s3, r', by rw [hs1, hs2], hrun, hu3, hnew3, hap, uvmcopy_spec hu3 hnew3 hap⟩

end Spec

end Xv6
