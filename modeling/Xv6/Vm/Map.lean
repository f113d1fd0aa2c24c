import Xv6.Vm.Walk
import Xv6.Lib.Span

/-!
# Mapping and unmapping ranges

`mappages` and `uvmunmap` of `kernel/vm.c` (lines 142-192), each a loop over the pages of
a range.  The C loops have no bound of their own (`for(;;)` until `a == last`, and `a <
va + npages*PGSIZE`); here a `fuel` argument counts their passes, and the callers give
exactly the number of passes the C makes, so the fuel never runs out first.

On a well-formed tree, `mappages` over a range below `MAXVA` none of whose pages is mapped
returns `0` and sets exactly the pages of the range in the abstract map, page `k` to the
`k`-th frame from `PGROUNDDOWN(pa)` with `perm | PTE_V`; or it returns `-1` with the free
list empty and a prefix of the range mapped (`mappages_spec`).  `uvmunmap` over pages that
are mapped by leaves clears exactly those pages and, with `do_free`, pushes their frames
on the free list (`uvmunmap_spec`).  Both keep the tree well formed.
-/

namespace Xv6

open Span

/-! ## `mappages` -/

/-- The loop of `mappages` from page `a`, mapped to `pa`, up to `last`; `fuel` counts its
passes. -/
def mappagesLoop (pt last perm : UInt64) : Nat → VM → UInt64 → UInt64 → Except String (VM × Int)
  | 0, s, _, _ => .ok (s, 0)
  | fuel + 1, s, a, pa =>
    match walk s pt a true with
    | .error e => .error e
    | .ok (s, none) => .ok (s, -1)
    | .ok (s, some (t, i)) =>
      if s.mem t i &&& PTE_V ≠ 0 then .error "mappages: remap"
      else
        let s := s.write t i (PA2PTE pa ||| perm ||| PTE_V)
        if a = last then .ok (s, 0)
        else mappagesLoop pt last perm fuel s (a + PGSIZE) (pa + PGSIZE)

/-- `mappages`: `0` when the range is mapped, `-1` when `walk` could not allocate a table.
The loop passes once per page from `PGROUNDDOWN(va)` to `last`. -/
def mappages (s : VM) (pt va size pa perm : UInt64) : Except String (VM × Int) :=
  if size = 0 then .error "mappages: size"
  else
    let a := PGROUNDDOWN va
    let last := PGROUNDDOWN (va + size - 1)
    mappagesLoop pt last perm (((last - a) / PGSIZE).toNat + 1) s a pa

/-- The frame and flags `mappages` gives the `k`-th page of its range. -/
def pageEntry (pa perm : UInt64) (k : Nat) : UInt64 × UInt64 :=
  (PGROUNDDOWN pa + k.toUInt64 * PGSIZE, perm ||| PTE_V)

theorem pageEntry_zero (pa perm : UInt64) : pageEntry pa perm 0 = (PGROUNDDOWN pa, perm ||| PTE_V) := by
  simp [pageEntry]

theorem pageEntry_next (pa perm : UInt64) :
    pageEntry (pa + PGSIZE) perm = fun k => pageEntry pa perm (k + 1) := by
  funext k
  have h := PGROUNDDOWN_add_pages pa 1
  simp only [Nat.toUInt64_eq, UInt64.ofNat_one, UInt64.one_mul] at h
  simp only [pageEntry, h, Prod.mk.injEq, and_true]
  rw [show (k + 1).toUInt64 = k.toUInt64 + 1 by simp [Nat.toUInt64_eq, UInt64.ofNat_add],
    UInt64.add_mul, UInt64.one_mul, UInt64.add_assoc, UInt64.add_comm PGSIZE]

theorem mappages_pte (pa : UInt64) {perm : UInt64} (hperm : perm.toNat < 1024) :
    (let e := PA2PTE pa ||| perm ||| PTE_V
     if e &&& PTE_V = 0 then none else some (PTE2PA e, PTE_FLAGS e)) =
      some (pageEntry pa perm 0) := by
  have hf : (perm ||| PTE_V).toNat < 1024 := by
    rw [UInt64.toNat_or]
    exact Nat.or_lt_two_pow (n := 10) hperm (by decide)
  simp only
  rw [if_neg (valid_or_V _), UInt64.or_assoc, PTE2PA_PA2PTE_or pa _ hf,
    PTE_FLAGS_PA2PTE_or pa _ hf, pageEntry_zero]

section Pass

variable {s : VM} {pt a perm : UInt64}

/-- One pass of the loop on a free page: `walk` runs the free list dry, or finds or links
the page's level-0 table, whose slot is then free, and the pass maps the page. -/
theorem mappages_pass (pa : UInt64) (hwf : WF s pt) (ha : a < MAXVA) (hperm : perm.toNat < 1024)
    (hfree : absMap s.mem pt (a.toNat / 4096) = none) :
    (∃ s1, walk s pt a true = .ok (s1, none) ∧ WF s1 pt ∧
        absMap s1.mem pt = absMap s.mem pt ∧ s1.kend = s.kend ∧ s1.freelist = []) ∨
    (∃ s1 t, walk s pt a true = .ok (s1, some (t, vidx 0 (a.toNat / 4096))) ∧
        s1.mem t (vidx 0 (a.toNat / 4096)) &&& PTE_V = 0 ∧
        let s2 := s1.write t (vidx 0 (a.toNat / 4096)) (PA2PTE pa ||| perm ||| PTE_V)
        WF s2 pt ∧ s2.kend = s.kend ∧ s2.freelist <:+ s.freelist ∧
        absMap s2.mem pt =
          Function.update (absMap s.mem pt) (a.toNat / 4096) (some (pageEntry pa perm 0))) := by
  have hv := vpn_lt_of_lt_MAXVA ha
  obtain ⟨s1, r, hw, hwf1, habs, hk, hfl, hr⟩ := walk_alloc hwf ha
  rcases hr with ⟨t, rfl, ht⟩ | ⟨rfl, hnil⟩
  · -- the slot is free: the abstract map at the page is still empty
    have hslot : s1.mem t (vidx 0 (a.toNat / 4096)) &&& PTE_V = 0 := by
      have := absMap_of_table hv ht
      rw [habs, hfree] at this
      by_contra hV
      rw [if_neg hV] at this
      cases this
    refine Or.inr ⟨s1, t, hw, hslot, WF.write_leaf hwf1 ht _ _, hk, hfl, ?_⟩
    rw [absMap_write_slot hwf1 hv ht, mappages_pte pa hperm, habs]
  · exact Or.inl ⟨s1, hw, hwf1, habs, hk, hnil⟩

end Pass

theorem mappagesLoop_spec {pt last perm : UInt64} (hperm : perm.toNat < 1024)
    (hlast : last < MAXVA) (n : Nat) :
    ∀ (s : VM) (a pa : UInt64), WF s pt → a.toNat % 4096 = 0 →
      last.toNat = a.toNat + n * 4096 →
      (∀ k ≤ n, absMap s.mem pt (a.toNat / 4096 + k) = none) →
      ∃ s' r, mappagesLoop pt last perm (n + 1) s a pa = .ok (s', r) ∧ WF s' pt ∧
        s'.kend = s.kend ∧ s'.freelist <:+ s.freelist ∧
        ((r = 0 ∧ absMap s'.mem pt =
            setRange (absMap s.mem pt) (a.toNat / 4096) (n + 1) (pageEntry pa perm)) ∨
         (r = -1 ∧ s'.freelist = [] ∧ ∃ j ≤ n,
            absMap s'.mem pt = setRange (absMap s.mem pt) (a.toNat / 4096) j (pageEntry pa perm))) := by
  -- induction on the pages left; each pass maps the first of them
  induction n with
  | zero =>
    intro s a pa hwf _ hl hfree
    have ha : a = last := UInt64.toNat_inj.1 (by omega)
    subst ha
    rcases mappages_pass pa hwf hlast hperm (hfree 0 (le_refl _)) with
      ⟨s1, hw, hwf1, habs, hk, hnil⟩ | ⟨s1, t, hw, hslot, hwf2, hk2, hfl2, habs2⟩
    · refine ⟨s1, -1, by simp [mappagesLoop, hw], hwf1, hk, by simp [hnil],
        Or.inr ⟨rfl, hnil, 0, le_refl _, by simpa using habs⟩⟩
    · refine ⟨_, 0, by simp [mappagesLoop, hw, hslot], hwf2, hk2, hfl2, Or.inl ⟨rfl, ?_⟩⟩
      rw [habs2, setRange_succ, setRange_zero]
  | succ n ih =>
    intro s a pa hwf hal hl hfree
    have hlt : a < last := UInt64.lt_iff_toNat_lt.2 (by omega)
    have hne : a ≠ last := UInt64.ne_of_lt hlt
    have ha : a < MAXVA := UInt64.lt_trans hlt hlast
    have hnext : (a + PGSIZE).toNat = a.toNat + 4096 := by
      have : last.toNat < 2 ^ 38 := by rw [← MAXVA_toNat]; exact hlast
      rw [UInt64.toNat_add, PGSIZE_toNat]
      omega
    have hv : (a + PGSIZE).toNat / 4096 = a.toNat / 4096 + 1 := by omega
    rcases mappages_pass pa hwf ha hperm (by simpa using hfree 0 (by omega)) with
      ⟨s1, hw, hwf1, habs, hk, hnil⟩ | ⟨s1, t, hw, hslot, hwf2, hk2, hfl2, habs2⟩
    · refine ⟨s1, -1, by simp [mappagesLoop, hw], hwf1, hk, by simp [hnil],
        Or.inr ⟨rfl, hnil, 0, by omega, by simpa using habs⟩⟩
    · -- the rest of the range starts one page and one frame on
      have hfree' : ∀ k ≤ n, absMap (s1.write t (vidx 0 (a.toNat / 4096))
          (PA2PTE pa ||| perm ||| PTE_V)).mem pt ((a + PGSIZE).toNat / 4096 + k) = none := by
        intro k hk'
        rw [habs2, hv, Function.update_of_ne (by omega)]
        rw [show a.toNat / 4096 + 1 + k = a.toNat / 4096 + (k + 1) by omega]
        exact hfree (k + 1) (by omega)
      obtain ⟨s', r, hloop, hwf', hk', hfl', hr⟩ :=
        ih _ (a + PGSIZE) (pa + PGSIZE) hwf2 (by omega) (by omega) hfree'
      refine ⟨s', r, ?_, hwf', hk'.trans hk2, hfl'.trans hfl2, ?_⟩
      · rw [mappagesLoop, hw]
        simp only [hslot, ne_eq, not_true_eq_false, if_false, if_neg hne]
        exact hloop
      · rw [habs2, hv, pageEntry_next] at hr
        rcases hr with ⟨rfl, habs'⟩ | ⟨rfl, hnil, j, hj, habs'⟩
        · exact Or.inl ⟨rfl, by rw [habs', ← setRange_succ]⟩
        · exact Or.inr ⟨rfl, hnil, j + 1, by omega, by rw [habs', ← setRange_succ]⟩

/-- `mappages` over a range below `MAXVA` whose pages are all unmapped, with flags that
fit in the PTE's flag bits: it maps the whole range and returns `0`, or it returns `-1`
with the free list empty, having mapped the first `j` pages. -/
theorem mappages_spec {s : VM} {pt va size pa perm : UInt64} (hwf : WF s pt) (hsize : size ≠ 0)
    (hrange : va.toNat + size.toNat ≤ MAXVA.toNat) (hperm : perm.toNat < 1024)
    (hfree : ∀ k, va.toNat / 4096 ≤ k → k ≤ (va.toNat + size.toNat - 1) / 4096 →
      absMap s.mem pt k = none) :
    ∃ s' r, mappages s pt va size pa perm = .ok (s', r) ∧ WF s' pt ∧ s'.kend = s.kend ∧
      ((r = 0 ∧ absMap s'.mem pt = setRange (absMap s.mem pt) (va.toNat / 4096)
          ((va.toNat + size.toNat - 1) / 4096 - va.toNat / 4096 + 1) (pageEntry pa perm)) ∨
       (r = -1 ∧ s'.freelist = [] ∧ ∃ j ≤ (va.toNat + size.toNat - 1) / 4096 - va.toNat / 4096,
          absMap s'.mem pt = setRange (absMap s.mem pt) (va.toNat / 4096) j (pageEntry pa perm))) := by
  have hs : 0 < size.toNat := by
    have : size.toNat ≠ 0 := fun h => hsize (UInt64.toNat_inj.1 h)
    omega
  rw [MAXVA_toNat] at hrange
  have hend : (va + size - 1).toNat = va.toNat + size.toNat - 1 := by
    rw [UInt64.toNat_sub_of_le, UInt64.toNat_add] <;> simp [UInt64.le_iff_toNat_le] <;> omega
  have ha : (PGROUNDDOWN va).toNat = va.toNat / 4096 * 4096 := PGROUNDDOWN_toNat va
  have hl : (PGROUNDDOWN (va + size - 1)).toNat = (va.toNat + size.toNat - 1) / 4096 * 4096 := by
    rw [PGROUNDDOWN_toNat, hend]
  have hfuel : ((PGROUNDDOWN (va + size - 1) - PGROUNDDOWN va) / PGSIZE).toNat =
      (va.toNat + size.toNat - 1) / 4096 - va.toNat / 4096 := by
    rw [UInt64.toNat_div, UInt64.toNat_sub_of_le _ _ (UInt64.le_iff_toNat_le.2 (by
      rw [ha, hl]; exact Nat.mul_le_mul_right _ (Nat.div_le_div_right (by omega)))), ha, hl,
      PGSIZE_toNat, ← Nat.sub_mul, Nat.mul_div_cancel _ (by decide)]
  have hlast : PGROUNDDOWN (va + size - 1) < MAXVA := by
    rw [UInt64.lt_iff_toNat_lt, hl, MAXVA_toNat]
    omega
  have hdiv : (PGROUNDDOWN va).toNat / 4096 = va.toNat / 4096 := by rw [ha]; omega
  obtain ⟨s', r, hloop, hwf', hk', -, hr⟩ :=
    mappagesLoop_spec hperm hlast ((va.toNat + size.toNat - 1) / 4096 - va.toNat / 4096) s
      (PGROUNDDOWN va) pa hwf (by omega)
      (by rw [hl, ha, Nat.sub_mul]; have := Nat.div_le_div_right (c := 4096) (show va.toNat ≤ va.toNat + size.toNat - 1 by omega); omega)
      (fun k hk => hfree _ (by omega) (by omega))
  refine ⟨s', r, ?_, hwf', hk', ?_⟩
  · rw [mappages, if_neg hsize]
    simpa only [hfuel] using hloop
  · rwa [hdiv] at hr

/-! ## `uvmunmap` -/

/-- The loop of `uvmunmap` from page `a` while `a < stop`; `fuel` bounds its passes. -/
def uvmunmapLoop (pt stop : UInt64) (doFree : Bool) : Nat → VM → UInt64 → Except String VM
  | 0, s, _ => .ok s
  | fuel + 1, s, a =>
    if a < stop then
      match walk s pt a false with
      | .error e => .error e
      | .ok (_, none) => .error "uvmunmap: walk"
      | .ok (s, some (t, i)) =>
        if s.mem t i &&& PTE_V = 0 then .error "uvmunmap: not mapped"
        else if PTE_FLAGS (s.mem t i) = PTE_V then .error "uvmunmap: not a leaf"
        else
          match (if doFree then kfree s (PTE2PA (s.mem t i)) else .ok s) with
          | .error e => .error e
          | .ok s => uvmunmapLoop pt stop doFree fuel (s.write t i 0) (a + PGSIZE)
    else .ok s

/-- `uvmunmap`.  From an aligned `va` the loop passes at most `npages` times before `a <
va + npages*PGSIZE` fails. -/
def uvmunmap (s : VM) (pt va npages : UInt64) (doFree : Bool) : Except String VM :=
  if va % PGSIZE ≠ 0 then .error "uvmunmap: not aligned"
  else uvmunmapLoop pt (va + npages * PGSIZE) doFree (npages.toNat + 1) s va

/-- The frames of the `n` mapped pages from `v`, in page order. -/
def frames (m : UInt64 → Fin 512 → UInt64) (pt : UInt64) (v n : Nat) : List UInt64 :=
  (values (absMap m pt) v n).map Prod.fst

/-- What `uvmunmap` asks of the `n` pages from `v`: each is mapped by a leaf, and with
`do_free` their frames are distinct pages `kfree` accepts, none of them free or a table. -/
structure Unmappable (s : VM) (pt : UInt64) (v n : Nat) (doFree : Bool) : Prop where
  leaf : ∀ k, v ≤ k → k < v + n → ∃ e, absMap s.mem pt k = some e ∧ e.2 ≠ PTE_V
  nodup : doFree → (frames s.mem pt v n).Nodup
  frame : doFree → ∀ q ∈ frames s.mem pt v n,
    pageOk s.kend q ∧ q ∉ s.freelist ∧ ∀ a, a.length ≤ 2 → pageAt s.mem pt a ≠ some q

section Unmap

variable {s : VM} {pt : UInt64} {v n : Nat} {doFree : Bool}

theorem frames_succ {m : UInt64 → Fin 512 → UInt64} {e : UInt64 × UInt64}
    (he : absMap m pt v = some e) : frames m pt v (n + 1) = e.1 :: frames m pt (v + 1) n := by
  simp [frames, values_succ, he]

theorem unmap_free (hwf : WF s pt) (hU : Unmappable s pt v (n + 1) doFree)
    {e : UInt64 × UInt64} (he : absMap s.mem pt v = some e) :
    ∃ s1, (if doFree then kfree s e.1 else .ok s) = .ok s1 ∧ WF s1 pt ∧ s1.kend = s.kend ∧
      s1.freelist = (if doFree then [e.1] else []) ++ s.freelist ∧
      (∀ a, a.length ≤ 2 → pageAt s1.mem pt a = pageAt s.mem pt a) ∧
      absMap s1.mem pt = absMap s.mem pt := by
  cases doFree with
  | false => exact ⟨s, rfl, hwf, rfl, rfl, fun _ _ => rfl, rfl⟩
  | true =>
    have hmem : e.1 ∈ frames s.mem pt v (n + 1) := by rw [frames_succ he]; exact List.mem_cons_self
    obtain ⟨hok, hnf, htab⟩ := hU.frame rfl e.1 hmem
    obtain ⟨s1, hk, hfl, hke, hm⟩ := kfree_spec hok
    exact ⟨s1, hk, WF.free hwf hok hnf htab hfl hke hm, hke, hfl,
      pageAt_of_frame htab hm, absMap_of_frame htab hm⟩

theorem Unmappable.next (hU : Unmappable s pt v (n + 1) doFree) {s2 : VM} {e : UInt64 × UInt64}
    (he : absMap s.mem pt v = some e)
    (habs : absMap s2.mem pt = Function.update (absMap s.mem pt) v none)
    (hkend : s2.kend = s.kend) (hfl : s2.freelist = (if doFree then [e.1] else []) ++ s.freelist)
    (htab : ∀ a, a.length ≤ 2 → pageAt s2.mem pt a = pageAt s.mem pt a) :
    Unmappable s2 pt (v + 1) n doFree := by
  have hvals : frames s2.mem pt (v + 1) n = frames s.mem pt (v + 1) n := by
    unfold frames
    rw [values_congr fun x hx _ => by rw [habs, Function.update_of_ne (by omega)]]
  have hcons := frames_succ (n := n) he
  refine ⟨fun k hk hk' => ?_, fun hd => ?_, fun hd q hq => ?_⟩
  · rw [habs, Function.update_of_ne (by omega)]
    exact hU.leaf k (by omega) (by omega)
  · rw [hvals]
    exact (List.nodup_cons.1 (hcons ▸ hU.nodup hd)).2
  · rw [hvals] at hq
    have hq' : q ∈ frames s.mem pt v (n + 1) := by rw [hcons]; exact List.mem_cons_of_mem _ hq
    obtain ⟨hok, hnf, hnt⟩ := hU.frame hd q hq'
    have hqe : q ≠ e.1 := fun h => (List.nodup_cons.1 (hcons ▸ hU.nodup hd)).1 (h ▸ hq)
    refine ⟨hkend ▸ hok, ?_, fun a ha => htab a ha ▸ hnt a ha⟩
    rw [hfl]
    simp [hd, hqe, hnf]

end Unmap

theorem uvmunmapLoop_spec {pt stop : UInt64} {doFree : Bool} (hstop : stop ≤ MAXVA) (n : Nat) :
    ∀ (s : VM) (a : UInt64), WF s pt → a.toNat % 4096 = 0 → stop.toNat = a.toNat + n * 4096 →
      Unmappable s pt (a.toNat / 4096) n doFree →
      ∃ s', uvmunmapLoop pt stop doFree (n + 1) s a = .ok s' ∧ WF s' pt ∧ s'.kend = s.kend ∧
        absMap s'.mem pt = clearRange (absMap s.mem pt) (a.toNat / 4096) n ∧
        s'.freelist =
          (if doFree then (frames s.mem pt (a.toNat / 4096) n).reverse else []) ++ s.freelist := by
  -- induction on the pages left; each pass unmaps the first of them
  induction n with
  | zero =>
    intro s a hwf _ hs _
    have : ¬ a < stop := fun h => by
      have := UInt64.lt_iff_toNat_lt.1 h
      omega
    exact ⟨s, by simp [uvmunmapLoop, this], hwf, rfl, by simp, by simp [frames]⟩
  | succ n ih =>
    intro s a hwf hal hs hU
    have hstop' : stop.toNat ≤ 2 ^ 38 := by rw [← MAXVA_toNat]; exact hstop
    have hlt : a < stop := UInt64.lt_iff_toNat_lt.2 (by omega)
    have ha : a < MAXVA := UInt64.lt_iff_toNat_lt.2 (by rw [MAXVA_toNat]; omega)
    have hv := vpn_lt_of_lt_MAXVA ha
    have hnext : (a + PGSIZE).toNat = a.toNat + 4096 := by
      rw [UInt64.toNat_add, PGSIZE_toNat]
      omega
    obtain ⟨e, he, hflags⟩ := hU.leaf (a.toNat / 4096) (le_refl _) (by omega)
    obtain ⟨-, t, ht, hV, rfl⟩ := absMap_eq_some he
    obtain ⟨s1, hfree, hwf1, hk1, hfl1, htab1, habs1⟩ := unmap_free hwf hU he
    have ht1 : pageAt s1.mem pt [vidx 2 (a.toNat / 4096), vidx 1 (a.toNat / 4096)] = some t := by
      rw [htab1 _ (by simp), ht]
    obtain ⟨s2, hs2⟩ : ∃ s2, s2 = s1.write t (vidx 0 (a.toNat / 4096)) 0 := ⟨_, rfl⟩
    have habs2 : absMap s2.mem pt = Function.update (absMap s.mem pt) (a.toNat / 4096) none := by
      rw [hs2, absMap_write_slot hwf1 hv ht1, habs1, if_pos UInt64.zero_and]
    have htab2 : ∀ p, p.length ≤ 2 → pageAt s2.mem pt p = pageAt s.mem pt p := fun p hp => by
      rw [hs2, pageAt_write_leaf hwf1 ht1 _ _ p hp, htab1 p hp]
    have hfl2 : s2.freelist = s1.freelist := by rw [hs2]; rfl
    have hk2 : s2.kend = s1.kend := by rw [hs2]; rfl
    have hv1 : (a + PGSIZE).toNat / 4096 = a.toNat / 4096 + 1 := by omega
    obtain ⟨s', hloop, hwf', hk', habs', hfl'⟩ :=
      ih s2 (a + PGSIZE) (hs2 ▸ WF.write_leaf hwf1 ht1 _ _) (by omega) (by omega)
        (by rw [hv1]; exact hU.next he habs2 (hk2.trans hk1) (hfl2.trans hfl1) htab2)
    refine ⟨s', ?_, hwf', hk'.trans (hk2.trans hk1), ?_, ?_⟩
    · rw [uvmunmapLoop, if_pos hlt, walk_noalloc s pt ha, ht]
      simp only [Option.map_some, if_neg hV, if_neg hflags, hfree]
      rw [← hs2]
      exact hloop
    · rw [habs', habs2, hv1, clearRange_succ]
    · have hvals : frames s2.mem pt (a.toNat / 4096 + 1) n = frames s.mem pt (a.toNat / 4096 + 1) n := by
        unfold frames
        rw [values_congr fun x hx _ => by rw [habs2, Function.update_of_ne (by omega)]]
      rw [hfl', hv1, hvals, frames_succ he, hfl2, hfl1]
      cases doFree <;> simp

/-- `uvmunmap` of `npages` pages from an aligned `va`, below `MAXVA`, each mapped by a leaf:
it clears exactly those pages, and with `do_free` pushes their frames on the free list. -/
theorem uvmunmap_spec {s : VM} {pt va npages : UInt64} {doFree : Bool} (hwf : WF s pt)
    (hva : va.toNat % 4096 = 0) (hrange : va.toNat + npages.toNat * 4096 ≤ MAXVA.toNat)
    (hU : Unmappable s pt (va.toNat / 4096) npages.toNat doFree) :
    ∃ s', uvmunmap s pt va npages doFree = .ok s' ∧ WF s' pt ∧ s'.kend = s.kend ∧
      absMap s'.mem pt = clearRange (absMap s.mem pt) (va.toNat / 4096) npages.toNat ∧
      s'.freelist = (if doFree then (frames s.mem pt (va.toNat / 4096) npages.toNat).reverse
        else []) ++ s.freelist := by
  rw [MAXVA_toNat] at hrange
  have hal : ¬ va % PGSIZE ≠ 0 := by
    rw [not_not, ← UInt64.toNat_inj, UInt64.toNat_mod, PGSIZE_toNat, hva]
    rfl
  have hstop : (va + npages * PGSIZE).toNat = va.toNat + npages.toNat * 4096 := by
    rw [UInt64.toNat_add, UInt64.toNat_mul, PGSIZE_toNat]
    omega
  obtain ⟨s', hloop, hrest⟩ := @uvmunmapLoop_spec pt _ doFree
    (UInt64.le_iff_toNat_le.2 (by rw [hstop, MAXVA_toNat]; omega)) npages.toNat s va hwf hva hstop hU
  exact ⟨s', by rw [uvmunmap, if_neg hal]; exact hloop, hrest⟩

end Xv6
