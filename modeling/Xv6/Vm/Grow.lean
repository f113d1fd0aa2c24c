import Xv6.Vm.Confine

/-!
# Growing and shrinking a user address space: `uvmalloc` and `uvmdealloc`

`kernel/vm.c` lines 223-266, over the range operations of `Xv6.Vm.Map` and the relations
`Confined` and `Kept` of `Xv6.Vm.Confine`.

The user part of a process's address space (`UserSpace`) is the pages below
`PGROUNDUP(sz)`, each mapped by a leaf to its own frame, which is neither free nor a
table, and nothing else below `TRAPFRAME`.  Its frames are distinct pages of physical
memory, so `PGROUNDUP(sz)` is at most `PHYSTOP` (`UserSpace.pgroundup_le`), far below
`TRAPFRAME`.  `uvmdealloc` unmaps and frees the pages above the new size
(`uvmdealloc_spec`); `uvmalloc` maps the new pages to zeroed frames off the free list, or
when memory runs out takes back what it mapped and leaves the map as it was
(`uvmalloc_spec`).  Its loop is proved by induction on the fuel, with what it has done so
far (`Grown`) as the invariant, one pass at a time (`uvmalloc_pass`), and its way out
through `uvmdealloc` once (`uvmalloc_undo`).
-/

namespace Xv6

open Span

/-! ## The user part of an address space -/

theorem TRAPFRAME_toNat : TRAPFRAME.toNat = 2 ^ 38 - 8192 := rfl

theorem PHYSTOP_toNat : PHYSTOP.toNat = 4096 * 557056 := rfl

theorem PGROUNDUP_toNat (sz : UInt64) (h : sz.toNat < 2 ^ 63) :
    (PGROUNDUP sz).toNat = (sz.toNat + 4095) / 4096 * 4096 := by
  have hadd : (sz + PGSIZE - 1).toNat = sz.toNat + 4095 := by
    rw [UInt64.toNat_sub_of_le, UInt64.toNat_add] <;>
      simp [UInt64.le_iff_toNat_le, PGSIZE_toNat] <;> omega
  rw [show PGROUNDUP sz = PGROUNDDOWN (sz + PGSIZE - 1) from rfl, PGROUNDDOWN_toNat, hadd]

/-- The user part of an address space of `k` pages: the tree is well formed; the pages
below `k` are mapped by leaves, to distinct frames `kfree` accepts, none of them free or a
table; no other page below `TRAPFRAME` is mapped. -/
structure UserMap (s : VM) (pt : UInt64) (k : Nat) : Prop where
  wf : WF s pt
  pages : Unmappable s pt 0 k true
  above : ∀ v, k ≤ v → v < TRAPFRAME.toNat / 4096 → absMap s.mem pt v = none

/-- The user part of the address space of a process of size `sz` below `TRAPFRAME`: its
pages are those below `PGROUNDUP(sz)`. -/
structure UserSpace (s : VM) (pt sz : UInt64) : Prop where
  size : sz ≤ TRAPFRAME
  map : UserMap s pt ((PGROUNDUP sz).toNat / 4096)

section Space

variable {s s' : VM} {pt : UInt64} {k : Nat}

theorem Unmappable.sub {v n : Nat} (v' n' : Nat) {doFree : Bool} (h : Unmappable s pt v n doFree)
    (hv : v ≤ v') (hn : v' + n' ≤ v + n) : Unmappable s pt v' n' doFree := by
  -- the frames of the inner run sit between those of the two ends of the outer one
  have hsplit : frames s.mem pt v n = frames s.mem pt v (v' - v) ++ frames s.mem pt v' n' ++
      frames s.mem pt (v' + n') (v + n - (v' + n')) := by
    unfold frames
    rw [values_split (M := absMap s.mem pt) hv (by omega),
      values_split (M := absMap s.mem pt) (v := v') (w := v' + n') (by omega) (by omega),
      show v' + n' - v' = n' by omega, show v' + (v + n - v') - (v' + n') = v + n - (v' + n') by omega]
    simp only [List.map_append, List.append_assoc]
  refine ⟨fun x hx hx' => h.leaf x (by omega) (by omega), fun hd => ?_, fun hd q hq => ?_⟩
  · have := h.nodup hd
    rw [hsplit] at this
    exact (List.nodup_append.1 (List.nodup_append.1 this).1).2.1
  · exact h.frame hd q (by rw [hsplit]; simp [hq])

theorem UserMap.length_frames (h : UserMap s pt k) : (frames s.mem pt 0 k).length = k := by
  unfold frames
  rw [List.length_map, length_values fun x _ hx => ?_]
  obtain ⟨e, he, -⟩ := h.pages.leaf x (by omega) (by omega)
  simp [he]

/-- The frames are distinct pages below `PHYSTOP`, so there are at most `PHYSTOP / PGSIZE`
of them. -/
theorem UserMap.le_pages (h : UserMap s pt k) : k ≤ 557056 := by
  rw [← h.length_frames, ← List.length_map (f := UInt64.toNat)]
  refine length_le_of_aligned (d := 4096) ((h.pages.nodup rfl).map_on fun x _ y _ e => UInt64.toNat_inj.1 e)
    fun x hx => ?_
  obtain ⟨q, hq, rfl⟩ := List.mem_map.1 hx
  obtain ⟨⟨hal, -, hlt⟩, -⟩ := h.pages.frame rfl q hq
  refine ⟨?_, by rw [← PHYSTOP_toNat]; exact UInt64.lt_iff_toNat_lt.1 hlt⟩
  rw [← UInt64.toNat_inj, UInt64.toNat_mod, PGSIZE_toNat] at hal
  exact hal

theorem UserSpace.pgroundup_le {sz : UInt64} (h : UserSpace s pt sz) :
    sz.toNat ≤ (PGROUNDUP sz).toNat ∧ (PGROUNDUP sz).toNat ≤ PHYSTOP.toNat := by
  have hsz := UInt64.le_iff_toNat_le.1 h.size
  rw [TRAPFRAME_toNat] at hsz
  have hk := h.map.le_pages
  rw [PGROUNDUP_toNat sz (by omega)] at hk ⊢
  rw [PHYSTOP_toNat]
  omega

theorem WF.take {p : UInt64} (hwf : WF s pt) (hfl : s.freelist = p :: s'.freelist)
    (hkend : s'.kend = s.kend) (hmem : ∀ q, q ≠ p → s'.mem q = s.mem q) : WF s' pt := by
  have htab : ∀ a, a.length ≤ 2 → pageAt s.mem pt a ≠ some p :=
    hwf.fresh p (by rw [hfl]; exact List.mem_cons_self)
  have hpage := pageAt_of_frame htab hmem
  have hnodup := hwf.nodup
  rw [hfl] at hnodup
  refine ⟨fun a t ha ht j hv => ?_, fun j hj => ?_, fun a b q ha hb => ?_, fun q hq a ha => ?_,
    (List.nodup_cons.1 hnodup).2, fun q hq => ?_, fun a q ha hq => ?_⟩
  · rw [hpage a (by omega)] at ht
    have htp : t ≠ p := fun e => htab a (by omega) (e ▸ ht)
    rw [hmem t htp] at hv ⊢
    exact hwf.dir a t ha ht j hv
  · rw [hmem pt fun e => htab [] (by simp) (by rw [e]; rfl)]
    exact hwf.top j hj
  · rw [hpage a ha, hpage b hb]
    exact hwf.inj a b q ha hb
  · rw [hpage a ha]
    exact hwf.fresh q (by rw [hfl]; exact List.mem_cons_of_mem _ hq) a ha
  · rw [hkend]
    exact hwf.freeOk q (by rw [hfl]; exact List.mem_cons_of_mem _ hq)
  · rw [hkend]
    rw [hpage a ha] at hq
    exact hwf.tableOk a q ha hq

/-- A whole page written, as `memset(pa, c, PGSIZE)` and `memmove(pa, src, PGSIZE)` write
it: the page at `pa` set to `c`. -/
def VM.setPage (s : VM) (pa : UInt64) (c : Fin 512 → UInt64) : VM :=
  { s with mem := Function.update s.mem pa c }

@[simp] theorem VM.setPage_freelist (s : VM) (pa : UInt64) (c : Fin 512 → UInt64) :
    (s.setPage pa c).freelist = s.freelist := rfl
@[simp] theorem VM.setPage_kend (s : VM) (pa : UInt64) (c : Fin 512 → UInt64) :
    (s.setPage pa c).kend = s.kend := rfl

@[simp] theorem VM.setPage_mem (s : VM) (pa : UInt64) (c : Fin 512 → UInt64) :
    (s.setPage pa c).mem = Function.update s.mem pa c := rfl

theorem VM.fill_eq_setPage (s : VM) (pa w : UInt64) : s.fill pa w = s.setPage pa fun _ => w := rfl

/-- `mem = kalloc()` and the page then written with `c`: a page off the free list, which
`kfree` accepts and which is no table, now holding `c`; every other page, the tree and its
map are as they were. -/
theorem kalloc_set {mem : UInt64} {s1 : VM} (hwf : WF s pt) (hk : kalloc s = some (mem, s1))
    (c : Fin 512 → UInt64) :
    WF (s1.setPage mem c) pt ∧ Confined s (s1.setPage mem c) pt [] ∧
      absMap (s1.setPage mem c).mem pt = absMap s.mem pt ∧ (s1.setPage mem c).mem mem = c ∧
      (∀ q, q ≠ mem → (s1.setPage mem c).mem q = s.mem q) ∧
      s.freelist = mem :: s1.freelist ∧ pageOk s.kend mem ∧
      ∀ a, a.length ≤ 2 → pageAt (s1.setPage mem c).mem pt a ≠ some mem := by
  obtain ⟨hfl, hkend, hm⟩ := kalloc_eq_some hk
  have hmem' : mem ∈ s.freelist := by rw [hfl]; exact List.mem_cons_self
  have htab := hwf.fresh mem hmem'
  have hmem : ∀ q, q ≠ mem → (s1.setPage mem c).mem q = s.mem q := fun q hq => funext fun j => by
    rw [VM.setPage_mem, Function.update_of_ne hq, hm, if_neg hq]
  refine ⟨hwf.take hfl hkend hmem, ⟨fun q hq _ _ => hmem q fun e => hq (e ▸ hmem'),
    fun a q ha hq => .inl (by rwa [pageAt_of_frame htab hmem a ha] at hq),
    fun q hq => .inl (by rw [hfl]; exact List.mem_cons_of_mem _ hq)⟩,
    absMap_of_frame htab hmem, Function.update_self .., hmem, hfl,
    hwf.freeOk mem hmem', fun a ha => by rw [pageAt_of_frame htab hmem a ha]; exact htab a ha⟩

theorem kalloc_set_held {mem q : UInt64} {s1 : VM} (hwf : WF s pt) (hk : kalloc s = some (mem, s1))
    (c : Fin 512 → UInt64) (hq : Held s pt q) (hne : q ≠ mem) : Held (s1.setPage mem c) pt q := by
  obtain ⟨-, -, habs, -, hmem, hfl, -, -⟩ := kalloc_set hwf hk c
  have htab := hwf.fresh mem (by rw [hfl]; exact List.mem_cons_self)
  rcases hq with hq | ⟨a, ha, hq⟩ | ⟨x, fl, hx, hq⟩
  · rw [hfl] at hq
    exact .inl ((List.mem_cons.1 hq).resolve_left hne)
  · exact .inr (.inl ⟨a, ha, by rwa [pageAt_of_frame htab hmem a ha]⟩)
  · exact .inr (.inr ⟨x, fl, hx, by rw [habs]; exact hq⟩)

/-- Through a confined change that keeps the entries of the pages below `k` and frees none
of their frames, those pages stay unmappable, with their frames and contents. -/
theorem Unmappable.keep {fr : List UInt64} (h : Unmappable s pt 0 k true) (hkend : s'.kend = s.kend)
    (hsame : ∀ x, x < k → absMap s'.mem pt x = absMap s.mem pt x) (hc : Confined s s' pt fr)
    (hfr : ∀ q ∈ frames s.mem pt 0 k, q ∉ fr) :
    Unmappable s' pt 0 k true ∧ frames s'.mem pt 0 k = frames s.mem pt 0 k ∧
      ∀ q ∈ frames s.mem pt 0 k, s'.mem q = s.mem q := by
  have hvals : frames s'.mem pt 0 k = frames s.mem pt 0 k := by
    unfold frames
    rw [values_congr fun x _ hx => hsame x (by omega)]
  have hkeep : ∀ q ∈ frames s.mem pt 0 k, s'.mem q = s.mem q ∧ q ∉ s'.freelist ∧
      ∀ a, a.length ≤ 2 → pageAt s'.mem pt a ≠ some q := fun q hq =>
    hc.keep (h.frame rfl q hq).2.1 (hfr q hq) (h.frame rfl q hq).2.2
  refine ⟨⟨fun x _ hx => ?_, fun _ => ?_, fun _ q hq => ?_⟩, hvals, fun q hq => (hkeep q hq).1⟩
  · rw [hsame x (by omega)]
    exact h.leaf x (by omega) (by omega)
  · rw [hvals]
    exact h.nodup rfl
  · rw [hvals] at hq
    exact ⟨hkend ▸ (h.frame rfl q hq).1, (hkeep q hq).2⟩

/-- What is left of a user map after its pages from `kn` on are unmapped and their frames
freed. -/
theorem UserMap.shrink {ko kn : Nat} (h : UserMap s pt ko) (hkn : kn ≤ ko) (hwf : WF s' pt)
    (hkend : s'.kend = s.kend)
    (habs : absMap s'.mem pt = clearRange (absMap s.mem pt) kn (ko - kn))
    (hc : Confined s s' pt (frames s.mem pt kn (ko - kn))) : UserMap s' pt kn := by
  have hsame : ∀ x, x < kn → absMap s'.mem pt x = absMap s.mem pt x := fun x hx => by
    rw [habs, clearRange, if_neg (by omega)]
  have hsplit : frames s.mem pt 0 ko = frames s.mem pt 0 kn ++ frames s.mem pt kn (ko - kn) := by
    unfold frames
    rw [values_split (Nat.zero_le kn) (by omega), List.map_append]
    congr 3
    omega
  have hnd := h.pages.nodup rfl
  rw [hsplit] at hnd
  refine ⟨hwf, (Unmappable.keep (h.pages.sub 0 kn (le_refl 0) (by omega)) hkend hsame hc fun q hq h' =>
    (List.nodup_append.1 hnd).2.2 q hq q h' rfl).1, fun v hv hv' => ?_⟩
  rw [habs, clearRange]
  split
  · rfl
  · exact h.above v (by omega) hv'

theorem UserMap.keep_frame {x : Nat} {q fl : UInt64} (h : UserMap s pt k) (hc : Confined s s' pt [])
    (hq : absMap s.mem pt x = some (q, fl)) (hx : x < k) : s'.mem q = s.mem q := by
  have hfr := h.pages.frame rfl q (mem_frames hq (Nat.zero_le x) (by omega))
  exact (hc.keep hfr.2.1 List.not_mem_nil hfr.2.2).1

theorem UserMap.confined (h : UserMap s pt k) (hwf : WF s' pt) (hkend : s'.kend = s.kend)
    (habs : absMap s'.mem pt = absMap s.mem pt) (hc : Confined s s' pt []) : UserMap s' pt k :=
  ⟨hwf, (h.pages.keep hkend (fun x _ => by rw [habs]) hc fun _ _ h' => List.not_mem_nil h').1,
    fun v hv hv' => by rw [habs]; exact h.above v hv hv'⟩

theorem UserMap.grow {mem fl : UInt64} (h : UserMap s pt k) (hwf : WF s' pt) (hkend : s'.kend = s.kend)
    (hc : Confined s s' pt []) (habs : absMap s'.mem pt = Function.update (absMap s.mem pt) k (some (mem, fl)))
    (hfl : fl ≠ PTE_V) (hok : pageOk s.kend mem) (hfree : mem ∈ s.freelist) (hnf : mem ∉ s'.freelist)
    (htab : ∀ a, a.length ≤ 2 → pageAt s'.mem pt a ≠ some mem) : UserMap s' pt (k + 1) := by
  have hsame : ∀ x, x < k → absMap s'.mem pt x = absMap s.mem pt x := fun x hx => by
    rw [habs, Function.update_of_ne (by omega)]
  obtain ⟨hU, hvals, -⟩ := h.pages.keep hkend hsame hc fun _ _ h' => List.not_mem_nil h'
  have hk : absMap s'.mem pt k = some (mem, fl) := by rw [habs, Function.update_self]
  -- the frames are those of `s`, then `mem`, which was free in `s` and so no user frame
  have hsplit : frames s'.mem pt 0 (k + 1) = frames s'.mem pt 0 k ++ [mem] := by
    unfold frames
    rw [values_add (M := absMap s'.mem pt) (v := 0) k 1, values_succ, Nat.zero_add, hk]
    simp
  have hnotin : mem ∉ frames s.mem pt 0 k := fun hm => (h.pages.frame rfl mem hm).2.1 hfree
  refine ⟨hwf, ⟨fun x _ hx => ?_, fun _ => ?_, fun _ q hq => ?_⟩, fun v hv hv' => ?_⟩
  · by_cases hxk : x = k
    · exact ⟨_, hxk ▸ hk, hfl⟩
    · rw [hsame x (by omega)]
      exact h.pages.leaf x (by omega) (by omega)
  · rw [hsplit, hvals]
    exact (h.pages.nodup rfl).append (List.nodup_singleton mem) (List.disjoint_singleton.2 hnotin)
  · rw [hsplit, List.mem_append, List.mem_singleton] at hq
    rcases hq with hq | rfl
    · exact hU.frame rfl q hq
    · exact ⟨hkend ▸ hok, hnf, htab⟩
  · rw [habs, Function.update_of_ne (by omega)]
    exact h.above v (by omega) hv'

end Space

/-! ## `uvmdealloc` -/

/-- An `int` read as a `uint64`: itself when it is not negative, else `2 ^ 64` more. -/
theorem Int64.toNat_toUInt64 (x : Int64) :
    (x.toUInt64.toNat : Int) = if 0 ≤ x.toInt then x.toInt else x.toInt + 2 ^ 64 := by
  rw [← Int64.toNat_toBitVec, ← Int64.toInt_toBitVec, BitVec.toInt_eq_toNat_cond]
  have := x.toBitVec.isLt
  split <;> split <;> omega

/-- `uvmdealloc`'s `int npages` holds a page count below `2 ^ 31` unchanged. -/
theorem npages_of_lt {x : UInt64} (h : x.toNat < 2 ^ 31) : x.toUInt32.toInt32.toInt64.toUInt64 = x := by
  apply UInt64.toNat_inj.1
  have h1 := Int64.toNat_toUInt64 x.toUInt32.toInt32.toInt64
  rw [Int32.toInt_toInt64] at h1
  have h2 : x.toUInt32.toInt32.toInt = x.toNat := by
    rw [← Int32.toInt_toBitVec, UInt32.toBitVec_toInt32, BitVec.toInt_eq_toNat_cond]
    simp
    omega
  rw [h2, if_pos (by omega)] at h1
  omega

section Dealloc

variable {s : VM} {pt : UInt64}

/-- `uvmdealloc` from a size whose pages are the user map: to a smaller size it unmaps the
pages from `PGROUNDUP(newsz)` to `PGROUNDUP(oldsz)`, frees their frames, and returns
`newsz`; to a size no smaller it changes nothing and returns `oldsz`. -/
theorem uvmdealloc_spec {oldsz : UInt64} (newsz : UInt64) (hold : oldsz ≤ TRAPFRAME)
    (h : UserMap s pt ((PGROUNDUP oldsz).toNat / 4096)) :
    ∃ s', uvmdealloc s pt oldsz newsz = .ok (s', if oldsz ≤ newsz then oldsz else newsz) ∧
      (oldsz ≤ newsz → s' = s) ∧
      (newsz < oldsz → UserMap s' pt ((PGROUNDUP newsz).toNat / 4096) ∧ s'.kend = s.kend ∧
        absMap s'.mem pt = clearRange (absMap s.mem pt) ((PGROUNDUP newsz).toNat / 4096)
          ((PGROUNDUP oldsz).toNat / 4096 - (PGROUNDUP newsz).toNat / 4096) ∧
        Confined s s' pt (frames s.mem pt ((PGROUNDUP newsz).toNat / 4096)
          ((PGROUNDUP oldsz).toNat / 4096 - (PGROUNDUP newsz).toNat / 4096)) ∧
        s'.freelist = (frames s.mem pt ((PGROUNDUP newsz).toNat / 4096)
          ((PGROUNDUP oldsz).toNat / 4096 - (PGROUNDUP newsz).toNat / 4096)).reverse ++
          s.freelist ∧ Kept s s' pt) := by
  by_cases hge : oldsz ≤ newsz
  · refine ⟨s, by simp [uvmdealloc, hge], fun _ => rfl, fun hlt => absurd hge (UInt64.not_le.2 hlt)⟩
  have hlt : newsz < oldsz := UInt64.not_le.1 hge
  have ho := UInt64.le_iff_toNat_le.1 hold
  have hn := UInt64.lt_iff_toNat_lt.1 hlt
  rw [TRAPFRAME_toNat] at ho
  have hpo := PGROUNDUP_toNat oldsz (by omega)
  have hpn := PGROUNDUP_toNat newsz (by omega)
  have hkn : (PGROUNDUP newsz).toNat / 4096 ≤ (PGROUNDUP oldsz).toNat / 4096 := by
    rw [hpo, hpn]
    omega
  by_cases hround : PGROUNDUP newsz < PGROUNDUP oldsz
  · -- the pages between the two rounded sizes go, through `int npages`
    have hnp : ((PGROUNDUP oldsz - PGROUNDUP newsz) / PGSIZE).toNat =
        (PGROUNDUP oldsz).toNat / 4096 - (PGROUNDUP newsz).toNat / 4096 := by
      rw [UInt64.toNat_div, UInt64.toNat_sub_of_le _ _ (UInt64.le_of_lt hround), PGSIZE_toNat,
        hpo, hpn]
      omega
    have hconv := npages_of_lt (x := (PGROUNDUP oldsz - PGROUNDUP newsz) / PGSIZE)
      (by rw [hnp, hpo]; omega)
    have hU := h.pages.sub ((PGROUNDUP newsz).toNat / 4096)
      ((PGROUNDUP oldsz).toNat / 4096 - (PGROUNDUP newsz).toNat / 4096) (Nat.zero_le _)
      (by omega)
    have hal : (PGROUNDUP newsz).toNat % 4096 = 0 := by rw [hpn]; omega
    have hrange : (PGROUNDUP newsz).toNat +
        ((PGROUNDUP oldsz - PGROUNDUP newsz) / PGSIZE).toNat * 4096 ≤ MAXVA.toNat := by
      rw [hnp, MAXVA_toNat, hpn, hpo]
      omega
    rw [← hnp] at hU
    obtain ⟨s', hun, hwf', hk', habs', hfl'⟩ := uvmunmap_spec h.wf hal hrange hU
    have hc := uvmunmap_confined h.wf hal hrange hU hun
    have hkept := uvmunmap_kept h.wf hal hrange hU hun
    simp only [if_true] at hc hfl'
    rw [hnp] at habs' hc hfl'
    refine ⟨s', ?_, fun h' => absurd h' hge,
      fun _ => ⟨h.shrink hkn hwf' hk' habs' hc, hk', habs', hc, hfl', hkept⟩⟩
    rw [uvmdealloc, if_neg (fun h' => hge h'), if_pos hround]
    simp only [hconv, hun, if_neg hge]
    rfl
  · -- the same rounded size: nothing to unmap
    have heq : (PGROUNDUP newsz).toNat = (PGROUNDUP oldsz).toNat := by
      have := UInt64.not_lt.1 hround
      rw [UInt64.le_iff_toNat_le] at this
      omega
    refine ⟨s, by simp [uvmdealloc, hge, hround], fun h' => absurd h' hge, fun _ => ?_⟩
    rw [heq, Nat.sub_self]
    simpa [frames] using ⟨h, Confined.refl s pt, Kept.refl s pt⟩

end Dealloc

/-! ## `uvmalloc` -/

theorem uvmalloc_perm_lt {xperm : UInt64} (h : xperm.toNat < 1024) :
    (PTE_R ||| PTE_U ||| xperm).toNat < 1024 := by
  rw [UInt64.toNat_or, UInt64.toNat_or]
  exact Nat.or_lt_two_pow (n := 10) (Nat.or_lt_two_pow (by decide) (by decide)) h

theorem uvmalloc_leaf (xperm : UInt64) : PTE_R ||| PTE_U ||| xperm ||| PTE_V ≠ PTE_V := by
  intro h
  have hR := congrArg (fun y => (y &&& PTE_R).toNat) h
  simp only [UInt64.toNat_and, UInt64.toNat_or, show PTE_R.toNat = 2 from rfl,
    show PTE_V.toNat = 1 from rfl] at hR
  rw [Nat.and_comm, Nat.and_comm 1] at hR
  simp [Nat.and_or_distrib_left] at hR

theorem PGROUNDUP_of_aligned {a : UInt64} (h : a.toNat % 4096 = 0) (h' : a.toNat < 2 ^ 63) :
    PGROUNDUP a = a := by
  apply UInt64.toNat_inj.1
  rw [PGROUNDUP_toNat a h']
  omega

/-- What `uvmalloc`'s loop has done to `s₀` when it reaches page `k`, having started at page
`ko`: the pages from `ko` to `k` are mapped with `perm` to zeroed frames that were free in
`s₀`, every other entry of the map is as in `s₀`, nothing but tables and free pages
changed, and nothing `s₀` held is lost. -/
structure Grown (s₀ s : VM) (pt : UInt64) (ko k : Nat) (perm : UInt64) : Prop where
  kend : s.kend = s₀.kend
  conf : Confined s₀ s pt []
  kept : Kept s₀ s pt
  outside : ∀ x, (x < ko ∨ k ≤ x) → absMap s.mem pt x = absMap s₀.mem pt x
  inside : ∀ x, ko ≤ x → x < k →
    ∃ q, absMap s.mem pt x = some (q, perm) ∧ q ∈ s₀.freelist ∧ s.mem q = fun _ => 0

section Alloc

variable {s s' s₀ : VM} {pt perm : UInt64} {ko k : Nat}

theorem Grown.refl (s₀ : VM) (pt : UInt64) (ko : Nat) (perm : UInt64) : Grown s₀ s₀ pt ko ko perm :=
  ⟨rfl, Confined.refl s₀ pt, Kept.refl s₀ pt, fun _ _ => rfl, fun _ h h' => absurd h' (by omega)⟩

theorem Grown.confined (h : Grown s₀ s pt ko k perm) (hu : UserMap s pt k) (hkend : s'.kend = s.kend)
    (hc : Confined s s' pt []) (hkept : Kept s s' pt) (habs : absMap s'.mem pt = absMap s.mem pt) :
    Grown s₀ s' pt ko k perm where
  kend := hkend.trans h.kend
  conf := by simpa using h.conf.trans hc
  kept := h.kept.trans hkept
  outside x hx := by rw [habs]; exact h.outside x hx
  inside x hx hx' := by
    obtain ⟨q, hq, hq₀, hz⟩ := h.inside x hx hx'
    exact ⟨q, by rw [habs]; exact hq, hq₀, by rw [hu.keep_frame hc hq hx', hz]⟩

theorem Grown.step {mem : UInt64} (h : Grown s₀ s pt ko k perm) (hk : ko ≤ k) (hu : UserMap s pt k)
    (hkend : s'.kend = s.kend) (hc : Confined s s' pt []) (hkept : Kept s s' pt)
    (hmem : mem ∈ s.freelist)
    (habs : absMap s'.mem pt = Function.update (absMap s.mem pt) k (some (mem, perm)))
    (hzero : s'.mem mem = fun _ => 0) : Grown s₀ s' pt ko (k + 1) perm where
  kend := hkend.trans h.kend
  conf := by simpa using h.conf.trans hc
  kept := h.kept.trans hkept
  outside x hx := by
    rw [habs, Function.update_of_ne (by omega)]
    exact h.outside x (by omega)
  inside x hx hx' := by
    rw [habs]
    by_cases hxk : x = k
    · subst hxk
      exact ⟨mem, Function.update_self .., (h.conf.free mem hmem).resolve_right List.not_mem_nil, hzero⟩
    · -- an earlier page: its frame is a user frame of `s`, which the step leaves alone
      rw [Function.update_of_ne hxk]
      obtain ⟨q, hq, hq₀, hz⟩ := h.inside x hx (by omega)
      exact ⟨q, hq, hq₀, by rw [hu.keep_frame hc hq (by omega), hz]⟩

/-- `uvmalloc`'s way out when memory runs out at page `k`: `uvmdealloc(a, oldsz)` unmaps and
frees the pages mapped since `ko`, which leaves the map of `s₀`. -/
theorem uvmalloc_undo {a o : UInt64} (h₀ : UserMap s₀ pt ko) (h : Grown s₀ s pt ko k perm)
    (hu : UserMap s pt k) (ho : o.toNat = ko * 4096) (ha : a.toNat = k * 4096) (hk : ko ≤ k)
    (hkt : k ≤ TRAPFRAME.toNat / 4096) :
    ∃ s' r, uvmdealloc s pt a o = .ok (s', r) ∧ UserMap s' pt ko ∧
      absMap s'.mem pt = absMap s₀.mem pt ∧ Confined s₀ s' pt [] ∧ Kept s₀ s' pt ∧
      s'.kend = s₀.kend := by
  rw [TRAPFRAME_toNat] at hkt
  have hpa : PGROUNDUP a = a := PGROUNDUP_of_aligned (by omega) (by omega)
  have hpo : PGROUNDUP o = o := PGROUNDUP_of_aligned (by omega) (by omega)
  have hka : a.toNat / 4096 = k := by omega
  have hko : o.toNat / 4096 = ko := by omega
  have hsz : a ≤ TRAPFRAME := UInt64.le_iff_toNat_le.2 (by rw [TRAPFRAME_toNat]; omega)
  obtain ⟨s', hd, hsame, hless⟩ := uvmdealloc_spec o hsz (by rwa [hpa, hka])
  by_cases hle : a ≤ o
  · -- no page was mapped: `uvmdealloc` returns at once
    have hkk : k = ko := by
      have := UInt64.le_iff_toNat_le.1 hle
      omega
    subst hkk
    rw [hsame hle] at hd
    exact ⟨s, _, hd, hu, funext fun x => h.outside x (by omega), h.conf, h.kept, h.kend⟩
  · obtain ⟨hu', hk', habs', hc', -, hkept'⟩ := hless (UInt64.not_le.1 hle)
    rw [hpo, hko] at hu'
    rw [hpa, hpo, hka, hko] at habs' hc'
    refine ⟨s', _, hd, hu', funext fun x => ?_, (h.conf.trans hc').absorb fun q hq => ?_,
      h.kept.trans hkept', hk'.trans h.kend⟩
    · rw [habs', clearRange]
      split
      · -- a page mapped since `ko`, which `s₀` did not map
        exact (h₀.above x (by omega) (by rw [TRAPFRAME_toNat]; omega)).symm
      · exact h.outside x (by omega)
    · -- the frames freed were taken from the free list of `s₀`
      obtain ⟨x, fl, hx, hx', hq⟩ := exists_of_mem_frames (List.mem_append.1 hq |>.resolve_left List.not_mem_nil)
      obtain ⟨q', hq', hq₀, -⟩ := h.inside x hx (by omega)
      rw [hq] at hq'
      obtain ⟨rfl, -⟩ := Prod.mk.inj (Option.some.inj hq')
      exact .inl hq₀

/-- A page off the free list, written with `c` and mapped with `fl` at page `k` just above
the user map: either the user map grows by that page, which holds `c`, or memory runs out for
a table, and once the page is given back the map and the user map are those of `s`. -/
theorem map_fresh_page {a mem fl : UInt64} {s1 : VM} (c : Fin 512 → UInt64) (hu : UserMap s pt k)
    (ha : a.toNat = k * 4096) (hk : k < TRAPFRAME.toNat / 4096) (hfl : fl.toNat < 1024)
    (hleaf : fl ||| PTE_V ≠ PTE_V) (hka : kalloc s = some (mem, s1)) :
    ∃ s2 r, mappages (s1.setPage mem c) pt a PGSIZE mem fl = .ok (s2, r) ∧
      ((r = 0 ∧ UserMap s2 pt (k + 1) ∧ s2.kend = s.kend ∧ Confined s s2 pt [] ∧
          Kept s s2 pt ∧ mem ∈ s.freelist ∧
          absMap s2.mem pt = Function.update (absMap s.mem pt) k (some (mem, fl ||| PTE_V)) ∧
          s2.mem mem = c ∧ s2.freelist.length < s.freelist.length) ∨
       (r ≠ 0 ∧ ∃ s3, kfree s2 mem = .ok s3 ∧ UserMap s3 pt k ∧ s3.kend = s.kend ∧
          Confined s s3 pt [] ∧ Kept s s3 pt ∧ absMap s3.mem pt = absMap s.mem pt)) := by
  rw [TRAPFRAME_toNat] at hk
  obtain ⟨hwf1, hc1, habs1, hz1, -, hfl1, hok, htab1⟩ := kalloc_set hu.wf hka c
  have hmem : mem ∈ s.freelist := by rw [hfl1]; exact List.mem_cons_self
  have hnf1 : mem ∉ s1.freelist := (List.nodup_cons.1 (hfl1 ▸ hu.wf.nodup)).1
  have hk1 : (s1.setPage mem c).kend = s.kend := (kalloc_eq_some hka).2.1
  obtain ⟨s2, r, hmap, hwf2, hk2, hr⟩ := @mappages_spec _ _ a PGSIZE mem _ hwf1 (by decide)
    (by rw [PGSIZE_toNat, MAXVA_toNat]; omega) hfl fun x h1 h2 => by
      rw [habs1]
      rw [PGSIZE_toNat] at h2
      exact hu.above x (by omega) (by rw [TRAPFRAME_toNat]; omega)
  have hc2 := (mappages_confined hwf1 hmap).2
  have hc12 : Confined s s2 pt [] := by simpa using hc1.trans hc2
  have hkept2 : ∀ q, Held s pt q → q ≠ mem → Held s2 pt q := fun q hq hne =>
    mappages_kept hwf1 hmap q (kalloc_set_held hu.wf hka c hq hne)
  obtain ⟨hz2, hnf2, htab2⟩ := hc2.keep hnf1 List.not_mem_nil htab1
  have hal : mem.toNat % 4096 = 0 := by
    have := hok.1
    rwa [← UInt64.toNat_inj, UInt64.toNat_mod, PGSIZE_toNat] at this
  refine ⟨s2, r, hmap, ?_⟩
  rcases hr with ⟨rfl, habs2⟩ | ⟨rfl, -, j, hj, habs2⟩
  · -- mapped: one more user page
    rw [PGSIZE_toNat, show (a.toNat + 4096 - 1) / 4096 - a.toNat / 4096 + 1 = 1 by omega,
      show a.toNat / 4096 = k by omega, setRange_succ, setRange_zero, habs1, pageEntry_zero,
      PGROUNDDOWN_of_aligned hal] at habs2
    have hlen : s2.freelist.length ≤ s1.freelist.length :=
      (hwf2.nodup.subperm fun q hq => (hc2.free q hq).resolve_right List.not_mem_nil).length_le
    have hkept : Kept s s2 pt := fun q hq => by
      by_cases hqm : q = mem
      · -- `mem` is the frame of page `k`
        rw [hqm]
        exact .inr (.inr ⟨k, fl ||| PTE_V, by rw [TRAPFRAME_toNat]; omega,
          by rw [habs2]; exact Function.update_self ..⟩)
      · exact hkept2 q hq hqm
    refine .inl ⟨rfl, hu.grow hwf2 (hk2.trans hk1) hc12 habs2 hleaf hok hmem hnf2 htab2,
      hk2.trans hk1, hc12, hkept, hmem, habs2, hz2.trans hz1, ?_⟩
    rw [hfl1, List.length_cons]
    omega
  · -- out of memory for a table: the page goes back and the map is as it was
    rw [PGSIZE_toNat] at hj
    rw [show j = 0 by omega, setRange_zero, habs1] at habs2
    have hok2 : pageOk s2.kend mem := by rw [hk2, hk1]; exact hok
    obtain ⟨s3, hfree, hfl3, hk3, hmem3⟩ := kfree_spec hok2
    have hwf3 := WF.free hwf2 hok2 hnf2 htab2 hfl3 hk3 hmem3
    have habs3 : absMap s3.mem pt = absMap s.mem pt := by
      rw [absMap_of_frame htab2 hmem3, habs2]
    have hc3 : Confined s s3 pt [] :=
      (hc12.trans (kfree_confined hok2 htab2 hfree)).absorb fun q hq => by
        rw [List.nil_append, List.mem_singleton] at hq
        exact .inl (hq ▸ hmem)
    have hk3' : s3.kend = s.kend := by rw [hk3, hk2, hk1]
    have hkept : Kept s s3 pt := fun q hq => by
      by_cases hqm : q = mem
      · -- `mem` is back on the free list
        exact .inl (by rw [hfl3, hqm]; exact List.mem_cons_self)
      · exact kfree_kept hok2 htab2 hfree q (hkept2 q hq hqm)
    exact .inr ⟨by decide, s3, hfree, hu.confined hwf3 hk3' habs3 hc3, hk3', hc3, hkept, habs3⟩

/-- One pass of `uvmalloc`'s loop at page `k` below `TRAPFRAME`, just above the user map:
either a zeroed page off the free list is mapped there and the loop goes on from the next
page, or memory runs out and the loop ends in `uvmdealloc` from a state with the map, the
user map and the pages of `s`. -/
theorem uvmalloc_pass {o newsz xperm a : UInt64} (fuel : Nat) (hu : UserMap s pt k)
    (ha : a.toNat = k * 4096) (hk : k < TRAPFRAME.toNat / 4096) (hperm : xperm.toNat < 1024)
    (hlt : a < newsz) :
    (∃ s2 mem, uvmallocLoop pt o newsz xperm (fuel + 1) s a =
        uvmallocLoop pt o newsz xperm fuel s2 (a + PGSIZE) ∧
      UserMap s2 pt (k + 1) ∧ s2.kend = s.kend ∧ Confined s s2 pt [] ∧ Kept s s2 pt ∧
      mem ∈ s.freelist ∧
      absMap s2.mem pt =
        Function.update (absMap s.mem pt) k (some (mem, PTE_R ||| PTE_U ||| xperm ||| PTE_V)) ∧
      s2.mem mem = (fun _ => 0) ∧ s2.freelist.length < s.freelist.length) ∨
    (∃ s3, uvmallocLoop pt o newsz xperm (fuel + 1) s a =
        (uvmdealloc s3 pt a o).map (fun r => (r.1, 0)) ∧
      UserMap s3 pt k ∧ s3.kend = s.kend ∧ Confined s s3 pt [] ∧ Kept s s3 pt ∧
      absMap s3.mem pt = absMap s.mem pt) := by
  cases hka : kalloc s with
  | none =>
    refine .inr ⟨s, ?_, hu, rfl, Confined.refl s pt, Kept.refl s pt, rfl⟩
    rw [uvmallocLoop, if_pos hlt, hka]
  | some p =>
    obtain ⟨mem, s1⟩ := p
    obtain ⟨s2, r, hmap, hr⟩ := map_fresh_page (fun _ => 0) hu ha hk (uvmalloc_perm_lt hperm)
      (uvmalloc_leaf xperm) hka
    -- the loop's `memset` is the page written with zeros
    rw [← VM.fill_eq_setPage] at hmap
    rcases hr with ⟨rfl, hu2, hk2, hc2, hkept2, hmem, habs2, hz2, hlen⟩ |
      ⟨hr, s3, hfree, hu3, hk3, hc3, hkept3, habs3⟩
    · refine .inl ⟨s2, mem, ?_, hu2, hk2, hc2, hkept2, hmem, habs2, hz2, hlen⟩
      rw [uvmallocLoop, if_pos hlt, hka]
      simp [hmap]
    · refine .inr ⟨s3, ?_, hu3, hk3, hc3, hkept3, habs3⟩
      rw [uvmallocLoop, if_pos hlt, hka]
      simp [hmap, hr, hfree]

/-- `uvmalloc`'s loop from page `k` (at `a`, less than a page past `newsz`), having started
at `PGROUNDUP(oldsz)` (`o`, page `ko`), with more fuel than free pages: it maps every page up
to `PGROUNDUP(newsz)` and returns `newsz`, or memory runs out and it returns `0` with the map
of `s₀`.  The loop never reaches `TRAPFRAME`: the user frames and the free pages are
distinct pages of physical memory, so memory runs out first. -/
theorem uvmallocLoop_spec {o xperm : UInt64} (newsz : UInt64) (h₀ : UserMap s₀ pt ko)
    (ho : o.toNat = ko * 4096) (hperm : xperm.toNat < 1024) (fuel : Nat) :
    ∀ (s : VM) (a : UInt64) (k : Nat), a.toNat = k * 4096 → ko ≤ k →
      a.toNat < newsz.toNat + 4096 → UserMap s pt k →
      Grown s₀ s pt ko k (PTE_R ||| PTE_U ||| xperm ||| PTE_V) → s.freelist.length < fuel →
      ∃ s' r, uvmallocLoop pt o newsz xperm fuel s a = .ok (s', r) ∧
        ((r = newsz ∧ newsz ≤ TRAPFRAME ∧ UserMap s' pt ((PGROUNDUP newsz).toNat / 4096) ∧
            Grown s₀ s' pt ko ((PGROUNDUP newsz).toNat / 4096) (PTE_R ||| PTE_U ||| xperm ||| PTE_V)) ∨
         (r = 0 ∧ UserMap s' pt ko ∧ absMap s'.mem pt = absMap s₀.mem pt ∧
            Confined s₀ s' pt [] ∧ Kept s₀ s' pt ∧ s'.kend = s₀.kend)) := by
  -- induction on the fuel, each pass taking a page off the free list
  induction fuel with
  | zero =>
    intro s a k _ _ _ _ _ hf
    exact absurd hf (Nat.not_lt_zero _)
  | succ fuel ih =>
    intro s a k ha hk hle hu hg hf
    have hkp := hu.le_pages
    have hTF := TRAPFRAME_toNat
    by_cases hlt : a < newsz
    · have ha' := UInt64.lt_iff_toNat_lt.1 hlt
      rcases uvmalloc_pass (o := o) fuel hu ha (by omega) hperm hlt with
        ⟨s2, mem, hloop, hu2, hk2, hc2, hkept2, hmem, habs2, hz2, hlen⟩ |
        ⟨s3, hloop, hu3, hk3, hc3, hkept3, habs3⟩
      · have hnext : (a + PGSIZE).toNat = (k + 1) * 4096 := by
          rw [UInt64.toNat_add, PGSIZE_toNat]
          omega
        obtain ⟨s', r, hrun, hr⟩ := ih s2 (a + PGSIZE) (k + 1) hnext (by omega)
          (by omega) hu2 (hg.step hk hu hk2 hc2 hkept2 hmem habs2 hz2) (by omega)
        exact ⟨s', r, by rw [hloop]; exact hrun, hr⟩
      · obtain ⟨s', r, hd, hu', habs', hc', hkept', hk'⟩ :=
          uvmalloc_undo h₀ (hg.confined hu hk3 hc3 hkept3 habs3) hu3 ho ha hk (by omega)
        exact ⟨s', 0, by rw [hloop, hd]; rfl, .inr ⟨rfl, hu', habs', hc', hkept', hk'⟩⟩
    · -- the loop is done: `a` has reached `PGROUNDUP(newsz)`, below `TRAPFRAME`
      have hge := UInt64.le_iff_toNat_le.1 (UInt64.not_lt.1 hlt)
      have hN := PGROUNDUP_toNat newsz (by omega)
      have hk' : (PGROUNDUP newsz).toNat / 4096 = k := by omega
      refine ⟨s, newsz, by rw [uvmallocLoop, if_neg hlt],
        .inl ⟨rfl, UInt64.le_iff_toNat_le.2 (by omega), ?_, ?_⟩⟩
      · rw [hk']
        exact hu
      · rw [hk']
        exact hg

/-- `uvmalloc` on a process of size `oldsz`, to any `newsz`: below `oldsz` it does nothing
and returns `oldsz`; otherwise it maps the pages from `PGROUNDUP(oldsz)` to
`PGROUNDUP(newsz)` with `PTE_R | PTE_U | xperm` to zeroed frames off the free list and
returns `newsz`, which is then at most `TRAPFRAME`, or memory runs out and it returns `0`,
leaving the process as it was and losing no page. -/
theorem uvmalloc_spec {oldsz xperm : UInt64} (newsz : UInt64) (h : UserSpace s pt oldsz)
    (hperm : xperm.toNat < 1024) :
    ∃ s' r, uvmalloc s pt oldsz newsz xperm = .ok (s', r) ∧
      (newsz < oldsz → s' = s ∧ r = oldsz) ∧
      (oldsz ≤ newsz →
        (r = newsz ∧ UserSpace s' pt newsz ∧
          Grown s s' pt ((PGROUNDUP oldsz).toNat / 4096) ((PGROUNDUP newsz).toNat / 4096)
            (PTE_R ||| PTE_U ||| xperm ||| PTE_V)) ∨
        (r = 0 ∧ UserSpace s' pt oldsz ∧ absMap s'.mem pt = absMap s.mem pt ∧
          Confined s s' pt [] ∧ Kept s s' pt ∧ s'.kend = s.kend)) := by
  by_cases hlt : newsz < oldsz
  · exact ⟨s, oldsz, by rw [uvmalloc, if_pos hlt], fun _ => ⟨rfl, rfl⟩,
      fun hle => absurd hlt (UInt64.not_lt.2 hle)⟩
  have hle := UInt64.le_iff_toNat_le.1 (UInt64.not_lt.1 hlt)
  have ho := UInt64.le_iff_toNat_le.1 h.size
  rw [TRAPFRAME_toNat] at ho
  have hpo := PGROUNDUP_toNat oldsz (by omega)
  obtain ⟨s', r, hrun, hr⟩ := uvmallocLoop_spec newsz h.map (by rw [hpo]; omega) hperm
    (s.freelist.length + 1) s (PGROUNDUP oldsz) _ (by rw [hpo]; omega) (le_refl _)
    (by rw [hpo]; omega) h.map (Grown.refl s pt _ _) (Nat.lt_succ_self _)
  refine ⟨s', r, by rw [uvmalloc, if_neg hlt]; exact hrun, fun h' => absurd h' hlt, fun _ => ?_⟩
  rcases hr with ⟨rfl, hnew, hu, hg⟩ | ⟨rfl, hu, habs, hc, hkept, hk⟩
  · exact .inl ⟨rfl, ⟨hnew, hu⟩, hg⟩
  · exact .inr ⟨rfl, ⟨h.size, hu⟩, habs, hc, hkept, hk⟩

end Alloc

end Xv6
