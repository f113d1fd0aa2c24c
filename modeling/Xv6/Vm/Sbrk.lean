import Xv6.Vm.Grow
import Xv6.Lib.Trace

/-!
# `sbrk`: a process's memory grown and shrunk

`growproc` of `kernel/proc.c` (lines 257-275) and `sys_sbrk` of `kernel/sysproc.c` (lines
38-49), over `uvmalloc` and `uvmdealloc`.  A process is its page table `pt` and its size
`sz`; the argument `n` is an `int`, added to the `uint64` size as C adds them.

What a process sees of its memory is its `image`: each virtual page below `TRAPFRAME` to
the flags of its PTE and the contents of its frame.  What `sbrk(n)` is for is stated on
sizes and images (`AbsSbrk`): for `n > 0` the size grows by `n` and the pages up to the new
size are added, readable, writable, user and zeroed, or memory runs out and nothing changes
but the result `-1`; otherwise the size goes down by `-n` and the pages above the new size
go, unless that would take it below zero, when nothing changes.  The old size is returned.

Every call from a process whose user part is well formed (`UserSpace`) refines it
(`sysSbrk_refines`): it does not panic, keeps the user part well formed, is an abstract
step on images, and keeps to its `Footprint`: the mappings at and above `TRAPFRAME` stay,
and so does every page that is neither a table of `pt`, nor a frame of the process, nor
free.  So does every sequence of calls (`sbrk_run`): footprints compose
(`Footprint.trans`), and the run is a trace of `AbsSbrk` (`Trace.runOut_refines`).
-/

namespace Xv6

open Span

/-- `growproc(n)` for the process with table `pt` and size `sz`: the state with the new
`p->sz` and `0`, or `-1` with `p->sz` as it was when `uvmalloc` ran out of memory. -/
def growproc (s : VM) (pt sz : UInt64) (n : Int32) : Except String ((VM × UInt64) × Int) :=
  if n > 0 then
    match uvmalloc s pt sz (sz + n.toInt64.toUInt64) PTE_W with
    | .error e => .error e
    | .ok (s, sz') => if sz' = 0 then .ok ((s, sz), -1) else .ok ((s, sz'), 0)
  else if n < 0 then
    (uvmdealloc s pt sz (sz + n.toInt64.toUInt64)).map fun r => (r, 0)
  else .ok ((s, sz), 0)

/-- `sys_sbrk`: the old size, or `-1` when `growproc` failed. -/
def sysSbrk (s : VM) (pt sz : UInt64) (n : Int32) : Except String ((VM × UInt64) × Int) :=
  match growproc s pt sz n with
  | .error e => .error e
  | .ok (p, r) => if r < 0 then .ok (p, -1) else .ok (p, sz.toNat)

/-- A process calling `sbrk` with each argument of `ns` in turn. -/
def sbrkRun (s : VM) (pt sz : UInt64) (ns : List Int32) :
    Except String ((VM × UInt64) × List Int) :=
  Trace.runOut (fun p n => sysSbrk p.1 pt p.2 n) (s, sz) ns

/-! ## What `sbrk` is for -/

/-- What a process sees of its memory: each virtual page to its flags and contents. -/
abbrev Image := Nat → Option (UInt64 × (Fin 512 → UInt64))

/-- The pages of a process of `sz` bytes. -/
def pagesOf (sz : Nat) : Nat := (sz + 4095) / 4096

/-- The flags of the pages `sbrk` adds: readable, writable, user. -/
def sbrkFlags : UInt64 := PTE_R ||| PTE_U ||| PTE_W ||| PTE_V

/-- `sbrk(n)` on a process of size `sz` and image `M`, to size `sz'` and image `M'`,
returning `ret`. -/
def AbsSbrk (sz : UInt64) (M : Image) (n : Int32) (sz' : UInt64) (M' : Image) (ret : Int) : Prop :=
  if 0 < n.toInt then
    (ret = -1 ∧ sz' = sz ∧ M' = M) ∨
    (ret = sz.toNat ∧ (sz'.toNat : Int) = sz.toNat + n.toInt ∧
      M' = setRange M (pagesOf sz.toNat) (pagesOf sz'.toNat - pagesOf sz.toNat)
        fun _ => (sbrkFlags, fun _ => 0))
  else if 0 ≤ sz.toNat + n.toInt then
    ret = sz.toNat ∧ (sz'.toNat : Int) = sz.toNat + n.toInt ∧
      M' = clearRange M (pagesOf sz'.toNat) (pagesOf sz.toNat - pagesOf sz'.toNat)
  else ret = sz.toNat ∧ sz' = sz ∧ M' = M

/-- The image of the process with table `pt`: its pages below `TRAPFRAME`. -/
def image (s : VM) (pt : UInt64) : Image := fun x =>
  if x < TRAPFRAME.toNat / 4096 then (absMap s.mem pt x).map fun e => (e.2, s.mem e.1) else none

/-- What a call that takes a process from `k` to `k'` user pages may change: the tables of
`pt`, the process's frames and free pages, nothing at or above `TRAPFRAME`; the process's
frames afterwards were its frames or free before. -/
structure Footprint (s s' : VM) (pt : UInt64) (k k' : Nat) : Prop where
  conf : Confined s s' pt (frames s.mem pt 0 k)
  origin : ∀ q ∈ frames s'.mem pt 0 k', q ∈ frames s.mem pt 0 k ∨ q ∈ s.freelist
  high : ∀ x, TRAPFRAME.toNat / 4096 ≤ x → absMap s'.mem pt x = absMap s.mem pt x
  kend : s'.kend = s.kend

section Footprint

variable {s s1 s2 : VM} {pt : UInt64} {k k1 k2 : Nat}

theorem Footprint.refl (s : VM) (pt : UInt64) (k : Nat) : Footprint s s pt k k :=
  ⟨(Confined.refl s pt).mono fun _ h => absurd h List.not_mem_nil, fun _ h => .inl h,
    fun _ _ => rfl, rfl⟩

theorem Footprint.trans (h1 : Footprint s s1 pt k k1) (h2 : Footprint s1 s2 pt k1 k2) :
    Footprint s s2 pt k k2 where
  conf := (h1.conf.trans h2.conf).absorb fun q hq => by
    rcases List.mem_append.1 hq with hq | hq
    · exact .inr hq
    · exact (h1.origin q hq).symm
  origin q hq := by
    rcases h2.origin q hq with hq | hq
    · exact h1.origin q hq
    · exact (h1.conf.free q hq).symm
  high x hx := (h2.high x hx).trans (h1.high x hx)
  kend := h2.kend.trans h1.kend

end Footprint

/-! ## Images -/

section Image

variable {s s' : VM} {pt : UInt64} {k : Nat}

theorem pagesOf_eq {sz : UInt64} (h : sz ≤ TRAPFRAME) :
    pagesOf sz.toNat = (PGROUNDUP sz).toNat / 4096 := by
  have := UInt64.le_iff_toNat_le.1 h
  rw [TRAPFRAME_toNat] at this
  rw [PGROUNDUP_toNat sz (by omega), pagesOf]
  omega

theorem image_keep {x : Nat} {e : UInt64 × UInt64} (he : absMap s.mem pt x = some e)
    (he' : absMap s'.mem pt x = some e) (hmem : s'.mem e.1 = s.mem e.1) :
    image s' pt x = image s pt x := by
  unfold image
  rw [he, he', Option.map_some, Option.map_some, hmem]

theorem image_none {x : Nat} (habs : absMap s'.mem pt x = absMap s.mem pt x)
    (hnone : x < TRAPFRAME.toNat / 4096 → absMap s.mem pt x = none) :
    image s' pt x = image s pt x := by
  unfold image
  split
  · rename_i hx
    rw [habs, hnone hx, Option.map_none, Option.map_none]
  · rfl

theorem image_user (h : Unmappable s pt 0 k true) {fr : List UInt64} (hc : Confined s s' pt fr)
    (hfr : ∀ q ∈ frames s.mem pt 0 k, q ∉ fr) {x : Nat} (hx : x < k)
    (habs : absMap s'.mem pt x = absMap s.mem pt x) : image s' pt x = image s pt x := by
  obtain ⟨e, he, -⟩ := h.leaf x (Nat.zero_le x) (by omega)
  have hq : e.1 ∈ frames s.mem pt 0 k := mem_frames he (Nat.zero_le x) (by omega)
  obtain ⟨-, hnf, htab⟩ := h.frame rfl e.1 hq
  exact image_keep he (habs.trans he) (hc.keep hnf (hfr e.1 hq) htab).1

/-- The image after `uvmalloc` mapped the pages from `ko` to `kn`. -/
theorem image_grown {ko kn : Nat} {perm : UInt64} (h : UserMap s pt ko)
    (hg : Grown s s' pt ko kn perm) (hkn : kn ≤ TRAPFRAME.toNat / 4096) :
    image s' pt = setRange (image s pt) ko (kn - ko) fun _ => (perm, fun _ => 0) := by
  funext x
  unfold setRange
  split
  · -- a new page, mapped to a zeroed frame
    rename_i hx
    obtain ⟨q, hq, -, hz⟩ := hg.inside x hx.1 (by omega)
    unfold image
    rw [if_pos (by omega), hq, Option.map_some, hz]
  · by_cases hx : x < ko
    · exact image_user h.pages hg.conf (fun _ _ h' => List.not_mem_nil h') hx (hg.outside x (.inl hx))
    · exact image_none (hg.outside x (.inr (by omega))) fun hx' => h.above x (by omega) hx'

/-- The image after `uvmdealloc` unmapped the pages from `kn` to `ko`. -/
theorem image_shrunk {ko kn : Nat} (h : UserMap s pt ko) (hkn : kn ≤ ko)
    (habs : absMap s'.mem pt = clearRange (absMap s.mem pt) kn (ko - kn))
    (hc : Confined s s' pt (frames s.mem pt kn (ko - kn))) :
    image s' pt = clearRange (image s pt) kn (ko - kn) := by
  funext x
  have hsplit : frames s.mem pt 0 ko = frames s.mem pt 0 kn ++ frames s.mem pt kn (ko - kn) := by
    unfold frames
    rw [values_split (Nat.zero_le kn) (by omega), List.map_append]
    congr 3
    omega
  have hnd := h.pages.nodup rfl
  rw [hsplit] at hnd
  unfold clearRange
  split
  · -- an unmapped page
    rename_i hx
    unfold image
    rw [habs, clearRange, if_pos hx]
    split <;> rfl
  · rename_i hx
    have habs' : absMap s'.mem pt x = absMap s.mem pt x := by rw [habs, clearRange, if_neg hx]
    by_cases hxk : x < kn
    · -- a page that stays: its frame is not among those freed
      exact image_user (h.pages.sub 0 kn (le_refl 0) (by omega)) hc
        (fun q hq h' => (List.nodup_append.1 hnd).2.2 q hq q h' rfl) hxk habs'
    · exact image_none habs' fun hx' => h.above x (by omega) hx'

theorem image_of_absMap (h : UserMap s pt k) (hc : Confined s s' pt [])
    (habs : absMap s'.mem pt = absMap s.mem pt) : image s' pt = image s pt := by
  funext x
  by_cases hx : x < k
  · exact image_user h.pages hc (fun _ _ h' => List.not_mem_nil h') hx (congrFun habs x)
  · exact image_none (congrFun habs x) fun hx' => h.above x (by omega) hx'

end Image

/-! ## Footprints of `uvmalloc` and `uvmdealloc` -/

section Steps

variable {s s' : VM} {pt : UInt64} {k : Nat}

theorem Grown.footprint {ko kn : Nat} {perm : UInt64} (hg : Grown s s' pt ko kn perm)
    (hkn : kn ≤ TRAPFRAME.toNat / 4096) : Footprint s s' pt ko kn where
  conf := hg.conf.mono fun _ h => absurd h List.not_mem_nil
  origin q hq := by
    obtain ⟨x, fl, -, hx, hq⟩ := exists_of_mem_frames hq
    by_cases hxo : x < ko
    · rw [hg.outside x (.inl hxo)] at hq
      exact .inl (mem_frames hq (Nat.zero_le x) (by omega))
    · -- a new page: its frame came off the free list
      obtain ⟨q', hq', hfree, -⟩ := hg.inside x (by omega) (by omega)
      rw [hq] at hq'
      obtain ⟨rfl, -⟩ := Prod.mk.inj (Option.some.inj hq')
      exact .inr hfree
  high x hx := hg.outside x (.inr (by omega))
  kend := hg.kend

theorem Footprint.of_absMap (hc : Confined s s' pt []) (habs : absMap s'.mem pt = absMap s.mem pt)
    (hkend : s'.kend = s.kend) : Footprint s s' pt k k where
  conf := hc.mono fun _ h => absurd h List.not_mem_nil
  origin q hq := by
    unfold frames at hq
    rw [habs] at hq
    exact .inl hq
  high x _ := by rw [habs]
  kend := hkend

theorem Footprint.of_shrink {ko kn : Nat} (h : UserMap s pt ko) (hkn : kn ≤ ko)
    (habs : absMap s'.mem pt = clearRange (absMap s.mem pt) kn (ko - kn))
    (hc : Confined s s' pt (frames s.mem pt kn (ko - kn))) (hkend : s'.kend = s.kend) :
    Footprint s s' pt ko kn where
  conf := hc.mono fun q hq => by
    obtain ⟨x, fl, hx, hx', hq⟩ := exists_of_mem_frames hq
    exact mem_frames hq (Nat.zero_le x) (by omega)
  origin q hq := by
    obtain ⟨x, fl, -, hx, hq⟩ := exists_of_mem_frames hq
    rw [habs, clearRange, if_neg (by omega)] at hq
    exact .inl (mem_frames hq (Nat.zero_le x) (by omega))
  high x hx := by
    have := h.le_pages
    rw [TRAPFRAME_toNat] at hx
    rw [habs, clearRange, if_neg (by omega)]
  kend := hkend

end Steps

/-! ## `sbrk` refines `AbsSbrk` -/

/-- `sz + n` for an `int n`, as C computes it on a `uint64`: `sz + n` when that is not
negative, else `2 ^ 64` more. -/
theorem add_int_toNat (sz : UInt64) (hsz : sz.toNat < 2 ^ 63) (n : Int32) :
    ((sz + n.toInt64.toUInt64).toNat : Int) =
      if 0 ≤ sz.toNat + n.toInt then sz.toNat + n.toInt else sz.toNat + n.toInt + 2 ^ 64 := by
  have h1 := Int64.toNat_toUInt64 n.toInt64
  rw [Int32.toInt_toInt64] at h1
  have hlo := n.le_toInt
  have hhi := n.toInt_lt
  rw [UInt64.toNat_add]
  push_cast
  split <;> split at h1 <;> omega

section Refine

variable {s : VM} {pt sz : UInt64}

theorem UserSpace.size_lt (h : UserSpace s pt sz) : sz.toNat ≤ 4096 * 557056 := by
  have := h.pgroundup_le
  rw [PHYSTOP_toNat] at this
  omega

/-- `sbrk(n)` for `n > 0`: `uvmalloc` to `sz + n`, which stays far below `TRAPFRAME`. -/
theorem sysSbrk_grow (h : UserSpace s pt sz) {n : Int32} (hn : 0 < n.toInt) :
    ∃ s' sz' ret, sysSbrk s pt sz n = .ok ((s', sz'), ret) ∧ UserSpace s' pt sz' ∧
      AbsSbrk sz (image s pt) n sz' (image s' pt) ret ∧
      Footprint s s' pt (pagesOf sz.toNat) (pagesOf sz'.toNat) := by
  have hsz := h.size_lt
  have hhi := n.toInt_lt
  have hnew := add_int_toNat sz (by omega) n
  rw [if_pos (by omega)] at hnew
  have hnt : sz + n.toInt64.toUInt64 ≤ TRAPFRAME :=
    UInt64.le_iff_toNat_le.2 (by rw [TRAPFRAME_toNat]; omega)
  have hpn := PGROUNDUP_toNat (sz + n.toInt64.toUInt64) (by omega)
  have hkn : (PGROUNDUP (sz + n.toInt64.toUInt64)).toNat / 4096 ≤ TRAPFRAME.toNat / 4096 := by
    rw [hpn, TRAPFRAME_toNat]
    omega
  have hpos : n > 0 := Int32.lt_iff_toInt_lt.2 (by rw [Int32.toInt_zero]; exact hn)
  obtain ⟨s', r, hrun, -, hgrow⟩ :=
    uvmalloc_spec (sz + n.toInt64.toUInt64) h (by decide : PTE_W.toNat < 1024)
  rcases hgrow (UInt64.le_iff_toNat_le.2 (by omega)) with ⟨rfl, hu, hg⟩ | ⟨rfl, hu, habs, hc, -, hk⟩
  · -- the pages up to the new size are mapped
    have hne : sz + n.toInt64.toUInt64 ≠ 0 := fun h0 => by
      rw [h0] at hnew
      simp at hnew
      omega
    have hgp : growproc s pt sz n = .ok ((s', sz + n.toInt64.toUInt64), 0) := by
      simp [growproc, hpos, hrun, hne]
    refine ⟨s', _, sz.toNat, by simp [sysSbrk, hgp], hu, ?_, ?_⟩
    · rw [AbsSbrk, if_pos hn, pagesOf_eq h.size, pagesOf_eq hnt]
      exact .inr ⟨rfl, hnew, image_grown h.map hg hkn⟩
    · rw [pagesOf_eq h.size, pagesOf_eq hnt]
      exact hg.footprint hkn
  · -- out of memory: nothing changes but the result
    have hgp : growproc s pt sz n = .ok ((s', sz), -1) := by
      simp [growproc, hpos, hrun]
    refine ⟨s', sz, -1, by simp [sysSbrk, hgp], hu, ?_, Footprint.of_absMap hc habs hk⟩
    rw [AbsSbrk, if_pos hn]
    exact .inl ⟨rfl, rfl, image_of_absMap h.map hc habs⟩

/-- `sbrk(n)` for `n < 0` down to a size not below zero: `uvmdealloc` to `sz + n`. -/
theorem sysSbrk_shrink (h : UserSpace s pt sz) {n : Int32} (hn : n.toInt < 0)
    (hge : 0 ≤ (sz.toNat : Int) + n.toInt) :
    ∃ s' sz' ret, sysSbrk s pt sz n = .ok ((s', sz'), ret) ∧ UserSpace s' pt sz' ∧
      AbsSbrk sz (image s pt) n sz' (image s' pt) ret ∧
      Footprint s s' pt (pagesOf sz.toNat) (pagesOf sz'.toNat) := by
  have hsz := h.size_lt
  have hnew := add_int_toNat sz (by omega) n
  rw [if_pos hge] at hnew
  have hlt : sz + n.toInt64.toUInt64 < sz := UInt64.lt_iff_toNat_lt.2 (by omega)
  have hnt : sz + n.toInt64.toUInt64 ≤ TRAPFRAME := by
    have := UInt64.le_iff_toNat_le.1 h.size
    exact UInt64.le_iff_toNat_le.2 (by omega)
  have hneg : n < 0 := Int32.lt_iff_toInt_lt.2 (by rw [Int32.toInt_zero]; exact hn)
  have hnpos : ¬ n > 0 := fun h' => absurd (Int32.lt_iff_toInt_lt.1 h') (by rw [Int32.toInt_zero]; omega)
  obtain ⟨s', hd, -, hless⟩ := uvmdealloc_spec (sz + n.toInt64.toUInt64) h.size h.map
  obtain ⟨hu, hk, habs, hc, -⟩ := hless hlt
  rw [if_neg (UInt64.not_le.2 hlt)] at hd
  have hgp : growproc s pt sz n = .ok ((s', sz + n.toInt64.toUInt64), 0) := by
    simp [growproc, hnpos, hneg, hd, Except.map]
  have hkn : (PGROUNDUP (sz + n.toInt64.toUInt64)).toNat / 4096 ≤ (PGROUNDUP sz).toNat / 4096 := by
    rw [← pagesOf_eq h.size, ← pagesOf_eq hnt, pagesOf, pagesOf]
    omega
  refine ⟨s', _, sz.toNat, by simp [sysSbrk, hgp], ⟨hnt, hu⟩, ?_, ?_⟩
  · rw [AbsSbrk, if_neg (by omega), if_pos hge, pagesOf_eq h.size, pagesOf_eq hnt]
    exact ⟨rfl, hnew, image_shrunk h.map hkn habs hc⟩
  · rw [pagesOf_eq h.size, pagesOf_eq hnt]
    exact Footprint.of_shrink h.map hkn habs hc hk

/-- `sbrk(n)` for `n < 0` below zero: `sz + n` wraps past `sz`, so `uvmdealloc` does nothing. -/
theorem sysSbrk_wrap (h : UserSpace s pt sz) {n : Int32} (hn : n.toInt < 0)
    (hlt : (sz.toNat : Int) + n.toInt < 0) :
    ∃ s' sz' ret, sysSbrk s pt sz n = .ok ((s', sz'), ret) ∧ UserSpace s' pt sz' ∧
      AbsSbrk sz (image s pt) n sz' (image s' pt) ret ∧
      Footprint s s' pt (pagesOf sz.toNat) (pagesOf sz'.toNat) := by
  have hsz := h.size_lt
  have hlo := n.le_toInt
  have hnew := add_int_toNat sz (by omega) n
  rw [if_neg (by omega)] at hnew
  have hge : sz ≤ sz + n.toInt64.toUInt64 := UInt64.le_iff_toNat_le.2 (by omega)
  have hneg : n < 0 := Int32.lt_iff_toInt_lt.2 (by rw [Int32.toInt_zero]; exact hn)
  have hnpos : ¬ n > 0 := fun h' => absurd (Int32.lt_iff_toInt_lt.1 h') (by rw [Int32.toInt_zero]; omega)
  obtain ⟨s', hd, hsame, -⟩ := uvmdealloc_spec (sz + n.toInt64.toUInt64) h.size h.map
  rw [hsame hge, if_pos hge] at hd
  have hgp : growproc s pt sz n = .ok ((s, sz), 0) := by
    simp [growproc, hnpos, hneg, hd, Except.map]
  refine ⟨s, sz, sz.toNat, by simp [sysSbrk, hgp], h, ?_, Footprint.refl s pt _⟩
  rw [AbsSbrk, if_neg (by omega), if_neg (by omega)]
  exact ⟨rfl, rfl, rfl⟩

theorem sysSbrk_zero (h : UserSpace s pt sz) {n : Int32} (hn : n.toInt = 0) :
    ∃ s' sz' ret, sysSbrk s pt sz n = .ok ((s', sz'), ret) ∧ UserSpace s' pt sz' ∧
      AbsSbrk sz (image s pt) n sz' (image s' pt) ret ∧
      Footprint s s' pt (pagesOf sz.toNat) (pagesOf sz'.toNat) := by
  have hn0 : n = 0 := Int32.toInt_inj.1 (by rw [hn, Int32.toInt_zero])
  subst hn0
  refine ⟨s, sz, sz.toNat, by simp [sysSbrk, growproc], h, ?_, Footprint.refl s pt _⟩
  rw [AbsSbrk, if_neg (by omega), if_pos (by omega)]
  exact ⟨rfl, by omega, by rw [Nat.sub_self, clearRange_zero]⟩

/-- Every `sbrk(n)` from a process whose user part is well formed refines `AbsSbrk`: it does
not panic, keeps the user part well formed, moves the image as `AbsSbrk` says, and keeps
to the process's footprint. -/
theorem sysSbrk_step (h : UserSpace s pt sz) (n : Int32) :
    ∃ s' sz' ret, sysSbrk s pt sz n = .ok ((s', sz'), ret) ∧ UserSpace s' pt sz' ∧
      AbsSbrk sz (image s pt) n sz' (image s' pt) ret ∧
      Footprint s s' pt (pagesOf sz.toNat) (pagesOf sz'.toNat) := by
  rcases lt_trichotomy n.toInt 0 with hn | hn | hn
  · by_cases hge : 0 ≤ (sz.toNat : Int) + n.toInt
    · exact sysSbrk_shrink h hn hge
    · exact sysSbrk_wrap h hn (by omega)
  · exact sysSbrk_zero h hn
  · exact sysSbrk_grow h hn

theorem UserSpace.empty (hwf : WF s pt) (hnone : ∀ v, absMap s.mem pt v = none) :
    UserSpace s pt 0 := by
  refine ⟨UInt64.zero_le, ?_⟩
  rw [show (PGROUNDUP 0).toNat / 4096 = 0 by decide]
  exact ⟨hwf, ⟨fun _ _ h => absurd h (Nat.not_lt_zero _), fun _ => by simp [frames],
    fun _ q hq => by simp [frames] at hq⟩, fun v _ _ => hnone v⟩

/-- Every sequence of `sbrk` calls from a process whose user part is well formed succeeds,
keeps the user part well formed, is a trace of `AbsSbrk` on sizes and images, and keeps to
the footprint of the process it started from. -/
theorem sbrk_run (h : UserSpace s pt sz) (ns : List Int32) :
    ∃ s' sz' rs, sbrkRun s pt sz ns = .ok ((s', sz'), rs) ∧ UserSpace s' pt sz' ∧
      Trace.Traces (fun (a : UInt64 × Image) n (b : UInt64 × Image) r => AbsSbrk a.1 a.2 n b.1 b.2 r)
        (sz, image s pt) ns (sz', image s' pt) rs ∧
      Footprint s s' pt (pagesOf sz.toNat) (pagesOf sz'.toNat) := by
  -- the invariant: a well-formed user part, within the footprint of the start
  obtain ⟨⟨s', sz'⟩, rs, hrun, ⟨hu, hf⟩, hT⟩ := Trace.runOut_refines
    (A := fun (a : UInt64 × Image) n (b : UInt64 × Image) r => AbsSbrk a.1 a.2 n b.1 b.2 r)
    (fun p : VM × UInt64 => UserSpace p.1 pt p.2 ∧ Footprint s p.1 pt (pagesOf sz.toNat) (pagesOf p.2.toNat))
    (fun p => (p.2, image p.1 pt))
    (fun p n hp => by
      obtain ⟨s1, sz1, r, h1, hu1, hA, hf1⟩ := sysSbrk_step hp.1 n
      exact ⟨(s1, sz1), r, h1, ⟨hu1, hp.2.trans hf1⟩, hA⟩)
    ns (s, sz) ⟨h, Footprint.refl s pt _⟩
  exact ⟨s', sz', rs, hrun, hu, hT, hf⟩

/-- A process with a fresh table, growing by `5000` bytes and shrinking by a page. -/
theorem sbrk_run_fresh :
    ∃ s p, uvmcreate ⟨fun _ _ => 0, [0x80001000, 0x80002000, 0x80003000, 0x80004000], 0x80000000⟩ =
        (s, p) ∧ UserSpace s p 0 ∧
      ∃ s' sz' rs, sbrkRun s p 0 [5000, -4096] = .ok ((s', sz'), rs) ∧ UserSpace s' p sz' ∧
        Trace.Traces (fun (a : UInt64 × Image) n (b : UInt64 × Image) r => AbsSbrk a.1 a.2 n b.1 b.2 r)
          (0, image s p) [5000, -4096] (sz', image s' p) rs ∧
        Footprint s s' p (pagesOf (0 : UInt64).toNat) (pagesOf sz'.toNat) := by
  obtain ⟨s, hs, hwf, hnone, -⟩ := uvmcreate_wf
    (s := ⟨fun _ _ => 0, [0x80001000, 0x80002000, 0x80003000, 0x80004000], 0x80000000⟩) rfl (by decide)
    fun q hq => by
      simp only [List.mem_cons, List.not_mem_nil, or_false] at hq
      rcases hq with rfl | rfl | rfl | rfl <;> decide
  have hu := UserSpace.empty hwf hnone
  exact ⟨s, _, hs, hu, sbrk_run hu [5000, -4096]⟩

end Refine

end Xv6
