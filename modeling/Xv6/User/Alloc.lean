import Xv6.User.Freelist

/-!
# `malloc`, and the allocator along a run

`malloc`'s loop starts at the block after `freep` and goes round the free list.  Past
blocks too small for the request it only moves on (`mallocLoop_along`), so it takes the
first block large enough in that order, or comes back to `freep` having found none
(`FreeList.lap`).  A block is taken whole or cut from its tail (`FreeList.take_spec`);
otherwise `morecore` frees a new block of at least the request (`FreeList.morecore_spec`),
which the second lap takes.  `loop_spec` puts these together, and the free list and the
live blocks are kept along every run of `malloc` and `free` calls.
-/

namespace Xv6

namespace Umalloc

/-! ## The loop of `malloc` -/

section Loop

variable {base H0 : Nat} {h : Heap} {xs : List Nat} {n : Nat} {g : Bool}

theorem mallocLoop_fit {prev y fuel : Nat} (hy : n ≤ (h.mem y).size) :
    mallocLoop n g (fuel + 1) h prev y = mallocLoop n g 1 h prev y := by
  rw [mallocLoop, mallocLoop, if_pos hy, if_pos hy]

theorem mallocLoop_along {prev y : Nat} {l : List Nat}
    (hp : Circle.IsPath h.next (prev :: l ++ [y])) (hl : ∀ x ∈ l, (h.mem x).size < n ∧ x ≠ h.freep)
    {fuel : Nat} (hfuel : l.length < fuel) :
    mallocLoop n g fuel h prev (h.next prev) =
      mallocLoop n g (fuel - l.length) h ((prev :: l).getLast (by simp)) y := by
  induction l generalizing prev fuel with
  | nil =>
    have : h.next prev = y := by simpa [Circle.isPath_cons_cons] using hp
    simp [this]
  | cons x l ih =>
    obtain ⟨fuel, rfl⟩ : ∃ k, fuel = k + 1 := ⟨fuel - 1, by simp at hfuel; omega⟩
    have hx := hl x (by simp)
    simp only [List.cons_append, Circle.isPath_cons_cons] at hp
    rw [hp.1, mallocLoop, if_neg (by omega), if_neg hx.2,
      ih (by simpa using hp.2) (fun z hz => hl z (by simp [hz])) (by simp at hfuel; omega)]
    simp [List.getLast_cons]

/-- One lap from `freep`: the loop comes to the first block large enough after `freep`,
with the node before it; or every block is too small, and it comes back to `freep`. -/
theorem FreeList.lap (hf : FreeList base H0 h xs) (hn : 0 < n) (fuel : Nat)
    (hfuel : xs.length < fuel) :
    (∃ prev y, prev ∈ base :: xs ∧ h.next prev = y ∧ y ≠ base ∧ n ≤ (h.mem y).size ∧
      mallocLoop n g fuel h h.freep (h.next h.freep) = mallocLoop n g 1 h prev y) ∨
    ((∀ y ∈ base :: xs, (h.mem y).size < n) ∧ ∃ prev,
      mallocLoop n g fuel h h.freep (h.next h.freep) =
        mallocLoop n g (fuel - xs.length) h prev h.freep) := by
  -- the circle seen from `freep`: `freep`, then `D`, then `freep` again
  obtain ⟨s, t, hst⟩ := List.append_of_mem hf.freep
  have hc : Circle.IsPath h.next (h.freep :: (t ++ s) ++ [h.freep]) := by
    have := Circle.isCircle_cons.1 (hst ▸ hf.ring).from_mem
    simp only [List.append_eq] at this
    exact this
  have hperm : List.Perm (h.freep :: (t ++ s)) (base :: xs) := by
    rw [hst]
    exact (List.perm_middle.trans (List.Perm.cons _ List.perm_append_comm)).symm
  have hnotin : h.freep ∉ t ++ s :=
    (List.nodup_cons.1 (hperm.nodup_iff.2 (hf.sorted.imp Nat.ne_of_lt))).1
  have hlen : (t ++ s).length = xs.length := by
    have := hperm.length_eq
    simp only [List.length_cons] at this
    omega
  have hsub : ∀ x ∈ h.freep :: (t ++ s), x ∈ base :: xs := fun x hx => hperm.subset hx
  have hprev : ∀ l, (∀ x ∈ l, x ∈ t ++ s) → (h.freep :: l).getLast (by simp) ∈ base :: xs :=
    fun l hl => by
      rcases List.mem_cons.1 (List.getLast_mem (l := h.freep :: l) (by simp)) with he | hx
      · rw [he]
        exact hf.freep
      · exact hsub _ (List.mem_cons_of_mem _ (hl _ hx))
  have hne_base : ∀ y, n ≤ (h.mem y).size → y ≠ base := by
    rintro y hy rfl
    rw [hf.base_size] at hy
    omega
  by_cases hex : ∃ y ∈ t ++ s, n ≤ (h.mem y).size
  · -- the first block of `D` large enough
    obtain ⟨l, y, r, hD, hy, hl⟩ : ∃ l y r, t ++ s = l ++ y :: r ∧ n ≤ (h.mem y).size ∧
        ∀ x ∈ l, (h.mem x).size < n := by
      have hsome : ((t ++ s).find? fun x => decide (n ≤ (h.mem x).size)).isSome := by
        rw [List.find?_isSome]
        simpa using hex
      obtain ⟨y, hy⟩ := Option.isSome_iff_exists.1 hsome
      obtain ⟨hyn, l, r, hD, hl⟩ := List.find?_eq_some_iff_append.1 hy
      exact ⟨l, y, r, hD, by simpa using hyn, fun x hx => by simpa using hl x hx⟩
    have hlD : ∀ x ∈ l, x ∈ t ++ s := fun x hx => by
      rw [hD]
      exact List.mem_append_left _ hx
    have hpath : Circle.IsPath h.next (h.freep :: l ++ [y]) := by
      rw [hD] at hc
      exact (show Circle.IsPath h.next ((h.freep :: l ++ [y]) ++ (r ++ [h.freep])) by
        simpa using hc).left
    have hlen_l : l.length < fuel := by
      have : (t ++ s).length = l.length + (r.length + 1) := by
        rw [hD]
        simp
      omega
    refine .inl ⟨_, y, hprev l hlD, hpath.next_getLast (by simp), hne_base y hy, hy, ?_⟩
    rw [mallocLoop_along hpath (fun x hx => ⟨hl x hx, fun he => hnotin (he ▸ hlD x hx)⟩) hlen_l]
    obtain ⟨k, hk⟩ : ∃ k, fuel - l.length = k + 1 := ⟨fuel - l.length - 1, by omega⟩
    rw [hk, mallocLoop_fit hy]
  · -- all of `D` too small: back at `freep`
    simp only [not_exists, not_and, not_le] at hex
    have halong : mallocLoop n g fuel h h.freep (h.next h.freep) =
        mallocLoop n g (fuel - xs.length) h ((h.freep :: (t ++ s)).getLast (by simp)) h.freep := by
      rw [← hlen]
      exact mallocLoop_along hc (fun x hx => ⟨hex x hx, fun he => hnotin (he ▸ hx)⟩) (by omega)
    by_cases hff : n ≤ (h.mem h.freep).size
    · refine .inl ⟨_, h.freep, hprev _ fun _ hx => hx, hc.next_getLast (by simp),
        hne_base _ hff, hff, ?_⟩
      obtain ⟨k, hk⟩ : ∃ k, fuel - xs.length = k + 1 := ⟨fuel - xs.length - 1, by omega⟩
      rw [halong, hk, mallocLoop_fit hff]
    · refine .inr ⟨fun y hy => ?_, _, halong⟩
      rcases List.mem_cons.1 (hperm.symm.subset hy) with rfl | hy
      · omega
      · exact hex y hy

end Loop

/-! ## Taking a block -/

/-- What `malloc` leaves when it takes `[a, a + n)`: a free list that covers what it
covered but that block, which lay in a free block, now with its size in its header. -/
structure Taken (base H0 : Nat) (h : Heap) (xs : List Nat) (a n : Nat) (h' : Heap)
    (xs' : List Nat) : Prop where
  list : FreeList base H0 h' xs'
  brk : h'.brk = h.brk
  covered : ∀ x, Covered h' xs' x ↔ Covered h xs x ∧ ¬(a ≤ x ∧ x < a + n)
  block : ∀ x, a ≤ x → x < a + n → Covered h xs x
  size : (h'.mem a).size = n
  frame : ∀ x, x ≠ base → ¬Covered h xs x → h'.mem x = h.mem x

section Take

variable {base H0 : Nat} {h : Heap} {xs : List Nat} {n : Nat} {s t : List Nat} {prev y : Nat}

/-- A block of exactly the request leaves the list: `prev` links past it. -/
theorem FreeList.take_whole (hf : FreeList base H0 h xs) (hl : base :: xs = s ++ prev :: y :: t)
    (hyb : y ≠ base) (hy : (h.mem y).size = n) :
    ∃ xs', Taken base H0 h xs y n
      { h.set prev { h.mem prev with ptr := h.next y } with freep := prev } xs' := by
  have hs := hf.sorted
  have hyx : y ∈ xs := List.mem_of_ne_of_mem hyb (by rw [hl]; simp)
  have hl' : base :: xs = (s ++ [prev]) ++ y :: t := by simp [hl]
  have hlW : base :: xs = s ++ prev :: ([y] ++ t) := by simpa using hl
  have hsp : ∀ x ∈ s, x < prev := (sorted_around hs hl).1
  have hpy : prev < y := (sorted_around hs hl).2 y (by simp)
  have hyt : ∀ x ∈ t, y < x := (sorted_around hs hl').2
  have hpmem : prev ∈ base :: xs := by
    rw [hl]
    simp
  have hframe : ∀ x, x ≠ prev →
      ({ h.set prev { h.mem prev with ptr := h.next y } with freep := prev } : Heap).mem x =
        h.mem x := fun x hx => by simp [hx]
  have hs' : ∀ x ∈ s, _ := fun x hx => hframe x (Nat.ne_of_lt (hsp x hx))
  have hT' : ∀ x ∈ t, _ := fun x hx => hframe x (by have := hyt x hx; omega)
  have hny : (h.mem y).ptr = (t ++ [base]).head (by simp) := hf.next_eq hl'
  obtain ⟨xs', hl''⟩ := exists_cons_of_split hlW ([] ++ t)
  have hfl : FreeList base H0
      { h.set prev { h.mem prev with ptr := h.next y } with freep := prev } xs' :=
    hf.splice hlW (by rfl) (by rfl) hs' hT'
      (by
        rcases eq_or_ne base prev with rfl | hne
        · simpa using hf.base_size
        · rw [hframe base hne]
          exact hf.base_size)
      (by cases t <;> simp [Circle.isPath_cons_cons, Heap.next, hny])
      (by
        cases t with
        | nil => simp
        | cons z t =>
          have h₁ := hf.apart_of_split hl
          have h₂ := hf.apart_of_split (show base :: xs = (s ++ [prev]) ++ y :: z :: t by simp [hl])
          unfold Apart at h₁ h₂
          simp [Apart]
          omega)
      (by
        intro x hx hbx
        obtain rfl : x = prev := by simpa using hx
        simpa using hf.block x (List.mem_of_ne_of_mem (Nat.ne_of_gt hbx) hpmem))
      hl''
  refine ⟨xs', hfl, rfl, fun x => ?_, fun x h₁ h₂ => ⟨y, hyx, h₁, by omega⟩,
    by simp [hy, Nat.ne_of_gt hpy], fun x hxb hxc => hframe x (hf.ne_of_uncovered hpmem hxb hxc)⟩
  rw [covered_of_split hfl.base_size hl'', covered_of_split hf.base_size hlW, covered_congr hs',
    covered_congr hT']
  by_cases hx : y ≤ x ∧ x < y + n
  · -- a unit of `y`'s block is in no other
    obtain ⟨hns, hnt⟩ := hf.not_covered hl' hx.1 (by omega)
    simp only [covered_append, covered_cons, covered_nil, not_or] at hns
    simp [hns, hnt, hx]
  · simp only [covered_cons, covered_nil, or_false, hx, not_false_eq_true, and_true,
      Heap.set_mem_self, hy]

/-- A larger block is cut from its tail: it stays on the list, shorter by the request, and
the request's header is written where the cut falls. -/
theorem FreeList.take_tail (hf : FreeList base H0 h xs) (hl : base :: xs = s ++ prev :: y :: t)
    (hyb : y ≠ base) (hn : 0 < n) (hy : n < (h.mem y).size) :
    Taken base H0 h xs (y + ((h.mem y).size - n)) n
      { (h.set y { h.mem y with size := (h.mem y).size - n }).set (y + ((h.mem y).size - n))
          { h.mem (y + ((h.mem y).size - n)) with size := n } with freep := prev } xs := by
  have hs := hf.sorted
  have hyx : y ∈ xs := List.mem_of_ne_of_mem hyb (by rw [hl]; simp)
  have hyblk := hf.block y hyx
  have hby : base < y := List.rel_of_pairwise_cons hs hyx
  have hl' : base :: xs = (s ++ [prev]) ++ y :: t := by simp [hl]
  have hlW : base :: xs = s ++ prev :: ([y] ++ t) := by simpa using hl
  have hsp : ∀ x ∈ s, x < prev := (sorted_around hs hl).1
  have hpy : prev < y := (sorted_around hs hl).2 y (by simp)
  have hyt : ∀ x ∈ t, y + (h.mem y).size < x := (hf.apart_around hl').2
  have hpmem : prev ∈ base :: xs := by
    rw [hl]
    simp
  have hny : (h.mem y).ptr = (t ++ [base]).head (by simp) := hf.next_eq hl'
  have hnp : (h.mem prev).ptr = y := by simpa [Heap.next] using hf.next_eq hl
  generalize ha : y + ((h.mem y).size - n) = a
  have hya : y < a := by omega
  have han : a + n = y + (h.mem y).size := by omega
  have hframe : ∀ x, x ≠ y → x ≠ a →
      ((h.set y { h.mem y with size := (h.mem y).size - n }).set a
          { h.mem a with size := n }).mem x = h.mem x := by
    intro x hxy hxa
    simp [hxy, hxa]
  have hs' : ∀ x ∈ s, ({ (h.set y { h.mem y with size := (h.mem y).size - n }).set a
      { h.mem a with size := n } with freep := prev } : Heap).mem x = h.mem x := fun x hx =>
    hframe x (by have := hsp x hx; omega) (by have := hsp x hx; omega)
  have hT' : ∀ x ∈ t, ({ (h.set y { h.mem y with size := (h.mem y).size - n }).set a
      { h.mem a with size := n } with freep := prev } : Heap).mem x = h.mem x := fun x hx =>
    hframe x (by have := hyt x hx; omega) (by have := hyt x hx; omega)
  have hp' := hframe prev (Nat.ne_of_lt hpy) (by omega)
  have hy' : ((h.set y { h.mem y with size := (h.mem y).size - n }).set a
      { h.mem a with size := n }).mem y = ⟨(h.mem y).ptr, (h.mem y).size - n⟩ := by
    simp [Nat.ne_of_lt hya]
  have hn'p : ({ (h.set y { h.mem y with size := (h.mem y).size - n }).set a
      { h.mem a with size := n } with freep := prev } : Heap).next prev = y := by
    simp [Heap.next, hp', hnp]
  have hn'y : ({ (h.set y { h.mem y with size := (h.mem y).size - n }).set a
      { h.mem a with size := n } with freep := prev } : Heap).next y =
        (t ++ [base]).head (by simp) := by
    simp only [Heap.next, hy']
    exact hny
  have hfl : FreeList base H0
      { (h.set y { h.mem y with size := (h.mem y).size - n }).set a
          { h.mem a with size := n } with freep := prev } xs :=
    hf.splice (M := [y]) hlW (by rfl) (by rfl) hs' hT'
      (by simpa [hframe base (Ne.symm hyb) (by omega)] using hf.base_size)
      (by
        cases t <;> simp only [List.nil_append, List.cons_append, List.take_succ_cons,
          List.take_zero, Circle.isPath_cons_cons, Circle.isPath_singleton, and_true] <;>
        exact ⟨hn'p, by simpa using hn'y⟩)
      (by
        have hap := hf.apart_of_split hl
        unfold Apart at hap
        cases t with
        | nil => simpa [Apart, hp'] using hap
        | cons z t =>
          have := hyt z (by simp)
          simp [Apart, hp', hy']
          omega)
      (by
        intro x hx hbx
        rcases List.mem_cons.1 hx with rfl | hx
        · simp only [hp']
          exact hf.block x (List.mem_of_ne_of_mem (Nat.ne_of_gt hbx) hpmem)
        · obtain rfl : x = y := by simpa using hx
          simp only [hy']
          omega)
      hlW
  refine ⟨hfl, rfl, fun x => ?_, fun x h₁ h₂ => ⟨y, hyx, by omega, by omega⟩, by simp,
    fun x hxb hxc => ?_⟩
  · rw [covered_of_split hfl.base_size hlW, covered_of_split hf.base_size hlW, covered_congr hs',
      covered_congr hT']
    simp only [covered_cons, covered_nil, or_false, hp', hy']
    by_cases hx : a ≤ x ∧ x < a + n
    · -- a unit of the request is in no block left
      obtain ⟨hns, hnt⟩ := hf.not_covered hl' (a := x) (by omega) (by omega)
      simp only [covered_append, covered_cons, covered_nil, not_or] at hns
      have hnp := hns.2.1
      constructor
      · rintro (hc | hc | hc)
        · exact absurd hc hns.1
        · omega
        · exact absurd hc hnt
      · rintro ⟨-, hna⟩
        exact absurd hx hna
    · simp only [hx, not_false_eq_true, and_true]
      have hcut : (y ≤ x ∧ x < y + ((h.mem y).size - n)) ↔ (y ≤ x ∧ x < y + (h.mem y).size) := by
        omega
      rw [hcut]
  · have hxy := hf.ne_of_uncovered (List.mem_cons_of_mem _ hyx) hxb hxc
    have hxa : x ≠ a := by
      rintro rfl
      exact hxc ⟨y, hyx, by omega, by omega⟩
    simpa using hframe x hxy hxa

theorem FreeList.take_spec (hf : FreeList base H0 h xs) (hl : base :: xs = s ++ prev :: y :: t)
    (hyb : y ≠ base) (hn : 0 < n) (hy : n ≤ (h.mem y).size) (g : Bool) :
    ∃ h' a xs', mallocLoop n g 1 h prev y = some (h', a + 1) ∧ Taken base H0 h xs a n h' xs' := by
  by_cases hex : (h.mem y).size = n
  · obtain ⟨xs', ht⟩ := hf.take_whole hl hyb hex
    exact ⟨_, y, xs', by rw [mallocLoop, if_pos hy, if_pos hex], ht⟩
  · have hcut : y + ((h.mem y).size - n) ≠ y := by omega
    refine ⟨_, _, xs, ?_, hf.take_tail hl hyb hn (by omega)⟩
    rw [mallocLoop, if_pos hy, if_neg hex]
    simp only [Heap.set_mem_self, Heap.set_mem_of_ne _ _ hcut]

theorem LiveOk.take {live : List (Nat × Nat)} (hl : LiveOk H0 h xs live) (hf : FreeList base H0 h xs)
    (hbase : base < H0) {a : Nat} {h' : Heap} {xs' : List Nat} (ht : Taken base H0 h xs a n h' xs')
    (hn : 0 < n) : LiveOk H0 h' xs' ((a, n) :: live) := by
  obtain ⟨x, hx, hxa, -⟩ := ht.block a le_rfl (by omega)
  obtain ⟨z, hz, -, hza⟩ := ht.block (a + n - 1) (by omega) (by omega)
  have hxb := hf.block x hx
  have hzb := hf.block z hz
  have hap : ∀ b ∈ live, a + n ≤ b.1 ∨ b.1 + b.2 ≤ a := by
    intro b hb
    by_contra hover
    have := (hl.block b hb).2.1
    have h₁ := ht.block (max a b.1) (by omega) (by omega)
    exact hl.free b hb (max a b.1) (by omega) (by omega) h₁
  refine ⟨fun b hb => ?_, List.pairwise_cons.2 ⟨hap, hl.apart⟩, fun b hb y h₁ h₂ => ?_⟩
  · rcases List.mem_cons.1 hb with rfl | hb
    · exact ⟨by omega, hn, by rw [ht.brk]; omega, ht.size⟩
    · obtain ⟨hlo, hpos, hhi, hsize⟩ := hl.block b hb
      have hframe := ht.frame b.1 (by omega) (hl.free b hb b.1 le_rfl (by omega))
      exact ⟨hlo, hpos, by rw [ht.brk]; exact hhi, by rw [hframe, hsize]⟩
  · rw [ht.covered]
    rcases List.mem_cons.1 hb with rfl | hb
    · exact fun hc => hc.2 ⟨h₁, h₂⟩
    · exact fun hc => hl.free b hb y h₁ h₂ hc.1

end Take

/-! ## `morecore` -/

section Morecore

variable {base H0 : Nat} {h : Heap} {xs : List Nat} {n : Nat}

/-- `morecore` for a request whose bytes fit an `int`: refused, nothing changes; granted,
the new block is freed onto the list, which then holds a block of at least the request. -/
theorem FreeList.morecore_spec (hf : FreeList base H0 h xs) {live : List (Nat × Nat)}
    (hl : LiveOk H0 h xs live) (hb0 : 0 < base) (hbase : base < H0) (hH : H0 ≤ h.brk)
    (hn : n * 16 < 2 ^ 31) :
    morecore h n false = some (h, 0) ∧
    ∃ h' xs', morecore h n true = some (h', h'.freep) ∧ 0 < h'.freep ∧
      FreeList base H0 h' xs' ∧ H0 ≤ h'.brk ∧ xs'.length ≤ xs.length + 1 ∧
      (∃ y ∈ xs', n ≤ (h'.mem y).size) ∧ LiveOk H0 h' xs' live := by
  obtain ⟨nu, hnu⟩ : ∃ nu, (if n < 4096 then 4096 else n) = nu := ⟨_, rfl⟩
  have hnun : n ≤ nu ∧ 4096 ≤ nu ∧ ¬2 ^ 31 ≤ nu * 16 := by
    subst hnu
    split <;> omega
  -- `sbrk` gets `nu * sizeof(Header)` whole and grows the break by `nu` headers
  have hs : sbrkArg nu = nu * 16 := sbrkArg_of_lt (by omega)
  have hpos : ¬sbrkArg nu < 0 := by omega
  have hgrow : (sbrkArg nu).toNat / 16 = nu := by omega
  refine ⟨by simp only [morecore, hnu, if_neg hpos, Bool.not_false, ↓reduceIte], ?_⟩
  have hbelow : ∀ x ∈ base :: xs, x < h.brk := fun x hx => by
    rcases List.mem_cons.1 hx with rfl | hx
    · omega
    · have := hf.block x hx
      omega
  have hag : ∀ x ∈ base :: xs, (({ h with brk := h.brk + nu } : Heap).set h.brk
      { h.mem h.brk with size := nu }).mem x = h.mem x := fun x hx => by
    simp [Nat.ne_of_lt (hbelow x hx)]
  have hf0 := hf.of_agree hag (by simp) (by simp)
  have hb : Fresh H0 (({ h with brk := h.brk + nu } : Heap).set h.brk
      { h.mem h.brk with size := nu }) xs h.brk := by
    refine ⟨hH, by simp; omega, by simp, fun a h₁ _ ⟨x, hx, _, hax⟩ => ?_⟩
    rw [hag x (List.mem_cons_of_mem _ hx)] at hax
    have := hf.block x hx
    omega
  obtain ⟨h', xs', hfree, hfr⟩ := hf0.free_spec hbase hb
  have hl0 := hl.of_agree (fun b hb => by
      have := hl.block b hb
      simp [show b.1 ≠ h.brk by omega])
    (fun x hx => hag x (List.mem_cons_of_mem _ hx)) (by simp)
  have hfl := hfr.list
  refine ⟨h', xs', by simp only [morecore, hnu, if_neg hpos, hgrow, Bool.not_true,
    Bool.false_eq_true, ↓reduceIte, hfree, Option.map_some], ?_, hfl, ?_, hfr.length, ?_,
    hl0.freed hbase hfr (fun c hc => .inr (hl.block c hc).2.2.1)
      fun c hc => by have := hl.block c hc; omega⟩
  · rcases List.mem_cons.1 hfl.freep with he | hx
    · omega
    · have := hfl.block _ hx
      omega
  · rw [hfr.brk]
    simp
    omega
  · obtain ⟨y, hy, hyb, hsize⟩ := hfr.holds
    refine ⟨y, hy, ?_⟩
    simp at hsize
    omega

end Morecore

/-! ## `malloc` -/

section Malloc

variable {base H0 : Nat} {h : Heap} {xs : List Nat} {n : Nat} {live : List (Nat × Nat)}

theorem FreeList.take_live (hf : FreeList base H0 h xs) (hl : LiveOk H0 h xs live)
    (hbase : base < H0) (hn : 0 < n) {prev y : Nat} (hprev : prev ∈ base :: xs)
    (hnext : h.next prev = y) (hyb : y ≠ base) (hy : n ≤ (h.mem y).size) (g : Bool) :
    ∃ h' a xs', mallocLoop n g 1 h prev y = some (h', a + 1) ∧ FreeList base H0 h' xs' ∧
      h'.brk = h.brk ∧ LiveOk H0 h' xs' ((a, n) :: live) := by
  obtain ⟨s, t, hst⟩ := hf.pred hprev hnext hyb
  obtain ⟨h', a, xs', hrun, ht⟩ := hf.take_spec hst hyb hn hy g
  exact ⟨h', a, xs', hrun, ht.list, ht.brk, hl.take hf hbase ht hn⟩

/-- The loop of `malloc` from `freep`, with fuel for two laps: it returns, with `0` when
`sbrk` refuses and otherwise one header past a new live block of the request's size. -/
theorem FreeList.loop_spec (hf : FreeList base H0 h xs) (hl : LiveOk H0 h xs live)
    (hb0 : 0 < base) (hbase : base < H0) (hH : H0 ≤ h.brk) (hn0 : 0 < n) (hn : n * 16 < 2 ^ 31)
    (g : Bool) (fuel : Nat) (hfuel : 2 * xs.length + 3 ≤ fuel) :
    ∃ h' r xs', mallocLoop n g fuel h h.freep (h.next h.freep) = some (h', r) ∧
      FreeList base H0 h' xs' ∧ H0 ≤ h'.brk ∧
      LiveOk H0 h' xs' (if r = 0 then live else (r - 1, n) :: live) := by
  rcases hf.lap (g := g) hn0 fuel (by omega) with
    ⟨prev, y, hprev, hnext, hyb, hy, heq⟩ | ⟨hall, prev, heq⟩
  · -- taken in the first lap
    obtain ⟨h', a, xs', hrun, hf', hbrk, hl'⟩ := hf.take_live hl hbase hn0 hprev hnext hyb hy g
    refine ⟨h', a + 1, xs', heq.trans hrun, hf', hbrk ▸ hH, ?_⟩
    simpa using hl'
  · -- back at `freep`: `morecore`
    obtain ⟨k, hk⟩ : ∃ k, fuel - xs.length = k + 1 := ⟨fuel - xs.length - 1, by omega⟩
    have hsmall := hall h.freep hf.freep
    rw [hk, mallocLoop, if_neg (by omega), if_pos rfl] at heq
    obtain ⟨hrefuse, h', xs', hgrant, hfp, hf', hH', hlen', ⟨y, hy, hny⟩, hl'⟩ :=
      hf.morecore_spec hl hb0 hbase hH hn
    cases g with
    | false =>
      rw [hrefuse] at heq
      exact ⟨h, 0, xs, heq, hf, hH, by simpa using hl⟩
    | true =>
      obtain ⟨p, hp⟩ : ∃ p, h'.freep = p + 1 := ⟨h'.freep - 1, by omega⟩
      rw [hgrant, hp] at heq
      simp only at heq
      rw [← hp] at heq
      rcases hf'.lap (g := true) hn0 k (by omega) with
        ⟨prev', y', hprev', hnext', hyb', hy', heq'⟩ | ⟨hall', -⟩
      · obtain ⟨h'', a, xs'', hrun, hf'', hbrk, hl''⟩ :=
          hf'.take_live hl' hbase hn0 hprev' hnext' hyb' hy' true
        refine ⟨h'', a + 1, xs'', heq.trans (heq'.trans hrun), hf'', hbrk ▸ hH', ?_⟩
        simpa using hl''
      · exact absurd (hall' y (List.mem_cons_of_mem _ hy)) (by omega)

end Malloc

/-! ## Runs -/

/-- The allocator after its first `malloc`: a free list, and live blocks apart from it and
from each other, all inside `[H0, brk)`. -/
structure Ready (base H0 : Nat) (s : Alloc) : Prop where
  brk : H0 ≤ s.heap.brk
  list : ∃ xs, FreeList base H0 s.heap xs ∧ LiveOk H0 s.heap xs s.live

/-- Before the first call, or after a `malloc`. -/
def Inv (base H0 : Nat) (s : Alloc) : Prop :=
  (H0 ≤ s.heap.brk ∧ s.heap.freep = 0 ∧ s.live = []) ∨ Ready base H0 s

/-- The heap `malloc`'s loop starts from: on the first call, the list of `base` alone. -/
def initBase (base : Nat) (h : Heap) : Heap :=
  if h.freep = 0 then { h.set base ⟨base, 0⟩ with freep := base } else h

theorem malloc_eq (base : Nat) (h : Heap) (nbytes : Nat) (g : Bool) :
    malloc base h nbytes g = mallocLoop (nunitsOf nbytes) g (2 * h.brk + 4) (initBase base h)
      (initBase base h).freep ((initBase base h).next (initBase base h).freep) := by
  unfold malloc initBase
  split <;> rfl

section Run

variable {base H0 : Nat} {s : Alloc}

theorem Inv.start (hinv : Inv base H0 s) (hb0 : 0 < base) :
    ∃ xs, FreeList base H0 (initBase base s.heap) xs ∧ LiveOk H0 (initBase base s.heap) xs s.live ∧
      H0 ≤ (initBase base s.heap).brk := by
  unfold initBase
  rcases hinv with ⟨hH, hfp, hlive⟩ | ⟨hH, xs, hf, hl⟩
  · rw [if_pos hfp, hlive]
    refine ⟨[], ⟨?_, by simp, List.IsChain.singleton base, by simp, by simp⟩,
      ⟨by simp, List.Pairwise.nil, by simp⟩, hH⟩
    simp [Circle.isCircle_cons, Circle.isPath_cons_cons, Heap.next]
  · have hfp : s.heap.freep ≠ 0 := by
      rcases List.mem_cons.1 hf.freep with he | hx
      · omega
      · have := List.rel_of_pairwise_cons hf.sorted hx
        omega
    rw [if_neg hfp]
    exact ⟨xs, hf, hl, hH⟩

theorem nunitsOf_pos (nbytes : Nat) : 0 < nunitsOf nbytes := by
  unfold nunitsOf
  omega

/-- `malloc` of a request whose bytes fit an `int` returns, and keeps the allocator ready. -/
theorem malloc_spec (hinv : Inv base H0 s) (hb0 : 0 < base) (hbase : base < H0) (nbytes : Nat)
    (hn : nunitsOf nbytes * 16 < 2 ^ 31) (g : Bool) :
    ∃ h' r, malloc base s.heap nbytes g = some (h', r) ∧
      Ready base H0 ⟨h', if r = 0 then s.live else (r - 1, nunitsOf nbytes) :: s.live⟩ := by
  obtain ⟨xs, hf, hl, hH⟩ := hinv.start hb0
  have hbrk : (initBase base s.heap).brk = s.heap.brk := by
    unfold initBase
    split <;> rfl
  have hlen := hf.length_le
  obtain ⟨h', r, xs', hrun, hf', hH', hl'⟩ :=
    hf.loop_spec hl hb0 hbase hH (nunitsOf_pos nbytes) hn g (2 * s.heap.brk + 4)
      (by omega)
  exact ⟨h', r, by rw [malloc_eq]; exact hrun, hH', xs', hf', hl'⟩

theorem Inv.step_ok (hinv : Inv base H0 s) (hb0 : 0 < base) (hbase : base < H0) {c : UCall}
    {r : Except String Alloc} (hstep : step base s c = some r) : ∃ s', r = .ok s' ∧ Ready base H0 s' := by
  cases c with
  | malloc nbytes g =>
    simp only [step] at hstep
    split_ifs at hstep with hbig
    obtain ⟨h', r', hm, hready⟩ := malloc_spec hinv hb0 hbase nbytes.toNat (by omega) g
    rw [hm] at hstep
    rcases r' with _ | r'
    · simp only [Option.some.injEq] at hstep
      exact ⟨_, hstep.symm, by simpa using hready⟩
    · simp only [Option.some.injEq] at hstep
      exact ⟨_, hstep.symm, by simpa using hready⟩
  | free ap =>
    simp only [step] at hstep
    rcases hinv with ⟨-, -, hlive⟩ | hready
    · simp [hlive] at hstep
    · obtain ⟨xs, hf, hl⟩ := hready.list
      cases hb : s.live.find? (·.1 == ap - 1) with
      | none => simp [hb] at hstep
      | some b =>
        rw [hb] at hstep
        have hbm : b ∈ s.live := List.mem_of_find?_eq_some hb
        have hb1 : b.1 = ap - 1 := by simpa using List.find?_some hb
        have hfresh := hl.fresh hbm
        have hap : ap = b.1 + 1 := by
          have := hfresh.lo
          omega
        obtain ⟨h', xs', hfree, hfr⟩ := hf.free_spec hbase hfresh
        rw [hap, hfree] at hstep
        simp only [Option.some.injEq] at hstep
        exact ⟨_, hstep.symm, hfr.brk ▸ hready.brk, xs', hfr.list, hl.erase hbase hbm hfr⟩

theorem Inv.run (hinv : Inv base H0 s) (hb0 : 0 < base) (hbase : base < H0)
    {calls : List UCall} (hc : calls ≠ []) {r : Except String Alloc}
    (hrun : exec base s calls = some r) : ∃ s', r = .ok s' ∧ Ready base H0 s' := by
  induction calls generalizing s with
  | nil => exact absurd rfl hc
  | cons c cs ih =>
    cases hs : step base s c with
    | none => simp [exec, hs] at hrun
    | some r₁ =>
      obtain ⟨s₁, rfl, hready⟩ := hinv.step_ok hb0 hbase hs
      simp only [exec, hs] at hrun
      cases cs with
      | nil =>
        simp only [exec, Option.some.injEq] at hrun
        exact ⟨s₁, hrun.symm, hready⟩
      | cons c' cs => exact ih (.inr hready) (List.cons_ne_nil _ _) hrun

/-- From the first call on, any run of `malloc` and `free` calls of the program's use
returns from every call and keeps the free list and the live blocks. -/
theorem run_keeps_freelist (mem : Nat → Header) (hb0 : 0 < base) (hbase : base < H0)
    (calls : List UCall) (hc : calls ≠ []) {r : Except String Alloc}
    (hrun : exec base (init mem H0) calls = some r) : ∃ s, r = .ok s ∧ Ready base H0 s := by
  have hinit : Inv base H0 (init mem H0) := .inl ⟨le_rfl, rfl, rfl⟩
  exact hinit.run hb0 hbase hc hrun

theorem run_keeps_freelist_twice :
    ∃ r, exec 1 (init (fun _ => ⟨0, 0⟩) 2) [.malloc 10 true, .free 4097] = some r ∧
      ∃ s, r = .ok s ∧ Ready 1 2 s :=
  ⟨_, rfl, run_keeps_freelist (fun _ => ⟨0, 0⟩) (by decide) (by decide)
    [.malloc 10 true, .free 4097] (List.cons_ne_nil _ _) rfl⟩

end Run

end Umalloc

end Xv6
