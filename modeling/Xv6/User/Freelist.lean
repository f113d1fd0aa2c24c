import Xv6.User.Umalloc
import Mathlib.Data.List.Perm.Subperm
import Mathlib.Order.Basic
import Mathlib.Data.List.TakeWhile

/-!
# The free list of `umalloc`

What `umalloc.c` keeps true.  After the first `malloc` the free list is `base` followed by
the free blocks `xs` in increasing address order, linked round through `s.ptr` back to
`base` (`FreeList`).  Each block ends before the next starts, so no two are adjacent; each
lies between the first break `H0` and the current one.  The blocks `malloc` handed out and
`free` has not taken back (`LiveOk`) lie there too, apart from each other and from every
free header unit.

`free_spec` and `malloc_spec` say what one call does to the list; `Inv.step` follows, and
`freelist_invariant` holds along every run.
-/

namespace Xv6

namespace Umalloc

/-- `x`'s block ends before `y` starts. -/
def Apart (h : Heap) (x y : Nat) : Prop := x + (h.mem x).size < y

/-- Unit `a` lies in one of the blocks `l`. -/
def Covered (h : Heap) (l : List Nat) (a : Nat) : Prop := ∃ x ∈ l, x ≤ a ∧ a < x + (h.mem x).size

section Invariant

variable (base H0 : Nat)

/-- The free list: `base`, of size `0`, then the blocks `xs`, linked in a circle, in
increasing order with a gap after each, inside `[H0, brk)`; `freep` is on it. -/
structure FreeList (h : Heap) (xs : List Nat) : Prop where
  ring : Circle.IsCircle h.next (base :: xs)
  base_size : (h.mem base).size = 0
  apart : (base :: xs).IsChain (Apart h)
  block : ∀ x ∈ xs, H0 ≤ x ∧ 0 < (h.mem x).size ∧ x + (h.mem x).size ≤ h.brk
  freep : h.freep ∈ base :: xs

/-- The live blocks, each `(header, size)`: inside `[H0, brk)` with their size in their
header, apart from each other and from the free blocks. -/
structure LiveOk (h : Heap) (xs : List Nat) (live : List (Nat × Nat)) : Prop where
  block : ∀ b ∈ live, H0 ≤ b.1 ∧ 0 < b.2 ∧ b.1 + b.2 ≤ h.brk ∧ (h.mem b.1).size = b.2
  apart : live.Pairwise fun b c => b.1 + b.2 ≤ c.1 ∨ c.1 + c.2 ≤ b.1
  free : ∀ b ∈ live, ∀ a, b.1 ≤ a → a < b.1 + b.2 → ¬Covered h xs a

end Invariant

/-! ## Order on the list -/

section Order

variable {base H0 : Nat} {h : Heap} {xs : List Nat}

theorem FreeList.sorted (hf : FreeList base H0 h xs) : (base :: xs).Pairwise (· < ·) := by
  have hlt : (base :: xs).IsChain (· < ·) := hf.apart.imp fun a b hab => by
    unfold Apart at hab
    omega
  exact List.isChain_iff_pairwise.1 hlt

theorem FreeList.next_eq (hf : FreeList base H0 h xs) {s t : List Nat} {x : Nat}
    (hx : base :: xs = s ++ x :: t) : h.next x = (t ++ [base]).head (by simp) := by
  have hpath := hf.ring.isPath
  have hring : Circle.IsPath h.next (s ++ (x :: t ++ [base])) := by
    have := hf.ring
    unfold Circle.IsCircle at this
    rw [List.take_succ_cons, List.take_zero, hx] at this
    simpa using this
  have hxt := hring.right
  cases t with
  | nil => simpa [Circle.isPath_cons_cons] using hxt
  | cons y t => exact (Circle.isPath_cons_cons.1 (by simpa using hxt)).1

theorem FreeList.length_le (hf : FreeList base H0 h xs) : xs.length ≤ h.brk := by
  have hnd : xs.Nodup := (List.pairwise_cons.1 hf.sorted).2.imp (fun hab => Nat.ne_of_lt hab)
  have hsub : xs ⊆ List.range h.brk := fun x hx => by
    have := hf.block x hx
    rw [List.mem_range]
    omega
  simpa using (List.Nodup.subperm hnd hsub).length_le

theorem sorted_around {l a b : List Nat} {x : Nat} (hs : l.Pairwise (· < ·)) (hl : l = a ++ x :: b) :
    (∀ y ∈ a, y < x) ∧ ∀ y ∈ b, x < y := by
  subst hl
  obtain ⟨-, hxb, hab⟩ := List.pairwise_append.1 hs
  exact ⟨fun y hy => hab y hy x (by simp), fun y hy => List.rel_of_pairwise_cons hxb hy⟩

theorem FreeList.apart_of_split (hf : FreeList base H0 h xs) {s t : List Nat} {x y : Nat}
    (hl : base :: xs = s ++ x :: y :: t) : Apart h x y := by
  have := hf.apart
  rw [hl] at this
  exact (List.isChain_append_cons_cons.1 this).2.1

theorem FreeList.pairwise_apart (hf : FreeList base H0 h xs) : (base :: xs).Pairwise (Apart h) := by
  have : IsTrans Nat (Apart h) := ⟨fun a b c hab hbc => by
    unfold Apart at hab hbc ⊢
    omega⟩
  exact List.isChain_iff_pairwise.1 hf.apart

theorem FreeList.pred (hf : FreeList base H0 h xs) {x y : Nat} (hx : x ∈ base :: xs)
    (hxy : h.next x = y) (hy : y ≠ base) : ∃ s t, base :: xs = s ++ x :: y :: t := by
  obtain ⟨s, t, hl⟩ := List.append_of_mem hx
  rw [hf.next_eq hl] at hxy
  cases t with
  | nil => exact absurd hxy.symm (by simpa using hy)
  | cons z t =>
    obtain rfl : z = y := by simpa using hxy
    exact ⟨s, t, hl⟩

theorem find?_of_unique {l : List Nat} {f : Nat → Bool} {p : Nat} (hp : p ∈ l)
    (hf : ∀ x ∈ l, f x = true ↔ x = p) : l.find? f = some p := by
  induction l with
  | nil => cases hp
  | cons y l ih =>
    by_cases hy : f y = true
    · rw [List.find?_cons_of_pos hy, (hf y (by simp)).1 hy]
    · rw [List.find?_cons_of_neg hy]
      have hne : p ≠ y := fun he => hy ((hf y (by simp)).2 he.symm)
      exact ih (List.mem_of_ne_of_mem hne hp) fun x hx => hf x (List.mem_cons_of_mem y hx)

theorem FreeList.walk_freep (hf : FreeList base H0 h xs) {stop : Nat → Bool} {p : Nat}
    (hfind : ∀ l, List.Perm l (base :: xs) → l.head? = some h.freep → l.find? stop = some p) :
    Circle.walk h.next stop (h.brk + 2) h.freep = some p := by
  obtain ⟨s, t, hst⟩ := List.append_of_mem hf.freep
  have hc := (hst ▸ hf.ring).from_mem
  have hperm : List.Perm (h.freep :: t ++ s) (base :: xs) := by
    rw [hst]
    exact (List.perm_middle.trans (List.Perm.cons _ List.perm_append_comm)).symm
  refine Circle.walk_of_path hc.isPath (hfind _ hperm rfl) ?_
  have hlen := hperm.length_eq
  have := hf.length_le
  simp only [List.append_eq, List.cons_append, List.length_cons, List.length_append] at hlen ⊢
  omega

end Order

/-! ## Rewiring the list -/

section Splice

variable {base H0 : Nat} {h : Heap} {xs : List Nat}

@[simp] theorem covered_nil {a : Nat} : ¬Covered h [] a := by
  simp [Covered]

@[simp] theorem covered_cons {x a : Nat} {l : List Nat} :
    Covered h (x :: l) a ↔ (x ≤ a ∧ a < x + (h.mem x).size) ∨ Covered h l a := by
  simp [Covered]

@[simp] theorem covered_append {a : Nat} {l₁ l₂ : List Nat} :
    Covered h (l₁ ++ l₂) a ↔ Covered h l₁ a ∨ Covered h l₂ a := by
  simp only [Covered, List.mem_append]
  constructor
  · rintro ⟨x, hx | hx, hax⟩
    · exact .inl ⟨x, hx, hax⟩
    · exact .inr ⟨x, hx, hax⟩
  · rintro (⟨x, hx, hax⟩ | ⟨x, hx, hax⟩)
    · exact ⟨x, .inl hx, hax⟩
    · exact ⟨x, .inr hx, hax⟩

theorem covered_congr {h' : Heap} {l : List Nat} (hag : ∀ x ∈ l, h'.mem x = h.mem x) {a : Nat} :
    Covered h' l a ↔ Covered h l a := by
  constructor
  · rintro ⟨x, hx, hax⟩
    exact ⟨x, hx, by rwa [← hag x hx]⟩
  · rintro ⟨x, hx, hax⟩
    exact ⟨x, hx, by rwa [hag x hx]⟩

theorem sorted_of_apart {l : List Nat} (ha : l.IsChain (Apart h)) : l.Pairwise (· < ·) := by
  have hlt : l.IsChain (· < ·) := ha.imp fun a b hab => by
    unfold Apart at hab
    omega
  exact List.isChain_iff_pairwise.1 hlt

/-- The free list after it is rewired past `p`: the nodes `W` taken out and `M` put in,
before a suffix `T`.  The nodes before `p` and in `T` keep their headers, so only the links
and gaps from `p` to the head of `T`, and the new blocks, are to be shown. -/
theorem FreeList.splice (hf : FreeList base H0 h xs) {s W T M : List Nat} {p : Nat}
    (hl : base :: xs = s ++ p :: (W ++ T)) {h' : Heap} (hbrk : h'.brk = h.brk)
    (hfp : h'.freep = p) (hs : ∀ x ∈ s, h'.mem x = h.mem x) (hT : ∀ x ∈ T, h'.mem x = h.mem x)
    (hbase : (h'.mem base).size = 0)
    (hpath : Circle.IsPath h'.next (p :: M ++ (T ++ [base]).take 1))
    (hapart : (p :: M ++ T.take 1).IsChain (Apart h'))
    (hblock : ∀ x ∈ p :: M, base < x →
      H0 ≤ x ∧ 0 < (h'.mem x).size ∧ x + (h'.mem x).size ≤ h.brk)
    {xs' : List Nat} (hl' : base :: xs' = s ++ p :: (M ++ T)) : FreeList base H0 h' xs' := by
  have hring := Circle.isCircle_cons.1 hf.ring
  rw [hl] at hring
  have hold := hf.apart
  rw [hl] at hold
  have hsp : Circle.IsPath h'.next (s ++ [p]) := by
    have := (show Circle.IsPath h.next ((s ++ [p]) ++ (W ++ T ++ [base])) by simpa using hring).left
    exact this.congr fun x hx => by
      rw [List.dropLast_concat] at hx
      simp [Heap.next, hs x hx]
  have hTp : Circle.IsPath h'.next (T ++ [base]) := by
    have := (show Circle.IsPath h.next ((s ++ p :: W) ++ (T ++ [base])) by simpa using hring).right
    exact this.congr fun x hx => by
      rw [List.dropLast_concat] at hx
      simp [Heap.next, hT x hx]
  have hsa : (s ++ [p]).IsChain (Apart h') := by
    have := (show ((s ++ [p]) ++ (W ++ T)).IsChain (Apart h) by simpa using hold).left_of_append
    refine Circle.isChain_of_dropLast this fun x hx y hxy => ?_
    rw [List.dropLast_concat] at hx
    simpa [Apart, hs x hx] using hxy
  have hTa : T.IsChain (Apart h') := by
    have := (show ((s ++ p :: W) ++ T).IsChain (Apart h) by simpa using hold).right_of_append
    exact this.imp_of_mem_imp fun x y hx _ hxy => by simpa [Apart, hT x hx] using hxy
  have hsorted : (base :: xs').Pairwise (· < ·) := by
    rw [hl']
    exact sorted_of_apart (List.isChain_split.2 ⟨hsa, Circle.isChain_glue hapart hTa⟩)
  refine ⟨?_, hbase, ?_, fun x hx => ?_, ?_⟩
  · rw [Circle.isCircle_cons, hl']
    have : Circle.IsPath h'.next (s ++ p :: (M ++ (T ++ [base]))) :=
      List.isChain_split.2 ⟨hsp, Circle.isChain_glue hpath hTp⟩
    simpa using this
  · rw [hl']
    exact List.isChain_split.2 ⟨hsa, Circle.isChain_glue hapart hTa⟩
  · have hbx : base < x := List.rel_of_pairwise_cons hsorted hx
    have hold_block : ∀ y ∈ s ++ T, y = x → H0 ≤ x ∧ 0 < (h'.mem x).size ∧
        x + (h'.mem x).size ≤ h'.brk := by
      rintro y hy rfl
      have hmem : y ∈ xs := by
        have : y ∈ base :: xs := by
          rw [hl]
          rcases List.mem_append.1 hy with hy | hy <;> simp [hy]
        exact List.mem_of_ne_of_mem (Nat.ne_of_gt hbx) this
      have hyh : h'.mem y = h.mem y := by
        rcases List.mem_append.1 hy with hy | hy
        · exact hs y hy
        · exact hT y hy
      rw [hyh, hbrk]
      exact hf.block y hmem
    have hx' : x ∈ s ++ p :: (M ++ T) := by
      rw [← hl']
      exact List.mem_cons_of_mem base hx
    rcases List.mem_append.1 hx' with hxs | hxp
    · exact hold_block x (List.mem_append_left _ hxs) rfl
    · rcases List.mem_cons.1 hxp with rfl | hxm
      · rw [hbrk]
        exact hblock x (by simp) hbx
      · rcases List.mem_append.1 hxm with hxm | hxt
        · rw [hbrk]
          exact hblock x (List.mem_cons_of_mem p hxm) hbx
        · exact hold_block x (List.mem_append_right _ hxt) rfl
  · rw [hfp, hl']
    simp

theorem covered_of_split {l s M T : List Nat} {p a : Nat} (hb0 : (h.mem base).size = 0)
    (hl : base :: l = s ++ p :: (M ++ T)) :
    Covered h l a ↔ Covered h s a ∨ Covered h (p :: M) a ∨ Covered h T a := by
  have hempty : Covered h (base :: l) a ↔ Covered h l a := by
    rw [covered_cons, hb0]
    constructor
    · rintro (⟨h₁, h₂⟩ | hc)
      · omega
      · exact hc
    · exact .inr
  rw [← hempty, hl, ← List.cons_append, covered_append, covered_append]

theorem FreeList.apart_around (hf : FreeList base H0 h xs) {s t : List Nat} {y : Nat}
    (hl : base :: xs = s ++ y :: t) :
    (∀ z ∈ s, z + (h.mem z).size < y) ∧ ∀ z ∈ t, y + (h.mem y).size < z := by
  have hp := hf.pairwise_apart
  rw [hl] at hp
  obtain ⟨-, hyt, hsy⟩ := List.pairwise_append.1 hp
  exact ⟨fun z hz => hsy z hz y (by simp), fun z hz => List.rel_of_pairwise_cons hyt hz⟩

theorem FreeList.not_covered (hf : FreeList base H0 h xs) {s t : List Nat} {y a : Nat}
    (hl : base :: xs = s ++ y :: t) (h₁ : y ≤ a) (h₂ : a < y + (h.mem y).size) :
    ¬Covered h s a ∧ ¬Covered h t a := by
  obtain ⟨hs, ht⟩ := hf.apart_around hl
  constructor
  · rintro ⟨x, hx, hxa, hax⟩
    have := hs x hx
    omega
  · rintro ⟨x, hx, hxa, hax⟩
    have := ht x hx
    omega

theorem FreeList.ne_of_uncovered (hf : FreeList base H0 h xs) {p x : Nat} (hp : p ∈ base :: xs)
    (hxb : x ≠ base) (hxc : ¬Covered h xs x) : x ≠ p := by
  rintro rfl
  rcases List.mem_cons.1 hp with rfl | hpx
  · exact hxb rfl
  · exact hxc ⟨x, hpx, le_rfl, by have := (hf.block x hpx).2.1; omega⟩

theorem FreeList.of_agree (hf : FreeList base H0 h xs) {h' : Heap}
    (hag : ∀ x ∈ base :: xs, h'.mem x = h.mem x) (hbrk : h.brk ≤ h'.brk) (hfp : h'.freep = h.freep) :
    FreeList base H0 h' xs := by
  refine ⟨?_, by rw [hag base (by simp)]; exact hf.base_size, ?_, fun x hx => ?_, hfp ▸ hf.freep⟩
  · rw [Circle.isCircle_cons]
    refine (Circle.isCircle_cons.1 hf.ring).congr fun x hx => ?_
    rw [List.dropLast_concat] at hx
    simp [Heap.next, hag x hx]
  · exact hf.apart.imp_of_mem_imp fun x y hx _ hxy => by simpa [Apart, hag x hx] using hxy
  · rw [hag x (List.mem_cons_of_mem base hx)]
    have := hf.block x hx
    omega

theorem exists_cons_of_split {s R : List Nat} {p : Nat} (hl : base :: xs = s ++ p :: R)
    (R' : List Nat) : ∃ xs', base :: xs' = s ++ p :: R' := by
  cases s with
  | nil =>
    obtain ⟨rfl, -⟩ := List.cons.inj hl
    exact ⟨R', rfl⟩
  | cons b s =>
    obtain ⟨rfl, -⟩ := List.cons.inj hl
    exact ⟨s ++ p :: R', rfl⟩

end Splice

/-! ## Where `free` puts a block -/

section Free

variable {base H0 : Nat} {h : Heap} {xs : List Nat} {bp : Nat}

/-- A block that may be given to `free`: inside `[H0, brk)` with its size in its header,
and apart from every free block. -/
structure Fresh (H0 : Nat) (h : Heap) (xs : List Nat) (bp : Nat) : Prop where
  lo : H0 ≤ bp
  pos : 0 < (h.mem bp).size
  hi : bp + (h.mem bp).size ≤ h.brk
  free : ∀ a, bp ≤ a → a < bp + (h.mem bp).size → ¬Covered h xs a

theorem dropWhile_lt_le {l : List Nat} (hs : l.Pairwise (· < ·)) (b : Nat) :
    ∀ z ∈ l.dropWhile (· < b), b ≤ z := by
  induction l with
  | nil => simp
  | cons x l ih =>
    intro z hz
    by_cases hx : x < b
    · rw [List.dropWhile_cons_of_pos (by simpa using hx)] at hz
      exact ih (List.pairwise_cons.1 hs).2 z hz
    · rw [List.dropWhile_cons_of_neg (by simpa using hx)] at hz
      rcases List.mem_cons.1 hz with rfl | hz
      · omega
      · have := List.rel_of_pairwise_cons hs hz
        omega

/-- The list around a block to be freed: the nodes that end before it, the last of them
`p`, and the blocks that start after it. -/
theorem FreeList.split (hf : FreeList base H0 h xs) (hbase : base < H0) (hb : Fresh H0 h xs bp) :
    ∃ s p t, base :: xs = s ++ p :: t ∧ (p < bp ∧ p + (h.mem p).size ≤ bp) ∧
      ∀ z ∈ t, bp + (h.mem bp).size ≤ z := by
  have hs := hf.sorted
  have hne : base :: xs.takeWhile (· < bp) ≠ [] := List.cons_ne_nil _ _
  refine ⟨(base :: xs.takeWhile (· < bp)).dropLast, (base :: xs.takeWhile (· < bp)).getLast hne,
    xs.dropWhile (· < bp), ?_, ?_, fun z hz => ?_⟩
  · rw [List.append_cons, List.dropLast_append_getLast hne, List.cons_append,
      List.takeWhile_append_dropWhile]
  · have hmem := List.getLast_mem hne
    generalize (base :: xs.takeWhile (· < bp)).getLast hne = p at hmem ⊢
    have := hb.lo
    rcases List.mem_cons.1 hmem with rfl | hp
    · rw [hf.base_size]
      omega
    · have hlt : p < bp := by simpa using List.mem_takeWhile_imp hp
      have hpx : p ∈ xs := (List.takeWhile_sublist _).subset hp
      refine ⟨hlt, ?_⟩
      by_contra hover
      exact hb.free bp le_rfl (by have := hb.pos; omega) ⟨p, hpx, by omega, by omega⟩
  · have hzx : z ∈ xs := (List.dropWhile_sublist _).subset hz
    have hle := dropWhile_lt_le (List.pairwise_cons.1 hs).2 bp z hz
    by_contra hover
    have hz0 := (hf.block z hzx).2.1
    exact hb.free z hle (by omega) ⟨z, hzx, le_rfl, by omega⟩

theorem FreeList.freeStop_iff (hf : FreeList base H0 h xs) (hbase : base < bp)
    {s t : List Nat} {p : Nat} (hl : base :: xs = s ++ p :: t) (hp : p < bp) (ht : ∀ z ∈ t, bp < z)
    {x : Nat} (hx : x ∈ base :: xs) : freeStop h bp x = true ↔ x = p := by
  have hs := hf.sorted
  rw [hl, List.mem_append, List.mem_cons] at hx
  rcases hx with hx | hx | hx
  · -- before `p`: the successor is after `x` and at most `p`
    obtain ⟨s₁, s₂, rfl⟩ := List.append_of_mem hx
    have hl' : base :: xs = s₁ ++ x :: (s₂ ++ p :: t) := by simp [hl]
    have hy : (s₂ ++ p :: t ++ [base]).head (by simp) ∈ s₂ ++ [p] := by
      cases s₂ <;> simp
    rw [freeStop, hf.next_eq hl']
    generalize (s₂ ++ p :: t ++ [base]).head _ = y at hy
    have hxy := (sorted_around hs hl').2 y (by
      rcases List.mem_append.1 hy with hy | hy
      · exact List.mem_append_left _ hy
      · simp at hy
        simp [hy])
    have hyp : y ≤ p := by
      rcases List.mem_append.1 hy with hy | hy
      · exact Nat.le_of_lt ((sorted_around hs hl).1 y (by simp [hy]))
      · simp at hy
        omega
    have hxp : x < p := by omega
    simp
    omega
  · -- `p`: `bp` lies between it and its successor, or past the last block
    subst hx
    have hnx := hf.next_eq hl
    have hbp : base ≤ x := by
      rcases s with _ | ⟨b, s⟩
      · simp at hl
        omega
      · simp only [List.cons_append, List.cons.injEq] at hl
        exact Nat.le_of_lt (List.rel_of_pairwise_cons hs (by simp [hl.2]))
    cases t with
    | nil =>
      simp only [List.nil_append, List.head_cons] at hnx
      simp [freeStop, hnx]
      omega
    | cons z t =>
      have := ht z (by simp)
      simp only [List.cons_append, List.head_cons] at hnx
      simp [freeStop, hnx]
      omega
  · -- after `p`: past `bp`, and followed by a larger block or by `base`
    obtain ⟨t₁, t₂, rfl⟩ := List.append_of_mem hx
    have hxb := ht x hx
    have hl' : base :: xs = s ++ p :: t₁ ++ x :: t₂ := by simp [hl]
    rw [freeStop, hf.next_eq hl']
    cases t₂ with
    | nil =>
      have hbx : ¬bp < base := by omega
      simp [hbx]
      omega
    | cons y t₂ =>
      have hxy := (sorted_around hs hl').2 y (by simp)
      simp
      omega

theorem FreeList.freeScan_eq (hf : FreeList base H0 h xs) (hbase : base < bp) {s t : List Nat}
    {p : Nat} (hl : base :: xs = s ++ p :: t) (hp : p < bp) (ht : ∀ z ∈ t, bp < z) :
    freeScan h bp (h.brk + 2) = some p :=
  hf.walk_freep fun _ hperm _ =>
    find?_of_unique (hperm.mem_iff.2 (by rw [hl]; simp)) fun _ hx =>
      hf.freeStop_iff hbase hl hp ht (hperm.mem_iff.1 hx)

/-- The first join of `free`: `bp` joined to its upper neighbour `q`, or linked to it. -/
def upperJoin (h : Heap) (bp q : Nat) : Heap :=
  if bp + (h.mem bp).size = q then h.set bp ⟨(h.mem q).ptr, (h.mem bp).size + (h.mem q).size⟩
  else h.set bp { h.mem bp with ptr := q }

/-- The second join of `free`: `p` joined to `bp`, or linked to it. -/
def lowerJoin (h : Heap) (p bp : Nat) : Heap :=
  if p + (h.mem p).size = bp then h.set p ⟨(h.mem bp).ptr, (h.mem p).size + (h.mem bp).size⟩
  else h.set p { h.mem p with ptr := bp }

theorem free_eq (h : Heap) (ap : Nat) :
    free h ap = (freeScan h (ap - 1) (h.brk + 2)).map fun p =>
      { lowerJoin (upperJoin h (ap - 1) (h.next p)) p (ap - 1) with freep := p } := by
  unfold free
  dsimp only
  cases freeScan h (ap - 1) (h.brk + 2) <;> rfl

/-- What `free` leaves: a free list that covers `bp`'s block too, inside one of its blocks,
with the break and every header off the old list and away from `bp` as before. -/
structure Freed (base H0 : Nat) (h : Heap) (xs : List Nat) (bp : Nat) (h' : Heap)
    (xs' : List Nat) : Prop where
  list : FreeList base H0 h' xs'
  brk : h'.brk = h.brk
  length : xs'.length ≤ xs.length + 1
  covered : ∀ a, Covered h' xs' a ↔ Covered h xs a ∨ (bp ≤ a ∧ a < bp + (h.mem bp).size)
  holds : ∃ y ∈ xs', y ≤ bp ∧ bp + (h.mem bp).size ≤ y + (h'.mem y).size
  frame : ∀ x, x ≠ bp → x ≠ base → ¬Covered h xs x → h'.mem x = h.mem x

/-- The second join, after the first has given `bp` the header `⟨n, u⟩`: `bp`'s block,
grown by the blocks `W` it took in, now links to the head of `T`. -/
theorem FreeList.free_lower (hf : FreeList base H0 h xs) (hb : Fresh H0 h xs bp)
    (hbp : base < bp) {s W T : List Nat} {p n u : Nat}
    (hl : base :: xs = s ++ p :: (W ++ T)) (hpb : p < bp) (hp : p + (h.mem p).size ≤ bp)
    (hWT : ∀ z ∈ W ++ T, bp + (h.mem bp).size ≤ z) (hn : n = (T ++ [base]).head (by simp))
    (hT : ∀ z ∈ T.head?, bp + u < z) (hu : (h.mem bp).size ≤ u) (hbrk : bp + u ≤ h.brk)
    (hcov : ∀ a, (bp ≤ a ∧ a < bp + u) ↔ (bp ≤ a ∧ a < bp + (h.mem bp).size) ∨ Covered h W a) :
    ∃ xs', Freed base H0 h xs bp { lowerJoin (h.set bp ⟨n, u⟩) p bp with freep := p } xs' := by
  have hs := hf.sorted
  have hu0 := hb.pos
  have hpmem : p ∈ base :: xs := by
    rw [hl]
    simp
  have hsp : ∀ x ∈ s, x < p := (sorted_around hs hl).1
  have hTb : ∀ x ∈ T, bp < x := fun x hx => by
    have := hWT x (List.mem_append_right W hx)
    omega
  have hframe : ∀ (Y : Header) x, x ≠ p → x ≠ bp →
      ({ (h.set bp ⟨n, u⟩).set p Y with freep := p } : Heap).mem x = h.mem x := by
    intro Y x hxp hxb
    simp [hxp, hxb]
  have hs' : ∀ (Y : Header), ∀ x ∈ s,
      ({ (h.set bp ⟨n, u⟩).set p Y with freep := p } : Heap).mem x = h.mem x :=
    fun Y x hx => hframe Y x (Nat.ne_of_lt (hsp x hx)) (by have := hsp x hx; omega)
  have hT' : ∀ (Y : Header), ∀ x ∈ T,
      ({ (h.set bp ⟨n, u⟩).set p Y with freep := p } : Heap).mem x = h.mem x :=
    fun Y x hx => hframe Y x (by have := hTb x hx; omega) (Nat.ne_of_gt (hTb x hx))
  have hold_cov := fun a => covered_of_split (a := a) hf.base_size hl
  have hlen := congrArg List.length hl
  simp only [List.length_cons, List.length_append] at hlen
  unfold lowerJoin
  rw [Heap.set_mem_of_ne _ _ (Nat.ne_of_lt hpb), Heap.set_mem_self]
  by_cases hlo : p + (h.mem p).size = bp
  · -- `p` takes in `bp`'s block
    rw [if_pos hlo]
    have hpbase : p ≠ base := by
      rintro rfl
      rw [hf.base_size] at hlo
      omega
    have hpx : p ∈ xs := List.mem_of_ne_of_mem hpbase hpmem
    obtain ⟨xs', hl'⟩ := exists_cons_of_split hl ([] ++ T)
    have hbase' : ((h.set bp ⟨n, u⟩).set p ⟨n, (h.mem p).size + u⟩).mem base = h.mem base :=
      hframe _ base (Ne.symm hpbase) (Nat.ne_of_lt hbp)
    have hfl : FreeList base H0
        { (h.set bp ⟨n, u⟩).set p ⟨n, (h.mem p).size + u⟩ with freep := p } xs' :=
      hf.splice hl (by rfl) (by rfl) (hs' _) (hT' _) (by simpa [hbase'] using hf.base_size)
        (by cases T <;> simp [Circle.isPath_cons_cons, Heap.next, hn])
        (by
          cases T with
          | nil => simp
          | cons z T =>
            have := hT z (by simp)
            simp [Apart]
            omega)
        (by
          intro x hx _
          obtain rfl : x = p := by simpa using hx
          have := hf.block x hpx
          simp
          omega)
        hl'
    have hlen' := congrArg List.length hl'
    simp only [List.length_cons, List.length_append, List.length_nil] at hlen'
    refine ⟨xs', hfl, rfl, by omega, fun a => ?_, ⟨p, ?_, by simp; omega⟩,
      fun x hxb hxbase hxc => hframe _ x (hf.ne_of_uncovered hpmem hxbase hxc) hxb⟩
    · have hnew := covered_of_split (a := a) hfl.base_size hl'
      rw [hnew, hold_cov a, covered_congr (hs' _), covered_congr (hT' _)]
      have harith : (p ≤ a ∧ a < p + ((h.mem p).size + u)) ↔
          (p ≤ a ∧ a < p + (h.mem p).size) ∨ (bp ≤ a ∧ a < bp + u) := by
        omega
      simp only [covered_cons, covered_nil, or_false, Heap.set_mem_self, harith, hcov a]
      simp only [or_assoc, or_comm, or_left_comm]
    · have : p ∈ base :: xs' := by
        rw [hl']
        simp
      exact List.mem_of_ne_of_mem hpbase this
  · -- `p` links to `bp`, which stays a block of its own
    rw [if_neg hlo]
    have hpb' : p + (h.mem p).size < bp := by omega
    obtain ⟨xs', hl'⟩ := exists_cons_of_split hl ([bp] ++ T)
    have hbase' : (((h.set bp ⟨n, u⟩).set p { h.mem p with ptr := bp }).mem base).size = 0 := by
      rcases eq_or_ne base p with rfl | hne
      · simpa using hf.base_size
      · rw [hframe _ base hne (Nat.ne_of_lt hbp)]
        exact hf.base_size
    have hfl : FreeList base H0
        { (h.set bp ⟨n, u⟩).set p { h.mem p with ptr := bp } with freep := p } xs' :=
      hf.splice hl (by rfl) (by rfl) (hs' _) (hT' _) hbase'
        (by cases T <;> simp [Circle.isPath_cons_cons, Heap.next, hn, Ne.symm (Nat.ne_of_lt hpb)])
        (by
          cases T with
          | nil => simpa [Apart, Nat.ne_of_lt hpb] using hpb'
          | cons z T =>
            have := hT z (by simp)
            simp [Apart, Ne.symm (Nat.ne_of_lt hpb)]
            omega)
        (by
          intro x hx hbx
          rcases List.mem_cons.1 hx with rfl | hx
          · have := hf.block x (List.mem_of_ne_of_mem (Nat.ne_of_gt hbx) hpmem)
            simpa using this
          · obtain rfl : x = bp := by simpa using hx
            have := hb.lo
            simp [Ne.symm (Nat.ne_of_lt hpb)]
            omega)
        hl'
    have hlen' := congrArg List.length hl'
    simp only [List.length_cons, List.length_append, List.length_nil] at hlen'
    refine ⟨xs', hfl, rfl, by omega, fun a => ?_,
      ⟨bp, ?_, le_rfl, by simp [Ne.symm (Nat.ne_of_lt hpb)]; omega⟩,
      fun x hxb hxbase hxc => hframe _ x (hf.ne_of_uncovered hpmem hxbase hxc) hxb⟩
    · have hnew := covered_of_split (a := a) hfl.base_size hl'
      rw [hnew, hold_cov a, covered_congr (hs' _), covered_congr (hT' _)]
      simp only [covered_cons, covered_nil, or_false, Heap.set_mem_self,
        Heap.set_mem_of_ne _ _ (Ne.symm (Nat.ne_of_lt hpb)), hcov a]
      simp only [or_assoc, or_comm, or_left_comm]
    · have : bp ∈ base :: xs' := by
        rw [hl']
        simp
      exact List.mem_of_ne_of_mem (Nat.ne_of_gt hbp) this

/-- `free` of a block apart from the free list returns, and leaves a free list that covers
the block too. -/
theorem FreeList.free_spec (hf : FreeList base H0 h xs) (hbase : base < H0)
    (hb : Fresh H0 h xs bp) : ∃ h' xs', free h (bp + 1) = some h' ∧ Freed base H0 h xs bp h' xs' := by
  have hbp : base < bp := by
    have := hb.lo
    omega
  have hu0 := hb.pos
  obtain ⟨s, p, t, hl, ⟨hpb, hp⟩, ht⟩ := hf.split hbase hb
  have hscan := hf.freeScan_eq hbp hl hpb fun z hz => by
    have := ht z hz
    omega
  have hq := hf.next_eq hl
  rw [free_eq, Nat.add_sub_cancel, hscan, Option.map_some]
  suffices ∃ xs', Freed base H0 h xs bp
      { lowerJoin (upperJoin h bp (h.next p)) p bp with freep := p } xs' by
    obtain ⟨xs', hfr⟩ := this
    exact ⟨_, xs', rfl, hfr⟩
  unfold upperJoin
  by_cases hup : bp + (h.mem bp).size = h.next p
  · -- `bp` takes in its upper neighbour `z`, which cannot be `base`
    rw [if_pos hup]
    cases t with
    | nil =>
      simp only [List.nil_append, List.head_cons] at hq
      omega
    | cons z t =>
      simp only [List.cons_append, List.head_cons] at hq
      rw [hq] at hup ⊢
      have hl' : base :: xs = (s ++ [p]) ++ z :: t := by simp [hl]
      have hzx : z ∈ xs := by
        have hzb : z ≠ base := by
          have := ht z (by simp)
          omega
        have : z ∈ base :: xs := by
          rw [hl]
          simp
        exact List.mem_of_ne_of_mem hzb this
      have hzb := hf.block z hzx
      refine hf.free_lower hb hbp (W := [z]) (T := t) (n := (h.mem z).ptr)
        (u := (h.mem bp).size + (h.mem z).size) (by simpa using hl) hpb hp (by simpa using ht)
        (hf.next_eq hl') (fun w hw => ?_) (by omega) (by omega) fun a => ?_
      · cases t with
        | nil => exact absurd hw (by simp)
        | cons w' t =>
          obtain rfl : w = w' := by simpa using hw.symm
          have := hf.apart_of_split (show base :: xs = (s ++ [p]) ++ z :: w :: t by simp [hl])
          unfold Apart at this
          omega
      · simp only [covered_cons, covered_nil, or_false]
        omega
  · -- `bp` links to its upper neighbour
    rw [if_neg hup]
    refine hf.free_lower hb hbp (W := []) (T := t) (n := h.next p) (u := (h.mem bp).size)
      (by simpa using hl) hpb hp (by simpa using ht)
      hq (fun z hz => ?_) le_rfl hb.hi fun a => by simp
    have hzt : z ∈ t := List.mem_of_mem_head? hz
    have := ht z hzt
    cases t with
    | nil => simp at hzt
    | cons w t =>
      obtain rfl : z = w := by simpa using hz.symm
      simp only [List.cons_append, List.head_cons] at hq
      omega

end Free

/-! ## The live blocks -/

section Live

variable {base H0 : Nat} {h : Heap} {xs : List Nat} {live : List (Nat × Nat)}

theorem LiveOk.apart_of_ne (hl : LiveOk H0 h xs live) {b c : Nat × Nat} (hb : b ∈ live)
    (hc : c ∈ live) (hne : b ≠ c) : b.1 + b.2 ≤ c.1 ∨ c.1 + c.2 ≤ b.1 := by
  have : Std.Symm fun (b c : Nat × Nat) => b.1 + b.2 ≤ c.1 ∨ c.1 + c.2 ≤ b.1 :=
    ⟨fun _ _ hbc => hbc.symm⟩
  exact hl.apart.forall hb hc hne

theorem LiveOk.nodup (hl : LiveOk H0 h xs live) : live.Nodup :=
  hl.apart.imp_of_mem fun hb _ hbc heq => by
    subst heq
    have := (hl.block _ hb).2.1
    omega

theorem LiveOk.fresh (hl : LiveOk H0 h xs live) {b : Nat × Nat} (hb : b ∈ live) :
    Fresh H0 h xs b.1 := by
  obtain ⟨hlo, hpos, hhi, hsize⟩ := hl.block b hb
  exact ⟨hlo, hsize ▸ hpos, hsize ▸ hhi, fun a h₁ h₂ => hl.free b hb a h₁ (hsize ▸ h₂)⟩

theorem LiveOk.sublist (hl : LiveOk H0 h xs live) {live' : List (Nat × Nat)}
    (hsub : List.Sublist live' live) : LiveOk H0 h xs live' :=
  ⟨fun b hb => hl.block b (hsub.subset hb), hl.apart.sublist hsub,
    fun b hb => hl.free b (hsub.subset hb)⟩

theorem LiveOk.of_agree (hl : LiveOk H0 h xs live) {h' : Heap}
    (hag : ∀ b ∈ live, h'.mem b.1 = h.mem b.1) (hxs : ∀ x ∈ xs, h'.mem x = h.mem x)
    (hbrk : h.brk ≤ h'.brk) : LiveOk H0 h' xs live := by
  refine ⟨fun b hb => ?_, hl.apart, fun b hb a h₁ h₂ => ?_⟩
  · obtain ⟨hlo, hpos, hhi, hsize⟩ := hl.block b hb
    exact ⟨hlo, hpos, by omega, by rw [hag b hb, hsize]⟩
  · rw [covered_congr hxs]
    exact hl.free b hb a h₁ h₂

theorem LiveOk.freed (hl : LiveOk H0 h xs live) (hbase : base < H0) {bp : Nat} {h' : Heap}
    {xs' : List Nat} (hfr : Freed base H0 h xs bp h' xs')
    (hap : ∀ c ∈ live, bp + (h.mem bp).size ≤ c.1 ∨ c.1 + c.2 ≤ bp) (hne : ∀ c ∈ live, c.1 ≠ bp) :
    LiveOk H0 h' xs' live := by
  refine ⟨fun c hc => ?_, hl.apart, fun c hc a h₁ h₂ => ?_⟩
  · obtain ⟨hlo, hpos, hhi, hcs⟩ := hl.block c hc
    have hframe := hfr.frame c.1 (hne c hc) (by omega) (hl.free c hc c.1 le_rfl (by omega))
    rw [hfr.brk, hframe]
    exact ⟨hlo, hpos, hhi, hcs⟩
  · rw [hfr.covered]
    rintro (hcov | hin)
    · exact hl.free c hc a h₁ h₂ hcov
    · have := hap c hc
      omega

theorem LiveOk.erase (hl : LiveOk H0 h xs live) (hbase : base < H0) {b : Nat × Nat}
    (hb : b ∈ live) {h' : Heap} {xs' : List Nat} (hfr : Freed base H0 h xs b.1 h' xs') :
    LiveOk H0 h' xs' (live.erase b) := by
  have hb0 := (hl.block b hb).2.1
  have hsize := (hl.block b hb).2.2.2
  have hrest : ∀ c ∈ live.erase b, b.1 + b.2 ≤ c.1 ∨ c.1 + c.2 ≤ b.1 := by
    intro c hc
    obtain ⟨hne, hc⟩ := (List.Nodup.mem_erase_iff hl.nodup).1 hc
    exact hl.apart_of_ne hb hc (Ne.symm hne)
  refine (hl.sublist (List.erase_sublist)).freed hbase hfr (fun c hc => hsize ▸ hrest c hc)
    fun c hc => ?_
  have := hrest c hc
  have := (hl.block c ((List.erase_sublist).subset hc)).2.1
  omega

end Live

end Umalloc

end Xv6
