import Xv6.Vm.Pte
import Xv6.Lib.Radix

/-!
# Page tables: memory, `walk`, and the abstract map

`kernel/vm.c` lines 85-126 and the allocator of `kernel/kalloc.c`.  Physical memory is
seen a page at a time, as the 512 PTEs a page-table page holds; the allocator's free
list (threaded through the free pages in the C) is a list of page addresses.

The tree of a page table `pt` is read through `Radix.follow` with `child`: `pageAt m pt
path` is the table page at `path` (`[]` the root, `[i]` a level-1 table, `[i, j]` a
level-0 table).  `absMap m pt` is the map the page table stands for: each virtual page number
below `MAXVA / PGSIZE` to the physical page and flags of its valid level-0 leaf, reached
through valid entries.  `WF` says the tree is well formed: directory entries carry no
R/W/X bits, table pages are distinct, the root has no entry above `MAXVA`, and the free
list holds distinct pages, none of them a table page, all of which `kfree` would accept.

`walk` with `alloc = 0` returns the level-0 table and index of `va` exactly when both
directory entries are valid (`walk_noalloc`); with `alloc = 1` it keeps `WF` and the
abstract map, and either returns the level-0 slot of `va` or has run the free list dry
(`walk_alloc`).  `walkaddr` is the abstract map restricted to `PTE_U` (`walkaddr_eq`).
-/

namespace Xv6

open Radix

/-- `PHYSTOP`. -/
def PHYSTOP : UInt64 := 0x80000000 + 128 * 1024 * 1024

/-- Physical memory as page-table pages see it, the allocator's free list, and the
linker's `end`. -/
structure VM where
  mem : UInt64 → Fin 512 → UInt64
  freelist : List UInt64
  kend : UInt64

/-- `memset(pa, c, PGSIZE)`, with `w` the word of eight bytes `c`. -/
def VM.fill (s : VM) (pa w : UInt64) : VM :=
  { s with mem := Function.update s.mem pa fun _ => w }

/-- `*pte = v` for the PTE at index `i` of the page at `pa`. -/
def VM.write (s : VM) (pa : UInt64) (i : Fin 512) (v : UInt64) : VM :=
  { s with mem := Function.update s.mem pa (Function.update (s.mem pa) i v) }

/-- `kalloc`: the first free page, filled with junk. -/
def kalloc (s : VM) : Option (UInt64 × VM) :=
  match s.freelist with
  | [] => none
  | r :: rs => some (r, ({ s with freelist := rs } : VM).fill r 0x0505050505050505)

/-- `kfree`: a page in `[end, PHYSTOP)`, filled with junk, goes to the front of the list. -/
def kfree (s : VM) (pa : UInt64) : Except String VM :=
  if pa % PGSIZE ≠ 0 ∨ pa < s.kend ∨ PHYSTOP ≤ pa then .error "kfree"
  else .ok { s.fill pa 0x0101010101010101 with freelist := pa :: s.freelist }

/-! ## `walk` and `walkaddr` -/

/-- One pass of `walk`'s loop, at `level`: the table one level down from `tbl` on `va`'s
path, linking a zeroed page from `kalloc` if the entry is not valid and `alloc` is set;
`none` when there is none. -/
def walkLevel (s : VM) (tbl va : UInt64) (level : Nat) (alloc : Bool) : VM × Option UInt64 :=
  let i := pidx (PX level va)
  let pte := s.mem tbl i
  if pte &&& PTE_V ≠ 0 then (s, some (PTE2PA pte))
  else if !alloc then (s, none)
  else
    match kalloc s with
    | none => (s, none)
    | some (p, s) => ((s.fill p 0).write tbl i (PA2PTE p ||| PTE_V), some p)

/-- `walk`: the level-0 table and index of `va`'s PTE. -/
def walk (s : VM) (pt va : UInt64) (alloc : Bool) : Except String (VM × Option (UInt64 × Fin 512)) :=
  if MAXVA ≤ va then .error "walk"
  else
    match walkLevel s pt va 2 alloc with
    | (s, none) => .ok (s, none)
    | (s, some t1) =>
      match walkLevel s t1 va 1 alloc with
      | (s, none) => .ok (s, none)
      | (s, some t0) => .ok (s, some (t0, pidx (PX 0 va)))

/-- `walkaddr`. -/
def walkaddr (s : VM) (pt va : UInt64) : UInt64 :=
  if MAXVA ≤ va then 0
  else
    match walk s pt va false with
    | .ok (s, some (t, i)) =>
      let pte := s.mem t i
      if pte &&& PTE_V = 0 then 0
      else if pte &&& PTE_U = 0 then 0
      else PTE2PA pte
    | _ => 0

/-! ## The tree and its abstract map -/

/-- The table a PTE points to, if it is valid. -/
def child (m : UInt64 → Fin 512 → UInt64) (t : UInt64) (i : Fin 512) : Option UInt64 :=
  if m t i &&& PTE_V = 0 then none else some (PTE2PA (m t i))

/-- The table page at `path` from the root `pt`. -/
def pageAt (m : UInt64 → Fin 512 → UInt64) (pt : UInt64) (path : List (Fin 512)) : Option UInt64 :=
  follow (child m) pt path

/-- The valid level-0 PTE at indices `i`, `j`, `k`. -/
def leafPte (m : UInt64 → Fin 512 → UInt64) (pt : UInt64) (i j k : Fin 512) : Option UInt64 :=
  (pageAt m pt [i, j]).bind fun t => if m t k &&& PTE_V = 0 then none else some (m t k)

/-- The abstract map: virtual page number to physical page and flags. -/
def absMap (m : UInt64 → Fin 512 → UInt64) (pt : UInt64) (vpn : Nat) : Option (UInt64 × UInt64) :=
  if vpn < MAXVA.toNat / PGSIZE.toNat then
    (leafPte m pt (vidx 2 vpn) (vidx 1 vpn) (vidx 0 vpn)).map fun e => (PTE2PA e, PTE_FLAGS e)
  else none

/-- A page `kfree` accepts. -/
def pageOk (kend p : UInt64) : Prop := p % PGSIZE = 0 ∧ kend ≤ p ∧ p < PHYSTOP

instance (kend p : UInt64) : Decidable (pageOk kend p) :=
  inferInstanceAs (Decidable (_ ∧ _ ∧ _))

/-- A well-formed page table and free list. -/
structure WF (s : VM) (pt : UInt64) : Prop where
  dir : ∀ path t, path.length ≤ 1 → pageAt s.mem pt path = some t →
    ∀ i, s.mem t i &&& PTE_V ≠ 0 → s.mem t i &&& (PTE_R ||| PTE_W ||| PTE_X) = 0
  top : ∀ i : Fin 512, 256 ≤ (i : Nat) → s.mem pt i &&& PTE_V = 0
  inj : ∀ a b p, a.length ≤ 2 → b.length ≤ 2 → pageAt s.mem pt a = some p →
    pageAt s.mem pt b = some p → a = b
  fresh : ∀ p ∈ s.freelist, ∀ a, a.length ≤ 2 → pageAt s.mem pt a ≠ some p
  nodup : s.freelist.Nodup
  freeOk : ∀ p ∈ s.freelist, pageOk s.kend p
  tableOk : ∀ a p, a.length ≤ 2 → pageAt s.mem pt a = some p → pageOk s.kend p

/-! ## Memory -/

@[simp] theorem VM.fill_freelist (s : VM) (pa w : UInt64) : (s.fill pa w).freelist = s.freelist := rfl
@[simp] theorem VM.fill_kend (s : VM) (pa w : UInt64) : (s.fill pa w).kend = s.kend := rfl
@[simp] theorem VM.write_freelist (s : VM) (pa : UInt64) (i : Fin 512) (v : UInt64) :
    (s.write pa i v).freelist = s.freelist := rfl
@[simp] theorem VM.write_kend (s : VM) (pa : UInt64) (i : Fin 512) (v : UInt64) :
    (s.write pa i v).kend = s.kend := rfl

theorem VM.fill_mem (s : VM) (pa w q : UInt64) (j : Fin 512) :
    (s.fill pa w).mem q j = if q = pa then w else s.mem q j := by
  by_cases hq : q = pa
  · subst hq; simp [VM.fill]
  · simp [VM.fill, hq]

theorem VM.write_mem (s : VM) (pa : UInt64) (i : Fin 512) (v q : UInt64) (j : Fin 512) :
    (s.write pa i v).mem q j = if q = pa ∧ j = i then v else s.mem q j := by
  by_cases hq : q = pa
  · subst hq
    by_cases hj : j = i
    · subst hj; simp [VM.write]
    · simp [VM.write, hj]
  · simp [VM.write, hq]

theorem VM.write_mem_ne (s : VM) {pa q : UInt64} (i : Fin 512) (v : UInt64) (h : q ≠ pa) :
    (s.write pa i v).mem q = s.mem q := by
  simp [VM.write, h]

theorem pageOk_aligned {kend p : UInt64} (h : pageOk kend p) : p.toNat % 4096 = 0 := by
  have := congrArg UInt64.toNat h.1
  simpa [UInt64.toNat_mod, PGSIZE_toNat] using this

theorem MAXVA_div_PGSIZE : MAXVA.toNat / PGSIZE.toNat = 2 ^ 26 := rfl

theorem vidx_two_lt {vpn : Nat} (h : vpn < 2 ^ 26) : (vidx 2 vpn : Nat) < 256 := by
  simp only [vidx]
  omega

theorem vpn_lt_of_lt_MAXVA {va : UInt64} (h : va < MAXVA) : va.toNat / 4096 < 2 ^ 26 := by
  have : va.toNat < 2 ^ 38 := by rw [← MAXVA_toNat]; exact h
  omega

/-! ## Entries -/

theorem interior_valid (p : UInt64) : (PA2PTE p ||| PTE_V) &&& PTE_V ≠ 0 := by
  rw [PA2PTE_or_and p PTE_V PTE_V (by decide) (by decide)]
  decide

theorem interior_noRWX (p : UInt64) : (PA2PTE p ||| PTE_V) &&& (PTE_R ||| PTE_W ||| PTE_X) = 0 := by
  rw [PA2PTE_or_and p PTE_V _ (by decide) (by decide)]
  decide

theorem PTE2PA_interior {p : UInt64} (hp : p.toNat % 4096 = 0) : PTE2PA (PA2PTE p ||| PTE_V) = p := by
  rw [PTE2PA_PA2PTE_or p PTE_V (by decide), PGROUNDDOWN_of_aligned hp]

theorem child_eq_none {m : UInt64 → Fin 512 → UInt64} {t : UInt64} {i : Fin 512} :
    child m t i = none ↔ m t i &&& PTE_V = 0 := by
  unfold child
  split <;> simp_all

theorem pageAt_append (m : UInt64 → Fin 512 → UInt64) (pt : UInt64) (path : List (Fin 512)) (i : Fin 512) :
    pageAt m pt (path ++ [i]) = (pageAt m pt path).bind fun t => child m t i :=
  follow_append_singleton _ _ _ _

/-! ## Changes that leave the tree alone -/

section Frame

variable {m m' : UInt64 → Fin 512 → UInt64} {pt : UInt64}

theorem pageAt_of_agree (h : ∀ pre c, pre.length < 2 → pageAt m pt pre = some c → m' c = m c)
    (path : List (Fin 512)) (hp : path.length ≤ 2) : pageAt m' pt path = pageAt m pt path := by
  refine follow_congr_of_agree (fun pre c hl hc => funext fun i => ?_) path hp
  unfold child
  rw [h pre c hl hc]

theorem leafPte_of_agree (h : ∀ pre c, pre.length ≤ 2 → pageAt m pt pre = some c → m' c = m c)
    (i j k : Fin 512) : leafPte m' pt i j k = leafPte m pt i j k := by
  unfold leafPte
  rw [pageAt_of_agree (fun pre c hl hc => h pre c (Nat.le_of_lt hl) hc) [i, j] (by simp)]
  cases hc : pageAt m pt [i, j] with
  | none => rfl
  | some c =>
    simp only [Option.bind_some]
    rw [h [i, j] c (by simp) hc]

theorem absMap_of_agree (h : ∀ pre c, pre.length ≤ 2 → pageAt m pt pre = some c → m' c = m c) :
    absMap m' pt = absMap m pt := by
  funext vpn
  unfold absMap
  rw [leafPte_of_agree h]

end Frame

/-! ## Linking a fresh table -/

theorem kalloc_eq_none {s : VM} : kalloc s = none ↔ s.freelist = [] := by
  unfold kalloc
  split <;> simp_all

theorem kalloc_eq_some {s s1 : VM} {p : UInt64} (h : kalloc s = some (p, s1)) :
    s.freelist = p :: s1.freelist ∧ s1.kend = s.kend ∧
      ∀ q j, s1.mem q j = if q = p then 0x0505050505050505 else s.mem q j := by
  unfold kalloc at h
  split at h
  · cases h
  · rename_i r rs hfl
    simp only [Option.some.injEq, Prod.mk.injEq] at h
    obtain ⟨rfl, rfl⟩ := h
    exact ⟨hfl, rfl, fun q j => VM.fill_mem _ _ _ q j⟩

/-- `s'` is `s` after `walk` linked `p`, the first free page, zeroed, at the empty entry
`i` of the directory `t` at `path`. -/
structure LinkStep (s s' : VM) (pt : UInt64) (path : List (Fin 512)) (i : Fin 512)
    (t p : UInt64) : Prop where
  path_le : path.length ≤ 1
  dir : pageAt s.mem pt path = some t
  top : path = [] → (i : Nat) < 256
  empty : s.mem t i &&& PTE_V = 0
  freelist : s.freelist = p :: s'.freelist
  kend : s'.kend = s.kend
  mem : ∀ q j, s'.mem q j = if q = t ∧ j = i then PA2PTE p ||| PTE_V else if q = p then 0 else s.mem q j

namespace LinkStep

variable {s s' : VM} {pt t p : UInt64} {path : List (Fin 512)} {i : Fin 512}

theorem p_mem (h : LinkStep s s' pt path i t p) : p ∈ s.freelist := by
  rw [h.freelist]
  exact List.mem_cons_self

theorem fresh_p (h : LinkStep s s' pt path i t p) (hwf : WF s pt) (a : List (Fin 512))
    (ha : a.length ≤ 2) : pageAt s.mem pt a ≠ some p :=
  hwf.fresh p h.p_mem a ha

theorem t_ne_p (h : LinkStep s s' pt path i t p) (hwf : WF s pt) : t ≠ p := by
  intro e
  exact h.fresh_p hwf path (by have := h.path_le; omega) (e ▸ h.dir)

theorem mem_of_ne (h : LinkStep s s' pt path i t p) {q : UInt64} (hqp : q ≠ p)
    {j : Fin 512} (hqj : ¬ (q = t ∧ j = i)) : s'.mem q j = s.mem q j := by
  rw [h.mem, if_neg hqj, if_neg hqp]

theorem mem_new (h : LinkStep s s' pt path i t p) (hwf : WF s pt) (j : Fin 512) :
    s'.mem p j = 0 := by
  rw [h.mem, if_neg (fun hpt => h.t_ne_p hwf hpt.1.symm), if_pos rfl]

theorem mem_link (h : LinkStep s s' pt path i t p) : s'.mem t i = PA2PTE p ||| PTE_V := by
  rw [h.mem]
  simp

theorem linked (h : LinkStep s s' pt path i t p) (hwf : WF s pt) :
    Linked (child s.mem) (child s'.mem) t i p where
  was_empty := child_eq_none.2 h.empty
  at_link := by
    have hal := pageOk_aligned (hwf.freeOk p h.p_mem)
    unfold child
    rw [h.mem_link, if_neg (interior_valid p), PTE2PA_interior hal]
  at_new j := by
    rw [child_eq_none, h.mem_new hwf]
    decide
  other q j hqp hti := by
    unfold child
    rw [h.mem_of_ne hqp (fun e => by rcases hti with hq | hj; exact hq e.1; exact hj e.2)]

theorem old (h : LinkStep s s' pt path i t p) (hwf : WF s pt) {a : List (Fin 512)} {q : UInt64}
    (ha : a.length ≤ 2) (hq : pageAt s.mem pt a = some q) : pageAt s'.mem pt a = some q :=
  follow_linked_of_some (h.linked hwf) a
    (fun pre hpre _ => h.fresh_p hwf pre (by omega)) hq

theorem new (h : LinkStep s s' pt path i t p) (hwf : WF s pt) {a : List (Fin 512)} {q : UInt64}
    (ha : a.length ≤ 2) (hq : pageAt s'.mem pt a = some q) :
    pageAt s.mem pt a = some q ∨ (q = p ∧ a = path ++ [i]) := by
  rcases follow_linked_some (h.linked hwf) a hq with hold | ⟨hqp, pre, hpre, hpt⟩
  · exact Or.inl hold
  · -- `t` sits at `path` and at `pre` only if the two are the same path
    have hlen : pre.length ≤ 1 := by
      have := congrArg List.length hpre
      simp at this
      omega
    have := hwf.inj pre path t (by omega) (by have := h.path_le; omega) hpt h.dir
    exact Or.inr ⟨hqp, by rw [hpre, this]⟩

theorem pageAt_link (h : LinkStep s s' pt path i t p) (hwf : WF s pt) :
    pageAt s'.mem pt (path ++ [i]) = some p := by
  rw [pageAt_append, h.old hwf (by have := h.path_le; omega) h.dir]
  exact (h.linked hwf).at_link

theorem wf (h : LinkStep s s' pt path i t p) (hwf : WF s pt) : WF s' pt where
  dir := by
    intro a t' ha ht' j hv
    rcases h.new hwf (by omega) ht' with hold | ⟨rfl, rfl⟩
    · have ht'p : t' ≠ p := fun e => h.fresh_p hwf a (by omega) (e ▸ hold)
      by_cases htj : t' = t ∧ j = i
      · obtain ⟨rfl, rfl⟩ := htj
        rw [h.mem_link]
        exact interior_noRWX p
      · rw [h.mem_of_ne ht'p htj] at hv ⊢
        exact hwf.dir a t' ha hold j hv
    · rw [h.mem_new hwf] at hv
      exact absurd rfl hv
  top := by
    intro j hj
    have hpt : pageAt s.mem pt [] = some pt := rfl
    have hptp : pt ≠ p := fun e => h.fresh_p hwf [] (by simp) (e ▸ hpt)
    by_cases hti : pt = t ∧ j = i
    · -- the root takes links only below `MAXVA`
      obtain ⟨hpt', rfl⟩ := hti
      have hnil := hwf.inj [] path pt (by simp) (by have := h.path_le; omega) hpt (hpt' ▸ h.dir)
      have := h.top hnil.symm
      omega
    · rw [h.mem_of_ne hptp hti]
      exact hwf.top j hj
  inj := by
    intro a b q ha hb hqa hqb
    rcases h.new hwf ha hqa with hA | ⟨hq, rfl⟩ <;> rcases h.new hwf hb hqb with hB | ⟨hq', rfl⟩
    · exact hwf.inj a b q ha hb hA hB
    · exact absurd (hq' ▸ hA) (h.fresh_p hwf a ha)
    · exact absurd (hq ▸ hB) (h.fresh_p hwf b hb)
    · rfl
  fresh := by
    intro q hq a ha hqa
    have hnd := h.freelist ▸ hwf.nodup
    have hqs : q ∈ s.freelist := by rw [h.freelist]; exact List.mem_cons_of_mem _ hq
    rcases h.new hwf ha hqa with hold | ⟨rfl, -⟩
    · exact hwf.fresh q hqs a ha hold
    · exact (List.nodup_cons.1 hnd).1 hq
  nodup := (List.nodup_cons.1 (h.freelist ▸ hwf.nodup)).2
  freeOk := by
    intro q hq
    rw [h.kend]
    exact hwf.freeOk q (by rw [h.freelist]; exact List.mem_cons_of_mem _ hq)
  tableOk := by
    intro a q ha hqa
    rw [h.kend]
    rcases h.new hwf ha hqa with hold | ⟨rfl, -⟩
    · exact hwf.tableOk a q ha hold
    · exact hwf.freeOk q h.p_mem

theorem leafPte_eq (h : LinkStep s s' pt path i t p) (hwf : WF s pt) (i2 i1 k : Fin 512) :
    leafPte s'.mem pt i2 i1 k = leafPte s.mem pt i2 i1 k := by
  unfold leafPte
  cases hc : pageAt s'.mem pt [i2, i1] with
  | none =>
    cases hc0 : pageAt s.mem pt [i2, i1] with
    | none => rfl
    | some c => rw [h.old hwf (by simp) hc0] at hc; cases hc
  | some c =>
    rcases h.new hwf (by simp) hc with hold | ⟨rfl, -⟩
    · -- an old level-0 table is neither `t` (a directory) nor `p`
      have hcp : c ≠ p := fun e => h.fresh_p hwf _ (by simp) (e ▸ hold)
      have hct : ¬ (c = t ∧ k = i) := by
        rintro ⟨rfl, -⟩
        have e := hwf.inj [i2, i1] path c (by simp) (by have := h.path_le; omega) hold h.dir
        have := h.path_le
        rw [← e] at this
        simp at this
      simp only [hold, Option.bind_some]
      rw [h.mem_of_ne hcp hct]
    · -- the new table is empty, and there was no table there before
      cases hc0 : pageAt s.mem pt [i2, i1] with
      | none => simp [h.mem_new hwf]
      | some c' =>
        have := h.old hwf (by simp) hc0
        rw [hc, Option.some.injEq] at this
        exact absurd (this ▸ hc0) (h.fresh_p hwf _ (by simp))

theorem absMap_eq (h : LinkStep s s' pt path i t p) (hwf : WF s pt) :
    absMap s'.mem pt = absMap s.mem pt := by
  funext vpn
  unfold absMap
  rw [h.leafPte_eq hwf]

end LinkStep

/-! ## `walk` -/

theorem walkLevel_noalloc (s : VM) (tbl va : UInt64) (level : Nat) :
    walkLevel s tbl va level false = (s, child s.mem tbl (pidx (PX level va))) := by
  unfold walkLevel child
  by_cases hv : s.mem tbl (pidx (PX level va)) &&& PTE_V = 0 <;> simp [hv]

/-- An allocating pass of `walk` keeps the tree well formed and the abstract map; it
finds or links the table below, or the free list is empty. -/
theorem walkLevel_alloc {s : VM} {pt t : UInt64} {path : List (Fin 512)} (hwf : WF s pt)
    (hpath : path.length ≤ 1) (ht : pageAt s.mem pt path = some t) (va : UInt64) (level : Nat)
    (htop : path = [] → (pidx (PX level va) : Nat) < 256) :
    ∃ s' r, walkLevel s t va level true = (s', r) ∧ WF s' pt ∧
      absMap s'.mem pt = absMap s.mem pt ∧ s'.kend = s.kend ∧ s'.freelist <:+ s.freelist ∧
      ((∃ t', r = some t' ∧ pageAt s'.mem pt (path ++ [pidx (PX level va)]) = some t') ∨
        (r = none ∧ s'.freelist = [])) := by
  by_cases hv : s.mem t (pidx (PX level va)) &&& PTE_V = 0
  · cases hk : kalloc s with
    | none =>
      refine ⟨s, none, by simp [walkLevel, hv, hk], hwf, rfl, rfl, List.suffix_refl _,
        Or.inr ⟨rfl, kalloc_eq_none.1 hk⟩⟩
    | some r =>
      obtain ⟨p, s1⟩ := r
      obtain ⟨hfl, hkend, hmem⟩ := kalloc_eq_some hk
      have hL : LinkStep s ((s1.fill p 0).write t (pidx (PX level va)) (PA2PTE p ||| PTE_V))
          pt path (pidx (PX level va)) t p := by
        refine ⟨hpath, ht, htop, hv, by simpa using hfl, by simpa using hkend, fun q j => ?_⟩
        rw [VM.write_mem, VM.fill_mem, hmem]
        by_cases hq : q = p <;> simp [hq]
      refine ⟨_, some p, by simp [walkLevel, hv, hk], hL.wf hwf, hL.absMap_eq hwf, hL.kend,
        ?_, Or.inl ⟨p, rfl, hL.pageAt_link hwf⟩⟩
      rw [hL.freelist]
      exact List.suffix_cons _ _
  · refine ⟨s, some (PTE2PA (s.mem t (pidx (PX level va)))), by simp [walkLevel, hv], hwf, rfl,
      rfl, List.suffix_refl _, Or.inl ⟨_, rfl, ?_⟩⟩
    rw [pageAt_append, ht]
    simp [child, hv]

theorem walk_noalloc (s : VM) (pt : UInt64) {va : UInt64} (hva : va < MAXVA) :
    walk s pt va false =
      .ok (s, (pageAt s.mem pt [vidx 2 (va.toNat / 4096), vidx 1 (va.toNat / 4096)]).map
        fun t => (t, vidx 0 (va.toNat / 4096))) := by
  unfold walk
  rw [if_neg (UInt64.not_le.2 hva), walkLevel_noalloc]
  simp only [pidx_PX (by decide : 2 ≤ 2), pidx_PX (by decide : 0 ≤ 2)]
  cases hc : child s.mem pt (vidx 2 (va.toNat / 4096)) with
  | none => simp [pageAt, hc]
  | some t1 =>
    simp only [walkLevel_noalloc, pidx_PX (by decide : 1 ≤ 2)]
    cases hc1 : child s.mem t1 (vidx 1 (va.toNat / 4096)) <;> simp [pageAt, hc, hc1]

/-- `walk` with `alloc = 1` keeps the tree well formed and the abstract map; it returns the
level-0 slot of `va`, or `0` with the free list empty. -/
theorem walk_alloc {s : VM} {pt va : UInt64} (hwf : WF s pt) (hva : va < MAXVA) :
    ∃ s' r, walk s pt va true = .ok (s', r) ∧ WF s' pt ∧ absMap s'.mem pt = absMap s.mem pt ∧
      s'.kend = s.kend ∧ s'.freelist <:+ s.freelist ∧
      ((∃ t, r = some (t, vidx 0 (va.toNat / 4096)) ∧
          pageAt s'.mem pt [vidx 2 (va.toNat / 4096), vidx 1 (va.toNat / 4096)] = some t) ∨
        (r = none ∧ s'.freelist = [])) := by
  have h2 : pidx (PX 2 va) = vidx 2 (va.toNat / 4096) := pidx_PX (by decide) va
  have h1 : pidx (PX 1 va) = vidx 1 (va.toNat / 4096) := pidx_PX (by decide) va
  have h0 : pidx (PX 0 va) = vidx 0 (va.toNat / 4096) := pidx_PX (by decide) va
  obtain ⟨s1, r1, hw1, hwf1, habs1, hk1, hfl1, hr1⟩ := walkLevel_alloc hwf
    (by simp : ([] : List (Fin 512)).length ≤ 1) rfl va 2 (fun _ => by rw [h2]; exact vidx_two_lt (vpn_lt_of_lt_MAXVA hva))
  unfold walk
  rw [if_neg (UInt64.not_le.2 hva), hw1]
  rcases hr1 with ⟨t1, rfl, ht1⟩ | ⟨rfl, hnil⟩
  · -- level 2 found or linked the level-1 table; level 1 does the same below it
    obtain ⟨s2, r2, hw2, hwf2, habs2, hk2, hfl2, hr2⟩ :=
      walkLevel_alloc hwf1 (by simp) ht1 va 1 (fun h => by simp at h)
    simp only [hw2]
    rcases hr2 with ⟨t0, rfl, ht0⟩ | ⟨rfl, hnil⟩
    · refine ⟨s2, _, rfl, hwf2, habs2.trans habs1, hk2.trans hk1, hfl2.trans hfl1,
        Or.inl ⟨t0, by rw [h0], ?_⟩⟩
      simpa [h2, h1] using ht0
    · exact ⟨s2, none, rfl, hwf2, habs2.trans habs1, hk2.trans hk1, hfl2.trans hfl1,
        Or.inr ⟨rfl, hnil⟩⟩
  · exact ⟨s1, none, rfl, hwf1, habs1, hk1, hfl1, Or.inr ⟨rfl, hnil⟩⟩

/-- `walkaddr` is the abstract map restricted to pages with `PTE_U`. -/
theorem walkaddr_eq (s : VM) (pt va : UInt64) :
    walkaddr s pt va =
      if MAXVA ≤ va then 0
      else match absMap s.mem pt (va.toNat / 4096) with
        | some (pa, flags) => if flags &&& PTE_U = 0 then 0 else pa
        | none => 0 := by
  by_cases hva : MAXVA ≤ va
  · simp [walkaddr, hva]
  · have hlt : va < MAXVA := UInt64.not_le.1 hva
    have hvpn : va.toNat / 4096 < MAXVA.toNat / PGSIZE.toNat := by
      rw [MAXVA_div_PGSIZE]; exact vpn_lt_of_lt_MAXVA hlt
    rw [walkaddr, if_neg hva, if_neg hva, walk_noalloc s pt hlt, absMap, if_pos hvpn, leafPte]
    cases hc : pageAt s.mem pt [vidx 2 (va.toNat / 4096), vidx 1 (va.toNat / 4096)] with
    | none => rfl
    | some t =>
      by_cases hv : s.mem t (vidx 0 (va.toNat / 4096)) &&& PTE_V = 0
      · simp [hv]
      · simp [hv, PTE_FLAGS_and _ PTE_U (by decide)]

/-! ## Writing a level-0 PTE -/

theorem valid_or_V (x : UInt64) : (x ||| PTE_V) &&& PTE_V ≠ 0 := by
  intro h
  have := congrArg (fun y : UInt64 => y.toNat.testBit 0) h
  simp [PTE_V, UInt64.toNat_and, UInt64.toNat_or] at this

section Leaf

variable {s : VM} {pt t : UInt64} {i j : Fin 512}

theorem leaf_ne_dir (hwf : WF s pt) (ht : pageAt s.mem pt [i, j] = some t) {pre : List (Fin 512)}
    {c : UInt64} (hpre : pre.length < 2) (hc : pageAt s.mem pt pre = some c) : c ≠ t := by
  rintro rfl
  have := congrArg List.length (hwf.inj pre [i, j] c (by omega) (by simp) hc ht)
  simp at this
  omega

theorem pageAt_write_leaf (hwf : WF s pt) (ht : pageAt s.mem pt [i, j] = some t) (k : Fin 512)
    (e : UInt64) (path : List (Fin 512)) (hp : path.length ≤ 2) :
    pageAt (s.write t k e).mem pt path = pageAt s.mem pt path := by
  refine pageAt_of_agree (fun pre c hpre hc => funext fun j' => ?_) path hp
  rw [VM.write_mem, if_neg (fun h => leaf_ne_dir hwf ht hpre hc h.1)]

theorem WF.write_leaf (hwf : WF s pt) (ht : pageAt s.mem pt [i, j] = some t) (k : Fin 512)
    (e : UInt64) : WF (s.write t k e) pt where
  dir := by
    intro a t' ha ht' j' hv
    rw [pageAt_write_leaf hwf ht k e a (by omega)] at ht'
    have hne : t' ≠ t := leaf_ne_dir hwf ht (by omega) ht'
    rw [VM.write_mem, if_neg (fun h => hne h.1)] at hv ⊢
    exact hwf.dir a t' ha ht' j' hv
  top := by
    intro j' hj
    rw [VM.write_mem, if_neg (fun h => leaf_ne_dir hwf ht (by simp : ([] : List (Fin 512)).length < 2) rfl h.1)]
    exact hwf.top j' hj
  inj := by
    intro a b q ha hb
    rw [pageAt_write_leaf hwf ht k e a ha, pageAt_write_leaf hwf ht k e b hb]
    exact hwf.inj a b q ha hb
  fresh := by
    intro q hq a ha
    rw [pageAt_write_leaf hwf ht k e a ha]
    exact hwf.fresh q hq a ha
  nodup := hwf.nodup
  freeOk := hwf.freeOk
  tableOk := by
    intro a q ha
    rw [pageAt_write_leaf hwf ht k e a ha]
    exact hwf.tableOk a q ha

/-- Writing the level-0 PTE at `[i, j]`, `k` changes the abstract map at that page only. -/
theorem absMap_write_leaf (hwf : WF s pt) (ht : pageAt s.mem pt [i, j] = some t) (k : Fin 512)
    (e : UInt64) (vpn : Nat) :
    absMap (s.write t k e).mem pt vpn =
      if vpn < 2 ^ 26 ∧ vidx 2 vpn = i ∧ vidx 1 vpn = j ∧ vidx 0 vpn = k then
        (if e &&& PTE_V = 0 then none else some (PTE2PA e, PTE_FLAGS e))
      else absMap s.mem pt vpn := by
  unfold absMap leafPte
  rw [MAXVA_div_PGSIZE, pageAt_write_leaf hwf ht k e _ (by simp)]
  by_cases hv : vpn < 2 ^ 26
  · simp only [hv, if_true, true_and]
    cases hc : pageAt s.mem pt [vidx 2 vpn, vidx 1 vpn] with
    | none =>
      have : ¬ (vidx 2 vpn = i ∧ vidx 1 vpn = j ∧ vidx 0 vpn = k) := by
        rintro ⟨rfl, rfl, -⟩
        rw [hc] at ht
        cases ht
      simp [this]
    | some c =>
      simp only [Option.bind_some]
      by_cases hct : c = t
      · subst hct
        have hpath := hwf.inj _ _ c (by simp) (by simp) hc ht
        simp only [List.cons.injEq, and_true] at hpath
        obtain ⟨h2, h1⟩ := hpath
        by_cases hk : vidx 0 vpn = k
        · by_cases he : e &&& PTE_V = 0 <;> simp [VM.write_mem, h2, h1, hk, he]
        · simp [VM.write_mem, hk]
      · have : ¬ (vidx 2 vpn = i ∧ vidx 1 vpn = j ∧ vidx 0 vpn = k) := by
          rintro ⟨rfl, rfl, -⟩
          rw [hc] at ht
          exact hct (Option.some.inj ht)
        simp [this, VM.write_mem, hct]
  · simp only [hv, false_and, if_false]

/-- ... which is an update of the abstract map at the page whose slot it is. -/
theorem absMap_write_slot (hwf : WF s pt) {v : Nat} (hv : v < 2 ^ 26)
    (ht : pageAt s.mem pt [vidx 2 v, vidx 1 v] = some t) (e : UInt64) :
    absMap (s.write t (vidx 0 v) e).mem pt =
      Function.update (absMap s.mem pt) v
        (if e &&& PTE_V = 0 then none else some (PTE2PA e, PTE_FLAGS e)) := by
  funext x
  rw [absMap_write_leaf hwf ht, Function.update_apply]
  by_cases hx : x = v
  · subst hx
    rw [if_pos ⟨hv, rfl, rfl, rfl⟩, if_pos rfl]
  · -- another page below `2^26` differs from `v` in one of its digits
    rw [if_neg hx, if_neg]
    rintro ⟨hx26, h2, h1, h0⟩
    exact hx (vpn_eq_of_vidx (by omega) (by omega) h2 h1 h0)

end Leaf

theorem absMap_of_table {m : UInt64 → Fin 512 → UInt64} {pt t : UInt64} {v : Nat}
    (hv : v < 2 ^ 26) (ht : pageAt m pt [vidx 2 v, vidx 1 v] = some t) :
    absMap m pt v = if m t (vidx 0 v) &&& PTE_V = 0 then none
      else some (PTE2PA (m t (vidx 0 v)), PTE_FLAGS (m t (vidx 0 v))) := by
  rw [absMap, MAXVA_div_PGSIZE, if_pos hv, leafPte, ht, Option.bind_some]
  split <;> rfl

theorem absMap_eq_some {m : UInt64 → Fin 512 → UInt64} {pt : UInt64} {v : Nat}
    {e : UInt64 × UInt64} (h : absMap m pt v = some e) :
    v < 2 ^ 26 ∧ ∃ t, pageAt m pt [vidx 2 v, vidx 1 v] = some t ∧
      m t (vidx 0 v) &&& PTE_V ≠ 0 ∧ e = (PTE2PA (m t (vidx 0 v)), PTE_FLAGS (m t (vidx 0 v))) := by
  rw [absMap, MAXVA_div_PGSIZE] at h
  by_cases hv : v < 2 ^ 26
  · rw [if_pos hv, leafPte] at h
    cases ht : pageAt m pt [vidx 2 v, vidx 1 v] with
    | none => simp [ht] at h
    | some t =>
      simp only [ht, Option.bind_some] at h
      by_cases hV : m t (vidx 0 v) &&& PTE_V = 0
      · simp [hV] at h
      · simp only [hV, if_false, Option.map_some, Option.some.injEq] at h
        exact ⟨hv, t, rfl, hV, h.symm⟩
  · rw [if_neg hv] at h
    cases h

/-! ## `kfree` -/

theorem kfree_ok {s : VM} {pa : UInt64} (h : pageOk s.kend pa) :
    kfree s pa = .ok { s.fill pa 0x0101010101010101 with freelist := pa :: s.freelist } := by
  rw [kfree, if_neg]
  rintro (h1 | h2 | h3)
  · exact h1 h.1
  · exact absurd h.2.1 (UInt64.not_le.2 h2)
  · exact absurd h.2.2 (UInt64.not_lt.2 h3)

/-- `kfree` of a page it accepts pushes the page and changes no other page. -/
theorem kfree_spec {s : VM} {pa : UInt64} (h : pageOk s.kend pa) :
    ∃ s', kfree s pa = .ok s' ∧ s'.freelist = pa :: s.freelist ∧ s'.kend = s.kend ∧
      ∀ q, q ≠ pa → s'.mem q = s.mem q :=
  ⟨_, kfree_ok h, rfl, rfl, fun q hq => funext fun j => by simp [VM.fill_mem, hq]⟩

section Free

variable {s s' : VM} {pt pa : UInt64}

theorem pageAt_of_frame (htab : ∀ a, a.length ≤ 2 → pageAt s.mem pt a ≠ some pa)
    (hmem : ∀ q, q ≠ pa → s'.mem q = s.mem q) (a : List (Fin 512)) (ha : a.length ≤ 2) :
    pageAt s'.mem pt a = pageAt s.mem pt a :=
  pageAt_of_agree (fun pre c hpre hc => hmem c fun e => htab pre (by omega) (e ▸ hc)) a ha

theorem absMap_of_frame (htab : ∀ a, a.length ≤ 2 → pageAt s.mem pt a ≠ some pa)
    (hmem : ∀ q, q ≠ pa → s'.mem q = s.mem q) : absMap s'.mem pt = absMap s.mem pt :=
  absMap_of_agree fun pre c hpre hc => hmem c fun e => htab pre hpre (e ▸ hc)

theorem WF.free (hwf : WF s pt) (hok : pageOk s.kend pa) (hfree : pa ∉ s.freelist)
    (htab : ∀ a, a.length ≤ 2 → pageAt s.mem pt a ≠ some pa)
    (hfl : s'.freelist = pa :: s.freelist) (hkend : s'.kend = s.kend)
    (hmem : ∀ q, q ≠ pa → s'.mem q = s.mem q) : WF s' pt where
  dir := by
    intro a t ha ht j hv
    rw [pageAt_of_frame htab hmem a (by omega)] at ht
    have htp : t ≠ pa := fun e => htab a (by omega) (e ▸ ht)
    rw [hmem t htp] at hv ⊢
    exact hwf.dir a t ha ht j hv
  top := by
    intro j hj
    rw [hmem pt fun e => htab [] (by simp) (by rw [e]; rfl)]
    exact hwf.top j hj
  inj := by
    intro a b q ha hb
    rw [pageAt_of_frame htab hmem a ha, pageAt_of_frame htab hmem b hb]
    exact hwf.inj a b q ha hb
  fresh := by
    intro q hq a ha
    rw [pageAt_of_frame htab hmem a ha]
    rw [hfl] at hq
    rcases List.mem_cons.1 hq with rfl | hq
    · exact htab a ha
    · exact hwf.fresh q hq a ha
  nodup := by
    rw [hfl]
    exact List.nodup_cons.2 ⟨hfree, hwf.nodup⟩
  freeOk := by
    intro q hq
    rw [hkend]
    rw [hfl] at hq
    rcases List.mem_cons.1 hq with rfl | hq
    · exact hok
    · exact hwf.freeOk q hq
  tableOk := by
    intro a q ha hq
    rw [hkend]
    rw [pageAt_of_frame htab hmem a ha] at hq
    exact hwf.tableOk a q ha hq

end Free

end Xv6
