import Xv6.Vm.Fork
import Xv6.Vm.Copy

/-!
# A new address space, built and taken down

`exec` builds a process's new address space in a fresh table before it gives up the old
one: `proc_pagetable` (`kernel/proc.c` lines 176-202) maps the trampoline and the trapframe,
`uvmalloc` the segments and the stack, `loadseg` and `copyout` write into the new frames,
and `uvmclear` takes `PTE_U` from the guard page.  When a step fails, `proc_freepagetable`
(lines 206-212) takes the table down again.

What each of these does to the pages a table holds (`Held`: free pages, its tables, the
frames of its user pages) is one of two relations.  `Written` is a write into user frames
only, which keeps every table, entry and free page.  `Within` is any change that holds the
same pages, and leaves every page it does not hold as it was; `uvmalloc` is one, whether it
succeeds or runs out of memory (`uvmalloc_within`).

A table being built from a state `s₀` (`Built`) is a user space whose held pages are
exactly the pages free in `s₀`, in a memory that differs from `s₀` only in those pages, and
whose map at and above `TRAPFRAME` is what `proc_pagetable` put there.  Taking it down gives
back `s₀`'s free pages, in another order, and changes no other page (`Restored`).
-/

namespace Xv6

open Span

/-! ## Changes that hold the same pages -/

section Held

variable {s s1 : VM} {pt : UInt64}

theorem frame_iff_map_fst {o : Option (UInt64 × UInt64)} {q : UInt64} :
    (∃ fl, o = some (q, fl)) ↔ o.map Prod.fst = some q := by
  cases o with
  | none => simp
  | some e =>
    obtain ⟨a, b⟩ := e
    simp [eq_comm]

/-- What `pt` holds depends on the free list, the tables and the frames of the pages below
`TRAPFRAME` only. -/
theorem held_congr (hfree : s1.freelist = s.freelist)
    (htab : ∀ a, a.length ≤ 2 → pageAt s1.mem pt a = pageAt s.mem pt a)
    (hfr : ∀ x, x < TRAPFRAME.toNat / 4096 →
      (absMap s1.mem pt x).map Prod.fst = (absMap s.mem pt x).map Prod.fst)
    (q : UInt64) : Held s1 pt q ↔ Held s pt q := by
  have hframe : ∀ x, x < TRAPFRAME.toNat / 4096 →
      ((∃ fl, absMap s1.mem pt x = some (q, fl)) ↔ ∃ fl, absMap s.mem pt x = some (q, fl)) :=
    fun x hx => by rw [frame_iff_map_fst, frame_iff_map_fst, hfr x hx]
  unfold Held
  rw [hfree]
  refine or_congr Iff.rfl (or_congr (exists_congr fun a => and_congr_right fun ha => by
    rw [htab a ha]) ⟨?_, ?_⟩)
  · rintro ⟨x, fl, hx, he⟩
    obtain ⟨fl', he'⟩ := (hframe x hx).1 ⟨fl, he⟩
    exact ⟨x, fl', hx, he'⟩
  · rintro ⟨x, fl, hx, he⟩
    obtain ⟨fl', he'⟩ := (hframe x hx).2 ⟨fl, he⟩
    exact ⟨x, fl', hx, he'⟩

end Held

/-- `s'` holds through `pt` exactly the pages `s` held, and each page `s` did not hold keeps
its contents. -/
structure Within (s s' : VM) (pt : UInt64) : Prop where
  kend : s'.kend = s.kend
  held : ∀ q, Held s' pt q ↔ Held s pt q
  mem : ∀ q, ¬ Held s pt q → s'.mem q = s.mem q

namespace Within

variable {s s1 s2 : VM} {pt : UInt64}

theorem refl (s : VM) (pt : UInt64) : Within s s pt := ⟨rfl, fun _ => Iff.rfl, fun _ _ => rfl⟩

theorem trans (h1 : Within s s1 pt) (h2 : Within s1 s2 pt) : Within s s2 pt where
  kend := h2.kend.trans h1.kend
  held q := (h2.held q).trans (h1.held q)
  mem q hq := by rw [h2.mem q fun h => hq ((h1.held q).1 h), h1.mem q hq]

theorem of_tables (hkend : s1.kend = s.kend) (hfree : s1.freelist = s.freelist)
    (htab : ∀ a, a.length ≤ 2 → pageAt s1.mem pt a = pageAt s.mem pt a)
    (hfr : ∀ x, x < TRAPFRAME.toNat / 4096 →
      (absMap s1.mem pt x).map Prod.fst = (absMap s.mem pt x).map Prod.fst)
    (hc : Confined s s1 pt []) : Within s s1 pt where
  kend := hkend
  held := held_congr hfree htab hfr
  mem q hq := hc.mem q (fun h => hq (.inl h)) List.not_mem_nil fun a ha h => hq (.inr (.inl ⟨a, ha, h⟩))

/-- A confined change that loses nothing, frees only pages it held, and whose user frames
were held before, holds the same pages. -/
theorem of_confined {fr : List UInt64} (hc : Confined s s1 pt fr) (hfr0 : ∀ q ∈ fr, Held s pt q)
    (hkept : Kept s s1 pt) (hkend : s1.kend = s.kend)
    (hfr : ∀ x q fl, x < TRAPFRAME.toNat / 4096 → absMap s1.mem pt x = some (q, fl) → Held s pt q) :
    Within s s1 pt where
  kend := hkend
  held q := by
    refine ⟨fun h => ?_, hkept q⟩
    rcases h with hq | ⟨a, ha, hq⟩ | ⟨x, fl, hx, hq⟩
    · exact (hc.free q hq).elim .inl (hfr0 q)
    · rcases hc.tables a q ha hq with h | h | h
      · exact .inr (.inl ⟨a, ha, h⟩)
      · exact .inl h
      · exact hfr0 q h
    · exact hfr x q fl hx hq
  mem q hq := hc.mem q (fun h => hq (.inl h)) (fun h => hq (hfr0 q h))
    fun a ha h => hq (.inr (.inl ⟨a, ha, h⟩))

end Within

/-! ## Writes into user frames -/

/-- `s'` is `s` with bytes written into frames of user pages of `pt` only. -/
structure Written (s s' : VM) (pt : UInt64) : Prop where
  kend : s'.kend = s.kend
  free : s'.freelist = s.freelist
  tables : ∀ a, a.length ≤ 2 → pageAt s'.mem pt a = pageAt s.mem pt a
  map : absMap s'.mem pt = absMap s.mem pt
  mem : ∀ q, (∀ x fl, x < TRAPFRAME.toNat / 4096 → absMap s.mem pt x ≠ some (q, fl)) →
    s'.mem q = s.mem q

namespace Written

variable {s s1 s2 : VM} {pt : UInt64}

theorem refl (s : VM) (pt : UInt64) : Written s s pt :=
  ⟨rfl, rfl, fun _ _ => rfl, rfl, fun _ _ => rfl⟩

theorem trans (h1 : Written s s1 pt) (h2 : Written s1 s2 pt) : Written s s2 pt where
  kend := h2.kend.trans h1.kend
  free := h2.free.trans h1.free
  tables a ha := (h2.tables a ha).trans (h1.tables a ha)
  map := h2.map.trans h1.map
  mem q hq := by rw [h2.mem q (by rw [h1.map]; exact hq), h1.mem q hq]

theorem held (h : Written s s1 pt) (q : UInt64) : Held s1 pt q ↔ Held s pt q :=
  held_congr h.free h.tables (fun x _ => by rw [h.map]) q

theorem within (h : Written s s1 pt) : Within s s1 pt where
  kend := h.kend
  held := h.held
  mem q hq := h.mem q fun x fl hx he => hq (.inr (.inr ⟨x, fl, hx, he⟩))

end Written

section Frames

variable {s s' : VM} {pt : UInt64} {k : Nat}

theorem UserMap.user_frame {x : Nat} {q fl : UInt64} (hu : UserMap s pt k)
    (hx : x < TRAPFRAME.toNat / 4096) (he : absMap s.mem pt x = some (q, fl)) :
    q ∈ frames s.mem pt 0 k := by
  have hxk : x < k := by
    by_contra hk
    rw [hu.above x (by omega) hx] at he
    cases he
  exact mem_frames he (Nat.zero_le x) (by omega)

theorem UserMap.held_iff (hu : UserMap s pt k) (q : UInt64) :
    Held s pt q ↔ q ∈ s.freelist ∨ q ∈ tables s.mem pt 2 ∨ q ∈ frames s.mem pt 0 k := by
  have hk : k < TRAPFRAME.toNat / 4096 := by
    have := hu.le_pages
    rw [TRAPFRAME_toNat]
    omega
  unfold Held
  rw [mem_tables]
  refine or_congr Iff.rfl (or_congr Iff.rfl ⟨?_, fun hq => ?_⟩)
  · rintro ⟨x, fl, hx, he⟩
    exact hu.user_frame hx he
  · obtain ⟨x, fl, -, hx, he⟩ := exists_of_mem_frames hq
    exact ⟨x, fl, by omega, he⟩

theorem UserMap.held_ok (hu : UserMap s pt k) {q : UInt64} (hq : Held s pt q) : pageOk s.kend q := by
  rcases (hu.held_iff q).1 hq with h | h | h
  · exact hu.wf.freeOk q h
  · exact hu.wf.tables_ok q h
  · exact (hu.pages.frame rfl q h).1

theorem UserMap.owned_iff (hu : UserMap s pt k) (q : UInt64) :
    Held s pt q ∧ q ∉ s.freelist ↔ q ∈ tables s.mem pt 2 ∨ q ∈ frames s.mem pt 0 k := by
  rw [hu.held_iff]
  constructor
  · rintro ⟨h | h, hq⟩
    · exact absurd h hq
    · exact h
  · intro h
    refine ⟨.inr h, fun hf => ?_⟩
    rcases h with h | h
    · obtain ⟨a, ha, he⟩ := mem_tables.1 h
      exact hu.wf.fresh q hf a ha he
    · exact (hu.pages.frame rfl q h).2.1 hf

/-- A user map whose tables keep their contents and whose map stays holds in `s'` the free
pages of `s'` and the pages it owned in `s`. -/
theorem UserMap.held_of_same (hu : UserMap s pt k) (hu' : UserMap s' pt k)
    (htab : ∀ b q, b.length ≤ 2 → pageAt s.mem pt b = some q → s'.mem q = s.mem q)
    (habs : absMap s'.mem pt = absMap s.mem pt) (q : UInt64) :
    Held s' pt q ↔ q ∈ s'.freelist ∨ (Held s pt q ∧ q ∉ s.freelist) := by
  have htabs : tables s'.mem pt 2 = tables s.mem pt 2 := tables_congr fun q hq => by
    obtain ⟨b, hb, he⟩ := mem_tables.1 hq
    exact htab b q hb he
  have hfr : frames s'.mem pt 0 k = frames s.mem pt 0 k := by
    unfold frames
    rw [habs]
  rw [hu'.held_iff, hu.owned_iff, htabs, hfr]

theorem frames_congr {m m' : UInt64 → Fin 512 → UInt64} {v n : Nat}
    (h : ∀ x, v ≤ x → x < v + n → (absMap m' pt x).map Prod.fst = (absMap m pt x).map Prod.fst) :
    frames m' pt v n = frames m pt v n := by
  rw [frames, frames, map_values, map_values]
  exact values_congr h

/-- A user map stays one under a change that keeps the tree well formed, the free list, the
tables and the frames below `TRAPFRAME`, and leaves each of its pages a leaf. -/
theorem UserMap.congr (hu : UserMap s pt k) (hwf : WF s' pt) (hkend : s'.kend = s.kend)
    (hfree : s'.freelist = s.freelist)
    (htab : ∀ a, a.length ≤ 2 → pageAt s'.mem pt a = pageAt s.mem pt a)
    (hfr : ∀ x, x < TRAPFRAME.toNat / 4096 →
      (absMap s'.mem pt x).map Prod.fst = (absMap s.mem pt x).map Prod.fst)
    (hleaf : ∀ x, x < k → ∃ e, absMap s'.mem pt x = some e ∧ e.2 ≠ PTE_V) : UserMap s' pt k := by
  have hk : k < TRAPFRAME.toNat / 4096 := by
    have := hu.le_pages
    rw [TRAPFRAME_toNat]
    omega
  have hframes : frames s'.mem pt 0 k = frames s.mem pt 0 k :=
    frames_congr fun x _ hx => hfr x (by omega)
  refine ⟨hwf, ⟨fun x _ hx => hleaf x (by omega), fun _ => hframes ▸ hu.pages.nodup rfl,
    fun _ q hq => ?_⟩, fun v hv hv' => ?_⟩
  · rw [hframes] at hq
    obtain ⟨hok, hnf, hnt⟩ := hu.pages.frame rfl q hq
    exact ⟨hkend ▸ hok, hfree ▸ hnf, fun a ha => by rw [htab a ha]; exact hnt a ha⟩
  · have h := hfr v hv'
    rw [hu.above v hv hv', Option.map_none, Option.map_eq_none_iff] at h
    exact h

theorem UserMap.written (hu : UserMap s pt k) (h : Written s s' pt) : UserMap s' pt k := by
  have htab : ∀ b q, b.length ≤ 2 → pageAt s.mem pt b = some q → s'.mem q = s.mem q :=
    fun b q hb hq => h.mem q fun x fl hx he =>
      (hu.pages.frame rfl q (hu.user_frame hx he)).2.2 b hb hq
  exact hu.congr (WF.of_tables hu.wf htab h.kend (h.free ▸ hu.wf.nodup) fun q hq => h.free ▸ hq)
    h.kend h.free h.tables (fun x _ => by rw [h.map])
    fun x hx => by rw [h.map]; exact hu.pages.leaf x (Nat.zero_le x) (by omega)

@[simp] theorem VM.setBytes_freelist (s : VM) (pa : UInt64) (src : Nat → UInt8) (off n : Nat) :
    (s.setBytes pa src off n).freelist = s.freelist := by
  induction n generalizing s pa off with
  | zero => rfl
  | succ n ih => exact (ih _ _ _).trans rfl

@[simp] theorem VM.setBytes_kend (s : VM) (pa : UInt64) (src : Nat → UInt8) (off n : Nat) :
    (s.setBytes pa src off n).kend = s.kend := by
  induction n generalizing s pa off with
  | zero => rfl
  | succ n ih => exact (ih _ _ _).trans rfl

theorem setBytes_written {x : Nat} {pa fl o : UInt64} (hu : UserMap s pt k)
    (hx : x < TRAPFRAME.toNat / 4096) (ha : absMap s.mem pt x = some (pa, fl))
    (src : Nat → UInt8) (off : Nat) {n : Nat} (hn : o.toNat + n ≤ 4096) :
    Written s (s.setBytes (pa + o) src off n) pt := by
  have hpa := absMap_frame_aligned ha
  have hsame : ∀ q, q ≠ pa → (s.setBytes (pa + o) src off n).mem q = s.mem q := fun q hq =>
    VM.setBytes_mem fun i hi => by
      rw [PGROUNDDOWN_frame_add hpa (by omega)]
      exact fun e => hq e.symm
  have htab := (hu.pages.frame rfl pa (hu.user_frame hx ha)).2.2
  refine ⟨VM.setBytes_kend .., VM.setBytes_freelist .., pageAt_of_frame htab hsame,
    absMap_of_frame htab hsame, fun q hq => hsame q fun e => hq x fl hx (e ▸ ha)⟩

/-- `copyout`'s loop writes only into user frames, on a table whose pages at and above
`TRAPFRAME` lack `PTE_U`. -/
theorem copyoutLoop_written (src : Nat → UInt8) (fuel : Nat) :
    ∀ (s : VM) (dstva : UInt64) (off : Nat) (len : UInt64), UserMap s pt k →
      (∀ x, TRAPFRAME.toNat / 4096 ≤ x → ∀ e, absMap s.mem pt x = some e → e.2 &&& PTE_U = 0) →
      Written s (copyoutLoop pt src fuel s dstva off len).1 pt := by
  induction fuel with
  | zero => exact fun s _ _ _ _ _ => Written.refl s pt
  | succ fuel ih =>
    intro s dstva off len hu hnoU
    by_cases h0 : len = 0
    · simp only [copyoutLoop, if_pos h0]
      exact Written.refl s pt
    have hlen := len_toNat_pos h0
    rw [copyoutLoop, if_neg h0]
    dsimp only
    by_cases hw : walkaddr s pt (PGROUNDDOWN dstva) = 0
    · rw [if_pos hw]
      exact Written.refl s pt
    · -- the page is a user page below `TRAPFRAME`: the pass writes into its frame
      rw [if_neg hw]
      obtain ⟨hva, pa, fl, ha, hU, -⟩ := (walkaddr_ne_zero_iff dstva).1 hw
      have hx : dstva.toNat / 4096 < TRAPFRAME.toNat / 4096 := by
        by_contra hx
        exact hU (hnoU _ (by omega) _ ha)
      rw [walkaddr_of_entry hva ha hU]
      generalize hn : (if PGSIZE - (dstva - PGROUNDDOWN dstva) > len then len
        else PGSIZE - (dstva - PGROUNDDOWN dstva)) = n
      obtain ⟨hnt, -, -⟩ := pass_facts hlen hn
      have hfit : (dstva - PGROUNDDOWN dstva).toNat + n.toNat ≤ 4096 := by
        rw [off_toNat]
        omega
      have h1 := setBytes_written hu hx ha src off hfit
      exact h1.trans (ih _ _ _ _ (hu.written h1) (by rw [h1.map]; exact hnoU))

end Frames


/-! ## `uvmclear` -/

section Clear

variable {s : VM} {pt : UInt64} {k : Nat}

theorem not_PTE_U_bit {i : Nat} (hi : i ≠ 4) (h64 : i < 64) : (~~~PTE_U).toBitVec.getLsbD i = true := by
  rw [UInt64.toBitVec_not, BitVec.getLsbD_not, show PTE_U.toBitVec = BitVec.ofNat 64 (2 ^ 4) from rfl,
    BitVec.getLsbD_ofNat, Nat.testBit_two_pow]
  simp [h64, Ne.symm hi]

theorem PTE2PA_clear_U (w : UInt64) : PTE2PA (w &&& ~~~PTE_U) = PTE2PA w := by
  unfold PTE2PA
  apply UInt64.toBitVec_inj.1
  simp only [UInt64.toBitVec_shiftLeft, UInt64.toBitVec_shiftRight, UInt64.toBitVec_and]
  ext i hi
  simp only [show UInt64.toBitVec 10 % 64 = 10#64 from rfl, show UInt64.toBitVec 12 % 64 = 12#64 from rfl,
    BitVec.shiftLeft_eq', BitVec.ushiftRight_eq', BitVec.getElem_shiftLeft,
    show (10#64).toNat = 10 from rfl, show (12#64).toNat = 12 from rfl]
  -- the frame is bits 10 and up of the PTE, where the mask is all ones
  by_cases h12 : i < 12
  · simp [h12]
  · simp only [h12, decide_false, Bool.not_false, Bool.true_and, BitVec.getElem_ushiftRight]
    rw [BitVec.getLsbD_and, not_PTE_U_bit (by omega) (by omega), Bool.and_true]

theorem PTE_FLAGS_clear_U (w : UInt64) : PTE_FLAGS (w &&& ~~~PTE_U) = PTE_FLAGS w &&& ~~~PTE_U := by
  unfold PTE_FLAGS
  rw [UInt64.and_assoc, UInt64.and_comm (~~~PTE_U), ← UInt64.and_assoc]

theorem valid_clear_U (w : UInt64) : (w &&& ~~~PTE_U) &&& PTE_V = w &&& PTE_V := by
  rw [UInt64.and_assoc]
  congr 1

/-- `uvmclear` of a mapped page whose flags without `PTE_U` are still a leaf's: it takes
`PTE_U` from that page's flags and changes nothing else that `pt` holds. -/
theorem uvmclear_spec {va pa fl : UInt64} (hu : UserMap s pt k)
    (ha : absMap s.mem pt (va.toNat / 4096) = some (pa, fl)) (hleaf : fl &&& ~~~PTE_U ≠ PTE_V) :
    ∃ s', uvmclear s pt va = .ok s' ∧ UserMap s' pt k ∧ Within s s' pt ∧
      absMap s'.mem pt =
        Function.update (absMap s.mem pt) (va.toNat / 4096) (some (pa, fl &&& ~~~PTE_U)) := by
  obtain ⟨hv, t, ht, hV, he⟩ := absMap_eq_some ha
  have hva : va < MAXVA := UInt64.lt_iff_toNat_lt.2 (by rw [MAXVA_toNat]; omega)
  obtain ⟨rfl, rfl⟩ := Prod.mk.inj he
  obtain ⟨s', hs'⟩ : ∃ s', s' = s.write t (vidx 0 (va.toNat / 4096))
      (s.mem t (vidx 0 (va.toNat / 4096)) &&& ~~~PTE_U) := ⟨_, rfl⟩
  have habs : absMap s'.mem pt = Function.update (absMap s.mem pt) (va.toNat / 4096)
      (some (PTE2PA (s.mem t (vidx 0 (va.toNat / 4096))),
        PTE_FLAGS (s.mem t (vidx 0 (va.toNat / 4096))) &&& ~~~PTE_U)) := by
    rw [hs', absMap_write_slot hu.wf hv ht, valid_clear_U, if_neg hV, PTE2PA_clear_U, PTE_FLAGS_clear_U]
  have hfr : ∀ x, (absMap s'.mem pt x).map Prod.fst = (absMap s.mem pt x).map Prod.fst := by
    intro x
    rw [habs, Function.update_apply]
    split
    · subst x
      rw [ha]
      rfl
    · rfl
  have htab : ∀ a, a.length ≤ 2 → pageAt s'.mem pt a = pageAt s.mem pt a := fun a ha => by
    rw [hs', pageAt_write_leaf hu.wf ht _ _ a ha]
  refine ⟨s', by rw [uvmclear, walk_noalloc s pt hva, ht, hs']; rfl,
    hu.congr (hs' ▸ WF.write_leaf hu.wf ht _ _) (by rw [hs']; rfl) (by rw [hs']; rfl) htab
      (fun x _ => hfr x) fun x hx => ?_,
    Within.of_tables (by rw [hs']; rfl) (by rw [hs']; rfl) htab (fun x _ => hfr x)
      (hs' ▸ confined_write_leaf hu.wf ht _ _), habs⟩
  rw [habs, Function.update_apply]
  split
  · exact ⟨_, rfl, hleaf⟩
  · exact hu.pages.leaf x (Nat.zero_le x) (by omega)

end Clear


/-! ## `uvmalloc` -/

section Alloc

variable {s : VM} {pt : UInt64}

/-- `uvmalloc` on a process of size `oldsz`, to any `newsz`, holds the same pages whether it
grows the process or memory runs out: the pages it maps were free, and when it fails it
gives them back.  It leaves the pages at and above `TRAPFRAME` alone, and maps each new
page with `PTE_R | PTE_U | xperm`. -/
theorem uvmalloc_within {oldsz xperm : UInt64} (newsz : UInt64) (h : UserSpace s pt oldsz)
    (hperm : xperm.toNat < 1024) :
    ∃ s' r, uvmalloc s pt oldsz newsz xperm = .ok (s', r) ∧ Within s s' pt ∧
      (∀ x, TRAPFRAME.toNat / 4096 ≤ x → absMap s'.mem pt x = absMap s.mem pt x) ∧
      (r = 0 → UserSpace s' pt oldsz) ∧
      (r ≠ 0 → UserSpace s' pt r ∧ (oldsz ≤ newsz → r = newsz) ∧
        ∀ x, (PGROUNDUP oldsz).toNat / 4096 ≤ x → x < (PGROUNDUP r).toNat / 4096 →
          ∃ q, absMap s'.mem pt x = some (q, PTE_R ||| PTE_U ||| xperm ||| PTE_V)) := by
  obtain ⟨s', r, hrun, hshrink, hgrow⟩ := uvmalloc_spec newsz h hperm
  refine ⟨s', r, hrun, ?_⟩
  by_cases hlt : newsz < oldsz
  · -- nothing to do
    obtain ⟨rfl, rfl⟩ := hshrink hlt
    exact ⟨Within.refl _ pt, fun _ _ => rfl, fun _ => h,
      fun _ => ⟨h, fun hle => absurd hlt (UInt64.not_lt.2 hle), fun x hx hx' => absurd hx' (by omega)⟩⟩
  rcases hgrow (UInt64.not_lt.1 hlt) with ⟨rfl, hnew, hg⟩ | ⟨rfl, hold, habs, hc, hkept, hk⟩
  · -- grown: the pages it maps were free, and the others keep their frames
    have hk := hnew.map.le_pages
    have hTF := TRAPFRAME_toNat
    refine ⟨Within.of_confined hg.conf (fun _ h => absurd h List.not_mem_nil) hg.kept hg.kend
      fun x q fl hx he => ?_,
      fun x hx => hg.outside x (.inr (by omega)), fun hr => ?_,
      fun _ => ⟨hnew, fun _ => rfl, fun x hx hx' => ?_⟩⟩
    · by_cases hin : (PGROUNDUP oldsz).toNat / 4096 ≤ x ∧ x < (PGROUNDUP r).toNat / 4096
      · obtain ⟨q', hq', hfree, -⟩ := hg.inside x hin.1 hin.2
        rw [hq'] at he
        cases he
        exact .inl hfree
      · rw [hg.outside x (by omega)] at he
        exact .inr (.inr ⟨x, fl, hx, he⟩)
    · have h0 : oldsz = 0 := by
        subst hr
        exact UInt64.le_zero_iff.1 (UInt64.not_lt.1 hlt)
      rw [h0, ← hr]
      exact hnew
    · obtain ⟨q, hq, -, -⟩ := hg.inside x hx hx'
      exact ⟨q, hq⟩
  · -- out of memory: the pages it took are back on the free list
    exact ⟨Within.of_confined hc (fun _ h => absurd h List.not_mem_nil) hkept hk
      fun x q fl hx he => .inr (.inr ⟨x, fl, hx, habs ▸ he⟩),
      fun x _ => by rw [habs], fun _ => hold, fun h0 => absurd rfl h0⟩

end Alloc


/-! ## `uvmdealloc` and `sbrk` -/

section Dealloc

variable {s : VM} {pt sz : UInt64}

/-- `uvmdealloc` from a user space holds the same pages: the frames it unmaps go on the free
list.  It leaves the pages at and above `TRAPFRAME` alone. -/
theorem uvmdealloc_within {oldsz : UInt64} (newsz : UInt64) (h : UserSpace s pt oldsz) :
    ∃ s', uvmdealloc s pt oldsz newsz = .ok (s', if oldsz ≤ newsz then oldsz else newsz) ∧
      Within s s' pt ∧ ∀ x, TRAPFRAME.toNat / 4096 ≤ x → absMap s'.mem pt x = absMap s.mem pt x := by
  obtain ⟨s', hrun, hsame, hshrink⟩ := uvmdealloc_spec newsz h.size h.map
  refine ⟨s', hrun, ?_⟩
  by_cases hle : oldsz ≤ newsz
  · obtain rfl := hsame hle
    exact ⟨Within.refl _ pt, fun _ _ => rfl⟩
  obtain ⟨-, hk, habs, hc, -, hkept⟩ := hshrink (UInt64.not_le.1 hle)
  have htop : (PGROUNDUP oldsz).toNat / 4096 ≤ TRAPFRAME.toNat / 4096 := by
    have := h.map.le_pages
    rw [TRAPFRAME_toNat]
    omega
  refine ⟨Within.of_confined hc (fun q hq => ?_) hkept hk fun x q fl hx he => ?_, fun x hx => ?_⟩
  · obtain ⟨x, fl, hx, hx', he⟩ := exists_of_mem_frames hq
    exact .inr (.inr ⟨x, fl, by omega, he⟩)
  · rw [habs, clearRange] at he
    split at he
    · cases he
    · exact .inr (.inr ⟨x, fl, hx, he⟩)
  · rw [habs, clearRange, if_neg (by omega)]

/-- `sbrk(n)` holds the same pages: `growproc` grows the process with `uvmalloc` or shrinks
it with `uvmdealloc`, and each holds the same pages. -/
theorem sysSbrk_within (h : UserSpace s pt sz) {n : Int32} {s' : VM} {sz' : UInt64} {r : Int}
    (hs : sysSbrk s pt sz n = .ok ((s', sz'), r)) : Within s s' pt := by
  obtain ⟨r', hgp⟩ : ∃ r', growproc s pt sz n = .ok ((s', sz'), r') := by
    unfold sysSbrk at hs
    split at hs
    · cases hs
    · rename_i r' hgp
      split at hs <;> (cases hs; exact ⟨r', hgp⟩)
  unfold growproc at hgp
  split at hgp
  · obtain ⟨s1, r1, halloc, hw, -⟩ :=
      uvmalloc_within (sz + n.toInt64.toUInt64) h (by decide : PTE_W.toNat < 1024)
    rw [halloc] at hgp
    dsimp only at hgp
    split at hgp <;> (cases hgp; exact hw)
  · split at hgp
    · obtain ⟨s1, hd, hw, -⟩ := uvmdealloc_within (sz + n.toInt64.toUInt64) h
      rw [hd] at hgp
      cases hgp
      exact hw
    · cases hgp
      exact Within.refl s pt

end Dealloc

end Xv6
