import Xv6.Exec.Commit

/-!
# A process's memory taken and given back: `allocproc`, `freeproc` and `fork`

The memory side of `kernel/proc.c`.  `allocproc` (lines 109-150) takes a page for the new
process's trapframe with `kalloc`, then a table with `proc_pagetable`; when either fails,
`freeproc` (lines 155-172) gives back what was taken.  `freeproc` gives back the trapframe
page with `kfree` and the table and user memory with `proc_freepagetable`.  `fork` (lines
279-326) copies the parent's memory into the child's table with `uvmcopy`, freeing the child
when memory runs out, and copies the parent's trapframe into the child's, with `a0` set to
`0`.

A process owns the pages its table holds that are not free, and its trapframe page
(`Owns`).  A change to free pages only keeps every process and what it owns
(`ProcMem.keep_free`).  `allocproc` and `fork` either give back everything they took
(`Restored`) or make the new process out of free pages only (`Spawned`), and a child of
`fork` has its parent's image and trapframe (`fork_spec`).  `freeproc` puts exactly what a
process owned back on the free list (`Released`, `freeproc_spec`).
-/

namespace Xv6

namespace Exec

/-! ## What a process owns -/

/-- The pages process `p` owns in `vm`: those its table holds that are not free, and its
trapframe page. -/
def Owns (vm : VM) (p : ExecProc) (q : UInt64) : Prop :=
  (Held vm p.pagetable q ∧ q ∉ vm.freelist) ∨ q = p.trapframe

section Owns

variable {vm vm' : VM} {p p' : ExecProc} {trampoline : UInt64}

theorem ProcMem.owns_not_free (h : ProcMem vm p trampoline) {q : UInt64} (hq : Owns vm p q) :
    q ∉ vm.freelist := by
  rcases hq with ⟨-, hf⟩ | rfl
  · exact hf
  · exact fun hf => h.trapframe (.inl hf)

theorem free_or_owns_iff (q : UInt64) :
    q ∈ vm.freelist ∨ Owns vm p q ↔ Held vm p.pagetable q ∨ q = p.trapframe := by
  unfold Owns
  constructor
  · rintro (hf | ⟨hh, -⟩ | hT)
    · exact .inl (.inl hf)
    · exact .inl hh
    · exact .inr hT
  · rintro (hh | hT)
    · by_cases hf : q ∈ vm.freelist
      · exact .inl hf
      · exact .inr (.inl ⟨hh, hf⟩)
    · exact .inr (.inr hT)

theorem Conserved.pool_iff (hc : Conserved vm vm' p p') (q : UInt64) :
    q ∈ vm'.freelist ∨ Owns vm' p' q ↔ q ∈ vm.freelist ∨ Owns vm p q := by
  rw [free_or_owns_iff, free_or_owns_iff, hc.held, hc.trapframe]

/-- A process whose owned pages keep their contents, in memory with a sound free list that
holds none of them, keeps its memory, what it owns, and its map. -/
theorem ProcMem.keep (h : ProcMem vm p trampoline)
    (hmem : ∀ q, Owns vm p q → vm'.mem q = vm.mem q) (hkend : vm'.kend = vm.kend)
    (hnd : vm'.freelist.Nodup) (hok : ∀ q ∈ vm'.freelist, pageOk vm'.kend q)
    (hfree : ∀ q ∈ vm'.freelist, ¬ Owns vm p q) :
    ProcMem vm' p trampoline ∧ (∀ q, Owns vm' p q ↔ Owns vm p q) ∧
      absMap vm'.mem p.pagetable = absMap vm.mem p.pagetable := by
  have hu := h.space.map
  -- the tables and frames are owned pages: they keep their contents and none is free
  have hown : ∀ q, q ∈ tables vm.mem p.pagetable 2 ∨ q ∈ frames vm.mem p.pagetable 0
      ((PGROUNDUP p.sz).toNat / 4096) → Owns vm p q := fun q hq => .inl ((hu.owned_iff q).2 hq)
  have htab : ∀ b q, b.length ≤ 2 → pageAt vm.mem p.pagetable b = some q → vm'.mem q = vm.mem q :=
    fun b q hb he => hmem q (hown q (.inl (mem_tables.2 ⟨b, hb, he⟩)))
  obtain ⟨hu', habs⟩ := hu.of_fresh htab hkend hnd fun q hq =>
    ⟨hok q hq, fun a ha he => hfree q hq (hown q (.inl (mem_tables.2 ⟨a, ha, he⟩))),
      fun hfr => hfree q hq (hown q (.inr hfr))⟩
  have hheld := hu.held_of_same hu' htab habs
  have howns : ∀ q, Owns vm' p q ↔ Owns vm p q := by
    intro q
    unfold Owns
    rw [hheld]
    constructor
    · rintro (⟨hf | hq, hnf⟩ | hT)
      · exact absurd hf hnf
      · exact .inl hq
      · exact .inr hT
    · rintro (hq | hT)
      · exact .inl ⟨.inr hq, fun hf => hfree q hf (.inl hq)⟩
      · exact .inr hT
  refine ⟨h.of_kend hkend rfl ⟨h.space.size, hu'⟩ (fun x hx => ?_) fun hT => ?_, howns, habs⟩
  · rw [habs]
    exact h.top x hx
  · rcases (hheld _).1 hT with hf | ⟨hT', -⟩
    · exact hfree _ hf (.inr rfl)
    · exact h.trapframe hT'

/-- A change to free pages only, to a sound free list drawn from the one before, keeps every
process: its memory, what it owns with their contents, and its map. -/
theorem ProcMem.keep_free (h : ProcMem vm p trampoline)
    (hmem : ∀ q, q ∉ vm.freelist → vm'.mem q = vm.mem q) (hkend : vm'.kend = vm.kend)
    (hnd : vm'.freelist.Nodup) (hfl : ∀ q ∈ vm'.freelist, q ∈ vm.freelist) :
    ProcMem vm' p trampoline ∧ (∀ q, Owns vm' p q ↔ Owns vm p q) ∧
      (∀ q, Owns vm p q → vm'.mem q = vm.mem q) ∧
      absMap vm'.mem p.pagetable = absMap vm.mem p.pagetable := by
  have hmem' : ∀ q, Owns vm p q → vm'.mem q = vm.mem q := fun q hq => hmem q (h.owns_not_free hq)
  obtain ⟨h', howns, habs⟩ := h.keep hmem' hkend hnd
    (fun q hq => by rw [hkend]; exact h.space.map.wf.freeOk q (hfl q hq))
    fun q hq ho => h.owns_not_free ho (hfl q hq)
  exact ⟨h', howns, hmem', habs⟩

theorem ProcMem.image_eq (h : ProcMem vm p trampoline)
    (habs : absMap vm'.mem p.pagetable = absMap vm.mem p.pagetable)
    (hmem : ∀ q, Held vm p.pagetable q → q ∉ vm.freelist → vm'.mem q = vm.mem q) :
    image vm' p.pagetable = image vm p.pagetable := by
  funext x
  by_cases hx : x < TRAPFRAME.toNat / 4096
  · cases he : absMap vm.mem p.pagetable x with
    | none => exact image_none (congrFun habs x) fun _ => he
    | some e =>
      obtain ⟨q, fl⟩ := e
      have hq := (h.space.map.owned_iff q).2 (.inr (h.space.map.user_frame hx he))
      exact image_keep he (by rw [habs]; exact he) (hmem q hq.1 hq.2)
  · unfold image
    rw [if_neg hx, if_neg hx]

theorem ProcMem.write_trapframe (h : ProcMem vm p trampoline)
    (hmem : ∀ q, q ≠ p.trapframe → vm'.mem q = vm.mem q) (hfl : vm'.freelist = vm.freelist)
    (hkend : vm'.kend = vm.kend) :
    ProcMem vm' p trampoline ∧ (∀ q, Held vm' p.pagetable q ↔ Held vm p.pagetable q) ∧
      absMap vm'.mem p.pagetable = absMap vm.mem p.pagetable := by
  have hu := h.space.map
  have htab : ∀ b q, b.length ≤ 2 → pageAt vm.mem p.pagetable b = some q → vm'.mem q = vm.mem q :=
    fun b q hb he => hmem q fun e => h.trapframe (.inr (.inl ⟨b, hb, e ▸ he⟩))
  obtain ⟨hu', habs⟩ := hu.of_tables htab hkend (hfl ▸ hu.wf.nodup) fun q hq => hfl ▸ hq
  have hheld : ∀ q, Held vm' p.pagetable q ↔ Held vm p.pagetable q :=
    held_congr hfl (pageAt_of_agree fun pre c hpre hc => htab pre c (by omega) hc)
      fun x _ => by rw [habs]
  refine ⟨h.of_kend hkend rfl ⟨h.space.size, hu'⟩ (fun x hx => ?_)
    fun hT => h.trapframe ((hheld _).1 hT), hheld, habs⟩
  rw [habs]
  exact h.top x hx

end Owns

end Exec

namespace Mem

open Exec

theorem pageOk_ne_zero {kend q : UInt64} (hpos : 0 < kend) (h : pageOk kend q) : q ≠ 0 := by
  rintro rfl
  exact UInt64.lt_irrefl 0 (UInt64.lt_of_lt_of_le hpos h.2.1)

/-! ## `freeproc` -/

/-- The memory side of `freeproc`: the trapframe page given back with `kfree`, then the table
and the user memory with `proc_freepagetable`, each if the process has one. -/
def freeproc (vm : VM) (trapframe pagetable sz : UInt64) : Except String VM :=
  match (if trapframe ≠ 0 then kfree vm trapframe else .ok vm) with
  | .error e => .error e
  | .ok vm => if pagetable ≠ 0 then procFreepagetable vm pagetable sz else .ok vm

/-- `vm'` is `vm` with what `p` owns put on the free list, each page once, and every other
page that was not free as it was. -/
structure Released (vm vm' : VM) (p : ExecProc) : Prop where
  nodup : vm'.freelist.Nodup
  free : ∀ q, q ∈ vm'.freelist ↔ q ∈ vm.freelist ∨ Owns vm p q
  kend : vm'.kend = vm.kend
  mem : ∀ q, q ∉ vm.freelist → ¬ Owns vm p q → vm'.mem q = vm.mem q

section Free

variable {vm : VM} {p : ExecProc} {trampoline : UInt64}

/-- `freeproc` of a process: it does not panic, and puts what the process owned back on the
free list. -/
theorem freeproc_spec (h : ProcMem vm p trampoline) :
    ∃ vm', freeproc vm p.trapframe p.pagetable p.sz = .ok vm' ∧ Released vm vm' p := by
  have hu := h.space.map
  have htf0 : p.trapframe ≠ 0 := pageOk_ne_zero h.pos h.tf
  have hpt0 : p.pagetable ≠ 0 := pageOk_ne_zero h.pos (hu.wf.tableOk [] p.pagetable (by simp) rfl)
  -- `kfree` of the trapframe page, which is neither a table nor a frame of the process
  obtain ⟨vm1, hk1, hfl1, hkd1, hm1⟩ := kfree_spec h.tf
  have htab1 : ∀ b q, b.length ≤ 2 → pageAt vm.mem p.pagetable b = some q → vm1.mem q = vm.mem q :=
    fun b q hb he => hm1 q fun e => h.trapframe (.inr (.inl ⟨b, hb, e ▸ he⟩))
  obtain ⟨hu1, habs1⟩ := hu.of_fresh htab1 hkd1
    (hfl1 ▸ List.nodup_cons.2 ⟨fun hf => h.trapframe (.inl hf), hu.wf.nodup⟩) fun q hq => by
      rw [hfl1] at hq
      rcases List.mem_cons.1 hq with rfl | hq
      · exact ⟨by rw [hkd1]; exact h.tf, fun a ha he => h.trapframe (.inr (.inl ⟨a, ha, he⟩)),
          fun hfr => h.trapframe ((hu.owned_iff _).2 (.inr hfr)).1⟩
      · exact ⟨by rw [hkd1]; exact hu.wf.freeOk q hq, hu.wf.fresh q hq,
          fun hfr => ((hu.owned_iff q).2 (.inr hfr)).2 hq⟩
  have hheld1 := hu.held_of_same hu1 htab1 habs1
  obtain ⟨vm2, hfree2, hF⟩ := procFreepagetable_spec ⟨h.space.size, hu1⟩ fun x hx => by
    rw [habs1]
    exact h.top x hx
  refine ⟨vm2, ?_, ⟨hF.nodup, fun q => ?_, by rw [hF.kend, hkd1], fun q hq ho => ?_⟩⟩
  · rw [freeproc, if_pos htf0, hk1]
    dsimp only
    rw [if_pos hpt0]
    exact hfree2
  · rw [hF.free, hheld1, hfl1, List.mem_cons]
    unfold Owns
    constructor
    · rintro ((rfl | hf) | ho)
      · exact .inr (.inr rfl)
      · exact .inl hf
      · exact .inr (.inl ho)
    · rintro (hf | ho | rfl)
      · exact .inl (.inr hf)
      · exact .inr ho
      · exact .inl (.inl rfl)
  · have hqT : q ≠ p.trapframe := fun e => ho (.inr e)
    have hnh : ¬ Held vm1 p.pagetable q := by
      rw [hheld1, hfl1, List.mem_cons]
      rintro ((e | hf) | ho')
      exacts [hqT e, hq hf, ho (.inl ho')]
    rw [hF.mem q hnh, hm1 q hqT]

end Free

/-! ## `allocproc` -/

/-- The memory side of `allocproc`: a page for the trapframe from `kalloc`, then a table from
`proc_pagetable`, with the trapframe page and the table if both were found; when one was not,
`freeproc` of what was taken. -/
def allocproc (vm : VM) (trampoline : UInt64) : Except String (VM × Option (UInt64 × UInt64)) :=
  match kalloc vm with
  | none => (freeproc vm 0 0 0).map fun vm => (vm, none)
  | some (tf, vm) =>
    match procPagetable vm trampoline tf with
    | .error e => .error e
    | .ok (vm, pt) =>
      if pt = 0 then (freeproc vm tf 0 0).map fun vm => (vm, none)
      else .ok (vm, some (tf, pt))

/-- `vm'` is `vm` with a new process `np` made of free pages: its memory, what it owns and the
free pages of `vm'` are the free pages of `vm`, and every page that was not free is as it
was. -/
structure Spawned (vm vm' : VM) (np : ExecProc) (trampoline : UInt64) : Prop where
  proc : ProcMem vm' np trampoline
  free : ∀ q, q ∈ vm.freelist ↔ q ∈ vm'.freelist ∨ Owns vm' np q
  kend : vm'.kend = vm.kend
  mem : ∀ q, q ∉ vm.freelist → vm'.mem q = vm.mem q

section Alloc

variable {vm vm1 vm2 : VM} {np : ExecProc} {trampoline : UInt64}

/-- `allocproc` once `kalloc` gave the trapframe page: the new table, or `freeproc` of the
trapframe page when there is none. -/
theorem allocproc_of_table {tf pt : UInt64} (hka : kalloc vm = some (tf, vm1))
    (hpp : procPagetable vm1 trampoline tf = .ok (vm2, pt)) :
    allocproc vm trampoline = if pt = 0 then (freeproc vm2 tf 0 0).map fun vm => (vm, none)
      else .ok (vm2, some (tf, pt)) := by
  rw [allocproc, hka]
  dsimp only
  rw [hpp]

theorem Spawned.free_of_held (hs : Spawned vm vm1 np trampoline) {q : UInt64}
    (hq : Held vm1 np.pagetable q) : q ∈ vm.freelist :=
  (hs.free q).2 ((free_or_owns_iff q).2 (.inl hq))

theorem Spawned.within {sz : UInt64} (hs : Spawned vm vm1 np trampoline)
    (hw : Within vm1 vm2 np.pagetable) (hu : UserSpace vm2 np.pagetable sz)
    (htop : ∀ x, TRAPFRAME.toNat / 4096 ≤ x → absMap vm2.mem np.pagetable x = absMap vm1.mem np.pagetable x) :
    Spawned vm vm2 { np with sz := sz } trampoline where
  proc := hs.proc.of_kend hw.kend rfl hu (fun x hx => (htop x hx).trans (hs.proc.top x hx))
    fun hT => hs.proc.trapframe ((hw.held _).1 hT)
  free q := by
    rw [hs.free q, free_or_owns_iff, free_or_owns_iff]
    exact or_congr_left (hw.held q).symm
  kend := hw.kend.trans hs.kend
  mem q hq := by rw [hw.mem q fun h => hq (hs.free_of_held h), hs.mem q hq]

theorem Spawned.write_trapframe (hs : Spawned vm vm1 np trampoline)
    (hmem : ∀ q, q ≠ np.trapframe → vm2.mem q = vm1.mem q) (hfl : vm2.freelist = vm1.freelist)
    (hkend : vm2.kend = vm1.kend) : Spawned vm vm2 np trampoline := by
  obtain ⟨hp, hheld, -⟩ := hs.proc.write_trapframe hmem hfl hkend
  refine ⟨hp, fun q => ?_, hkend.trans hs.kend, fun q hq => ?_⟩
  · rw [hs.free q, free_or_owns_iff, free_or_owns_iff, hheld]
  · -- the trapframe page was free in `vm`
    have hT : q ≠ np.trapframe := fun e => hq ((hs.free q).2 (.inr (.inr e)))
    rw [hmem q hT, hs.mem q hq]

theorem Spawned.released (hs : Spawned vm vm1 np trampoline) (hr : Released vm1 vm2 np)
    (hnd : vm.freelist.Nodup) : Restored vm vm2 where
  perm := (List.perm_ext_iff_of_nodup hr.nodup hnd).2 fun q => by rw [hr.free, hs.free]
  kend := hr.kend.trans hs.kend
  mem q hq := by
    have hq1 : q ∉ vm1.freelist := fun h => hq ((hs.free q).2 (.inl h))
    rw [hr.mem q hq1 fun ho => hq ((hs.free q).2 (.inr ho)), hs.mem q hq]

/-- `allocproc` from a sound free list: either no process, with memory restored, or a
trapframe page and a table of size `0` made of free pages. -/
theorem allocproc_spec (hf : FreeOk vm) (trampoline : UInt64) :
    ∃ vm' r, allocproc vm trampoline = .ok (vm', r) ∧ (r = none → Restored vm vm') ∧
      ∀ np : ExecProc, r = some (np.trapframe, np.pagetable) → np.sz = 0 →
        Spawned vm vm' np trampoline := by
  cases hka : kalloc vm with
  | none =>
    refine ⟨vm, none, ?_, fun _ => Restored.refl vm, fun np h => nomatch h⟩
    rw [allocproc, hka]
    rfl
  | some x =>
    obtain ⟨tf, vm1⟩ := x
    obtain ⟨hfl1, hkd1, hm1⟩ := kalloc_eq_some hka
    have hnd := List.nodup_cons.1 (hfl1 ▸ hf.nodup)
    have htf : pageOk vm.kend tf := hf.ok tf (by rw [hfl1]; exact List.mem_cons_self)
    have hf1 : FreeOk vm1 := ⟨hnd.2, fun q hq => by
      rw [hkd1]
      exact hf.ok q (by rw [hfl1]; exact List.mem_cons_of_mem _ hq), by rw [hkd1]; exact hf.pos⟩
    have hm1' : ∀ q, q ≠ tf → vm1.mem q = vm.mem q := fun q hq => funext fun j => by
      rw [hm1, if_neg hq]
    have hout : ∀ q, q ∉ vm.freelist → q ≠ tf ∧ q ∉ vm1.freelist := fun q hq =>
      ⟨fun e => hq (by rw [hfl1, e]; exact List.mem_cons_self),
        fun h => hq (by rw [hfl1]; exact List.mem_cons_of_mem _ h)⟩
    obtain ⟨vm2, pt, hpp, h0, hb⟩ := procPagetable_spec hf1 trampoline tf
    by_cases hpt : pt = 0
    · -- no table: `freeproc` gives back the trapframe page
      subst hpt
      have hr := h0 rfl
      obtain ⟨vm3, hk3, hfl3, hkd3, hm3⟩ := kfree_spec (s := vm2) (by rw [hr.kend, hkd1]; exact htf)
      refine ⟨vm3, none, ?_, fun _ => ⟨?_, ?_, fun q hq => ?_⟩, fun np h => nomatch h⟩
      · rw [allocproc_of_table hka hpp, if_pos rfl, freeproc, if_pos (pageOk_ne_zero hf.pos htf), hk3]
        rfl
      · rw [hfl3, hfl1]
        exact hr.perm.cons tf
      · rw [hkd3, hr.kend, hkd1]
      · obtain ⟨hqt, hq1⟩ := hout q hq
        rw [hm3 q hqt, hr.mem q hq1, hm1' q hqt]
    · -- the trapframe page and the new table
      have hb := hb hpt
      refine ⟨vm2, some (tf, pt), ?_, (fun h => nomatch h), fun np hnp hsz => ?_⟩
      · rw [allocproc_of_table hka hpp, if_neg hpt]
      obtain ⟨rfl, rfl⟩ := Prod.mk.inj (Option.some.inj hnp)
      refine ⟨⟨by rw [hsz]; exact hb.space, hb.top, fun hT => hnd.1 ((hb.drawn.held _).1 hT),
        by rw [hb.drawn.kend, hkd1]; exact htf, by rw [hb.drawn.kend, hkd1]; exact hf.pos⟩,
        fun q => ?_, hb.drawn.kend.trans hkd1, fun q hq => ?_⟩
      · rw [free_or_owns_iff, hb.drawn.held, hfl1, List.mem_cons]
        exact or_comm
      · obtain ⟨hqt, hq1⟩ := hout q hq
        rw [hb.drawn.mem q hq1, hm1' q hqt]

end Alloc

/-! ## `fork` -/

/-- `*(np->trapframe) = *(p->trapframe)`: the 36 words of `struct trapframe` copied from the
page `src` into the page `dst`. -/
def copyTrapframe (vm : VM) (src dst : UInt64) : VM :=
  { vm with mem := Function.update vm.mem dst fun i => if i.val < 36 then vm.mem src i else vm.mem dst i }

/-- The memory side of `fork` by process `p`: `allocproc`, then `uvmcopy` of the parent's
`p->sz` bytes into the child's table, with `freeproc` of the child when memory runs out,
then the parent's trapframe copied into the child's with `a0` set to `0`.  The child has the
parent's size, name and working directory. -/
def fork (vm : VM) (p : ExecProc) (trampoline : UInt64) : Except String (VM × Option ExecProc) :=
  match allocproc vm trampoline with
  | .error e => .error e
  | .ok (vm, none) => .ok (vm, none)
  | .ok (vm, some (tf, pt)) =>
    match uvmcopy vm p.pagetable pt p.sz with
    | .error e => .error e
    | .ok (vm, r) =>
      if r < 0 then (freeproc vm tf pt 0).map fun vm => (vm, none)
      else .ok ((copyTrapframe vm p.trapframe tf).write tf tfA0 0,
        some { p with pagetable := pt, trapframe := tf })

section Fork

variable {vm : VM} {p : ExecProc} {trampoline : UInt64}

theorem copyTrapframe_mem_ne {vm : VM} {src dst q : UInt64} (h : q ≠ dst) :
    (copyTrapframe vm src dst).mem q = vm.mem q := by
  simp [copyTrapframe, h]

theorem copyTrapframe_mem_self (vm : VM) (src dst : UInt64) (i : Fin 512) :
    (copyTrapframe vm src dst).mem dst i = if i.val < 36 then vm.mem src i else vm.mem dst i := by
  simp [copyTrapframe]

@[simp] theorem copyTrapframe_freelist (vm : VM) (src dst : UInt64) :
    (copyTrapframe vm src dst).freelist = vm.freelist := rfl

@[simp] theorem copyTrapframe_kend (vm : VM) (src dst : UInt64) :
    (copyTrapframe vm src dst).kend = vm.kend := rfl

/-- `fork` once `allocproc` gave the child's trapframe page and table and `uvmcopy` returned:
`freeproc` of the child when the copy ran out of memory, the trapframe copied otherwise. -/
theorem fork_of_copy {vm1 vm2 : VM} {tf pt : UInt64} {r : Int}
    (ha : allocproc vm trampoline = .ok (vm1, some (tf, pt)))
    (hcp : uvmcopy vm1 p.pagetable pt p.sz = .ok (vm2, r)) :
    fork vm p trampoline = if r < 0 then (freeproc vm2 tf pt 0).map fun vm => (vm, none)
      else .ok ((copyTrapframe vm2 p.trapframe tf).write tf tfA0 0,
        some { p with pagetable := pt, trapframe := tf }) := by
  rw [fork, ha]
  dsimp only
  rw [hcp]

/-- `fork` by a process: it does not panic; it either makes no child and gives back everything
it took, or makes a child out of free pages only, of the parent's size and with the parent's
image, whose trapframe is the parent's with `a0` set to `0`. -/
theorem fork_spec (h : ProcMem vm p trampoline) :
    ∃ vm' r, fork vm p trampoline = .ok (vm', r) ∧ (r = none → Restored vm vm') ∧
      ∀ np, r = some np → Spawned vm vm' np trampoline ∧ np.sz = p.sz ∧
        image vm' np.pagetable = image vm p.pagetable ∧
        ∀ i : Fin 512, i.val < 36 → vm'.mem np.trapframe i = if i = tfA0 then 0 else vm.mem p.trapframe i := by
  obtain ⟨vm1, r1, ha, hnone, hsome⟩ := allocproc_spec h.freeOk trampoline
  rcases r1 with _ | ⟨tf, pt⟩
  · refine ⟨vm1, none, ?_, fun _ => hnone rfl, fun np h => nomatch h⟩
    rw [fork, ha]
  have hs := hsome { p with pagetable := pt, sz := 0, trapframe := tf } rfl rfl
  have h0 : (PGROUNDUP 0).toNat / 4096 = 0 := by decide
  have hnew : UserMap vm1 pt 0 := by simpa only [h0] using hs.proc.space.map
  obtain ⟨hp1, hown1, hmem1, habs1⟩ := h.keep_free hs.mem hs.kend hs.proc.space.map.wf.nodup
    fun q hq => (hs.free q).2 (.inl hq)
  have hpar : ∀ q, Owns vm1 p q → q ∉ vm.freelist := fun q ho => h.owns_not_free ((hown1 q).1 ho)
  have hap : Apart vm1 p.pagetable pt ((PGROUNDUP p.sz).toNat / 4096) := by
    intro a q ha hq
    have hfree : q ∈ vm.freelist :=
      hs.free_of_held (Or.inr (Or.inl ⟨a, ha, hq⟩))
    exact ⟨fun b hb hq' => hpar q (.inl ((hp1.space.map.owned_iff q).2 (.inl (mem_tables.2 ⟨b, hb, hq'⟩)))) hfree,
      fun hfr => hpar q (.inl ((hp1.space.map.owned_iff q).2 (.inr hfr))) hfree⟩
  obtain ⟨vm2, r, hcp, hc, hk2, hkp, hhi, hr⟩ := uvmcopy_copied hp1.space hnew hap
  have hw : Within vm1 vm2 pt := Within.of_confined hc (fun _ h => absurd h List.not_mem_nil) hkp hk2
    fun x q fl hx he => by
      rcases hr with ⟨-, hcop⟩ | ⟨-, hu⟩
      · by_cases hxK : x < (PGROUNDUP p.sz).toNat / 4096
        · obtain ⟨q₁, q', fl', -, h2, hfree, -⟩ := hcop.copy x hxK
          rw [h2] at he
          obtain ⟨rfl, -⟩ := Prod.mk.inj (Option.some.inj he)
          exact .inl hfree
        · rw [hcop.map.above x (by omega) hx] at he
          cases he
      · rw [hu.above x (Nat.zero_le x) hx] at he
        cases he
  -- the parent's pages are neither free in `vm1` nor tables of the child, so `uvmcopy` leaves them
  have hmem2 : ∀ q, Owns vm1 p q → vm2.mem q = vm1.mem q := fun q ho =>
    hc.mem q (hp1.owns_not_free ho) List.not_mem_nil fun a ha he =>
      hpar q ho (hs.free_of_held (Or.inr (Or.inl ⟨a, ha, he⟩)))
  rcases hr with ⟨rfl, hcop⟩ | ⟨rfl, hu⟩
  · -- every page copied: the trapframe copied, and the child made
    have hs2 := hs.within hw ⟨hp1.space.size, hcop.map⟩ hhi
    set vm3 := (copyTrapframe vm2 p.trapframe tf).write tf tfA0 0 with hvm3
    have hm3 : ∀ q, q ≠ tf → vm3.mem q = vm2.mem q := fun q hq => by
      rw [hvm3, VM.write_mem_ne _ _ _ hq, copyTrapframe_mem_ne hq]
    have hs3 := hs2.write_trapframe hm3 (by simp [hvm3]) (by simp [hvm3])
    refine ⟨vm3, some { p with pagetable := pt, trapframe := tf }, ?_, (fun h => nomatch h),
      fun np hnp => ?_⟩
    · rw [fork_of_copy ha hcp, if_neg (by decide)]
    obtain rfl := Option.some.inj hnp
    refine ⟨hs3, rfl, ?_, fun i hi => ?_⟩
    · -- the child's frames are not its trapframe page; the copy is the parent's image
      obtain ⟨-, -, habs3⟩ := hs2.proc.write_trapframe hm3 (by simp [hvm3]) (by simp [hvm3])
      calc image vm3 pt = image vm2 pt :=
            hs2.proc.image_eq habs3 fun q hh _ => hm3 q fun e => hs2.proc.trapframe (e ▸ hh)
        _ = image vm1 p.pagetable := hcop.image hp1.space.map
        _ = image vm p.pagetable := h.image_eq habs1 fun q hh hf => hmem1 q (.inl ⟨hh, hf⟩)
    · -- the trapframe: the parent's words, which nothing before changed, and `a0`
      have hsrc : vm2.mem p.trapframe = vm.mem p.trapframe := by
        rw [hmem2 _ (.inr rfl), hmem1 _ (.inr rfl)]
      show vm3.mem tf i = _
      rw [hvm3, VM.write_mem, copyTrapframe_mem_self, if_pos hi, hsrc]
      simp
  · -- out of memory: `freeproc` of the child gives everything back
    have hs2 := hs.within hw ⟨hs.proc.space.size, by simpa only [h0] using hu⟩ hhi
    obtain ⟨vm3, hfree, hrel⟩ := freeproc_spec hs2.proc
    refine ⟨vm3, none, ?_, fun _ => hs2.released hrel h.freeOk.nodup, fun np h => nomatch h⟩
    rw [fork_of_copy ha hcp, if_pos (by decide)]
    exact congrArg (Except.map _) hfree

end Fork

end Mem

end Xv6
