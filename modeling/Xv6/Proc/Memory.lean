import Xv6.Proc.Alloc

/-!
# The processes' memory, across any interleaving of their calls

Memory as all processes share it: `proc[NPROC]` of `kernel/proc.c`, each slot with a
process (its table, size and trapframe page) or none, in one physical memory with one free
list.  A process changes its memory by `sbrk` (`sys_sbrk`, `kernel/sysproc.c`) and by `exec`
(`kernel/exec.c`, with the arguments `sys_exec` fetched).  The calls are taken one at a
time, in any order across the processes (`Mem.step`, run by `Trace.runOut`).

A process owns the pages its table holds that are not free, and its trapframe page
(`Owns`, `Xv6.Proc.Alloc`).  The invariant (`MemInv`) is that every process's memory is well formed and that
no page is owned by two processes.  A call is `Conserved` for the process that makes it
(`Xv6.Exec.Commit`): the pages it takes were free or its own.  So after every call the
invariant holds again, the pages that are free or owned (`Pool`) are the same set, and every
other process owns the same pages, with the same contents, and keeps its map
(`MemInv.step`).  By induction on the calls, every run that does not panic keeps the
invariant and the pool (`memory_kept`), and a process that makes no call keeps its image and
its trapframe page, whatever the others do (`memory_isolated`).  A process that `allocproc`
made of free pages joins a table that keeps the invariant (`MemInv.spawn`); the runs after
each theorem start from such tables.
-/

namespace Xv6

namespace Exec

/-! ## Calls -/

/-- The calls by which a process changes its memory: `sbrk(n)`, and `exec(path, argv)` with
the arguments `sys_exec` fetched. -/
inductive Call where
  | sbrk (n : Int32)
  | exec (path : List UInt8) (argv : List (List UInt8))

/-- A call by process `p`: the file system, memory and process after, and what the call
returns.  `sys_sbrk` sets `p->sz` through `growproc`. -/
def call (trampoline : UInt64) (fs : Fsys) (vm : VM) (p : ExecProc) :
    Call → Except String (Fsys × VM × ExecProc × Int)
  | .sbrk n => (sysSbrk vm p.pagetable p.sz n).map fun r => (fs, r.1.1, { p with sz := r.1.2 }, r.2)
  | .exec path argv => exec fs vm p trampoline path argv

/-- The file system, memory, and the process in each slot of `proc[NPROC]`. -/
structure Mem where
  fs : Fsys
  vm : VM
  procs : Fin NPROC → Option ExecProc

/-- The call `e.2` by the process in slot `e.1`, which then holds the process the call
leaves; a slot with no process makes no call. -/
def Mem.step (trampoline : UInt64) (st : Mem) (e : Fin NPROC × Call) : Except String (Mem × Int) :=
  match st.procs e.1 with
  | none => .ok (st, -1)
  | some p => (call trampoline st.fs st.vm p e.2).map fun r =>
    (⟨r.1, r.2.1, Function.update st.procs e.1 (some r.2.2.1)⟩, r.2.2.2)

section Step

variable {trampoline : UInt64}

theorem Mem.step_cases {st st' : Mem} {e : Fin NPROC × Call} {r : Int}
    (hs : Mem.step trampoline st e = .ok (st', r)) :
    (st.procs e.1 = none ∧ st' = st) ∨
      ∃ p fs' vm' p', st.procs e.1 = some p ∧ call trampoline st.fs st.vm p e.2 = .ok (fs', vm', p', r) ∧
        st' = ⟨fs', vm', Function.update st.procs e.1 (some p')⟩ := by
  unfold Mem.step at hs
  split at hs
  · rename_i hp
    cases hs
    exact .inl ⟨hp, rfl⟩
  · rename_i p hp
    obtain ⟨⟨fs', vm', p', r'⟩, hc, he⟩ := Outcome.ok_of_map hs
    cases he
    exact .inr ⟨p, fs', vm', p', hp, hc, rfl⟩

variable {fs fs' : Fsys} {vm vm' : VM} {p p' : ExecProc} {r : Int}

/-- Every call that returns keeps the caller's memory and keeps to its pages. -/
theorem call_conserves {c : Call} (h : ProcMem vm p trampoline)
    (hc : call trampoline fs vm p c = .ok (fs', vm', p', r)) :
    ProcMem vm' p' trampoline ∧ Conserved vm vm' p p' := by
  cases c with
  | sbrk n =>
    obtain ⟨⟨⟨vm1, sz1⟩, r1⟩, hs, he⟩ := Outcome.ok_of_map hc
    cases he
    exact sbrk_conserves h hs
  | exec path argv => exact exec_conserves h hc

end Step

/-! ## The pool -/

/-- The pages that are free or owned by some process. -/
def Pool (vm : VM) (procs : Fin NPROC → Option ExecProc) (q : UInt64) : Prop :=
  q ∈ vm.freelist ∨ ∃ i p, procs i = some p ∧ Owns vm p q

/-! ## The invariant -/

/-- Every process's memory is well formed, and no page is owned by two processes. -/
structure MemInv (vm : VM) (procs : Fin NPROC → Option ExecProc) (trampoline : UInt64) : Prop where
  proc : ∀ i p, procs i = some p → ProcMem vm p trampoline
  apart : ∀ i j p p', i ≠ j → procs i = some p → procs j = some p' →
    ∀ q, Owns vm p q → ¬ Owns vm p' q

section Inv

variable {vm vm' : VM} {procs : Fin NPROC → Option ExecProc} {trampoline : UInt64}

theorem pool_split {i : Fin NPROC} {p : ExecProc} (hi : procs i = some p) (q : UInt64) :
    Pool vm procs q ↔ (q ∈ vm.freelist ∨ Owns vm p q) ∨
      ∃ j pj, j ≠ i ∧ procs j = some pj ∧ Owns vm pj q := by
  unfold Pool
  constructor
  · rintro (hf | ⟨j, pj, hj, ho⟩)
    · exact .inl (.inl hf)
    · by_cases hji : j = i
      · subst hji
        rw [hi] at hj
        cases hj
        exact .inl (.inr ho)
      · exact .inr ⟨j, pj, hji, hj, ho⟩
  · rintro ((hf | ho) | ⟨j, pj, -, hj, ho⟩)
    · exact .inl hf
    · exact .inr ⟨i, p, hi, ho⟩
    · exact .inr ⟨j, pj, hj, ho⟩

/-- A process put in slot `k` keeps the invariant when every other process keeps its memory
and what it owns, and none of them owns a page the new one owns. -/
theorem MemInv.update {k : Fin NPROC} {np : ExecProc} (h : MemInv vm procs trampoline)
    (hkeep : ∀ j pj, j ≠ k → procs j = some pj → ProcMem vm' pj trampoline ∧
      ∀ q, Owns vm' pj q ↔ Owns vm pj q)
    (hnp : ProcMem vm' np trampoline)
    (hnew : ∀ j pj, j ≠ k → procs j = some pj → ∀ q, Owns vm' np q → ¬ Owns vm' pj q) :
    MemInv vm' (Function.update procs k (some np)) trampoline := by
  refine ⟨fun i p hi => ?_, fun i j p p' hij hi hj q ho => ?_⟩
  · by_cases hik : i = k
    · subst hik
      rw [Function.update_self] at hi
      cases hi
      exact hnp
    · rw [Function.update_of_ne hik] at hi
      exact (hkeep i p hik hi).1
  · -- the new process against the others, and the others among themselves
    by_cases hik : i = k
    · subst hik
      rw [Function.update_self] at hi
      cases hi
      rw [Function.update_of_ne (Ne.symm hij)] at hj
      exact hnew j p' (Ne.symm hij) hj q ho
    · rw [Function.update_of_ne hik] at hi
      by_cases hjk : j = k
      · subst hjk
        rw [Function.update_self] at hj
        cases hj
        exact fun ho' => hnew i p hik hi q ho' ho
      · rw [Function.update_of_ne hjk] at hj
        rw [(hkeep i p hik hi).2] at ho
        rw [(hkeep j p' hjk hj).2]
        exact h.apart i j p p' hij hi hj q ho

/-- A call by the process in slot `i` keeps the invariant and the pool, and every other
process owns the same pages, with the same contents, and keeps its map. -/
theorem MemInv.step {fs fs' : Fsys} {i : Fin NPROC} {p p' : ExecProc} {c : Call} {r : Int}
    (h : MemInv vm procs trampoline) (hi : procs i = some p)
    (hc : call trampoline fs vm p c = .ok (fs', vm', p', r)) :
    MemInv vm' (Function.update procs i (some p')) trampoline ∧
      (∀ q, Pool vm' (Function.update procs i (some p')) q ↔ Pool vm procs q) ∧
      ∀ j pj, j ≠ i → procs j = some pj → (∀ q, Owns vm' pj q ↔ Owns vm pj q) ∧
        (∀ q, Owns vm pj q → vm'.mem q = vm.mem q) ∧
        absMap vm'.mem pj.pagetable = absMap vm.mem pj.pagetable := by
  have hp := h.proc i p hi
  obtain ⟨hp', hcons⟩ := call_conserves hp hc
  -- another process's pages are neither free nor the caller's, so the call leaves them
  have hother : ∀ j pj, j ≠ i → procs j = some pj → ProcMem vm' pj trampoline ∧
      (∀ q, Owns vm' pj q ↔ Owns vm pj q) ∧ (∀ q, Owns vm pj q → vm'.mem q = vm.mem q) ∧
      absMap vm'.mem pj.pagetable = absMap vm.mem pj.pagetable := by
    intro j pj hji hj
    have hpj := h.proc j pj hj
    have hnot : ∀ q, Held vm p.pagetable q → ¬ Owns vm pj q := fun q hh ho => by
      rcases (free_or_owns_iff q).2 (.inl hh) with hf | hop
      · exact hpj.owns_not_free ho hf
      · exact h.apart i j p pj (Ne.symm hji) hi hj q hop ho
    have hmem : ∀ q, Owns vm pj q → vm'.mem q = vm.mem q := fun q ho =>
      hcons.mem q (fun hh => hnot q hh ho) fun hT => h.apart i j p pj (Ne.symm hji) hi hj q (.inr hT) ho
    obtain ⟨hpj', hown, habs⟩ := hpj.keep hmem hcons.kend hp'.space.map.wf.nodup
      hp'.space.map.wf.freeOk fun q hq => hnot q ((hcons.held q).1 (.inl hq))
    exact ⟨hpj', hown, hmem, habs⟩
  -- a page the caller owns now was free or its own, so no other process owns it
  have hcaller : ∀ j pj, j ≠ i → procs j = some pj → ∀ q, Owns vm' p' q → ¬ Owns vm' pj q :=
    fun j pj hji hj q ho ho' => by
      have ho'' := ((hother j pj hji hj).2.1 q).1 ho'
      rcases (hcons.pool_iff q).1 (.inr ho) with hf | hop
      · exact (h.proc j pj hj).owns_not_free ho'' hf
      · exact h.apart i j p pj (Ne.symm hji) hi hj q hop ho''
  refine ⟨h.update (fun j pj hji hj => ⟨(hother j pj hji hj).1, (hother j pj hji hj).2.1⟩) hp'
    hcaller, fun q => ?_, fun j pj hji hj => (hother j pj hji hj).2⟩
  · -- the pool: the caller's part is conserved, the others' parts stay
    rw [pool_split (Function.update_self i (some p') procs), pool_split hi, hcons.pool_iff]
    refine or_congr Iff.rfl ⟨?_, ?_⟩
    · rintro ⟨j, pj, hji, hj, ho⟩
      rw [Function.update_of_ne hji] at hj
      exact ⟨j, pj, hji, hj, ((hother j pj hji hj).2.1 q).1 ho⟩
    · rintro ⟨j, pj, hji, hj, ho⟩
      exact ⟨j, pj, hji, by rw [Function.update_of_ne hji]; exact hj, ((hother j pj hji hj).2.1 q).2 ho⟩

theorem MemInv.none : MemInv vm (fun _ => none) trampoline :=
  ⟨(fun _ _ h => nomatch h), fun _ _ _ _ _ h => nomatch h⟩

/-- A new process made of free pages, put in a slot, keeps the invariant: every process
already there keeps its memory and what it owns, and what the new one owns was free. -/
theorem MemInv.spawn {k : Fin NPROC} {np : ExecProc} (h : MemInv vm procs trampoline)
    (hs : Xv6.Mem.Spawned vm vm' np trampoline) :
    MemInv vm' (Function.update procs k (some np)) trampoline := by
  have hkeep : ∀ j pj, procs j = some pj → ProcMem vm' pj trampoline ∧
      ∀ q, Owns vm' pj q ↔ Owns vm pj q := fun j pj hj => by
    obtain ⟨hp, hown, -, -⟩ := (h.proc j pj hj).keep_free hs.mem hs.kend
      hs.proc.space.map.wf.nodup fun q hq => (hs.free q).2 (.inl hq)
    exact ⟨hp, hown⟩
  refine h.update (fun j pj _ hj => hkeep j pj hj) hs.proc fun j pj _ hj q ho ho' => ?_
  exact (h.proc j pj hj).owns_not_free (((hkeep j pj hj).2 q).1 ho') ((hs.free q).2 (.inr ho))

end Inv

/-! ## Runs -/

/-- Slot `j` is left as it was from `st` to `st'`: the same process, owning the same pages,
with the same contents, and with the same map. -/
def Untouched (j : Fin NPROC) (st st' : Mem) : Prop :=
  st'.procs j = st.procs j ∧ ∀ p, st.procs j = some p →
    (∀ q, Owns st'.vm p q ↔ Owns st.vm p q) ∧ (∀ q, Owns st.vm p q → st'.vm.mem q = st.vm.mem q) ∧
      absMap st'.vm.mem p.pagetable = absMap st.vm.mem p.pagetable

namespace Untouched

variable {j : Fin NPROC} {st st1 st2 : Mem}

theorem refl (j : Fin NPROC) (st : Mem) : Untouched j st st :=
  ⟨rfl, fun _ _ => ⟨fun _ => Iff.rfl, fun _ _ => rfl, rfl⟩⟩

theorem trans (h1 : Untouched j st st1) (h2 : Untouched j st1 st2) : Untouched j st st2 := by
  refine ⟨h2.1.trans h1.1, fun p hp => ?_⟩
  obtain ⟨ho1, hm1, ha1⟩ := h1.2 p hp
  obtain ⟨ho2, hm2, ha2⟩ := h2.2 p (h1.1.trans hp)
  exact ⟨fun q => (ho2 q).trans (ho1 q), fun q hq => (hm2 q ((ho1 q).2 hq)).trans (hm1 q hq),
    ha2.trans ha1⟩

end Untouched

section Run

theorem Mem.step_inv {trampoline : UInt64} {st st' : Mem} {e : Fin NPROC × Call} {r : Int}
    (h : MemInv st.vm st.procs trampoline) (hs : Mem.step trampoline st e = .ok (st', r)) :
    MemInv st'.vm st'.procs trampoline ∧ (∀ q, Pool st'.vm st'.procs q ↔ Pool st.vm st.procs q) ∧
      ∀ j, j ≠ e.1 → Untouched j st st' := by
  rcases Mem.step_cases hs with ⟨-, rfl⟩ | ⟨p, fs', vm', p', hp, hc, rfl⟩
  · exact ⟨h, fun _ => Iff.rfl, fun j _ => Untouched.refl j _⟩
  · obtain ⟨hinv, hpool, hother⟩ := h.step hp hc
    exact ⟨hinv, hpool, fun j hj => ⟨Function.update_of_ne hj _ _, fun pj hpj => hother j pj hj hpj⟩⟩

/-- Sixteen free pages above a kernel that ends at `0x80000000`. -/
def freeVM : VM := ⟨fun _ _ => 0, [0x80001000, 0x80002000, 0x80003000, 0x80004000, 0x80005000,
  0x80006000, 0x80007000, 0x80008000, 0x80009000, 0x8000A000, 0x8000B000, 0x8000C000,
  0x8000D000, 0x8000E000, 0x8000F000, 0x80010000], 0x80000000⟩

theorem freeVM_ok : FreeOk freeVM := ⟨by decide, fun q hq => by
  simp only [freeVM, List.mem_cons, List.not_mem_nil, or_false] at hq
  rcases hq with rfl | rfl | rfl | rfl | rfl | rfl | rfl | rfl | rfl | rfl | rfl | rfl | rfl | rfl |
    rfl | rfl <;> decide,
  by decide⟩

def firstSlot : Fin NPROC := ⟨0, NPROC_pos⟩

def secondSlot : Fin NPROC := ⟨1, one_lt_NPROC⟩

/-- The processes two `allocproc`s make from `freeVM`: trapframe pages `0x80001000` and
`0x80005000`, tables `0x80002000` and `0x80006000`, no user memory. -/
def firstProc : ExecProc := ⟨0x80002000, 0, 0x80001000, [], ⟨0, NINODE_pos⟩⟩

def secondProc : ExecProc := ⟨0x80006000, 0, 0x80005000, [], ⟨0, NINODE_pos⟩⟩

def twoProcs : Fin NPROC → Option ExecProc :=
  Function.update (Function.update (fun _ => none) firstSlot (some firstProc)) secondSlot
    (some secondProc)

def twoAllocs : Except String ((VM × Option (UInt64 × UInt64)) × (VM × Option (UInt64 × UInt64))) :=
  Xv6.Mem.allocproc freeVM 0x80020000 >>= fun a =>
    (Xv6.Mem.allocproc a.1 0x80020000).map fun b => (a, b)

def elfFs : Fsys := (FsState.init Mkfs.sb elfDisk : FsState 1).fs

theorem twoProcs_inv {vm1 vm2 : VM}
    (h : twoAllocs = .ok ((vm1, some (0x80001000, 0x80002000)), (vm2, some (0x80005000, 0x80006000)))) :
    MemInv vm2 twoProcs 0x80020000 := by
  obtain ⟨a, ha, hb⟩ := Outcome.ok_of_bind h
  obtain ⟨b, hb, hab⟩ := Outcome.ok_of_map hb
  obtain ⟨rfl, rfl⟩ := Prod.mk.inj hab
  obtain ⟨vm1', r1, ha', -, hsome1⟩ := Xv6.Mem.allocproc_spec freeVM_ok 0x80020000
  rw [ha'] at ha
  obtain ⟨rfl, rfl⟩ := Prod.mk.inj (Except.ok.inj ha)
  have hs1 := hsome1 firstProc rfl rfl
  obtain ⟨vm2', r2, hb', -, hsome2⟩ := Xv6.Mem.allocproc_spec hs1.proc.freeOk 0x80020000
  rw [hb'] at hb
  obtain ⟨rfl, rfl⟩ := Prod.mk.inj (Except.ok.inj hb)
  exact (MemInv.none.spawn hs1).spawn (hsome2 secondProc rfl rfl)

/-- Every run of calls by any processes, in any order, that does not panic keeps every
process's memory well formed and no page owned by two processes, and keeps the pages that
are free or owned the same set: no page is lost, and none is taken from outside. -/
theorem memory_kept {trampoline : UInt64} {st st' : Mem} {rs : List Int} (h : MemInv st.vm st.procs trampoline)
    (es : List (Fin NPROC × Call)) (hrun : Trace.runOut (Mem.step trampoline) st es = .ok (st', rs)) :
    MemInv st'.vm st'.procs trampoline ∧ ∀ q, Pool st'.vm st'.procs q ↔ Pool st.vm st.procs q :=
  Trace.runOut_preserves (fun st => MemInv st.vm st.procs trampoline)
    (fun st st' => ∀ q, Pool st'.vm st'.procs q ↔ Pool st.vm st.procs q) (fun _ => True)
    (fun _ _ => Iff.rfl) (fun h1 h2 q => by exact (h2 q).trans (h1 q))
    (fun _ _ _ _ hi _ hs => ⟨(Mem.step_inv hi hs).1, (Mem.step_inv hi hs).2.1⟩)
    es (fun _ _ => trivial) st st' rs h hrun

/-- The two processes of `twoProcs` grow and shrink in turn, keeping the invariant and the
pool. -/
theorem memory_kept_sbrk :
    ∃ st : Mem, MemInv st.vm st.procs 0x80020000 ∧ st.procs = twoProcs ∧ ∃ st' rs,
      Trace.runOut (Mem.step 0x80020000) st
          [(firstSlot, .sbrk 4096), (secondSlot, .sbrk 4096), (firstSlot, .sbrk (-4096))] =
        .ok (st', rs) ∧
      MemInv st'.vm st'.procs 0x80020000 ∧ ∀ q, Pool st'.vm st'.procs q ↔ Pool st.vm st.procs q := by
  -- the two `allocproc`s and the run, computed once by the kernel
  have h : Outcome.holds
      (fun y : ((VM × Option (UInt64 × UInt64)) × (VM × Option (UInt64 × UInt64))) × Mem × List Int =>
        y.1.1.2 == some (0x80001000, 0x80002000) && y.1.2.2 == some (0x80005000, 0x80006000))
      (some (twoAllocs >>= fun ab =>
        (Trace.runOut (Mem.step 0x80020000) ⟨elfFs, ab.2.1, twoProcs⟩
          [(firstSlot, .sbrk 4096), (secondSlot, .sbrk 4096), (firstSlot, .sbrk (-4096))]).map
            fun x => (ab, x))) = true := by
    decide +kernel
  obtain ⟨⟨⟨⟨vm1, r1⟩, ⟨vm2, r2⟩⟩, st', rs⟩, he, hab⟩ := Outcome.exists_of_holds h
  rw [Bool.and_eq_true, beq_iff_eq, beq_iff_eq] at hab
  obtain ⟨rfl, rfl⟩ := hab
  obtain ⟨ab, hall, hrun⟩ := Outcome.ok_of_bind (Option.some.inj he)
  obtain ⟨x, hx, hxe⟩ := Outcome.ok_of_map hrun
  obtain ⟨rfl, rfl⟩ := Prod.mk.inj hxe
  have hinv := twoProcs_inv hall
  exact ⟨⟨elfFs, vm2, twoProcs⟩, hinv, rfl, st', rs, hx, memory_kept hinv _ hx⟩

/-- A process that makes no call in a run keeps its slot, its image, and the contents of
every page it owns, its trapframe page among them, whatever the other processes call. -/
theorem memory_isolated {trampoline : UInt64} {st st' : Mem} {rs : List Int} (h : MemInv st.vm st.procs trampoline)
    (j : Fin NPROC) (es : List (Fin NPROC × Call)) (hes : ∀ e ∈ es, e.1 ≠ j)
    (hrun : Trace.runOut (Mem.step trampoline) st es = .ok (st', rs)) :
    st'.procs j = st.procs j ∧ ∀ p, st.procs j = some p →
      image st'.vm p.pagetable = image st.vm p.pagetable ∧
        ∀ q, Owns st.vm p q → st'.vm.mem q = st.vm.mem q := by
  obtain ⟨-, hu⟩ := Trace.runOut_preserves (fun st => MemInv st.vm st.procs trampoline)
    (Untouched j) (fun e => e.1 ≠ j) (Untouched.refl j) Untouched.trans
    (fun _ _ _ _ hi hj hs => ⟨(Mem.step_inv hi hs).1, (Mem.step_inv hi hs).2.2 j (Ne.symm hj)⟩)
    es hes st st' rs h hrun
  refine ⟨hu.1, fun p hp => ?_⟩
  obtain ⟨-, hmem, habs⟩ := hu.2 p hp
  exact ⟨(h.proc j p hp).image_eq habs fun q hh hf => hmem q (.inl ⟨hh, hf⟩), hmem⟩

/-- The first process of `twoProcs` grows by a page and shrinks back; the second keeps its
slot, its image and its pages. -/
theorem memory_isolated_sbrk :
    ∃ st : Mem, MemInv st.vm st.procs 0x80020000 ∧ st.procs = twoProcs ∧
      ∃ st' rs, Trace.runOut (Mem.step 0x80020000) st
          [(firstSlot, .sbrk 4096), (firstSlot, .sbrk (-4096))] = .ok (st', rs) ∧
        st'.procs secondSlot = st.procs secondSlot ∧ ∀ p, st.procs secondSlot = some p →
          image st'.vm p.pagetable = image st.vm p.pagetable ∧
            ∀ q, Owns st.vm p q → st'.vm.mem q = st.vm.mem q := by
  have h : Outcome.holds
      (fun y : ((VM × Option (UInt64 × UInt64)) × (VM × Option (UInt64 × UInt64))) × Mem × List Int =>
        y.1.1.2 == some (0x80001000, 0x80002000) && y.1.2.2 == some (0x80005000, 0x80006000))
      (some (twoAllocs >>= fun ab =>
        (Trace.runOut (Mem.step 0x80020000) ⟨elfFs, ab.2.1, twoProcs⟩
          [(firstSlot, .sbrk 4096), (firstSlot, .sbrk (-4096))]).map fun x => (ab, x))) = true := by
    decide +kernel
  obtain ⟨⟨⟨⟨vm1, r1⟩, ⟨vm2, r2⟩⟩, st', rs⟩, he, hab⟩ := Outcome.exists_of_holds h
  rw [Bool.and_eq_true, beq_iff_eq, beq_iff_eq] at hab
  obtain ⟨rfl, rfl⟩ := hab
  obtain ⟨ab, hall, hrun⟩ := Outcome.ok_of_bind (Option.some.inj he)
  obtain ⟨x, hx, hxe⟩ := Outcome.ok_of_map hrun
  obtain ⟨rfl, rfl⟩ := Prod.mk.inj hxe
  have hinv := twoProcs_inv hall
  have hes : ∀ e ∈ [((firstSlot, .sbrk 4096) : Fin NPROC × Call), (firstSlot, .sbrk (-4096))],
      e.1 ≠ secondSlot := fun e he => by
    simp only [List.mem_cons, List.not_mem_nil, or_false] at he
    rcases he with rfl | rfl <;> decide
  exact ⟨⟨elfFs, vm2, twoProcs⟩, hinv, rfl, st', rs, hx, memory_isolated hinv secondSlot _ hes hx⟩

end Run

end Exec

end Xv6
