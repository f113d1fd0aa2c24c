import Xv6.Exec.Atomic

/-!
# `exec` and `sbrk` keep a process's memory

A process's memory (`ProcMem`) is a user space of `p->sz` bytes below `TRAPFRAME`, the
trampoline and the trapframe page mapped above it as `proc_pagetable` maps them, and a
trapframe page that is none of the pages the table holds and that `kfree` accepts.  A call that keeps to the
process's pages is `Conserved`: the process holds after it exactly the pages it held before
(`Held`, the free pages included), and every other page but the trapframe page keeps its
contents.  So the call takes no page that was neither free nor the process's own, loses
none, and writes into no page of anyone else.

`exec` commits (`kernel/exec.c` lines 112-118) by setting the trapframe's words and freeing
the old table with `proc_freepagetable`.  The new table was built from the free pages, so
it then holds the free pages and the old table's pages (`commit_conserves`).  A failed
`exec` restores memory (`ProcMem.restored`), so every `exec` that returns is conserved
(`exec_conserves`); so is `sbrk`, which holds the same pages (`sbrk_conserves`).
-/

namespace Xv6

namespace Exec

/-! ## A process's memory -/

/-- The memory of process `p` in `vm`: a user space of `p.sz` bytes below `TRAPFRAME`, the
trampoline and the trapframe page mapped above it, and a trapframe page that is none of the
pages the table holds and that `kfree` accepts. -/
structure ProcMem (vm : VM) (p : ExecProc) (trampoline : UInt64) : Prop where
  space : UserSpace vm p.pagetable p.sz
  top : ∀ x, TRAPFRAME.toNat / 4096 ≤ x →
    absMap vm.mem p.pagetable x = procTop trampoline p.trapframe x
  trapframe : ¬ Held vm p.pagetable p.trapframe
  tf : pageOk vm.kend p.trapframe
  pos : 0 < vm.kend

/-- A call that takes process `p` in `vm` to `p'` in `vm'` keeps to its pages: `p'` holds
exactly what `p` held, the free pages included, and every other page but the trapframe
page keeps its contents. -/
structure Conserved (vm vm' : VM) (p p' : ExecProc) : Prop where
  kend : vm'.kend = vm.kend
  trapframe : p'.trapframe = p.trapframe
  held : ∀ q, Held vm' p'.pagetable q ↔ Held vm p.pagetable q
  mem : ∀ q, ¬ Held vm p.pagetable q → q ≠ p.trapframe → vm'.mem q = vm.mem q

namespace Conserved

variable {vm vm1 vm2 : VM} {p p1 p2 : ExecProc}

theorem refl (vm : VM) (p : ExecProc) : Conserved vm vm p p :=
  ⟨rfl, rfl, fun _ => Iff.rfl, fun _ _ _ => rfl⟩

theorem trans (h1 : Conserved vm vm1 p p1) (h2 : Conserved vm1 vm2 p1 p2) :
    Conserved vm vm2 p p2 where
  kend := h2.kend.trans h1.kend
  trapframe := h2.trapframe.trans h1.trapframe
  held q := (h2.held q).trans (h1.held q)
  mem q hq hT := by
    rw [h2.mem q (fun h => hq ((h1.held q).1 h)) (by rw [h1.trapframe]; exact hT), h1.mem q hq hT]

end Conserved

section Proc

variable {vm vm' : VM} {p : ExecProc} {trampoline : UInt64}

theorem ProcMem.freeOk (h : ProcMem vm p trampoline) : FreeOk vm :=
  ⟨h.space.map.wf.nodup, h.space.map.wf.freeOk, h.pos⟩

/-- Through a change that keeps the kernel's end and the trapframe page, a process keeps its
memory once its user space, its top and a trapframe page it does not hold are shown again. -/
theorem ProcMem.of_kend {p' : ExecProc} (h : ProcMem vm p trampoline) (hk : vm'.kend = vm.kend)
    (hT : p'.trapframe = p.trapframe) (hs : UserSpace vm' p'.pagetable p'.sz)
    (htop : ∀ x, TRAPFRAME.toNat / 4096 ≤ x →
      absMap vm'.mem p'.pagetable x = procTop trampoline p'.trapframe x)
    (hheld : ¬ Held vm' p'.pagetable p'.trapframe) : ProcMem vm' p' trampoline where
  space := hs
  top := htop
  trapframe := hheld
  tf := by
    rw [hk, hT]
    exact h.tf
  pos := by
    rw [hk]
    exact h.pos

theorem ProcMem.restored (h : ProcMem vm p trampoline) (hr : Restored vm vm') :
    ProcMem vm' p trampoline ∧ Conserved vm vm' p p := by
  have hu := h.space.map
  have htab : ∀ b q, b.length ≤ 2 → pageAt vm.mem p.pagetable b = some q → vm'.mem q = vm.mem q :=
    fun b q hb he => hr.mem q fun hf => hu.wf.fresh q hf b hb he
  obtain ⟨hu', habs⟩ := hu.of_tables htab hr.kend (hr.perm.nodup_iff.2 hu.wf.nodup)
    fun q hq => hr.perm.subset hq
  have hheld : ∀ q, Held vm' p.pagetable q ↔ Held vm p.pagetable q := by
    intro q
    rw [hu.held_of_same hu' htab habs, hr.perm.mem_iff]
    by_cases hf : q ∈ vm.freelist
    · exact ⟨fun _ => .inl hf, fun _ => .inl hf⟩
    · simp [hf]
  refine ⟨h.of_kend hr.kend rfl ⟨h.space.size, hu'⟩ (fun x hx => ?_)
      fun hT => h.trapframe ((hheld _).1 hT),
    ⟨hr.kend, rfl, hheld, fun q hq _ => hr.mem q fun hf => hq (.inl hf)⟩⟩
  rw [habs]
  exact h.top x hx

end Proc

/-! ## The commit -/

section Commit

variable {vm₀ vm vm' : VM} {p : ExecProc} {trampoline pt sz sp entry : UInt64}

/-- The commit of `exec`: from a table `pt` built from the free pages of `vm₀`, setting the
trapframe's words and freeing the old table leaves the process with `pt` and a memory that
holds what the old process held. -/
theorem commit_conserves {name : List UInt8} (h : ProcMem vm₀ p trampoline)
    (hb : Built vm₀ vm pt trampoline p.trapframe sz)
    (hfree : procFreepagetable (((vm.write p.trapframe tfA1 sp).write p.trapframe tfEpc entry).write
      p.trapframe tfSp sp) p.pagetable p.sz = .ok vm') :
    ProcMem vm' { p with pagetable := pt, sz := sz, name := name } trampoline ∧
      Conserved vm₀ vm' p { p with pagetable := pt, sz := sz, name := name } := by
  set vm4 := ((vm.write p.trapframe tfA1 sp).write p.trapframe tfEpc entry).write
    p.trapframe tfSp sp with hvm4
  have hm4 : ∀ q, q ≠ p.trapframe → vm4.mem q = vm.mem q := fun q hq => by
    rw [hvm4, VM.write_mem_ne _ _ _ hq, VM.write_mem_ne _ _ _ hq, VM.write_mem_ne _ _ _ hq]
  have hfl4 : vm4.freelist = vm.freelist := by simp [hvm4]
  have hk4 : vm4.kend = vm.kend := by simp [hvm4]
  have hsub : ∀ q ∈ vm4.freelist, q ∈ vm₀.freelist := fun q hq =>
    (hb.drawn.held q).1 (.inl (hfl4 ▸ hq))
  have hnew := hb.space.map
  have htabn : ∀ b q, b.length ≤ 2 → pageAt vm.mem pt b = some q → vm4.mem q = vm.mem q :=
    fun b q hb' he => hm4 q fun e => h.trapframe (.inl ((hb.drawn.held _).1 (.inr (.inl ⟨b, hb', e ▸ he⟩))))
  obtain ⟨hn4, habsn4⟩ := hnew.of_tables htabn hk4 (hfl4 ▸ hnew.wf.nodup) fun q hq => hfl4 ▸ hq
  have hheldn4 : ∀ q, Held vm4 pt q ↔ q ∈ vm₀.freelist := fun q =>
    (held_congr hfl4 (pageAt_of_agree fun pre c hpre hc => htabn pre c (by omega) hc)
      (fun x _ => by rw [habsn4]) q).trans (hb.drawn.held q)
  have hold := h.space.map
  have htabo : ∀ b q, b.length ≤ 2 → pageAt vm₀.mem p.pagetable b = some q → vm4.mem q = vm₀.mem q :=
    fun b q hb' he => by
      rw [hm4 q fun e => h.trapframe (.inr (.inl ⟨b, hb', e ▸ he⟩)),
        hb.drawn.mem q fun hf => hold.wf.fresh q hf b hb' he]
  obtain ⟨ho4, habso4⟩ := hold.of_tables htabo (hk4.trans hb.drawn.kend) (hfl4 ▸ hnew.wf.nodup) hsub
  have hheldo4 := hold.held_of_same ho4 htabo habso4
  -- `proc_freepagetable` takes the old table down; none of the pages it frees is the new table's
  obtain ⟨vm'', hfree', hF⟩ := procFreepagetable_spec ⟨h.space.size, ho4⟩ fun x hx => by
    rw [habso4]
    exact h.top x hx
  obtain rfl : vm'' = vm' := Except.ok.inj (hfree'.symm.trans hfree)
  have hapart : ∀ q, Held vm4 p.pagetable q →
      q ∉ tables vm4.mem pt 2 ∧ q ∉ frames vm4.mem pt 0 ((PGROUNDUP sz).toNat / 4096) := by
    intro q hq
    have hown := (hn4.owned_iff q).2
    rcases (hheldo4 q).1 hq with hf | ⟨-, hf⟩
    · exact ⟨fun ht => (hown (.inl ht)).2 hf, fun ht => (hown (.inr ht)).2 hf⟩
    · exact ⟨fun ht => hf ((hheldn4 q).1 (hown (.inl ht)).1),
        fun ht => hf ((hheldn4 q).1 (hown (.inr ht)).1)⟩
  obtain ⟨hn', habsn', hheldn'⟩ := hn4.freed hF (fun q hq => ho4.held_ok hq) hapart
  have hheld : ∀ q, Held vm'' pt q ↔ Held vm₀ p.pagetable q := by
    intro q
    rw [hheldn', hheldo4, hheldn4]
    constructor
    · rintro ((hf | ⟨hq, -⟩) | ⟨hf, -⟩)
      · exact .inl (hsub q hf)
      · exact hq
      · exact .inl hf
    · intro hq
      by_cases hf0 : q ∈ vm₀.freelist
      · by_cases hf4 : q ∈ vm4.freelist
        · exact .inl (.inl hf4)
        · exact .inr ⟨hf0, hf4⟩
      · exact .inl (.inr ⟨hq, hf0⟩)
  have hmem : ∀ q, ¬ Held vm₀ p.pagetable q → q ≠ p.trapframe → vm''.mem q = vm₀.mem q := by
    intro q hq hT
    have h4 : ¬ Held vm4 p.pagetable q := fun h4 => by
      rcases (hheldo4 q).1 h4 with hf | ⟨h0, -⟩
      exacts [hq (.inl (hsub q hf)), hq h0]
    rw [hF.mem q h4, hm4 q hT, hb.drawn.mem q fun hf => hq (.inl hf)]
  have hk : vm''.kend = vm₀.kend := by rw [hF.kend, hk4, hb.drawn.kend]
  refine ⟨h.of_kend hk rfl ⟨hb.space.size, hn'⟩ (fun x hx => ?_)
      fun hT => h.trapframe ((hheld _).1 hT), ⟨hk, rfl, hheld, hmem⟩⟩
  rw [habsn', habsn4]
  exact hb.top x hx

end Commit

/-! ## Every call keeps to the process's pages -/

section Calls

variable {fs fs' : Fsys} {vm vm' : VM} {p p' : ExecProc} {trampoline : UInt64}

/-- Every `exec` that returns keeps the process's memory and keeps to its pages: on success
the new image holds what the old one held, and on failure memory is restored. -/
theorem exec_conserves {path : List UInt8} {argv : List (List UInt8)} {r : Int}
    (h : ProcMem vm p trampoline) (hx : exec fs vm p trampoline path argv = .ok (fs', vm', p', r)) :
    ProcMem vm' p' trampoline ∧ Conserved vm vm' p p' := by
  unfold exec at hx
  split at hx
  · cases hx
  · -- no file at `path`
    cases hx
    exact ⟨h, Conserved.refl vm p⟩
  rename_i fs1 ip _
  have hspec := execBody_spec h.freeOk fs1 p trampoline ip path argv
  split at hx
  · cases hx
  · -- the commit
    rename_i r' hr
    cases hx
    obtain ⟨-, vm3, pt, sz, sp, entry, -, hb, hfree, hp'⟩ := hspec.ret _ hr
    obtain rfl : p' = { p with pagetable := pt, sz := sz, name := (lastElem path).take 15 } := hp'
    exact commit_conserves h hb hfree
  · -- `bad:` restores memory
    rename_i b hb
    cases h' : execBad b with
    | error e =>
      rw [h'] at hx
      cases hx
    | ok r' =>
      rw [h'] at hx
      cases hx
      exact h.restored (execBad_restores h.freeOk.nodup (hspec.jump b hb) h')

/-- Every `sbrk(n)` keeps the process's memory, at its new size, and keeps to its pages. -/
theorem sbrk_conserves {sz' : UInt64} {n : Int32} {r : Int} (h : ProcMem vm p trampoline)
    (hs : sysSbrk vm p.pagetable p.sz n = .ok ((vm', sz'), r)) :
    ProcMem vm' { p with sz := sz' } trampoline ∧ Conserved vm vm' p { p with sz := sz' } := by
  obtain ⟨vm1, sz1, r1, hs1, hu1, -, hfp⟩ := sysSbrk_step h.space n
  rw [hs] at hs1
  cases hs1
  have hw := sysSbrk_within h.space hs
  refine ⟨h.of_kend hw.kend rfl hu1 (fun x hx => ?_) fun hT => h.trapframe ((hw.held _).1 hT),
    ⟨hw.kend, rfl, hw.held, fun q hq _ => hw.mem q hq⟩⟩
  rw [hfp.high x hx]
  exact h.top x hx

end Calls

end Exec

end Xv6
