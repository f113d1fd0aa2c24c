import Xv6.Exec
import Xv6.Fs.Sysfile
import Xv6.Vm.ProcTable
import Xv6.Lib.Jump

/-!
# A failed `exec` changes nothing

Every way out of `exec` before its commit point jumps to `bad:`, which frees the new table
with `proc_freepagetable` (`kernel/exec.c` lines 140-146).  Up to there the new table is
drawn from the free pages: `proc_pagetable` takes them, `uvmalloc` takes more or gives them
back, `loadseg`, `copyout` and `uvmclear` write into pages the new table holds and nowhere
else (`Built`).  So at every jump the new table, taken down, gives back the free list in
another order and leaves every other page of memory as it was (`execBad_restores`), the old
image and the trapframe included.

The body of `exec` is proved statement by statement with the rules of `Jump.Spec`: what it
returns, and what holds of the state at each `goto bad` (`Undoable`).  A failed `exec`
therefore returns the process as it was and memory restored (`exec_failure_restores`).
-/

namespace Xv6

namespace Exec

open Jump Bytes

/-! ## `readi` reads at most what it is asked -/

section Readi

variable {ip : Fin NINODE}

theorem readiLoop_length {n : UInt32} (fuel : Nat) :
    ∀ (s : Fsys) (tot off : UInt32) (acc : List UInt8) (s' : Fsys) (dst : Dst) (r : UInt32),
      tot ≤ n → acc.length = tot.toNat →
      readiLoop ip n fuel s tot off (.kernel acc) = .ok (s', dst, r) → dst.buf.length ≤ n.toNat := by
  -- induction on the passes left, with the bytes copied so far counted by `tot`
  induction fuel with
  | zero =>
    intro s tot off acc s' dst r htn hacc h
    cases h
    rw [Dst.buf, hacc]
    exact UInt32.le_iff_toNat_le.1 htn
  | succ fuel ih =>
    intro s tot off acc s' dst r htn hacc h
    have htn' := UInt32.le_iff_toNat_le.1 htn
    rw [readiLoop] at h
    split at h
    · split at h
      · cases h
      · split at h
        · cases h
          rw [Dst.buf, hacc]
          exact htn'
        · -- a pass of `m` bytes, with `tot + m ≤ n`; a copy into a kernel buffer never fails
          have hm : (min (n - tot) (BSIZE.toUInt32 - off % BSIZE.toUInt32)).toNat ≤ n.toNat - tot.toNat := by
            rw [UInt32.toNat_min, UInt32.toNat_sub_of_le _ _ htn]
            exact Nat.min_le_left _ _
          have htot : (tot + min (n - tot) (BSIZE.toUInt32 - off % BSIZE.toUInt32)).toNat =
              tot.toNat + (min (n - tot) (BSIZE.toUInt32 - off % BSIZE.toUInt32)).toNat := by
            rw [UInt32.toNat_add, Nat.mod_eq_of_lt (by have := n.toNat_lt; omega)]
          dsimp only [eitherCopyout] at h
          rw [if_neg (by decide)] at h
          refine ih _ _ _ _ _ _ _ (UInt32.le_iff_toNat_le.2 (by omega)) ?_ h
          rw [List.length_append, hacc, htot, getBytes, List.length_map, List.length_range]
    · cases h
      rw [Dst.buf, hacc]
      exact htn'

theorem readi_length {s s' : Fsys} {off n : UInt32} {dst : Dst} {r : Int}
    (h : readi s ip (.kernel []) off n = .ok (s', dst, r)) : dst.buf.length ≤ n.toNat := by
  unfold readi at h
  split at h
  · cases h
    exact Nat.zero_le _
  · rename_i hin
    simp only [not_or, gt_iff_lt, UInt32.not_lt] at hin
    have hcut : (if off + n > (s.inode ip).size then (s.inode ip).size - off else n).toNat ≤ n.toNat := by
      have hoff := UInt32.le_iff_toNat_le.1 hin.1
      have hno := UInt32.le_iff_toNat_le.1 hin.2
      split
      · rename_i hgt
        have hgt' := UInt32.lt_iff_toNat_lt.1 hgt
        rw [UInt32.toNat_sub_of_le _ _ hin.1]
        rw [UInt32.toNat_add] at hgt' hno
        have := n.toNat_lt
        have := off.toNat_lt
        omega
      · exact le_rfl
    obtain ⟨⟨s₁, dst₁, r₁⟩, hrun, he⟩ := Outcome.ok_of_map h
    cases he
    exact le_trans (readiLoop_length _ _ _ _ _ _ _ _ UInt32.zero_le rfl hrun) hcut

end Readi


/-! ## Writes into the new image -/

section Load

variable {pt : UInt64} {k : Nat}

theorem walkaddr_frame {s : VM} {va : UInt64} (h : walkaddr s pt va ≠ 0) :
    ∃ fl, absMap s.mem pt (va.toNat / 4096) = some (walkaddr s pt va, fl) ∧ fl &&& PTE_U ≠ 0 := by
  have hw := walkaddr_eq s pt va
  by_cases hva : MAXVA ≤ va
  · rw [if_pos hva] at hw
    exact absurd hw h
  rw [if_neg hva] at hw
  cases ha : absMap s.mem pt (va.toNat / 4096) with
  | none =>
    rw [ha] at hw
    exact absurd hw h
  | some e =>
    obtain ⟨pa, fl⟩ := e
    rw [ha] at hw
    dsimp only at hw
    by_cases hU : fl &&& PTE_U = 0
    · rw [if_pos hU] at hw
      exact absurd hw h
    · rw [if_neg hU] at hw
      exact ⟨fl, by rw [hw], hU⟩

theorem loadseg_count_le (sz i : UInt32) : (if sz - i < 4096 then sz - i else 4096 : UInt32).toNat ≤ 4096 := by
  split
  · rename_i h
    exact Nat.le_of_lt (UInt32.lt_iff_toNat_lt.1 h)
  · exact le_rfl

/-- `loadseg`'s loop writes only into user frames, on a table whose pages at and above
`TRAPFRAME` lack `PTE_U`. -/
theorem loadsegLoop_written {va : UInt64} {ip : Fin NINODE} {offset sz : UInt32} (fuel : Nat) :
    ∀ (fs : Fsys) (vm : VM) (i : UInt32) (fs' : Fsys) (vm' : VM) (r : Int), UserMap vm pt k →
      (∀ x, TRAPFRAME.toNat / 4096 ≤ x → ∀ e, absMap vm.mem pt x = some e → e.2 &&& PTE_U = 0) →
      loadsegLoop pt va ip offset sz fuel fs vm i = .ok (fs', vm', r) → Written vm vm' pt := by
  -- induction on the passes left; each writes the bytes it read into one user frame
  induction fuel with
  | zero =>
    intro fs vm i fs' vm' r _ _ h
    cases h
  | succ fuel ih =>
    intro fs vm i fs' vm' r hu hnoU h
    rw [loadsegLoop] at h
    split at h
    · dsimp only at h
      generalize hn : (if sz - i < 4096 then sz - i else 4096 : UInt32) = n at h
      split at h
      · cases h
      rename_i hpa
      split at h
      · cases h
      rename_i fs1 dst r₁ hread
      obtain ⟨fl, ha, hU⟩ := walkaddr_frame hpa
      have hx : (va + i.toUInt64).toNat / 4096 < TRAPFRAME.toNat / 4096 := by
        by_contra hx
        exact hU (hnoU _ (by omega) _ ha)
      have hlen := le_trans (readi_length hread) (hn ▸ loadseg_count_le sz i)
      have hw1 := setBytes_written hu hx ha (fun k => dst.buf.getD k 0) 0 (o := 0) (n := dst.buf.length)
        (by rw [UInt64.toNat_zero]; omega)
      rw [UInt64.add_zero] at hw1
      split at h
      · cases h
        exact hw1
      · exact hw1.trans (ih _ _ _ _ _ _ (hu.written hw1) (by rw [hw1.map]; exact hnoU) h)
    · cases h
      exact Written.refl vm pt

theorem loadseg_written {fs fs' : Fsys} {vm vm' : VM} {va : UInt64} {ip : Fin NINODE}
    {offset sz : UInt32} {r : Int} (hu : UserMap vm pt k)
    (hnoU : ∀ x, TRAPFRAME.toNat / 4096 ≤ x → ∀ e, absMap vm.mem pt x = some e → e.2 &&& PTE_U = 0)
    (h : loadseg fs vm pt va ip offset sz = .ok (fs', vm', r)) : Written vm vm' pt :=
  loadsegLoop_written _ _ _ _ _ _ _ hu hnoU h

theorem copyout_written {s : VM} (dstva : UInt64) (src : Nat → UInt8) (len : UInt64)
    (hu : UserMap s pt k)
    (hnoU : ∀ x, TRAPFRAME.toNat / 4096 ≤ x → ∀ e, absMap s.mem pt x = some e → e.2 &&& PTE_U = 0) :
    Written s (copyout s pt dstva src len).1 pt :=
  copyoutLoop_written src _ s dstva 0 len hu hnoU

theorem pushArgs_written (stackbase : UInt64) (argv : List (List UInt8)) :
    ∀ (vm : VM) (sp : UInt64) (ustack : List UInt64), UserMap vm pt k →
      (∀ x, TRAPFRAME.toNat / 4096 ≤ x → ∀ e, absMap vm.mem pt x = some e → e.2 &&& PTE_U = 0) →
      Written vm (pushArgs pt stackbase argv vm sp ustack).1 pt := by
  -- induction on the strings left, each copied out by one `copyout`
  induction argv with
  | nil => exact fun vm _ _ _ _ => Written.refl vm pt
  | cons arg argv ih =>
    intro vm sp ustack hu hnoU
    rw [pushArgs]
    split
    · exact Written.refl vm pt
    dsimp only
    split
    · exact Written.refl vm pt
    have hw1 := copyout_written (sp - (arg.length + 1).toUInt64 - (sp - (arg.length + 1).toUInt64) % 16)
      (fun k => (arg ++ [0]).getD k 0) (arg.length + 1).toUInt64 hu hnoU
    split
    · exact hw1
    · exact hw1.trans (ih _ _ _ (hu.written hw1) (by rw [hw1.map]; exact hnoU))

end Load


/-! ## `bad:` -/

/-- What `bad:` needs of the state a jump leaves, for an `exec` from memory `vm₀` with the
trampoline's and the trapframe's pages: before there is a new table, memory as in `vm₀` but
for the order of the free list; after, a table built from `vm₀`'s free pages. -/
def Undoable (vm₀ : VM) (trampoline trapframe : UInt64) (b : Bad) : Prop :=
  (b.pagetable = 0 → Restored vm₀ b.vm) ∧
    (b.pagetable ≠ 0 → Built vm₀ b.vm b.pagetable trampoline trapframe b.sz)

section Bad

variable {vm₀ : VM} {trampoline trapframe : UInt64}

/-- `bad:` gives back every page the new table took and changes no other page. -/
theorem execBad_restores {b : Bad} {r : Fsys × VM} (hnd : vm₀.freelist.Nodup)
    (hb : Undoable vm₀ trampoline trapframe b) (h : execBad b = .ok r) : Restored vm₀ r.2 := by
  -- the table is freed first; the inode is unlocked after, and touches no memory
  have hfree : ∀ vm, (if b.pagetable ≠ 0 then procFreepagetable b.vm b.pagetable b.sz
      else .ok b.vm) = .ok vm → Restored vm₀ vm := by
    intro vm hvm
    by_cases hp : b.pagetable = 0
    · rw [if_neg (not_not.2 hp)] at hvm
      cases hvm
      exact hb.1 hp
    · obtain ⟨s', hs', hR⟩ := (hb.2 hp).restore hnd
      rw [if_pos hp, hs'] at hvm
      cases hvm
      exact hR
  unfold execBad at h
  split at h
  · cases h
  rename_i vm hvm
  split at h
  · rename_i ip _
    cases hi : iunlockput b.fs ip with
    | error e =>
      rw [hi] at h
      cases h
    | ok fs =>
      rw [hi] at h
      cases h
      exact hfree vm hvm
  · cases h
    exact hfree vm hvm

theorem undoable_of_built {fs : Fsys} {vm : VM} {pt sz : UInt64} {ip : Option (Fin NINODE)}
    (hpt : pt ≠ 0) (h : Built vm₀ vm pt trampoline trapframe sz) :
    Undoable vm₀ trampoline trapframe ⟨fs, vm, pt, sz, ip⟩ :=
  ⟨fun h0 => absurd h0 hpt, fun _ => h⟩

end Bad

/-! ## The loop over the program headers -/

theorem flags2perm_lt (flags : UInt32) : (flags2perm flags).toNat < 1024 := by
  unfold flags2perm
  split <;> split <;> decide

/-- The loop over the program headers, from a table built to size `sz`: it returns a table
built to the size it reaches, and each jump leaves one built to the size it had. -/
theorem loadSegs_spec {vm₀ : VM} {pt trampoline trapframe : UInt64} {ip : Fin NINODE}
    (hpt : pt ≠ 0) (k : Nat) :
    ∀ (fs : Fsys) (vm : VM) (off : UInt32) (sz : UInt64), Built vm₀ vm pt trampoline trapframe sz →
      Spec (loadSegs pt ip k fs vm off sz) (fun r => Built vm₀ r.2.1 pt trampoline trapframe r.2.2)
        (Undoable vm₀ trampoline trapframe) := by
  -- induction on the headers left; each `LOAD` segment grows the table, then fills it
  induction k with
  | zero => exact fun fs vm off sz hb => Spec.pure hb
  | succ k ih =>
    intro fs vm off sz hb
    rw [loadSegs]
    refine Spec.bind (Spec.lift fun ⟨fs1, ph, r⟩ _ => ?_)
    dsimp only
    refine Spec.guard (fun _ => undoable_of_built hpt hb) fun _ => ?_
    refine Spec.ite (fun _ => ih _ _ _ _ hb) fun _ => ?_
    refine Spec.guard (fun _ => undoable_of_built hpt hb) fun _ => ?_
    refine Spec.guard (fun _ => undoable_of_built hpt hb) fun _ => ?_
    refine Spec.guard (fun _ => undoable_of_built hpt hb) fun _ => ?_
    obtain ⟨vm1, sz1, halloc, hw1, htop1, hfail, hgrow⟩ := uvmalloc_within
      ((Proghdr.ofBytes ph.buf).vaddr + (Proghdr.ofBytes ph.buf).memsz) hb.space (flags2perm_lt _)
    refine Spec.bind (Spec.lift fun a he => ?_)
    rw [halloc] at he
    cases he
    refine Spec.guard (fun h0 => undoable_of_built hpt (hb.within hw1 htop1 (hfail h0))) fun h0 => ?_
    have hb1 := hb.within hw1 htop1 (hgrow h0).1
    refine Spec.bind (Spec.lift fun a he => ?_)
    have hb2 := hb1.written (loadseg_written hb1.space.map hb1.noU he)
    exact Spec.guard (fun _ => undoable_of_built hpt hb2) fun _ => ih _ _ _ _ hb2


/-! ## The stack -/

section Stack

variable {vm₀ vm : VM} {pt trampoline trapframe sz : UInt64}

theorem UserSpace.roundup (h : UserSpace vm pt sz) : UserSpace vm pt (PGROUNDUP sz) := by
  have hle := h.pgroundup_le
  have hsz := UInt64.le_iff_toNat_le.1 h.size
  rw [TRAPFRAME_toNat] at hsz
  rw [PHYSTOP_toNat] at hle
  have hal : (PGROUNDUP sz).toNat % 4096 = 0 := by
    rw [PGROUNDUP_toNat sz (by omega)]
    omega
  refine ⟨UInt64.le_iff_toNat_le.2 (by rw [TRAPFRAME_toNat]; omega), ?_⟩
  rw [PGROUNDUP_of_aligned hal (by omega)]
  exact h.map

/-- The two pages of stack at the page boundary above a built table: `uvmalloc` maps both
or, when memory runs out, neither; `uvmclear` then takes `PTE_U` from the lower one, the
guard page.  Either way the table stays built. -/
theorem stack_spec (hb : Built vm₀ vm pt trampoline trapframe sz) :
    ∃ vm1 sz1, uvmalloc vm pt (PGROUNDUP sz) (PGROUNDUP sz + 2 * PGSIZE) PTE_W = .ok (vm1, sz1) ∧
      (sz1 = 0 → Built vm₀ vm1 pt trampoline trapframe (PGROUNDUP sz)) ∧
      (sz1 ≠ 0 → ∃ vm2, uvmclear vm1 pt (sz1 - 2 * PGSIZE) = .ok vm2 ∧
        Built vm₀ vm2 pt trampoline trapframe sz1) := by
  have hu := UserSpace.roundup hb.space
  have hle := hb.space.pgroundup_le
  have hsz := UInt64.le_iff_toNat_le.1 hb.space.size
  rw [TRAPFRAME_toNat] at hsz
  rw [PHYSTOP_toNat] at hle
  have hP : (PGROUNDUP sz).toNat % 4096 = 0 := by
    rw [PGROUNDUP_toNat sz (by omega)]
    omega
  have hP2 : (PGROUNDUP sz + 2 * PGSIZE).toNat = (PGROUNDUP sz).toNat + 8192 := by
    rw [UInt64.toNat_add, show (2 * PGSIZE).toNat = 8192 from rfl]
    omega
  obtain ⟨vm1, sz1, halloc, hw1, htop1, hfail, hgrow⟩ :=
    uvmalloc_within (PGROUNDUP sz + 2 * PGSIZE) hu (by decide : PTE_W.toNat < 1024)
  refine ⟨vm1, sz1, halloc, fun h0 => hb.within hw1 htop1 (hfail h0), fun h0 => ?_⟩
  obtain ⟨hu1, hr, hmapped⟩ := hgrow h0
  have hb1 := hb.within hw1 htop1 hu1
  obtain rfl := hr (UInt64.le_iff_toNat_le.2 (by omega))
  -- the guard page is the first of the two, mapped with `PTE_U`
  have hg : (PGROUNDUP sz + 2 * PGSIZE - 2 * PGSIZE).toNat / 4096 = (PGROUNDUP sz).toNat / 4096 := by
    rw [UInt64.add_sub_cancel]
  obtain ⟨q, hq⟩ := hmapped ((PGROUNDUP sz).toNat / 4096)
    (by rw [PGROUNDUP_of_aligned hP (by omega)])
    (by rw [PGROUNDUP_of_aligned (a := PGROUNDUP sz + 2 * PGSIZE) (by omega) (by omega), hP2]; omega)
  obtain ⟨vm2, hclear, hum2, hw2, habs2⟩ := uvmclear_spec hu1.map (by rw [hg]; exact hq)
    (by decide : (PTE_R ||| PTE_U ||| PTE_W ||| PTE_V) &&& ~~~PTE_U ≠ PTE_V)
  refine ⟨vm2, hclear, hb1.within hw2 (fun x hx => ?_) ⟨hu1.size, hum2⟩⟩
  rw [TRAPFRAME_toNat] at hx
  rw [habs2, Function.update_of_ne (by rw [hg]; omega)]

end Stack


/-! ## `exec` -/

section Exec

variable {vm₀ : VM}

/-- What the body of `exec` leaves at `return argc`: `argc`, and the process with the new
table `pt`, built from `vm₀`'s free pages to the size `sz` in memory `vm`, from which the
trapframe's `a1`, `epc` and `sp` are set and the old table is freed. -/
def Committed (vm₀ : VM) (p : ExecProc) (trampoline : UInt64) (path : List UInt8)
    (r : Fsys × VM × ExecProc × Int) : Prop :=
  0 ≤ r.2.2.2 ∧ ∃ vm pt sz sp entry, pt ≠ 0 ∧ Built vm₀ vm pt trampoline p.trapframe sz ∧
    procFreepagetable (((vm.write p.trapframe tfA1 sp).write p.trapframe tfEpc entry).write
      p.trapframe tfSp sp) p.pagetable p.sz = .ok r.2.1 ∧
    r.2.2.1 = { p with pagetable := pt, sz := sz, name := (lastElem path).take 15 }

/-- The body of `exec`, from memory with a sound free list: it commits a table built from the
free pages, and every jump to `bad:` leaves what `bad:` can undo. -/
theorem execBody_spec (hf : FreeOk vm₀) (fs : Fsys) (p : ExecProc) (trampoline : UInt64)
    (ip : Fin NINODE) (path : List UInt8) (argv : List (List UInt8)) :
    Spec (execBody fs vm₀ p trampoline ip path argv) (Committed vm₀ p trampoline path)
      (Undoable vm₀ trampoline p.trapframe) := by
  have hjump0 : ∀ fs, Undoable vm₀ trampoline p.trapframe ⟨fs, vm₀, 0, 0, some ip⟩ :=
    fun _ => ⟨fun _ => Restored.refl vm₀, fun h => absurd rfl h⟩
  rw [execBody]
  refine Spec.bind (Spec.lift fun fs1 _ => ?_)
  refine Spec.bind (Spec.lift fun ⟨fs2, bs⟩ _ => ?_)
  dsimp only
  refine Spec.guard (fun _ => hjump0 _) fun _ => ?_
  refine Spec.guard (fun _ => hjump0 _) fun _ => ?_
  obtain ⟨vm1, pt, hpp, h0, hb⟩ := procPagetable_spec hf trampoline p.trapframe
  refine Spec.bind (Spec.lift fun a he => ?_)
  rw [hpp] at he
  cases he
  refine Spec.guard (fun hpt => ⟨fun _ => h0 hpt, fun h => absurd rfl h⟩) fun hpt => ?_
  refine Spec.bind ((loadSegs_spec hpt _ _ _ _ _ (hb hpt)).mono (fun r hb2 => ?_) fun _ h => h)
  refine Spec.bind (Spec.lift fun fs3 _ => ?_)
  dsimp only
  obtain ⟨vm2, sz2, halloc, hfail, hgrow⟩ := stack_spec hb2
  refine Spec.bind (Spec.lift fun a he => ?_)
  rw [halloc] at he
  cases he
  refine Spec.guard (fun h0 => undoable_of_built hpt (hfail h0)) fun h0 => ?_
  obtain ⟨vm3, hclear, hb3⟩ := hgrow h0
  refine Spec.bind (Spec.lift fun a he => ?_)
  rw [hclear] at he
  cases he
  have hb4 := hb3.written (pushArgs_written (sz2 - PGSIZE) argv vm3 sz2 [] hb3.space.map hb3.noU)
  split
  · refine Spec.guard (fun _ => undoable_of_built hpt hb4) fun _ => ?_
    refine Spec.guard (fun _ => undoable_of_built hpt
      (hb4.written (copyout_written _ _ _ hb4.space.map hb4.noU))) fun _ => ?_
    exact Spec.bind (Spec.lift fun _ ha => Spec.pure ⟨Int.natCast_nonneg _, _, _, _, _, _, hpt,
      hb4.written (copyout_written _ _ _ hb4.space.map hb4.noU), ha, rfl⟩)
  · exact Spec.throw (undoable_of_built hpt hb4)

/-- What an `exec` by the process `p` from memory `vm₀` leaves when it fails: when it returns
`-1`, the process as it was and memory restored.  A panic stops the kernel, and leaves
nothing to check. -/
def Undone (vm₀ : VM) (p : ExecProc) : Except String (Fsys × VM × ExecProc × Int) → Prop
  | .ok (_, vm, p', r) => r = -1 → p' = p ∧ Restored vm₀ vm
  | .error _ => True

/-- A failed `exec` changes nothing: whatever the file at `path` holds and whatever the
arguments, from memory whose free list is sound, an `exec` that returns `-1` leaves the
process's table, size, trapframe page and name as they were, gives back every page it took
(the free list is the same up to order), and leaves every other page of memory as it was. -/
theorem exec_failure_restores (hf : FreeOk vm₀) (fs : Fsys) (p : ExecProc) (trampoline : UInt64)
    (path : List UInt8) (argv : List (List UInt8)) :
    Undone vm₀ p (exec fs vm₀ p trampoline path argv) := by
  unfold exec
  split
  · trivial
  · -- no file at `path`: nothing was done
    exact fun _ => ⟨rfl, Restored.refl vm₀⟩
  rename_i fs1 ip _
  have hspec := execBody_spec hf fs1 p trampoline ip path argv
  split
  · trivial
  · -- the commit returns `argc`, not `-1`
    rename_i r hr
    obtain ⟨fs', vm', p', n⟩ := r
    intro hn
    have := (hspec.ret _ hr).1
    dsimp only at this
    omega
  · -- `bad:`
    rename_i b hb
    cases h : execBad b with
    | error e => trivial
    | ok r => exact fun _ => ⟨rfl, execBad_restores hf.nodup (hspec.jump b hb) h⟩


/-- The image `mkfs` writes with one file, `a` (inode `2`, one link, 120 bytes in block
`47`): an ELF header whose one program header, at byte `64`, asks for a loadable segment of
16 MB at address `0`. -/
def elfDisk : Disk := fun a j =>
  if a = 32 then
    if j.val = 64 ∨ j.val = 70 ∨ j.val = 134 then 1 else if j.val = 73 then 4
    else if j.val = 76 then 46 else if j.val = 128 then 2 else if j.val = 136 then 120
    else if j.val = 140 then 47 else 0
  else if a = 45 then
    if j.val < 6 then 255 else 0
  else if a = 46 then
    if j.val = 0 ∨ j.val = 16 then 1 else if j.val = 2 ∨ j.val = 18 ∨ j.val = 19 then 46
    else if j.val = 32 then 2 else if j.val = 34 then 97 else 0
  else if a = 47 then
    if j.val = 0 then 0x7F else if j.val = 1 then 0x45 else if j.val = 2 then 0x4C
    else if j.val = 3 then 0x46 else if j.val = 32 then 64 else if j.val = 56 then 1
    else if j.val = 64 then 1 else if j.val = 107 then 1 else 0
  else 0

/-- Memory with four free pages: three for the new table's root and the two tables on the
path to the trampoline, one for the first page of the segment. -/
def elfVM : VM := ⟨fun _ _ => 0, [0x80001000, 0x80002000, 0x80003000, 0x80004000], 0x80000000⟩

/-- A process of one page, in the root directory. -/
def elfProc : ExecProc := ⟨0x80010000, 4096, 0x80011000, [], ⟨0, NINODE_pos⟩⟩

/-- `exec("a")` builds the new table, runs out of memory in the segment's first page, and
fails: with the process as it was and memory restored. -/
theorem exec_failure_restores_elf :
    FreeOk elfVM ∧ ∃ fs' vm' p', exec (FsState.init Mkfs.sb elfDisk : FsState 1).fs elfVM elfProc
      0x80012000 [97] [] = .ok (fs', vm', p', -1) ∧ p' = elfProc ∧ Restored elfVM vm' := by
  have hf : FreeOk elfVM := ⟨by decide, fun q hq => by
    simp only [elfVM, List.mem_cons, List.not_mem_nil, or_false] at hq
    rcases hq with rfl | rfl | rfl | rfl <;> decide, by decide⟩
  -- the run is computed once, by the kernel
  have h : Outcome.holds (fun r : Fsys × VM × ExecProc × Int => r.2.2.2 == -1)
      (some (exec (FsState.init Mkfs.sb elfDisk : FsState 1).fs elfVM elfProc
        0x80012000 [97] [])) = true := by
    decide +kernel
  obtain ⟨⟨fs', vm', p', r⟩, he, hr⟩ := Outcome.exists_of_holds h
  rw [beq_iff_eq] at hr
  subst hr
  have hU : ∀ t : UInt64, exec (FsState.init Mkfs.sb elfDisk : FsState 1).fs elfVM elfProc t [97] [] =
      .ok (fs', vm', p', -1) → p' = elfProc ∧ Restored elfVM vm' := fun t ht => by
    have := exec_failure_restores hf (FsState.init Mkfs.sb elfDisk : FsState 1).fs elfProc t [97] []
    rw [ht] at this
    exact this rfl
  exact ⟨hf, fs', vm', p', Option.some.inj he, hU _ (Option.some.inj he)⟩

end Exec

end Exec

end Xv6
