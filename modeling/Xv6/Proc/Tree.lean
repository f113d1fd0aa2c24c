import Xv6.Proc.Sched
import Xv6.Lib.Bits

/-!
# The process tree

The parent pointers of `proc[]` under `fork`, `exit` (with `reparent`) and `wait`.  In every
reachable table (`TreeInv`, `ForkTree`):

* an `UNUSED` slot has pid and serial `0`, no parent, no trapframe and no page table (`freeproc`);
* `initproc` has serial `1`, no parent, and a thread: it never exits;
* every other process past `fork`'s setup has a parent, which has a thread (so is neither
  `UNUSED` nor `ZOMBIE`: `exit` gives its children to `initproc` first) and a smaller serial;
* live serials are distinct and below `nextserial`, and a reaped serial is no live one's;
* the pid of a live process is its serial as an `int`, and `nextpid` is `nextserial`;
* a `ZOMBIE` holds the status its `exit` recorded.

Serials fall along parent pointers, so following them from any process reaches `initproc`
(`ReachesInit`) and the parent relation is well founded: it has no cycle.  A scan of `wait`
returns `-1` only with no child, when killed, or when the status cannot be copied out
(no slot changes state then); else it reaps a zombie child, whose pid it returns with the
status that child passed to `exit`, and which no scan reaped before (`WaitSpec`).  Pids
themselves are positive and distinct only while fewer than `2^31 - 1` processes have been
made (`pid_pos_inj_of_lt`).
-/

namespace Xv6

/-- The states past `fork`'s setup. -/
def ProcState.started : ProcState → Bool
  | .sleeping | .runnable | .running | .zombie => true
  | .unused | .used => false

@[simp] theorem ProcState.started_iff (st : ProcState) :
    st.started = true ↔ st = .sleeping ∨ st = .runnable ∨ st = .running ∨ st = .zombie := by
  cases st <;> simp [ProcState.started]

theorem ProcState.started_of_active {st : ProcState} (h : st.active) : st.started := by
  cases st <;> simp_all [ProcState.active, ProcState.started]

/-- Two states the tree does not tell apart, equal or both with a thread. -/
theorem ProcState.alike {a b : ProcState} (h : a = b ∨ b.active ∧ a.active) :
    (a = .unused ↔ b = .unused) ∧ (a = .zombie → b = .zombie) ∧ a.started = b.started ∧
      (b.active → a.active) := by
  rcases h with rfl | ⟨hb, ha⟩
  · simp
  · cases a <;> cases b <;> simp_all [ProcState.active, ProcState.started]

/-- Two records of a slot alike for the pids and the pages: free or not, with the same pid
and serial, trapframe and page table. -/
def Proc.Alike (x y : Proc) : Prop :=
  (x.state = .unused ↔ y.state = .unused) ∧ (x.pid = y.pid ∧ x.serial = y.serial) ∧
    x.trapframe = y.trapframe ∧ x.pagetable = y.pagetable

theorem Proc.Alike.refl (x : Proc) : x.Alike x := ⟨Iff.rfl, ⟨rfl, rfl⟩, rfl, rfl⟩

/-- ... and for the tree: the same parent, the same state or two with a thread, and the
same status in a zombie. -/
def Proc.TreeAlike (x y : Proc) : Prop :=
  x.Alike y ∧ x.parent = y.parent ∧ (x.state = y.state ∨ y.state.active ∧ x.state.active) ∧
    (x.state = .zombie → x.xstate = y.xstate)

/-- Records that differ in the state only, between two with a thread, or in fields the tree
does not read. -/
theorem Proc.TreeAlike.of_state {x y : Proc}
    (hst : x.state = y.state ∨ y.state.active ∧ x.state.active)
    (hpid : x.pid = y.pid ∧ x.serial = y.serial) (hpar : x.parent = y.parent)
    (htf : x.trapframe = y.trapframe) (hpt : x.pagetable = y.pagetable)
    (hxs : x.xstate = y.xstate) : x.TreeAlike y :=
  ⟨⟨(ProcState.alike hst).1, hpid, htf, hpt⟩, hpar, hst, fun _ => hxs⟩

theorem Proc.TreeAlike.refl (x : Proc) : x.TreeAlike x :=
  .of_state (.inl rfl) ⟨rfl, rfl⟩ rfl rfl rfl rfl

namespace Ptable

/-- The process tree, the serials and the pids. -/
structure TreeInv (s : Ptable) : Prop where
  unused_clear : ∀ q, (s.proc q).state = .unused → ((s.proc q).pid = 0 ∧ (s.proc q).serial = 0) ∧
    (s.proc q).parent = none ∧ (s.proc q).trapframe = none ∧ (s.proc q).pagetable = none
  init_active : (s.proc initproc).state.active
  init_serial : (s.proc initproc).serial = 1
  init_parent : (s.proc initproc).parent = none
  has_parent : ∀ q, q ≠ initproc → (s.proc q).state.started → (s.proc q).parent ≠ none
  parent_active : ∀ q r, (s.proc q).parent = some r → (s.proc r).state.active
  parent_serial : ∀ q r, (s.proc q).parent = some r → (s.proc r).serial < (s.proc q).serial
  serial_pos : ∀ q, (s.proc q).state ≠ .unused → 1 ≤ (s.proc q).serial
  serial_lt : ∀ q, (s.proc q).state ≠ .unused → (s.proc q).serial < s.nextserial
  serial_inj : ∀ q q', (s.proc q).state ≠ .unused → (s.proc q').state ≠ .unused →
    (s.proc q).serial = (s.proc q').serial → q = q'
  pid_serial : ∀ q, (s.proc q).state ≠ .unused → (s.proc q).pid = Int32.ofNat (s.proc q).serial
  nextpid_serial : s.nextpid = Int32.ofNat s.nextserial
  reaped_nodup : s.reaped.Nodup
  reaped_lt : ∀ n ∈ s.reaped, n < s.nextserial
  reaped_dead : ∀ n ∈ s.reaped, ∀ q, (s.proc q).state ≠ .unused → (s.proc q).serial ≠ n
  zombie_exited : ∀ q, (s.proc q).state = .zombie →
    ((s.proc q).serial, (s.proc q).xstate) ∈ s.exited

/-- A child that `fork` sets up has no parent, and a serial above its creator's, until
`np->parent = p`; then it has `p`. -/
structure ForkTree (s : Ptable) : Prop where
  fork_child : ∀ p np, (s.proc p).kpc = .forkParent np →
    (s.proc np).parent = none ∧ (s.proc p).serial < (s.proc np).serial
  fork_parent : ∀ p np, (s.proc p).kpc = .forkRun np → (s.proc np).parent = some p

variable {s : Ptable} {c : Fin NCPU} {p q : Fin NPROC} {x : Proc}

/-! ## Tables the tree does not tell apart -/

/-- A table alike slot by slot for the pids, whose parents and zombies keep the tree. -/
theorem TreeInv.congr_parents {t : Ptable} (ht : s.TreeInv) (h : ∀ r, (t.proc r).Alike (s.proc r))
    (hinit : (t.proc initproc).state.active ∧ (t.proc initproc).parent = none)
    (hunused : ∀ q, (t.proc q).state = .unused → (t.proc q).parent = none)
    (hhas : ∀ q, q ≠ initproc → (t.proc q).state.started → (t.proc q).parent ≠ none)
    (hpar : ∀ q r, (t.proc q).parent = some r →
      (t.proc r).state.active ∧ (t.proc r).serial < (t.proc q).serial)
    (hzombie : ∀ q, (t.proc q).state = .zombie →
      ((t.proc q).serial, (t.proc q).xstate) ∈ t.exited)
    (hnext : t.nextpid = s.nextpid) (hserial : t.nextserial = s.nextserial)
    (hreaped : t.reaped = s.reaped) : t.TreeInv := by
  have hpid r := (h r).2.1.1
  have hser r := (h r).2.1.2
  have hlive : ∀ r, (t.proc r).state ≠ .unused → (s.proc r).state ≠ .unused :=
    fun r h' h'' => h' ((h r).1.2 h'')
  refine ⟨fun q hq => ?_, hinit.1, ?_, hinit.2, hhas, fun q r hr => (hpar q r hr).1,
    fun q r hr => (hpar q r hr).2, fun q hq => ?_, fun q hq => ?_, fun q q' hq hq' e => ?_,
    fun q hq => ?_, ?_, ?_, ?_, fun n hn q hq => ?_, hzombie⟩
  · rw [hpid, hser, (h q).2.2.1, (h q).2.2.2]
    obtain ⟨h0, -, htf, hpt⟩ := ht.unused_clear q ((h q).1.1 hq)
    exact ⟨h0, hunused q hq, htf, hpt⟩
  · rw [hser]; exact ht.init_serial
  · rw [hser]; exact ht.serial_pos q (hlive q hq)
  · rw [hser, hserial]; exact ht.serial_lt q (hlive q hq)
  · rw [hser, hser] at e; exact ht.serial_inj q q' (hlive q hq) (hlive q' hq') e
  · rw [hpid, hser]; exact ht.pid_serial q (hlive q hq)
  · rw [hnext, hserial]; exact ht.nextpid_serial
  · rw [hreaped]; exact ht.reaped_nodup
  · rw [hreaped, hserial]; exact ht.reaped_lt
  · rw [hser]; exact ht.reaped_dead n (hreaped ▸ hn) q (hlive q hq)

theorem TreeInv.congr {t : Ptable} (ht : s.TreeInv)
    (h : ∀ r, (t.proc r).TreeAlike (s.proc r)) (hnext : t.nextpid = s.nextpid)
    (hserial : t.nextserial = s.nextserial) (hreaped : t.reaped = s.reaped)
    (hexited : t.exited = s.exited) : t.TreeInv := by
  have hpar r := (h r).2.1
  have hst r := ProcState.alike (h r).2.2.1
  refine ht.congr_parents (fun r => (h r).1) ⟨(hst _).2.2.2 ht.init_active, ?_⟩
    (fun q hq => ?_) (fun q hq hs => ?_) (fun q r hr => ?_) (fun q hq => ?_) hnext hserial hreaped
  · rw [hpar]; exact ht.init_parent
  · rw [hpar]; exact (ht.unused_clear q ((hst q).1.1 hq)).2.1
  · rw [hpar]; exact ht.has_parent q hq (by rwa [← (hst q).2.2.1])
  · rw [hpar] at hr
    rw [(h q).1.2.1.2, (h r).1.2.1.2]
    exact ⟨(hst r).2.2.2 (ht.parent_active q r hr), ht.parent_serial q r hr⟩
  · rw [(h q).1.2.1.2, (h q).2.2.2 hq, hexited]
    exact ht.zombie_exited q ((hst q).2.1 hq)

theorem TreeInv.set (ht : s.TreeInv) (hx : x.TreeAlike (s.proc q)) : (s.set q x).TreeInv := by
  refine ht.congr (fun r => ?_) rfl rfl rfl rfl
  by_cases hr : r = q
  · subst hr; simpa using hx
  · simpa [hr] using Proc.TreeAlike.refl (s.proc r)

theorem TreeInv.setCpu (ht : s.TreeInv) (c : Fin NCPU) (o : Option (Fin NPROC)) :
    (s.setCpu c o).TreeInv :=
  ht.congr (fun _ => Proc.TreeAlike.refl _) rfl rfl rfl rfl

theorem ForkTree.congr {t : Ptable} (hf : s.ForkTree)
    (hpar : ∀ r, (t.proc r).parent = (s.proc r).parent)
    (hser : ∀ r, (t.proc r).serial = (s.proc r).serial)
    (hkpc : ∀ r, (t.proc r).kpc.child = none ∨ (t.proc r).kpc = (s.proc r).kpc) : t.ForkTree := by
  have same : ∀ r, (t.proc r).kpc.child ≠ none → (t.proc r).kpc = (s.proc r).kpc :=
    fun r h => (hkpc r).resolve_left h
  refine ⟨fun p np h => ?_, fun p np h => ?_⟩
  · rw [hpar, hser, hser]; exact hf.fork_child p np ((same p (by simp [h])).symm.trans h)
  · rw [hpar]; exact hf.fork_parent p np ((same p (by simp [h])).symm.trans h)

/-! ## The steps that change the tree -/

theorem TreeInv.init_ne (ht : s.TreeInv) (hq : ¬ (s.proc q).state.active) : q ≠ initproc := by
  rintro rfl; exact hq ht.init_active

theorem TreeInv.not_parent (ht : s.TreeInv) (hq : ¬ (s.proc q).state.active) (r : Fin NPROC) :
    (s.proc r).parent ≠ some q :=
  fun h => hq (ht.parent_active r q h)

theorem TreeInv.bump (ht : s.TreeInv) :
    { s with nextpid := s.nextpid + 1, nextserial := s.nextserial + 1 }.TreeInv :=
  { ht with
    serial_lt := fun q hq => show (s.proc q).serial < s.nextserial + 1 by
      have := ht.serial_lt q hq; omega
    nextpid_serial := show s.nextpid + 1 = Int32.ofNat (s.nextserial + 1) by
      rw [ht.nextpid_serial, Int32.ofNat_add]; rfl
    reaped_lt := fun n hn => show n < s.nextserial + 1 by have := ht.reaped_lt n hn; omega }

/-- `allocproc` takes the `UNUSED` slot `np`, with pid `nextpid` and the next serial. -/
theorem TreeInv.alloc {np : Fin NPROC} {a b : Nat} (ht : s.TreeInv)
    (hnp : (s.proc np).state = .unused) :
    ({ s with nextpid := s.nextpid + 1, nextserial := s.nextserial + 1 }.set np
      { s.proc np with pid := s.nextpid, state := .used, serial := s.nextserial,
                       trapframe := some a, pagetable := some b, kpc := .idle }).TreeInv := by
  obtain ⟨-, hpar0, -, -⟩ := ht.unused_clear np hnp
  have hna : ¬ (s.proc np).state.active := by simp [hnp]
  have hinit := ht.init_ne hna
  have hnext : 1 < s.nextserial :=
    ht.init_serial ▸ ht.serial_lt initproc fun h => by simpa [h] using ht.init_active
  refine ⟨fun q hq => ?_, ?_, ?_, ?_, fun q hq hs => ?_, fun q r hr => ?_, fun q r hr => ?_,
    fun q hq => ?_, fun q hq => ?_, fun q q' hq hq' e => ?_, fun q hq => ?_, ?_, ht.reaped_nodup,
    fun n hn => ?_, fun n hn q hq => ?_, fun q hq => ?_⟩
  all_goals simp only [set_proc] at *
  · by_cases h : q = np
    · subst h; simp at hq
    · simpa [h] using ht.unused_clear q (by simpa [h] using hq)
  · simpa [Ne.symm hinit] using ht.init_active
  · simpa [Ne.symm hinit] using ht.init_serial
  · simpa [Ne.symm hinit] using ht.init_parent
  · by_cases h : q = np
    · subst h; simp at hs
    · simpa [h] using ht.has_parent q hq (by simpa [h] using hs)
  · by_cases h : q = np
    · subst h; simp [hpar0] at hr
    · have hr' : (s.proc q).parent = some r := by simpa [h] using hr
      have hrn : r ≠ np := by rintro rfl; exact ht.not_parent hna q hr'
      simpa [hrn] using ht.parent_active q r hr'
  · by_cases h : q = np
    · subst h; simp [hpar0] at hr
    · have hr' : (s.proc q).parent = some r := by simpa [h] using hr
      have hrn : r ≠ np := by rintro rfl; exact ht.not_parent hna q hr'
      simpa [h, hrn] using ht.parent_serial q r hr'
  · by_cases h : q = np
    · subst h; simpa using hnext.le
    · simpa [h] using ht.serial_pos q (by simpa [h] using hq)
  · by_cases h : q = np
    · subst h
      simp only [Function.update_self]
      exact Nat.lt_succ_self _
    · have := ht.serial_lt q (by simpa [h] using hq)
      have : (s.proc q).serial < s.nextserial + 1 := by omega
      simpa [h] using this
  · -- the new serial is above every old one
    by_cases h : q = np <;> by_cases h' : q' = np
    · rw [h, h']
    · subst h; have := ht.serial_lt q' (by simpa [h'] using hq'); simp [h'] at e; omega
    · subst h'; have := ht.serial_lt q (by simpa [h] using hq); simp [h] at e; omega
    · exact ht.serial_inj q q' (by simpa [h] using hq) (by simpa [h'] using hq')
        (by simpa [h, h'] using e)
  · -- the new pid is `nextpid`, the new serial as an `int`
    by_cases h : q = np
    · subst h; simpa using ht.nextpid_serial
    · simpa [h] using ht.pid_serial q (by simpa [h] using hq)
  · show s.nextpid + 1 = Int32.ofNat (s.nextserial + 1)
    rw [ht.nextpid_serial, Int32.ofNat_add]
    rfl
  · have := ht.reaped_lt n hn; simp; omega
  · by_cases h : q = np
    · subst h; have := ht.reaped_lt n hn; simp; omega
    · simpa [h] using ht.reaped_dead n hn q (by simpa [h] using hq)
  · by_cases h : q = np
    · subst h; simp at hq
    · simpa [h] using ht.zombie_exited q (by simpa [h] using hq)

theorem set_apply_eq {α : Type} (f : Proc → α) (h : f x = f (s.proc q)) (r : Fin NPROC) :
    f ((s.set q x).proc r) = f (s.proc r) := by
  by_cases hr : r = q
  · subst hr; simpa using h
  · simp [hr]

theorem set_alike (hx : x.Alike (s.proc q)) (r : Fin NPROC) :
    ((s.set q x).proc r).Alike (s.proc r) := by
  by_cases hr : r = q
  · subst hr; simpa using hx
  · simpa [hr] using Proc.Alike.refl (s.proc r)

/-- `np->parent = p`: a `USED` child adopted by a process with a thread and a smaller serial. -/
theorem TreeInv.adopt {np : Fin NPROC} (ht : s.TreeInv) (hnp : (s.proc np).state = .used)
    (hp : (s.proc p).state.active) (hser : (s.proc p).serial < (s.proc np).serial) :
    (s.set np { s.proc np with parent := some p }).TreeInv := by
  have hna : ¬ (s.proc np).state.active := by simp [hnp]
  have hinit := ht.init_ne hna
  have hpn : p ≠ np := by rintro rfl; exact hna hp
  have hser' := set_apply_eq (s := s) (q := np) (x := { s.proc np with parent := some p })
    Proc.serial rfl
  refine ht.congr_parents (set_alike ⟨Iff.rfl, ⟨rfl, rfl⟩, rfl, rfl⟩) ⟨?_, ?_⟩ (fun q hq => ?_)
    (fun q hq hs => ?_) (fun q r hr => ?_) (fun q hq => ?_) rfl rfl rfl
  · simpa [Ne.symm hinit] using ht.init_active
  · simpa [Ne.symm hinit] using ht.init_parent
  · by_cases h : q = np
    · subst h; simp [hnp] at hq
    · simpa [h] using (ht.unused_clear q (by simpa [h] using hq)).2.1
  · by_cases h : q = np
    · subst h; simp [hnp] at hs
    · simpa [h] using ht.has_parent q hq (by simpa [h] using hs)
  · rw [hser', hser']
    by_cases h : q = np
    · subst h; simp at hr; subst hr
      rw [set_proc, Function.update_of_ne hpn]
      exact ⟨hp, hser⟩
    · have hr' : (s.proc q).parent = some r := by simpa [h] using hr
      have hrn : r ≠ np := by rintro rfl; exact ht.not_parent hna q hr'
      rw [set_proc, Function.update_of_ne hrn]
      exact ⟨ht.parent_active q r hr', ht.parent_serial q r hr'⟩
  · by_cases h : q = np
    · subst h; simp [hnp] at hq
    · simpa [h] using ht.zombie_exited q (by simpa [h] using hq)

/-- `np->state = RUNNABLE` for a `USED` child with a parent. -/
theorem TreeInv.release {np : Fin NPROC} (ht : s.TreeInv) (hnp : (s.proc np).state = .used)
    (hpar : (s.proc np).parent ≠ none) :
    (s.set np { s.proc np with state := .runnable }).TreeInv := by
  have hna : ¬ (s.proc np).state.active := by simp [hnp]
  have hinit := ht.init_ne hna
  have hser' := set_apply_eq (s := s) (q := np) (x := { s.proc np with state := .runnable })
    Proc.serial rfl
  have hpar' := set_apply_eq (s := s) (q := np) (x := { s.proc np with state := .runnable })
    Proc.parent rfl
  refine ht.congr_parents (set_alike ⟨by simp [hnp], ⟨rfl, rfl⟩, rfl, rfl⟩) ⟨?_, ?_⟩ (fun q hq => ?_)
    (fun q hq hs => ?_) (fun q r hr => ?_) (fun q hq => ?_) rfl rfl rfl
  · simpa [Ne.symm hinit] using ht.init_active
  · simpa [Ne.symm hinit] using ht.init_parent
  · by_cases h : q = np
    · subst h; simp at hq
    · simpa [h] using (ht.unused_clear q (by simpa [h] using hq)).2.1
  · by_cases h : q = np
    · subst h; simpa using hpar
    · simpa [h] using ht.has_parent q hq (by simpa [h] using hs)
  · -- `np`, without a thread before, is no one's parent
    rw [hpar'] at hr
    have hrn : r ≠ np := by rintro rfl; exact ht.not_parent hna q hr
    rw [hser', hser', set_proc, Function.update_of_ne hrn]
    exact ⟨ht.parent_active q r hr, ht.parent_serial q r hr⟩
  · by_cases h : q = np
    · subst h; simp at hq
    · simpa [h] using ht.zombie_exited q (by simpa [h] using hq)

/-- `reparent(p)`: the children of `p` go to `initproc`, whose serial `1` is below theirs. -/
theorem TreeInv.reparent (ht : s.TreeInv) : (s.reparent p).TreeInv := by
  refine ht.congr_parents (fun r => by simpa using ⟨Iff.rfl, ⟨rfl, rfl⟩, rfl, rfl⟩)
    ⟨by simpa using ht.init_active, by simp [ht.init_parent]⟩ (fun q hq => ?_) (fun q hq hs => ?_)
    (fun q r hr => ?_) (fun q hq => by simpa using ht.zombie_exited q (by simpa using hq)) rfl rfl
    rfl
  · simp [(ht.unused_clear q (by simpa using hq)).2.1]
  · have := ht.has_parent q hq (by simpa using hs)
    simp only [reparent_proc]
    split <;> simp [this]
  · simp only [reparent_proc] at hr ⊢
    split at hr
    · -- a child of `p`, now of `initproc`
      next hqp =>
      cases hr
      have hq : (s.proc q).state ≠ .unused := fun h => by
        simp [(ht.unused_clear q h).2.1] at hqp
      have hqi : q ≠ initproc := by rintro rfl; simp [ht.init_parent] at hqp
      have h1 := ht.serial_pos q hq
      have h2 : (s.proc q).serial ≠ 1 := fun e =>
        hqi (ht.serial_inj q initproc hq (fun h => by simpa [h] using ht.init_active)
          (e.trans ht.init_serial.symm))
      refine ⟨ht.init_active, ?_⟩
      rw [ht.init_serial]
      omega
    · exact ⟨ht.parent_active q r hr, ht.parent_serial q r hr⟩

/-- `exit`'s `p->xstate = status; p->state = ZOMBIE` for a process other than `initproc`
with a thread and no child, recorded in `exited`. -/
theorem TreeInv.die (ht : s.TreeInv) (hp : (s.proc p).state.active) (hpi : p ≠ initproc)
    (hkids : ∀ q, (s.proc q).parent ≠ some p) (status : Int) :
    { s.set p { s.proc p with xstate := status, state := .zombie } with
      exited := s.exited ++ [((s.proc p).serial, status)] }.TreeInv := by
  have hpu : (s.proc p).state ≠ .unused := fun h => by simp [h] at hp
  have hpar' := set_apply_eq (s := s) (q := p)
    (x := { s.proc p with xstate := status, state := .zombie }) Proc.parent rfl
  have hser' := set_apply_eq (s := s) (q := p)
    (x := { s.proc p with xstate := status, state := .zombie }) Proc.serial rfl
  refine ht.congr_parents (set_alike ⟨by simp [hpu], ⟨rfl, rfl⟩, rfl, rfl⟩) ⟨?_, ?_⟩ (fun q hq => ?_)
    (fun q hq hs => ?_) (fun q r hr => ?_) (fun q hq => ?_) rfl rfl rfl
  · simpa [Ne.symm hpi] using ht.init_active
  · simpa [Ne.symm hpi] using ht.init_parent
  · by_cases h : q = p
    · subst h; simp at hq
    · simpa [h] using (ht.unused_clear q (by simpa [h] using hq)).2.1
  · by_cases h : q = p
    · subst h; simpa using ht.has_parent q hq (ProcState.started_of_active hp)
    · simpa [h] using ht.has_parent q hq (by simpa [h] using hs)
  · -- `p` is no one's parent
    simp only [hpar'] at hr
    have hrp : r ≠ p := by rintro rfl; exact hkids q hr
    simp only [hser']
    rw [set_proc, Function.update_of_ne hrp]
    exact ⟨ht.parent_active q r hr, ht.parent_serial q r hr⟩
  · by_cases h : q = p
    · subst h; simp
    · exact List.mem_append_left _ (by simpa [h] using ht.zombie_exited q (by simpa [h] using hq))

/-- `freeproc` of a zombie, its serial recorded in `reaped`. -/
theorem TreeInv.free (ht : s.TreeInv) (hq : (s.proc q).state = .zombie) :
    { s.set q (freeproc (s.proc q)) with reaped := s.reaped ++ [(s.proc q).serial] }.TreeInv := by
  have hna : ¬ (s.proc q).state.active := by simp [hq]
  have hinit := ht.init_ne hna
  have hqu : (s.proc q).state ≠ .unused := by simp [hq]
  -- what stays live is what was live but `q`
  have hlive : ∀ r, ((s.set q (freeproc (s.proc q))).proc r).state ≠ .unused →
      r ≠ q ∧ (s.set q (freeproc (s.proc q))).proc r = s.proc r := fun r h => by
    by_cases hr : r = q
    · subst hr; simp [freeproc] at h
    · exact ⟨hr, by simp [hr]⟩
  refine ⟨fun r hr => ?_, ?_, ?_, ?_, fun r hr hs => ?_, fun r r' hr => ?_, fun r r' hr => ?_,
    fun r hr => ?_, fun r hr => ?_, fun r r' hr hr' e => ?_, fun r hr => ?_, ht.nextpid_serial, ?_,
    fun n hn => ?_, fun n hn r hr => ?_, fun r hr => ?_⟩
  all_goals simp only at *
  · by_cases h : r = q
    · subst h; simp [freeproc]
    · simpa [h] using ht.unused_clear r (by simpa [h] using hr)
  · simpa [Ne.symm hinit] using ht.init_active
  · simpa [Ne.symm hinit] using ht.init_serial
  · simpa [Ne.symm hinit] using ht.init_parent
  · by_cases h : r = q
    · subst h; simp [freeproc] at hs
    · simpa [h] using ht.has_parent r hr (by simpa [h] using hs)
  · by_cases h : r = q
    · subst h; simp [freeproc] at hr
    · have hr2 : (s.proc r).parent = some r' := by simpa [h] using hr
      have hr'q : r' ≠ q := by rintro rfl; exact ht.not_parent hna r hr2
      simpa [hr'q] using ht.parent_active r r' hr2
  · by_cases h : r = q
    · subst h; simp [freeproc] at hr
    · have hr2 : (s.proc r).parent = some r' := by simpa [h] using hr
      have hr'q : r' ≠ q := by rintro rfl; exact ht.not_parent hna r hr2
      simpa [h, hr'q] using ht.parent_serial r r' hr2
  · obtain ⟨h, e⟩ := hlive r hr
    rw [e] at hr ⊢; exact ht.serial_pos r hr
  · obtain ⟨h, e⟩ := hlive r hr
    rw [e] at hr ⊢; exact ht.serial_lt r hr
  · obtain ⟨-, e1⟩ := hlive r hr
    obtain ⟨-, e2⟩ := hlive r' hr'
    rw [e1] at hr e; rw [e2] at hr' e
    exact ht.serial_inj r r' hr hr' e
  · obtain ⟨h, e⟩ := hlive r hr
    rw [e] at hr ⊢; exact ht.pid_serial r hr
  · -- the zombie's serial was reaped by no one before
    exact List.nodup_append.2 ⟨ht.reaped_nodup, List.nodup_singleton _,
      fun a ha b hb => by simp at hb; subst hb; exact fun e => ht.reaped_dead a ha q hqu e.symm⟩
  · rcases List.mem_append.1 hn with hn | hn
    · exact ht.reaped_lt n hn
    · simp at hn; subst hn; exact ht.serial_lt q hqu
  · obtain ⟨hrq, e⟩ := hlive r hr
    rw [e] at hr ⊢
    rcases List.mem_append.1 hn with hn | hn
    · exact ht.reaped_dead n hn r hr
    · simp at hn; subst hn
      exact fun e' => hrq (ht.serial_inj r q hr hqu e')
  · by_cases h : r = q
    · subst h; simp [freeproc] at hr
    · simpa [h] using ht.zombie_exited r (by simpa [h] using hr)

/-! ## The children `fork` sets up -/

theorem ForkTree.setCpu (hf : s.ForkTree) (c : Fin NCPU) (o : Option (Fin NPROC)) :
    (s.setCpu c o).ForkTree :=
  ⟨hf.fork_child, hf.fork_parent⟩

/-- One slot changed in its parent, pid or thread but inside `fork` neither as the child
nor as the process setting it up. -/
theorem ForkTree.set_other (hf : s.ForkTree) (hq : (s.proc q).kpc.child = none)
    (hx : x.kpc.child = none) (hfree : ∀ r, (s.proc r).kpc.child ≠ some q) : (s.set q x).ForkTree := by
  have old : ∀ r np, ((s.set q x).proc r).kpc.child = some np →
      r ≠ q ∧ np ≠ q ∧ (s.set q x).proc r = s.proc r := by
    intro r np h
    have hr : r ≠ q := by rintro rfl; simp [hx] at h
    have e : (s.set q x).proc r = s.proc r := by simp [hr]
    exact ⟨hr, by rintro rfl; exact hfree r (e ▸ h), e⟩
  refine ⟨fun r np h => ?_, fun r np h => ?_⟩
  · obtain ⟨-, hn, e⟩ := old r np (by rw [h]; rfl)
    rw [e] at h ⊢
    simpa [hn] using hf.fork_child r np h
  · obtain ⟨-, hn, e⟩ := old r np (by rw [h]; rfl)
    rw [e] at h
    simpa [hn] using hf.fork_parent r np h

theorem ForkTree.set (hf : s.ForkTree) (hpar : x.parent = (s.proc q).parent)
    (hser : x.serial = (s.proc q).serial) (hk : x.kpc.child = none ∨ x.kpc = (s.proc q).kpc) :
    (s.set q x).ForkTree := by
  refine hf.congr (set_apply_eq Proc.parent hpar) (set_apply_eq Proc.serial hser) fun r => ?_
  by_cases hr : r = q
  · subst hr; simpa using hk
  · simp [hr]

theorem ForkTree.start {np : Fin NPROC} (hf : s.ForkTree) (hnp : (s.proc np).parent = none)
    (hser : (s.proc p).serial < (s.proc np).serial) :
    (s.set p { s.proc p with kpc := .forkParent np }).ForkTree := by
  have hpar' := set_apply_eq (s := s) (q := p) (x := { s.proc p with kpc := .forkParent np })
    Proc.parent rfl
  have hser' := set_apply_eq (s := s) (q := p) (x := { s.proc p with kpc := .forkParent np })
    Proc.serial rfl
  refine ⟨fun r np' h => ?_, fun r np' h => ?_⟩
  · rw [hpar', hser', hser']
    by_cases hr : r = p
    · subst hr; simp at h; subst h; exact ⟨hnp, hser⟩
    · exact hf.fork_child r np' (by simpa [hr] using h)
  · rw [hpar']
    by_cases hr : r = p
    · subst hr; simp at h
    · exact hf.fork_parent r np' (by simpa [hr] using h)

/-- `np->parent = p` in `fork`, for the child `np` that `p` alone sets up and that has no
thread of its own. -/
theorem ForkTree.adopt {np : Fin NPROC} (hf : s.ForkTree) (hk : (s.proc p).kpc = .forkParent np)
    (hnk : (s.proc np).kpc.child = none) (hown : ∀ r, (s.proc r).kpc.child = some np → r = p) :
    (s.forkParent p np).ForkTree := by
  have hpn : p ≠ np := by rintro rfl; simp [hk] at hnk
  have hpar : ∀ t, t ≠ np → ((s.forkParent p np).proc t).parent = (s.proc t).parent := by
    intro t ht; by_cases htp : t = p
    · subst htp; simp [forkParent, ht]
    · simp [forkParent, ht, htp]
  have hser : ∀ t, ((s.forkParent p np).proc t).serial = (s.proc t).serial := by
    intro t; by_cases htp : t = p
    · subst htp; simp [forkParent, hpn]
    · by_cases ht : t = np
      · subst ht; simp [forkParent, htp]
      · simp [forkParent, ht, htp]
  have hkpc : ∀ t, t ≠ p → ((s.forkParent p np).proc t).kpc = (s.proc t).kpc := by
    intro t htp; by_cases ht : t = np
    · subst ht; simp [forkParent, htp]
    · simp [forkParent, ht, htp]
  have other : ∀ r np', r ≠ p → (s.proc r).kpc.child = some np' → np' ≠ np := fun r np' hr h => by
    rintro rfl; exact hr (hown r h)
  refine ⟨fun r np' h => ?_, fun r np' h => ?_⟩
  · have hr : r ≠ p := by rintro rfl; simp [forkParent] at h
    rw [hkpc r hr] at h
    rw [hpar np' (other r np' hr (by simp [h])), hser, hser]
    exact hf.fork_child r np' h
  · by_cases hr : r = p
    · subst hr; simp [forkParent] at h; subst h; simp [forkParent, Ne.symm hpn]
    · rw [hkpc r hr] at h
      rw [hpar np' (other r np' hr (by simp [h]))]
      exact hf.fork_parent r np' h

theorem ForkTree.reparent (hf : s.ForkTree) (hp : ∀ np, (s.proc p).kpc ≠ .forkRun np) :
    (s.reparent p).ForkTree := by
  refine ⟨fun r np h => ?_, fun r np h => ?_⟩
  · have := hf.fork_child r np (by simpa using h)
    simp [this]
  · have := hf.fork_parent r np (by simpa using h)
    have hrp : r ≠ p := by rintro rfl; exact hp np (by simpa using h)
    simp [this, hrp]

/-! ## Each step -/

theorem SchedInv.unused_free (hs : s.SchedInv) (hq : (s.proc q).state = .unused) :
    (s.proc q).kpc.child = none ∧ ∀ r, (s.proc r).kpc.child ≠ some q := by
  have hk : (s.proc q).kpc = .idle := by
    by_contra h; simpa [hq] using hs.forkInv.kpc_active q h
  exact ⟨by simp [hk], fun r h => by simpa [hq] using hs.forkInv.child_used r q h⟩

/-- `freeproc` of an `UNUSED` slot changes nothing the tree reads. -/
theorem TreeInv.freeproc_alike (ht : s.TreeInv) (hq : (s.proc q).state = .unused) :
    (freeproc (s.proc q)).TreeAlike (s.proc q) := by
  obtain ⟨h0, hpar0, htf0, hpt0⟩ := ht.unused_clear q hq
  exact ⟨⟨by simp [freeproc, hq], by simp [freeproc, h0], by simp [freeproc, htf0],
    by simp [freeproc, hpt0]⟩, by simp [freeproc, hpar0], .inl (by simp [freeproc, hq]),
    by simp [freeproc]⟩

section Step

variable (hs : s.SchedInv) (ht : s.TreeInv) (hf : s.ForkTree)
include hs ht hf

theorem tree_fork (hp : s.cpu c = some p) (tf pt : Option Nat) (copyOk : Bool) :
    (s.fork p tf pt copyOk).TreeInv ∧ (s.fork p tf pt copyOk).ForkTree := by
  have hrun := hs.cpuInv.cpu_running c p hp
  have hb : { s with nextpid := s.nextpid + 1, nextserial := s.nextserial + 1 }.ForkTree :=
    ⟨hf.fork_child, hf.fork_parent⟩
  rcases s.fork_cases p tf pt copyOk with
    ⟨heq, -⟩ | ⟨np, hnp, heq | heq | ⟨a, b, rfl, rfl, -, heq⟩⟩ <;> rw [heq]
  · exact ⟨ht, hf⟩
  all_goals
    obtain ⟨hnk, hfree⟩ := hs.unused_free hnp
  · -- `allocproc` failed: the slot is free again, under the next pid
    exact ⟨ht.bump.set (ht.freeproc_alike hnp), hb.set_other hnk (by simpa [freeproc] using hnk) hfree⟩
  · -- `uvmcopy` failed
    exact ⟨ht.bump.set (ht.freeproc_alike hnp), hb.set_other hnk (by simp) hfree⟩
  · -- the child `np` is taken, and `p` goes on to set it up
    have hne : p ≠ np := by rintro rfl; simp [hrun] at hnp
    have hlt := ht.serial_lt p (by simp [hrun])
    refine ⟨(ht.alloc hnp).set (.of_state (.inl rfl) ⟨rfl, rfl⟩ rfl rfl rfl rfl), ?_⟩
    refine (hb.set_other hnk (by simp) hfree).start (by simp [(ht.unused_clear np hnp).2.1]) ?_
    simpa [hne] using hlt

/-- `np->parent = p` in `fork`. -/
theorem tree_forkParent {np : Fin NPROC} (hp : s.cpu c = some p)
    (hk : (s.proc p).kpc = .forkParent np) :
    (s.forkParent p np).TreeInv ∧ (s.forkParent p np).ForkTree := by
  have hrun := hs.cpuInv.cpu_running c p hp
  have hnp : (s.proc np).state = .used := hs.forkInv.child_used p np (by simp [hk])
  have hnk : (s.proc np).kpc.child = none := by
    have : (s.proc np).kpc = .idle := by
      by_contra h; simpa [hnp] using hs.forkInv.kpc_active np h
    simp [this]
  refine ⟨?_, hf.adopt hk hnk fun r h => hs.forkInv.child_unique r p np h (by simp [hk])⟩
  exact (ht.adopt hnp (by simp [hrun]) (hf.fork_child p np hk).2).set
    (.of_state (.inl rfl) ⟨rfl, rfl⟩ rfl rfl rfl rfl)

/-- `np->state = RUNNABLE` in `fork`. -/
theorem tree_forkRun {np : Fin NPROC} (hk : (s.proc p).kpc = .forkRun np) :
    (s.forkRun p np).TreeInv ∧ (s.forkRun p np).ForkTree := by
  have hnp : (s.proc np).state = .used := hs.forkInv.child_used p np (by simp [hk])
  have hpar := hf.fork_parent p np hk
  have hf1 := hf.set (q := np) (x := { s.proc np with state := .runnable }) rfl rfl (.inr rfl)
  exact ⟨(ht.release hnp (by simp [hpar])).set (.of_state (.inl rfl) ⟨rfl, rfl⟩ rfl rfl rfl rfl),
    hf1.set rfl rfl (.inl rfl)⟩

theorem tree_exit (hp : s.cpu c = some p) (hk : (s.proc p).kpc = .idle) (hpi : p ≠ initproc)
    (status : Int) : (s.exit c p status).TreeInv ∧ (s.exit c p status).ForkTree := by
  have hrun := hs.cpuInv.cpu_running c p hp
  -- after `reparent(p)`, `p` has no child
  have hkids : ∀ q, ((s.reparent p).proc q).parent ≠ some p := by
    intro q
    simp only [reparent_proc]
    split
    · simpa using Ne.symm hpi
    · assumption
  have h1 := ht.reparent.die (p := p) (by simp [hrun]) hpi hkids status
  refine ⟨h1.congr (fun _ => Proc.TreeAlike.refl _) rfl rfl rfl (by simp [exit]), ?_⟩
  have hfree : ∀ r, ((s.reparent p).proc r).kpc.child ≠ some p := fun r h => by
    simpa [hrun] using hs.forkInv.child_used r p (by simpa using h)
  have h2 := (hf.reparent (p := p) (by simp [hk])).set_other
    (x := { (s.reparent p).proc p with xstate := status, state := .zombie })
    (by simp [hk]) (by simp [hk]) hfree
  exact ⟨(h2.setCpu c none).fork_child, (h2.setCpu c none).fork_parent⟩

theorem tree_waitScan (addr : Nat) (hp : s.cpu c = some p) (copyOk : Bool) :
    (s.waitScan c p addr copyOk).1.TreeInv ∧ (s.waitScan c p addr copyOk).1.ForkTree := by
  have hrun := hs.cpuInv.cpu_running c p hp
  have hdone : ∀ t : Ptable, t.TreeInv → t.ForkTree →
      (t.set p { t.proc p with kpc := .idle }).TreeInv ∧
        (t.set p { t.proc p with kpc := .idle }).ForkTree :=
    fun t ht hf => ⟨ht.set (.of_state (.inl rfl) ⟨rfl, rfl⟩ rfl rfl rfl rfl), hf.set rfl rfl (.inl rfl)⟩
  rcases s.waitScan_cases c p addr copyOk with
    ⟨q, -, -, -, heq⟩ | ⟨q, hz, -, heq⟩ | ⟨-, -, heq⟩ | ⟨-, -, -, heq⟩ <;> rw [heq]
  · exact hdone s ht hf
  · -- the zombie child is freed, then `p` leaves
    have hq := (s.zombieChild_some p hz).2
    have hqk : (s.proc q).kpc = .idle := by
      by_contra h; simpa [hq] using hs.forkInv.kpc_active q h
    have hfree : ∀ r, (s.proc r).kpc.child ≠ some q := fun r h => by
      simpa [hq] using hs.forkInv.child_used r q h
    have h1 := ht.free hq
    have h2 := hf.set_other (x := freeproc (s.proc q)) (by simp [hqk]) (by simp [freeproc, hqk]) hfree
    have h3 : ((s.set q (freeproc (s.proc q))).set p
        { (s.set q (freeproc (s.proc q))).proc p with kpc := .idle }).ForkTree :=
      h2.set rfl rfl (.inl rfl)
    exact ⟨h1.set (.of_state (.inl rfl) ⟨rfl, rfl⟩ rfl rfl rfl rfl), h3.fork_child, h3.fork_parent⟩
  · exact hdone s ht hf
  · -- `p` sleeps on itself
    refine ⟨TreeInv.setCpu ?_ c none, ForkTree.setCpu ?_ c none⟩
    · exact ht.set (.of_state (.inr ⟨by simp [hrun], by simp⟩) ⟨rfl, rfl⟩ rfl rfl rfl rfl)
    · exact hf.set rfl rfl (.inr rfl)

end Step

/-- All the invariants of the process table. -/
structure ProcInv (s : Ptable) : Prop where
  sched : s.SchedInv
  tree : s.TreeInv
  forkTree : s.ForkTree

theorem ProcInv.step {a : PAct} {s' : Ptable} (hi : s.ProcInv) (h : s.step a = some (.ok s')) :
    s'.ProcInv := by
  obtain ⟨hs, ht, hf⟩ := hi
  suffices h' : s'.TreeInv ∧ s'.ForkTree from ⟨hs.step h, h'.1, h'.2⟩
  -- a slot whose state changes between two with a thread, the rest kept
  have keep : ∀ {t : Ptable} {q : Fin NPROC} {x : Proc}, t.TreeInv → t.ForkTree →
      (x.state = (t.proc q).state ∨ (t.proc q).state.active ∧ x.state.active) →
      (x.pid = (t.proc q).pid ∧ x.serial = (t.proc q).serial) → x.parent = (t.proc q).parent →
      x.trapframe = (t.proc q).trapframe → x.pagetable = (t.proc q).pagetable →
      x.xstate = (t.proc q).xstate → (x.kpc.child = none ∨ x.kpc = (t.proc q).kpc) →
      (t.set q x).TreeInv ∧ (t.set q x).ForkTree :=
    fun ht hf hst hpid hpar htf hpt hxs hk =>
      ⟨ht.set (.of_state hst hpid hpar htf hpt hxs), hf.set hpar hpid.2 hk⟩
  cases a with
  | sched c q =>
    obtain ⟨-, hq, rfl⟩ := step_sched h
    obtain ⟨h1, h2⟩ := keep (q := q) (x := { s.proc q with state := .running, chan := none }) ht hf
      (.inr ⟨by simp [hq], by simp⟩) ⟨rfl, rfl⟩ rfl rfl rfl rfl (.inr rfl)
    exact ⟨h1.setCpu c (some q), h2.setCpu c (some q)⟩
  | yield c =>
    obtain ⟨p, hp, rfl⟩ := step_yield h
    have hrun := hs.cpuInv.cpu_running c p hp
    obtain ⟨h1, h2⟩ := keep (q := p) (x := { s.proc p with state := .runnable }) ht hf
      (.inr ⟨by simp [hrun], by simp⟩) ⟨rfl, rfl⟩ rfl rfl rfl rfl (.inr rfl)
    exact ⟨h1.setCpu c none, h2.setCpu c none⟩
  | sleep c addr =>
    obtain ⟨p, hp, -, rfl⟩ := step_sleep h
    have hrun := hs.cpuInv.cpu_running c p hp
    obtain ⟨h1, h2⟩ := keep (q := p)
      (x := { s.proc p with chan := some (.other addr), state := .sleeping }) ht hf
      (.inr ⟨by simp [hrun], by simp⟩) ⟨rfl, rfl⟩ rfl rfl rfl rfl (.inr rfl)
    exact ⟨h1.setCpu c none, h2.setCpu c none⟩
  | wakeup chan q =>
    obtain ⟨hq, -, rfl⟩ := step_wakeup h
    exact keep ht hf (.inr ⟨by simp [hq], by simp⟩) ⟨rfl, rfl⟩ rfl rfl rfl rfl (.inr rfl)
  | kill pid q =>
    obtain ⟨-, rfl⟩ := step_kill h
    by_cases hq : (s.proc q).state = .sleeping
    · exact keep ht hf (.inr ⟨by simp [hq], by simp [hq]⟩) ⟨rfl, rfl⟩ rfl rfl rfl rfl (.inr rfl)
    · exact keep ht hf (.inl (by simp [hq])) ⟨rfl, rfl⟩ rfl rfl rfl rfl (.inr rfl)
  | fork c tf pt copyOk =>
    obtain ⟨p, hp, -, rfl⟩ := step_fork h
    exact tree_fork hs ht hf hp tf pt copyOk
  | forkParent c =>
    obtain ⟨p, np, hp, hk, rfl⟩ := step_forkParent h
    exact tree_forkParent hs ht hf hp hk
  | forkRun c =>
    obtain ⟨p, np, -, hk, rfl⟩ := step_forkRun h
    exact tree_forkRun hs ht hf hk
  | exit c status =>
    obtain ⟨p, hp, hk, hpi, rfl⟩ := step_exit h
    exact tree_exit hs ht hf hp hk hpi status
  | wait c addr =>
    obtain ⟨p, -, -, rfl⟩ := step_wait h
    exact keep ht hf (.inl rfl) ⟨rfl, rfl⟩ rfl rfl rfl rfl (.inl rfl)
  | waitScan c copyOk =>
    obtain ⟨p, addr, hp, -, rfl⟩ := step_waitScan h
    exact tree_waitScan hs ht hf addr hp copyOk

theorem ProcInv.init (tf pt : Nat) : (Ptable.init tf pt).ProcInv := by
  have hlive : ∀ q, ((Ptable.init tf pt).proc q).state ≠ .unused → q = initproc := by
    intro q h; by_contra hne; simp [init_proc, hne, Proc.zero] at h
  have hpar : ∀ q, ((Ptable.init tf pt).proc q).parent = none := by
    intro q; rw [init_proc]; split <;> rfl
  have hkpc : ∀ q, ((Ptable.init tf pt).proc q).kpc = .idle := by
    intro q; rw [init_proc]; split <;> rfl
  have hnext : (Ptable.init tf pt).nextserial = 2 := rfl
  have hreaped : (Ptable.init tf pt).reaped = [] := rfl
  refine ⟨SchedInv.init tf pt, ⟨fun q h => ?_, by simp [init_proc], by simp [init_proc], hpar _,
    fun q hq hs => absurd (hlive q fun h => by simp [h] at hs) hq, fun q r h => by simp [hpar] at h,
    fun q r h => by simp [hpar] at h, fun q h => ?_, fun q h => ?_,
    fun q q' h h' _ => (hlive q h).trans (hlive q' h').symm, fun q h => ?_, rfl,
    by simp [hreaped], by simp [hreaped], by simp [hreaped], fun q h => ?_⟩,
    ⟨fun p np h => by simp [hkpc] at h, fun p np h => by simp [hkpc] at h⟩⟩
  · by_cases hq : q = initproc
    · subst hq; simp [init_proc] at h
    · simp [init_proc, hq, Proc.zero]
  · rw [hlive q h]; simp [init_proc]
  · rw [hlive q h, hnext]; simp [init_proc]
  · rw [hlive q h]; simp [init_proc]
  · have := hlive q (by simp [h]); subst this; simp [init_proc] at h

theorem ProcInv.reachable (h : s.Reachable) : s.ProcInv :=
  Reachable.inv ProcInv ProcInv.init (fun _ _ _ hi hs => hi.step hs) h

/-! ## Parent chains -/

/-- Following parent pointers from `q` reaches `initproc`. -/
inductive ReachesInit (s : Ptable) : Fin NPROC → Prop
  | init : ReachesInit s initproc
  | parent {q r : Fin NPROC} : (s.proc q).parent = some r → ReachesInit s r → ReachesInit s q

/-- The chain from a process past `fork`'s setup ends at `initproc`: serials fall along it. -/
theorem TreeInv.reachesInit (ht : s.TreeInv) (hq : (s.proc q).state.started) : ReachesInit s q := by
  suffices ∀ n, ∀ q, (s.proc q).serial = n → (s.proc q).state.started → ReachesInit s q from
    this _ q rfl hq
  intro n
  induction n using Nat.strong_induction_on with
  | _ n ih =>
    intro q hn hq
    by_cases hi : q = initproc
    · subst hi; exact .init
    · -- the parent has a thread and a smaller serial
      obtain ⟨r, hr⟩ := Option.ne_none_iff_exists'.1 (ht.has_parent q hi hq)
      have hact := ht.parent_active q r hr
      have hlt := ht.parent_serial q r hr
      exact .parent hr (ih _ (hn ▸ hlt) r rfl (ProcState.started_of_active hact))

theorem TreeInv.parent_wf (ht : s.TreeInv) : WellFounded (fun r q => (s.proc q).parent = some r) :=
  Subrelation.wf (fun {r q} h => ht.parent_serial q r h) (measure fun q => (s.proc q).serial).wf

/-! ## `wait` -/

/-- What a scan of `wait(addr)` by `p` from the table `s` may end in: `-1`, with no slot's
state changed, when `p` has no child, is killed, or cannot be given a zombie child's
status; the pid of a zombie child, never reaped before and now `UNUSED`, with the status
its `exit` recorded written at `addr`; or asleep on itself, with children, none a zombie. -/
def WaitSpec (s : Ptable) (p : Fin NPROC) (addr : Nat) (copyOk : Bool) : Ptable × WaitEnd → Prop
  | (t, .ret r w) =>
    (r = -1 ∧ w = none ∧ (∀ q, (t.proc q).state = (s.proc q).state) ∧
      ((∀ q, (s.proc q).parent ≠ some p) ∨ (s.proc p).killed = true ∨
        ∃ q, (s.proc q).parent = some p ∧ (s.proc q).state = .zombie ∧ addr ≠ 0 ∧
          copyOk = false)) ∨
    (∃ q, (s.proc q).parent = some p ∧ (s.proc q).state = .zombie ∧ r = (s.proc q).pid.toInt ∧
      (s.proc q).pid = Int32.ofNat (s.proc q).serial ∧
      ((s.proc q).serial, (s.proc q).xstate) ∈ s.exited ∧
      w = (if addr ≠ 0 then some (addr, (s.proc q).xstate) else none) ∧
      (t.proc q).state = .unused ∧ (s.proc q).serial ∉ s.reaped ∧
      t.reaped = s.reaped ++ [(s.proc q).serial])
  | (t, .sleep) =>
    (∃ q, (s.proc q).parent = some p) ∧ (s.proc p).killed = false ∧
      (∀ q, (s.proc q).parent = some p → (s.proc q).state ≠ .zombie) ∧
      (t.proc p).state = .sleeping ∧ (t.proc p).chan = some (.proc p)

theorem TreeInv.waitScan_spec (hs : s.SchedInv) (ht : s.TreeInv) (hp : s.cpu c = some p)
    (addr : Nat) (copyOk : Bool) : WaitSpec s p addr copyOk (s.waitScan c p addr copyOk) := by
  have hrun := hs.cpuInv.cpu_running c p hp
  have hdone : ∀ q, ((s.set p { s.proc p with kpc := .idle }).proc q).state = (s.proc q).state :=
    set_apply_eq Proc.state rfl
  rcases s.waitScan_cases c p addr copyOk with
    ⟨q, hz, ha, hc, heq⟩ | ⟨q, hz, -, heq⟩ | ⟨hz, hret, heq⟩ | ⟨hz, hkids, hk, heq⟩ <;> rw [heq]
  · exact .inl ⟨rfl, rfl, hdone, .inr (.inr ⟨q, (s.zombieChild_some p hz).1,
      (s.zombieChild_some p hz).2, ha, hc⟩)⟩
  · obtain ⟨hpar, hq⟩ := s.zombieChild_some p hz
    have hqu : (s.proc q).state ≠ .unused := by simp [hq]
    have hne : p ≠ q := by rintro rfl; simp [hrun] at hq
    refine .inr ⟨q, hpar, hq, rfl, ht.pid_serial q hqu, ht.zombie_exited q hq, rfl, ?_,
      fun h => ht.reaped_dead _ h q hqu rfl, rfl⟩
    simp [Ne.symm hne, freeproc]
  · refine .inl ⟨rfl, rfl, hdone, ?_⟩
    rcases hret with h | h
    · rw [← Bool.not_eq_true, havekids_eq_true] at h
      exact .inl fun q hq => h ⟨q, hq⟩
    · exact .inr (.inl h)
  · exact ⟨by simpa using hkids, hk, fun q h1 h2 => s.zombieChild_none p hz q ⟨h1, h2⟩,
      by simp [sleep], by simp [sleep]⟩

/-- In every reachable table: each process past `fork`'s setup but `initproc` has a parent
that is not `UNUSED`; following parents from any such process reaches `initproc`, and the
parent relation has no cycle; a `ZOMBIE` has no children; an `UNUSED` slot has pid `0`, no
parent, no trapframe and no page table; no process was reaped twice; and each scan of
`wait(addr)` ends as `WaitSpec` says. -/
theorem process_tree {s : Ptable} (h : s.Reachable) :
    (∀ q, q ≠ initproc → (s.proc q).state.started →
      ∃ r, (s.proc q).parent = some r ∧ (s.proc r).state ≠ .unused) ∧
    (∀ q, (s.proc q).state.started → ReachesInit s q) ∧
    WellFounded (fun r q => (s.proc q).parent = some r) ∧
    (∀ q r, (s.proc q).parent = some r → (s.proc r).state ≠ .zombie) ∧
    (∀ q, (s.proc q).state = .unused → (s.proc q).pid = 0 ∧ (s.proc q).parent = none ∧
      (s.proc q).trapframe = none ∧ (s.proc q).pagetable = none) ∧
    s.reaped.Nodup ∧
    ∀ c p addr copyOk, s.cpu c = some p → (s.proc p).kpc = .waiting addr →
      WaitSpec s p addr copyOk (s.waitScan c p addr copyOk) := by
  obtain ⟨hs, ht, -⟩ := ProcInv.reachable h
  -- a parent has a thread: it is neither `UNUSED` nor `ZOMBIE`
  have hact := ht.parent_active
  refine ⟨fun q hi hq => ?_, fun q hq => ht.reachesInit hq, ht.parent_wf, fun q r hr => ?_,
    fun q hq => ⟨(ht.unused_clear q hq).1.1, (ht.unused_clear q hq).2⟩, ht.reaped_nodup,
    fun c p addr copyOk hp _ => ht.waitScan_spec hs hp addr copyOk⟩
  · obtain ⟨r, hr⟩ := Option.ne_none_iff_exists'.1 (ht.has_parent q hi hq)
    exact ⟨r, hr, fun hu => by simpa [hu] using hact q r hr⟩
  · intro hz; simpa [hz] using hact q r hr

/-- In the run where `init` forks a child that exits and is reaped: once `init` waits, its
scan returns the child's pid and status and frees the slot, and after it the slot is clear,
`init` is still the root of the tree, and no pid was reaped twice. -/
theorem process_tree_fork_exit_wait :
    ∃ s t, Outcome.run step (init 1 2) (forkExitWait.take 7) = some (.ok s) ∧
      Outcome.run step (init 1 2) forkExitWait = some (.ok t) ∧
      WaitSpec s initproc 8 true (s.waitScan cpu0 initproc 8 true) ∧
      (t.proc slot1).state = .unused ∧ (t.proc slot1).pid = 0 ∧ (t.proc slot1).parent = none ∧
      t.ReachesInit initproc ∧ t.reaped.Nodup := by
  have h7 : Outcome.holds (fun s => (s.proc initproc).kpc == .waiting 8)
      (Outcome.run step (init 1 2) (forkExitWait.take 7)) = true := by
    decide +kernel
  have h8 : Outcome.holds (fun t => (t.proc slot1).state == .unused && (t.proc initproc).state == .running)
      (Outcome.run step (init 1 2) forkExitWait) = true := by
    decide +kernel
  obtain ⟨s, hs, hw⟩ := Outcome.exists_of_holds h7
  obtain ⟨t, ht, hu⟩ := Outcome.exists_of_holds h8
  rw [Bool.and_eq_true, beq_iff_eq, beq_iff_eq] at hu
  obtain ⟨hu, hinit⟩ := hu
  rw [beq_iff_eq] at hw
  have hcpu : s.cpu cpu0 = some initproc := by
    have hc : Outcome.holds (fun s => s.cpu cpu0 == some initproc)
        (Outcome.run step (init 1 2) (forkExitWait.take 7)) = true := by
      decide +kernel
    obtain ⟨s', hs', hc⟩ := Outcome.exists_of_holds hc
    rw [hs, Option.some.injEq, Except.ok.injEq] at hs'
    subst hs'
    exact beq_iff_eq.1 hc
  have hs_tree := process_tree ⟨1, 2, _, hs⟩
  have ht_tree := process_tree ⟨1, 2, _, ht⟩
  obtain ⟨hpid, hpar, -, -⟩ := ht_tree.2.2.2.2.1 slot1 hu
  exact ⟨s, t, hs, ht, hs_tree.2.2.2.2.2.2 cpu0 initproc 8 true hcpu hw, hu, hpid, hpar,
    ht_tree.2.1 initproc (by rw [hinit]; rfl), ht_tree.2.2.2.2.2.1⟩

/-! ## Pids -/

/-- While `allocproc` has handed out fewer than `2^31 - 1` pids, the pid of each live
process is its serial, so the live pids are positive and distinct. -/
theorem pid_pos_inj_of_lt {s : Ptable} (h : s.Reachable) (hn : s.nextserial ≤ 2 ^ 31) :
    (∀ q, (s.proc q).state ≠ .unused → 0 < (s.proc q).pid) ∧
    ∀ q q', (s.proc q).state ≠ .unused → (s.proc q').state ≠ .unused →
      (s.proc q).pid = (s.proc q').pid → q = q' := by
  have ht := (ProcInv.reachable h).tree
  have hlt : ∀ q, (s.proc q).state ≠ .unused → (s.proc q).serial < 2 ^ 31 :=
    fun q hq => Nat.lt_of_lt_of_le (ht.serial_lt q hq) hn
  refine ⟨fun q hq => ?_, fun q q' hq hq' e => ?_⟩
  · rw [ht.pid_serial q hq]
    exact Bits.int32_ofNat_pos (ht.serial_pos q hq) (hlt q hq)
  · rw [ht.pid_serial q hq, ht.pid_serial q' hq'] at e
    have := Bits.int32_ofNat_inj (by have := hlt q hq; omega) (by have := hlt q' hq'; omega) e
    exact ht.serial_inj q q' hq hq' this

end Ptable

end Xv6
