import Xv6.Proc.Basic

/-!
# Process states and CPUs

What the steps of `Ptable.step` do to `p->state` and to `c->proc`.  In every reachable
table (`CpuInv`) a CPU runs a `RUNNING` process, each `RUNNING` process runs on a CPU and
none on two, and a `SLEEPING` process has a channel.  The thread of a process inside `fork`
or `wait` belongs to a process that can run, and a child that `fork` is setting up stays
`USED` and belongs to that one `fork` (`ForkInv`).

From these, every step changes a process's state only along `Allowed`: the nine changes
that `allocproc`, `freeproc`, `fork`, `scheduler`, `yield`, `sleep`, `wakeup` (or `kill`),
`exit` and `wait` make; and a `SLEEPING` process becomes `RUNNABLE` only by a `wakeup` on
its channel or a `kill` (`proc_state_machine`).
-/

namespace Xv6

/-- The states in which a process has a kernel thread that runs again. -/
def ProcState.active : ProcState → Bool
  | .sleeping | .runnable | .running => true
  | .unused | .used | .zombie => false

@[simp] theorem ProcState.active_iff (st : ProcState) :
    st.active = true ↔ st = .sleeping ∨ st = .runnable ∨ st = .running := by
  cases st <;> simp [ProcState.active]

/-- The child a thread inside `fork` is setting up. -/
def KPc.child : KPc → Option (Fin NPROC)
  | .forkParent np | .forkRun np => some np
  | .idle | .waiting _ => none

@[simp] theorem KPc.child_idle : KPc.idle.child = none := rfl
@[simp] theorem KPc.child_waiting (addr : Nat) : (KPc.waiting addr).child = none := rfl
@[simp] theorem KPc.child_forkParent (np : Fin NPROC) : (KPc.forkParent np).child = some np := rfl
@[simp] theorem KPc.child_forkRun (np : Fin NPROC) : (KPc.forkRun np).child = some np := rfl

/-- The changes of `p->state` that `proc.c` makes, each named after the function that
makes it. -/
inductive Allowed : ProcState → ProcState → Prop
  | allocproc : Allowed .unused .used
  | freeproc : Allowed .used .unused
  | fork : Allowed .used .runnable
  | scheduler : Allowed .runnable .running
  | yield : Allowed .running .runnable
  | sleep : Allowed .running .sleeping
  | wakeup : Allowed .sleeping .runnable
  | exit : Allowed .running .zombie
  | wait : Allowed .zombie .unused

/-- A step that may wake the process `q` asleep on `chan`: a pass of `wakeup` on that
channel at `q`, or of `kill` at `q`. -/
def PAct.wakes (a : PAct) (q : Fin NPROC) (chan : Option Chan) : Prop :=
  (∃ ch, a = .wakeup ch q ∧ chan = some ch) ∨ ∃ pid, a = .kill pid q

namespace Ptable

/-- The CPUs and the states agree. -/
structure CpuInv (s : Ptable) : Prop where
  cpu_running : ∀ c q, s.cpu c = some q → (s.proc q).state = .running
  running_cpu : ∀ q, (s.proc q).state = .running → ∃ c, s.cpu c = some q
  cpu_inj : ∀ c c' q, s.cpu c = some q → s.cpu c' = some q → c = c'
  sleeping_chan : ∀ q, (s.proc q).state = .sleeping → (s.proc q).chan ≠ none

/-- Threads inside `fork` or `wait` belong to processes that can run; a child being set
up is `USED` and is set up by one `fork`. -/
structure ForkInv (s : Ptable) : Prop where
  kpc_active : ∀ q, (s.proc q).kpc ≠ .idle → (s.proc q).state.active
  child_used : ∀ p np, (s.proc p).kpc.child = some np → (s.proc np).state = .used
  child_unique : ∀ p p' np, (s.proc p).kpc.child = some np → (s.proc p').kpc.child = some np →
    p = p'

/-- Both. -/
structure SchedInv (s : Ptable) : Prop where
  cpuInv : s.CpuInv
  forkInv : s.ForkInv

variable {s : Ptable} {c : Fin NCPU} {p q : Fin NPROC} {x : Proc}

/-! ## Tables that agree on what the invariants read -/

@[simp] theorem reparent_proc (s : Ptable) (p q : Fin NPROC) :
    (s.reparent p).proc q = { s.proc q with
      parent := if (s.proc q).parent = some p then some initproc else (s.proc q).parent } := by
  simp only [reparent]
  split <;> rfl

@[simp] theorem reparent_cpu (s : Ptable) (p : Fin NPROC) : (s.reparent p).cpu = s.cpu := rfl
@[simp] theorem reparent_nextpid (s : Ptable) (p : Fin NPROC) :
    (s.reparent p).nextpid = s.nextpid := rfl
@[simp] theorem reparent_nextserial (s : Ptable) (p : Fin NPROC) :
    (s.reparent p).nextserial = s.nextserial := rfl
@[simp] theorem reparent_exited (s : Ptable) (p : Fin NPROC) :
    (s.reparent p).exited = s.exited := rfl
@[simp] theorem reparent_reaped (s : Ptable) (p : Fin NPROC) :
    (s.reparent p).reaped = s.reaped := rfl

/-- The invariants read only states, channels, threads and CPUs. -/
theorem SchedInv.congr {t : Ptable} (hi : s.SchedInv) (hcpu : t.cpu = s.cpu)
    (hproc : ∀ q, (t.proc q).state = (s.proc q).state ∧ (t.proc q).chan = (s.proc q).chan ∧
      (t.proc q).kpc = (s.proc q).kpc) : t.SchedInv where
  cpuInv :=
    { cpu_running := fun c q h => (hproc q).1 ▸ hi.cpuInv.cpu_running c q (hcpu ▸ h)
      running_cpu := fun q h => hcpu ▸ hi.cpuInv.running_cpu q ((hproc q).1 ▸ h)
      cpu_inj := fun c c' q h h' => hi.cpuInv.cpu_inj c c' q (hcpu ▸ h) (hcpu ▸ h')
      sleeping_chan := fun q h => (hproc q).2.1 ▸ hi.cpuInv.sleeping_chan q ((hproc q).1 ▸ h) }
  forkInv :=
    { kpc_active := fun q h => (hproc q).1 ▸ hi.forkInv.kpc_active q ((hproc q).2.2 ▸ h)
      child_used := fun p np h => (hproc np).1 ▸ hi.forkInv.child_used p np ((hproc p).2.2 ▸ h)
      child_unique := fun p p' np h h' =>
        hi.forkInv.child_unique p p' np ((hproc p).2.2 ▸ h) ((hproc p').2.2 ▸ h') }

/-! ## One slot changed -/

theorem CpuInv.set (hi : s.CpuInv) (hrun : x.state = .running ↔ (s.proc q).state = .running)
    (hchan : x.state = .sleeping → x.chan ≠ none) : (s.set q x).CpuInv where
  cpu_running c r h := by
    by_cases hr : r = q
    · subst hr; simpa [hrun] using hi.cpu_running c r h
    · simpa [hr] using hi.cpu_running c r h
  running_cpu r h := by
    by_cases hr : r = q
    · subst hr; exact hi.running_cpu r (hrun.1 (by simpa using h))
    · exact hi.running_cpu r (by simpa [hr] using h)
  cpu_inj := hi.cpu_inj
  sleeping_chan r h := by
    by_cases hr : r = q
    · subst hr; simpa using hchan (by simpa using h)
    · simpa [hr] using hi.sleeping_chan r (by simpa [hr] using h)

theorem ForkInv.set (hi : s.ForkInv) (hk : x.kpc.child = (s.proc q).kpc.child)
    (hused : (s.proc q).state = .used → x.state = .used)
    (hact : x.kpc ≠ .idle → x.state.active) : (s.set q x).ForkInv := by
  have hkpc : ∀ r, ((s.set q x).proc r).kpc.child = (s.proc r).kpc.child := by
    intro r
    by_cases hr : r = q
    · subst hr; simpa using hk
    · simp [hr]
  refine ⟨fun r h => ?_, fun p np h => ?_, fun p p' np h h' => ?_⟩
  · by_cases hr : r = q
    · subst hr; simpa using hact (by simpa using h)
    · simpa [hr] using hi.kpc_active r (by simpa [hr] using h)
  · rw [hkpc] at h
    by_cases hn : np = q
    · subst hn; simpa using hused (hi.child_used p np h)
    · simpa [hn] using hi.child_used p np h
  · rw [hkpc] at h h'
    exact hi.child_unique p p' np h h'

theorem CpuInv.leave (hi : s.CpuInv) (hp : s.cpu c = some p) (hx : x.state ≠ .running)
    (hchan : x.state = .sleeping → x.chan ≠ none) : ((s.set p x).setCpu c none).CpuInv where
  cpu_running c' r h := by
    have hc : c' ≠ c := by rintro rfl; simp at h
    have h' : s.cpu c' = some r := by simpa [hc] using h
    have hr : r ≠ p := by rintro rfl; exact hc (hi.cpu_inj c' c r h' hp)
    simpa [hr] using hi.cpu_running c' r h'
  running_cpu r h := by
    have hr : r ≠ p := by rintro rfl; exact hx (by simpa using h)
    obtain ⟨c', hc'⟩ := hi.running_cpu r (by simpa [hr] using h)
    have hc : c' ≠ c := by rintro rfl; exact hr (Option.some.inj (hc'.symm.trans hp))
    exact ⟨c', by simpa [hc] using hc'⟩
  cpu_inj c1 c2 r h1 h2 := by
    have h1c : c1 ≠ c := by rintro rfl; simp at h1
    have h2c : c2 ≠ c := by rintro rfl; simp at h2
    exact hi.cpu_inj c1 c2 r (by simpa [h1c] using h1) (by simpa [h2c] using h2)
  sleeping_chan r h := by
    by_cases hr : r = p
    · subst hr; simpa using hchan (by simpa using h)
    · simpa [hr] using hi.sleeping_chan r (by simpa [hr] using h)

theorem CpuInv.enter (hi : s.CpuInv) (hc : s.cpu c = none) (hq : (s.proc q).state ≠ .running)
    (hx : x.state = .running) : ((s.set q x).setCpu c (some q)).CpuInv where
  cpu_running c' r h := by
    by_cases hcc : c' = c
    · subst hcc; simp at h; subst h; simpa using hx
    · have h' : s.cpu c' = some r := by simpa [hcc] using h
      have hr : r ≠ q := by rintro rfl; exact hq (hi.cpu_running c' r h')
      simpa [hr] using hi.cpu_running c' r h'
  running_cpu r h := by
    by_cases hr : r = q
    · subst hr; exact ⟨c, by simp⟩
    · obtain ⟨c', hc'⟩ := hi.running_cpu r (by simpa [hr] using h)
      have hcc : c' ≠ c := by rintro rfl; simp [hc] at hc'
      exact ⟨c', by simpa [hcc] using hc'⟩
  cpu_inj c1 c2 r h1 h2 := by
    have other : ∀ c', c' ≠ c → ((s.set q x).setCpu c (some q)).cpu c' = some r →
        s.cpu c' = some r ∧ r ≠ q := fun c' hcc h => by
      have h' : s.cpu c' = some r := by simpa [hcc] using h
      exact ⟨h', by rintro rfl; exact hq (hi.cpu_running c' r h')⟩
    by_cases h1c : c1 = c <;> by_cases h2c : c2 = c
    · rw [h1c, h2c]
    · subst h1c; simp at h1; exact absurd h1.symm (other c2 h2c h2).2
    · subst h2c; simp at h2; exact absurd h2.symm (other c1 h1c h1).2
    · exact hi.cpu_inj c1 c2 r (other c1 h1c h1).1 (other c2 h2c h2).1
  sleeping_chan r h := by
    by_cases hr : r = q
    · subst hr; simp [hx] at h
    · simpa [hr] using hi.sleeping_chan r (by simpa [hr] using h)

theorem ForkInv.setCpu (hi : s.ForkInv) (c : Fin NCPU) (o : Option (Fin NPROC)) :
    (s.setCpu c o).ForkInv :=
  ⟨hi.kpc_active, hi.child_used, hi.child_unique⟩

theorem ForkInv.start {np : Fin NPROC} (hi : s.ForkInv) (hact : (s.proc p).state.active)
    (hnp : (s.proc np).state = .used) (hfree : ∀ r, (s.proc r).kpc.child ≠ some np) :
    (s.set p { s.proc p with kpc := .forkParent np }).ForkInv := by
  have hst : ∀ r, ((s.set p { s.proc p with kpc := .forkParent np }).proc r).state =
      (s.proc r).state := by
    intro r
    by_cases hr : r = p
    · subst hr; simp
    · simp [hr]
  refine ⟨fun r h => ?_, fun r np' h => ?_, fun r r' np' h h' => ?_⟩
  · by_cases hr : r = p
    · subst hr; simpa using hact
    · simpa [hr] using hi.kpc_active r (by simpa [hr] using h)
  · rw [hst]
    by_cases hr : r = p
    · subst hr; simp at h; exact h ▸ hnp
    · exact hi.child_used r np' (by simpa [hr] using h)
  · by_cases hr : r = p <;> by_cases hr' : r' = p
    · rw [hr, hr']
    · subst hr; simp at h; subst h; exact absurd (by simpa [hr'] using h') (hfree r')
    · subst hr'; simp at h'; subst h'; exact absurd (by simpa [hr] using h) (hfree r)
    · exact hi.child_unique r r' np' (by simpa [hr] using h) (by simpa [hr'] using h')

theorem ForkInv.finish {np : Fin NPROC} (hi : s.ForkInv) (hk : (s.proc p).kpc = .forkRun np) :
    (s.forkRun p np).ForkInv := by
  have hnp : (s.proc np).state = .used := hi.child_used p np (by simp [hk])
  have hnk : (s.proc np).kpc = .idle := by
    by_contra h; simpa [hnp] using hi.kpc_active np h
  have hne : p ≠ np := by rintro rfl; simp [hk] at hnk
  have other : ∀ r np', r ≠ p → (s.proc r).kpc.child = some np' → np' ≠ p ∧ np' ≠ np := by
    intro r np' hr h
    have hu := hi.child_used r np' h
    refine ⟨?_, ?_⟩
    · rintro rfl; simpa [hu] using hi.kpc_active np' (by simp [hk])
    · rintro rfl; exact hr (hi.child_unique r p np' h (by simp [hk]))
  have hp : ∀ r, r ≠ p → r ≠ np → ((s.forkRun p np).proc r) = s.proc r := by
    intro r h1 h2; simp [forkRun, h1, h2]
  refine ⟨fun r h => ?_, fun r np' h => ?_, fun r r' np' h h' => ?_⟩
  · by_cases h1 : r = p
    · subst h1; simp [forkRun] at h
    · by_cases h2 : r = np
      · subst h2; simp [forkRun, h1, hnk] at h
      · rw [hp r h1 h2] at h ⊢; exact hi.kpc_active r h
  · by_cases h1 : r = p
    · subst h1; simp [forkRun] at h
    · by_cases h2 : r = np
      · subst h2; simp [forkRun, h1, hnk] at h
      · rw [hp r h1 h2] at h
        obtain ⟨n1, n2⟩ := other r np' h1 h
        rw [hp np' n1 n2]; exact hi.child_used r np' h
  · -- neither `p` nor `np` sets anything up now
    have none_of : ∀ t, ((s.forkRun p np).proc t).kpc.child = some np' → t ≠ p ∧ t ≠ np := by
      intro t ht
      refine ⟨?_, ?_⟩
      · rintro rfl; simp [forkRun] at ht
      · rintro rfl; simp [forkRun, Ne.symm hne, hnk] at ht
    obtain ⟨a1, a2⟩ := none_of r h
    obtain ⟨b1, b2⟩ := none_of r' h'
    rw [hp r a1 a2] at h
    rw [hp r' b1 b2] at h'
    exact hi.child_unique r r' np' h h'

/-! ## Each step -/

theorem SchedInv.set (hi : s.SchedInv) (hrun : x.state = .running ↔ (s.proc q).state = .running)
    (hchan : x.state = .sleeping → x.chan ≠ none) (hk : x.kpc.child = (s.proc q).kpc.child)
    (hused : (s.proc q).state = .used → x.state = .used)
    (hact : x.kpc ≠ .idle → x.state.active) : (s.set q x).SchedInv :=
  ⟨hi.cpuInv.set hrun hchan, hi.forkInv.set hk hused hact⟩

theorem SchedInv.leave (hi : s.SchedInv) (hp : s.cpu c = some p) (hx : x.state ≠ .running)
    (hchan : x.state = .sleeping → x.chan ≠ none) (hk : x.kpc.child = (s.proc p).kpc.child)
    (hact : x.kpc ≠ .idle → x.state.active) : ((s.set p x).setCpu c none).SchedInv := by
  have hrun := hi.cpuInv.cpu_running c p hp
  exact ⟨hi.cpuInv.leave hp hx hchan, (hi.forkInv.set hk (by simp [hrun]) hact).setCpu c none⟩

theorem SchedInv.scheduler (hi : s.SchedInv) (hc : s.cpu c = none)
    (hq : (s.proc q).state = .runnable) : (s.scheduler c q).SchedInv := by
  refine ⟨hi.cpuInv.enter hc (by simp [hq]) rfl, ForkInv.setCpu ?_ c (some q)⟩
  exact hi.forkInv.set rfl (by simp [hq]) (by simp)

theorem SchedInv.yield (hi : s.SchedInv) (hp : s.cpu c = some p) : (s.yield c p).SchedInv :=
  hi.leave hp (by simp) (by simp) rfl (by simp)

theorem SchedInv.sleep (hi : s.SchedInv) (hp : s.cpu c = some p) (chan : Chan) :
    (s.sleep c p chan).SchedInv :=
  hi.leave hp (by simp) (by simp) rfl (by simp)

theorem SchedInv.wakeup (hi : s.SchedInv) (hq : (s.proc q).state = .sleeping) :
    (s.wakeup q).SchedInv :=
  ⟨hi.cpuInv.set (by simp [hq]) (by simp), hi.forkInv.set rfl (by simp [hq]) (by simp)⟩

theorem SchedInv.kill (hi : s.SchedInv) : (s.kill q).SchedInv := by
  by_cases hq : (s.proc q).state = .sleeping
  · -- a sleeping victim is woken
    exact ⟨hi.cpuInv.set (by simp [hq]) (by simp [hq]), hi.forkInv.set rfl (by simp [hq]) (by simp [hq])⟩
  · -- the victim keeps its state
    exact ⟨hi.cpuInv.set (by simp [hq]) (by simp [hq]),
      hi.forkInv.set rfl (by simp [hq]) (by simpa [hq] using hi.forkInv.kpc_active q)⟩

theorem SchedInv.fork (hi : s.SchedInv) (hp : s.cpu c = some p) (tf pt : Option Nat)
    (copyOk : Bool) : (s.fork p tf pt copyOk).SchedInv := by
  have hrun := hi.cpuInv.cpu_running c p hp
  have hnext : { s with nextpid := s.nextpid + 1, nextserial := s.nextserial + 1 }.SchedInv :=
    hi.congr rfl fun _ => ⟨rfl, rfl, rfl⟩
  rcases s.fork_cases p tf pt copyOk with
    ⟨heq, -⟩ | ⟨np, hnp, heq | heq | ⟨a, b, rfl, rfl, -, heq⟩⟩ <;> rw [heq]
  · exact hi
  all_goals
    -- the slot taken was `UNUSED`, so no thread is its own and none sets it up
    have hnk : (s.proc np).kpc = .idle := by
      by_contra h; simpa [hnp] using hi.forkInv.kpc_active np h
    have hfree : ∀ r, (s.proc r).kpc.child ≠ some np := fun r h => by
      simpa [hnp] using hi.forkInv.child_used r np h
  · exact hnext.set (by simp [freeproc, hnp]) (by simp [freeproc]) rfl (by simp [hnp])
      (by simp [freeproc, hnk])
  · exact hnext.set (by simp [freeproc, hnp]) (by simp [freeproc]) (by simp [hnk])
      (by simp [hnp]) (by simp)
  · have hne : p ≠ np := by rintro rfl; simp [hrun] at hnp
    have h1 : ({ s with nextpid := s.nextpid + 1, nextserial := s.nextserial + 1 }.set np
        { s.proc np with pid := s.nextpid, state := .used, serial := s.nextserial,
                         trapframe := some a, pagetable := some b, kpc := .idle }).SchedInv :=
      hnext.set (by simp [hnp]) (by simp) (by simp [hnk]) (by simp) (by simp)
    refine ⟨h1.cpuInv.set (by simp) (by simp [hne, hrun]), h1.forkInv.start (by simp [hne, hrun])
      (by simp) fun r => ?_⟩
    by_cases hr : r = np
    · subst hr; simp
    · simpa [hr] using hfree r

theorem SchedInv.forkParent {np : Fin NPROC} (hi : s.SchedInv) (hp : s.cpu c = some p)
    (hk : (s.proc p).kpc = .forkParent np) : (s.forkParent p np).SchedInv := by
  have hrun := hi.cpuInv.cpu_running c p hp
  have hne : p ≠ np := by
    rintro rfl; simpa [hrun] using hi.forkInv.child_used p p (by simp [hk])
  have h1 : (s.set np { s.proc np with parent := some p }).SchedInv :=
    hi.set Iff.rfl (hi.cpuInv.sleeping_chan np) rfl id (hi.forkInv.kpc_active np)
  exact h1.set (by simp) (by simp [hne, hrun]) (by simp [hne, hk]) (by simp) (by simp [hne, hrun])

theorem SchedInv.forkRun {np : Fin NPROC} (hi : s.SchedInv) (hk : (s.proc p).kpc = .forkRun np) :
    (s.forkRun p np).SchedInv := by
  have hnp : (s.proc np).state = .used := hi.forkInv.child_used p np (by simp [hk])
  have h1 : (s.set np { s.proc np with state := .runnable }).CpuInv :=
    hi.cpuInv.set (by simp [hnp]) (by simp)
  exact ⟨h1.set Iff.rfl (h1.sleeping_chan p), hi.forkInv.finish hk⟩

theorem SchedInv.exit (hi : s.SchedInv) (hp : s.cpu c = some p) (hk : (s.proc p).kpc = .idle)
    (status : Int) : (s.exit c p status).SchedInv := by
  have h1 : (s.reparent p).SchedInv := hi.congr rfl fun q => by simp
  have h2 := h1.leave (x := { (s.reparent p).proc p with xstate := status, state := .zombie })
    (by simpa using hp) (by simp) (by simp) rfl (by simp [hk])
  exact h2.congr rfl fun _ => ⟨rfl, rfl, rfl⟩

theorem SchedInv.wait (hi : s.SchedInv) (hp : s.cpu c = some p) (hk : (s.proc p).kpc = .idle)
    (addr : Nat) : (s.wait p addr).SchedInv := by
  have hrun := hi.cpuInv.cpu_running c p hp
  exact hi.set Iff.rfl (by simp [hrun]) (by simp [hk]) (by simp [hrun]) (by simp [hrun])

theorem SchedInv.waitScan {addr : Nat} (hi : s.SchedInv) (hp : s.cpu c = some p)
    (hk : (s.proc p).kpc = .waiting addr) (copyOk : Bool) :
    (s.waitScan c p addr copyOk).1.SchedInv := by
  have hrun := hi.cpuInv.cpu_running c p hp
  have hdone : ∀ t : Ptable, t.SchedInv → (t.proc p).state = .running →
      (t.proc p).kpc.child = none → (t.set p { t.proc p with kpc := .idle }).SchedInv :=
    fun t ht hr hc => ht.set Iff.rfl (by simp [hr]) (by simp [hc]) (by simp [hr]) (by simp)
  rcases s.waitScan_cases c p addr copyOk with
    ⟨q, -, -, -, heq⟩ | ⟨q, hz, -, heq⟩ | ⟨-, -, heq⟩ | ⟨-, -, -, heq⟩ <;> rw [heq]
  · exact hdone s hi hrun (by simp [hk])
  · -- the zombie child is freed, then `p` leaves
    have hq := (s.zombieChild_some p hz).2
    have hqk : (s.proc q).kpc = .idle := by
      by_contra h; simpa [hq] using hi.forkInv.kpc_active q h
    have hne : p ≠ q := by rintro rfl; simp [hrun] at hq
    have h1 : (s.set q (freeproc (s.proc q))).SchedInv :=
      hi.set (by simp [freeproc, hq]) (by simp [freeproc]) rfl (by simp [hq])
        (by simp [freeproc, hqk])
    exact (hdone _ h1 (by simp [hne, hrun]) (by simp [hne, hk])).congr rfl
      fun _ => ⟨rfl, rfl, rfl⟩
  · exact hdone s hi hrun (by simp [hk])
  · exact hi.sleep hp (.proc p)

theorem SchedInv.step {a : PAct} {s' : Ptable} (hi : s.SchedInv)
    (h : s.step a = some (.ok s')) : s'.SchedInv := by
  cases a with
  | sched c q =>
    obtain ⟨hc, hq, rfl⟩ := step_sched h
    exact hi.scheduler hc hq
  | yield c =>
    obtain ⟨p, hp, rfl⟩ := step_yield h
    exact hi.yield hp
  | sleep c addr =>
    obtain ⟨p, hp, -, rfl⟩ := step_sleep h
    exact hi.sleep hp _
  | wakeup chan q =>
    obtain ⟨hq, -, rfl⟩ := step_wakeup h
    exact hi.wakeup hq
  | kill pid q =>
    obtain ⟨-, rfl⟩ := step_kill h
    exact hi.kill
  | fork c tf pt copyOk =>
    obtain ⟨p, hp, -, rfl⟩ := step_fork h
    exact SchedInv.fork hi hp tf pt copyOk
  | forkParent c =>
    obtain ⟨p, np, hp, hk, rfl⟩ := step_forkParent h
    exact hi.forkParent hp hk
  | forkRun c =>
    obtain ⟨p, np, -, hk, rfl⟩ := step_forkRun h
    exact hi.forkRun hk
  | exit c status =>
    obtain ⟨p, hp, hk, -, rfl⟩ := step_exit h
    exact hi.exit hp hk status
  | wait c addr =>
    obtain ⟨p, hp, hk, rfl⟩ := step_wait h
    exact hi.wait hp hk addr
  | waitScan c copyOk =>
    obtain ⟨p, addr, hp, hk, rfl⟩ := step_waitScan h
    exact hi.waitScan hp hk copyOk

theorem SchedInv.init (tf pt : Nat) : (Ptable.init tf pt).SchedInv := by
  have hcpu : ∀ c, (Ptable.init tf pt).cpu c = none := fun _ => rfl
  have hst : ∀ q, ((Ptable.init tf pt).proc q).state ≠ .running ∧
      ((Ptable.init tf pt).proc q).state ≠ .sleeping ∧ ((Ptable.init tf pt).proc q).kpc = .idle := by
    intro q
    rw [init_proc]
    split <;> simp [Proc.zero]
  refine ⟨⟨fun c q h => ?_, fun q h => ?_, fun c _ q h => ?_, fun q h => ?_⟩,
    ⟨fun q h => ?_, fun p np h => ?_, fun p _ np h => ?_⟩⟩
  · simp [hcpu] at h
  · exact absurd h (hst q).1
  · simp [hcpu] at h
  · exact absurd h (hst q).2.1
  · exact absurd (hst q).2.2 h
  · simp [(hst p).2.2] at h
  · simp [(hst p).2.2] at h

theorem SchedInv.reachable (h : s.Reachable) : s.SchedInv :=
  Reachable.inv SchedInv SchedInv.init (fun _ _ _ hi hs => hi.step hs) h

/-! ## State changes -/

/-- What a step does to the state of a process `q`: nothing, or an `Allowed` change; a
`SLEEPING` process changes only when the step wakes it. -/
theorem SchedInv.step_state {a : PAct} {s' : Ptable} (hi : s.SchedInv)
    (h : s.step a = some (.ok s')) (q : Fin NPROC) :
    (s'.proc q).state = (s.proc q).state ∨
      Allowed (s.proc q).state (s'.proc q).state ∧
        ((s.proc q).state = .sleeping → a.wakes q (s.proc q).chan) := by
  -- a process in any state but `SLEEPING` needs no cause to change
  have move : ∀ {x y}, Allowed x y → x ≠ .sleeping →
      Allowed x y ∧ (x = .sleeping → a.wakes q (s.proc q).chan) :=
    fun hxy hx => ⟨hxy, fun h => absurd h hx⟩
  cases a with
  | sched c p =>
    obtain ⟨-, hp, rfl⟩ := step_sched h
    by_cases hq : q = p
    · subst hq; simpa [Ptable.scheduler, hp] using move .scheduler (by simp)
    · exact .inl (by simp [Ptable.scheduler, hq])
  | yield c =>
    obtain ⟨p, hp, rfl⟩ := step_yield h
    have hrun := hi.cpuInv.cpu_running c p hp
    by_cases hq : q = p
    · subst hq; simpa [Ptable.yield, hrun] using move .yield (by simp)
    · exact .inl (by simp [Ptable.yield, hq])
  | sleep c addr =>
    obtain ⟨p, hp, -, rfl⟩ := step_sleep h
    have hrun := hi.cpuInv.cpu_running c p hp
    by_cases hq : q = p
    · subst hq; simpa [Ptable.sleep, hrun] using move .sleep (by simp)
    · exact .inl (by simp [Ptable.sleep, hq])
  | wakeup chan p =>
    obtain ⟨hp, hc, rfl⟩ := step_wakeup h
    by_cases hq : q = p
    · subst hq; exact .inr ⟨by simpa [Ptable.wakeup, hp] using Allowed.wakeup,
        fun _ => .inl ⟨chan, rfl, hc⟩⟩
    · exact .inl (by simp [Ptable.wakeup, hq])
  | kill pid p =>
    obtain ⟨-, rfl⟩ := step_kill h
    by_cases hq : q = p
    · subst hq
      by_cases hs : (s.proc q).state = .sleeping
      · exact .inr ⟨by simpa [Ptable.kill, hs] using Allowed.wakeup, fun _ => .inr ⟨pid, rfl⟩⟩
      · exact .inl (by simp [Ptable.kill, hs])
    · exact .inl (by simp [Ptable.kill, hq])
  | fork c tf pt copyOk =>
    obtain ⟨p, hp, -, rfl⟩ := step_fork h
    have hrun := hi.cpuInv.cpu_running c p hp
    rcases s.fork_cases p tf pt copyOk with
      ⟨heq, -⟩ | ⟨np, hnp, heq | heq | ⟨a, b, rfl, rfl, -, heq⟩⟩ <;> rw [heq]
    · exact .inl rfl
    all_goals by_cases hq : q = np
    · subst hq; exact .inl (by simp [freeproc, hnp])
    · exact .inl (by simp [hq])
    · subst hq; exact .inl (by simp [freeproc, hnp])
    · exact .inl (by simp [hq])
    · -- the slot taken becomes `USED`
      have hne : p ≠ np := by rintro rfl; simp [hrun] at hnp
      subst hq; simpa [hnp, Ne.symm hne] using move .allocproc (by simp)
    · by_cases hqp : q = p
      · subst hqp; exact .inl (by simp [hq])
      · exact .inl (by simp [hq, hqp])
  | forkParent c =>
    obtain ⟨p, np, -, -, rfl⟩ := step_forkParent h
    left
    rcases eq_or_ne q p with rfl | hqp
    · rcases eq_or_ne q np with rfl | hq <;> simp [Ptable.forkParent, *]
    · rcases eq_or_ne q np with rfl | hq <;> simp [Ptable.forkParent, *]
  | forkRun c =>
    obtain ⟨p, np, -, hk, rfl⟩ := step_forkRun h
    have hnp : (s.proc np).state = .used := hi.forkInv.child_used p np (by simp [hk])
    have hne : p ≠ np := by
      rintro rfl; simpa [hnp] using hi.forkInv.kpc_active p (by simp [hk])
    by_cases hq : q = np
    · subst hq; simpa [Ptable.forkRun, hnp, Ne.symm hne] using move .fork (by simp)
    · by_cases hqp : q = p
      · subst hqp; exact .inl (by simp [Ptable.forkRun, hq])
      · exact .inl (by simp [Ptable.forkRun, hq, hqp])
  | exit c status =>
    obtain ⟨p, hp, -, -, rfl⟩ := step_exit h
    have hrun := hi.cpuInv.cpu_running c p hp
    by_cases hq : q = p
    · subst hq; simpa [Ptable.exit, hrun] using move .exit (by simp)
    · exact .inl (by simp [Ptable.exit, hq])
  | wait c addr =>
    obtain ⟨p, -, -, rfl⟩ := step_wait h
    left
    by_cases hq : q = p
    · subst hq; simp [Ptable.wait]
    · simp [Ptable.wait, hq]
  | waitScan c copyOk =>
    obtain ⟨p, addr, hp, -, rfl⟩ := step_waitScan h
    have hrun := hi.cpuInv.cpu_running c p hp
    rcases s.waitScan_cases c p addr copyOk with
      ⟨r, -, -, -, heq⟩ | ⟨r, hz, -, heq⟩ | ⟨-, -, heq⟩ | ⟨-, -, -, heq⟩ <;> rw [heq]
    · left; by_cases hq : q = p
      · subst hq; simp
      · simp [hq]
    · -- the zombie child is freed
      have hr := (s.zombieChild_some p hz).2
      have hne : p ≠ r := by rintro rfl; simp [hrun] at hr
      by_cases hq : q = r
      · subst hq; simpa [freeproc, hr, Ne.symm hne] using move .wait (by simp)
      · by_cases hqp : q = p
        · subst hqp; exact .inl (by simp [hq])
        · exact .inl (by simp [hq, hqp])
    · left; by_cases hq : q = p
      · subst hq; simp
      · simp [hq]
    · -- `p` sleeps on itself
      by_cases hq : q = p
      · subst hq; simpa [Ptable.sleep, hrun] using move .sleep (by simp)
      · exact .inl (by simp [Ptable.sleep, hq])

/-- In every reachable table each `RUNNING` process is the process of a CPU, and the
process of a CPU is `RUNNING` and of no other CPU; a `SLEEPING` process has a channel;
and a step changes a process's state only along `Allowed`, a `SLEEPING` process's only
when the step is a `wakeup` on its channel or a `kill`. -/
theorem proc_state_machine {s : Ptable} (h : s.Reachable) :
    (∀ q, (s.proc q).state = .running ↔ ∃ c, s.cpu c = some q) ∧
    (∀ c c' q, s.cpu c = some q → s.cpu c' = some q → c = c') ∧
    (∀ q, (s.proc q).state = .sleeping → (s.proc q).chan ≠ none) ∧
    ∀ a s', s.step a = some (.ok s') → ∀ q,
      (s'.proc q).state = (s.proc q).state ∨
        Allowed (s.proc q).state (s'.proc q).state ∧
          ((s.proc q).state = .sleeping → a.wakes q (s.proc q).chan) := by
  have hi := SchedInv.reachable h
  refine ⟨fun q => ⟨hi.cpuInv.running_cpu q, ?_⟩, hi.cpuInv.cpu_inj, hi.cpuInv.sleeping_chan,
    fun a s' hs q => hi.step_state hs q⟩
  rintro ⟨c, hc⟩
  exact hi.cpuInv.cpu_running c q hc

def cpu0 : Fin NCPU := ⟨0, NCPU_pos⟩

def cpu1 : Fin NCPU := ⟨1, one_lt_NCPU⟩

def slot1 : Fin NPROC := ⟨1, one_lt_NPROC⟩

/-- On two CPUs, `init` forks a child into slot `1`; the child runs on the second CPU and
exits with status `7`, and `init` waits and reaps it. -/
def forkExitWait : List PAct :=
  [.sched cpu0 initproc, .fork cpu0 (some 3) (some 4) true, .forkParent cpu0, .forkRun cpu0,
    .sched cpu1 slot1, .exit cpu1 7, .wait cpu0 8, .waitScan cpu0 true]

/-- While `init` and its child run on the two CPUs, the child is on exactly the CPU that
runs it, and its `exit` is an allowed change of state. -/
theorem proc_state_machine_fork :
    ∃ s s', Outcome.run step (init 1 2) (forkExitWait.take 5) = some (.ok s) ∧
      s.step (.exit cpu1 7) = some (.ok s') ∧
      ((s.proc slot1).state = .running ↔ ∃ c, s.cpu c = some slot1) ∧
      ((s'.proc slot1).state = (s.proc slot1).state ∨
        Allowed (s.proc slot1).state (s'.proc slot1).state ∧
          ((s.proc slot1).state = .sleeping → (PAct.exit cpu1 7).wakes slot1 (s.proc slot1).chan)) := by
  have h5 : Outcome.holds (fun s => (s.proc slot1).state == .running)
      (Outcome.run step (init 1 2) (forkExitWait.take 5)) = true := by
    decide +kernel
  have h6 : Outcome.holds (fun s => (s.proc slot1).state == .zombie)
      (Outcome.run step (init 1 2) (forkExitWait.take 6)) = true := by
    decide +kernel
  obtain ⟨s, hs, -⟩ := Outcome.exists_of_holds h5
  obtain ⟨s6, hs6, -⟩ := Outcome.exists_of_holds h6
  rw [show forkExitWait.take 6 = forkExitWait.take 5 ++ [.exit cpu1 7] from rfl,
    Outcome.run_append hs] at hs6
  obtain ⟨s', hstep, -⟩ := Outcome.run_cons_ok hs6
  have hm := proc_state_machine ⟨1, 2, _, hs⟩
  exact ⟨s, s', hs, hstep, hm.1 slot1, hm.2.2.2 _ s' hstep slot1⟩

end Ptable

end Xv6
