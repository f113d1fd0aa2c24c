import Xv6.Param
import Xv6.Lib.Outcome
import Mathlib

/-!
# The process table

`kernel/proc.c`: `proc[NPROC]`, the `c->proc` of each of the `NCPU` CPUs, `nextpid`, and
the functions that change them: `allocproc`, `freeproc`, `userinit`, `fork`, `reparent`,
`exit`, `wait`, `scheduler`, `sched`, `yield`, `sleep`, `wakeup` and `kill`.

Each region of these functions between `acquire(&p->lock)` (or `acquire(&wait_lock)`) and
the matching `release` is one atomic step, `Ptable.step`.  `p->lock` is handed across
`swtch`: a process that gives up its CPU (`yield`, `sleep`, `exit`) and the scheduler loop
that then clears `c->proc` make one step, and so do the scheduler that picks a process
and the process running on from where it called `sched`.  A kernel thread that stands
between two of its regions records where (`KPc`): inside `fork`, or inside `wait`.

A loop of `wakeup` or `kill` takes each `p->lock` in turn, so each of its passes is a step
of its own.  `wakeup` may pass over a sleeping process at any time: a step wakes any
process asleep on the channel it names, whoever calls `wakeup`, and the states reached
include those of every real run.

`nextpid` and `p->pid` are `int`s: the pids wrap (`pid_wraps`).  Each process also
carries a ghost serial number, the count of `allocproc`s up to its own, which never comes
round again; the pid is that count as an `int`.  Two ghost histories record what happened:
the serial and status of each `exit`, and the serials of the processes `wait` reaped.
-/

namespace Xv6

/-- `enum procstate`. -/
inductive ProcState where
  | unused
  | used
  | sleeping
  | runnable
  | running
  | zombie
  deriving DecidableEq, Repr

/-- A channel of `sleep`: a process, as `wait` sleeps on its own `struct proc`, or any
other address. -/
inductive Chan where
  | proc (q : Fin NPROC)
  | other (addr : Nat)
  deriving DecidableEq, Repr

/-- Where a process's kernel thread stands between two of its regions: at none
(`idle`); in `fork` for the child `np`, after `release(&np->lock)` (`forkParent np`) or
after `np->parent = p` (`forkRun np`); in `wait(addr)` before a scan (`waiting addr`). -/
inductive KPc where
  | idle
  | forkParent (np : Fin NPROC)
  | forkRun (np : Fin NPROC)
  | waiting (addr : Nat)
  deriving DecidableEq, Repr

/-- `struct proc`, what the process-table code reads and writes of it.  `chan` is `none`
for `0`; `trapframe` and `pagetable` are the pages, `none` for `0`; `serial` is the ghost
number of the `allocproc` that made the process. -/
structure Proc where
  state : ProcState
  chan : Option Chan
  killed : Bool
  xstate : Int
  pid : Int32
  parent : Option (Fin NPROC)
  trapframe : Option Nat
  pagetable : Option Nat
  kpc : KPc
  serial : Nat
  deriving DecidableEq, Repr

/-- A zero-initialised `struct proc`. -/
def Proc.zero : Proc := ⟨.unused, none, false, 0, 0, none, none, none, .idle, 0⟩

/-- `freeproc`: the pages dropped and every field cleared, `UNUSED`. -/
def freeproc (x : Proc) : Proc :=
  { x with trapframe := none, pagetable := none, pid := 0, parent := none, chan := none,
           killed := false, xstate := 0, state := .unused, serial := 0 }

/-- `initproc`: `userinit`'s `allocproc` takes the first slot. -/
def initproc : Fin NPROC := ⟨0, by decide⟩

/-- The process table, `c->proc` of each CPU and `nextpid`; with the ghost count of
`allocproc`s, the serial the next one gives, and the histories of the `(serial, status)`
of each `exit` and of the serials `wait` reaped. -/
structure Ptable where
  proc : Fin NPROC → Proc
  cpu : Fin NCPU → Option (Fin NPROC)
  nextpid : Int32
  nextserial : Nat
  exited : List (Nat × Int)
  reaped : List Nat

namespace Ptable

variable (s : Ptable)

/-- Slot `q` replaced by `x`. -/
def set (q : Fin NPROC) (x : Proc) : Ptable := { s with proc := Function.update s.proc q x }

/-- `c->proc = o`. -/
def setCpu (c : Fin NCPU) (o : Option (Fin NPROC)) : Ptable :=
  { s with cpu := Function.update s.cpu c o }

variable {s} {q r : Fin NPROC} {x : Proc} {c : Fin NCPU} {o : Option (Fin NPROC)}

@[simp] theorem set_proc : (s.set q x).proc = Function.update s.proc q x := rfl
@[simp] theorem set_cpu : (s.set q x).cpu = s.cpu := rfl
@[simp] theorem set_nextpid : (s.set q x).nextpid = s.nextpid := rfl
@[simp] theorem set_nextserial : (s.set q x).nextserial = s.nextserial := rfl
@[simp] theorem set_exited : (s.set q x).exited = s.exited := rfl
@[simp] theorem set_reaped : (s.set q x).reaped = s.reaped := rfl
@[simp] theorem setCpu_proc : (s.setCpu c o).proc = s.proc := rfl
@[simp] theorem setCpu_cpu : (s.setCpu c o).cpu = Function.update s.cpu c o := rfl
@[simp] theorem setCpu_nextpid : (s.setCpu c o).nextpid = s.nextpid := rfl
@[simp] theorem setCpu_nextserial : (s.setCpu c o).nextserial = s.nextserial := rfl
@[simp] theorem setCpu_exited : (s.setCpu c o).exited = s.exited := rfl
@[simp] theorem setCpu_reaped : (s.setCpu c o).reaped = s.reaped := rfl

end Ptable

/-! ## The functions of `proc.c` -/

/-- `allocproc`, with what `kalloc` returns for the trapframe (`tf`) and what
`proc_pagetable` returns (`pt`), `none` for `0`: the first `UNUSED` slot, with the next
pid, `USED`, its pages and a fresh context; freed again by `freeproc` if either fails. -/
def allocproc (s : Ptable) (tf pt : Option Nat) : Ptable × Option (Fin NPROC) :=
  match (List.finRange NPROC).find? (fun q => (s.proc q).state = .unused) with
  | none => (s, none)
  | some q =>
    let x : Proc := { s.proc q with pid := s.nextpid, state := .used, serial := s.nextserial }
    let s := { s with nextpid := s.nextpid + 1, nextserial := s.nextserial + 1 }
    match tf, pt with
    | some tf, some pt =>
      (s.set q { x with trapframe := some tf, pagetable := some pt, kpc := .idle }, some q)
    | _, _ => (s.set q (freeproc x), none)

namespace Ptable

variable (s : Ptable) (c : Fin NCPU) (p q : Fin NPROC)

/-- The `scheduler` loop of CPU `c` at the `RUNNABLE` process `q`: `RUNNING` and
`c->proc = q`; `q` runs on from its `sched`, and one that slept clears `p->chan`. -/
def scheduler : Ptable :=
  (s.set q { s.proc q with state := .running, chan := none }).setCpu c (some q)

/-- `yield` by the process `p` on CPU `c`, until the scheduler clears `c->proc`. -/
def yield : Ptable := (s.set p { s.proc p with state := .runnable }).setCpu c none

/-- `sleep(chan)` by the process `p` on CPU `c`, until the scheduler clears `c->proc`. -/
def sleep (chan : Chan) : Ptable :=
  (s.set p { s.proc p with chan := some chan, state := .sleeping }).setCpu c none

/-- The pass of `wakeup`'s loop that finds `q` asleep on the channel. -/
def wakeup : Ptable := s.set q { s.proc q with state := .runnable }

/-- The pass of `kill`'s loop that finds `q` with the pid. -/
def kill : Ptable :=
  s.set q { s.proc q with
    killed := true, state := if (s.proc q).state = .sleeping then .runnable else (s.proc q).state }

/-- `kill(pid)` as one call: its loop stops at the first slot, in table order, whose pid is
`pid`, whatever the slot's state, and returns `0`; `-1` when there is none. -/
def killCall (pid : Int32) : Ptable × Int :=
  match (List.finRange NPROC).find? fun q => (s.proc q).pid = pid with
  | some q => (s.kill q, 0)
  | none => (s, -1)

/-- `fork` by the process `p`, up to `release(&np->lock)`, with what `allocproc` allocates
(`tf`, `pt`) and whether `uvmcopy` succeeds (`copyOk`). -/
def fork (tf pt : Option Nat) (copyOk : Bool) : Ptable :=
  match allocproc s tf pt with
  | (s, none) => s
  | (s, some np) =>
    if copyOk then s.set p { s.proc p with kpc := .forkParent np }
    else s.set np (freeproc (s.proc np))

/-- `np->parent = p` in `fork`, under `wait_lock`. -/
def forkParent (np : Fin NPROC) : Ptable :=
  let s := s.set np { s.proc np with parent := some p }
  s.set p { s.proc p with kpc := .forkRun np }

/-- `np->state = RUNNABLE` in `fork`, which then returns. -/
def forkRun (np : Fin NPROC) : Ptable :=
  let s := s.set np { s.proc np with state := .runnable }
  s.set p { s.proc p with kpc := .idle }

/-- `reparent(p)`: every child of `p` passed to `initproc`. -/
def reparent : Ptable :=
  { s with proc := fun q =>
      if (s.proc q).parent = some p then { s.proc q with parent := some initproc }
      else s.proc q }

/-- `exit(status)` by the process `p` on CPU `c`, from `acquire(&wait_lock)` until the
scheduler clears `c->proc`: its children reparented, then `ZOMBIE` with `status`. -/
def exit (status : Int) : Ptable :=
  let s := s.reparent p
  let s := (s.set p { s.proc p with xstate := status, state := .zombie }).setCpu c none
  { s with exited := s.exited ++ [((s.proc p).serial, status)] }

/-- `wait(addr)` called by the process `p`. -/
def wait (addr : Nat) : Ptable := s.set p { s.proc p with kpc := .waiting addr }

/-- The first `ZOMBIE` child of `p`, in table order. -/
def zombieChild : Option (Fin NPROC) :=
  (List.finRange NPROC).find? fun q => (s.proc q).parent = some p ∧ (s.proc q).state = .zombie

/-- `havekids` of `wait`'s scan. -/
def havekids : Bool := (List.finRange NPROC).any fun q => (s.proc q).parent = some p

end Ptable

/-- How a scan of `wait`'s loop ends. -/
inductive WaitEnd where
  /-- `wait` returns `r`, having written `xstate` at `addr` when `written = some (addr, xstate)`. -/
  | ret (r : Int) (written : Option (Nat × Int))
  /-- `sleep(p, &wait_lock)`, to scan again when woken -/
  | sleep
  deriving DecidableEq, Repr

namespace Ptable

variable (s : Ptable) (c : Fin NCPU) (p : Fin NPROC)

/-- One scan of `wait(addr)`'s loop by the process `p` on CPU `c`, with whether `copyout`
succeeds (`copyOk`): a `ZOMBIE` child is freed and its pid returned; with none, `-1` if
there are no children or `p` is killed, else `p` sleeps on itself. -/
def waitScan (addr : Nat) (copyOk : Bool) : Ptable × WaitEnd :=
  let done (t : Ptable) : Ptable := t.set p { t.proc p with kpc := .idle }
  match s.zombieChild p with
  | some q =>
    if addr ≠ 0 ∧ copyOk = false then (done s, .ret (-1) none)
    else
      let pid := (s.proc q).pid
      let t := done (s.set q (freeproc (s.proc q)))
      ({ t with reaped := t.reaped ++ [(s.proc q).serial] },
        .ret pid.toInt (if addr ≠ 0 then some (addr, (s.proc q).xstate) else none))
  | none =>
    if s.havekids p = false ∨ (s.proc p).killed then (done s, .ret (-1) none)
    else (s.sleep c p (.proc p), .sleep)

end Ptable

/-! ## Steps -/

/-- The atomic steps. -/
inductive PAct where
  /-- the scheduler of CPU `c`, with no process, picks `q` -/
  | sched (c : Fin NCPU) (q : Fin NPROC)
  /-- the process on CPU `c` calls `yield` -/
  | yield (c : Fin NCPU)
  /-- the process on CPU `c` calls `sleep` on an address that is not a process -/
  | sleep (c : Fin NCPU) (addr : Nat)
  /-- a pass of `wakeup(chan)` at `q` -/
  | wakeup (chan : Chan) (q : Fin NPROC)
  /-- a pass of `kill(pid)` at `q` -/
  | kill (pid : Int32) (q : Fin NPROC)
  /-- the process on CPU `c` calls `fork` -/
  | fork (c : Fin NCPU) (tf pt : Option Nat) (copyOk : Bool)
  /-- the process on CPU `c`, in `fork`, sets its child's parent -/
  | forkParent (c : Fin NCPU)
  /-- the process on CPU `c`, in `fork`, makes its child `RUNNABLE` -/
  | forkRun (c : Fin NCPU)
  /-- the process on CPU `c` calls `exit` -/
  | exit (c : Fin NCPU) (status : Int)
  /-- the process on CPU `c` calls `wait` -/
  | wait (c : Fin NCPU) (addr : Nat)
  /-- the process on CPU `c`, in `wait`, scans for a child -/
  | waitScan (c : Fin NCPU) (copyOk : Bool)

namespace Ptable

/-- The process on CPU `c`, at none of its regions, does `f`. -/
def idleOn (s : Ptable) (c : Fin NCPU) (f : Fin NPROC → Except String Ptable) :
    Option (Except String Ptable) :=
  (s.cpu c).bind fun p => if (s.proc p).kpc = .idle then some (f p) else none

/-- One atomic step: `none` if it cannot be taken now, `.error` at a panic. -/
def step (s : Ptable) : PAct → Option (Except String Ptable)
  | .sched c q =>
    if s.cpu c = none ∧ (s.proc q).state = .runnable then some (.ok (s.scheduler c q))
    else none
  | .yield c => (s.cpu c).map fun p => .ok (s.yield c p)
  | .sleep c addr => s.idleOn c fun p => .ok (s.sleep c p (.other addr))
  | .wakeup chan q =>
    if (s.proc q).state = .sleeping ∧ (s.proc q).chan = some chan then some (.ok (s.wakeup q))
    else none
  | .kill pid q => if (s.proc q).pid = pid then some (.ok (s.kill q)) else none
  | .fork c tf pt copyOk => s.idleOn c fun p => .ok (s.fork p tf pt copyOk)
  | .forkParent c =>
    (s.cpu c).bind fun p =>
      match (s.proc p).kpc with
      | .forkParent np => some (.ok (s.forkParent p np))
      | _ => none
  | .forkRun c =>
    (s.cpu c).bind fun p =>
      match (s.proc p).kpc with
      | .forkRun np => some (.ok (s.forkRun p np))
      | _ => none
  | .exit c status =>
    s.idleOn c fun p => if p = initproc then .error "init exiting" else .ok (s.exit c p status)
  | .wait c addr => s.idleOn c fun p => .ok (s.wait p addr)
  | .waitScan c copyOk =>
    (s.cpu c).bind fun p =>
      match (s.proc p).kpc with
      | .waiting addr => some (.ok (s.waitScan c p addr copyOk).1)
      | _ => none

/-! ## What each step does -/

section Inversion

variable {s s' : Ptable} {c : Fin NCPU}

theorem idleOn_eq {f : Fin NPROC → Except String Ptable} {r : Except String Ptable}
    (h : s.idleOn c f = some r) : ∃ p, s.cpu c = some p ∧ (s.proc p).kpc = .idle ∧ f p = r := by
  simp only [idleOn, Option.bind_eq_some_iff] at h
  obtain ⟨p, hp, h⟩ := h
  split at h
  · next hk => cases h; exact ⟨p, hp, hk, rfl⟩
  · cases h

theorem step_sched {q : Fin NPROC} (h : s.step (.sched c q) = some (.ok s')) :
    s.cpu c = none ∧ (s.proc q).state = .runnable ∧ s' = s.scheduler c q := by
  simp only [step] at h
  split at h
  · next hg => cases h; exact ⟨hg.1, hg.2, rfl⟩
  · cases h

theorem step_yield (h : s.step (.yield c) = some (.ok s')) :
    ∃ p, s.cpu c = some p ∧ s' = s.yield c p := by
  simp only [step, Option.map_eq_some_iff] at h
  obtain ⟨p, hp, h⟩ := h
  cases h
  exact ⟨p, hp, rfl⟩

theorem step_sleep {addr : Nat} (h : s.step (.sleep c addr) = some (.ok s')) :
    ∃ p, s.cpu c = some p ∧ (s.proc p).kpc = .idle ∧ s' = s.sleep c p (.other addr) := by
  obtain ⟨p, hp, hk, h⟩ := idleOn_eq h
  cases h
  exact ⟨p, hp, hk, rfl⟩

theorem step_wakeup {chan : Chan} {q : Fin NPROC} (h : s.step (.wakeup chan q) = some (.ok s')) :
    (s.proc q).state = .sleeping ∧ (s.proc q).chan = some chan ∧ s' = s.wakeup q := by
  simp only [step] at h
  split at h
  · next hg => cases h; exact ⟨hg.1, hg.2, rfl⟩
  · cases h

theorem step_kill {pid : Int32} {q : Fin NPROC} (h : s.step (.kill pid q) = some (.ok s')) :
    (s.proc q).pid = pid ∧ s' = s.kill q := by
  simp only [step] at h
  split at h
  · next hg => cases h; exact ⟨hg, rfl⟩
  · cases h

theorem step_fork {tf pt : Option Nat} {copyOk : Bool}
    (h : s.step (.fork c tf pt copyOk) = some (.ok s')) :
    ∃ p, s.cpu c = some p ∧ (s.proc p).kpc = .idle ∧ s' = s.fork p tf pt copyOk := by
  obtain ⟨p, hp, hk, h⟩ := idleOn_eq h
  cases h
  exact ⟨p, hp, hk, rfl⟩

theorem step_forkParent (h : s.step (.forkParent c) = some (.ok s')) :
    ∃ p np, s.cpu c = some p ∧ (s.proc p).kpc = .forkParent np ∧ s' = s.forkParent p np := by
  simp only [step, Option.bind_eq_some_iff] at h
  obtain ⟨p, hp, h⟩ := h
  split at h
  · next np hk => cases h; exact ⟨p, np, hp, hk, rfl⟩
  · cases h

theorem step_forkRun (h : s.step (.forkRun c) = some (.ok s')) :
    ∃ p np, s.cpu c = some p ∧ (s.proc p).kpc = .forkRun np ∧ s' = s.forkRun p np := by
  simp only [step, Option.bind_eq_some_iff] at h
  obtain ⟨p, hp, h⟩ := h
  split at h
  · next np hk => cases h; exact ⟨p, np, hp, hk, rfl⟩
  · cases h

theorem step_exit {status : Int} (h : s.step (.exit c status) = some (.ok s')) :
    ∃ p, s.cpu c = some p ∧ (s.proc p).kpc = .idle ∧ p ≠ initproc ∧
      s' = s.exit c p status := by
  obtain ⟨p, hp, hk, h⟩ := idleOn_eq h
  split at h
  · cases h
  · next hne => cases h; exact ⟨p, hp, hk, hne, rfl⟩

theorem step_wait {addr : Nat} (h : s.step (.wait c addr) = some (.ok s')) :
    ∃ p, s.cpu c = some p ∧ (s.proc p).kpc = .idle ∧ s' = s.wait p addr := by
  obtain ⟨p, hp, hk, h⟩ := idleOn_eq h
  cases h
  exact ⟨p, hp, hk, rfl⟩

theorem step_waitScan {copyOk : Bool} (h : s.step (.waitScan c copyOk) = some (.ok s')) :
    ∃ p addr, s.cpu c = some p ∧ (s.proc p).kpc = .waiting addr ∧
      s' = (s.waitScan c p addr copyOk).1 := by
  simp only [step, Option.bind_eq_some_iff] at h
  obtain ⟨p, hp, h⟩ := h
  split at h
  · next addr hk => cases h; exact ⟨p, addr, hp, hk, rfl⟩
  · cases h

end Inversion

/-! ## What the functions do -/

section Spec

variable (s : Ptable) (c : Fin NCPU) (p : Fin NPROC)

/-- `allocproc` finds no `UNUSED` slot; or takes the `UNUSED` slot `q` with the next pid,
and either keeps it `USED` with its pages or frees it again. -/
theorem allocproc_cases (tf pt : Option Nat) :
    (allocproc s tf pt = (s, none) ∧ ∀ q, (s.proc q).state ≠ .unused) ∨
    ∃ q, (s.proc q).state = .unused ∧
      (allocproc s tf pt = ({ s with nextpid := s.nextpid + 1, nextserial := s.nextserial + 1 }.set q (freeproc (s.proc q)), none) ∨
       ∃ a b, tf = some a ∧ pt = some b ∧
         allocproc s tf pt = ({ s with nextpid := s.nextpid + 1, nextserial := s.nextserial + 1 }.set q
           { s.proc q with pid := s.nextpid, state := .used, serial := s.nextserial, trapframe := tf,
                           pagetable := pt, kpc := .idle }, some q)) := by
  unfold allocproc
  cases hf : (List.finRange NPROC).find? (fun q => (s.proc q).state = .unused) with
  | none =>
    refine .inl ⟨rfl, fun q hq => ?_⟩
    exact List.find?_eq_none.1 hf q (List.mem_finRange q) (by simpa using hq)
  | some q =>
    refine .inr ⟨q, by simpa using List.find?_some hf, ?_⟩
    cases tf with
    | none => exact .inl rfl
    | some a =>
      cases pt with
      | none => exact .inl rfl
      | some b => exact .inr ⟨a, b, rfl, rfl, rfl⟩

/-- `fork` allocates nothing; or takes the `UNUSED` slot `np` and frees it again, when
`allocproc` or `uvmcopy` fails; or keeps it, `p` going on in `fork` for it. -/
theorem fork_cases (tf pt : Option Nat) (copyOk : Bool) :
    (s.fork p tf pt copyOk = s ∧ ∀ q, (s.proc q).state ≠ .unused) ∨
    ∃ np, (s.proc np).state = .unused ∧
      (s.fork p tf pt copyOk = { s with nextpid := s.nextpid + 1, nextserial := s.nextserial + 1 }.set np (freeproc (s.proc np)) ∨
       s.fork p tf pt copyOk =
         { s with nextpid := s.nextpid + 1, nextserial := s.nextserial + 1 }.set np { freeproc (s.proc np) with kpc := .idle } ∨
       ∃ a b, tf = some a ∧ pt = some b ∧ copyOk = true ∧
         s.fork p tf pt copyOk =
           let s1 := { s with nextpid := s.nextpid + 1, nextserial := s.nextserial + 1 }.set np
             { s.proc np with pid := s.nextpid, state := .used, serial := s.nextserial, trapframe := tf,
                              pagetable := pt, kpc := .idle }
           s1.set p { s1.proc p with kpc := .forkParent np }) := by
  rcases allocproc_cases s tf pt with ⟨ha, hno⟩ | ⟨np, hnp, ha | ⟨a, b, rfl, rfl, ha⟩⟩
  · exact .inl ⟨by simp [fork, ha], hno⟩
  · exact .inr ⟨np, hnp, .inl (by simp [fork, ha])⟩
  · refine .inr ⟨np, hnp, .inr ?_⟩
    cases copyOk with
    | true => exact .inr ⟨a, b, rfl, rfl, rfl, by simp [fork, ha]⟩
    | false =>
      exact .inl (by simp [fork, ha, set, freeproc])

theorem zombieChild_some {q : Fin NPROC} (h : s.zombieChild p = some q) :
    (s.proc q).parent = some p ∧ (s.proc q).state = .zombie := by
  simpa using List.find?_some h

theorem zombieChild_none (h : s.zombieChild p = none) (q : Fin NPROC) :
    ¬ ((s.proc q).parent = some p ∧ (s.proc q).state = .zombie) := by
  simpa using List.find?_eq_none.1 h q (List.mem_finRange q)

@[simp] theorem havekids_eq_true : s.havekids p = true ↔ ∃ q, (s.proc q).parent = some p := by
  simp [havekids]

/-- The four ends of a scan of `wait`: `-1` when `copyout` fails; the zombie child reaped;
`-1` with no zombie child when there is no child or `p` is killed; else asleep. -/
theorem waitScan_cases (addr : Nat) (copyOk : Bool) :
    (∃ q, s.zombieChild p = some q ∧ addr ≠ 0 ∧ copyOk = false ∧
      s.waitScan c p addr copyOk = (s.set p { s.proc p with kpc := .idle }, .ret (-1) none)) ∨
    (∃ q, s.zombieChild p = some q ∧ (addr = 0 ∨ copyOk = true) ∧
      s.waitScan c p addr copyOk =
        (let t := s.set q (freeproc (s.proc q))
         { t.set p { t.proc p with kpc := .idle } with reaped := s.reaped ++ [(s.proc q).serial] },
         .ret (s.proc q).pid.toInt (if addr ≠ 0 then some (addr, (s.proc q).xstate) else none))) ∨
    (s.zombieChild p = none ∧ (s.havekids p = false ∨ (s.proc p).killed = true) ∧
      s.waitScan c p addr copyOk = (s.set p { s.proc p with kpc := .idle }, .ret (-1) none)) ∨
    (s.zombieChild p = none ∧ s.havekids p = true ∧ (s.proc p).killed = false ∧
      s.waitScan c p addr copyOk = (s.sleep c p (.proc p), .sleep)) := by
  cases hz : s.zombieChild p with
  | some q =>
    by_cases hfail : addr ≠ 0 ∧ copyOk = false
    · exact .inl ⟨q, rfl, hfail.1, hfail.2, by simp [waitScan, hz, hfail]⟩
    · refine .inr (.inl ⟨q, rfl, ?_, by simp [waitScan, hz, hfail]⟩)
      cases copyOk <;> simp_all
  | none =>
    by_cases hret : s.havekids p = false ∨ (s.proc p).killed = true
    · exact .inr (.inr (.inl ⟨rfl, hret, by simp [waitScan, hz, hret]⟩))
    · refine .inr (.inr (.inr ⟨rfl, ?_, ?_, by simp [waitScan, hz, hret]⟩)) <;>
        simp only [not_or, Bool.not_eq_false, Bool.not_eq_true] at hret
      exacts [hret.1, hret.2]

end Spec

/-- The table after `userinit`, with the trapframe `tf` and page table `pt` its
`allocproc` got: the first process `RUNNABLE`. -/
def init (tf pt : Nat) : Ptable :=
  let s := (allocproc ⟨fun _ => Proc.zero, fun _ => none, 1, 1, [], []⟩ (some tf) (some pt)).1
  s.set initproc { s.proc initproc with state := .runnable }

/-- The states of runs from `userinit`. -/
def Reachable (s : Ptable) : Prop :=
  ∃ tf pt as, Outcome.run step (init tf pt) as = some (.ok s)

theorem Reachable.inv (I : Ptable → Prop) (hinit : ∀ tf pt, I (init tf pt))
    (hstep : ∀ s a s', I s → s.step a = some (.ok s') → I s') {s : Ptable}
    (h : s.Reachable) : I s := by
  obtain ⟨tf, pt, as, hrun⟩ := h
  exact Outcome.run_inv I hstep (hinit tf pt) hrun

theorem init_proc (tf pt : Nat) (q : Fin NPROC) :
    (init tf pt).proc q = if q = initproc then
      ⟨.runnable, none, false, 0, 1, none, some tf, some pt, .idle, 1⟩ else Proc.zero := by
  have hfind : (List.finRange NPROC).find? (fun _ => decide (Proc.zero.state = .unused)) =
      some initproc := rfl
  by_cases hq : q = initproc
  · subst hq; rfl
  · simp [init, allocproc, hfind, hq]

/-- With `init` alone, every other slot is `UNUSED` with the pid `0` of the zeroed table.
`kill(0)` stops at slot `1`, returns `0` and marks it killed; `init`'s next `fork` takes
that slot, and the child starts out killed. -/
theorem kill_zero_kills_unborn :
    (∀ q, ((init 1 2).proc q).state ≠ .unused → ((init 1 2).proc q).pid ≠ 0) ∧
    ∃ s, (init 1 2).killCall 0 = (s, 0) ∧ (s.proc ⟨1, by decide⟩).state = .unused ∧
      ∃ s', Outcome.run step s
          [.sched ⟨0, by decide⟩ initproc, .fork ⟨0, by decide⟩ (some 3) (some 4) true] =
          some (.ok s') ∧
        (s'.proc ⟨1, by decide⟩).state = .used ∧ (s'.proc ⟨1, by decide⟩).killed = true := by
  refine ⟨fun q hq => ?_, ?_⟩
  · rw [init_proc] at hq ⊢
    split_ifs at hq ⊢
    · decide
    · exact absurd rfl hq
  -- the call and the run are computed once, by the kernel
  have h : (match (init 1 2).killCall 0 with
      | (s, r) => r == 0 && (s.proc ⟨1, by decide⟩).state == .unused &&
          Outcome.holds (fun s' => (s'.proc ⟨1, by decide⟩).state == .used &&
              (s'.proc ⟨1, by decide⟩).killed)
            (Outcome.run step s
              [.sched ⟨0, by decide⟩ initproc, .fork ⟨0, by decide⟩ (some 3) (some 4) true])) =
        true := by
    decide +kernel
  generalize (init 1 2).killCall 0 = k at h
  obtain ⟨s, r⟩ := k
  simp only [Bool.and_eq_true, beq_iff_eq] at h
  obtain ⟨⟨rfl, hu⟩, hrun⟩ := h
  obtain ⟨s', hs', hp⟩ := Outcome.exists_of_holds hrun
  simp only [Bool.and_eq_true, beq_iff_eq] at hp
  exact ⟨s, rfl, hu, s', hs', hp.1, hp.2⟩

/-! ## `nextpid` -/

section Pids

variable {s : Ptable} {c : Fin NCPU} {p : Fin NPROC}

theorem set_of_eq {q : Fin NPROC} {x : Proc} (h : s.proc q = x) : s.set q x = s := by
  simp [set, ← h]

/-- A `fork` whose `allocproc` gets no page for the trapframe, in a table with a free slot
whose free slots are all zeroed: the slot taken is zeroed again, and only `nextpid` moved. -/
theorem fork_noTrapframe (hfree : ∃ q, (s.proc q).state = .unused)
    (hzero : ∀ q, (s.proc q).state = .unused → s.proc q = Proc.zero) (pt : Option Nat)
    (copyOk : Bool) : s.fork p none pt copyOk = { s with nextpid := s.nextpid + 1, nextserial := s.nextserial + 1 } := by
  rcases fork_cases s p none pt copyOk with ⟨-, hno⟩ | ⟨np, hnp, h | h | ⟨a, b, ha, -⟩⟩
  · obtain ⟨q, hq⟩ := hfree
    exact absurd hq (hno q)
  · rw [h]
    apply set_of_eq
    show s.proc np = freeproc (s.proc np)
    rw [hzero np hnp]
    rfl
  · rw [h]
    apply set_of_eq
    show s.proc np = { freeproc (s.proc np) with kpc := .idle }
    rw [hzero np hnp]
    rfl
  · cases ha

theorem step_fork_noTrapframe (hc : s.cpu c = some p) (hk : (s.proc p).kpc = .idle)
    (hfree : ∃ q, (s.proc q).state = .unused)
    (hzero : ∀ q, (s.proc q).state = .unused → s.proc q = Proc.zero) (pt : Option Nat)
    (copyOk : Bool) :
    s.step (.fork c none pt copyOk) = some (.ok { s with nextpid := s.nextpid + 1, nextserial := s.nextserial + 1 }) := by
  simp only [step, idleOn, hc, Option.bind_some, hk, if_true]
  rw [fork_noTrapframe hfree hzero]

theorem fork_of_find {np : Fin NPROC}
    (hf : (List.finRange NPROC).find? (fun q => (s.proc q).state = .unused) = some np)
    (a b : Nat) :
    s.fork p (some a) (some b) true =
      let s1 := { s with nextpid := s.nextpid + 1, nextserial := s.nextserial + 1 }.set np
        { s.proc np with pid := s.nextpid, state := .used, serial := s.nextserial,
                         trapframe := some a, pagetable := some b, kpc := .idle }
      s1.set p { s1.proc p with kpc := .forkParent np } := by
  simp [fork, allocproc, hf]

/-- `k` such `fork`s in a row: each takes a pid, so `nextpid` moves on by `k`, as an `int`. -/
theorem run_forks_noTrapframe (hc : s.cpu c = some p) (hk : (s.proc p).kpc = .idle)
    (hfree : ∃ q, (s.proc q).state = .unused)
    (hzero : ∀ q, (s.proc q).state = .unused → s.proc q = Proc.zero) (pt : Option Nat)
    (copyOk : Bool) (k : Nat) :
    Outcome.run step s (List.replicate k (.fork c none pt copyOk)) =
      some (.ok { s with nextpid := s.nextpid + Int32.ofNat k, nextserial := s.nextserial + k }) := by
  induction k generalizing s with
  | zero => simp
  | succ k ih =>
    rw [List.replicate_succ, Outcome.run, step_fork_noTrapframe hc hk hfree hzero]
    dsimp only
    rw [ih (s := { s with nextpid := s.nextpid + 1, nextserial := s.nextserial + 1 }) hc hk hfree
      hzero]
    congr 3
    · rw [Int32.ofNat_add, Int32.add_assoc, Int32.add_comm 1]
      rfl
    · show s.nextserial + 1 + k = s.nextserial + (k + 1)
      omega

/-- After `userinit`, the scheduler and `k` `fork`s of `init` that find no page, `init`'s next
`fork` gives its child the serial `2 + k`, and that count as its pid. -/
theorem child_pid_after_forks (k : Nat) :
    ∃ as s q, Outcome.run step (init 1 2) as = some (.ok s) ∧ q ≠ initproc ∧
      (s.proc initproc).state = .running ∧ (s.proc initproc).pid = 1 ∧
      (s.proc initproc).serial = 1 ∧ (s.proc q).state = .used ∧ (s.proc q).serial = 2 + k ∧
      (s.proc q).pid = Int32.ofNat (2 + k) := by
  let c0 : Fin NCPU := ⟨0, by decide⟩
  let one : Fin NPROC := ⟨1, by decide⟩
  let s0 := (init 1 2).scheduler c0 initproc
  have h0 : (init 1 2).step (.sched c0 initproc) = some (.ok s0) := by
    simp only [step]
    rw [if_pos (by decide)]
  have hproc : ∀ q, q ≠ initproc → s0.proc q = Proc.zero := by
    intro q hq
    simp [s0, scheduler, hq, init_proc]
  have hzero : ∀ q, (s0.proc q).state = .unused → s0.proc q = Proc.zero := by
    intro q hu
    by_cases hq : q = initproc
    · subst hq
      exact absurd hu (by decide)
    · exact hproc q hq
  have hfree : ∃ q, (s0.proc q).state = .unused :=
    ⟨one, by rw [hproc one (by decide)]; rfl⟩
  have hfails := run_forks_noTrapframe (p := initproc) (show s0.cpu c0 = some initproc by decide)
    (by decide) hfree hzero none true k
  let s1 := { s0 with nextpid := s0.nextpid + Int32.ofNat k, nextserial := s0.nextserial + k }
  have hfind : (List.finRange NPROC).find? (fun q => (s1.proc q).state = .unused) = some one :=
    (by decide : (List.finRange NPROC).find? (fun q => (s0.proc q).state = .unused) = some one)
  refine ⟨.sched c0 initproc :: List.replicate k (.fork c0 none none true) ++
    [.fork c0 (some 3) (some 4) true], s1.fork initproc (some 3) (some 4) true, one, ?_,
    by decide, ?_⟩
  · rw [List.cons_append, Outcome.run, h0]
    dsimp only
    rw [Outcome.run_append hfails]
    simp only [Outcome.run, step, idleOn]
    rw [(by decide : s0.cpu c0 = some initproc), Option.bind_some,
      if_pos (by decide : (s0.proc initproc).kpc = .idle)]
  · -- the child is slot `1`, `init` stays in slot `0`
    have hne : one ≠ initproc := by decide
    have hinit : s0.proc initproc =
        ⟨.running, none, false, 0, 1, none, some 1, some 2, .idle, 1⟩ := by
      decide
    have hnext : s0.nextpid = 2 := by decide
    have hserial : s0.nextserial = 2 := by decide
    rw [fork_of_find hfind]
    simp only [set_proc, Function.update_self, Function.update_of_ne hne,
      Function.update_of_ne hne.symm]
    refine ⟨?_, ?_, ?_, trivial, ?_, ?_⟩
    · show (s0.proc initproc).state = .running
      rw [hinit]
    · show (s0.proc initproc).pid = 1
      rw [hinit]
    · show (s0.proc initproc).serial = 1
      rw [hinit]
    · show s0.nextserial + k = 2 + k
      rw [hserial]
    · show s0.nextpid + Int32.ofNat k = Int32.ofNat (2 + k)
      rw [hnext, Int32.ofNat_add]
      rfl

/-- `nextpid` is an `int`, and `p->pid` too.  The `2^31`st allocation after `userinit`'s
gives a negative pid; the `2^32`nd gives `init`'s pid again, to a child alive with `init`
(their serials, `2^32 + 1` and `1`, differ). -/
theorem pid_wraps :
    (∃ as s q, Outcome.run step (init 1 2) as = some (.ok s) ∧ (s.proc q).state ≠ .unused ∧
      (s.proc q).pid < 0) ∧
    ∃ as s q, Outcome.run step (init 1 2) as = some (.ok s) ∧ q ≠ initproc ∧
      (s.proc q).state ≠ .unused ∧ (s.proc initproc).state ≠ .unused ∧
      (s.proc q).serial = 2 ^ 32 + 1 ∧ (s.proc initproc).serial = 1 ∧
      (s.proc q).pid = (s.proc initproc).pid := by
  constructor
  · obtain ⟨as, s, q, hrun, -, -, -, -, hu, -, hpid⟩ := child_pid_after_forks (2 ^ 31 - 2)
    exact ⟨as, s, q, hrun, by rw [hu]; decide, by rw [hpid]; decide⟩
  · obtain ⟨as, s, q, hrun, hq, hi, hi1, hs1, hu, hs, hpid⟩ := child_pid_after_forks (2 ^ 32 - 1)
    refine ⟨as, s, q, hrun, hq, by rw [hu]; decide, by rw [hi]; decide, ?_, hs1, ?_⟩
    · rw [hs]
      norm_num
    · rw [hpid, hi1]
      decide

end Pids

end Ptable

end Xv6
