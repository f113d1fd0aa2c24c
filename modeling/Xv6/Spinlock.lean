import Mathlib.Logic.Basic

/-!
# `push_off`, `pop_off` and the `intena` that `sched` keeps

`kernel/spinlock.c` lines 84-110, and the save and restore of `intena` around the `swtch`
of `sched` in `kernel/proc.c`.  `acquire` begins with `push_off` and `release` ends with
`pop_off`, so the locks a kernel thread holds nest as these calls do: `noff` counts them,
and `intena` keeps whether interrupts were on at the outermost `push_off`.

A thread that calls `sched` holds exactly one lock, its `p->lock`, and comes back from
its `swtch` on a CPU (maybe another) whose scheduler has just acquired that lock for it,
holding no other; `sched` then puts back its own `intena`, since it belongs to the thread
and not to the CPU.  Along the calls of one thread, from a point where it holds no lock
with interrupts `e`, every nesting of `push_off`, `pop_off` and `sched` keeps `Inv e`: no
call panics, `noff` is the depth, interrupts are off under a lock, `intena` is `e` under
a lock, and interrupts are `e` again once the last lock is released (`push_off_nesting`).

Read in the order the CPU runs them the nesting is not kept: the scheduler's
`acquire(&p->lock)` is matched by the thread's `release`, and the `intena` that `sched`
puts back between them is the thread's, not the one that `acquire` saw
(`sched_restores_thread_intena`).
-/

namespace Xv6

/-- What `push_off` and `pop_off` keep in `struct cpu`, `noff` and `intena`, with the
interrupt-enable bit of `sstatus` that `intr_get` reads. -/
structure Cpu where
  noff : Int
  intena : Bool
  intr : Bool
  deriving DecidableEq, Repr

/-- `push_off`. -/
def pushOff (c : Cpu) : Cpu :=
  let old := c.intr
  let c := { c with intr := false }
  let c := if c.noff = 0 then { c with intena := old } else c
  { c with noff := c.noff + 1 }

/-- `pop_off`. -/
def popOff (c : Cpu) : Except String Cpu :=
  if c.intr then .error "pop_off - interruptible"
  else if c.noff < 1 then .error "pop_off"
  else
    let c := { c with noff := c.noff - 1 }
    if c.noff = 0 ∧ c.intena then .ok { c with intr := true } else .ok c

/-- `sched` from the CPU `c`, by a thread that holds its `p->lock` or not (`holding`) and
whose `p->state` is `RUNNING` or not: the four checks, the save of `intena`, the `swtch`,
which comes back on the CPU `c'`, and the restore of `intena` there.  Which lock a thread
holds is not tracked, so `holding(&p->lock)` is what the caller says. -/
def sched (holding running : Bool) (c c' : Cpu) : Except String Cpu :=
  if !holding then .error "sched p->lock"
  else if c.noff ≠ 1 then .error "sched locks"
  else if running then .error "sched running"
  else if c.intr then .error "sched interruptible"
  else .ok { c' with intena := c.intena }

/-- The calls of one kernel thread.  `sched sc holding running` is made holding `p->lock` or
not, in state `RUNNING` or not, and comes back on a CPU that was in state `sc` when its
scheduler called `acquire(&p->lock)` for the thread. -/
inductive Call where
  | pushOff
  | popOff
  | sched (sc : Cpu) (holding running : Bool)

/-- One call, from the CPU `c` the thread runs on. -/
def Call.step (c : Cpu) : Call → Except String Cpu
  | .pushOff => .ok (Xv6.pushOff c)
  | .popOff => Xv6.popOff c
  | .sched sc holding running => Xv6.sched holding running c (Xv6.pushOff sc)

/-- The calls `cs` one after another, up to the first panic. -/
def runCalls (c : Cpu) (cs : List Call) : Except String Cpu := cs.foldlM Call.step c

/-- The calls nest from `d` locks held: each `pop_off` matches an earlier `push_off`, and
`sched` is called holding one lock, `p->lock`, out of `RUNNING`, as `yield`, `sleep` and
`exit` call it, and comes back from a scheduler that held none. -/
def Nested : Nat → List Call → Prop
  | _, [] => True
  | d, .pushOff :: cs => Nested (d + 1) cs
  | d, .popOff :: cs => 0 < d ∧ Nested (d - 1) cs
  | d, .sched sc holding running :: cs =>
    d = 1 ∧ holding = true ∧ running = false ∧ sc.noff = 0 ∧ Nested d cs

/-- The locks held after the calls `cs`, from `d`. -/
def depth : Nat → List Call → Nat
  | d, [] => d
  | d, .pushOff :: cs => depth (d + 1) cs
  | d, .popOff :: cs => depth (d - 1) cs
  | d, .sched .. :: cs => depth d cs

/-- A thread that entered its outermost `push_off` with interrupts `e`, on the CPU `c`
with `d` locks held. -/
structure Inv (e : Bool) (d : Nat) (c : Cpu) : Prop where
  noff : c.noff = d
  off : 0 < d → c.intr = false
  intena : 0 < d → c.intena = e
  idle : d = 0 → c.intr = e

variable {e : Bool} {d : Nat} {c : Cpu}

theorem pushOff_eq (c : Cpu) :
    pushOff c = ⟨c.noff + 1, if c.noff = 0 then c.intr else c.intena, false⟩ := by
  unfold pushOff
  by_cases h : c.noff = 0 <;> simp [h]

@[simp] theorem pushOff_noff (c : Cpu) : (pushOff c).noff = c.noff + 1 := by
  rw [pushOff_eq]

@[simp] theorem pushOff_intr (c : Cpu) : (pushOff c).intr = false := by
  rw [pushOff_eq]

theorem pushOff_intena (c : Cpu) : (pushOff c).intena = if c.noff = 0 then c.intr else c.intena := by
  rw [pushOff_eq]

theorem Inv.pushOff (h : Inv e d c) : Inv e (d + 1) (pushOff c) where
  noff := by rw [pushOff_noff, h.noff]; rfl
  off _ := pushOff_intr c
  intena _ := by
    rw [pushOff_intena]
    by_cases hd : d = 0
    · -- the outermost: it saves the interrupts, which are `e` with no lock held
      rw [if_pos (by rw [h.noff, hd]; rfl)]
      exact h.idle hd
    · rw [if_neg (by rw [h.noff]; exact_mod_cast hd)]
      exact h.intena (Nat.pos_of_ne_zero hd)
  idle hd := absurd hd (Nat.succ_ne_zero d)

/-- A `pop_off` under a lock does not panic, and the outermost one turns the interrupts
back to `e`. -/
theorem Inv.popOff (h : Inv e d c) (hd : 0 < d) : ∃ c', popOff c = .ok c' ∧ Inv e (d - 1) c' := by
  have hnoff := h.noff
  unfold Xv6.popOff
  rw [if_neg (by rw [h.off hd]; decide), if_neg (by omega)]
  by_cases hlast : d = 1
  · -- the outermost: interrupts on again exactly if `intena`, which is `e`
    subst hlast
    have hi : c.intena = e := h.intena hd
    cases e
    · rw [if_neg (by simp [hi])]
      exact ⟨_, rfl, ⟨by simp [hnoff], by omega, by omega, fun _ => h.off hd⟩⟩
    · rw [if_pos ⟨by simp [hnoff], hi⟩]
      exact ⟨_, rfl, ⟨by simp [hnoff], by omega, by omega, fun _ => rfl⟩⟩
  · rw [if_neg (by simp only [hnoff]; omega)]
    exact ⟨_, rfl, ⟨by simp only [hnoff]; omega, fun _ => h.off hd,
      fun _ => h.intena hd, by omega⟩⟩

/-- `sched` under one lock, `p->lock`, out of `RUNNING`, does not panic, and comes back
under one lock with the thread's `intena`, on the CPU its scheduler acquired the lock on. -/
theorem Inv.sched (h : Inv e 1 c) {sc : Cpu} (hsc : sc.noff = 0) :
    ∃ c', sched true false c (Xv6.pushOff sc) = .ok c' ∧ Inv e 1 c' := by
  unfold Xv6.sched
  rw [if_neg (by decide), if_neg (by rw [h.noff]; decide), if_neg (by decide),
    if_neg (by rw [h.off Nat.one_pos]; decide)]
  exact ⟨_, rfl, ⟨by simp [hsc], fun _ => pushOff_intr sc, fun _ => h.intena Nat.one_pos,
    by omega⟩⟩

theorem Inv.runCalls (cs : List Call) (h : Inv e d c) (hn : Nested d cs) :
    ∃ c', runCalls c cs = .ok c' ∧ Inv e (depth d cs) c' := by
  induction cs generalizing d c with
  | nil => exact ⟨c, rfl, h⟩
  | cons a cs ih =>
    unfold Xv6.runCalls
    rw [List.foldlM_cons]
    cases a with
    | pushOff => exact ih h.pushOff hn
    | popOff =>
      obtain ⟨c', hc', h'⟩ := h.popOff hn.1
      rw [Call.step, hc']
      exact ih h' hn.2
    | sched sc holding running =>
      obtain ⟨rfl, rfl, rfl, hsc, hn'⟩ := hn
      obtain ⟨c', hc', h'⟩ := h.sched hsc
      rw [Call.step, hc']
      exact ih h' hn'

/-- For every run of `push_off`, `pop_off` and `sched` calls of one thread in which each
`pop_off` matches an earlier `push_off` and `sched` is called holding one lock, `p->lock`,
out of `RUNNING`, from a CPU
with no lock held and interrupts `e`: no call panics; `noff` is the depth reached;
interrupts are off and `intena` is `e` whenever `noff > 0`; and once the outermost
`pop_off` has run the interrupts are `e` again. -/
theorem push_off_nesting (e : Bool) (c : Cpu) (hc : c.noff = 0) (he : c.intr = e)
    (cs : List Call) (hn : Nested 0 cs) :
    ∃ c', runCalls c cs = .ok c' ∧ c'.noff = depth 0 cs ∧
      (0 < c'.noff → c'.intr = false ∧ c'.intena = e) ∧ (c'.noff = 0 → c'.intr = e) := by
  have h0 : Inv e 0 c := ⟨hc, fun h => absurd h (Nat.lt_irrefl 0), fun h => absurd h (Nat.lt_irrefl 0),
    fun _ => he⟩
  obtain ⟨c', hrun, h'⟩ := h0.runCalls cs hn
  refine ⟨c', hrun, h'.noff, fun hpos => ?_, fun hz => ?_⟩
  · have hd : 0 < depth 0 cs := by rw [h'.noff] at hpos; exact_mod_cast hpos
    exact ⟨h'.off hd, h'.intena hd⟩
  · exact h'.idle (by rw [h'.noff] at hz; exact_mod_cast hz)

/-- A thread that took a lock with interrupts off, as `yield` does from `kerneltrap`,
calls `sched`, comes back, and releases the lock: interrupts stay off. -/
theorem push_off_nesting_yield :
    (⟨0, false, false⟩ : Cpu).noff = 0 ∧ (⟨0, false, false⟩ : Cpu).intr = false ∧
    Nested 0 [.pushOff, .sched ⟨0, true, true⟩ true false, .popOff] ∧
    ∃ c', runCalls ⟨0, false, false⟩ [.pushOff, .sched ⟨0, true, true⟩ true false, .popOff] = .ok c' ∧
      c'.noff = depth 0 [.pushOff, .sched ⟨0, true, true⟩ true false, .popOff] ∧
      (0 < c'.noff → c'.intr = false ∧ c'.intena = false) ∧ (c'.noff = 0 → c'.intr = false) := by
  have hn : Nested 0 [.pushOff, .sched ⟨0, true, true⟩ true false, .popOff] := by
    simp [Nested]
  exact ⟨rfl, rfl, hn, push_off_nesting false _ rfl rfl _ hn⟩

/-- In the order the CPU runs them: the scheduler, with interrupts on and no lock,
acquires `p->lock`, whose `push_off` saves `intena = 1`; `p`, which called `sched` holding
that lock taken with interrupts off, comes back and puts its `intena = 0` in place; its
`release` then leaves interrupts off, although the nest began with them on. -/
theorem sched_restores_thread_intena :
    (pushOff ⟨0, true, true⟩).intena = true ∧
    sched true false (pushOff ⟨0, false, false⟩) (pushOff ⟨0, true, true⟩) = .ok ⟨1, false, false⟩ ∧
    popOff ⟨1, false, false⟩ = .ok ⟨0, false, false⟩ :=
  ⟨rfl, rfl, rfl⟩

end Xv6
