import Mathlib.Logic.Basic

/-!
# Programs that panic or jump to an error exit

A C function that may `panic` and may `goto` an error exit is modelled as a computation in
`ExceptT β (Except ε)`: an error of the outer `Except` is a panic with its message, an
error of the inner one a jump to the exit with the state the function leaves there (`β`),
and a value a normal return.  `Spec m P Q` says what holds at each of the two ways out, for
partial correctness and leaving panics aside: `P` of the value returned, `Q` of the state at
the jump.

The rules follow the statements of a `do` block: `pure`, `throw`, `bind`, a call lifted from
`Except ε` that cannot jump (`lift`), `if`, a conditional jump (`guard`), and consequence
(`mono`).  A proof about a body
applies them in the order of its statements, and a callee's `Spec` where it calls one.
-/

namespace Jump

variable {ε β α γ : Type}

/-- What a computation guarantees when it returns (`ret`) and when it jumps (`jump`). -/
structure Spec (m : ExceptT β (Except ε) α) (P : α → Prop) (Q : β → Prop) : Prop where
  ret : ∀ a, m.run = .ok (.ok a) → P a
  jump : ∀ b, m.run = .ok (.error b) → Q b

namespace Spec

variable {m : ExceptT β (Except ε) α} {P P' : α → Prop} {Q Q' : β → Prop}

theorem pure {a : α} (h : P a) : Spec (Pure.pure a : ExceptT β (Except ε) α) P Q where
  ret a' ha := by
    cases ha
    exact h
  jump b hb := by cases hb

theorem throw {b : β} (h : Q b) : Spec (MonadExcept.throw b : ExceptT β (Except ε) α) P Q where
  ret a ha := by cases ha
  jump b' hb := by
    cases hb
    exact h

/-- A statement followed by the rest of the block: what the statement returns satisfies the
rest's precondition, and each way out of either satisfies the block's. -/
theorem bind {f : α → ExceptT β (Except ε) γ} {R : γ → Prop}
    (h : Spec m (fun a => Spec (f a) R Q) Q) : Spec (m >>= f) R Q where
  ret c hc := by
    rw [ExceptT.run_bind] at hc
    cases hm : m.run with
    | error e =>
      rw [hm] at hc
      cases hc
    | ok r =>
      cases r with
      | error b =>
        rw [hm] at hc
        cases hc
      | ok a =>
        rw [hm] at hc
        exact (h.ret a hm).ret c hc
  jump b hb := by
    rw [ExceptT.run_bind] at hb
    cases hm : m.run with
    | error e =>
      rw [hm] at hb
      cases hb
    | ok r =>
      cases r with
      | error b' =>
        rw [hm] at hb
        cases hb
        exact h.jump _ hm
      | ok a =>
        rw [hm] at hb
        exact (h.ret a hm).jump b hb

/-- A call that may panic but cannot jump. -/
theorem lift {e : Except ε α} (h : ∀ a, e = .ok a → P a) :
    Spec (MonadLift.monadLift e : ExceptT β (Except ε) α) P Q where
  ret a ha := by
    cases e with
    | error e' => cases ha
    | ok a' =>
      cases ha
      exact h _ rfl
  jump b hb := by
    cases e with
    | error e' => cases hb
    | ok a' => cases hb

theorem ite {c : Prop} [Decidable c] {m₁ m₂ : ExceptT β (Except ε) α} (h₁ : c → Spec m₁ P Q)
    (h₂ : ¬c → Spec m₂ P Q) : Spec (if c then m₁ else m₂) P Q := by
  by_cases hc : c
  · rw [if_pos hc]
    exact h₁ hc
  · rw [if_neg hc]
    exact h₂ hc

/-- `if (c) goto bad;` and the rest of the block: the jump's state satisfies `Q`, and the rest
runs when `c` fails. -/
theorem guard {δ : Type} {c : Prop} [Decidable c] {b : β} {m : ExceptT β (Except ε) α}
    (hb : c → Q b) (h : ¬c → Spec m P Q) :
    Spec (if c then (MonadExcept.throw b : ExceptT β (Except ε) δ) >>= (fun _ => m) else m) P Q :=
  ite (fun hc => bind (throw (hb hc))) h

theorem mono (h : Spec m P Q) (hP : ∀ a, P a → P' a) (hQ : ∀ b, Q b → Q' b) : Spec m P' Q' :=
  ⟨fun a ha => hP a (h.ret a ha), fun b hb => hQ b (h.jump b hb)⟩

end Spec

end Jump
