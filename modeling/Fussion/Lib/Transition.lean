import Fussion.Lib.Run
import Mathlib.Logic.Relation

/-!
# Transition systems whose actions are computations

An action of a system is a computation in `Run`.  When it returns, its value is the next state;
when it faults, the fault is recorded and the state is left alone otherwise; an action that
diverges leads nowhere.  `Reach` are the states of all runs whose actions are allowed, and
`Reach.invariant` is the rule that proves a property of them from one step.  `Reach.simulates` is
the rule of forward simulation: the runs are followed by those of a simpler system, which answers
every action with any number of steps of its own.
-/

universe u

namespace Fussion

/-- A system with states `S` and actions `A`. -/
structure System (L E S A : Type u) where
  /-- In state `s` the action `a` may be taken, as the given computation. -/
  enabled : S → A → Run L E S → Prop
  /-- The state in which a fault has been recorded. -/
  record : S → E → S

namespace System

variable {L E S A : Type u} (T : System L E S A)

/-- One action. -/
inductive Step (s : S) (a : A) : S → Prop
  | /-- The action returns. -/ ok {x : Run L E S} {s' : S} (enabled : T.enabled s a x)
      (out : x.out = .ok s') : Step s a s'
  | /-- The action faults. -/ fault {x : Run L E S} {f : E} (enabled : T.enabled s a x)
      (out : x.out = .fault f) : Step s a (T.record s f)

/-- The states that allowed actions lead to from `s₀`. -/
def Reach (allowed : S → A → Prop) (s₀ : S) : S → Prop :=
  Relation.ReflTransGen (fun s s' ↦ ∃ a, allowed s a ∧ T.Step s a s') s₀

variable {T} {allowed : S → A → Prop} {s₀ s s' : S}

theorem Reach.refl : T.Reach allowed s₀ s₀ := Relation.ReflTransGen.refl

theorem Reach.step {a : A} (h : T.Reach allowed s₀ s) (hallowed : allowed s a)
    (hstep : T.Step s a s') : T.Reach allowed s₀ s' :=
  Relation.ReflTransGen.tail h ⟨a, hallowed, hstep⟩

theorem Reach.ok {a : A} {x : Run L E S} (h : T.Reach allowed s₀ s) (hallowed : allowed s a)
    (henabled : T.enabled s a x) (hout : x.out = .ok s') : T.Reach allowed s₀ s' :=
  h.step hallowed (.ok henabled hout)

/-- A property that holds at first and that every allowed action keeps, whether it returns or
faults, holds in every state reached. -/
theorem Reach.invariant {I : S → Prop} (h₀ : I s₀)
    (hok : ∀ {s a x s'}, I s → allowed s a → T.enabled s a x → x.out = .ok s' → I s')
    (hfault : ∀ {s a x f}, I s → allowed s a → T.enabled s a x → x.out = .fault f →
      I (T.record s f))
    (h : T.Reach allowed s₀ s) : I s := by
  induction h with
  | refl => exact h₀
  | tail _ hstep ih =>
      obtain ⟨a, hallowed, hstep⟩ := hstep
      cases hstep with
      | ok henabled hout => exact hok ih hallowed henabled hout
      | fault henabled hout => exact hfault ih hallowed henabled hout

theorem Reach.trans {s₁ s₂ : S} (h₁ : T.Reach allowed s₀ s₁) (h₂ : T.Reach allowed s₁ s₂) :
    T.Reach allowed s₀ s₂ := Relation.ReflTransGen.trans h₁ h₂

theorem Reach.mono {allowed' : S → A → Prop} (hallowed : ∀ s a, allowed s a → allowed' s a)
    (h : T.Reach allowed s₀ s) : T.Reach allowed' s₀ s :=
  Relation.ReflTransGen.mono (fun _ _ ⟨a, ha, hstep⟩ ↦ ⟨a, hallowed _ a ha, hstep⟩) _ _ h

/-- Forward simulation up to the relation `R`; a fault is no step of the simpler system. -/
theorem Reach.simulates {B : Type*} {step : B → B → Prop} {R : S → B → Prop} {b₀ : B}
    (h₀ : R s₀ b₀)
    (hok : ∀ {s a x s' b}, Relation.ReflTransGen step b₀ b → R s b → allowed s a →
      T.enabled s a x → x.out = .ok s' → ∃ b', Relation.ReflTransGen step b b' ∧ R s' b')
    (hfault : ∀ {s b} (f : E), R s b → R (T.record s f) b) (h : T.Reach allowed s₀ s) :
    ∃ b, Relation.ReflTransGen step b₀ b ∧ R s b := by
  refine Reach.invariant (I := fun s ↦ ∃ b, Relation.ReflTransGen step b₀ b ∧ R s b)
    ⟨b₀, .refl, h₀⟩ ?_ ?_ h
  · rintro s a x s' ⟨b, hrun, hR⟩ hallowed henabled hout
    obtain ⟨b', hstep, hR'⟩ := hok hrun hR hallowed henabled hout
    exact ⟨b', hrun.trans hstep, hR'⟩
  · rintro s a x f ⟨b, hrun, hR⟩ - - -
    exact ⟨b, hrun, hfault f hR⟩

end System

end Fussion
