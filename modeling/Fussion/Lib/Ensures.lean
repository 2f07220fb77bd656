import Fussion.Lib.Run

/-!
# Postconditions

`Run.Ensures f x P` says of a computation that it does not stop on the fault `f`, and that a value
it returns satisfies `P`; other faults and divergence are left open.  There is one rule for each
way in which a computation is built, and for the counted loop the rule with an invariant.
-/

universe u

namespace Fussion.Run

variable {L E A B S : Type u} {f : E}

/-- `x` does not stop on `f`, and what it returns satisfies `P`. -/
structure Ensures (f : E) (x : Run L E A) (P : A → Prop) : Prop where
  avoids : x.out ≠ .fault f
  post : ∀ {a}, x.out = .ok a → P a

namespace Ensures

variable {x : Run L E A} {P Q : A → Prop}

theorem mono (h : Ensures f x P) (hPQ : ∀ a, P a → Q a) : Ensures f x Q :=
  ⟨h.avoids, fun ha ↦ hPQ _ (h.post ha)⟩

theorem pure {a : A} (h : P a) : Ensures f (pure a : Run L E A) P :=
  ⟨nofun, fun ha ↦ by cases ha; exact h⟩

theorem tell (y : L) : Ensures f (tell y : Run L E PUnit) fun _ ↦ True :=
  ⟨nofun, fun _ ↦ trivial⟩

/-- Another fault. -/
theorem fault {g : E} (h : g ≠ f) : Ensures f (fault g : Run L E A) P :=
  ⟨fun hg ↦ h (Outcome.fault.inj hg), nofun⟩

theorem ofOption (o : Option A) : Ensures f (ofOption o : Run L E A) fun a ↦ o = some a := by
  cases o with
  | none => exact ⟨nofun, nofun⟩
  | some a => exact ⟨nofun, fun ha ↦ by cases ha; rfl⟩

theorem bind {k : A → Run L E B} {R : B → Prop} (hx : Ensures f x P)
    (hk : ∀ a, P a → Ensures f (k a) R) : Ensures f (x >>= k) R := by
  constructor
  · intro h
    rcases out_bind_eq_fault.mp h with h | ⟨a, ha, h⟩
    · exact hx.avoids h
    · exact (hk a (hx.post ha)).avoids h
  · intro b h
    obtain ⟨a, ha, h⟩ := out_bind_eq_ok.mp h
    exact (hk a (hx.post ha)).post h

/-- A loop with the invariant `I i` in front of iteration `i`. -/
theorem upTo {n : ℕ} {body : ℕ → S → Run L E S} {s : S} (I : ℕ → S → Prop) (h₀ : I 0 s)
    (hstep : ∀ i < n, ∀ s, I i s → Ensures f (body i s) (I (i + 1))) :
    Ensures f (upTo n body s) (I n) := by
  induction n with
  | zero => exact pure h₀
  | succ n ih =>
      exact (ih fun i hi ↦ hstep i (Nat.lt_succ_of_lt hi)).bind (hstep n n.lt_succ_self)

/-- A loop that fills a list, one item in each iteration. -/
theorem upTo_push {n : ℕ} {body : ℕ → List A → Run L E (List A)}
    (hstep : ∀ i < n, ∀ l, Ensures f (body i l) fun l' ↦ l'.length = l.length + 1) :
    Ensures f (Run.upTo n body []) fun l ↦ l.length = n :=
  upTo (fun i l ↦ l.length = i) rfl fun i hi l hl ↦
    (hstep i hi l).mono fun _ h ↦ h.trans (congrArg (· + 1) hl)

theorem index {g : E} {v : List A} {i : ℕ} (h : i < v.length) :
    Ensures f (index g v i : Run L E A) fun _ ↦ True := by
  rw [index_natCast h]
  exact pure trivial

end Ensures

end Fussion.Run
