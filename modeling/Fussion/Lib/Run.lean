import Mathlib.Control.Lawful
import Mathlib.Data.List.Basic
import Mathlib.Data.List.Range

/-!
# Computations that log, fault and diverge

`Run L E A` is a computation that logs entries of type `L` as it goes and then either returns
a value of type `A`, stops on a fault of type `E`, or never stops.  The log is kept whatever
the ending is, so that a property of "every call made" can be stated of a computation that
does not return.

Loops are built on it.  `Run.upTo n body` is the counted loop
`for (int i = 0; i < n; ++i)`; its rules (`upTo_eq_ret`, `upTo_eq_pure`, `upTo_eq_fault`) take
the state in front of every iteration as a function of the index.  `whileLoop` is the
unbounded loop; it is a least fixed point, so a loop that is never left is `none`, and
`whileLoop_eq_some_iff` and `whileLoop_eq_none_iff` say which starts are left and where.
`Run.whileDo` is the unbounded loop of a body that can fault, with a rule for total correctness
(`Run.whileDo_total`).
-/

universe u

namespace Fussion

/-- How a computation ends. -/
inductive Outcome (E A : Type u) : Type u
  | /-- It returned a value. -/ ok (a : A)
  | /-- It stopped on a fault. -/ fault (f : E)
  | /-- It never stops. -/ diverge
deriving DecidableEq, Repr

/-- A computation: what it logged, and how it ended. -/
@[ext]
structure Run (L E A : Type u) : Type u where
  /-- The entries logged, oldest first. -/
  log : List L
  /-- The ending. -/
  out : Outcome E A
deriving DecidableEq, Repr

namespace Run

variable {L E A B S : Type u}

/-- Return `a` after logging `l`. -/
def ret (l : List L) (a : A) : Run L E A := ⟨l, .ok a⟩

/-- Stop on the fault `f`. -/
def fault (f : E) : Run L E A := ⟨[], .fault f⟩

/-- Log one entry. -/
def tell (x : L) : Run L E PUnit := ⟨[x], .ok ⟨⟩⟩

/-- Put `l` in front of what `x` logs. -/
def after (l : List L) (x : Run L E A) : Run L E A := ⟨l ++ x.log, x.out⟩

/-- A value that may be missing because its computation does not end. -/
def ofOption : Option A → Run L E A
  | some a => ⟨[], .ok a⟩
  | none => ⟨[], .diverge⟩

/-- `bind` keeps the log of a first stage that does not return. -/
instance instMonad : Monad (Run L E) where
  pure a := ⟨[], .ok a⟩
  bind x k := match x.out with
    | .ok a => after x.log (k a)
    | .fault f => ⟨x.log, .fault f⟩
    | .diverge => ⟨x.log, .diverge⟩

@[simp] theorem ret_nil (a : A) : (ret [] a : Run L E A) = pure a := rfl

@[simp] theorem ofOption_some (a : A) : (ofOption (some a) : Run L E A) = pure a := rfl

@[simp] theorem out_pure (a : A) : (pure a : Run L E A).out = .ok a := rfl

@[simp] theorem pure_inj {a b : A} : (pure a : Run L E A) = pure b ↔ a = b :=
  ⟨fun h ↦ Outcome.ok.inj (congrArg out h), fun h ↦ h ▸ rfl⟩

/-- What can be read back was written injectively. -/
theorem injective_of_eq_pure {T : Type*} {write : A → T} {read : T → Run L E A}
    (h : ∀ a, read (write a) = pure a) : Function.Injective write := by
  intro a b hab
  have hread := h a
  rw [hab, h b, pure_inj] at hread
  exact hread.symm

@[simp] theorem log_pure (a : A) : (pure a : Run L E A).log = [] := rfl

@[simp] theorem out_ret (l : List L) (a : A) : (ret l a : Run L E A).out = .ok a := rfl

@[simp] theorem log_ret (l : List L) (a : A) : (ret l a : Run L E A).log = l := rfl

@[simp] theorem out_fault (f : E) : (fault f : Run L E A).out = .fault f := rfl

@[simp] theorem after_ret (l m : List L) (a : A) :
    after l (ret m a : Run L E A) = ret (l ++ m) a := rfl

@[simp] theorem after_pure (l : List L) (a : A) :
    after l (pure a : Run L E A) = ret l a := by
  simp only [after, log_pure, out_pure, List.append_nil]; rfl

/-- A stage that returns hands its value on, and its log stands in front. -/
@[simp] theorem ret_bind (l : List L) (a : A) (k : A → Run L E B) :
    (ret l a >>= k) = after l (k a) := rfl

/-- Nothing runs after a fault. -/
@[simp] theorem fault_bind (f : E) (k : A → Run L E B) :
    (fault f >>= k) = fault f := rfl

@[simp] theorem tell_bind (x : L) (k : PUnit → Run L E B) :
    (tell x >>= k) = after [x] (k ⟨⟩) := rfl

@[simp] theorem after_bind (l : List L) (x : Run L E A) (k : A → Run L E B) :
    (after l x >>= k) = after l (x >>= k) := by
  obtain ⟨m, out⟩ := x
  cases out with
  | ok a => simp only [after, Bind.bind, List.append_assoc]
  | fault f => rfl
  | diverge => rfl

/-- `Run` is a lawful monad: the logs are appended, and a computation that does not return
absorbs what follows it. -/
instance instLawfulMonad : LawfulMonad (Run L E) := LawfulMonad.mk' _
  (by
    intro A x
    obtain ⟨l, out⟩ := x
    cases out with
    | ok a => exact after_pure l a
    | fault f => rfl
    | diverge => rfl)
  (fun _ _ ↦ rfl)
  (by
    intro A B C x f g
    obtain ⟨l, out⟩ := x
    cases out with
    | ok a => exact after_bind l (f a) g
    | fault f => rfl
    | diverge => rfl)

/-- A computation that returned did so after logging its log. -/
theorem eq_ret_of_out {x : Run L E A} {a : A} (h : x.out = .ok a) : x = ret x.log a := by
  obtain ⟨l, out⟩ := x
  cases h
  rfl

/-- A first stage known to return `a` can be passed over. -/
theorem bind_of_eq_ret {x : Run L E A} {l : List L} {a : A} (h : x = ret l a)
    (k : A → Run L E B) : (x >>= k) = after l (k a) := by
  rw [h, ret_bind]

/-- A first stage known to return `a` and to log nothing can be passed over. -/
theorem bind_of_eq_pure {x : Run L E A} {a : A} (h : x = pure a) (k : A → Run L E B) :
    (x >>= k) = k a := by
  rw [h, pure_bind]

/-- A bind returns exactly when both of its stages do. -/
theorem out_bind_eq_ok {x : Run L E A} {k : A → Run L E B} {b : B} :
    (x >>= k).out = .ok b ↔ ∃ a, x.out = .ok a ∧ (k a).out = .ok b := by
  obtain ⟨l, out⟩ := x
  cases out with
  | ok a =>
      constructor
      · exact fun h ↦ ⟨a, rfl, h⟩
      · rintro ⟨a', ha, h⟩
        cases ha
        exact h
  | fault f => simp [Bind.bind]
  | diverge => simp [Bind.bind]

/-- Which fault a bind stops on: that of its first stage, or that of the second at a value the
first returned. -/
theorem out_bind_eq_fault {x : Run L E A} {k : A → Run L E B} {f : E} :
    (x >>= k).out = .fault f ↔
      x.out = .fault f ∨ ∃ a, x.out = .ok a ∧ (k a).out = .fault f := by
  obtain ⟨l, out⟩ := x
  cases out with
  | ok a =>
      constructor
      · exact fun h ↦ .inr ⟨a, rfl, h⟩
      · rintro (h | ⟨a', ha, h⟩)
        · cases h
        · cases ha
          exact h
  | fault g => simp [Bind.bind]
  | diverge => simp [Bind.bind]

theorem out_bind_of_ok {x : Run L E A} {a : A} (h : x.out = .ok a) (k : A → Run L E B) :
    (x >>= k).out = (k a).out := by
  rw [eq_ret_of_out h]
  rfl

theorem out_bind_of_fault {x : Run L E A} {f : E} (h : x.out = .fault f) (k : A → Run L E B) :
    (x >>= k).out = .fault f := out_bind_eq_fault.mpr (.inl h)

theorem out_bind_of_diverge {x : Run L E A} (h : x.out = .diverge) (k : A → Run L E B) :
    (x >>= k).out = .diverge := by
  obtain ⟨l, out⟩ := x
  cases h
  rfl

/-- How a bind ends depends on its second stage at the values that the first returns. -/
theorem out_bind_congr {x : Run L E A} {k k' : A → Run L E B}
    (h : ∀ a, x.out = .ok a → (k a).out = (k' a).out) : (x >>= k).out = (x >>= k').out := by
  obtain ⟨l, out⟩ := x
  cases out with
  | ok a => exact h a rfl
  | fault f => rfl
  | diverge => rfl

/-- Two stages that both return and log nothing. -/
theorem exists_bind_eq_pure {x : Run L E A} {k : A → Run L E B} (hx : ∃ a, x = pure a)
    (hk : ∀ a, ∃ b, k a = pure b) : ∃ b, x >>= k = pure b := by
  obtain ⟨a, rfl⟩ := hx
  obtain ⟨b, hb⟩ := hk a
  exact ⟨b, by rw [pure_bind, hb]⟩

/-! ## Computations that fault -/

/-- The computation stops on a fault. -/
def Faults (x : Run L E A) : Prop := ∃ f, x.out = .fault f

theorem not_faults_of_ok {x : Run L E A} {a : A} (h : x.out = .ok a) : ¬ x.Faults := by
  rintro ⟨f, hf⟩
  cases h.symm.trans hf

theorem not_faults_pure (a : A) : ¬ (pure a : Run L E A).Faults := not_faults_of_ok (out_pure a)

theorem not_faults_of_eq_pure {x : Run L E A} (h : ∃ a, x = pure a) : ¬ x.Faults := by
  obtain ⟨a, rfl⟩ := h
  exact not_faults_pure a

theorem not_faults_of_diverge {x : Run L E A} (h : x.out = .diverge) : ¬ x.Faults := by
  rintro ⟨f, hf⟩
  cases h.symm.trans hf

theorem faults_bind_of_ok {x : Run L E A} {a : A} (h : x.out = .ok a) {k : A → Run L E B} :
    (x >>= k).Faults ↔ (k a).Faults := by
  rw [Faults, Faults, out_bind_of_ok h]

theorem Faults.bind {x : Run L E A} (h : x.Faults) (k : A → Run L E B) : (x >>= k).Faults := by
  obtain ⟨f, hf⟩ := h
  exact ⟨f, out_bind_of_fault hf k⟩

/-- What is done with a result cannot fault if it is only stored. -/
theorem faults_bind_pure {x : Run L E A} {g : A → B} :
    (x >>= fun a ↦ pure (g a)).Faults ↔ x.Faults := by
  refine ⟨?_, fun h ↦ h.bind _⟩
  rintro ⟨f, hf⟩
  rcases out_bind_eq_fault.mp hf with hf | ⟨a, -, hf⟩
  · exact ⟨f, hf⟩
  · exact absurd ⟨f, hf⟩ (not_faults_pure _)

/-! ## Counted loops -/

/-- `for (int i = 0; i < n; ++i) s = body(i, s)`. -/
def upTo : ℕ → (ℕ → S → Run L E S) → S → Run L E S
  | 0, _, s => pure s
  | n + 1, body, s => upTo n body s >>= body n

@[simp] theorem upTo_zero (body : ℕ → S → Run L E S) (s : S) : upTo 0 body s = pure s := rfl

theorem upTo_succ (n : ℕ) (body : ℕ → S → Run L E S) (s : S) :
    upTo (n + 1) body s = upTo n body s >>= body n := rfl

/-- A loop whose iterations all return: `st i` is the state in front of iteration `i`, and
`logs i` what that iteration logs. -/
theorem upTo_eq_ret {n : ℕ} {body : ℕ → S → Run L E S} {s : S} (st : ℕ → S) (logs : ℕ → List L)
    (h₀ : st 0 = s) (h : ∀ i < n, body i (st i) = ret (logs i) (st (i + 1))) :
    upTo n body s = ret ((List.range n).flatMap logs) (st n) := by
  subst h₀
  induction n with
  | zero => rfl
  | succ n ih =>
      rw [upTo_succ, ih fun i hi ↦ h i (Nat.lt_succ_of_lt hi), ret_bind, h n n.lt_succ_self,
        after_ret, List.range_succ, List.flatMap_append, List.flatMap_singleton]

/-- The value of a loop, when the iterations return but may record something. -/
theorem upTo_out {n : ℕ} {body : ℕ → S → Run L E S} {s : S} (st : ℕ → S) (h₀ : st 0 = s)
    (h : ∀ i < n, (body i (st i)).out = .ok (st (i + 1))) : (upTo n body s).out = .ok (st n) := by
  rw [upTo_eq_ret st (fun i ↦ (body i (st i)).log) h₀ fun i hi ↦ eq_ret_of_out (h i hi), out_ret]

/-- A loop that returns has run through the states in front of its iterations. -/
theorem exists_of_upTo_out {n : ℕ} {body : ℕ → S → Run L E S} {s r : S}
    (h : (upTo n body s).out = .ok r) :
    ∃ st : ℕ → S, st 0 = s ∧ st n = r ∧ ∀ i < n, (body i (st i)).out = .ok (st (i + 1)) := by
  induction n generalizing r with
  | zero =>
      cases h
      exact ⟨fun _ ↦ s, rfl, rfl, fun i hi ↦ absurd hi i.not_lt_zero⟩
  | succ n ih =>
      obtain ⟨a, ha, hr⟩ := out_bind_eq_ok.mp h
      obtain ⟨st, h₀, hn, hst⟩ := ih ha
      refine ⟨fun i ↦ if i ≤ n then st i else r, (if_pos (Nat.zero_le n)).trans h₀,
        if_neg (Nat.not_succ_le_self n), fun i hi ↦ ?_⟩
      simp only [if_pos (Nat.le_of_lt_succ hi)]
      rcases Nat.lt_succ_iff_lt_or_eq.mp hi with hi | rfl
      · rw [if_pos (Nat.succ_le_of_lt hi), hst i hi]
      · rw [if_neg (Nat.not_succ_le_self i), hn, hr]

/-- What an iteration that returns says of its counter holds of every counter of a loop that
returns. -/
theorem forall_of_upTo_out {n : ℕ} {body : ℕ → S → Run L E S} {s r : S} {p : ℕ → Prop}
    (hbody : ∀ i s s', (body i s).out = .ok s' → p i) (h : (upTo n body s).out = .ok r) :
    ∀ i < n, p i := by
  obtain ⟨st, -, -, hst⟩ := exists_of_upTo_out h
  exact fun i hi ↦ hbody i _ _ (hst i hi)

/-- A loop whose iterations all return and log nothing. -/
theorem upTo_eq_pure {n : ℕ} {body : ℕ → S → Run L E S} {s : S} (st : ℕ → S) (h₀ : st 0 = s)
    (h : ∀ i < n, body i (st i) = pure (st (i + 1))) : upTo n body s = pure (st n) := by
  have hlog : (List.range n).flatMap (fun _ ↦ ([] : List L)) = [] :=
    List.flatMap_eq_nil_iff.mpr fun _ _ ↦ rfl
  rw [upTo_eq_ret st (fun _ ↦ []) h₀ h, hlog, ret_nil]

/-- A loop whose iterations return from every state. -/
theorem exists_upTo_eq_pure {n : ℕ} {body : ℕ → S → Run L E S}
    (h : ∀ i < n, ∀ s, ∃ s', body i s = pure s') (s : S) : ∃ s', upTo n body s = pure s' := by
  induction n with
  | zero => exact ⟨s, rfl⟩
  | succ n ih =>
      obtain ⟨r, hr⟩ := ih fun i hi ↦ h i (Nat.lt_succ_of_lt hi)
      obtain ⟨r', hr'⟩ := h n n.lt_succ_self r
      exact ⟨r', by rw [upTo_succ, hr, pure_bind, hr']⟩

/-- A loop that reaches iteration `k` and faults there. -/
theorem upTo_eq_fault {n k : ℕ} {body : ℕ → S → Run L E S} {f : E} (hk : k < n)
    (h : ∀ i < k, ∀ s, ∃ s', body i s = pure s') (hf : ∀ s, body k s = fault f) (s : S) :
    upTo n body s = fault f := by
  have hreach : ∀ j ≤ k, ∃ s', upTo j body s = pure s' := by
    intro j hj
    induction j with
    | zero => exact ⟨s, rfl⟩
    | succ j ih =>
        obtain ⟨s', hs'⟩ := ih (Nat.le_of_succ_le hj)
        obtain ⟨s'', hs''⟩ := h j hj s'
        exact ⟨s'', by rw [upTo_succ, hs', pure_bind, hs'']⟩
  induction n with
  | zero => exact absurd hk k.not_lt_zero
  | succ n ih =>
      rw [upTo_succ]
      rcases Nat.lt_succ_iff_lt_or_eq.mp hk with hlt | rfl
      · rw [ih hlt, fault_bind]
      · obtain ⟨s', hs'⟩ := hreach k le_rfl
        rw [hs', pure_bind, hf]

/-- The same for iterations that may record something. -/
theorem upTo_out_fault {n k : ℕ} {body : ℕ → S → Run L E S} {f : E} (hk : k < n)
    (h : ∀ i < k, ∀ s, ∃ s', (body i s).out = .ok s') (hf : ∀ s, (body k s).out = .fault f)
    (s : S) : (upTo n body s).out = .fault f := by
  have hreach : ∀ j ≤ k, ∃ s', (upTo j body s).out = .ok s' := by
    intro j hj
    induction j with
    | zero => exact ⟨s, rfl⟩
    | succ j ih =>
        obtain ⟨s', hs'⟩ := ih (Nat.le_of_succ_le hj)
        obtain ⟨s'', hs''⟩ := h j hj s'
        exact ⟨s'', out_bind_eq_ok.mpr ⟨s', hs', hs''⟩⟩
  induction n with
  | zero => exact absurd hk k.not_lt_zero
  | succ n ih =>
      rcases Nat.lt_succ_iff_lt_or_eq.mp hk with hlt | rfl
      · exact out_bind_eq_fault.mpr (.inl (ih hlt))
      · obtain ⟨s', hs'⟩ := hreach k le_rfl
        exact out_bind_eq_fault.mpr (.inr ⟨s', hs', hf s'⟩)

/-- A loop depends on the iterations that it makes. -/
theorem upTo_congr {n : ℕ} {body body' : ℕ → S → Run L E S} (h : ∀ i < n, body i = body' i)
    (s : S) : upTo n body s = upTo n body' s := by
  induction n with
  | zero => rfl
  | succ n ih =>
      rw [upTo_succ, upTo_succ, ih fun i hi ↦ h i (Nat.lt_succ_of_lt hi), h n n.lt_succ_self]

/-- Two loops run side by side: a translation that the iterations respect is respected at the
end. -/
theorem upTo_out_map {n : ℕ} {body body' : ℕ → S → Run L E S} (f : S → S)
    (hstep : ∀ i < n, ∀ s s₁, (body i s).out = .ok s₁ → (body' i (f s)).out = .ok (f s₁)) {s r : S}
    (hr : (upTo n body s).out = .ok r) : (upTo n body' (f s)).out = .ok (f r) := by
  induction n generalizing r with
  | zero =>
      cases hr
      rfl
  | succ n ih =>
      rw [upTo_succ, out_bind_eq_ok] at hr ⊢
      obtain ⟨m, hm, hr⟩ := hr
      exact ⟨f m, ih (fun i hi ↦ hstep i (Nat.lt_succ_of_lt hi)) hm,
        hstep n n.lt_succ_self m r hr⟩

/-- A loop that appends one element per iteration. -/
theorem upTo_push {n : ℕ} {body : ℕ → List A → Run L E (List A)} (g : ℕ → A)
    (logs : ℕ → List L) (h : ∀ i < n, ∀ acc, body i acc = ret (logs i) (acc ++ [g i])) :
    upTo n body [] = ret ((List.range n).flatMap logs) ((List.range n).map g) := by
  refine upTo_eq_ret (fun i ↦ (List.range i).map g) logs rfl fun i hi ↦ ?_
  rw [h i hi, List.range_succ, List.map_append, List.map_singleton]

/-- A loop that appends one element per iteration and logs nothing. -/
theorem upTo_push_pure {n : ℕ} {body : ℕ → List A → Run L E (List A)} (g : ℕ → A)
    (h : ∀ i < n, ∀ acc, body i acc = pure (acc ++ [g i])) :
    upTo n body [] = pure ((List.range n).map g) := by
  refine upTo_eq_pure (fun i ↦ (List.range i).map g) rfl fun i hi ↦ ?_
  rw [h i hi, List.range_succ, List.map_append, List.map_singleton]

/-- A traversal of a mapped list whose calls all return and log nothing. -/
theorem mapM_map_eq_pure {C : Type u} {w : A → B} {f : B → Run L E C} {g : A → C} {l : List A}
    (h : ∀ a ∈ l, f (w a) = pure (g a)) : (l.map w).mapM f = pure (l.map g) := by
  induction l with
  | nil => rfl
  | cons a l ih =>
      rw [List.map_cons, List.mapM_cons, h a List.mem_cons_self, pure_bind,
        ih fun b hb ↦ h b (List.mem_cons_of_mem a hb), pure_bind, List.map_cons]

/-! ## Subscripts -/

/-- `v[i]`, on the fault `f` when `i` is negative or past the end. -/
def index (f : E) (v : List A) : ℤ → Run L E A
  | .ofNat i => match v[i]? with
    | some a => pure a
    | none => fault f
  | .negSucc _ => fault f

theorem index_of_getElem? {f : E} {v : List A} {i : ℕ} {a : A} (h : v[i]? = some a) :
    (index f v i : Run L E A) = pure a := by
  simp only [index, h]

@[simp] theorem index_natCast {f : E} {v : List A} {i : ℕ} (h : i < v.length) :
    (index f v i : Run L E A) = pure v[i] :=
  index_of_getElem? (List.getElem?_eq_getElem h)

theorem index_of_le {f : E} {v : List A} {i : ℕ} (h : v.length ≤ i) :
    (index f v i : Run L E A) = fault f := by
  simp only [index, List.getElem?_eq_none h]

/-- A subscript that returns is inside the vector. -/
theorem lt_length_of_index_out {f : E} {v : List A} {i : ℕ} {a : A}
    (h : (index f v i : Run L E A).out = .ok a) : i < v.length := by
  by_contra hlt
  rw [index_of_le (not_lt.mp hlt)] at h
  cases h

theorem lt_length_of_index_bind_out {f : E} {v : List A} {i : ℕ} {k : A → Run L E B} {b : B}
    (h : (index f v i >>= k).out = .ok b) : i < v.length := by
  obtain ⟨a, ha, -⟩ := out_bind_eq_ok.mp h
  exact lt_length_of_index_out ha

/-- A subscript into a mapped vector. -/
theorem out_index_map {f : E} {v : List A} {i : ℤ} {a : A} (g : A → B)
    (h : (index f v i : Run L E A).out = .ok a) :
    (index f (v.map g) i : Run L E B).out = .ok (g a) := by
  cases i with
  | ofNat i =>
      simp only [index, List.getElem?_map] at h ⊢
      cases hi : v[i]? with
      | none => rw [hi] at h; cases h
      | some x =>
          rw [hi] at h
          cases h
          rfl
  | negSucc i => cases h

end Run

/-! ## Unbounded loops -/

/-- `while (cond(s)) s = body(s)`, as the least fixed point: `none` when the loop is never
left. -/
def whileLoop {S : Type u} (cond : S → Bool) (body : S → S) (s : S) : Option S :=
  -- `apply` keeps the position of the call in this file out of the term.
  if cond s then by apply whileLoop; exacts [cond, body, body s] else some s
partial_fixpoint

section While

variable {S : Type u} {cond : S → Bool} {body : S → S}

theorem whileLoop_of_false {s : S} (h : cond s = false) : whileLoop cond body s = some s := by
  rw [whileLoop, h]
  rfl

theorem whileLoop_of_true {s : S} (h : cond s = true) :
    whileLoop cond body s = whileLoop cond body (body s) := by
  rw [whileLoop, if_pos h]

/-- A loop whose first `n` tests succeed goes on from the `n`-th state. -/
theorem whileLoop_iterate {s : S} (n : ℕ) (h : ∀ m < n, cond (body^[m] s) = true) :
    whileLoop cond body s = whileLoop cond body (body^[n] s) := by
  induction n with
  | zero => rfl
  | succ n ih =>
      rw [ih fun m hm ↦ h m (Nat.lt_succ_of_lt hm), whileLoop_of_true (h n n.lt_succ_self),
        Function.iterate_succ_apply']

/-- The loop is left at `r` exactly when `r` is the first state that fails the test. -/
theorem whileLoop_eq_some_iff {s r : S} :
    whileLoop cond body s = some r ↔
      ∃ n, r = body^[n] s ∧ cond r = false ∧ ∀ m < n, cond (body^[m] s) = true := by
  constructor
  · -- The graph of the loop is contained in the relation on the right: fixed-point induction.
    refine whileLoop.partial_correctness cond body
      (fun s r ↦ ∃ n, r = body^[n] s ∧ cond r = false ∧ ∀ m < n, cond (body^[m] s) = true) ?_ s r
    intro loop ih s r h
    by_cases hs : cond s = true
    · rw [if_pos hs] at h
      obtain ⟨n, hr, hc, hall⟩ := ih _ _ h
      refine ⟨n + 1, by rw [hr, Function.iterate_succ_apply], hc, ?_⟩
      intro m hm
      cases m with
      | zero => exact hs
      | succ m => rw [Function.iterate_succ_apply]; exact hall m (Nat.lt_of_succ_lt_succ hm)
    · rw [if_neg hs] at h
      cases h
      exact ⟨0, rfl, by simpa using hs, fun m hm ↦ absurd hm (Nat.not_lt_zero m)⟩
  · rintro ⟨n, rfl, hc, hall⟩
    rw [whileLoop_iterate n hall, whileLoop_of_false hc]

/-- The loop is never left exactly when every state it visits passes the test. -/
theorem whileLoop_eq_none_iff {s : S} :
    whileLoop cond body s = none ↔ ∀ n, cond (body^[n] s) = true := by
  constructor
  · intro h n
    -- The first failing test would be an exit.
    induction n using Nat.strong_induction_on with
    | _ n ih =>
        by_contra hn
        have hex : whileLoop cond body s = some (body^[n] s) :=
          whileLoop_eq_some_iff.mpr ⟨n, rfl, by simpa using hn, ih⟩
        rw [h] at hex
        cases hex
  · intro h
    cases hw : whileLoop cond body s with
    | none => rfl
    | some r =>
        obtain ⟨n, rfl, hc, -⟩ := whileLoop_eq_some_iff.mp hw
        rw [h n] at hc
        cases hc

end While

/-! ## Unbounded loops of computations -/

/-- Whether a value was returned that passes the test. -/
def Outcome.passes {E A : Type u} (cond : A → Bool) : Outcome E A → Bool
  | .ok a => cond a
  | _ => false

namespace Run

variable {L E S : Type u} {cond : S → Bool} {body : S → Run L E S}

/-- `while (cond(s)) s = body(s)` for a body that can fault.  Of a loop that is never left no log
is kept. -/
def whileDo (cond : S → Bool) (body : S → Run L E S) (s : S) : Run L E S :=
  (whileLoop (fun r : Run L E S ↦ r.out.passes cond) (· >>= body) (pure s)).getD ⟨[], .diverge⟩

theorem whileDo_of_false {s : S} (h : cond s = false) : whileDo cond body s = pure s := by
  rw [whileDo, whileLoop_of_false, Option.getD_some]
  exact h

theorem whileDo_of_true {s s' : S} (h : cond s = true) (hbody : body s = pure s') :
    whileDo cond body s = whileDo cond body s' := by
  rw [whileDo, whileLoop_of_true, pure_bind, hbody, whileDo]
  exact h

/-- Total correctness: an invariant that every iteration keeps without a fault while a measure
falls.  The loop is left, and the invariant holds there. -/
theorem whileDo_total {I : S → Prop} (μ : S → ℕ)
    (hstep : ∀ s, I s → cond s = true → ∃ s', body s = pure s' ∧ I s' ∧ μ s' < μ s) {s : S}
    (hs : I s) : ∃ s', whileDo cond body s = pure s' ∧ I s' ∧ cond s' = false := by
  induction hn : μ s using Nat.strong_induction_on generalizing s with
  | _ n ih =>
      cases hc : cond s with
      | false => exact ⟨s, whileDo_of_false hc, hs, hc⟩
      | true =>
          obtain ⟨s₁, hbody, hs₁, hlt⟩ := hstep s hs hc
          obtain ⟨s', hloop, hs'⟩ := ih (μ s₁) (hn ▸ hlt) hs₁ rfl
          exact ⟨s', (whileDo_of_true hc hbody).trans hloop, hs'⟩

end Run

end Fussion
