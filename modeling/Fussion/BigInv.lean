import Fussion.Tools
import Mathlib.Data.Nat.Size
import Mathlib.Tactic.LinearCombination

/-!
# Inverses of `BIG`s

`BIG_inv` of `src/Tools/Tools.cpp`: the extended Euclidean algorithm on MIRACL's numbers, with the
cofactors kept modulo `m` while the quotients come from the integers.

A `BIG` is its value.  The operations of MIRACL are exact, as `libsh/miracl/big_B384_58.h` describes
them.  What they do with a zero divisor is not described there, so it is a parameter of the model.
For coprime numbers `BIG_inv` returns the inverse whatever the parameter is (`bigInv_correct`); with
`ZeroDivisor.trap` for it this says that nothing is ever divided or reduced by zero.  For numbers
that are not coprime the loop does run into a zero divisor.  The library in `libs` goes on there,
and `BIG_inv` returns a number that is no inverse (`bigInv_vendored`).
-/

namespace Fussion

/-! ## The operations -/

/-- What the operations do with a zero divisor. -/
structure ZeroDivisor where
  /-- `BIG_mod(x, 0)`. -/
  mod : ℕ → Exec ℕ
  /-- `BIG_sdiv(x, 0)`. -/
  sdiv : ℕ → Exec ℕ

/-- A zero divisor is a fault. -/
def ZeroDivisor.trap : ZeroDivisor where
  mod _ := Run.fault .divideByZero
  sdiv _ := Run.fault .divideByZero

/-- What the library in `libs` computes.  Its loops shift the divisor by the difference of the
lengths and subtract it at every shift at which it is not larger, so that a zero divisor leaves the
number as it is and sets every bit of the quotient. -/
def ZeroDivisor.vendored : ZeroDivisor where
  mod x := pure x
  sdiv x := pure (2 ^ (x.size + 1) - 1)

section Operations

variable (Z : ZeroDivisor)

/-- Reduction modulo `n`. -/
def reduce (x n : ℕ) : Exec ℕ := if n = 0 then Z.mod x else pure (x % n)

/-- `BIG_mod(x, n)`. -/
def bigMod (x n : ℕ) : Exec ℕ := reduce Z x n

/-- `BIG_modmul(x, y, z, n)`. -/
def bigModmul (y z n : ℕ) : Exec ℕ := reduce Z (y * z) n

/-- `BIG_modadd(x, y, z, n)`. -/
def bigModadd (y z n : ℕ) : Exec ℕ := reduce Z (y + z) n

/-- `BIG_modneg(x, y, n)`. -/
def bigModneg (y n : ℕ) : Exec ℕ := reduce Z (n - y % n) n

/-- `BIG_sdiv(x, n)`. -/
def bigSdiv (x n : ℕ) : Exec ℕ := if n = 0 then Z.sdiv x else pure (x / n)

/-- `BIG_comp`. -/
def bigComp (x y : ℕ) : ℤ := if x < y then -1 else if x = y then 0 else 1

/-- The variables of `BIG_inv` that one iteration hands to the next. -/
structure InvState where
  a_back : ℕ
  module : ℕ
  x0 : ℕ
  x1 : ℕ
deriving DecidableEq, Repr

/-- The body of the loop of `BIG_inv`. -/
def bigInvStep (m0 : ℕ) (s : InvState) : Exec InvState := do
  let q ← bigSdiv Z s.a_back s.module
  let temp := s.module
  let module ← bigMod Z s.a_back temp
  let a_back := temp
  let temp := s.x0
  let x0 ← bigModmul Z q s.x0 m0
  let x0 ← bigModneg Z x0 m0
  let x0 ← bigModadd Z x0 s.x1 m0
  let x1 := temp
  pure { a_back := a_back, module := module, x0 := x0, x1 := x1 }

/-- `BIG_inv`. -/
def bigInv (a m : ℕ) : Exec ℕ := do
  let s ← Run.whileDo (fun s ↦ bigComp s.a_back 1 > 0) (bigInvStep Z m)
    { a_back := a, module := m, x0 := 0, x1 := 1 }
  pure s.x1

/-! ## One iteration -/

theorem reduce_of_ne_zero {n : ℕ} (h : n ≠ 0) (x : ℕ) : reduce Z x n = pure (x % n) := if_neg h

theorem bigComp_pos_iff {x y : ℕ} : bigComp x y > 0 ↔ y < x := by
  rw [bigComp]
  split_ifs <;> omega

/-- The cofactor that an iteration computes for `x1 - q * x0`. -/
def nextCofactor (m q x0 x1 : ℕ) : ℕ := ((m - q * x0 % m % m) % m + x1) % m

theorem bigInvStep_eq {m : ℕ} (hm : m ≠ 0) {s : InvState} (hs : s.module ≠ 0) :
    bigInvStep Z m s = pure
      { a_back := s.module, module := s.a_back % s.module,
        x0 := nextCofactor m (s.a_back / s.module) s.x0 s.x1, x1 := s.x0 } := by
  simp only [bigInvStep, bigSdiv, if_neg hs, bigMod, bigModmul, bigModneg, bigModadd,
    reduce_of_ne_zero Z hs, reduce_of_ne_zero Z hm, pure_bind]
  rfl

theorem cast_nextCofactor {m : ℕ} (hm : m ≠ 0) (q x0 x1 : ℕ) :
    (nextCofactor m q x0 x1 : ZMod m) = x1 - q * x0 := by
  have hle : q * x0 % m % m ≤ m := (Nat.mod_lt _ (Nat.pos_of_ne_zero hm)).le
  rw [nextCofactor, ZMod.natCast_mod, Nat.cast_add, ZMod.natCast_mod, Nat.cast_sub hle,
    ZMod.natCast_self, ZMod.natCast_mod, ZMod.natCast_mod, Nat.cast_mul, zero_sub, neg_add_eq_sub]

end Operations

/-! ## The loop -/

/-- What holds in front of every iteration up to the first zero divisor: the greatest common divisor
of the remainders is that of `a` and `m`, and each remainder is `a` times its cofactor modulo `m`.
Up to the sign `ε`, which alternates, the cofactors are natural numbers `y0` and `y1` that combine
the remainders to `m`. -/
structure InvState.Euclid (a m : ℕ) (s : InvState) : Prop where
  gcd_eq : s.a_back.gcd s.module = a.gcd m
  pos : 0 < s.a_back
  x0_lt : s.x0 < m
  x1_lt : s.x1 < m
  a_back_eq : (a : ZMod m) * s.x1 = s.a_back
  module_eq : (a : ZMod m) * s.x0 = s.module
  signs : ∃ (ε : ℤˣ) (y0 y1 : ℕ), y0 * s.a_back + y1 * s.module = m ∧
    (s.x0 : ZMod m) = (ε : ℤ) * y0 ∧ (s.x1 : ZMod m) = -(ε : ℤ) * y1

theorem InvState.Euclid.init {a m : ℕ} (hm : 1 < m) (ha : 0 < a) :
    InvState.Euclid a m { a_back := a, module := m, x0 := 0, x1 := 1 } where
  gcd_eq := rfl
  pos := ha
  x0_lt := zero_lt_one.trans hm
  x1_lt := hm
  a_back_eq := by rw [Nat.cast_one, mul_one]
  module_eq := by rw [Nat.cast_zero, mul_zero, ZMod.natCast_self]
  signs := ⟨-1, 0, 1, by rw [zero_mul, one_mul, zero_add], by simp, by simp⟩

/-- An iteration goes on from the two next remainders. -/
theorem InvState.Euclid.step {a m : ℕ} (hm : m ≠ 0) {s : InvState} (hs : s.Euclid a m)
    (hmod : s.module ≠ 0) :
    InvState.Euclid a m
      { a_back := s.module, module := s.a_back % s.module,
        x0 := nextCofactor m (s.a_back / s.module) s.x0 s.x1, x1 := s.x0 } where
  gcd_eq := by
    rw [Nat.gcd_comm, ← Nat.gcd_rec, Nat.gcd_comm]
    exact hs.gcd_eq
  pos := Nat.pos_of_ne_zero hmod
  x0_lt := Nat.mod_lt _ (Nat.pos_of_ne_zero hm)
  x1_lt := hs.x0_lt
  a_back_eq := hs.module_eq
  module_eq := by
    have hdiv := congrArg (Nat.cast (R := ZMod m)) (Nat.div_add_mod s.a_back s.module)
    push_cast at hdiv
    rw [cast_nextCofactor hm]
    linear_combination hs.a_back_eq - (s.a_back / s.module : ℕ) * hs.module_eq - hdiv
  signs := by
    obtain ⟨ε, y0, y1, hsum, hx0, hx1⟩ := hs.signs
    refine ⟨-ε, y1 + s.a_back / s.module * y0, y0, ?_, ?_, ?_⟩
    · have hdiv := Nat.div_add_mod s.a_back s.module
      calc (y1 + s.a_back / s.module * y0) * s.module + y0 * (s.a_back % s.module)
          = y0 * (s.module * (s.a_back / s.module) + s.a_back % s.module) + y1 * s.module := by
            ring
        _ = m := by rw [hdiv, hsum]
    · rw [cast_nextCofactor hm, hx0, hx1]
      push_cast
      ring
    · rw [hx0, Units.val_neg]
      push_cast
      ring

/-- A remainder that is not yet one leaves a nonzero divisor. -/
theorem InvState.Euclid.module_ne_zero {a m : ℕ} {s : InvState} (hs : s.Euclid a m)
    (h : a.Coprime m) (hlt : 1 < s.a_back) : s.module ≠ 0 := by
  intro hzero
  have hone := hs.gcd_eq.trans h
  rw [hzero, Nat.gcd_zero_right] at hone
  omega

/-- The loop is left when the remainder is one. -/
theorem InvState.Euclid.a_back_eq_one {a m : ℕ} {s : InvState} (hs : s.Euclid a m)
    (hexit : decide (bigComp s.a_back 1 > 0) = false) : s.a_back = 1 := by
  have hle := bigComp_pos_iff.not.mp (of_decide_eq_false hexit)
  have := hs.pos
  omega

/-- **`BIG_inv` computes inverses.**  For coprime `a` and `m` its loop is left and the result is the
inverse of `a` in `[0, m)`.  No division or reduction is by zero: what that would do, a fault for
instance, does not matter. -/
theorem bigInv_correct (Z : ZeroDivisor) (a m : ℕ) (hm : 1 < m) (ha : 1 ≤ a) (h : a.Coprime m) :
    ∃ res, bigInv Z a m = pure res ∧ res < m ∧ a * res ≡ 1 [MOD m] := by
  have hm₀ : m ≠ 0 := by omega
  have hstep : ∀ s : InvState, s.Euclid a m → decide (bigComp s.a_back 1 > 0) = true →
      ∃ s', bigInvStep Z m s = pure s' ∧ s'.Euclid a m ∧ s'.module < s.module := by
    intro s hs hc
    have hmod := hs.module_ne_zero h (bigComp_pos_iff.mp (of_decide_eq_true hc))
    exact ⟨_, bigInvStep_eq Z hm₀ hmod, hs.step hm₀ hmod, Nat.mod_lt _ (Nat.pos_of_ne_zero hmod)⟩
  obtain ⟨s, hloop, hs, hexit⟩ :=
    Run.whileDo_total InvState.module hstep (InvState.Euclid.init hm ha)
  refine ⟨s.x1, ?_, hs.x1_lt, ?_⟩
  · rw [bigInv, hloop, pure_bind]
  · rw [← ZMod.natCast_eq_natCast_iff, Nat.cast_mul, hs.a_back_eq, hs.a_back_eq_one hexit]

/-- `bigInv_correct` for a number above the modulus, where a zero divisor is a fault. -/
theorem bigInv_correct_ten :
    ∃ res, bigInv .trap 10 7 = pure res ∧ res < 7 ∧ 10 * res ≡ 1 [MOD 7] :=
  bigInv_correct .trap 10 7 (by decide) (by decide) (by decide)

/-! ## Numbers without an inverse -/

theorem bigInvStep_vendored {m : ℕ} (hm : m ≠ 0) {s : InvState} (hs : s.module = 0) :
    bigInvStep .vendored m s = pure
      { a_back := 0, module := s.a_back,
        x0 := nextCofactor m (2 ^ (s.a_back.size + 1) - 1) s.x0 s.x1, x1 := s.x0 } := by
  simp only [bigInvStep, bigSdiv, bigMod, reduce, bigModmul, bigModneg, bigModadd, hs, if_neg hm,
    if_true, ZeroDivisor.vendored, pure_bind]
  rfl

/-- What holds where the loop is left behind a zero divisor. -/
structure InvState.Left (a m : ℕ) (s : InvState) : Prop where
  a_back_eq : s.a_back = 0
  not_coprime : ¬ a.Coprime m
  x1_eq : s.x1 = m / a.gcd m ∨ s.x1 = m - m / a.gcd m

/-- The cofactor of a zero divisor is `m / gcd` up to its sign. -/
theorem InvState.Euclid.x0_eq {a m : ℕ} (hm : m ≠ 0) {s : InvState} (hs : s.Euclid a m)
    (hzero : s.module = 0) (hlt : 1 < s.a_back) :
    s.x0 = m / a.gcd m ∨ s.x0 = m - m / a.gcd m := by
  obtain ⟨ε, y, _, hsum, hx0, -⟩ := hs.signs
  have hgcd := hs.gcd_eq
  rw [hzero, Nat.gcd_zero_right] at hgcd
  rw [hzero, mul_zero, add_zero] at hsum
  have hy : m / a.gcd m = y := by
    rw [← hgcd]
    exact Nat.div_eq_of_eq_mul_left hs.pos hsum.symm
  have hy₀ : 0 < y := Nat.pos_of_ne_zero (left_ne_zero_of_mul (hsum.trans_ne hm))
  have hy_lt : y < m := (lt_mul_of_one_lt_right hy₀ hlt).trans_eq hsum
  have hclass {r : ℕ} (hr : r < m) (h : (s.x0 : ZMod m) = r) : s.x0 = r :=
    Nat.ModEq.eq_of_lt_of_lt ((ZMod.natCast_eq_natCast_iff _ _ _).mp h) hs.x0_lt hr
  rw [hy]
  rcases Int.units_eq_one_or ε with rfl | rfl
  · exact Or.inl (hclass hy_lt (by simpa using hx0))
  · refine Or.inr (hclass (by omega) ?_)
    rw [hx0, Nat.cast_sub hy_lt.le, ZMod.natCast_self]
    simp

/-- An iteration with the library in `libs` either goes on or is the last one. -/
theorem exists_bigInvStep_vendored {a m : ℕ} (hm : m ≠ 0) (s : InvState)
    (hs : s.Euclid a m ∨ s.Left a m) (hc : decide (bigComp s.a_back 1 > 0) = true) :
    ∃ s', bigInvStep .vendored m s = pure s' ∧ (s'.Euclid a m ∨ s'.Left a m) ∧
      (if s'.a_back = 0 then 0 else s'.module + 1) <
        if s.a_back = 0 then 0 else s.module + 1 := by
  have hlt := bigComp_pos_iff.mp (of_decide_eq_true hc)
  have hs : s.Euclid a m := hs.resolve_right fun hleft ↦ by
    have := hleft.a_back_eq
    omega
  by_cases hzero : s.module = 0
  · have hgcd := hs.gcd_eq
    rw [hzero, Nat.gcd_zero_right] at hgcd
    refine ⟨_, bigInvStep_vendored hm hzero, Or.inr ⟨rfl, ?_, hs.x0_eq hm hzero hlt⟩, ?_⟩
    · rw [Nat.Coprime, ← hgcd]
      omega
    · rw [if_pos rfl, if_neg hs.pos.ne']
      omega
  · refine ⟨_, bigInvStep_eq _ hm hzero, Or.inl (hs.step hm hzero), ?_⟩
    rw [if_neg hzero, if_neg hs.pos.ne']
    exact Nat.succ_lt_succ (Nat.mod_lt _ (Nat.pos_of_ne_zero hzero))

/-- The cofactor of the remainder one is what `invert_mpz` computes. -/
theorem InvState.Euclid.x1_eq {a m : ℕ} {s : InvState} (hs : s.Euclid a m) (hone : s.a_back = 1)
    (h : a.Coprime m) : (s.x1 : ℤ) = modInv a m := by
  refine eq_modInv (Int.natCast_nonneg _) (Int.ofNat_lt.mpr hs.x1_lt) h ?_
  rw [← ZMod.intCast_eq_intCast_iff]
  push_cast
  rw [hs.a_back_eq, hone, Nat.cast_one]

/-- **`BIG_inv` always returns**, for every positive number and every modulus above one.  When there
is an inverse it returns what `invert_mpz` does.  When there is none `invert_mpz` returns `0`, and
`BIG_inv` returns a number that is not `0`: the modulus divided by the greatest common divisor, or
the negative of that. -/
theorem bigInv_vendored (a m : ℕ) (hm : 1 < m) (ha : 1 ≤ a) :
    ∃ res : ℕ, bigInv .vendored a m = pure res ∧
      (a.Coprime m → (invertMpz a m).out = .ok (res : ℤ)) ∧
      (¬ a.Coprime m → (invertMpz a m).out = .ok 0 ∧ res ≠ 0 ∧
        (res = m / a.gcd m ∨ res = m - m / a.gcd m)) := by
  have hm₀ : m ≠ 0 := by omega
  have hinvert : (invertMpz a m).out = .ok (modInv a m) := rfl
  obtain ⟨s, hloop, hs, hexit⟩ := Run.whileDo_total
    (fun s : InvState ↦ if s.a_back = 0 then 0 else s.module + 1)
    (exists_bigInvStep_vendored hm₀) (Or.inl (InvState.Euclid.init hm ha))
  refine ⟨s.x1, by rw [bigInv, hloop, pure_bind], ?_⟩
  rcases hs with hs | hs
  · have hone := hs.a_back_eq_one hexit
    have hcop : a.Coprime m := by rw [Nat.Coprime, ← hs.gcd_eq, hone, Nat.gcd_one_left]
    refine ⟨fun _ ↦ ?_, fun h ↦ absurd hcop h⟩
    rw [hinvert, hs.x1_eq hone hcop]
  · refine ⟨fun h ↦ absurd h hs.not_coprime, fun h ↦ ⟨?_, ?_, hs.x1_eq⟩⟩
    · rw [hinvert, modInv, if_neg (show ¬ Int.gcd a m = 1 from h)]
    · have hpos : 0 < m / a.gcd m := Nat.div_pos (Nat.gcd_le_right a (by omega))
        (Nat.gcd_pos_of_pos_left m ha)
      have hgcd : 1 < a.gcd m := by
        have := Nat.gcd_pos_of_pos_left m ha
        have : a.gcd m ≠ 1 := h
        omega
      have hlt : m / a.gcd m < m := Nat.div_lt_self (by omega) hgcd
      rcases hs.x1_eq with hx1 | hx1 <;> omega

/-- `bigInv_vendored` for a number with an inverse and for one without. -/
theorem bigInv_vendored_ten :
    bigInv .vendored 10 7 = pure 5 ∧ bigInv .vendored 2 4 = pure 2 := by
  have hinv : (5 : ℤ) = modInv 10 7 := eq_modInv (by decide) (by decide) (by decide) (by decide)
  obtain ⟨res, hres, hcop, -⟩ := bigInv_vendored 10 7 (by decide) (by decide)
  obtain ⟨res', hres', -, hleft⟩ := bigInv_vendored 2 4 (by decide) (by decide)
  have hfive : res = 5 := by
    have hok : (modInv 10 7 : ℤ) = res := Outcome.ok.inj (hcop (by decide))
    omega
  have htwo : res' = 2 := (hleft (by decide)).2.2.elim id id
  exact ⟨hfive ▸ hres, htwo ▸ hres'⟩

end Fussion
