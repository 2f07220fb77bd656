import Mathlib.LinearAlgebra.Lagrange
import Mathlib.Algebra.BigOperators.Field
import Mathlib.Tactic.LinearCombination

/-!
# Interpolation at zero

Over a field, the value at `0` of a polynomial of degree below `t` is a linear combination of
its values at `t` distinct points.  `coeffZero x t i` is the coefficient of the `i`-th value in
the form that avoids the product over the other points: the product of all points, divided by
the `i`-th.

`prodLinear d b k` is a product of `k` linear factors, the polynomial that is shared when every
factor is shared on its own.
-/

namespace Fussion

open Polynomial Finset

variable {F : Type*} [Field F]

/-- The coefficient at `0` of the value at `x i`, among the points `x 0, …, x (t - 1)`. -/
def coeffZero (x : ℕ → F) (t i : ℕ) : F :=
  (∏ j ∈ range t, x j) * (x i)⁻¹ * (∏ j ∈ (range t).erase i, (x j - x i))⁻¹

/-- The coefficient is the value at `0` of the basis polynomial. -/
theorem coeffZero_eq_eval_basis {x : ℕ → F} {t i : ℕ} (hi : i < t) (hx : x i ≠ 0) :
    coeffZero x t i = (Lagrange.basis (range t) x i).eval 0 := by
  have hprod : (∏ j ∈ range t, x j) * (x i)⁻¹ = ∏ j ∈ (range t).erase i, x j := by
    rw [← mul_prod_erase (range t) x (mem_range.mpr hi), mul_comm (x i), mul_assoc,
      mul_inv_cancel₀ hx, mul_one]
  rw [coeffZero, hprod, ← prod_inv_distrib, ← prod_mul_distrib, Lagrange.basis, eval_prod]
  refine prod_congr rfl fun j _ ↦ ?_
  rw [Lagrange.basisDivisor, eval_mul, eval_C, eval_sub, eval_X, eval_C, zero_sub,
    ← neg_sub (x i) (x j), inv_neg]
  ring

/-- At distinct points other than zero every value counts. -/
theorem coeffZero_ne_zero {x : ℕ → F} {t i : ℕ} (hi : i < t) (hx : ∀ j < t, x j ≠ 0)
    (hinj : Set.InjOn x (range t)) : coeffZero x t i ≠ 0 := by
  have hprod : ∏ j ∈ range t, x j ≠ 0 := prod_ne_zero_iff.mpr fun j hj ↦ hx j (mem_range.mp hj)
  have hden : ∏ j ∈ (range t).erase i, (x j - x i) ≠ 0 := by
    refine prod_ne_zero_iff.mpr fun j hj h ↦ ?_
    obtain ⟨hji, hj⟩ := mem_erase.mp hj
    exact hji (hinj hj (mem_coe.mpr (mem_range.mpr hi)) (sub_eq_zero.mp h))
  exact mul_ne_zero (mul_ne_zero hprod (inv_ne_zero (hx i hi))) (inv_ne_zero hden)

/-- With zero among the points no value counts. -/
theorem coeffZero_eq_zero {x : ℕ → F} {t j : ℕ} (hj : j < t) (hx : x j = 0) (i : ℕ) :
    coeffZero x t i = 0 := by
  rw [coeffZero, prod_eq_zero (mem_range.mpr hj) hx, zero_mul, zero_mul]

theorem coeffZero_congr {x y : ℕ → F} {t i : ℕ} (hi : i < t) (h : ∀ j < t, x j = y j) :
    coeffZero x t i = coeffZero y t i := by
  rw [coeffZero, coeffZero, h i hi, prod_congr rfl fun j hj ↦ h j (mem_range.mp hj)]
  refine congrArg (_ * ·⁻¹) (prod_congr rfl fun j hj ↦ ?_)
  rw [h j (mem_range.mp (mem_erase.mp hj).2)]

/-- At the points `1, …, n` the first value counts `n` times. -/
theorem coeffZero_succ_zero {n : ℕ} (hn : 0 < n) (hfac : ((n - 1).factorial : F) ≠ 0) :
    coeffZero (fun i ↦ (i : F) + 1) n 0 = n := by
  obtain ⟨n, rfl⟩ := Nat.exists_eq_succ_of_ne_zero hn.ne'
  rw [Nat.succ_sub_one] at hfac
  have hall : ∏ j ∈ range (n + 1), ((j : F) + 1) = (n + 1).factorial := by
    rw [← prod_range_add_one_eq_factorial]
    push_cast
    rfl
  have hothers : ∏ j ∈ (range (n + 1)).erase 0, ((j : F) + 1 - ((0 : ℕ) + 1)) = n.factorial := by
    have hrange : (range (n + 1)).erase 0 = (range n).map ⟨Nat.succ, Nat.succ_injective⟩ := by
      rw [range_add_one', erase_insert]
      simp
    rw [hrange, prod_map, ← prod_range_add_one_eq_factorial]
    push_cast
    exact prod_congr rfl fun j _ ↦ by simp
  rw [coeffZero, hall, hothers, Nat.factorial_succ]
  push_cast
  rw [zero_add, inv_one, mul_one, mul_assoc, mul_inv_cancel₀ hfac, mul_one]

/-- **Interpolation at zero.** -/
theorem sum_coeffZero_mul_eval {x : ℕ → F} {t : ℕ} (hx : ∀ i < t, x i ≠ 0)
    (hinj : Set.InjOn x (range t)) {P : F[X]} (hP : P.degree < t) :
    ∑ i ∈ range t, coeffZero x t i * P.eval (x i) = P.eval 0 := by
  have hint := Lagrange.eq_interpolate hinj (f := P) (by rwa [card_range])
  conv_rhs => rw [hint, Lagrange.interpolate_apply, eval_finsetSum]
  refine sum_congr rfl fun i hi ↦ ?_
  have hi : i < t := mem_range.mp hi
  rw [coeffZero_eq_eval_basis hi (hx i hi), eval_mul, eval_C, mul_comm]

/-! ## Products of linear factors -/

/-- The product of the first `k` factors `d i * X + b i`. -/
noncomputable def prodLinear (d b : ℕ → F) (k : ℕ) : F[X] :=
  ∏ i ∈ range k, (C (d i) * X + C (b i))

@[simp] theorem eval_prodLinear (d b : ℕ → F) (k : ℕ) (x : F) :
    (prodLinear d b k).eval x = ∏ i ∈ range k, (d i * x + b i) := by
  simp [prodLinear, eval_prod]

theorem degree_prodLinear_lt (d b : ℕ → F) (k : ℕ) : (prodLinear d b k).degree < (k + 1 : ℕ) := by
  have hle : (prodLinear d b k).degree ≤ k := by
    calc (prodLinear d b k).degree
        ≤ ∑ i ∈ range k, degree (C (d i) * X + C (b i)) := by
          rw [prodLinear]
          exact degree_prod_le (range k) fun i ↦ C (d i) * X + C (b i)
      _ ≤ ∑ _i ∈ range k, (1 : WithBot ℕ) := sum_le_sum fun i _ ↦ degree_linear_le
      _ = k := by simp
  exact lt_of_le_of_lt hle (by exact_mod_cast k.lt_succ_self)

/-- Two values determine a linear factor. -/
theorem eq_of_linear_eq {x y d b d' b' : F} (hxy : x ≠ y) (hx : d' * x + b' = d * x + b)
    (hy : d' * y + b' = d * y + b) : d' = d ∧ b' = b := by
  have hd : d' = d := by
    refine mul_right_cancel₀ (sub_ne_zero.mpr hxy) ?_
    linear_combination hx - hy
  subst hd
  exact ⟨rfl, add_left_cancel hx⟩

/-- The constant term of a linear factor, from two values. -/
theorem constant_of_linear {x y : F} (hxy : x ≠ y) (d b : F) :
    ((d * x + b) * y - (d * y + b) * x) / (y - x) = b := by
  rw [div_eq_iff (sub_ne_zero.mpr hxy.symm)]
  ring

end Fussion
