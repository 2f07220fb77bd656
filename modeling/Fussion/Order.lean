import Fussion.Lib.Residue
import Mathlib.Tactic.NormNum.Prime

/-!
# The order of the curve

`curveOrder` is the order of the BLS12-381 groups: the literal of `rand_mpz`
(`src/Tools/Tools.cpp`) and the value of `CURVE_Order`, which `Setup` reads into `pp.q`.
Everything below rests on two facts about this one number.  It is prime, by Lucas's test with
the primitive root `7`; and the primes that divide `curveOrder - 1` are exactly the twelve
numbers of `getFactors` (`src/fussion.cpp`).
-/

namespace Fussion

/-- The order of the groups, `CURVE_Order`. -/
def curveOrder : ℕ := 0x73EDA753299D7D483339D80809A1D80553BDA402FFFE5BFEFFFFFFFF00000001

/-- The addends of `getFactors`, in the order of the source. -/
def factorList : List ℕ :=
  [2, 3, 11, 19, 10177, 125527, 859267, 906349, 2508409, 2529403, 52437899, 254760293]

/-- `curveOrder - 1` as a product of prime powers. -/
def orderFactors : List (ℕ × ℕ) :=
  [(2, 32), (3, 1), (11, 1), (19, 1), (10177, 1), (125527, 1), (859267, 1), (906349, 2),
    (2508409, 1), (2529403, 1), (52437899, 1), (254760293, 2)]

theorem orderFactors_map_fst : orderFactors.map Prod.fst = factorList := rfl

theorem orderFactors_prod : (orderFactors.map fun f ↦ f.1 ^ f.2).prod = curveOrder - 1 := by
  decide +kernel

theorem prime_of_mem_factorList : ∀ f ∈ factorList, f.Prime := by
  simp only [factorList, List.mem_cons, List.not_mem_nil, or_false]
  rintro f (rfl | rfl | rfl | rfl | rfl | rfl | rfl | rfl | rfl | rfl | rfl | rfl) <;> norm_num

theorem prime_of_mem_orderFactors : ∀ f ∈ orderFactors, f.1.Prime := by
  intro f hf
  refine prime_of_mem_factorList f.1 ?_
  rw [← orderFactors_map_fst]
  exact List.mem_map_of_mem hf

/-- The order is prime: `7` generates the nonzero residues. -/
theorem prime_curveOrder : curveOrder.Prime := by
  refine prime_of_modPow (a := 7) (by decide +kernel) orderFactors prime_of_mem_orderFactors
    orderFactors_prod (by decide +kernel) (by decide +kernel)

instance instFactPrime : Fact curveOrder.Prime := ⟨prime_curveOrder⟩

instance instNeZeroOrder : NeZero curveOrder := ⟨prime_curveOrder.ne_zero⟩

/-- The primes dividing `curveOrder - 1` are the twelve addends. -/
theorem prime_dvd_order_sub_one_iff {p : ℕ} (hp : p.Prime) :
    p ∣ curveOrder - 1 ↔ p ∈ factorList := by
  rw [← orderFactors_prod, ← orderFactors_map_fst]
  constructor
  · exact mem_of_prime_dvd_prod prime_of_mem_orderFactors hp
  · intro h
    obtain ⟨f, hf, rfl⟩ := List.mem_map.mp h
    have hexp : ∀ f ∈ orderFactors, f.2 ≠ 0 := by decide
    exact (dvd_pow_self f.1 (hexp f hf)).trans (List.dvd_prod (List.mem_map_of_mem hf))

theorem one_lt_curveOrder : 1 < curveOrder := prime_curveOrder.one_lt

theorem lt_curveOrder : 2 ^ 254 < curveOrder := by decide +kernel

theorem curveOrder_lt : curveOrder < 2 ^ 255 := by decide +kernel

theorem mod_two_lt_order (i : ℕ) : i % 2 < curveOrder := by
  have := lt_curveOrder
  omega

/-- What fits into fewer bits fits into the 48 bytes of a `BIG`. -/
theorem two_pow_lt_big {k : ℕ} (h : k < 384) : 2 ^ k < 2 ^ 384 :=
  pow_lt_pow_right₀ one_lt_two h

theorem curveOrder_lt_big : curveOrder < 2 ^ 384 :=
  curveOrder_lt.trans (two_pow_lt_big (by norm_num))

/-- A small number is divisible by the order only if it is `0`. -/
theorem not_order_dvd {a : ℤ} (h₀ : a ≠ 0) (h : |a| < 2 ^ 254) : ¬ (curveOrder : ℤ) ∣ a := by
  have hlt : (2 : ℤ) ^ 254 < curveOrder := by exact_mod_cast lt_curveOrder
  exact fun hdvd ↦ h₀ (Int.eq_zero_of_abs_lt_dvd hdvd (h.trans hlt))

-- From here on nothing looks at the digits of the number.
attribute [irreducible] curveOrder

end Fussion
