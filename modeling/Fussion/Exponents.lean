import Fussion.Coprime

/-!
# Points as exponents

The assumptions collected in `Miracl` can be met: `exponents` writes every point as its discrete
logarithm, pairs by multiplying, and hashes everything to one number.  Statements about
`Miracl` are applied to it to see that their hypotheses can be satisfied together.  Where a
statement is about two messages it is applied to `separating`, whose hash tells them apart.
-/

namespace Fussion

/-- Points and pairing values as exponents modulo the order; the hash is constant. -/
def exponents : Miracl (ZMod curveOrder) (ZMod curveOrder) (Multiplicative (ZMod curveOrder)) where
  generator := 1
  generator2 := 1
  e P Q := Multiplicative.ofAdd (P * Q)
  hash256 _ := (Vector.replicate 31 (0 : UInt8)).push 1
  e_add_left P Q R := by rw [add_mul, ofAdd_add]
  e_add_right P Q R := by rw [mul_add, ofAdd_add]

/-- The hash bytes stand for `2 ^ 128`. -/
theorem hashToZp256_exponents (x : ℤ) {m : ℕ} (h₀ : 2 ^ 128 < m) (h₁ : m < 2 ^ 256) :
    exponents.hashToZp256 x m = 2 ^ 128 := by
  have hbytes : bigFromBytes ((exponents.hash256 (bigToBytes (mpzToBIG x))).toList ++
      List.replicate 16 0) = 2 ^ 128 := rfl
  rw [exponents.hashToZp256_eq x (by omega) h₁, Miracl.hashToZp256Big, Miracl.hashZp256, hbytes,
    Nat.mod_eq_of_lt h₀]
  rfl

theorem hashToZp256_exponents_order (x : ℤ) : exponents.hashToZp256 x curveOrder = 2 ^ 128 := by
  have := lt_curveOrder
  have := curveOrder_lt
  exact hashToZp256_exponents x (by omega) (by omega)

theorem hashToZp256_exponents_lambda (x : ℤ) :
    exponents.hashToZp256 x (curveOrder - 1) = 2 ^ 128 := by
  have := lt_curveOrder
  have := curveOrder_lt
  rw [order_sub_one]
  exact hashToZp256_exponents x (by omega) (by omega)

theorem not_dvd_hashToZp256_exponents (x : ℤ) :
    ¬ (254760293 : ℤ) ∣ exponents.hashToZp256 x (curveOrder - 1) := by
  rw [hashToZp256_exponents_lambda]
  norm_num

theorem exists_hashToCoprime_exponents (x : ℤ) :
    ∃ h, (exponents.hashToCoprime x (curveOrder - 1) getFactors).out = .ok h := by
  obtain ⟨r, hr, -⟩ := exponents.hashToCoprime_eq_pure (not_dvd_hashToZp256_exponents x)
  exact ⟨r, by rw [hr, Run.out_pure]⟩

/-! ## A hash that tells messages apart -/

/-- `exponents` with the last byte of what is hashed as its hash. -/
def separating :
    Miracl (ZMod curveOrder) (ZMod curveOrder) (Multiplicative (ZMod curveOrder)) :=
  { exponents with
    hash256 := fun bytes ↦ (Vector.replicate 31 (0 : UInt8)).push (bytes.getLastD 0) }

theorem bigFromBytes_hash256_separating (x : ℕ) :
    bigFromBytes (separating.hash256 (bigToBytes x)).toList = x % 256 := by
  have hlast : bigToBytes x = (fixed 256 47 (x / 256)).map UInt8.ofNat ++ [UInt8.ofNat (x % 256)] :=
    List.map_append
  have hhash : (separating.hash256 (bigToBytes x)).toList =
      List.replicate 31 0 ++ [UInt8.ofNat (x % 256)] := by
    change ((Vector.replicate 31 (0 : UInt8)).push ((bigToBytes x).getLastD 0)).toList = _
    rw [hlast, List.getLastD_concat, Vector.toList_push, Vector.toList_replicate]
  rw [hhash, bigFromBytes, List.map_append, List.map_replicate, List.map_singleton,
    UInt8.toNat_zero, toNat_ofNat_of_lt (Nat.mod_lt x (by norm_num)), value_replicate_zero_append,
    value_singleton]

/-- The hash of a small number is the number times `2 ^ 128`. -/
theorem hashToZp256_separating {x m : ℕ} (hx : x < 256) (h₀ : 2 ^ 136 ≤ m) (h₁ : m < 2 ^ 256) :
    separating.hashToZp256 x m = (x * 2 ^ 128 : ℕ) := by
  rw [separating.hashToZp256_eq x (by omega) h₁, Miracl.hashToZp256Big, Miracl.hashZp256,
    bigFromBytes_append_zeros, mpzToBIG_of_lt (by omega), bigFromBytes_hash256_separating,
    Nat.mod_eq_of_lt hx, Nat.mod_eq_of_lt (by omega)]

theorem hashToZp256_separating_order {x : ℕ} (hx : x < 256) :
    separating.hashToZp256 x curveOrder = (x * 2 ^ 128 : ℕ) := by
  have := lt_curveOrder
  have := curveOrder_lt
  exact hashToZp256_separating hx (by omega) (by omega)

/-- The hash of a small positive number is left after finitely many steps. -/
theorem exists_hashToCoprime_separating {x : ℕ} (hx : x < 256) (hpos : 0 < x) :
    ∃ h : ℕ, separating.hashToCoprime x (curveOrder - 1) getFactors = pure (h : ℤ) := by
  have := lt_curveOrder
  have := curveOrder_lt
  have hndvd : ¬ (254760293 : ℤ) ∣ separating.hashToZp256 x (curveOrder - 1) := by
    rw [order_sub_one, hashToZp256_separating hx (by omega) (by omega),
      show (254760293 : ℤ) = (254760293 : ℕ) from rfl, Int.natCast_dvd_natCast]
    have htwo : Nat.Coprime 254760293 (2 ^ 128) := Nat.Coprime.pow_right 128 (by decide)
    intro hdvd
    exact (hx.trans (by norm_num)).not_ge (Nat.le_of_dvd hpos (htwo.dvd_mul_right.mp hdvd))
  obtain ⟨r, hr, -⟩ := separating.hashToCoprime_eq_pure hndvd
  exact ⟨r, hr⟩

end Fussion
