import Fussion.Exponents
import Fussion.Message

/-!
# What the hashes keep of a digest

`hashZp256` puts the 32 bytes of a SHA-256 digest in front of 16 zero bytes and reduces the
48 bytes modulo its argument, so that what is reduced is the digest times `2 ^ 128`.

Modulo the order that is harmless: two hashes agree exactly when the digests agree modulo the
order.  Modulo `q - 1` it is not, since `2 ^ 32` divides `q - 1` as well.  The hash that
`hashToCoprime` starts from is always a multiple of `2 ^ 32`, it depends on the digest modulo
`(q - 1) / 2 ^ 32` only, and its loop never ends at once: it takes an odd number of steps, at
most 33, unless it is never left (`hashToCoprime_outcome`).
-/

namespace Fussion

/-! ## Powers of two in the moduli -/

/-- `q - 1` without its power of two. -/
def oddPart : ℕ := (orderFactors.tail.map fun f ↦ f.1 ^ f.2).prod

theorem order_sub_one_eq_mul : curveOrder - 1 = 2 ^ 32 * oddPart := orderFactors_prod.symm

theorem coprime_two_oddPart : (2 : ℕ).Coprime oddPart := by decide +kernel

theorem coprime_two_curveOrder : (2 : ℕ).Coprime curveOrder := by
  refine (Nat.coprime_primes Nat.prime_two prime_curveOrder).mpr fun h ↦ ?_
  have := lt_curveOrder
  omega

/-- A factor `2 ^ (j + k)` modulo `2 ^ j * m` cancels up to `m`. -/
theorem mul_two_pow_modEq_iff {m : ℕ} (hm : (2 : ℕ).Coprime m) (j k : ℕ) {a b : ℕ} :
    a * 2 ^ (j + k) ≡ b * 2 ^ (j + k) [MOD 2 ^ j * m] ↔ a ≡ b [MOD m] := by
  have hsplit (c : ℕ) : c * 2 ^ (j + k) = 2 ^ j * (c * 2 ^ k) := by rw [pow_add]; ring
  rw [hsplit, hsplit, Nat.ModEq.mul_left_cancel_iff' (by positivity)]
  constructor
  · intro h
    exact Nat.ModEq.cancel_right_of_coprime (hm.pow_left k).symm h
  · exact fun h ↦ h.mul_right _

namespace Miracl

variable {ECP ECP2 FP12 : Type} [AddCommGroup ECP] [AddCommGroup ECP2] [CommGroup FP12]
variable (M : Miracl ECP ECP2 FP12)

/-- The digest of the bytes of a number, as a number. -/
def digest (x : ℤ) : ℕ := bigFromBytes (M.hash256 (hashInput x)).toList

/-- What `hashZp256` reduces is the digest times `2 ^ 128`. -/
theorem hashToZp256_eq_digest (x : ℤ) {m : ℕ} (h₀ : 0 < m) (h₁ : m < 2 ^ 256) :
    M.hashToZp256 x m = (M.digest x * 2 ^ 128 % m : ℕ) := by
  rw [M.hashToZp256_eq x h₀ h₁, hashToZp256Big, hashZp256, bigFromBytes_append_zeros]
  rfl

theorem hashToZp256_order_eq (x : ℤ) :
    M.hashToZp256 x curveOrder = (M.digest x * 2 ^ 128 % curveOrder : ℕ) :=
  M.hashToZp256_eq_digest x prime_curveOrder.pos (curveOrder_lt.trans (by norm_num))

theorem hashToZp256_lambda_eq (x : ℤ) :
    M.hashToZp256 x (curveOrder - 1) = (M.digest x * 2 ^ 128 % (curveOrder - 1) : ℕ) := by
  have := lt_curveOrder
  have := curveOrder_lt
  rw [order_sub_one]
  exact M.hashToZp256_eq_digest x (by omega) (by omega)

/-- The hash modulo `q - 1` is a multiple of `2 ^ 32`. -/
theorem two_pow_dvd_hashToZp256_lambda (x : ℤ) : 2 ^ 32 ∣ M.hashToZp256 x (curveOrder - 1) := by
  have hdvd : 2 ^ 32 ∣ M.digest x * 2 ^ 128 % (curveOrder - 1) := by
    rw [Nat.dvd_mod_iff (order_sub_one_eq_mul ▸ Nat.dvd_mul_right _ _)]
    exact (pow_dvd_pow 2 (by norm_num)).mul_left _
  rw [hashToZp256_lambda_eq]
  exact_mod_cast hdvd

/-! ## Collisions -/

theorem hashToZp256_order_inj (x y : ℤ) :
    M.hashToZp256 x curveOrder = M.hashToZp256 y curveOrder ↔
      M.digest x ≡ M.digest y [MOD curveOrder] := by
  have hcancel := mul_two_pow_modEq_iff coprime_two_curveOrder 0 128
    (a := M.digest x) (b := M.digest y)
  rw [pow_zero, one_mul, zero_add] at hcancel
  rw [hashToZp256_order_eq, hashToZp256_order_eq, Nat.cast_inj, ← hcancel]
  rfl

theorem hashToZp256_lambda_inj (x y : ℤ) :
    M.hashToZp256 x (curveOrder - 1) = M.hashToZp256 y (curveOrder - 1) ↔
      M.digest x ≡ M.digest y [MOD (curveOrder - 1) / 2 ^ 32] := by
  have hcancel := mul_two_pow_modEq_iff coprime_two_oddPart 32 96
    (a := M.digest x) (b := M.digest y)
  rw [← order_sub_one_eq_mul] at hcancel
  rw [hashToZp256_lambda_eq, hashToZp256_lambda_eq, Nat.cast_inj, order_sub_one_eq_mul,
    Nat.mul_div_cancel_left _ (by positivity), ← hcancel, order_sub_one_eq_mul]
  rfl

/-- The hash modulo the order is determined by its class. -/
theorem hashToZp256_order_cast_inj {x y : ℤ} :
    (M.hashToZp256 x curveOrder : ZMod curveOrder) = M.hashToZp256 y curveOrder ↔
      M.hashToZp256 x curveOrder = M.hashToZp256 y curveOrder := by
  have hrange (z : ℤ) := M.hashToZp256_nonneg_and_lt z prime_curveOrder.pos
    (curveOrder_lt.trans (by norm_num))
  refine ⟨fun h ↦ ?_, fun h ↦ by rw [h]⟩
  rw [← rep_intCast_of_lt (hrange x).1 (hrange x).2, h, rep_intCast_of_lt (hrange y).1 (hrange y).2]

/-- **What two hashes agree on.**  Modulo the order the hashes of two numbers agree exactly when
their digests do, and so do the points, unless the generator is infinity.  Modulo `q - 1` the
digests need to agree modulo `(q - 1) / 2 ^ 32` only. -/
theorem hash_eq_iff_digest [Module (ZMod curveOrder) ECP] (hgen : M.generator ≠ 0) (x y : ℤ) :
    (M.hashToZp256 x curveOrder = M.hashToZp256 y curveOrder ↔
      M.digest x ≡ M.digest y [MOD curveOrder]) ∧
    (M.hashToPoint x curveOrder = M.hashToPoint y curveOrder ↔
      M.digest x ≡ M.digest y [MOD curveOrder]) ∧
    (M.hashToZp256 x (curveOrder - 1) = M.hashToZp256 y (curveOrder - 1) ↔
      M.digest x ≡ M.digest y [MOD (curveOrder - 1) / 2 ^ 32]) := by
  refine ⟨M.hashToZp256_order_inj x y, ?_, M.hashToZp256_lambda_inj x y⟩
  rw [← hashToZp256_order_inj, M.hashToPoint_eq, M.hashToPoint_eq,
    (smul_left_injective (ZMod curveOrder) hgen).eq_iff, hashToZp256_order_cast_inj]

end Miracl

/-- The digests of `separating` are the last bytes. -/
theorem digest_separating {x : ℕ} (hx : x < 2 ^ 256) : separating.digest x = x % 256 := by
  rw [Miracl.digest, hashInput, mpzToBIG_of_lt hx, bigFromBytes_hash256_separating]

/-- `hash_eq_iff_digest` on two numbers with different digests, and on two with the same. -/
theorem hash_eq_iff_digest_exponents :
    separating.hashToPoint 5 curveOrder ≠ separating.hashToPoint 6 curveOrder ∧
      separating.hashToZp256 5 (curveOrder - 1) ≠ separating.hashToZp256 6 (curveOrder - 1) ∧
      separating.hashToPoint 5 curveOrder = separating.hashToPoint 261 curveOrder := by
  have hgen : separating.generator ≠ 0 := one_ne_zero
  have hfive : separating.digest 5 = 5 := digest_separating (x := 5) (by norm_num)
  have hsix : separating.digest 6 = 6 := digest_separating (x := 6) (by norm_num)
  have hsame : separating.digest 261 = 5 := digest_separating (x := 261) (by norm_num)
  have hdiffer {m : ℕ} (hm : 6 < m) : ¬ separating.digest 5 ≡ separating.digest 6 [MOD m] := by
    rw [hfive, hsix, Nat.ModEq, Nat.mod_eq_of_lt (by omega), Nat.mod_eq_of_lt hm]
    decide
  obtain ⟨-, hpoint, hlambda⟩ := separating.hash_eq_iff_digest hgen 5 6
  refine ⟨hpoint.not.mpr (hdiffer ?_), hlambda.not.mpr (hdiffer ?_),
    (separating.hash_eq_iff_digest hgen 5 261).2.1.mpr (by rw [hfive, hsame])⟩
  · have := lt_curveOrder
    omega
  · have := lt_curveOrder
    omega

/-! ## The loop of `hashToCoprime` -/

namespace Miracl

variable {ECP ECP2 FP12 : Type} [AddCommGroup ECP] [AddCommGroup ECP2] [CommGroup FP12]
variable (M : Miracl ECP ECP2 FP12)

/-- The step divides the hash exactly when it divides the digest. -/
theorem inc_dvd_hashToZp256_iff (x : ℤ) :
    (254760293 : ℤ) ∣ M.hashToZp256 x (curveOrder - 1) ↔ 254760293 ∣ M.digest x := by
  have hprime : Nat.Prime 254760293 := prime_of_mem_factorList _ (by decide)
  have hdvd : 254760293 ∣ curveOrder - 1 := (prime_dvd_order_sub_one_iff hprime).mpr (by decide)
  have htwo : Nat.Coprime 254760293 (2 ^ 128) := Nat.Coprime.pow_right 128 (by decide)
  rw [hashToZp256_lambda_eq, show (254760293 : ℤ) = (254760293 : ℕ) from rfl,
    Int.natCast_dvd_natCast, Nat.dvd_mod_iff hdvd]
  exact htwo.dvd_mul_right

/-- A term of the progression that is coprime to `q - 1` has an odd index. -/
theorem odd_of_gcd_eq_one (x : ℤ) {k : ℕ}
    (h : (M.hashToZp256 x (curveOrder - 1) + k * inc).gcd (curveOrder - 1) = 1) : Odd k := by
  by_contra hk
  have heven : (2 : ℤ) ∣ M.hashToZp256 x (curveOrder - 1) + k * inc := by
    have hhash := (dvd_pow_self (2 : ℤ) (by norm_num)).trans (M.two_pow_dvd_hashToZp256_lambda x)
    have hindex : (2 : ℤ) ∣ k := by exact_mod_cast (Nat.not_odd_iff_even.mp hk).two_dvd
    exact dvd_add hhash (hindex.mul_right _)
  have htwo : (2 : ℤ) ∣ curveOrder - 1 := by
    rw [order_sub_one]
    exact_mod_cast (prime_dvd_order_sub_one_iff Nat.prime_two).mpr (by decide)
  have := Int.dvd_gcd heven htwo
  rw [h] at this
  norm_num at this

/-- The primes of `q - 1` other than `2` and the step. -/
def sievePrimes : List ℕ :=
  [3, 11, 19, 10177, 125527, 859267, 906349, 2508409, 2529403, 52437899]

/-- Among the first 17 terms with an odd index one is coprime to `q - 1`. -/
theorem exists_gcd_eq_one {x : ℤ} (hx : ¬ 254760293 ∣ M.digest x) :
    ∃ k : ℕ, k ≤ 33 ∧
      (M.hashToZp256 x (curveOrder - 1) + k * inc).gcd (curveOrder - 1) = 1 := by
  set h := M.hashToZp256 x (curveOrder - 1)
  have hfactors : factorList = 2 :: (sievePrimes ++ [254760293]) := rfl
  have hmem : ∀ p ∈ sievePrimes, p ∈ factorList := fun p hp ↦ by
    rw [hfactors]
    exact List.mem_cons_of_mem _ (List.mem_append_left _ hp)
  have hstep : ∀ p ∈ sievePrimes, ¬ (p : ℤ) ∣ 2 * inc := by decide
  obtain ⟨j, hj, havoid⟩ := exists_lt_avoids (N := 17)
    (fun p hp ↦ prime_of_mem_factorList p (hmem p hp)) hstep (h + inc) (by decide)
  have hterm : h + inc + j * (2 * inc) = h + (2 * j + 1 : ℕ) * inc := by
    push_cast
    ring
  rw [hterm] at havoid
  refine ⟨2 * j + 1, by omega, ?_⟩
  rw [← isCoprime_getFactors_iff, getFactors, isCoprime_map_cast_iff, hfactors, Avoids,
    List.forall_mem_cons, List.forall_mem_append, List.forall_mem_singleton]
  refine ⟨?_, havoid, ?_⟩
  · -- The hash is even and the step is odd.
    have heven := (dvd_pow_self (2 : ℤ) (by norm_num)).trans (M.two_pow_dvd_hashToZp256_lambda x)
    have hodd : Odd (((2 * j + 1 : ℕ) : ℤ) * inc) := by
      refine Odd.mul ⟨j, by push_cast; rfl⟩ (by decide)
    rw [Nat.cast_ofNat, Int.dvd_add_right heven, ← even_iff_two_dvd]
    exact Int.not_even_iff_odd.mpr hodd
  · exact (dvd_add_mul_iff 254760293 h (2 * j + 1)).not.mpr
      ((M.inc_dvd_hashToZp256_iff x).not.mpr hx)

/-- **How `hashToCoprime` ends**, for every number that is hashed.  When `254760293` divides the
digest the loop is never left.  Otherwise it is left after an odd number of steps, at most 33. -/
theorem hashToCoprime_outcome (x : ℤ) :
    (254760293 ∣ M.digest x ∧
      (M.hashToCoprime x (curveOrder - 1) getFactors).out = .diverge) ∨
    (¬ 254760293 ∣ M.digest x ∧ ∃ k : ℕ, Odd k ∧ k ≤ 33 ∧
      M.hashToCoprime x (curveOrder - 1) getFactors =
        pure (M.hashToZp256 x (curveOrder - 1) + k * 254760293)) := by
  rw [← M.inc_dvd_hashToZp256_iff]
  by_cases hdvd : (254760293 : ℤ) ∣ M.hashToZp256 x (curveOrder - 1)
  · refine Or.inl ⟨hdvd, ?_⟩
    have hnone : coprimeLoop getFactors (M.hashToZp256 x (curveOrder - 1)) = none :=
      Option.eq_none_iff_forall_ne_some.mpr fun r hr ↦
        (exists_coprimeLoop_eq_some_iff _).mp ⟨r, hr⟩ hdvd
    rw [hashToCoprime, hnone]
    rfl
  · refine Or.inr ⟨hdvd, ?_⟩
    obtain ⟨r, hr⟩ := (exists_coprimeLoop_eq_some_iff _).mpr hdvd
    obtain ⟨k, hk, hgcd, hleast⟩ := coprimeLoop_eq_some_iff.mp hr
    rw [hk] at hgcd
    obtain ⟨k', hk', hgcd'⟩ := M.exists_gcd_eq_one ((M.inc_dvd_hashToZp256_iff x).not.mp hdvd)
    refine ⟨k, M.odd_of_gcd_eq_one x hgcd, ?_, ?_⟩
    · by_contra hlt
      exact hleast k' (by omega) hgcd'
    · rw [hashToCoprime, hr, Run.ofOption_some, hk, inc]

end Miracl

end Fussion
