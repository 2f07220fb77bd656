import Fussion.ToolsSpec
import Fussion.Lib.Progression

/-!
# Hashing to a unit modulo the group order of the nonzero residues

`getFactors`, `isCoprime` and `hashToCoprime` of `src/fussion.cpp`.  The aggregator divides its
key by a hash modulo `q - 1`, so the hash has to be coprime to `q - 1`; `hashToCoprime` adds
`254760293` until it is.

`isCoprime` tests what it should: the twelve factors are the primes of `q - 1`
(`isCoprime_getFactors_iff`).  The step of the loop is the last of these primes, so the loop is
left exactly from the hashes that this prime does not divide
(`exists_coprimeLoop_eq_some_iff`).
-/

namespace Fussion

/-- `getFactors`. -/
def getFactors : List ℤ := factorList.map Nat.cast

/-- `isCoprime`. -/
def isCoprime (x : ℤ) : List ℤ → Bool
  | [] => true
  | f :: factors => if x.tmod f = 0 then false else isCoprime x factors

/-- The increment of `hashToCoprime`. -/
def inc : ℤ := 254760293

/-- The loop of `hashToCoprime`, from the hash `hash`. -/
def coprimeLoop (factors : List ℤ) (hash : ℤ) : Option ℤ :=
  whileLoop (fun hash ↦ !isCoprime hash factors) (fun hash ↦ hash + inc) hash

/-- `hashToCoprime`. -/
def Miracl.hashToCoprime {ECP ECP2 FP12 : Type} [AddCommGroup ECP] [AddCommGroup ECP2]
    [CommGroup FP12] (M : Miracl ECP ECP2 FP12) (beHashed module : ℤ) (factors : List ℤ) :
    Exec ℤ :=
  Run.ofOption (coprimeLoop factors (M.hashToZp256 beHashed module))

/-! ## The test -/

/-- `lambda_q` of the source. -/
theorem order_sub_one : (curveOrder : ℤ) - 1 = (curveOrder - 1 : ℕ) :=
  (Int.ofNat_sub prime_curveOrder.one_le).symm

theorem isCoprime_map_cast_iff (x : ℤ) (ps : List ℕ) :
    isCoprime x (ps.map Nat.cast) = true ↔ Avoids ps x := by
  induction ps with
  | nil => exact iff_of_true rfl fun p hp ↦ absurd hp List.not_mem_nil
  | cons p ps ih =>
      rw [List.map_cons, isCoprime, Avoids, List.forall_mem_cons, ← Avoids, ← ih]
      by_cases h : x.tmod p = 0
      · rw [if_pos h]
        exact iff_of_false Bool.false_ne_true fun hn ↦ hn.1 (Int.dvd_of_tmod_eq_zero h)
      · rw [if_neg h]
        exact (and_iff_right fun hd ↦ h (Int.tmod_eq_zero_of_dvd hd)).symm

/-- `isCoprime` with the twelve factors is coprimality to `q - 1`. -/
theorem isCoprime_getFactors_iff (x : ℤ) :
    isCoprime x getFactors = true ↔ x.gcd (curveOrder - 1) = 1 := by
  rw [getFactors, isCoprime_map_cast_iff, order_sub_one]
  change _ ↔ x.natAbs.Coprime (curveOrder - 1)
  constructor
  · intro h
    by_contra hne
    obtain ⟨p, hp, hpx, hpq⟩ := Nat.Prime.not_coprime_iff_dvd.mp hne
    exact h p ((prime_dvd_order_sub_one_iff hp).mp hpq) (Int.natCast_dvd.mpr hpx)
  · intro h p hp hpx
    have hprime := prime_of_mem_factorList p hp
    have hpq := (prime_dvd_order_sub_one_iff hprime).mpr hp
    exact Nat.Prime.not_coprime_iff_dvd.mpr ⟨p, hprime, Int.natCast_dvd.mp hpx, hpq⟩ h

/-! ## The loop -/

theorem iterate_add_inc (n : ℕ) (h : ℤ) : (fun hash ↦ hash + inc)^[n] h = h + n * inc := by
  induction n with
  | zero => simp
  | succ n ih => rw [Function.iterate_succ_apply', ih]; push_cast; ring

/-- What a loop that is left returns: the first term of the progression that is coprime to
`q - 1`. -/
theorem coprimeLoop_eq_some_iff {h r : ℤ} :
    coprimeLoop getFactors h = some r ↔
      ∃ n : ℕ, r = h + n * inc ∧ r.gcd (curveOrder - 1) = 1 ∧
        ∀ m < n, (h + m * inc).gcd (curveOrder - 1) ≠ 1 := by
  simp only [coprimeLoop, whileLoop_eq_some_iff, iterate_add_inc, Bool.not_eq_true',
    ← Bool.not_eq_true, isCoprime_getFactors_iff, ne_eq, not_not]

/-- **The loop is left exactly from the hashes that its step does not divide.**  The step is
one of the primes to be avoided, so its residue never changes; the other eleven are avoided
together by some term of the progression. -/
theorem exists_coprimeLoop_eq_some_iff (h : ℤ) :
    (∃ r, coprimeLoop getFactors h = some r) ↔ ¬ (254760293 : ℤ) ∣ h := by
  have hmem : 254760293 ∈ factorList := by decide
  rw [show (254760293 : ℤ) = ((254760293 : ℕ) : ℤ) from rfl,
    ← exists_avoids_iff prime_of_mem_factorList hmem h]
  have hterm : ∀ n : ℕ, Avoids factorList (h + n * (254760293 : ℕ)) ↔
      isCoprime ((fun hash ↦ hash + inc)^[n] h) getFactors = true := by
    intro n
    rw [getFactors, isCoprime_map_cast_iff, iterate_add_inc]
    rfl
  constructor
  · rintro ⟨r, hr⟩
    obtain ⟨n, rfl, hc, -⟩ := whileLoop_eq_some_iff.mp hr
    exact ⟨n, (hterm n).mpr (by simpa using hc)⟩
  · rintro ⟨n, hn⟩
    by_contra hnone
    have hdiv : coprimeLoop getFactors h = none :=
      Option.eq_none_iff_forall_ne_some.mpr fun r hr ↦ hnone ⟨r, hr⟩
    have := whileLoop_eq_none_iff.mp hdiv n
    rw [(hterm n).mp hn] at this
    cases this

section

variable {ECP ECP2 FP12 : Type} [AddCommGroup ECP] [AddCommGroup ECP2] [CommGroup FP12]
variable (M : Miracl ECP ECP2 FP12)

/-- The hash modulo `q - 1` that the loop starts from. -/
theorem Miracl.hashToZp256_lambda_nonneg (x : ℤ) : 0 ≤ M.hashToZp256 x (curveOrder - 1) := by
  rw [order_sub_one]
  have hpos : 0 < curveOrder - 1 := Nat.sub_pos_of_lt one_lt_curveOrder
  have hlt : curveOrder - 1 < 2 ^ 256 :=
    (Nat.sub_le _ _).trans_lt (curveOrder_lt.trans (by norm_num))
  exact (M.hashToZp256_nonneg_and_lt x hpos hlt).1

/-- A hash that the step does not divide is turned into a nonnegative unit modulo `q - 1`. -/
theorem Miracl.hashToCoprime_eq_pure {x : ℤ}
    (h : ¬ (254760293 : ℤ) ∣ M.hashToZp256 x (curveOrder - 1)) :
    ∃ r : ℕ, M.hashToCoprime x (curveOrder - 1) getFactors = pure (r : ℤ) ∧
      (r : ℤ).gcd (curveOrder - 1) = 1 := by
  obtain ⟨r, hr⟩ := (exists_coprimeLoop_eq_some_iff _).mpr h
  obtain ⟨n, hrn, hgcd, -⟩ := coprimeLoop_eq_some_iff.mp hr
  have hinc : 0 ≤ (n : ℤ) * inc := mul_nonneg (Int.natCast_nonneg n) (by decide)
  have hnonneg : 0 ≤ r := hrn ▸ add_nonneg (M.hashToZp256_lambda_nonneg x) hinc
  lift r to ℕ using hnonneg
  exact ⟨r, by rw [hashToCoprime, hr, Run.ofOption_some], hgcd⟩

/-- What `hashToCoprime` returns is a natural number coprime to `q - 1`, whatever it hashed. -/
theorem Miracl.hashToCoprime_of_ok {x m r : ℤ}
    (h : (M.hashToCoprime x m getFactors).out = .ok r) :
    ∃ k : ℕ, r = k ∧ (k : ℤ).gcd (curveOrder - 1) = 1 := by
  rw [hashToCoprime] at h
  cases hl : coprimeLoop getFactors (M.hashToZp256 x m) with
  | none => rw [hl] at h; cases h
  | some s =>
      rw [hl] at h
      cases h
      obtain ⟨n, hr, hgcd, -⟩ := coprimeLoop_eq_some_iff.mp hl
      have hstart : 0 ≤ M.hashToZp256 x m := by
        rw [hashToZp256, bigToMpz_eq]
        exact Int.natCast_nonneg _
      have hinc : 0 ≤ (n : ℤ) * inc := mul_nonneg (Int.natCast_nonneg n) (by decide)
      have hnonneg : 0 ≤ r := hr ▸ add_nonneg hstart hinc
      lift r to ℕ using hnonneg
      exact ⟨r, rfl, hgcd⟩

/-- `hashToCoprime` that returns does so from a hash that the step does not divide. -/
theorem Miracl.not_dvd_of_hashToCoprime {x r : ℤ}
    (h : (M.hashToCoprime x (curveOrder - 1) getFactors).out = .ok r) :
    ¬ (254760293 : ℤ) ∣ M.hashToZp256 x (curveOrder - 1) := by
  refine (exists_coprimeLoop_eq_some_iff _).mp ?_
  rw [hashToCoprime] at h
  cases hl : coprimeLoop getFactors (M.hashToZp256 x (curveOrder - 1)) with
  | none => rw [hl] at h; cases h
  | some r => exact ⟨r, rfl⟩

/-- **When `hashToCoprime` terminates**: exactly from the hashes that `254760293` does not
divide does the loop reach a value that `isCoprime` accepts, and the function returns. -/
theorem hashToCoprime_terminates_iff (h x : ℤ) :
    ((∃ r, coprimeLoop getFactors h = some r ∧ isCoprime r getFactors = true) ↔
      ¬ (254760293 : ℤ) ∣ h) ∧
    ((∃ r, (M.hashToCoprime x (curveOrder - 1) getFactors).out = .ok r) ↔
      ¬ (254760293 : ℤ) ∣ M.hashToZp256 x (curveOrder - 1)) := by
  refine ⟨?_, fun ⟨r, hr⟩ ↦ M.not_dvd_of_hashToCoprime hr, fun h ↦ ?_⟩
  · rw [← exists_coprimeLoop_eq_some_iff]
    refine exists_congr fun r ↦ and_iff_left_of_imp fun hr ↦ ?_
    obtain ⟨n, -, hgcd, -⟩ := coprimeLoop_eq_some_iff.mp hr
    exact (isCoprime_getFactors_iff r).mpr hgcd
  · obtain ⟨r, hr, -⟩ := M.hashToCoprime_eq_pure h
    exact ⟨r, by rw [hr, Run.out_pure]⟩

end

/-- From the hash `0` the loop is never left. -/
theorem coprimeLoop_zero : coprimeLoop getFactors 0 = none := by
  have h := (exists_coprimeLoop_eq_some_iff 0).not.mpr (by simp)
  exact Option.eq_none_iff_forall_ne_some.mpr fun r hr ↦ h ⟨r, hr⟩

end Fussion
