import Fussion.Exponents
import Fussion.Shares

/-!
# The transformation of the cluster head

`AggSig` turns partial signatures masked under the key `alpha` of the cluster head into
signatures masked under a key that the verifier can compute.  Two moduli meet here: exponents
are divided modulo `q - 1`, and the masks are residues modulo `q` that act on points as scalars.
What makes them fit is that the hash is a unit modulo `q - 1` and that exponents of nonzero
residues count modulo `q - 1` (`pow_eq_pow_of_modEq`).

`aggSig_transparent` says that the transformation is invisible after decryption, whatever the
partial signatures are.
-/

namespace Fussion

open Finset

namespace Miracl

variable {ECP ECP2 FP12 : Type} [AddCommGroup ECP] [AddCommGroup ECP2] [CommGroup FP12]
variable (M : Miracl ECP ECP2 FP12)

/-! ## The shared hash -/

/-- `sharedHash` depends on the class of `base ^ exp` only. -/
theorem sharedHash_eq {pp : Params ECP2} (hq : pp.q = curveOrder) (base : ℤ) {exp : ℤ}
    (h : 0 ≤ exp) : M.sharedHash pp base exp =
      M.hashToCoprime (rep ((base : Zq) ^ exp.toNat)) (curveOrder - 1) getFactors := by
  rw [sharedHash, hq, powMpz_order _ h, pure_bind]

/-- A shared hash that is returned is a natural number coprime to `q - 1`. -/
theorem sharedHash_of_ok {pp : Params ECP2} (hq : pp.q = curveOrder) {base exp h : ℤ}
    (hexp : 0 ≤ exp) (hok : (M.sharedHash pp base exp).out = .ok h) :
    ∃ r : ℕ, h = r ∧ M.sharedHash pp base exp = pure (r : ℤ) ∧
      (r : ℤ).gcd (curveOrder - 1) = 1 := by
  rw [M.sharedHash_eq hq base hexp] at hok ⊢
  obtain ⟨r, hr, hgcd⟩ := M.hashToCoprime_eq_pure (M.not_dvd_of_hashToCoprime hok)
  rw [hr, Run.out_pure] at hok
  cases hok
  exact ⟨r, rfl, hr, hgcd⟩

/-- **The two parties derive the same exponent**: as computations, not only when they end. -/
theorem verifyHash_eq_aggHash {pp : Params ECP2} (hq : pp.q = curveOrder)
    {alpha sk_v PK_v : ℤ} (halpha : 0 ≤ alpha) (hsk : 0 ≤ sk_v)
    (hbeta : (pp.beta : Zq) = (pp.g : Zq) ^ alpha.toNat)
    (hPK : (PK_v : Zq) = (pp.g : Zq) ^ sk_v.toNat) :
    M.verifyHash pp sk_v = M.aggHash pp alpha PK_v := by
  rw [verifyHash, aggHash, M.sharedHash_eq hq _ hsk, M.sharedHash_eq hq _ halpha, hbeta, hPK,
    ← pow_mul, ← pow_mul, mul_comm]

/-! ## The re-encryption key -/

theorem lambda_pos : (0 : ℤ) < curveOrder - 1 := by
  have := one_lt_curveOrder
  omega

/-- The re-encryption key times the hash is `alpha`, modulo `q - 1`. -/
theorem reKey_eq {pp : Params ECP2} (hq : pp.q = curveOrder) {alpha PK_v : ℤ} (halpha : 0 ≤ alpha)
    {h : ℕ} (hhash : M.aggHash pp alpha PK_v = pure (h : ℤ))
    (hgcd : (h : ℤ).gcd (curveOrder - 1) = 1) :
    ∃ rk : ℕ, M.reKey pp alpha PK_v = Run.ret [⟨h, curveOrder - 1⟩] (rk : ℤ) ∧
      rk * h ≡ alpha.toNat [MOD curveOrder - 1] ∧ (rk = 0 ↔ (curveOrder : ℤ) - 1 ∣ alpha) := by
  obtain ⟨hinv₀, -, -⟩ := modInv_spec lambda_pos hgcd
  have hrk₀ : 0 ≤ (alpha * modInv h (curveOrder - 1)).tmod (curveOrder - 1) :=
    Int.tmod_nonneg _ (mul_nonneg halpha hinv₀)
  have hmod : (alpha * modInv h (curveOrder - 1)).tmod (curveOrder - 1) * h ≡ alpha
      [ZMOD curveOrder - 1] := by
    rw [Int.tmod_eq_emod_of_nonneg (mul_nonneg halpha hinv₀)]
    exact ((Int.mod_modEq _ _).mul_right _).trans (mul_modInv_mul_modEq lambda_pos hgcd alpha)
  refine ⟨((alpha * modInv h (curveOrder - 1)).tmod (curveOrder - 1)).toNat, ?_, ?_, ?_⟩
  · simp only [reKey, hhash, hq, invertMpz_eq, pure_bind, Run.ret_bind, remMpz,
      if_neg lambda_pos.ne', Run.after_pure, Int.toNat_of_nonneg hrk₀]
  · rw [← Int.natCast_modEq_iff, ← order_sub_one]
    push_cast
    rwa [Int.toNat_of_nonneg hrk₀, Int.toNat_of_nonneg halpha]
  · rw [← Int.natCast_eq_zero, Int.toNat_of_nonneg hrk₀]
    constructor
    · intro h0
      rw [h0, zero_mul] at hmod
      exact Int.dvd_of_emod_eq_zero hmod.symm
    · rintro ⟨c, rfl⟩
      rw [mul_assoc, Int.mul_tmod_right]

/-- **`hashToCoprime` is correct where it can succeed.**  `isCoprime` decides coprimality to
`q - 1`.  From a hash that `254760293` does not divide the loop returns the first term of the
progression that is coprime to `q - 1`, and `AggSig` can divide by it. -/
theorem hashToCoprime_correct :
    (∀ x : ℤ, isCoprime x getFactors = true ↔ x.gcd (curveOrder - 1) = 1) ∧
    ∀ h : ℤ, ¬ (254760293 : ℤ) ∣ h → ∃ (k : ℕ) (r : ℤ), r = h + k * 254760293 ∧
      coprimeLoop getFactors h = some r ∧
      (∀ x, M.hashToZp256 x (curveOrder - 1) = h →
        M.hashToCoprime x (curveOrder - 1) getFactors = pure r) ∧
      r.gcd (curveOrder - 1) = 1 ∧ (∀ m < k, (h + m * 254760293).gcd (curveOrder - 1) ≠ 1) ∧
      ∃ inv, (invertMpz r (curveOrder - 1)).out = .ok inv ∧ 0 ≤ inv ∧ inv < curveOrder - 1 ∧
        r * inv ≡ 1 [ZMOD curveOrder - 1] ∧
        ∀ alpha : ℤ, alpha * inv * r ≡ alpha [ZMOD curveOrder - 1] := by
  refine ⟨isCoprime_getFactors_iff, fun h hh ↦ ?_⟩
  obtain ⟨r, hr⟩ := (exists_coprimeLoop_eq_some_iff h).mpr hh
  obtain ⟨k, hrk, hgcd, hleast⟩ := coprimeLoop_eq_some_iff.mp hr
  obtain ⟨hinv₀, hinv₁, hinv⟩ := modInv_spec lambda_pos hgcd
  refine ⟨k, r, hrk, hr, ?_, hgcd, hleast, modInv r (curveOrder - 1), ?_, hinv₀, hinv₁, hinv,
    mul_modInv_mul_modEq lambda_pos hgcd⟩
  · rintro x rfl
    rw [hashToCoprime, hr, Run.ofOption_some]
  · rw [invertMpz_eq, Run.out_ret]

/-- `hashToCoprime_correct` from the hash `2 ^ 128`. -/
theorem hashToCoprime_correct_exponents :
    ∃ (k : ℕ) (r : ℤ), r = 2 ^ 128 + k * 254760293 ∧ coprimeLoop getFactors (2 ^ 128) = some r ∧
      exponents.hashToCoprime 1 (curveOrder - 1) getFactors = pure r ∧
      r.gcd (curveOrder - 1) = 1 ∧
      ∃ inv, (invertMpz r (curveOrder - 1)).out = .ok inv ∧ r * inv ≡ 1 [ZMOD curveOrder - 1] := by
  obtain ⟨k, r, hr, hloop, hhash, hgcd, -, inv, hinv, -, -, hmul, -⟩ :=
    exponents.hashToCoprime_correct.2 (2 ^ 128) (by norm_num)
  exact ⟨k, r, hr, hloop, hhash 1 (hashToZp256_exponents_lambda 1), hgcd, inv, hinv, hmul⟩

/-! ## The transformation -/

section Reencrypt

variable [Module Zq ECP]

/-- What `AggSig` makes of the partial signatures, as classes. -/
def reencrypt (pp : Params ECP2) (rk : ℕ) (e : Fin curveOrder) (parSigs : List (ParSig ECP)) :
    Sigma ECP where
  aux := parSigs.map fun p ↦ rep (((p.cj : Zq) * (pp.g : Zq) ^ (randMpz e).toNat) ^ rk)
  sig := parSigs.map fun p ↦ (pp.beta : Zq) ^ (randMpz e).toNat • p.sig
  IDs := parSigs.map ParSig.ID

theorem aggSig_eq {pp : Params ECP2} (hq : pp.q = curveOrder) (uavH : UAVh) {PK_v : ℤ}
    {log : List InvertCall} {rk : ℕ}
    (hrk : M.reKey pp uavH.alpha PK_v = Run.ret log (rk : ℤ)) (e : Fin curveOrder)
    (parSigs : List (ParSig ECP)) :
    M.aggSig parSigs pp uavH PK_v e = Run.ret log (reencrypt pp rk e parSigs) := by
  rw [aggSig, hrk, Run.ret_bind, hq, powMpz_order _ (randMpz_pos e).le, pure_bind,
    powMpz_order _ (randMpz_pos e).le, pure_bind]
  refine (congrArg (Run.after log) (Run.upTo_eq_pure
    (fun i ↦ reencrypt pp rk e (parSigs.take i)) rfl ?_)).trans ?_
  · intro i hi
    have hget : parSigs[i]? = some parSigs[i] := List.getElem?_eq_getElem hi
    rw [subscript_of_getElem? hget, pure_bind, remMpz_order, pure_bind,
      powMpz_order _ (Int.natCast_nonneg rk), pure_bind, cast_tmod, Int.cast_mul, cast_rep,
      ecpMul_rep, Int.toNat_natCast]
    simp only [reencrypt, List.take_add_one, hget, Option.toList_some, List.map_append,
      List.map_singleton]
  · rw [Run.after_pure, List.take_length]

/-- Decrypting a transformed signature with the hash is decrypting the partial signature with
`alpha`: the factor `beta ^ e` of the point is the mask of the factor `g ^ e`. -/
theorem decrypt_reencrypt {g beta c : Zq} {alpha rk h e : ℕ} (hbeta : beta = g ^ alpha)
    (hrk : rk * h ≡ alpha [MOD curveOrder - 1]) (hg : g ≠ 0) (hc : c ≠ 0) (P : ECP) :
    (((c * g ^ e) ^ rk) ^ h)⁻¹ • beta ^ e • P = (c ^ alpha)⁻¹ • P := by
  have hge : g ^ e ≠ 0 := pow_ne_zero e hg
  have haux : ((c * g ^ e) ^ rk) ^ h = c ^ alpha * (g ^ e) ^ alpha := by
    rw [← pow_mul, pow_eq_pow_of_modEq (mul_ne_zero hc hge) hrk, mul_pow]
  have hmask : beta ^ e = (g ^ e) ^ alpha := by rw [hbeta, ← pow_mul, ← pow_mul, mul_comm]
  rw [haux, hmask, smul_smul, mul_inv, mul_assoc, inv_mul_cancel₀ (pow_ne_zero alpha hge), mul_one]

/-- **Re-encryption is transparent.**  Whatever the partial signatures are, `AggSig` keeps their
number and order, `Verify` derives the exponent that `AggSig` used, and decrypting a transformed
signature under it gives what decrypting the partial signature under `alpha` gives; the draw `e`
has cancelled. -/
theorem aggSig_transparent (parSigs : List (ParSig ECP))
    (hcj : ∀ p ∈ parSigs, ¬ (curveOrder : ℤ) ∣ p.cj) {pp : Params ECP2} (hq : pp.q = curveOrder)
    (hg : ¬ (curveOrder : ℤ) ∣ pp.g) {uavH : UAVh} {alpha sk_v PK_v : ℤ}
    (halpha : 1 ≤ alpha ∧ alpha ≤ curveOrder) (hsk : 1 ≤ sk_v ∧ sk_v ≤ curveOrder)
    (huavH : uavH.alpha = alpha) (hbeta : powMpz pp.g alpha pp.q = pure pp.beta)
    (hPK : powMpz pp.g sk_v pp.q = pure PK_v)
    (hterm : ∃ h, (M.aggHash pp alpha PK_v).out = .ok h) (e : Fin curveOrder) :
    ∃ S h, (M.aggSig parSigs pp uavH PK_v e).out = .ok S ∧
      S.aux.length = parSigs.length ∧ S.sig.length = parSigs.length ∧
      S.IDs = parSigs.map ParSig.ID ∧
      (M.aggHash pp alpha PK_v).out = .ok h ∧ (M.verifyHash pp sk_v).out = .ok h ∧
      ∀ (i : ℕ) (p : ParSig ECP), parSigs[i]? = some p →
        ∃ aux sig, S.aux[i]? = some aux ∧ S.sig[i]? = some sig ∧
          ((aux : Zq) ^ h.toNat)⁻¹ • sig = ((p.cj : Zq) ^ alpha.toNat)⁻¹ • p.sig := by
  have halpha₀ : 0 ≤ alpha := by omega
  have hsk₀ : 0 ≤ sk_v := by omega
  rw [hq, powMpz_order _ halpha₀, Run.pure_inj] at hbeta
  rw [hq, powMpz_order _ hsk₀, Run.pure_inj] at hPK
  have hbeta' : (pp.beta : Zq) = (pp.g : Zq) ^ alpha.toNat := by rw [← hbeta, cast_rep]
  have hsame : M.verifyHash pp sk_v = M.aggHash pp alpha PK_v :=
    M.verifyHash_eq_aggHash hq halpha₀ hsk₀ hbeta' (by rw [← hPK, cast_rep])
  obtain ⟨h, hh⟩ := hterm
  obtain ⟨r, rfl, hhash, hgcd⟩ := M.sharedHash_of_ok hq halpha₀ hh
  obtain ⟨rk, hrk, hmod, -⟩ := M.reKey_eq hq halpha₀ hhash hgcd
  rw [← huavH] at hrk
  refine ⟨reencrypt pp rk e parSigs, r, by rw [M.aggSig_eq hq uavH hrk e parSigs, Run.out_ret],
    by simp only [reencrypt, List.length_map], by simp only [reencrypt, List.length_map], rfl, hh,
    by rw [hsame, hh], ?_⟩
  intro i p hp
  have hcj₀ : (p.cj : Zq) ≠ 0 := cast_ne_zero_iff.mpr (hcj p (List.mem_of_getElem? hp))
  refine ⟨_, _, by rw [reencrypt, List.getElem?_map, hp]; rfl,
    by rw [reencrypt, List.getElem?_map, hp]; rfl, ?_⟩
  rw [cast_rep, Int.toNat_natCast]
  exact decrypt_reencrypt hbeta' hmod (cast_ne_zero_iff.mpr hg) hcj₀ p.sig

end Reencrypt

end Miracl

/-- A power below the order is not reduced. -/
theorem powMpz_of_lt {base exp : ℤ} (hbase : 0 ≤ base) (hexp : 0 ≤ exp)
    (hlt : base ^ exp.toNat < curveOrder) :
    powMpz base exp curveOrder = pure (base ^ exp.toNat) := by
  rw [powMpz_order base hexp, ← Int.cast_pow, rep_intCast_of_lt (pow_nonneg hbase _) hlt]

theorem powMpz_one : powMpz 1 1 curveOrder = pure 1 :=
  powMpz_of_lt zero_le_one zero_le_one (Nat.one_lt_cast.mpr one_lt_curveOrder)

theorem lt_order_of_lt {a : ℤ} (h : a < 2 ^ 254) : a < curveOrder :=
  h.trans (by exact_mod_cast lt_curveOrder)

/-- `aggSig_transparent` on two partial signatures, with `g = 2`, `alpha = 3`, `sk_v = 5` and the
draw `1` for `e`. -/
theorem aggSig_transparent_exponents :
    let pp : Params Zq :=
      { n := 2, tm := 2, q := curveOrder, P2 := 1, g := 2, beta := 8, PK := [] }
    let parSigs : List (ParSig Zq) :=
      [{ cj := 3, sig := 5, ID := 7 }, { cj := 6, sig := 4, ID := 9 }]
    ∃ S h, (exponents.aggSig parSigs pp { ID := 3, alpha := 3 } 32 1).out = .ok S ∧
      S.aux.length = 2 ∧ S.sig.length = 2 ∧ S.IDs = [7, 9] ∧
      (exponents.aggHash pp 3 32).out = .ok h ∧ (exponents.verifyHash pp 5).out = .ok h ∧
      ∀ (i : ℕ) (p : ParSig Zq), parSigs[i]? = some p →
        ∃ aux sig, S.aux[i]? = some aux ∧ S.sig[i]? = some sig ∧
          ((aux : Zq) ^ h.toNat)⁻¹ • sig = ((p.cj : Zq) ^ (3 : ℤ).toNat)⁻¹ • p.sig := by
  have hbeta : powMpz 2 3 curveOrder = pure 8 :=
    powMpz_of_lt (by decide) (by decide) (lt_order_of_lt (by decide))
  have hPK : powMpz 2 5 curveOrder = pure 32 :=
    powMpz_of_lt (by decide) (by decide) (lt_order_of_lt (by decide))
  refine exponents.aggSig_transparent _ ?_ rfl (not_order_dvd (by decide) (by decide))
    ⟨by decide, (lt_order_of_lt (by decide)).le⟩ ⟨by decide, (lt_order_of_lt (by decide)).le⟩ rfl
    hbeta hPK ?_ 1
  · intro p hp
    rcases List.mem_pair.mp hp with rfl | rfl
    · exact not_order_dvd (by decide) (by decide)
    · exact not_order_dvd (by decide) (by decide)
  · rw [Miracl.aggHash, exponents.sharedHash_eq rfl 32 (by decide)]
    exact exists_hashToCoprime_exponents _

end Fussion
