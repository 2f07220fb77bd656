import Fussion.Verify

/-!
# The pipeline

`fussion` runs `Setup`, `KeyGen`, `collectSig`, `AggSig` and `Verify` one after the other.
`fussion_eq` puts the results of the single functions together: for every choice of the draws
it gives the verdict as a comparison of two pairings, and the list of all `invert_mpz` calls.

From it follow completeness (`fussion_complete`), where the interpolation, the re-encryption
and the public key have to meet at the same polynomial, and the exact condition on the draws
under which all inverses exist (`fussion_inverses_iff`).
-/

namespace Fussion

open Finset

namespace Miracl

variable {ECP ECP2 FP12 : Type} [AddCommGroup ECP] [AddCommGroup ECP2] [CommGroup FP12]
variable (M : Miracl ECP ECP2 FP12)

/-! ## Key generation -/

section Keys

variable [Module Zq ECP2]

/-- The public key on the drawn coefficients. -/
def publicKey (tm : Int32) (b : ℕ → Fin curveOrder) : List ECP2 :=
  (List.range (count (tm - 1))).map fun i ↦
    (∏ j ∈ range (i + 1), (randMpz (b j) : Zq)) • M.generator2

/-- The public parameters that `Setup` and `getPK` make of their draws. -/
def issuedParams (n tm : Int32) (g alpha : Fin curveOrder) (b : ℕ → Fin curveOrder) :
    Params ECP2 :=
  { M.setupParams n tm g alpha with PK := M.publicKey tm b }

theorem getPK_coefficients {tm : Int32} (htm : 2 ≤ tm.toInt) (b : ℕ → Fin curveOrder) :
    M.getPK (coefficients tm b) = pure (M.publicKey tm b) := by
  have hcount : (count (tm - 1) : ℤ) = tm.toInt - 1 := cast_count_sub_one (by omega)
  have hne : coefficients tm b ≠ [] := by
    rw [← List.length_pos_iff, length_coefficients]
    omega
  have hrange : ∀ x ∈ coefficients tm b, 0 ≤ x ∧ x ≤ curveOrder := by
    intro x hx
    obtain ⟨i, -, rfl⟩ := List.mem_map.mp hx
    exact ⟨(randMpz_pos _).le, randMpz_le _⟩
  rw [M.getPK_eq hne hrange, length_coefficients]
  refine congrArg pure (List.map_congr_left fun i hi ↦ ?_)
  rw [List.mem_range] at hi
  refine congrArg (· • M.generator2) (prod_congr rfl fun j hj ↦ ?_)
  exact cls_coefficients tm b (by have := mem_range.mp hj; omega)

theorem keyGen_eq {pp : Params ECP2} (hq : pp.q = curveOrder) (htm : 2 ≤ pp.tm.toInt) (alpha : ℤ)
    (r : KeyDraws) :
    M.keyGen pp alpha r = pure ({ pp with PK := M.publicKey pp.tm r.b },
      (List.range (count pp.n)).map (fun j ↦
        issuedUAV pp pp.tm r.b r.d (randMpz (r.ID j)) (r.u j)),
      { ID := randMpz r.IDh, alpha := alpha }) := by
  simp only [keyGen, M.getPK_coefficients htm, pure_bind]
  refine Run.bind_of_eq_pure (Run.upTo_push_pure _ fun j hj acc ↦ ?_) _
  exact Run.bind_of_eq_pure
    (getUAV_coefficients (by exact hq) pp.tm r.b r.d (randMpz_pos _).le _) _

end Keys

/-! ## One run -/

section Run

variable [Module Zq ECP] [Module Zq ECP2]

/-- The partial signatures that the first `t` UAVs make with issued keys. -/
def issuedSigs (pp : Params ECP2) (r : KeyDraws) (t : Int32) (msg : ℤ) : List (ParSig ECP) :=
  (List.range (count t)).map fun i ↦
    M.partialSig (issuedUAV pp pp.tm r.b r.d (randMpz (r.ID i)) (r.u i)) t msg

omit [Module Zq ECP2] in
/-- Issued keys are long enough for every threshold up to `tm`. -/
theorem sign_issuedUAV {pp : Params ECP2} (hq : pp.q = curveOrder) {t : Int32}
    (h : count (t - 1) ≤ count (pp.tm - 1)) (b d : ℕ → Fin curveOrder) (id : ℤ)
    (u : ℕ → Fin curveOrder) (msg : ℤ) :
    M.sign pp (issuedUAV pp pp.tm b d id u) t msg =
      pure (M.partialSig (issuedUAV pp pp.tm b d id u) t msg) :=
  M.sign_eq hq (by rwa [length_c1_issuedUAV]) (by rwa [length_c2_issuedUAV])
    (nonneg_map_rep _ _) (nonneg_map_rep _ _) msg

omit [Module Zq ECP2] in
/-- `collectSig` on the keys that `KeyGen` issues. -/
theorem collectSig_issued {pp : Params ECP2} (hq : pp.q = curveOrder) {t : Int32}
    (ht : 1 ≤ t.toInt) (htm : t.toInt ≤ pp.tm.toInt) (hn : t.toInt ≤ pp.n.toInt) (r : KeyDraws)
    (msg : ℤ) :
    M.collectSig pp ((List.range (count pp.n)).map fun j ↦
      issuedUAV pp pp.tm r.b r.d (randMpz (r.ID j)) (r.u j)) t msg =
      pure (M.issuedSigs pp r t msg) := by
  have hcount : count (t - 1) ≤ count (pp.tm - 1) := count_sub_one_mono ht htm
  refine M.collectSig_eq fun i hi ↦ ⟨_, ?_, M.sign_issuedUAV hq hcount _ _ _ _ msg⟩
  rw [List.getElem?_map, List.getElem?_range (lt_of_lt_of_le hi (count_mono hn))]
  rfl

omit [Module Zq ECP] in
/-- The entry of the public key that `Verify` reads for the threshold `t`. -/
theorem publicKey_getElem? {t tm : Int32} (ht : 2 ≤ t.toInt) (htm : t.toInt ≤ tm.toInt)
    (b : ℕ → Fin curveOrder) : (M.publicKey tm b)[count t - 2]? =
      some ((∏ j ∈ range (count (t - 1)), (randMpz (b j) : Zq)) • M.generator2) := by
  have hcount : 2 ≤ count t := Int.le_toNat (by omega) |>.mpr ht
  have hlt : count t - 2 < count (tm - 1) := by
    rw [count_sub_one (by omega)]
    have := count_mono htm
    omega
  have hlast : count t - 2 + 1 = count (t - 1) := by
    rw [count_sub_one (by omega)]
    omega
  rw [publicKey, List.getElem?_map, List.getElem?_range hlt, Option.map_some, hlast]

/-- What one run computes: the re-encryption key, the calls of `invert_mpz`, the verdict. -/
theorem fussion_eq [DecidableEq FP12] {n tm t : Int32} (ht : 2 ≤ t.toInt)
    (htm : t.toInt ≤ tm.toInt) (hn : t.toInt ≤ n.toInt) (msg : ℤ) (r : Draws)
    {pp : Params ECP2} (hpp : pp = M.issuedParams n tm r.g r.alpha r.key.b) {h : ℕ}
    (hhash : M.verifyHash pp (randMpz r.sk_v) = pure (h : ℤ))
    (hgcd : (h : ℤ).gcd (curveOrder - 1) = 1) :
    ∃ rk : ℕ, rk * h ≡ (randMpz r.alpha).toNat [MOD curveOrder - 1] ∧
      (rk = 0 ↔ (curveOrder : ℤ) - 1 ∣ randMpz r.alpha) ∧
      M.fussion n tm t msg r =
        let S := reencrypt pp rk r.e (M.issuedSigs pp r.key t msg)
        Run.ret (⟨h, curveOrder - 1⟩ :: ((List.range (count t)).flatMap (pi0Calls S.IDs t) ++
            (List.range (count t)).map (auxCall S h)))
          (if M.e (combined S h t) M.generator2 = M.e (M.hashToPoint msg curveOrder)
              ((∏ j ∈ range (count (t - 1)), (randMpz (r.key.b j) : Zq)) • M.generator2)
            then 1 else 0) := by
  have hq : pp.q = curveOrder := by rw [hpp]; rfl
  have htm' : pp.tm = tm := by rw [hpp]; rfl
  have hn' : pp.n = n := by rw [hpp]; rfl
  have hPK := M.publicKey_getElem? ht htm r.key.b
  have hkey := M.keyGen_eq rfl (show 2 ≤ (M.setupParams n tm r.g r.alpha).tm.toInt from
    ht.trans htm) (randMpz r.alpha) r.key
  have hcollect := M.collectSig_issued hq (by omega) (htm' ▸ htm) (hn' ▸ hn) r.key msg
  have hagg : M.aggHash pp (randMpz r.alpha)
      (rep ((pp.g : Zq) ^ (randMpz r.sk_v).toNat)) = pure (h : ℤ) := by
    rw [← hhash, hpp]
    exact (M.verifyHash_eq_aggHash rfl (randMpz_pos _).le (randMpz_pos _).le (cast_rep _)
      (cast_rep _)).symm
  obtain ⟨rk, hrk, hmod, hzero⟩ := M.reKey_eq hq (randMpz_pos _).le hagg hgcd
  have hlen : (M.issuedSigs pp r.key t msg).length = count t := by
    simp only [issuedSigs, List.length_map, List.length_range]
  have hID : Nonneg (reencrypt pp rk r.e (M.issuedSigs pp r.key t msg)).IDs := by
    intro x hx
    simp only [reencrypt, issuedSigs, List.map_map, List.mem_map] at hx
    obtain ⟨i, -, rfl⟩ := hx
    exact (randMpz_pos _).le
  have hsigma := M.aggSig_eq hq { ID := randMpz r.key.IDh, alpha := randMpz r.alpha } hrk r.e
    (M.issuedSigs pp r.key t msg)
  refine ⟨rk, hmod, hzero, ?_⟩
  subst hpp
  have hverify := M.verify_eq hq ht hID (by simp [reencrypt, hlen]) (by simp [reencrypt, hlen])
    (by simp [reencrypt, hlen]) hhash hPK msg
  simp only [fussion, M.setup_eq, pure_bind, hkey]
  refine (Run.bind_of_eq_pure hcollect _).trans ?_
  refine (Run.bind_of_eq_pure (powMpz_order _ (randMpz_pos _).le) _).trans ?_
  refine (Run.bind_of_eq_ret hsigma _).trans ?_
  exact congrArg (Run.after _) hverify

/-! ## Completeness -/

omit [Module Zq ECP2] in
/-- The three components of a transformed signature on issued keys, at one index. -/
theorem reencrypt_issuedSigs (pp : Params ECP2) (r : KeyDraws) (rk : ℕ) (e : Fin curveOrder)
    (msg : ℤ) {t : Int32} {i : ℕ} (hi : i < count t) :
    let S := reencrypt pp rk e (M.issuedSigs pp r t msg)
    let key := issuedUAV pp pp.tm r.b r.d (randMpz (r.ID i)) (r.u i)
    cls S.IDs i = randMpz (r.ID i) ∧
      cls S.aux i =
        ((∏ j ∈ range (count (t - 1)), cls key.c1 j) * (pp.g : Zq) ^ (randMpz e).toNat) ^ rk ∧
      S.sig.getD i 0 = (pp.beta : Zq) ^ (randMpz e).toNat •
        (∏ j ∈ range (count (t - 1)), cls key.c2 j) • M.hashToPoint msg curveOrder := by
  simp only [reencrypt, issuedSigs, List.map_map, cls]
  rw [getD_map_range _ _ hi, getD_map_range _ _ hi, getD_map_range _ _ hi]
  refine ⟨rfl, ?_, rfl⟩
  simp only [Function.comp_apply, partialSig, cast_rep]
  rfl

omit [Module Zq ECP2] in
/-- On issued keys, the point that `Verify` accumulates is the threshold signature. -/
theorem combined_issued {pp : Params ECP2} {alpha : ℕ}
    (hbeta : (pp.beta : Zq) = (pp.g : Zq) ^ alpha) (hg : (pp.g : Zq) ≠ 0) (r : KeyDraws)
    {t : Int32} (ht : 1 ≤ t.toInt) (htm : t.toInt ≤ pp.tm.toInt)
    (hID : ∀ i < count t, (randMpz (r.ID i) : Zq) ≠ 0)
    (hinj : Set.InjOn (fun i ↦ (randMpz (r.ID i) : Zq)) (range (count t))) {rk h : ℕ}
    (hrk : rk * h ≡ alpha [MOD curveOrder - 1]) (e : Fin curveOrder) (msg : ℤ) :
    combined (reencrypt pp rk e (M.issuedSigs pp r t msg)) h t =
      (∏ j ∈ range (count (t - 1)), (randMpz (r.b j) : Zq)) • M.hashToPoint msg curveOrder := by
  set S := reencrypt pp rk e (M.issuedSigs pp r t msg)
  have hlen : count (t - 1) ≤ count (pp.tm - 1) := count_sub_one_mono ht htm
  let F := prodLinear (fun i ↦ (randMpz (r.d i) : Zq)) (fun i ↦ (randMpz (r.b i) : Zq))
    (count (t - 1))
  have hcls : ∀ i < count t, cls S.IDs i = randMpz (r.ID i) := fun i hi ↦
    (M.reencrypt_issuedSigs pp r rk e msg hi).1
  -- Decryption leaves the share of the polynomial at each index.
  have hterm : ∀ i ∈ range (count t),
      (coeffZero (cls S.IDs) (count t) i * (cls S.aux i ^ h)⁻¹) • S.sig.getD i 0 =
        (coeffZero (cls S.IDs) (count t) i * F.eval (cls S.IDs i)) •
          M.hashToPoint msg curveOrder := by
    intro i hi
    have hi : i < count t := mem_range.mp hi
    obtain ⟨hid, haux, hsig⟩ := M.reencrypt_issuedSigs pp r rk e msg hi
    have hmask := prod_c1_issuedUAV_ne_zero hg r.b r.d (randMpz (r.ID i)) (r.u i) hlen
    rw [mul_smul, haux, hsig, decrypt_reencrypt hbeta hrk hg hmask, smul_smul, smul_smul, hid,
      prod_c2_issuedUAV hbeta _ _ _ _ hlen, mul_assoc, inv_mul_cancel_left₀ (pow_ne_zero _ hmask)]
  have hdeg : F.degree < count t := by
    have hsucc : count t = count (t - 1) + 1 := by
      rw [count_sub_one ht, count]
      omega
    rw [hsucc]
    exact degree_prodLinear_lt _ _ _
  have hsum : ∑ i ∈ range (count t), coeffZero (cls S.IDs) (count t) i * F.eval (cls S.IDs i) =
      F.eval 0 := by
    refine sum_coeffZero_mul_eval (fun i hi ↦ (hcls i hi).symm ▸ hID i hi) ?_ hdeg
    intro i hi j hj hij
    rw [hcls i (mem_range.mp hi), hcls j (mem_range.mp hj)] at hij
    exact hinj hi hj hij
  rw [combined, sum_congr rfl hterm, ← sum_smul, hsum, eval_prodLinear]
  simp only [mul_zero, zero_add]

end Run

end Miracl

/-- `beta ^ sk_v`, the value that the cluster head and the verifier share. -/
def sharedValue (r : Draws) : Exec ℤ := do
  let beta ← powMpz (randMpz r.g) (randMpz r.alpha) curveOrder
  powMpz beta (randMpz r.sk_v) curveOrder

section

variable {ECP ECP2 FP12 : Type} [AddCommGroup ECP] [AddCommGroup ECP2] [CommGroup FP12]
variable [Module Zq ECP] [Module Zq ECP2] (M : Miracl ECP ECP2 FP12)

omit [Module Zq ECP] in
/-- `Verify` hashes the shared value. -/
theorem verifyHash_issuedParams (n tm : Int32) (r : Draws) {x : ℤ} (hx : sharedValue r = pure x) :
    M.verifyHash (M.issuedParams n tm r.g r.alpha r.key.b) (randMpz r.sk_v) =
      M.hashToCoprime x (curveOrder - 1) getFactors := by
  rw [sharedValue, powMpz_order _ (randMpz_pos _).le, pure_bind] at hx
  exact Run.bind_of_eq_pure hx _

/-- **Completeness.**  A run of the whole pipeline reads no vector out of range and ends with
the verdict `1`, whatever the draws are: only the base must not vanish modulo the order, the
IDs of the signing UAVs must be distinct and nonzero, and the hash of the shared value must not
be a multiple of the step of `hashToCoprime`. -/
theorem fussion_complete [DecidableEq FP12] (n tm t : Int32) (ht : 2 ≤ t.toInt)
    (htm : t.toInt ≤ tm.toInt) (hn : t.toInt ≤ n.toInt) (msg : ℤ) (r : Draws)
    (hg : ¬ (curveOrder : ℤ) ∣ randMpz r.g)
    (hID : ∀ i < count t, ¬ (curveOrder : ℤ) ∣ randMpz (r.key.ID i))
    (hdistinct : ∀ i < count t, ∀ j < count t, i ≠ j →
      ¬ (curveOrder : ℤ) ∣ randMpz (r.key.ID i) - randMpz (r.key.ID j))
    {x : ℤ} (hx : sharedValue r = pure x)
    (hhash : ¬ (254760293 : ℤ) ∣ M.hashToZp256 x (curveOrder - 1)) :
    (M.fussion n tm t msg r).out = .ok 1 := by
  obtain ⟨h, hh, hgcd⟩ := M.hashToCoprime_eq_pure hhash
  rw [← verifyHash_issuedParams M n tm r hx] at hh
  obtain ⟨rk, hrk, -, heq⟩ := M.fussion_eq ht htm hn msg r rfl hh hgcd
  have hinj : Set.InjOn (fun i ↦ (randMpz (r.key.ID i) : Zq)) (range (count t)) := by
    intro i hi j hj hij
    by_contra hne
    refine cast_ne_zero_iff.mpr (hdistinct i (mem_range.mp hi) j (mem_range.mp hj) hne) ?_
    rw [Int.cast_sub, sub_eq_zero]
    exact hij
  have hbeta : ((M.issuedParams n tm r.g r.alpha r.key.b).beta : Zq) =
      ((M.issuedParams n tm r.g r.alpha r.key.b).g : Zq) ^ (randMpz r.alpha).toNat := cast_rep _
  rw [heq, Run.out_ret, M.combined_issued hbeta (cast_ne_zero_iff.mpr hg) r.key (by omega) htm
    (fun i hi ↦ cast_ne_zero_iff.mpr (hID i hi)) hinj hrk, M.e_smul_comm, if_pos rfl]

/-- Draws that are all `1`, apart from the IDs. -/
def unitDraws (ID : ℕ → Fin curveOrder) : Draws where
  g := 0
  alpha := 0
  key := { b := fun _ ↦ 0, d := fun _ ↦ 0, ID := ID, u := fun _ _ ↦ 0, IDh := 0 }
  sk_v := 0
  e := 0

theorem randMpz_zero : randMpz 0 = 1 := rfl

theorem sharedValue_unitDraws (ID : ℕ → Fin curveOrder) : sharedValue (unitDraws ID) = pure 1 := by
  rw [sharedValue, unitDraws, randMpz_zero, powMpz_one, pure_bind, powMpz_one]

/-- `fussion_complete` on two UAVs with the IDs `1` and `2`. -/
theorem fussion_complete_two :
    (exponents.fussion 2 2 2 123456789
      (unitDraws fun i ↦ ⟨i % 2, mod_two_lt_order i⟩)).out = .ok 1 := by
  refine fussion_complete exponents 2 2 2 (by decide) (by decide) (by decide) _ _
    (not_order_dvd (by decide) (by decide)) ?_ ?_ (sharedValue_unitDraws _)
    (not_dvd_hashToZp256_exponents 1)
  · intro i hi
    refine not_order_dvd (randMpz_pos _).ne' ?_
    rw [randMpz, abs_of_nonneg (by positivity)]
    simp only [unitDraws]
    omega
  · intro i hi j hj hij
    have hcount : count 2 = 2 := rfl
    simp only [unitDraws, randMpz]
    exact not_order_dvd (by omega) (abs_lt.mpr (by omega))

/-! ## Inverses -/

/-- The order minus one divides only itself among the draws. -/
theorem lambda_dvd_randMpz_iff (r : Fin curveOrder) :
    (curveOrder : ℤ) - 1 ∣ randMpz r ↔ randMpz r = curveOrder - 1 := by
  have hlt := lt_curveOrder
  constructor
  · rintro ⟨c, hc⟩
    have hpos := randMpz_pos r
    have hle := randMpz_le r
    rw [hc] at hpos hle ⊢
    have hc₀ : 0 < c := pos_of_mul_pos_right hpos (by omega)
    have hc₁ : c < 2 := by
      by_contra hc₂
      have := mul_le_mul_of_nonneg_left (not_lt.mp hc₂) (show (0 : ℤ) ≤ curveOrder - 1 by omega)
      omega
    obtain rfl : c = 1 := by omega
    rw [mul_one]
  · exact fun h ↦ ⟨1, by rw [h, mul_one]⟩

theorem gcd_randMpz_eq_one_iff (r : Fin curveOrder) :
    (randMpz r).gcd curveOrder = 1 ↔ randMpz r ≠ curveOrder := by
  rw [gcd_eq_one_iff, Ne, cast_randMpz_eq_zero_iff]

/-- Distinct draws are distinct modulo the order. -/
theorem cast_randMpz_injective : Function.Injective fun r ↦ (randMpz r : Zq) := by
  intro r s h
  have hdvd : (curveOrder : ℤ) ∣ randMpz r - randMpz s := by
    rw [← ZMod.intCast_zmod_eq_zero_iff_dvd, Int.cast_sub, sub_eq_zero]
    exact h
  have hr := randMpz_pos r
  have hs := randMpz_pos s
  have hr' := randMpz_le r
  have hs' := randMpz_le s
  exact randMpz_injective (sub_eq_zero.mp (Int.eq_zero_of_abs_lt_dvd hdvd (abs_lt.mpr (by omega))))

/-- The IDs of the first `t` UAVs. -/
def drawnIDs (r : KeyDraws) (t : Int32) : List ℤ :=
  (List.range (count t)).map fun i ↦ randMpz (r.ID i)

omit [Module Zq ECP2] in
/-- A transformed mask vanishes only together with the base. -/
theorem aux_ne_zero_iff {pp : Params ECP2} (r : KeyDraws) {t : Int32} (ht : 1 ≤ t.toInt)
    (htm : t.toInt ≤ pp.tm.toInt) (rk : ℕ) (e : Fin curveOrder) (msg : ℤ) {i : ℕ}
    (hi : i < count t) :
    cls (Miracl.reencrypt pp rk e (M.issuedSigs pp r t msg)).aux i ≠ 0 ↔
      (pp.g : Zq) ≠ 0 ∨ rk = 0 := by
  have he : (randMpz e).toNat ≠ 0 := by
    have := randMpz_pos e
    omega
  rw [(M.reencrypt_issuedSigs pp r rk e msg hi).2.1]
  constructor
  · intro h
    by_contra hnot
    obtain ⟨hg, hrk⟩ := not_or.mp hnot
    rw [not_not.mp hg, zero_pow he, mul_zero, zero_pow hrk] at h
    exact h rfl
  · rintro (hg | rfl)
    · exact pow_ne_zero _ (mul_ne_zero (prod_c1_issuedUAV_ne_zero hg _ _ _ _
        (count_sub_one_mono ht htm)) (pow_ne_zero _ hg))
    · rw [pow_zero]
      exact one_ne_zero

/-- The `invert_mpz` calls of a run. -/
theorem mem_log_fussion_iff [DecidableEq FP12] {n tm t : Int32} (ht : 2 ≤ t.toInt)
    (htm : t.toInt ≤ tm.toInt) (hn : t.toInt ≤ n.toInt) (msg : ℤ) (r : Draws) {x : ℤ}
    (hx : sharedValue r = pure x)
    (hterm : ∃ h, (M.hashToCoprime x (curveOrder - 1) getFactors).out = .ok h) :
    ∃ (h : ℕ) (aux : ℕ → ℤ), (h : ℤ).gcd (curveOrder - 1) = 1 ∧
      (∀ i < count t, (aux i : Zq) ≠ 0 ↔
        (randMpz r.g : Zq) ≠ 0 ∨ randMpz r.alpha = curveOrder - 1) ∧
      ∀ call, call ∈ (M.fussion n tm t msg r).log ↔ call = ⟨h, curveOrder - 1⟩ ∨
        ∃ i < count t, call = ⟨randMpz (r.key.ID i), curveOrder⟩ ∨
          call = ⟨denominator (drawnIDs r.key t) i (count t), curveOrder⟩ ∨
          call = ⟨aux i, curveOrder⟩ := by
  obtain ⟨h, hh, hgcd⟩ := hterm.elim fun _ h ↦
    M.hashToCoprime_eq_pure (M.not_dvd_of_hashToCoprime h)
  rw [← verifyHash_issuedParams M n tm r hx] at hh
  obtain ⟨rk, -, hrk, heq⟩ := M.fussion_eq ht htm hn msg r rfl hh hgcd
  rw [lambda_dvd_randMpz_iff] at hrk
  have hh₀ : h ≠ 0 := by
    rintro rfl
    have := lt_curveOrder
    rw [Nat.cast_zero, Int.gcd_zero_left] at hgcd
    omega
  set S := Miracl.reencrypt (M.issuedParams n tm r.g r.alpha r.key.b) rk r.e
    (M.issuedSigs (M.issuedParams n tm r.g r.alpha r.key.b) r.key t msg) with hS
  have hIDs : S.IDs = drawnIDs r.key t := by
    simp only [hS, Miracl.reencrypt, Miracl.issuedSigs, List.map_map]
    rfl
  refine ⟨h, fun i ↦ rep (cls S.aux i ^ h), hgcd, fun i hi ↦ ?_, fun call ↦ ?_⟩
  · have htm' : t.toInt ≤ (M.issuedParams n tm r.g r.alpha r.key.b).tm.toInt := htm
    have ht' : 1 ≤ t.toInt := by omega
    rw [cast_rep, ← hrk, pow_ne_zero_iff hh₀]
    exact aux_ne_zero_iff M r.key ht' htm' rk r.e msg hi
  · have hget : ∀ i < count t, S.IDs.getD i 0 = randMpz (r.key.ID i) := fun i hi ↦ by
      rw [hIDs, drawnIDs, getD_map_range _ _ hi]
    rw [heq, Run.log_ret, List.mem_cons, List.mem_append]
    simp only [List.mem_flatMap, List.mem_map, List.mem_range, pi0Calls, List.mem_cons,
      List.not_mem_nil, or_false, ← hIDs]
    refine or_congr_right ⟨?_, ?_⟩
    · rintro (⟨i, hi, hcall | hcall⟩ | ⟨i, hi, rfl⟩)
      · exact ⟨i, hi, .inl (by rw [hcall, hget i hi])⟩
      · exact ⟨i, hi, .inr (.inl hcall)⟩
      · exact ⟨i, hi, .inr (.inr rfl)⟩
    · rintro ⟨i, hi, hcall | hcall | hcall⟩
      · exact .inl ⟨i, hi, .inl (by rw [hcall, hget i hi])⟩
      · exact .inl ⟨i, hi, .inr hcall⟩
      · exact .inr ⟨i, hi, hcall.symm⟩

/-- **Which runs only take inverses that exist.**  The draws reach the order itself, so an ID
may vanish modulo it, and so may the base; in that case the masks are inverted unless
`alpha = q - 1`, where the re-encryption key is `0` and the masks are `1`. -/
theorem fussion_inverses_iff [DecidableEq FP12] (n tm t : Int32) (ht : 2 ≤ t.toInt)
    (htm : t.toInt ≤ tm.toInt) (hn : t.toInt ≤ n.toInt) (msg : ℤ) (r : Draws)
    (hdistinct : ∀ i < count n, ∀ j < count n, i ≠ j →
      randMpz (r.key.ID i) ≠ randMpz (r.key.ID j))
    {x : ℤ} (hx : sharedValue r = pure x)
    (hterm : ∃ h, (M.hashToCoprime x (curveOrder - 1) getFactors).out = .ok h) :
    (∀ call ∈ (M.fussion n tm t msg r).log, call.a.gcd call.m = 1) ↔
      (randMpz r.g ≠ curveOrder ∨ randMpz r.alpha = curveOrder - 1) ∧
        ∀ i < count t, randMpz (r.key.ID i) ≠ curveOrder := by
  obtain ⟨h, aux, hgcd, haux, hmem⟩ := mem_log_fussion_iff M ht htm hn msg r hx hterm
  have hden : ∀ i < count t,
      (denominator (drawnIDs r.key t) i (count t)).gcd curveOrder = 1 := by
    intro i hi
    rw [gcd_eq_one_iff, cast_denominator, prod_ne_zero_iff]
    intro j hj
    obtain ⟨hji, hj⟩ := mem_erase.mp hj
    have hj : j < count t := mem_range.mp hj
    rw [cls, cls, drawnIDs, getD_map_range _ _ hi, getD_map_range _ _ hj, sub_ne_zero]
    intro heq
    exact hdistinct j (hj.trans_le (count_mono hn)) i (hi.trans_le (count_mono hn)) hji
      (congrArg randMpz (cast_randMpz_injective heq))
  constructor
  · intro hall
    have hpos : 0 < count t := by
      rw [count]
      omega
    refine ⟨?_, fun i hi ↦ ?_⟩
    · have := hall _ ((hmem _).mpr (.inr ⟨0, hpos, .inr (.inr rfl)⟩))
      rw [gcd_eq_one_iff, haux 0 hpos, Ne, cast_randMpz_eq_zero_iff] at this
      exact this
    · exact (gcd_randMpz_eq_one_iff _).mp (hall _ ((hmem _).mpr (.inr ⟨i, hi, .inl rfl⟩)))
  · rintro ⟨hg, hID⟩ call hcall
    rw [hmem] at hcall
    obtain rfl | ⟨i, hi, rfl | rfl | rfl⟩ := hcall
    · exact hgcd
    · exact (gcd_randMpz_eq_one_iff _).mpr (hID i hi)
    · exact hden i hi
    · rw [gcd_eq_one_iff, haux i hi, Ne, cast_randMpz_eq_zero_iff]
      exact hg

/-- `fussion_inverses_iff` on two UAVs with the IDs `1` and `2`. -/
theorem fussion_inverses_two :
    let r := unitDraws fun i ↦ ⟨i % 2, mod_two_lt_order i⟩
    (∀ call ∈ (exponents.fussion 2 2 2 123456789 r).log, call.a.gcd call.m = 1) ↔
      (randMpz r.g ≠ curveOrder ∨ randMpz r.alpha = curveOrder - 1) ∧
        ∀ i < count 2, randMpz (r.key.ID i) ≠ curveOrder := by
  refine fussion_inverses_iff exponents 2 2 2 (by decide) (by decide) (by decide) _ _ ?_
    (sharedValue_unitDraws _) (exists_hashToCoprime_exponents 1)
  intro i hi j hj hij
  have hcount : count 2 = 2 := rfl
  simp only [unitDraws, randMpz]
  omega

theorem randMpz_last (h : curveOrder - 1 < curveOrder) :
    randMpz ⟨curveOrder - 1, h⟩ = curveOrder := by
  rw [randMpz]
  simp only
  omega

/-- A run that takes an inverse that does not exist: the first UAV drew the order as its ID. -/
theorem fussion_inverse_missing :
    let r := unitDraws fun i ↦ if i = 0 then ⟨curveOrder - 1, by
      have := lt_curveOrder; omega⟩ else 0
    (∀ i < count 2, ∀ j < count 2, i ≠ j → randMpz (r.key.ID i) ≠ randMpz (r.key.ID j)) ∧
      sharedValue r = pure 1 ∧
      (∃ h, (exponents.hashToCoprime 1 (curveOrder - 1) getFactors).out = .ok h) ∧
      ∃ call ∈ (exponents.fussion 2 2 2 123456789 r).log, call.a.gcd call.m ≠ 1 := by
  have hlt := lt_curveOrder
  refine ⟨?_, sharedValue_unitDraws _, exists_hashToCoprime_exponents 1, ?_⟩
  · intro i hi j hj hij
    have hcount : count 2 = 2 := rfl
    simp only [unitDraws]
    split_ifs with h₁ h₂ h₂
    · omega
    · rw [randMpz_last, randMpz_zero]
      omega
    · rw [randMpz_last, randMpz_zero]
      omega
    · omega
  · have htwo : (2 : Int32).toInt ≤ (2 : Int32).toInt := le_rfl
    obtain ⟨h, aux, -, -, hmem⟩ := mem_log_fussion_iff exponents
      (show 2 ≤ (2 : Int32).toInt by decide) htwo htwo 123456789 _ (sharedValue_unitDraws _)
      (exists_hashToCoprime_exponents 1)
    refine ⟨_, (hmem _).mpr (.inr ⟨0, by decide, .inl rfl⟩), ?_⟩
    rw [Ne, gcd_randMpz_eq_one_iff, not_not]
    exact randMpz_last _

end

end Fussion
