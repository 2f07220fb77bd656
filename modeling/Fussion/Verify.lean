import Fussion.Transform
import Fussion.Coefficients

/-!
# Verification, in the field

What `getPi_0` and `Verify` compute.  The coefficients of `getPi_0` are those of interpolation
at zero, `Verify` multiplies each of them by an inverse mask, and the accumulated point is one
linear combination of the signatures.  Every result comes with the list of `invert_mpz` calls
made on the way.
-/

namespace Fussion

open Finset

/-! ## The coefficients of interpolation -/

section Coefficients

variable {ECP2 : Type}

/-- The denominator of `getPi_0` in front of iteration `n` of its inner loop. -/
def denominator (ID : List ℤ) (i : ℕ) : ℕ → ℤ
  | 0 => 1
  | n + 1 =>
    if n ≠ i then
      (denominator ID i n *
        (ID.getD n 0 - ID.getD i 0 + curveOrder).tmod curveOrder).tmod curveOrder
    else denominator ID i n

theorem denominator_eq_remProd (ID : List ℤ) (i n : ℕ) :
    denominator ID i n = remProd curveOrder ((others n i).map fun j ↦
      (ID.getD j 0 - ID.getD i 0 + curveOrder).tmod curveOrder) := by
  induction n with
  | zero => rfl
  | succ n ih => rw [denominator, remProd_map_others_succ, ih]

theorem cast_denominator (ID : List ℤ) (i n : ℕ) :
    (denominator ID i n : Zq) = ∏ j ∈ (range n).erase i, (cls ID j - cls ID i) := by
  rw [denominator_eq_remProd, cast_remProd_map_others]
  exact prod_congr rfl fun j _ ↦ cast_sub_add_order _ _

/-- The `invert_mpz` calls of iteration `i` of `getPi_0`. -/
def pi0Calls (ID : List ℤ) (t : Int32) (i : ℕ) : List InvertCall :=
  [⟨ID.getD i 0, curveOrder⟩, ⟨denominator ID i (count t), curveOrder⟩]

theorem getPi0_eq {pp : Params ECP2} (hq : pp.q = curveOrder) {ID : List ℤ} {t : Int32}
    (hlen : count t ≤ ID.length) (hID : Nonneg ID) :
    getPi0 pp ID t = Run.ret ((List.range (count t)).flatMap (pi0Calls ID t))
      ((List.range (count t)).map fun i ↦ rep (coeffZero (cls ID) (count t) i)) := by
  have hprod : ¬ ∏ j ∈ range (count t), ID.getD j 0 < 0 :=
    not_lt.mpr (prod_nonneg fun j _ ↦ hID.getD j)
  have hcalls : pi0Calls ID t = fun i ↦ [⟨ID.getD i 0, curveOrder⟩,
      ⟨remProd curveOrder ((others (count t) i).map fun j ↦
        (ID.getD j 0 - ID.getD i 0 + curveOrder).tmod curveOrder), curveOrder⟩] := by
    funext i
    rw [pi0Calls, denominator_eq_remProd]
  rw [getPi0_eq_piZero (hq ▸ order_ne_zero) hlen, hq, hcalls]
  refine congrArg (Run.ret _) (List.map_congr_left fun i _ ↦ ?_)
  rw [piZero_order, decide_eq_false hprod, signedRep_false]

end Coefficients

namespace Miracl

variable {ECP ECP2 FP12 : Type} [AddCommGroup ECP] [AddCommGroup ECP2] [CommGroup FP12]

/-! ## Accumulation -/

/-- The mask that `Verify` computes of an entry of `aux` with the exponent `h`. -/
def mask (q a : ℤ) (h : ℕ) : ℤ := modPow q.natAbs (a % q.natAbs).toNat h

theorem powMpz_eq_mask {q : ℤ} (hq : q ≠ 0) (a : ℤ) (h : ℕ) : powMpz a h q = pure (mask q a h) := by
  rw [powMpz, if_neg hq, if_pos (Int.natCast_nonneg h), Int.toNat_natCast]
  rfl

theorem mask_order (a : ℤ) (h : ℕ) : mask curveOrder a h = rep ((a : Zq) ^ h) := by
  rw [mask, Int.natAbs_natCast, modPow_emod_eq_rep]

omit [AddCommGroup ECP] [AddCommGroup ECP2] in
/-- The coefficients `k` on any modulus but zero, with the calls of `invert_mpz`. -/
theorem verifyCoeffs_eq_mask {pp : Params ECP2} (hq : pp.q ≠ 0) {sigma : Sigma ECP}
    {t : Int32} (hlen : count t ≤ sigma.aux.length) (c : ℕ → ℤ) (h : ℕ) :
    verifyCoeffs pp sigma ((List.range (count t)).map c) h t =
      Run.ret ((List.range (count t)).map fun i ↦ ⟨mask pp.q (sigma.aux.getD i 0) h, pp.q⟩)
        ((List.range (count t)).map fun i ↦
          (c i * modInv (mask pp.q (sigma.aux.getD i 0) h) pp.q).tmod pp.q) := by
  let call : ℕ → InvertCall := fun i ↦ ⟨mask pp.q (sigma.aux.getD i 0) h, pp.q⟩
  rw [← List.flatMap_pure_eq_map call, verifyCoeffs]
  refine Run.upTo_push _ (fun i ↦ [call i]) fun i hi acc ↦ ?_
  rw [subscript_of_lt (lt_of_lt_of_le hi hlen) 0, subscript_of_lt (by simpa using hi) 0,
    getD_map_range c 0 hi]
  simp only [pure_bind, powMpz_eq_mask hq, invertMpz_eq, Run.ret_bind, remMpz_of_ne_zero hq,
    Run.after_pure]
  rfl

/-- The `invert_mpz` call of iteration `i` of the loop over `aux`. -/
def auxCall (sigma : Sigma ECP) (h i : ℕ) : InvertCall := ⟨rep (cls sigma.aux i ^ h), curveOrder⟩

omit [AddCommGroup ECP] [AddCommGroup ECP2] in
theorem verifyCoeffs_eq {pp : Params ECP2} (hq : pp.q = curveOrder) {sigma : Sigma ECP}
    {t : Int32} (hlen : count t ≤ sigma.aux.length) (c : ℕ → Zq) (h : ℕ) :
    verifyCoeffs pp sigma ((List.range (count t)).map fun i ↦ rep (c i)) h t =
      Run.ret ((List.range (count t)).map (auxCall sigma h))
        ((List.range (count t)).map fun i ↦ rep (c i * (cls sigma.aux i ^ h)⁻¹)) := by
  rw [verifyCoeffs_eq_mask (hq ▸ order_ne_zero) hlen, hq]
  simp only [mask_order, modInv_eq_rep, cast_rep, rep_mul_rep_tmod]
  rfl

/-- The accumulated point, whatever the coefficients are. -/
theorem accumulate_eq_sum {sigma : Sigma ECP} {t : Int32} (ht : 1 ≤ count t)
    (hlen : count t ≤ sigma.sig.length) (k : ℕ → ℤ) :
    accumulate sigma ((List.range (count t)).map k) t =
      pure (∑ i ∈ range (count t), ecpMul (sigma.sig.getD i 0) (k i)) := by
  have hterm {i : ℕ} (hi : i < count t) : subscript sigma.sig i = pure (sigma.sig.getD i 0) ∧
      subscript ((List.range (count t)).map k) i = pure (k i) := by
    refine ⟨subscript_of_lt (lt_of_lt_of_le hi hlen) 0, ?_⟩
    rw [subscript_of_lt (by simpa using hi) 0, getD_map_range k 0 hi]
  obtain ⟨h₁, h₂⟩ := hterm (i := 0) (by omega)
  rw [accumulate, ← Nat.cast_zero, h₁, h₂, pure_bind, pure_bind]
  refine (Run.upTo_eq_pure
    (fun n ↦ ∑ i ∈ range (n + 1), ecpMul (sigma.sig.getD i 0) (k i)) ?_ fun i hi ↦ ?_).trans ?_
  · rw [zero_add, sum_range_one]
  · obtain ⟨h₁, h₂⟩ := hterm (i := i + 1) (by omega)
    rw [h₁, h₂, pure_bind, pure_bind, sum_range_succ _ (i + 1)]
  · rw [Nat.sub_add_cancel ht]

/-- The accumulated point is a linear combination of the signatures. -/
theorem accumulate_eq [Module Zq ECP] {sigma : Sigma ECP} {t : Int32} (ht : 1 ≤ count t)
    (hlen : count t ≤ sigma.sig.length) (k : ℕ → Zq) :
    accumulate sigma ((List.range (count t)).map fun i ↦ rep (k i)) t =
      pure (∑ i ∈ range (count t), k i • sigma.sig.getD i 0) := by
  rw [accumulate_eq_sum ht hlen]
  simp only [ecpMul_rep]

/-! ## The verdict -/

/-- The verifier's hash, whatever the parameters are. -/
theorem verifyHash_of_ok (M : Miracl ECP ECP2 FP12) {pp : Params ECP2} {sk_v h : ℤ}
    (hok : (M.verifyHash pp sk_v).out = .ok h) :
    ∃ k : ℕ, h = k ∧ (k : ℤ).gcd (curveOrder - 1) = 1 := by
  obtain ⟨x, -, hx⟩ := Run.out_bind_eq_ok.mp hok
  exact M.hashToCoprime_of_ok hx

/-- The scalar that `Verify` multiplies the `i`-th signature by. -/
def scalar (q : ℤ) (sigma : Sigma ECP) (h n i : ℕ) : ℤ :=
  (piZero q (sigma.IDs.getD · 0) n i * modInv (mask q (sigma.aux.getD i 0) h) q).tmod q

/-- `Verify` on any modulus but zero, once its hash is known. -/
theorem out_verify [DecidableEq FP12] (M : Miracl ECP ECP2 FP12) {pp : Params ECP2}
    (hq : pp.q ≠ 0) {sigma : Sigma ECP} {sk_v : ℤ} {t : Int32} (ht : 1 ≤ count t)
    (hIDs : count t ≤ sigma.IDs.length) (haux : count t ≤ sigma.aux.length)
    (hsig : count t ≤ sigma.sig.length) {h : ℕ} (hhash : (M.verifyHash pp sk_v).out = .ok (h : ℤ))
    (msg : ℤ) :
    (M.verify sigma sk_v pp msg t).out =
      (do let K ← subscript pp.PK (t - 2).toInt
          pure (if M.e (∑ i ∈ range (count t),
              ecpMul (sigma.sig.getD i 0) (scalar pp.q sigma h (count t) i)) pp.P2 =
            M.e (M.hashToPoint msg pp.q) K then 1 else 0) : Exec ℤ).out := by
  rw [verify, getPi0_eq_piZero hq hIDs, Run.ret_bind, Run.eq_ret_of_out hhash, Run.ret_bind,
    verifyCoeffs_eq_mask hq haux, Run.ret_bind, accumulate_eq_sum ht hsig, pure_bind]
  rfl

/-- What it takes to be accepted: all stages return, and the two pairings agree. -/
theorem verify_accepts_iff [DecidableEq FP12] (M : Miracl ECP ECP2 FP12) {sigma : Sigma ECP}
    {sk_v : ℤ} {pp : Params ECP2} {msg : ℤ} {t : Int32} :
    (M.verify sigma sk_v pp msg t).out = .ok 1 ↔
      ∃ Pis h k s K, (getPi0 pp sigma.IDs t).out = .ok Pis ∧ (M.verifyHash pp sk_v).out = .ok h ∧
        (verifyCoeffs pp sigma Pis h t).out = .ok k ∧ (accumulate sigma k t).out = .ok s ∧
        (subscript pp.PK (t - 2).toInt).out = .ok K ∧
        M.e s pp.P2 = M.e (M.hashToPoint msg pp.q) K := by
  simp only [verify, Run.out_bind_eq_ok, Run.out_pure, Outcome.ok.injEq, ite_eq_left_iff,
    zero_ne_one, imp_false, not_not]
  constructor
  · rintro ⟨Pis, hPis, h, hh, k, hk, s, hs, K, hK, hpair⟩
    exact ⟨Pis, h, k, s, K, hPis, hh, hk, hs, hK, hpair⟩
  · rintro ⟨Pis, h, k, s, K, hPis, hh, hk, hs, hK, hpair⟩
    exact ⟨Pis, hPis, h, hh, k, hk, s, hs, K, hK, hpair⟩

section Verdict

variable [Module Zq ECP] [DecidableEq FP12] (M : Miracl ECP ECP2 FP12)

/-- The point that `Verify` pairs with the generator, as a combination of the signatures. -/
def combined (sigma : Sigma ECP) (h : ℕ) (t : Int32) : ECP :=
  ∑ i ∈ range (count t),
    (coeffZero (cls sigma.IDs) (count t) i * (cls sigma.aux i ^ h)⁻¹) • sigma.sig.getD i 0

/-- `Verify` compares two pairings. -/
theorem verify_eq {pp : Params ECP2} (hq : pp.q = curveOrder) {sigma : Sigma ECP} {sk_v : ℤ}
    {t : Int32} (ht : 2 ≤ t.toInt) (hID : Nonneg sigma.IDs) (hIDs : count t ≤ sigma.IDs.length)
    (haux : count t ≤ sigma.aux.length) (hsig : count t ≤ sigma.sig.length) {h : ℕ}
    (hhash : M.verifyHash pp sk_v = pure (h : ℤ)) {K : ECP2} (hPK : pp.PK[count t - 2]? = some K)
    (msg : ℤ) :
    M.verify sigma sk_v pp msg t =
      Run.ret ((List.range (count t)).flatMap (pi0Calls sigma.IDs t) ++
          (List.range (count t)).map (auxCall sigma h))
        (if M.e (combined sigma h t) pp.P2 = M.e (M.hashToPoint msg curveOrder) K
          then 1 else 0) := by
  have hcount : (count t : ℤ) = t.toInt := cast_count (by omega)
  rw [verify, getPi0_eq hq hIDs hID, Run.ret_bind, hhash, pure_bind,
    verifyCoeffs_eq hq haux, Run.ret_bind, accumulate_eq (by omega) hsig, pure_bind,
    toInt_sub_two_eq_count ht, subscript_of_getElem? hPK, pure_bind, Run.after_pure, Run.after_ret,
    hq]
  rfl

end Verdict

/-! ## Bilinearity -/

section Bilinear

variable (M : Miracl ECP ECP2 FP12)

theorem e_zero_left (Q : ECP2) : M.e 0 Q = 1 := by
  have h := M.e_add_left 0 0 Q
  rw [add_zero] at h
  exact left_eq_mul.mp h

theorem e_zero_right (P : ECP) : M.e P 0 = 1 := by
  have h := M.e_add_right P 0 0
  rw [add_zero] at h
  exact left_eq_mul.mp h

theorem e_nsmul_left (n : ℕ) (P : ECP) (Q : ECP2) : M.e (n • P) Q = M.e P Q ^ n := by
  induction n with
  | zero => rw [zero_smul, e_zero_left, pow_zero]
  | succ n ih => rw [succ_nsmul, e_add_left, ih, pow_succ]

theorem e_nsmul_right (n : ℕ) (P : ECP) (Q : ECP2) : M.e P (n • Q) = M.e P Q ^ n := by
  induction n with
  | zero => rw [zero_smul, e_zero_right, pow_zero]
  | succ n ih => rw [succ_nsmul, e_add_right, ih, pow_succ]

/-- A scalar moves from one point of the pairing to the other. -/
theorem e_smul_comm [Module Zq ECP] [Module Zq ECP2] (x : Zq) (P : ECP) (Q : ECP2) :
    M.e (x • P) Q = M.e P (x • Q) := by
  rw [← ZMod.natCast_zmod_val x, Nat.cast_smul_eq_nsmul, Nat.cast_smul_eq_nsmul, e_nsmul_left,
    e_nsmul_right]

end Bilinear

end Miracl

end Fussion
