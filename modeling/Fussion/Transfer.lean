import Fussion.Verify

/-!
# Signatures transfer between messages

`hashToPoint` returns a multiple of the generator whose factor anybody can compute.  The point
of one message is therefore a public multiple of the point of another, and scaling every entry
of an accepted signature by that factor gives an accepted signature on the other message: the
loop of `Verify` accumulates linearly, and the factor comes out of both pairings.  No key enters.
-/

namespace Fussion

theorem ecpMul_add {P : Type} [AddCommGroup P] (p p' : P) (t : ℤ) :
    ecpMul (p + p') t = ecpMul p t + ecpMul p' t := smul_add _ _ _

theorem ecpMul_comm {P : Type} [AddCommGroup P] (p : P) (s t : ℤ) :
    ecpMul (ecpMul p s) t = ecpMul (ecpMul p t) s := smul_comm _ _ _

namespace Miracl

variable {ECP ECP2 FP12 : Type} [AddCommGroup ECP] [AddCommGroup ECP2] [CommGroup FP12]
variable (M : Miracl ECP ECP2 FP12)

/-- Every signature multiplied by one scalar. -/
def scale (c : ℤ) (sigma : Sigma ECP) : Sigma ECP :=
  { sigma with sig := sigma.sig.map fun p ↦ ecpMul p c }

/-- The loop of `Verify` is linear in the signatures. -/
theorem accumulate_scale (c : ℤ) {sigma : Sigma ECP} {k : List ℤ} {t : Int32} {s : ECP}
    (h : (accumulate sigma k t).out = .ok s) :
    (accumulate (scale c sigma) k t).out = .ok (ecpMul s c) := by
  rw [accumulate, Run.out_bind_eq_ok] at h ⊢
  obtain ⟨p₀, hp₀, h⟩ := h
  obtain ⟨k₀, hk₀, h⟩ := Run.out_bind_eq_ok.mp h
  refine ⟨_, Run.out_index_map _ hp₀, Run.out_bind_eq_ok.mpr ⟨k₀, hk₀, ?_⟩⟩
  rw [ecpMul_comm]
  refine Run.upTo_out_map (ecpMul · c) (fun i _ s s₁ hstep ↦ ?_) h
  obtain ⟨p, hp, hstep⟩ := Run.out_bind_eq_ok.mp hstep
  obtain ⟨ki, hki, hstep⟩ := Run.out_bind_eq_ok.mp hstep
  cases hstep
  refine Run.out_bind_eq_ok.mpr ⟨_, Run.out_index_map _ hp,
    Run.out_bind_eq_ok.mpr ⟨ki, hki, ?_⟩⟩
  rw [Run.out_pure, ecpMul_add, ecpMul_comm]

/-- The public factor between the points of two messages. -/
def transferFactor (msg msg' : ℤ) : ℤ :=
  M.hashToZp256 msg' curveOrder * modInv (M.hashToZp256 msg curveOrder) curveOrder % curveOrder

variable [Module Zq ECP]

/-- The factor takes the point of one message to the point of the other. -/
theorem ecpMul_transferFactor {msg : ℤ}
    (h : ¬ (curveOrder : ℤ) ∣ M.hashToZp256 msg curveOrder) (msg' : ℤ) :
    ecpMul (M.hashToPoint msg curveOrder) (M.transferFactor msg msg') =
      M.hashToPoint msg' curveOrder := by
  rw [transferFactor, emod_eq_rep, modInv_eq_rep, ecpMul_rep, M.hashToPoint_eq, M.hashToPoint_eq,
    Int.cast_mul, cast_rep, smul_smul, mul_assoc, inv_mul_cancel₀ (cast_ne_zero_iff.mpr h), mul_one]

/-- **Transfer.**  An accepted signature on `msg` becomes an accepted one on `msg'` by scaling
with the public factor. -/
theorem verify_transfer [DecidableEq FP12] (pp : Params ECP2) (hq : pp.q = curveOrder)
    (sk_v : ℤ) (t : Int32) (sigma : Sigma ECP) (msg msg' : ℤ)
    (hmsg : ¬ (curveOrder : ℤ) ∣ M.hashToZp256 msg curveOrder)
    (hok : (M.verify sigma sk_v pp msg t).out = .ok 1) :
    (M.verify (scale (M.transferFactor msg msg') sigma) sk_v pp msg' t).out = .ok 1 := by
  rw [verify_accepts_iff] at hok ⊢
  obtain ⟨Pis, h, k, s, K, hPis, hh, hk, hs, hK, hpair⟩ := hok
  refine ⟨Pis, h, k, _, K, hPis, hh, hk, accumulate_scale _ hs, hK, ?_⟩
  rw [hq] at hpair ⊢
  rw [← M.ecpMul_transferFactor hmsg msg', ecpMul, ecpMul, e_nsmul_left, e_nsmul_left, hpair]

end Miracl

/-- The hash of the message `5` under `separating` is no multiple of the order. -/
theorem not_dvd_hashToZp256_separating :
    ¬ (curveOrder : ℤ) ∣ separating.hashToZp256 (5 : ℕ) curveOrder := by
  rw [hashToZp256_separating_order (by norm_num)]
  exact not_order_dvd (by norm_num) (by norm_num)

/-- `verify_transfer` from the message `5` to the message `6`, whose hashes differ, on a signature
of two UAVs with the IDs `1` and `2`, whose shares are those of the polynomial `X + 1`. -/
theorem verify_transfer_exponents :
    let pp : Params Zq :=
      { n := 2, tm := 2, q := curveOrder, P2 := 1, g := 1, beta := 1, PK := [1] }
    let sigma : Sigma Zq :=
      { aux := [1, 1], sig := [2 * (5 * 2 ^ 128), 3 * (5 * 2 ^ 128)], IDs := [1, 2] }
    (separating.verify (Miracl.scale (separating.transferFactor 5 6) sigma) 1 pp 6 2).out =
      .ok 1 := by
  intro pp sigma
  refine separating.verify_transfer pp rfl 1 2 sigma 5 6 not_dvd_hashToZp256_separating ?_
  obtain ⟨h, hh⟩ := exists_hashToCoprime_separating (x := 1) (by norm_num) one_pos
  have hhash : separating.verifyHash pp 1 = pure (h : ℤ) :=
    (Run.bind_of_eq_pure powMpz_one _).trans hh
  have hc₀ : coeffZero (cls [1, 2]) 2 0 = 2 := by
    have hothers : (Finset.range 2).erase 0 = {1} := rfl
    simp [coeffZero, cls, Finset.prod_range_succ, hothers]
    norm_num
  have hc₁ : coeffZero (cls [1, 2]) 2 1 = -1 := by
    have hothers : (Finset.range 2).erase 1 = {0} := rfl
    simp [coeffZero, cls, Finset.prod_range_succ, hothers, two_ne_zero_order]
    norm_num
  have hcombined : Miracl.combined sigma h 2 = 5 * 2 ^ 128 := by
    have hcount : count 2 = 2 := rfl
    simp [Miracl.combined, hcount, Finset.sum_range_succ, sigma, hc₀, hc₁, cls]
    ring
  have hmsg : (separating.hashToZp256 5 curveOrder : Zq) = 5 * 2 ^ 128 := by
    have hfive := hashToZp256_separating_order (x := 5) (by norm_num)
    rw [Nat.cast_ofNat] at hfive
    rw [hfive]
    norm_num
  rw [separating.verify_eq rfl (by decide) (by simp [Nonneg, sigma]) (by decide) (by decide)
    (by decide) hhash rfl, hcombined, separating.hashToPoint_eq, hmsg, Run.out_ret, if_pos]
  change Multiplicative.ofAdd ((5 * 2 ^ 128 : Zq) * 1) =
    Multiplicative.ofAdd ((5 * 2 ^ 128 : Zq) * 1 * 1)
  rw [mul_one, mul_one]

end Fussion
