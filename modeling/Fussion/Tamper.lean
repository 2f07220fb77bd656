import Fussion.Conversions
import Fussion.Verify
import Fussion.Exponents

/-!
# Tampering with one component

`Verify` multiplies the `i`-th signature by `c_i / aux_i ^ h`, where `c_i` is the coefficient of
interpolation and `h` the verifier's hash.  The coefficients are nonzero, and `h` is prime to
`q - 1`, so that `aux_i ^ h` determines `aux_i`: a change of one point, or of one entry of `aux`,
changes the accumulated point, and a nondegenerate pairing sees it.

This takes the scalars for what they are modulo the order.  The product of the IDs in `getPi_0`
keeps its sign through `%`, a negative product makes every scalar negative, and `mpz_to_BIG` reads
the minus sign as one of its 64 characters and loses the last digit.  `verify_tamper_iff` says that
tampering is detected exactly when the product is positive.
-/

namespace Fussion

open Finset

/-! ## Sums that differ in one term -/

theorem sum_range_ne {G : Type*} [AddCommGroup G] {n i : ℕ} {f g : ℕ → G} (hi : i < n)
    (hrest : ∀ j < n, j ≠ i → g j = f j) (hne : g i ≠ f i) :
    ∑ j ∈ range n, g j ≠ ∑ j ∈ range n, f j := by
  have hmem : i ∈ range n := mem_range.mpr hi
  have herase : ∑ j ∈ (range n).erase i, g j = ∑ j ∈ (range n).erase i, f j :=
    sum_congr rfl fun j hj ↦ hrest j (mem_range.mp (mem_erase.mp hj).2) (mem_erase.mp hj).1
  rw [← add_sum_erase _ g hmem, ← add_sum_erase _ f hmem, herase]
  exact fun h ↦ hne (add_right_cancel h)

theorem getD_set_self {A : Type} {v : List A} {i : ℕ} (h : i < v.length) (a b : A) :
    (v.set i a).getD i b = a := by
  rw [List.getD_eq_getElem?_getD, List.getElem?_set_self h, Option.getD_some]

theorem getD_set_of_ne {A : Type} (v : List A) {i j : ℕ} (h : j ≠ i) (a b : A) :
    (v.set i a).getD j b = v.getD j b := by
  rw [List.getD_eq_getElem?_getD, List.getD_eq_getElem?_getD, List.getElem?_set_ne h.symm]

/-! ## The first IDs -/

section FirstIDs

variable {IDs : List ℤ} {n : ℕ} (hlen : n ≤ IDs.length)
include hlen

theorem map_range_getD : (List.range n).map (IDs.getD · 0) = IDs.take n := by
  refine List.ext_getElem (by simp [hlen]) fun i h₁ h₂ ↦ ?_
  have hi : i < IDs.length := lt_of_lt_of_le (by simpa using h₁) hlen
  rw [List.getElem_map, List.getElem_range, List.getElem_take, List.getD_eq_getElem _ 0 hi]

theorem prod_range_getD : ∏ j ∈ range n, IDs.getD j 0 = (IDs.take n).prod := by
  rw [← prod_map_range, map_range_getD hlen]

theorem cls_ne_zero_of_take (h : ∀ x ∈ IDs.take n, ¬ (curveOrder : ℤ) ∣ x) :
    ∀ i < n, cls IDs i ≠ 0 := by
  intro i hi
  refine cast_ne_zero_iff.mpr (h _ ?_)
  rw [← map_range_getD hlen]
  exact List.mem_map_of_mem (List.mem_range.mpr hi)

theorem injOn_cls_of_take
    (h : (IDs.take n).Pairwise fun x y ↦ ¬ (curveOrder : ℤ) ∣ x - y) :
    Set.InjOn (cls IDs) (range n) := by
  have hlt : ∀ i j, i < j → j < n → ¬ (curveOrder : ℤ) ∣ IDs.getD i 0 - IDs.getD j 0 := by
    intro i j hij hj
    rw [← map_range_getD hlen, List.pairwise_map] at h
    have := List.pairwise_iff_getElem.mp h i j (by simp; omega) (by simpa using hj) hij
    simpa using this
  refine injOn_cls fun i hi j hj hij ↦ ?_
  rcases Nat.lt_or_gt_of_ne hij with h | h
  · exact hlt i j h hj
  · rw [← neg_sub, dvd_neg]
    exact hlt j i h hi

end FirstIDs

/-! ## Negative scalars -/

/-- Half of `q - 1`. -/
def halfOrder : ℕ := 0x39F6D3A994CEBEA4199CEC0404D0EC02A9DED2017FFF2DFF7FFFFFFF80000000

theorem two_mul_halfOrder : 2 * halfOrder + 1 = curveOrder := by decide +kernel

/-- `-(q - 1)/2` and `-(q + 1)/2` have 64 digits and differ in the last. -/
theorem mpzToBIG_neg_halfOrder : mpzToBIG (-halfOrder) = mpzToBIG (-(halfOrder + 1 : ℕ)) :=
  mpzToBIG_neg_congr (by decide) (by decide)

theorem mpzToBIG_neg_one : mpzToBIG (-1) = 255 :=
  mpzToBIG_neg_of_odd (l := 0) (n := 1) (by norm_num) (by norm_num) (by norm_num)

theorem two_mul_cast_halfOrder : 2 * (halfOrder : Zq) = -1 := by
  have h : ((2 * halfOrder + 1 : ℕ) : Zq) = 0 := by rw [two_mul_halfOrder, ZMod.natCast_self]
  push_cast at h
  exact eq_neg_of_add_eq_zero_left h

theorem neg_cast_halfOrder : -(halfOrder : Zq) = (halfOrder + 1 : ℕ) := by
  push_cast
  linear_combination -two_mul_cast_halfOrder

theorem signedRep_true_neg_natCast {k : ℕ} (h : k < curveOrder) :
    signedRep true (-(k : Zq)) = -(k : ℤ) := by
  rw [signedRep_true, neg_neg, rep, ZMod.val_natCast_of_lt h]

section NegativeScalars

variable {P : Type} [AddCommGroup P] (p : P)

@[simp] theorem ecpMul_zero_point (t : ℤ) : ecpMul (0 : P) t = 0 := smul_zero _

theorem ecpMul_signedRep_neg_halfOrder :
    ecpMul p (signedRep true (-(halfOrder : Zq))) = mpzToBIG (-halfOrder) • p := by
  rw [signedRep_true_neg_natCast (by rw [← two_mul_halfOrder]; omega), ecpMul]

/-- Two scalars that `ECP_mul` takes for one. -/
theorem ecpMul_signedRep_halfOrder :
    ecpMul p (signedRep true (halfOrder : Zq)) = ecpMul p (signedRep true (-(halfOrder : Zq))) := by
  have hlt : halfOrder + 1 < curveOrder := by
    rw [← two_mul_halfOrder]
    decide +kernel
  have hhalf : (halfOrder : Zq) = -((halfOrder + 1 : ℕ) : Zq) := by
    rw [← neg_cast_halfOrder, neg_neg]
  rw [ecpMul_signedRep_neg_halfOrder, mpzToBIG_neg_halfOrder, hhalf, signedRep_true_neg_natCast hlt,
    ecpMul]

theorem ecpMul_signedRep_neg_one : ecpMul p (signedRep true (-1 : Zq)) = 255 • p := by
  have h := signedRep_true_neg_natCast one_lt_curveOrder
  rw [Nat.cast_one, Nat.cast_one] at h
  rw [h, ecpMul, mpzToBIG_neg_one]

end NegativeScalars

/-- A nonzero residue is not its own negative. -/
theorem rep_neg_ne {x : Zq} (hx : x ≠ 0) : rep (-x) ≠ rep x := by
  intro heq
  have hdouble : 2 * x = 0 := by
    rw [two_mul]
    exact add_eq_zero_iff_eq_neg.mpr (rep_injective heq).symm
  exact mul_ne_zero two_ne_zero_order hx hdouble

theorem cast_ne_zero_of_range {a : ℤ} (h₁ : 1 ≤ a) (h₂ : a < curveOrder) : (a : Zq) ≠ 0 :=
  cast_ne_zero_iff.mpr fun hdvd ↦ absurd (Int.le_of_dvd (by omega) hdvd) (by omega)

/-- The factors can be given any nonzero values by the choice of `aux`. -/
theorem exists_roots {c k : ℕ → Zq} {n h : ℕ} (hc : ∀ i < n, c i ≠ 0)
    (hh : h.Coprime (curveOrder - 1)) (hk : ∀ i, k i ≠ 0) :
    ∃ r : ℕ → Zq, ∀ i < n, r i ≠ 0 ∧ c i * (r i ^ h)⁻¹ = k i := by
  have hroot : ∀ i, ∃ r : Zq, i < n → r ≠ 0 ∧ c i * (r ^ h)⁻¹ = k i := by
    intro i
    by_cases hi : i < n
    · obtain ⟨r, hr, hpow⟩ := exists_pow_eq hh (mul_ne_zero (hc i hi) (inv_ne_zero (hk i)))
      refine ⟨r, fun _ ↦ ⟨hr, ?_⟩⟩
      rw [hpow, mul_inv, inv_inv, ← mul_assoc, mul_inv_cancel₀ (hc i hi), one_mul]
    · exact ⟨0, fun hlt ↦ absurd hlt hi⟩
  choose r hr using hroot
  exact ⟨r, hr⟩

/-- An exponent prime to `q - 1` is odd. -/
theorem odd_of_coprime {h : ℕ} (hh : h.Coprime (curveOrder - 1)) : Odd h := by
  rw [← two_mul_halfOrder, Nat.add_sub_cancel] at hh
  exact Nat.coprime_two_right.mp hh.coprime_mul_right_right

/-! ## The verdict, with the sign of the IDs -/

namespace Miracl

variable {ECP ECP2 FP12 : Type} [AddCommGroup ECP] [AddCommGroup ECP2] [CommGroup FP12]

/-- The factor of the `i`-th signature modulo the order. -/
def factor (sigma : Sigma ECP) (h n i : ℕ) : Zq :=
  coeffZero (cls sigma.IDs) n i * (cls sigma.aux i ^ h)⁻¹

omit [AddCommGroup ECP] in
/-- The scalar represents the factor, with the sign of the product of the IDs. -/
theorem scalar_order {sigma : Sigma ECP} {n : ℕ} (hlen : n ≤ sigma.IDs.length) (h i : ℕ) :
    scalar curveOrder sigma h n i =
      signedRep (decide ((sigma.IDs.take n).prod < 0)) (factor sigma h n i) := by
  rw [scalar, piZero_order, mask_order, modInv_eq_rep, cast_rep, signedRep_mul_rep_tmod,
    prod_range_getD hlen]
  rfl

variable [DecidableEq FP12] (M : Miracl ECP ECP2 FP12) {pp : Params ECP2} {sk_v msg : ℤ} {t : Int32}

/-- A signature that is accepted has `t` entries, and the public key has one for `t`. -/
theorem lengths_of_accepts (ht : 1 ≤ count t) {sigma : Sigma ECP}
    (hok : (M.verify sigma sk_v pp msg t).out = .ok 1) :
    count t ≤ sigma.IDs.length ∧ count t ≤ sigma.aux.length ∧ count t ≤ sigma.sig.length ∧
      ∃ K, (subscript pp.PK (t - 2).toInt).out = .ok K := by
  obtain ⟨Pis, h, k, s, K, hPis, -, hk, hs, hK, -⟩ := M.verify_accepts_iff.mp hok
  refine ⟨?_, ?_, ?_, K, hK⟩
  · obtain ⟨prodX, hprod, -⟩ := Run.out_bind_eq_ok.mp hPis
    have hlast := Run.forall_of_upTo_out (fun i _ _ ↦ Run.lt_length_of_index_bind_out (i := i))
      hprod (count t - 1) (by omega)
    omega
  · have hlast := Run.forall_of_upTo_out (fun i _ _ ↦ Run.lt_length_of_index_bind_out (i := i))
      hk (count t - 1) (by omega)
    omega
  · have hfirst : 0 < sigma.sig.length := Run.lt_length_of_index_bind_out hs
    obtain ⟨p₀, -, hs⟩ := Run.out_bind_eq_ok.mp hs
    obtain ⟨k₀, -, hs⟩ := Run.out_bind_eq_ok.mp hs
    have hrest := Run.forall_of_upTo_out
      (fun i _ _ ↦ Run.lt_length_of_index_bind_out (i := i + 1)) hs
    by_contra hlt
    have := hrest (sigma.sig.length - 1) (by omega)
    omega

/-- The verdict modulo the order. -/
theorem out_verify_order (hq : pp.q = curveOrder) (ht : 1 ≤ count t) {sigma : Sigma ECP}
    (hIDs : count t ≤ sigma.IDs.length) (haux : count t ≤ sigma.aux.length)
    (hsig : count t ≤ sigma.sig.length) {h : ℕ} (hhash : (M.verifyHash pp sk_v).out = .ok (h : ℤ))
    {K : ECP2} (hK : (subscript pp.PK (t - 2).toInt).out = .ok K) :
    (M.verify sigma sk_v pp msg t).out =
      .ok (if M.e (∑ i ∈ range (count t), ecpMul (sigma.sig.getD i 0)
          (signedRep (decide ((sigma.IDs.take (count t)).prod < 0)) (factor sigma h (count t) i)))
          pp.P2 = M.e (M.hashToPoint msg curveOrder) K then 1 else 0) := by
  rw [M.out_verify (hq ▸ order_ne_zero) ht hIDs haux hsig hhash, hq]
  simp only [scalar_order hIDs]
  exact Run.out_bind_eq_ok.mpr ⟨K, hK, rfl⟩

/-- Whatever is accepted with these IDs is rejected after a change of one of the first `t` points,
and after a change of one of the first `t` entries of `aux` whose point is not infinity. -/
def TamperEvident (pp : Params ECP2) (sk_v msg : ℤ) (t : Int32) (IDs : List ℤ) : Prop :=
  ∀ (aux : List ℤ) (sig : List ECP), (∀ a ∈ aux, 1 ≤ a ∧ a < curveOrder) →
    (M.verify ⟨aux, sig, IDs⟩ sk_v pp msg t).out = .ok 1 →
      ∀ i < count t,
        (∀ P, P ≠ sig.getD i 0 →
          (M.verify ⟨aux, sig.set i P, IDs⟩ sk_v pp msg t).out = .ok 0) ∧
        (sig.getD i 0 ≠ 0 → ∀ a : ℤ, 1 ≤ a → a < curveOrder → a ≠ aux.getD i 0 →
          (M.verify ⟨aux.set i a, sig, IDs⟩ sk_v pp msg t).out = .ok 0)

omit [DecidableEq FP12] in
/-- A nondegenerate pairing with a generator separates the points. -/
theorem e_left_injective [Module Zq ECP2] {P2 : ECP2} (hnondeg : ∀ P, (∀ Q, M.e P Q = 1) → P = 0)
    (hgen : ∀ Q, ∃ c : Zq, Q = c • P2) : Function.Injective (M.e · P2) := by
  intro P P' heq
  have hone : M.e (P - P') P2 = 1 := by
    have hsplit := M.e_add_left (P - P') P' P2
    rw [sub_add_cancel] at hsplit
    exact mul_eq_right.mp (hsplit.symm.trans heq)
  refine sub_eq_zero.mp (hnondeg _ fun Q ↦ ?_)
  obtain ⟨c, rfl⟩ := hgen Q
  rw [← ZMod.natCast_zmod_val c, Nat.cast_smul_eq_nsmul, e_nsmul_right, hone, one_pow]

/-- With a product of IDs that is not negative the accumulated point is the combination of the
signatures in the field. -/
theorem out_verify_of_prod_pos [Module Zq ECP] (hq : pp.q = curveOrder) (ht : 1 ≤ count t)
    {sigma : Sigma ECP} (hpos : 0 < (sigma.IDs.take (count t)).prod)
    (hIDs : count t ≤ sigma.IDs.length) (haux : count t ≤ sigma.aux.length)
    (hsig : count t ≤ sigma.sig.length) {h : ℕ} (hhash : (M.verifyHash pp sk_v).out = .ok (h : ℤ))
    {K : ECP2} (hK : (subscript pp.PK (t - 2).toInt).out = .ok K) :
    (M.verify sigma sk_v pp msg t).out =
      .ok (if M.e (combined sigma h t) pp.P2 = M.e (M.hashToPoint msg curveOrder) K
        then 1 else 0) := by
  rw [M.out_verify_order hq ht hIDs haux hsig hhash hK, decide_eq_false hpos.not_gt]
  simp only [signedRep_false, ecpMul_rep]
  rfl

section Evidence

variable [Module Zq ECP] {t : Int32} {aux : List ℤ} {sig : List ECP} {IDs : List ℤ} {h i : ℕ}
variable (hi : i < count t) (hcoeff : coeffZero (cls IDs) (count t) i ≠ 0)

include hi hcoeff

/-- The factor of a point is a unit. -/
theorem combined_set_sig_ne (hsig : i < sig.length) (haux : cls aux i ≠ 0) {P : ECP}
    (hP : P ≠ sig.getD i 0) :
    combined ⟨aux, sig.set i P, IDs⟩ h t ≠ combined ⟨aux, sig, IDs⟩ h t := by
  have hunit : coeffZero (cls IDs) (count t) i * (cls aux i ^ h)⁻¹ ≠ 0 :=
    mul_ne_zero hcoeff (inv_ne_zero (pow_ne_zero h haux))
  apply sum_range_ne hi
  · intro j _ hji
    rw [getD_set_of_ne sig hji]
  · rw [getD_set_self hsig]
    exact fun heq ↦ hP (smul_right_injective ECP hunit heq)

/-- The factor of a point determines its entry of `aux`. -/
theorem combined_set_aux_ne (hh : h.Coprime (curveOrder - 1)) (haux : i < aux.length)
    (hsig : sig.getD i 0 ≠ 0) {a : ℤ} (ha : (a : Zq) ≠ 0) (hold : cls aux i ≠ 0)
    (hne : (a : Zq) ≠ cls aux i) :
    combined ⟨aux.set i a, sig, IDs⟩ h t ≠ combined ⟨aux, sig, IDs⟩ h t := by
  have hcls : cls (aux.set i a) i = a := by rw [cls, getD_set_self haux]
  apply sum_range_ne hi
  · intro j _ hji
    rw [cls, getD_set_of_ne aux hji, ← cls]
  · intro heq
    have hfactor := mul_left_cancel₀ hcoeff (smul_left_injective Zq hsig heq)
    rw [hcls, inv_inj] at hfactor
    exact hne (eq_of_pow_eq_pow hh ha hold hfactor)

end Evidence

section Detected

variable [Module Zq ECP] [Module Zq ECP2] (hq : pp.q = curveOrder) (ht : 1 ≤ count t)
variable (hnondeg : ∀ P, (∀ Q, M.e P Q = 1) → P = 0) (hgen : ∀ Q, ∃ c : Zq, Q = c • pp.P2)
variable {h : ℕ} (hhash : (M.verifyHash pp sk_v).out = .ok (h : ℤ))
include hq ht hnondeg hgen hhash

/-- A positive product of IDs: a changed combination is rejected. -/
theorem out_verify_of_combined_ne {sigma sigma' : Sigma ECP}
    (hpos : 0 < (sigma.IDs.take (count t)).prod)
    (hok : (M.verify sigma sk_v pp msg t).out = .ok 1) (hIDs : sigma'.IDs = sigma.IDs)
    (haux : sigma'.aux.length = sigma.aux.length) (hsig : sigma'.sig.length = sigma.sig.length)
    (hne : combined sigma' h t ≠ combined sigma h t) :
    (M.verify sigma' sk_v pp msg t).out = .ok 0 := by
  obtain ⟨hIDs₀, haux₀, hsig₀, K, hK⟩ := M.lengths_of_accepts ht hok
  have hpair : M.e (combined sigma h t) pp.P2 = M.e (M.hashToPoint msg curveOrder) K := by
    rw [M.out_verify_of_prod_pos hq ht hpos hIDs₀ haux₀ hsig₀ hhash hK, Outcome.ok.injEq] at hok
    by_contra hpair
    rw [if_neg hpair] at hok
    exact zero_ne_one hok
  rw [M.out_verify_of_prod_pos hq ht (hIDs ▸ hpos) (hIDs ▸ hIDs₀) (haux ▸ haux₀) (hsig ▸ hsig₀)
    hhash hK, if_neg]
  exact fun heq ↦ hne (M.e_left_injective hnondeg hgen (heq.trans hpair.symm))

/-- A positive product of IDs: the factors are units, and they determine the entries of `aux`. -/
theorem tamperEvident_of_prod_pos {IDs : List ℤ} (hne : ∀ i < count t, cls IDs i ≠ 0)
    (hinj : Set.InjOn (cls IDs) (range (count t))) (hh : h.Coprime (curveOrder - 1))
    (hpos : 0 < (IDs.take (count t)).prod) : M.TamperEvident pp sk_v msg t IDs := by
  intro aux sig hrange hok i hi
  obtain ⟨-, haux, hsig, -⟩ := M.lengths_of_accepts ht hok
  have hcoeff : coeffZero (cls IDs) (count t) i ≠ 0 := coeffZero_ne_zero hi hne hinj
  have haux : i < aux.length := lt_of_lt_of_le hi haux
  have hsig : i < sig.length := lt_of_lt_of_le hi hsig
  obtain ⟨hold₁, hold₂⟩ : 1 ≤ aux.getD i 0 ∧ aux.getD i 0 < curveOrder := by
    rw [List.getD_eq_getElem _ _ haux]
    exact hrange _ (List.getElem_mem haux)
  have hold : cls aux i ≠ 0 := cast_ne_zero_of_range hold₁ hold₂
  constructor
  · intro P hP
    exact M.out_verify_of_combined_ne hq ht hnondeg hgen hhash hpos hok rfl rfl List.length_set
      (combined_set_sig_ne hi hcoeff hsig hold hP)
  · intro hpoint a ha₁ ha₂ hchanged
    have hclass : (a : Zq) ≠ cls aux i := by
      intro heq
      refine hchanged ?_
      rw [← rep_intCast_of_lt (m := curveOrder) (by omega) ha₂, heq, cls,
        rep_intCast_of_lt (by omega) hold₂]
    exact M.out_verify_of_combined_ne hq ht hnondeg hgen hhash hpos hok rfl List.length_set rfl
      (combined_set_aux_ne hi hcoeff hh haux hpoint (cast_ne_zero_of_range ha₁ ha₂) hold hclass)

end Detected

/-! ## A change that is not seen -/

section Forged

/-- Factors that make the first scalar one of the two that `ECP_mul` confuses. -/
def forgedFactor (x : Zq) (i : ℕ) : Zq := if i = 0 then x else -1

/-- A nonzero point, one that brings the sum to `S`, and infinity. -/
def forgedPoint [Module Zq ECP] (P S : ECP) (i : ℕ) : ECP :=
  if i = 0 then P
  else if i = 1 then (255 : Zq)⁻¹ • (S - ecpMul P (signedRep true (halfOrder : Zq)))
  else 0

theorem sum_forged [Module Zq ECP] {n : ℕ} (hn : 2 ≤ n) (P S : ECP) {x : Zq}
    (hx : ecpMul P (signedRep true x) = ecpMul P (signedRep true (halfOrder : Zq))) :
    ∑ i ∈ range n, ecpMul (forgedPoint P S i) (signedRep true (forgedFactor x i)) = S := by
  have hunit : (255 : Zq) ≠ 0 := by
    have := lt_curveOrder
    exact_mod_cast natCast_ne_zero_of_lt (k := 255) (by norm_num) (by omega)
  have hsecond : ecpMul (forgedPoint P S 1) (signedRep true (forgedFactor x 1)) =
      S - ecpMul P (signedRep true (halfOrder : Zq)) := by
    rw [forgedFactor, if_neg one_ne_zero, ecpMul_signedRep_neg_one, forgedPoint,
      if_neg one_ne_zero, if_pos rfl, ← Nat.cast_smul_eq_nsmul Zq, smul_smul, Nat.cast_ofNat,
      mul_inv_cancel₀ hunit, one_smul]
  rw [sum_eq_add 0 1 zero_ne_one]
  · rw [hsecond, forgedPoint, forgedFactor, if_pos rfl, if_pos rfl, hx, add_sub_cancel]
  · rintro i - ⟨h₀, h₁⟩
    rw [forgedPoint, if_neg h₀, if_neg h₁, ecpMul_zero_point]
  · exact fun hmem ↦ absurd (mem_range.mpr (by omega)) hmem
  · exact fun hmem ↦ absurd (mem_range.mpr (by omega)) hmem

end Forged

/-- With a negative product of IDs the forged points are accepted under any `aux` that gives the
forged factors. -/
theorem accepts_forged [Module Zq ECP] [Module Zq ECP2] (hq : pp.q = curveOrder)
    (ht : 2 ≤ count t) {IDs : List ℤ} (hIDs : count t ≤ IDs.length)
    (hneg : (IDs.take (count t)).prod < 0) {h : ℕ}
    (hhash : (M.verifyHash pp sk_v).out = .ok (h : ℤ)) {c : Zq}
    (hK : (subscript pp.PK (t - 2).toInt).out = .ok (c • pp.P2)) {P : ECP} {x : Zq}
    (hx : ecpMul P (signedRep true x) = ecpMul P (signedRep true (halfOrder : Zq)))
    {aux : List ℤ} (haux : count t ≤ aux.length)
    (hfactor : ∀ i < count t,
      coeffZero (cls IDs) (count t) i * (cls aux i ^ h)⁻¹ = forgedFactor x i) (msg : ℤ) :
    (M.verify ⟨aux, (List.range (count t)).map
      (forgedPoint P (c • M.hashToPoint msg curveOrder)), IDs⟩ sk_v pp msg t).out = .ok 1 := by
  rw [M.out_verify_order hq (by omega) hIDs haux (by simp) hhash hK, decide_eq_true hneg, if_pos]
  rw [← e_smul_comm]
  congr 1
  refine (sum_congr rfl fun i hi ↦ ?_).trans (sum_forged ht P _ hx)
  rw [factor, hfactor i (mem_range.mp hi), getD_map_range _ 0 (mem_range.mp hi)]

/-- A negative product of IDs: an entry of `aux` is replaced by its negative, and the first
scalar changes in its last digit only. -/
theorem not_tamperEvident_of_prod_neg [Module Zq ECP] [Module Zq ECP2] [Nontrivial ECP]
    (hq : pp.q = curveOrder) (ht : 2 ≤ count t) {IDs : List ℤ} (hIDs : count t ≤ IDs.length)
    (hne : ∀ i < count t, cls IDs i ≠ 0) (hinj : Set.InjOn (cls IDs) (range (count t))) {h : ℕ}
    (hhash : (M.verifyHash pp sk_v).out = .ok (h : ℤ)) (hh : h.Coprime (curveOrder - 1)) {c : Zq}
    (hK : (subscript pp.PK (t - 2).toInt).out = .ok (c • pp.P2))
    (hneg : (IDs.take (count t)).prod < 0) : ¬ M.TamperEvident pp sk_v msg t IDs := by
  intro hevident
  obtain ⟨P, hP⟩ := exists_ne (0 : ECP)
  have hhalf : (halfOrder : Zq) ≠ 0 := natCast_ne_zero_of_lt (by decide) (by
    rw [← two_mul_halfOrder]
    omega)
  obtain ⟨r, hr⟩ := exists_roots (k := forgedFactor halfOrder)
    (fun i hi ↦ coeffZero_ne_zero hi hne hinj) hh fun i ↦ by
      rw [forgedFactor]
      split_ifs
      · exact hhalf
      · exact neg_ne_zero.mpr one_ne_zero
  let aux : List ℤ := (List.range (count t)).map fun i ↦ rep (r i)
  have haux : aux.length = count t := by rw [List.length_map, List.length_range]
  have hfirst : 0 < count t := by omega
  have hlen : (aux.set 0 (rep (-r 0))).length = count t := by rw [List.length_set, haux]
  have hfactor : ∀ i < count t,
      coeffZero (cls IDs) (count t) i * (cls aux i ^ h)⁻¹ = forgedFactor halfOrder i := by
    intro i hi
    rw [cls_map_rep r hi, (hr i hi).2]
  have hfactor' : ∀ i < count t, coeffZero (cls IDs) (count t) i *
      (cls (aux.set 0 (rep (-r 0))) i ^ h)⁻¹ = forgedFactor (-halfOrder) i := by
    intro i hi
    by_cases hi₀ : i = 0
    · subst hi₀
      rw [cls, getD_set_self (haux ▸ hi), cast_rep, (odd_of_coprime hh).neg_pow, inv_neg, mul_neg,
        (hr 0 hi).2]
      rfl
    · rw [cls, getD_set_of_ne aux hi₀, ← cls, hfactor i hi, forgedFactor, forgedFactor, if_neg hi₀,
        if_neg hi₀]
  have hok := M.accepts_forged hq ht hIDs hneg hhash hK (P := P) rfl haux.ge hfactor msg
  have hunseen := M.accepts_forged hq ht hIDs hneg hhash hK (ecpMul_signedRep_halfOrder P).symm
    hlen.ge hfactor' msg
  have hrange : ∀ a ∈ aux, 1 ≤ a ∧ a < curveOrder := by
    intro a ha
    obtain ⟨i, hi, rfl⟩ := List.mem_map.mp ha
    exact ⟨rep_pos (hr i (List.mem_range.mp hi)).1, rep_lt _⟩
  obtain ⟨-, hreject⟩ := hevident aux _ hrange hok 0 hfirst
  rw [getD_map_range _ 0 hfirst, getD_map_range (fun i ↦ rep (r i)) 0 hfirst] at hreject
  have hrejected := hreject hP (rep (-r 0)) (rep_pos (neg_ne_zero.mpr (hr 0 hfirst).1)) (rep_lt _)
    (rep_neg_ne (hr 0 hfirst).1)
  rw [hunseen] at hrejected
  exact one_ne_zero (Outcome.ok.inj hrejected)

/-- **When `Verify` detects tampering.**  For IDs that are distinct and nonzero modulo the order,
whatever is accepted is rejected after a change of one point, or of one entry of `aux` whose point
is not infinity, exactly when the product of the first `t` IDs is positive; or nothing is accepted,
because there are fewer than `t` IDs or the public key has no entry for `t`. -/
theorem verify_tamper_iff [Module Zq ECP] [Module Zq ECP2] [Nontrivial ECP]
    (hnondeg : ∀ P, (∀ Q, M.e P Q = 1) → P = 0) (pp : Params ECP2) (hq : pp.q = curveOrder)
    (hgen : ∀ Q, ∃ c : Zq, Q = c • pp.P2) (sk_v msg : ℤ) (t : Int32) (ht : 2 ≤ t.toInt)
    (hterm : ∃ h, (M.verifyHash pp sk_v).out = .ok h) (IDs : List ℤ)
    (hne : ∀ x ∈ IDs.take (count t), ¬ (curveOrder : ℤ) ∣ x)
    (hdistinct : (IDs.take (count t)).Pairwise fun x y ↦ ¬ (curveOrder : ℤ) ∣ x - y) :
    M.TamperEvident pp sk_v msg t IDs ↔
      0 < (IDs.take (count t)).prod ∨ IDs.length < count t ∨ pp.PK.length < count t - 1 := by
  have hcount : (count t : ℤ) = t.toInt := cast_count (by omega)
  have hindex := toInt_sub_two_eq_count ht
  obtain ⟨h, hhash⟩ := hterm
  obtain ⟨h, rfl, hgcd⟩ := M.verifyHash_of_ok hhash
  have hh : h.Coprime (curveOrder - 1) := by
    rw [order_sub_one] at hgcd
    exact hgcd
  constructor
  · intro hevident
    by_contra hcond
    rw [not_or, not_or, not_lt, not_lt, not_lt] at hcond
    obtain ⟨hprod, hIDs, hPK⟩ := hcond
    have hprod₀ : (IDs.take (count t)).prod ≠ 0 :=
      List.prod_ne_zero fun hzero ↦ hne 0 hzero (dvd_zero _)
    have hK : (subscript pp.PK (t - 2).toInt).out = .ok (pp.PK.getD (count t - 2) 0) := by
      rw [hindex, subscript_of_lt (by omega) 0, Run.out_pure]
    obtain ⟨c, hc⟩ := hgen (pp.PK.getD (count t - 2) 0)
    exact M.not_tamperEvident_of_prod_neg hq (by omega) hIDs (cls_ne_zero_of_take hIDs hne)
      (injOn_cls_of_take hIDs hdistinct) hhash hh (hc ▸ hK) (lt_of_le_of_ne hprod hprod₀) hevident
  · intro hcond aux sig hrange hok
    obtain ⟨hIDs, -, -, K, hK⟩ := M.lengths_of_accepts (by omega) hok
    rcases hcond with hpos | hshort | hshort
    · exact M.tamperEvident_of_prod_pos hq (by omega) hnondeg hgen hhash
        (cls_ne_zero_of_take hIDs hne) (injOn_cls_of_take hIDs hdistinct) hh hpos aux sig hrange hok
    · exact absurd hIDs (not_le.mpr hshort)
    · rw [hindex] at hK
      have := Run.lt_length_of_index_out hK
      omega

end Miracl

section Exponents

theorem exponents_nondegenerate (P : Zq) (h : ∀ Q, exponents.e P Q = 1) : P = 0 := by
  have hone := Multiplicative.ofAdd.injective (h 1)
  rwa [mul_one] at hone

theorem exists_verifyHash_exponents {pp : Params Zq} (hq : pp.q = curveOrder)
    (hbeta : pp.beta = 1) : ∃ h, (exponents.verifyHash pp 1).out = .ok h := by
  rw [Miracl.verifyHash, Miracl.sharedHash, hq, hbeta, powMpz_one, pure_bind]
  exact exists_hashToCoprime_exponents 1

/-- `verify_tamper_iff` on the IDs `1` and `2`. -/
theorem verify_tamper_exponents :
    let pp : Params Zq :=
      { n := 2, tm := 2, q := curveOrder, P2 := 1, g := 1, beta := 1, PK := [1] }
    exponents.TamperEvident pp 1 5 2 [1, 2] := by
  intro pp
  refine (exponents.verify_tamper_iff exponents_nondegenerate pp rfl
    (fun Q ↦ ⟨Q, (mul_one Q).symm⟩) 1 5 2 (by decide) (exists_verifyHash_exponents rfl rfl)
    [1, 2] ?_ ?_).mpr (.inl (by decide))
  · intro x hx
    have hx : x = 1 ∨ x = 2 := by simpa [count] using hx
    rcases hx with rfl | rfl <;> exact not_order_dvd (by norm_num) (by norm_num)
  · change List.Pairwise _ [1, 2]
    rw [List.pairwise_pair]
    exact not_order_dvd (by norm_num) (by norm_num)

theorem two_inv_order : (2 : Zq)⁻¹ = -(halfOrder : Zq) :=
  inv_eq_of_mul_eq_one_right (by rw [mul_neg, two_mul_cast_halfOrder, neg_neg])

theorem coeffZero_neg_one_one {i : ℕ} (hi : i < 2) :
    coeffZero (cls [-1, 1]) 2 i = -(halfOrder : Zq) := by
  have h₀ : (range 2).erase 0 = {1} := rfl
  have h₁ : (range 2).erase 1 = {0} := rfl
  rw [← two_inv_order]
  interval_cases i
  · simp [coeffZero, cls, prod_range_succ, h₀]
    norm_num
  · simp [coeffZero, cls, prod_range_succ, h₁]
    norm_num

/-- The IDs `-1` and `1`: the first entry of `aux` is replaced by its negative, and the signature
is still accepted. -/
theorem verify_tamper_unseen :
    let pp : Params Zq := { n := 2, tm := 2, q := curveOrder, P2 := 1, g := 1, beta := 1,
                            PK := [(mpzToBIG (-halfOrder) : Zq)] }
    let sigma : Sigma Zq := { aux := [1, 1], sig := [2 ^ 127, 2 ^ 127], IDs := [-1, 1] }
    (∀ P, (∀ Q, exponents.e P Q = 1) → P = 0) ∧ (∀ Q, ∃ c : Zq, Q = c • pp.P2) ∧
      (∃ h, (exponents.verifyHash pp 1).out = .ok h) ∧
      (∀ x ∈ sigma.IDs, ¬ (curveOrder : ℤ) ∣ x) ∧ ¬ (curveOrder : ℤ) ∣ -1 - 1 ∧
      sigma.sig.getD 0 0 ≠ 0 ∧
      (exponents.verify sigma 1 pp 5 2).out = .ok 1 ∧
      (exponents.verify { sigma with aux := [curveOrder - 1, 1] } 1 pp 5 2).out = .ok 1 := by
  intro pp sigma
  have hterm : ∃ h, (exponents.verifyHash pp 1).out = .ok h := exists_verifyHash_exponents rfl rfl
  obtain ⟨h, hhash⟩ := hterm
  obtain ⟨h, rfl, hgcd⟩ := exponents.verifyHash_of_ok hhash
  have hodd : Odd h := odd_of_coprime (by rw [order_sub_one] at hgcd; exact hgcd)
  -- The scalars are `-(q - 1)/2` and, after the change, `-(q + 1)/2`.
  have haccept : ∀ a : ℤ, (a : Zq) ^ h = 1 ∨ (a : Zq) ^ h = -1 →
      (exponents.verify { sigma with aux := [a, 1] } 1 pp 5 2).out = .ok 1 := by
    intro a ha
    have hfirst : ecpMul (2 ^ 127 : Zq) (signedRep true (-(halfOrder : Zq) * ((a : Zq) ^ h)⁻¹)) =
        (mpzToBIG (-halfOrder) : Zq) * 2 ^ 127 := by
      rcases ha with ha | ha
      · rw [ha, inv_one, mul_one, ecpMul_signedRep_neg_halfOrder, nsmul_eq_mul]
      · rw [ha, inv_neg, inv_one, mul_neg, neg_mul, neg_neg, mul_one, ecpMul_signedRep_halfOrder,
          ecpMul_signedRep_neg_halfOrder, nsmul_eq_mul]
    have hsecond : ecpMul (2 ^ 127 : Zq) (signedRep true (-(halfOrder : Zq) * (1 ^ h)⁻¹)) =
        (mpzToBIG (-halfOrder) : Zq) * 2 ^ 127 := by
      rw [one_pow, inv_one, mul_one, ecpMul_signedRep_neg_halfOrder, nsmul_eq_mul]
    have hcount : count 2 = 2 := rfl
    have hsum : ∑ i ∈ range (count 2), ecpMul (sigma.sig.getD i 0) (signedRep true
        (Miracl.factor { sigma with aux := [a, 1] } h (count 2) i)) =
          (mpzToBIG (-halfOrder) : Zq) * 2 ^ 128 := by
      have hone : cls [a, 1] 1 = 1 := Int.cast_one
      rw [hcount, sum_range_succ, sum_range_one, Miracl.factor, Miracl.factor,
        coeffZero_neg_one_one zero_lt_two, coeffZero_neg_one_one one_lt_two, hone]
      refine (congrArg₂ (· + ·) hfirst hsecond).trans ?_
      ring
    rw [exponents.out_verify_order rfl (by omega) hcount.le hcount.le hcount.le hhash
      (K := (mpzToBIG (-halfOrder) : Zq)) rfl, if_pos]
    have hneg : ([-1, 1].take (count 2)).prod < (0 : ℤ) := by decide
    rw [decide_eq_true hneg, hsum, exponents.hashToPoint_eq, hashToZp256_exponents_order,
      Int.cast_pow, Int.cast_ofNat]
    change Multiplicative.ofAdd (_ * (2 : Zq) ^ 128 * 1) =
      Multiplicative.ofAdd ((2 : Zq) ^ 128 * 1 * _)
    rw [mul_one, mul_one, mul_comm]
  refine ⟨exponents_nondegenerate, fun Q ↦ ⟨Q, (mul_one Q).symm⟩, ⟨h, hhash⟩, ?_, ?_, ?_, ?_, ?_⟩
  · intro x hx
    have hx : x = -1 ∨ x = 1 := by simpa [sigma] using hx
    rcases hx with rfl | rfl <;> exact not_order_dvd (by norm_num) (by norm_num)
  · exact not_order_dvd (by norm_num) (by norm_num)
  · exact pow_ne_zero 127 two_ne_zero_order
  · exact haccept 1 (.inl (by rw [Int.cast_one, one_pow]))
  · refine haccept (curveOrder - 1) (.inr ?_)
    rw [Int.cast_sub, Int.cast_natCast, ZMod.natCast_self, Int.cast_one, zero_sub, hodd.neg_one_pow]

end Exponents

end Fussion
