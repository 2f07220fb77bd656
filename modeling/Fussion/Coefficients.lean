import Fussion.Shares

/-!
# The coefficients of interpolation

The two overloads of `getPi_0`.  The one that `Verify` calls multiplies up all IDs once and divides
by one of them; the other multiplies up the numerator of every coefficient.  Both keep
representatives with a sign: `%` truncates, so a product of IDs carries the sign of the product
through to the coefficient (`piZero_order`).

The overloads compute the coefficients of interpolation at zero when no ID is zero modulo the order.
`rand_mpz` can return the order itself, and there the overload that divides is wrong
(`getPi0_agrees_iff`).
-/

namespace Fussion

open Finset

/-! ## Loops that pass over one counter -/

/-- The counters below `n` other than `i`. -/
def others (n i : ℕ) : List ℕ := (List.range n).filter (· ≠ i)

theorem mem_others {n i j : ℕ} : j ∈ others n i ↔ j < n ∧ j ≠ i := by
  simp [others]

theorem nodup_others (n i : ℕ) : (others n i).Nodup := List.nodup_range.filter _

theorem prod_map_others {R : Type*} [CommMonoid R] (f : ℕ → R) (n i : ℕ) :
    ((others n i).map f).prod = ∏ j ∈ (range n).erase i, f j := by
  have hset : (others n i).toFinset = (range n).erase i := by
    ext j
    rw [List.mem_toFinset, mem_others, mem_erase, mem_range, and_comm]
  rw [← hset, List.prod_toFinset f (nodup_others n i)]

theorem remProd_map_range_succ (q : ℤ) (x : ℕ → ℤ) (n : ℕ) :
    remProd q ((List.range (n + 1)).map x) =
      (remProd q ((List.range n).map x) * x n).tmod q := by
  rw [List.range_succ, List.map_append, remProd, List.foldl_append]
  rfl

theorem remProd_map_others_succ (q : ℤ) (x : ℕ → ℤ) (n i : ℕ) :
    remProd q ((others (n + 1) i).map x) =
      if n ≠ i then (remProd q ((others n i).map x) * x n).tmod q
      else remProd q ((others n i).map x) := by
  rw [others, List.range_succ, List.filter_append, ← others]
  by_cases h : n = i
  · rw [if_neg (not_not.mpr h), List.filter_cons_of_neg (by simpa using h), List.filter_nil,
      List.append_nil]
  · rw [if_pos h, List.filter_cons_of_pos (by simpa using h), List.filter_nil, List.map_append,
      remProd, List.foldl_append]
    rfl

/-- Modulo the order. -/
theorem remProd_order (l : List ℤ) : remProd curveOrder l =
    signedRep (decide (l.prod < 0)) ((l.map (Int.cast (R := Zq))).prod) := by
  rw [remProd_eq_tmod (by exact_mod_cast one_lt_curveOrder), tmod_eq_signedRep, Int.cast_list_prod]

theorem cast_remProd_map_others (f : ℕ → ℤ) (n i : ℕ) :
    ((remProd curveOrder ((others n i).map f) : ℤ) : Zq) =
      ∏ j ∈ (range n).erase i, (f j : Zq) := by
  rw [remProd_order, cast_signedRep, List.map_map, prod_map_others]
  rfl

/-! ## What the two overloads return -/

/-- The coefficient that `getPi_0` computes for the `i`-th of the IDs `x`. -/
def piZero (q : ℤ) (x : ℕ → ℤ) (n i : ℕ) : ℤ :=
  ((remProd q ((List.range n).map x) * modInv (x i) q).tmod q *
    modInv (remProd q ((others n i).map fun j ↦ (x j - x i + q).tmod q)) q).tmod q

/-- The coefficient that the other overload computes. -/
def piZeroSigma (q : ℤ) (x : ℕ → ℤ) (n i : ℕ) : ℤ :=
  (remProd q ((others n i).map fun j ↦ (-x j + q).tmod q) *
    modInv (remProd q ((others n i).map fun j ↦ (x i - x j + q).tmod q)) q).tmod q

section Loops

variable {ECP ECP2 : Type} {pp : Params ECP2} {t : Int32}

theorem remMpz_of_ne_zero {q : ℤ} (hq : q ≠ 0) (a : ℤ) : remMpz a q = pure (a.tmod q) :=
  if_neg hq

/-- `getPi_0` on any modulus but zero, with its calls of `invert_mpz`. -/
theorem getPi0_eq_piZero (hq : pp.q ≠ 0) {ID : List ℤ} (hlen : count t ≤ ID.length) :
    getPi0 pp ID t = Run.ret
      ((List.range (count t)).flatMap fun i ↦ [⟨ID.getD i 0, pp.q⟩,
        ⟨remProd pp.q ((others (count t) i).map fun j ↦
          (ID.getD j 0 - ID.getD i 0 + pp.q).tmod pp.q), pp.q⟩])
      ((List.range (count t)).map (piZero pp.q (ID.getD · 0) (count t))) := by
  have hsub {i : ℕ} (hi : i < count t) : subscript ID i = pure (ID.getD i 0) :=
    subscript_of_lt (lt_of_lt_of_le hi hlen) 0
  rw [getPi0]
  refine (Run.bind_of_eq_pure (Run.upTo_eq_pure
    (fun n ↦ remProd pp.q ((List.range n).map (ID.getD · 0))) rfl fun i hi ↦ ?_) _).trans
      (Run.upTo_push _ _ fun i hi acc ↦ ?_)
  · rw [hsub hi, pure_bind, remMpz_of_ne_zero hq, remProd_map_range_succ]
  · refine (Run.bind_of_eq_pure (Run.upTo_eq_pure (fun n ↦ remProd pp.q ((others n i).map fun j ↦
      (ID.getD j 0 - ID.getD i 0 + pp.q).tmod pp.q)) rfl fun j hj ↦ ?_) _).trans ?_
    · rw [remProd_map_others_succ]
      by_cases hji : j = i
      · rw [if_neg (not_not.mpr hji), if_neg (not_not.mpr hji)]
      · rw [if_pos hji, if_pos hji, hsub hj, hsub hi]
        simp only [pure_bind, remMpz_of_ne_zero hq]
    · rw [hsub hi]
      simp only [pure_bind, invertMpz_eq, Run.ret_bind, remMpz_of_ne_zero hq, Run.after_pure,
        Run.after_ret]
      rfl

/-- The other overload on any modulus but zero. -/
theorem getPi0Sigma_eq_piZeroSigma (hq : pp.q ≠ 0) {sigma : Sigma ECP}
    (hlen : count t ≤ sigma.IDs.length) :
    (getPi0Sigma pp sigma t).out =
      .ok ((List.range (count t)).map (piZeroSigma pp.q (sigma.IDs.getD · 0) (count t))) := by
  have hsub {i : ℕ} (hi : i < count t) : subscript sigma.IDs i = pure (sigma.IDs.getD i 0) :=
    subscript_of_lt (lt_of_lt_of_le hi hlen) 0
  rw [getPi0Sigma, Run.upTo_push (piZeroSigma pp.q (sigma.IDs.getD · 0) (count t))
    (fun i ↦ [⟨remProd pp.q ((others (count t) i).map fun j ↦
      (sigma.IDs.getD i 0 - sigma.IDs.getD j 0 + pp.q).tmod pp.q), pp.q⟩]) fun i hi acc ↦ ?_]
  · rfl
  · refine (Run.bind_of_eq_pure (Run.upTo_eq_pure (fun n ↦
      (remProd pp.q ((others n i).map fun j ↦ (-sigma.IDs.getD j 0 + pp.q).tmod pp.q),
        remProd pp.q ((others n i).map fun j ↦
          (sigma.IDs.getD i 0 - sigma.IDs.getD j 0 + pp.q).tmod pp.q))) rfl
      fun j hj ↦ ?_) _).trans ?_
    · rw [remProd_map_others_succ, remProd_map_others_succ]
      by_cases hji : j = i
      · rw [if_neg (not_not.mpr hji), if_neg (not_not.mpr hji), if_neg (not_not.mpr hji)]
      · rw [if_pos hji, if_pos hji, if_pos hji, hsub hj, hsub hi]
        simp only [pure_bind, remMpz_of_ne_zero hq]
    · simp only [invertMpz_eq, Run.ret_bind, remMpz_of_ne_zero hq, pure_bind, Run.after_pure]
      rfl

end Loops

/-! ## In the field -/

theorem prod_map_range {R : Type*} [CommMonoid R] (f : ℕ → R) (n : ℕ) :
    ((List.range n).map f).prod = ∏ j ∈ range n, f j := rfl

/-- A difference of IDs, made positive by adding the order once. -/
theorem cast_sub_add_order (a b : ℤ) :
    (((a - b + curveOrder).tmod curveOrder : ℤ) : Zq) = a - b := by
  rw [cast_tmod]
  push_cast
  rw [ZMod.natCast_self, add_zero]

/-- **The coefficient, with the sign of the product of the IDs.** -/
theorem piZero_order (ID : List ℤ) (n i : ℕ) :
    piZero curveOrder (ID.getD · 0) n i =
      signedRep (decide (∏ j ∈ range n, ID.getD j 0 < 0)) (coeffZero (cls ID) n i) := by
  have hden : ((remProd curveOrder ((others n i).map fun j ↦
      (ID.getD j 0 - ID.getD i 0 + curveOrder).tmod curveOrder) : ℤ) : Zq) =
        ∏ j ∈ (range n).erase i, (cls ID j - cls ID i) := by
    rw [cast_remProd_map_others]
    exact prod_congr rfl fun j _ ↦ cast_sub_add_order _ _
  rw [piZero, modInv_eq_rep, modInv_eq_rep, remProd_order, signedRep_mul_rep_tmod,
    signedRep_mul_rep_tmod, hden, List.map_map, prod_map_range, prod_map_range]
  rfl

/-- The basis polynomial at zero, as the other overload computes it. -/
theorem eval_zero_basis (x : ℕ → Zq) (n i : ℕ) :
    (Lagrange.basis (range n) x i).eval 0 =
      (∏ j ∈ (range n).erase i, -x j) * (∏ j ∈ (range n).erase i, (x i - x j))⁻¹ := by
  rw [← prod_inv_distrib, ← prod_mul_distrib, Lagrange.basis, Polynomial.eval_prod]
  refine prod_congr rfl fun j _ ↦ ?_
  simp only [Lagrange.basisDivisor, Polynomial.eval_mul, Polynomial.eval_C, Polynomial.eval_sub,
    Polynomial.eval_X, zero_sub, mul_comm]

/-- The other overload keeps every factor nonnegative as long as no ID exceeds the order. -/
theorem piZeroSigma_order {ID : List ℤ} {n : ℕ} (h : ∀ j < n, ID.getD j 0 ≤ curveOrder) (i : ℕ) :
    piZeroSigma curveOrder (ID.getD · 0) n i =
      rep ((Lagrange.basis (range n) (cls ID) i).eval 0) := by
  have hnum : remProd curveOrder ((others n i).map fun j ↦
      (-ID.getD j 0 + curveOrder).tmod curveOrder) =
        rep (∏ j ∈ (range n).erase i, -cls ID j) := by
    have hpos : ¬ ((others n i).map fun j ↦
        (-ID.getD j 0 + curveOrder).tmod curveOrder).prod < 0 := by
      refine not_lt.mpr (List.prod_nonneg fun a ha ↦ ?_)
      obtain ⟨j, hj, rfl⟩ := List.mem_map.mp ha
      have := h j (mem_others.mp hj).1
      exact Int.tmod_nonneg _ (by omega)
    rw [remProd_order, decide_eq_false hpos, signedRep_false, List.map_map, prod_map_others]
    refine congrArg rep (prod_congr rfl fun j _ ↦ ?_)
    have := cast_sub_add_order 0 (ID.getD j 0)
    rw [zero_sub] at this
    rw [Function.comp_apply, this, Int.cast_zero, zero_sub, cls]
  have hden : ((remProd curveOrder ((others n i).map fun j ↦
      (ID.getD i 0 - ID.getD j 0 + curveOrder).tmod curveOrder) : ℤ) : Zq) =
        ∏ j ∈ (range n).erase i, (cls ID i - cls ID j) := by
    rw [cast_remProd_map_others]
    exact prod_congr rfl fun j _ ↦ cast_sub_add_order _ _
  rw [piZeroSigma, hnum, modInv_eq_rep, hden, rep_mul_rep_tmod, eval_zero_basis]

/-! ## Interpolation -/

section Interpolation

variable {ECP ECP2 : Type} {pp : Params ECP2} {t : Int32} {ID : List ℤ}

/-- `getPi_0` on IDs whose product is not negative. -/
theorem out_getPi0_of_prod_nonneg (hq : pp.q = curveOrder) (hlen : count t ≤ ID.length)
    (hprod : 0 ≤ ∏ j ∈ range (count t), ID.getD j 0) :
    (getPi0 pp ID t).out =
      .ok ((List.range (count t)).map fun i ↦ rep (coeffZero (cls ID) (count t) i)) := by
  rw [getPi0_eq_piZero (hq ▸ order_ne_zero) hlen, Run.out_ret, hq]
  refine congrArg Outcome.ok (List.map_congr_left fun i _ ↦ ?_)
  rw [piZero_order, decide_eq_false (not_lt.mpr hprod), signedRep_false]

/-- IDs that are distinct modulo the order. -/
theorem injOn_cls {n : ℕ} (h : ∀ i < n, ∀ j < n, i ≠ j →
    ¬ (curveOrder : ℤ) ∣ ID.getD i 0 - ID.getD j 0) : Set.InjOn (cls ID) (range n) := by
  intro i hi j hj hij
  by_contra hne
  refine cast_ne_zero_iff.mpr (h i (by simpa using hi) j (by simpa using hj) hne) ?_
  rw [Int.cast_sub]
  exact sub_eq_zero.mpr hij

/-- **`getPi_0` interpolates at zero.**  Whatever the size of the IDs, the coefficients are
canonical residues, and they combine the values of a polynomial of degree below `t` at the IDs to
its value at zero. -/
theorem getPi0_interpolates (pp : Params ECP2) (hq : pp.q = curveOrder) (t : Int32)
    (ht : 1 ≤ t.toInt) (ID : List ℤ) (hlen : t.toInt ≤ ID.length) (hnonneg : ∀ x ∈ ID, 0 ≤ x)
    (hne : ∀ i < count t, ¬ (curveOrder : ℤ) ∣ ID.getD i 0)
    (hdistinct : ∀ i < count t, ∀ j < count t, i ≠ j →
      ¬ (curveOrder : ℤ) ∣ ID.getD i 0 - ID.getD j 0) :
    ∃ Pis, (getPi0 pp ID t).out = .ok Pis ∧ (Pis.length : ℤ) = t.toInt ∧
      (∀ c ∈ Pis, 0 ≤ c ∧ c < curveOrder) ∧
      ∀ F : Polynomial Zq, F.degree < (count t : ℕ) →
        ∑ i ∈ range (count t), (Pis.getD i 0 : Zq) * F.eval (ID.getD i 0 : Zq) = F.eval 0 := by
  have hcount : (count t : ℤ) = t.toInt := cast_count (by omega)
  have hprod : 0 ≤ ∏ j ∈ range (count t), ID.getD j 0 :=
    prod_nonneg fun j _ ↦ Nonneg.getD hnonneg j
  refine ⟨_, out_getPi0_of_prod_nonneg hq (by omega) hprod, ?_, ?_, fun F hF ↦ ?_⟩
  · rw [List.length_map, List.length_range, hcount]
  · intro c hc
    obtain ⟨i, -, rfl⟩ := List.mem_map.mp hc
    exact ⟨rep_nonneg _, rep_lt _⟩
  · have hx : ∀ i < count t, cls ID i ≠ 0 := fun i hi ↦ cast_ne_zero_iff.mpr (hne i hi)
    rw [← sum_coeffZero_mul_eval hx (injOn_cls hdistinct) hF]
    refine sum_congr rfl fun i hi ↦ ?_
    rw [getD_map_range (fun i ↦ rep (coeffZero (cls ID) (count t) i)) 0 (mem_range.mp hi), cast_rep]
    rfl

/-- `getPi0_interpolates` on the IDs `1` and `q + 2`. -/
theorem getPi0_interpolates_two :
    let pp : Params Unit :=
      { n := 2, tm := 2, q := curveOrder, P2 := (), g := 1, beta := 1, PK := [] }
    let ID : List ℤ := [1, curveOrder + 2]
    ∃ Pis, (getPi0 pp ID 2).out = .ok Pis ∧ (Pis.length : ℤ) = (2 : Int32).toInt ∧
      (∀ c ∈ Pis, 0 ≤ c ∧ c < curveOrder) ∧
      ∀ F : Polynomial Zq, F.degree < (count 2 : ℕ) →
        ∑ i ∈ range (count 2), (Pis.getD i 0 : Zq) * F.eval (ID.getD i 0 : Zq) = F.eval 0 := by
  intro pp ID
  have hlt := lt_curveOrder
  have hone : ¬ (curveOrder : ℤ) ∣ 1 := not_order_dvd (by norm_num) (by norm_num)
  have htwo : ¬ (curveOrder : ℤ) ∣ curveOrder + 2 := by
    rw [Int.dvd_add_right (dvd_refl _)]
    exact not_order_dvd (by norm_num) (by norm_num)
  have hdiff : ¬ (curveOrder : ℤ) ∣ curveOrder + 2 - 1 := by
    rw [add_sub_assoc, Int.dvd_add_right (dvd_refl _)]
    exact not_order_dvd (by norm_num) (by norm_num)
  refine getPi0_interpolates pp rfl 2 (by decide) ID (by decide) ?_
    (forall_lt_count_two hone htwo) (forall_ne_count_two ?_ hdiff)
  · intro x hx
    simp only [ID, List.mem_cons, List.not_mem_nil, or_false] at hx
    omega
  · rw [← neg_sub, dvd_neg]
    exact hdiff

/-! ## The two overloads -/

/-- Distinct draws of `rand_mpz` are distinct modulo the order. -/
theorem not_dvd_sub_randMpz {r s : Fin curveOrder} (h : randMpz r ≠ randMpz s) :
    ¬ (curveOrder : ℤ) ∣ randMpz r - randMpz s := by
  intro hdvd
  have := randMpz_pos r
  have := randMpz_pos s
  have := randMpz_le r
  have := randMpz_le s
  exact h (sub_eq_zero.mp (Int.eq_zero_of_abs_lt_dvd hdvd (abs_lt.mpr (by omega))))

/-- At a point that is zero the basis polynomial is one, and the quotient by the point is zero. -/
theorem coeffZero_ne_eval_basis {x : ℕ → Zq} {n i : ℕ} (hi : i < n)
    (hinj : Set.InjOn x (range n)) (h₀ : x i = 0) :
    coeffZero x n i ≠ (Lagrange.basis (range n) x i).eval 0 := by
  have hbasis : (Lagrange.basis (range n) x i).eval 0 = 1 := by
    rw [← h₀]
    exact Lagrange.eval_basis_self hinj (mem_range.mpr hi)
  have hcoeff : coeffZero x n i = 0 := by
    rw [coeffZero, h₀, inv_zero, mul_zero, zero_mul]
  rw [hbasis, hcoeff]
  exact zero_ne_one

/-- On draws of `rand_mpz` the overloads return the same list exactly when none is the order. -/
theorem out_getPi0_eq_iff {sigma : Sigma ECP} (hq : pp.q = curveOrder)
    (hlen : count t ≤ sigma.IDs.length)
    (hdraw : ∀ i < count t, ∃ r, sigma.IDs.getD i 0 = randMpz r)
    (hdistinct : ∀ i < count t, ∀ j < count t, i ≠ j →
      sigma.IDs.getD i 0 ≠ sigma.IDs.getD j 0) :
    (getPi0 pp sigma.IDs t).out = (getPi0Sigma pp sigma t).out ↔
      ∀ i < count t, sigma.IDs.getD i 0 ≠ curveOrder := by
  have hinj : Set.InjOn (cls sigma.IDs) (range (count t)) := by
    refine injOn_cls fun i hi j hj hij ↦ ?_
    obtain ⟨r, hr⟩ := hdraw i hi
    obtain ⟨s, hs⟩ := hdraw j hj
    have hne := hdistinct i hi j hj hij
    rw [hr, hs] at hne ⊢
    exact not_dvd_sub_randMpz hne
  have hzero : ∀ i < count t, (sigma.IDs.getD i 0 = curveOrder ↔ cls sigma.IDs i = 0) := by
    intro i hi
    obtain ⟨r, hr⟩ := hdraw i hi
    rw [cls, hr, cast_randMpz_eq_zero_iff]
  have hprod : 0 ≤ ∏ j ∈ range (count t), sigma.IDs.getD j 0 := by
    refine prod_nonneg fun j hj ↦ ?_
    obtain ⟨r, hr⟩ := hdraw j (mem_range.mp hj)
    exact hr ▸ (randMpz_pos r).le
  have hle : ∀ j < count t, sigma.IDs.getD j 0 ≤ curveOrder := by
    intro j hj
    obtain ⟨r, hr⟩ := hdraw j hj
    exact hr ▸ randMpz_le r
  rw [out_getPi0_of_prod_nonneg hq hlen hprod,
    getPi0Sigma_eq_piZeroSigma (hq ▸ order_ne_zero) hlen, Outcome.ok.injEq, List.map_inj_left, hq]
  constructor
  · intro h i hi heq
    have hi' := h i (List.mem_range.mpr hi)
    rw [piZeroSigma_order hle] at hi'
    exact coeffZero_ne_eval_basis hi hinj ((hzero i hi).mp heq) (rep_injective hi')
  · intro h i hi
    have hi := List.mem_range.mp hi
    rw [piZeroSigma_order hle, coeffZero_eq_eval_basis hi fun h₀ ↦ h i hi ((hzero i hi).mpr h₀)]

/-- **When the overloads of `getPi_0` agree**: on distinct IDs that `rand_mpz` can return, exactly
when none of them is the order. -/
theorem getPi0_agrees_iff (pp : Params ECP2) (hq : pp.q = curveOrder) (t : Int32)
    (ht : 1 ≤ t.toInt) (sigma : Sigma ECP) (hlen : t.toInt ≤ sigma.IDs.length)
    (hdraw : ∀ i < count t, ∃ r, sigma.IDs.getD i 0 = randMpz r)
    (hdistinct : ∀ i < count t, ∀ j < count t, i ≠ j →
      sigma.IDs.getD i 0 ≠ sigma.IDs.getD j 0) :
    ∃ Pis, (getPi0Sigma pp sigma t).out = .ok Pis ∧
      ((getPi0 pp sigma.IDs t).out = .ok Pis ↔
        ∀ i < count t, sigma.IDs.getD i 0 ≠ curveOrder) := by
  have hcount : (count t : ℤ) = t.toInt := cast_count (by omega)
  have hlen' : count t ≤ sigma.IDs.length := by omega
  have hq₀ : pp.q ≠ 0 := hq ▸ order_ne_zero
  have hok := getPi0Sigma_eq_piZeroSigma hq₀ hlen'
  refine ⟨_, hok, ?_⟩
  rw [← hok]
  exact out_getPi0_eq_iff hq hlen' hdraw hdistinct

/-- `getPi0_agrees_iff` on the IDs `1` and `2`. -/
theorem getPi0_agrees_two :
    let pp : Params Unit :=
      { n := 2, tm := 2, q := curveOrder, P2 := (), g := 1, beta := 1, PK := [] }
    let sigma : Sigma Unit := { aux := [], sig := [], IDs := [1, 2] }
    ∃ Pis, (getPi0Sigma pp sigma 2).out = .ok Pis ∧ (getPi0 pp sigma.IDs 2).out = .ok Pis := by
  intro pp sigma
  have hlt := lt_curveOrder
  have h₀ : sigma.IDs.getD 0 0 = 1 := rfl
  have h₁ : sigma.IDs.getD 1 0 = 2 := rfl
  obtain ⟨Pis, hok, hiff⟩ := getPi0_agrees_iff pp rfl 2 (by decide) sigma (by decide)
    (forall_lt_count_two (exists_eq_randMpz (by omega) (by omega))
      (exists_eq_randMpz (by omega) (by omega)))
    (forall_ne_count_two (by omega) (by omega))
  exact ⟨Pis, hok, hiff.mpr (forall_lt_count_two (by omega) (by omega))⟩

/-- The draws `q` and `1`: the overload that `Verify` calls returns other coefficients. -/
theorem getPi0_differs_at_order :
    let pp : Params Unit :=
      { n := 2, tm := 2, q := curveOrder, P2 := (), g := 1, beta := 1, PK := [] }
    let sigma : Sigma Unit := { aux := [], sig := [], IDs := [curveOrder, 1] }
    (∀ i < count 2, ∃ r, sigma.IDs.getD i 0 = randMpz r) ∧
      (∀ i < count 2, ∀ j < count 2, i ≠ j → sigma.IDs.getD i 0 ≠ sigma.IDs.getD j 0) ∧
      (getPi0 pp sigma.IDs 2).out ≠ (getPi0Sigma pp sigma 2).out := by
  intro pp sigma
  have hlt := lt_curveOrder
  have h₀ : sigma.IDs.getD 0 0 = curveOrder := rfl
  have h₁ : sigma.IDs.getD 1 0 = 1 := rfl
  have hdraw : ∀ i < count 2, ∃ r, sigma.IDs.getD i 0 = randMpz r :=
    forall_lt_count_two (exists_eq_randMpz (by omega) h₀.le) (exists_eq_randMpz h₁.ge (by omega))
  have hdistinct : ∀ i < count 2, ∀ j < count 2, i ≠ j →
      sigma.IDs.getD i 0 ≠ sigma.IDs.getD j 0 :=
    forall_ne_count_two (by omega) (by omega)
  refine ⟨hdraw, hdistinct, fun heq ↦ ?_⟩
  exact (out_getPi0_eq_iff rfl (by decide) hdraw hdistinct).mp heq 0 (by decide) h₀

end Interpolation

end Fussion
