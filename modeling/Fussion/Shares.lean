import Fussion.Scheme
import Fussion.Lib.Interpolate
import Mathlib.Data.List.GetD

/-!
# Key issuing and signing, in the field

What `Setup`, `getPK`, `getUAV`, `KeyGen`, `Sign` and `collectSig` return, written with elements
of `Zq`.  All the integers that pass through these functions are representatives, so each
result is `rep` of one expression: an ElGamal pair hides the value of a linear polynomial at the
ID, `Sign` multiplies the pairs of the first `t - 1` polynomials, and the public key at index
`t - 2` is the product of their constant terms.
-/

namespace Fussion

open Finset

/-- The field of scalars. -/
abbrev Zq := ZMod curveOrder

theorem cast_ne_zero_iff {a : ℤ} : (a : Zq) ≠ 0 ↔ ¬ (curveOrder : ℤ) ∣ a :=
  (ZMod.intCast_zmod_eq_zero_iff_dvd a curveOrder).not

theorem natCast_ne_zero_of_lt {k : ℕ} (h₀ : k ≠ 0) (h : k < curveOrder) : (k : Zq) ≠ 0 := by
  rw [Ne, ZMod.natCast_eq_zero_iff]
  exact fun hdvd ↦ h₀ (Nat.eq_zero_of_dvd_of_lt hdvd h)

theorem two_ne_zero_order : (2 : Zq) ≠ 0 := by
  have := lt_curveOrder
  exact_mod_cast natCast_ne_zero_of_lt (k := 2) (by norm_num) (by omega)

/-! ## Counters and subscripts -/

theorem toInt_sub_one {t : Int32} (h : 1 ≤ t.toInt) : (t - 1).toInt = t.toInt - 1 := by
  have hlt := t.toInt_lt
  rw [Int32.toInt_sub, Int32.toInt_one, Int.bmod_eq_of_le] <;> omega

theorem toInt_sub_two {t : Int32} (h : 2 ≤ t.toInt) : (t - 2).toInt = t.toInt - 2 := by
  have hlt := t.toInt_lt
  rw [Int32.toInt_sub, show (2 : Int32).toInt = 2 from rfl, Int.bmod_eq_of_le] <;> omega

theorem count_sub_one {t : Int32} (h : 1 ≤ t.toInt) : count (t - 1) = count t - 1 := by
  rw [count, count, toInt_sub_one h]
  omega

theorem cast_count {t : Int32} (h : 0 ≤ t.toInt) : (count t : ℤ) = t.toInt :=
  Int.toNat_of_nonneg h

/-- The subscript of the public key in `Verify`. -/
theorem toInt_sub_two_eq_count {t : Int32} (h : 2 ≤ t.toInt) :
    (t - 2).toInt = (count t - 2 : ℕ) := by
  have hcount := cast_count (zero_le_two.trans h)
  rw [toInt_sub_two h]
  omega

theorem cast_count_sub_one {t : Int32} (h : 1 ≤ t.toInt) : (count (t - 1) : ℤ) = t.toInt - 1 := by
  rw [cast_count (by rw [toInt_sub_one h]; omega), toInt_sub_one h]

/-- The threshold `tm / 2 + 1` of the source. -/
theorem toInt_threshold {tm : Int32} (htm : 2 ≤ tm.toInt) :
    (tm / 2 + 1).toInt = tm.toInt / 2 + 1 := by
  have hlt := tm.toInt_lt
  have hdiv : (tm / 2).toInt = tm.toInt / 2 := by
    rw [Int32.toInt_div, show (2 : Int32).toInt = 2 from rfl, Int.tdiv_eq_ediv_of_nonneg (by omega),
      Int.bmod_eq_of_le] <;> omega
  rw [Int32.toInt_add, hdiv, Int32.toInt_one, Int.bmod_eq_of_le] <;> omega

theorem count_mono {s t : Int32} (h : s.toInt ≤ t.toInt) : count s ≤ count t :=
  Int.toNat_le_toNat h

theorem count_sub_one_mono {s t : Int32} (h₁ : 1 ≤ s.toInt) (h : s.toInt ≤ t.toInt) :
    count (s - 1) ≤ count (t - 1) := by
  rw [count_sub_one h₁, count_sub_one (h₁.trans h)]
  exact Nat.sub_le_sub_right (count_mono h) 1

/-- The counters of a threshold of two, one by one. -/
theorem forall_lt_count_two {p : ℕ → Prop} (h₀ : p 0) (h₁ : p 1) : ∀ i < count 2, p i := by
  intro i hi
  have hi : i < 2 := hi
  interval_cases i
  · exact h₀
  · exact h₁

/-- Two different counters of a threshold of two. -/
theorem forall_ne_count_two {p : ℕ → ℕ → Prop} (h₀₁ : p 0 1) (h₁₀ : p 1 0) :
    ∀ i < count 2, ∀ j < count 2, i ≠ j → p i j :=
  forall_lt_count_two (forall_lt_count_two (absurd rfl) fun _ ↦ h₀₁)
    (forall_lt_count_two (fun _ ↦ h₁₀) (absurd rfl))

theorem subscript_of_lt {A : Type} {v : List A} {i : ℕ} (h : i < v.length) (a : A) :
    subscript v i = pure (v.getD i a) := by
  rw [subscript, Run.index_natCast h, List.getD_eq_getElem v a h]

theorem subscript_of_getElem? {A : Type} {v : List A} {i : ℕ} {a : A} (h : v[i]? = some a) :
    subscript v i = pure a := Run.index_of_getElem? h

theorem subscript_of_le {A : Type} {v : List A} {i : ℕ} (h : v.length ≤ i) :
    subscript v i = Run.fault .outOfRange := Run.index_of_le h

/-! ## Lists of nonnegative integers -/

/-- All entries are nonnegative. -/
def Nonneg (v : List ℤ) : Prop := ∀ x ∈ v, 0 ≤ x

theorem Nonneg.getD {v : List ℤ} (h : Nonneg v) (i : ℕ) : 0 ≤ v.getD i 0 := by
  rw [List.getD_eq_getElem?_getD]
  cases hi : v[i]? with
  | none => exact le_refl 0
  | some x => exact h x (List.mem_of_getElem? hi)

theorem nonneg_map_rep {A : Type} (l : List A) (f : A → Zq) : Nonneg (l.map fun a ↦ rep (f a)) := by
  intro x hx
  obtain ⟨a, -, rfl⟩ := List.mem_map.mp hx
  exact rep_nonneg _

/-- The class of the `i`-th entry. -/
def cls (v : List ℤ) (i : ℕ) : Zq := (v.getD i 0 : ℤ)

theorem getD_map_range {A : Type} (f : ℕ → A) (a : A) {i n : ℕ} (h : i < n) :
    ((List.range n).map f).getD i a = f i := by
  rw [List.getD_eq_getElem _ _ (by simpa using h), List.getElem_map, List.getElem_range]

theorem cls_map_rep (f : ℕ → Zq) {i n : ℕ} (h : i < n) :
    cls ((List.range n).map fun i ↦ rep (f i)) i = f i := by
  rw [cls, getD_map_range (fun i ↦ rep (f i)) 0 h, cast_rep]

theorem remMpz_rep_mul (x : Zq) {a : ℤ} (h : 0 ≤ a) :
    remMpz (rep x * a) curveOrder = pure (rep (x * (a : Zq))) := by
  rw [remMpz_order_of_nonneg (mul_nonneg (rep_nonneg x) h)]
  push_cast
  rw [cast_rep]

theorem rep_one : rep (1 : Zq) = 1 := by
  have h := rep_intCast_of_lt (m := curveOrder) (a := 1) (by norm_num)
    (by exact_mod_cast one_lt_curveOrder)
  rwa [Int.cast_one] at h

/-! ## The public key -/

namespace Miracl

variable {ECP ECP2 FP12 : Type} [AddCommGroup ECP] [AddCommGroup ECP2] [CommGroup FP12]
variable (M : Miracl ECP ECP2 FP12)

/-- The public parameters that `Setup` makes of its draws. -/
def setupParams (n tm : Int32) (g alpha : Fin curveOrder) : Params ECP2 where
  n := n
  tm := tm
  q := curveOrder
  P2 := M.generator2
  g := randMpz g
  beta := rep ((randMpz g : Zq) ^ (randMpz alpha).toNat)
  PK := []

/-- `Setup` reads the order into `pp.q`. -/
theorem setup_eq (n tm : Int32) (g alpha : Fin curveOrder) :
    M.setup n tm g alpha = pure (randMpz alpha, M.setupParams n tm g alpha) := by
  have hq : bigToMpz curveOrder = curveOrder := bigToMpz_of_lt curveOrder_lt_big
  simp only [setup, hq]
  rw [powMpz_order _ (randMpz_pos alpha).le, pure_bind]
  rfl

/-- `getPK` lists the products of the leading constant terms. -/
theorem getPK_eq [Module Zq ECP2] {b : List ℤ} (hne : b ≠ [])
    (hb : ∀ x ∈ b, 0 ≤ x ∧ x ≤ curveOrder) :
    M.getPK b = pure ((List.range b.length).map fun i ↦
      (∏ j ∈ range (i + 1), cls b j) • M.generator2) := by
  have hmax : max 1 b.length = b.length :=
    max_eq_right (Nat.one_le_iff_ne_zero.mpr fun h ↦ hne (List.length_eq_zero_iff.mp h))
  -- The accumulated point in front of iteration `i`.
  let key : ℕ → ECP2 := fun i ↦ (∏ j ∈ range i, cls b j) • M.generator2
  have hzero : key 0 = M.generator2 := by simp only [key, range_zero, prod_empty, one_smul]
  rw [getPK, hmax]
  refine Run.bind_of_eq_pure (Run.upTo_eq_pure
    (fun i ↦ (key i, (List.range i).map fun j ↦ key (j + 1))) (by rw [hzero]; rfl) ?_) _
  intro i hi
  obtain ⟨h₀, h₁⟩ := hb (b.getD i 0) (by
    rw [List.getD_eq_getElem b 0 hi]; exact List.getElem_mem hi)
  have hstep : ecpMul (key i) (b.getD i 0) = key (i + 1) := by
    rw [ecpMul_of_lt _ h₀ (lt_two_pow_of_le_order h₁), smul_smul, mul_comm]
    simp only [key, prod_range_succ, cls]
  rw [subscript_of_lt hi 0, pure_bind, hstep, List.range_succ, List.map_append,
    List.map_singleton]

end Miracl

/-! ## Share reconstruction keys -/

section Keys

variable {ECP2 : Type}

/-- The share reconstruction key that `getUAV` issues, as classes. -/
def issuedKey (pp : Params ECP2) (d b : List ℤ) (id : ℤ) (u : ℕ → Fin curveOrder) : UAV where
  c1 := (List.range b.length).map fun i ↦ rep ((pp.g : Zq) ^ (randMpz (u i)).toNat)
  c2 := (List.range b.length).map fun i ↦
    rep ((pp.beta : Zq) ^ (randMpz (u i)).toNat * (cls d i * (id : Zq) + cls b i))
  ID := id

theorem getUAV_eq {pp : Params ECP2} (hq : pp.q = curveOrder) {d b : List ℤ} {id : ℤ}
    (hlen : b.length ≤ d.length) (hd : Nonneg d) (hb : Nonneg b) (hid : 0 ≤ id)
    (u : ℕ → Fin curveOrder) : getUAV pp d b id u = pure (issuedKey pp d b id u) := by
  rw [getUAV]
  refine Run.bind_of_eq_pure (Run.upTo_eq_pure
    (fun n ↦ ((List.range n).map fun i ↦ rep ((pp.g : Zq) ^ (randMpz (u i)).toNat),
      (List.range n).map fun i ↦
        rep ((pp.beta : Zq) ^ (randMpz (u i)).toNat * (cls d i * (id : Zq) + cls b i)))) rfl ?_) _
  intro i hi
  have hf : 0 ≤ d.getD i 0 * id + b.getD i 0 :=
    add_nonneg (mul_nonneg (hd.getD i) hid) (hb.getD i)
  rw [subscript_of_lt (lt_of_lt_of_le hi hlen) 0, subscript_of_lt hi 0]
  simp only [pure_bind, fij, hq, remMpz_order_of_nonneg hf,
    powMpz_order _ (randMpz_pos (u i)).le, remMpz_rep_mul _ (rep_nonneg _), cast_rep,
    List.range_succ, List.map_append, List.map_singleton]
  push_cast
  rfl

section Mask

variable {pp : Params ECP2} {alpha : ℤ}
variable (hbeta : (pp.beta : Zq) = (pp.g : Zq) ^ alpha) (d b : List ℤ) (id : ℤ)
variable (u : ℕ → Fin curveOrder)
include hbeta

/-- An entry of the second component is the mask of the first times the value of a linear
polynomial. -/
theorem cls_c2_issuedKey {i : ℕ} (hi : i < b.length) :
    cls (issuedKey pp d b id u).c2 i =
      cls (issuedKey pp d b id u).c1 i ^ alpha * (cls d i * (id : Zq) + cls b i) := by
  rw [issuedKey, cls_map_rep _ hi, cls_map_rep _ hi, hbeta, ← zpow_natCast, ← zpow_natCast,
    ← zpow_mul, ← zpow_mul, mul_comm alpha]

/-- The products of the leading entries are related by the product of the linear polynomials. -/
theorem prod_c2_issuedKey {k : ℕ} (hk : k ≤ b.length) :
    ∏ i ∈ range k, cls (issuedKey pp d b id u).c2 i =
      (∏ i ∈ range k, cls (issuedKey pp d b id u).c1 i) ^ alpha *
        (prodLinear (cls d) (cls b) k).eval (id : Zq) := by
  rw [eval_prodLinear, ← prod_zpow, ← prod_mul_distrib]
  exact prod_congr rfl fun i hi ↦
    cls_c2_issuedKey hbeta d b id u ((mem_range.mp hi).trans_le hk)

end Mask

end Keys

/-! ## Partial signatures -/

/-- The scalars `cj` and `sj` that `Sign` multiplies up. -/
def signScalars {ECP2 : Type} (pp : Params ECP2) (uav : UAV) (t : Int32) : Exec (ℤ × ℤ) :=
  Run.upTo (count (t - 1)) (fun i (s : ℤ × ℤ) ↦ do
    let cj ← remMpz (s.1 * (← subscript uav.c1 i)) pp.q
    let sj ← remMpz (s.2 * (← subscript uav.c2 i)) pp.q
    pure (cj, sj)) (1, 1)

theorem signScalars_eq {ECP2 : Type} {pp : Params ECP2} (hq : pp.q = curveOrder) {uav : UAV}
    {t : Int32} (h₁ : count (t - 1) ≤ uav.c1.length) (h₂ : count (t - 1) ≤ uav.c2.length)
    (hc₁ : Nonneg uav.c1) (hc₂ : Nonneg uav.c2) :
    signScalars pp uav t = pure (rep (∏ i ∈ range (count (t - 1)), cls uav.c1 i),
      rep (∏ i ∈ range (count (t - 1)), cls uav.c2 i)) := by
  refine Run.upTo_eq_pure
    (fun n ↦ (rep (∏ i ∈ range n, cls uav.c1 i), rep (∏ i ∈ range n, cls uav.c2 i)))
    (by rw [range_zero, prod_empty, prod_empty, rep_one]) fun i hi ↦ ?_
  rw [hq, subscript_of_lt (lt_of_lt_of_le hi h₁) 0, subscript_of_lt (lt_of_lt_of_le hi h₂) 0,
    pure_bind, remMpz_rep_mul _ (hc₁.getD i), pure_bind, pure_bind,
    remMpz_rep_mul _ (hc₂.getD i), pure_bind, prod_range_succ, prod_range_succ]
  rfl

namespace Miracl

variable {ECP ECP2 FP12 : Type} [AddCommGroup ECP] [AddCommGroup ECP2] [CommGroup FP12]
variable [Module Zq ECP] (M : Miracl ECP ECP2 FP12)

/-- The partial signature that `Sign` returns, as classes. -/
def partialSig (uav : UAV) (t : Int32) (msg : ℤ) : ParSig ECP where
  cj := rep (∏ i ∈ range (count (t - 1)), cls uav.c1 i)
  sig := (∏ i ∈ range (count (t - 1)), cls uav.c2 i) • M.hashToPoint msg curveOrder
  ID := uav.ID

omit [Module Zq ECP] in
/-- `Sign` multiplies the point of the message by the second scalar. -/
theorem sign_eq_signScalars (pp : Params ECP2) (uav : UAV) (t : Int32) (msg : ℤ) :
    M.sign pp uav t msg = (do
      let (cj, sj) ← signScalars pp uav t
      pure { cj := cj, sig := ecpMul (M.hashToPoint msg pp.q) sj, ID := uav.ID }) := rfl

theorem sign_eq {pp : Params ECP2} (hq : pp.q = curveOrder) {uav : UAV} {t : Int32}
    (h₁ : count (t - 1) ≤ uav.c1.length) (h₂ : count (t - 1) ≤ uav.c2.length)
    (hc₁ : Nonneg uav.c1) (hc₂ : Nonneg uav.c2) (msg : ℤ) :
    M.sign pp uav t msg = pure (M.partialSig uav t msg) := by
  rw [sign_eq_signScalars, signScalars_eq hq h₁ h₂ hc₁ hc₂, pure_bind]
  simp only [hq, ecpMul_rep]
  rfl

omit [Module Zq ECP] in
/-- `Sign` reads past the end of a key that is shorter than `t - 1`. -/
theorem sign_eq_fault {pp : Params ECP2} (hq : pp.q = curveOrder) {uav : UAV} {t : Int32}
    (h : uav.c1.length < count (t - 1)) (hlen : uav.c1.length ≤ uav.c2.length) (msg : ℤ) :
    M.sign pp uav t msg = Run.fault .outOfRange := by
  rw [sign, Run.upTo_eq_fault h _ _ (1, 1), Run.fault_bind]
  · intro i hi s
    rw [hq, subscript_of_lt hi 0, subscript_of_lt (lt_of_lt_of_le hi hlen) 0]
    simp only [pure_bind, remMpz_order]
    exact ⟨_, rfl⟩
  · intro s
    rw [subscript_of_le le_rfl, Run.fault_bind]

omit [Module Zq ECP] in
/-- `collectSig` collects the partial signatures of the first `t` UAVs. -/
theorem collectSig_eq {pp : Params ECP2} {UAVs : List UAV} {t : Int32} {msg : ℤ}
    {sigs : ℕ → ParSig ECP}
    (h : ∀ i < count t, ∃ uav, UAVs[i]? = some uav ∧ M.sign pp uav t msg = pure (sigs i)) :
    M.collectSig pp UAVs t msg = pure ((List.range (count t)).map sigs) := by
  rw [collectSig]
  refine Run.upTo_push_pure sigs fun i hi acc ↦ ?_
  obtain ⟨uav, huav, hsign⟩ := h i hi
  rw [subscript_of_getElem? huav, pure_bind, hsign, pure_bind]

end Miracl

/-! ## Issued keys sign with shares of one polynomial -/

section Sharing

variable {ECP2 : Type}

/-- The coefficient vectors as functions into the field. -/
theorem cls_coefficients (tm : Int32) (c : ℕ → Fin curveOrder) {i : ℕ} (h : i < count (tm - 1)) :
    cls (coefficients tm c) i = randMpz (c i) := by
  rw [cls, coefficients, getD_map_range (fun i ↦ randMpz (c i)) 0 h]

theorem nonneg_coefficients (tm : Int32) (c : ℕ → Fin curveOrder) : Nonneg (coefficients tm c) := by
  intro x hx
  obtain ⟨i, -, rfl⟩ := List.mem_map.mp hx
  exact (randMpz_pos _).le

@[simp] theorem length_coefficients (tm : Int32) (c : ℕ → Fin curveOrder) :
    (coefficients tm c).length = count (tm - 1) := by
  rw [coefficients, List.length_map, List.length_range]

/-- The share reconstruction key issued on the draws of the coefficients. -/
def issuedUAV (pp : Params ECP2) (tm : Int32) (b d : ℕ → Fin curveOrder) (id : ℤ)
    (u : ℕ → Fin curveOrder) : UAV :=
  issuedKey pp (coefficients tm d) (coefficients tm b) id u

theorem getUAV_coefficients {pp : Params ECP2} (hq : pp.q = curveOrder) (tm : Int32)
    (b d : ℕ → Fin curveOrder) {id : ℤ} (hid : 0 ≤ id) (u : ℕ → Fin curveOrder) :
    getUAV pp (coefficients tm d) (coefficients tm b) id u = pure (issuedUAV pp tm b d id u) :=
  getUAV_eq hq (by simp) (nonneg_coefficients tm d) (nonneg_coefficients tm b) hid u

theorem length_c1_issuedUAV (pp : Params ECP2) (tm : Int32) (b d : ℕ → Fin curveOrder) (id : ℤ)
    (u : ℕ → Fin curveOrder) : (issuedUAV pp tm b d id u).c1.length = count (tm - 1) := by
  simp only [issuedUAV, issuedKey, List.length_map, List.length_range, length_coefficients]

theorem length_c2_issuedUAV (pp : Params ECP2) (tm : Int32) (b d : ℕ → Fin curveOrder) (id : ℤ)
    (u : ℕ → Fin curveOrder) : (issuedUAV pp tm b d id u).c2.length = count (tm - 1) := by
  simp only [issuedUAV, issuedKey, List.length_map, List.length_range, length_coefficients]

/-- The product of the second components is the mask of the first ones times the value at the
ID of the product of the linear polynomials. -/
theorem prod_c2_issuedUAV {pp : Params ECP2} {alpha : ℕ}
    (hbeta : (pp.beta : Zq) = (pp.g : Zq) ^ alpha) {tm : Int32} (b d : ℕ → Fin curveOrder) (id : ℤ)
    (u : ℕ → Fin curveOrder) {k : ℕ} (hk : k ≤ count (tm - 1)) :
    ∏ i ∈ range k, cls (issuedUAV pp tm b d id u).c2 i =
      (∏ i ∈ range k, cls (issuedUAV pp tm b d id u).c1 i) ^ alpha *
        (prodLinear (fun i ↦ (randMpz (d i) : Zq)) (fun i ↦ (randMpz (b i) : Zq)) k).eval
          (id : Zq) := by
  have hk' : k ≤ (coefficients tm b).length := by rwa [length_coefficients]
  have hmask : (pp.beta : Zq) = (pp.g : Zq) ^ (alpha : ℤ) := by rw [hbeta, zpow_natCast]
  rw [issuedUAV, prod_c2_issuedKey hmask _ _ id u hk', zpow_natCast, eval_prodLinear,
    eval_prodLinear]
  congr 1
  refine prod_congr rfl fun i hi ↦ ?_
  have hi : i < count (tm - 1) := (mem_range.mp hi).trans_le hk
  rw [cls_coefficients tm d hi, cls_coefficients tm b hi]

/-- The mask of an issued key is nonzero when the base is. -/
theorem prod_c1_issuedUAV_ne_zero {pp : Params ECP2} (hg : (pp.g : Zq) ≠ 0) {tm : Int32}
    (b d : ℕ → Fin curveOrder) (id : ℤ) (u : ℕ → Fin curveOrder) {k : ℕ}
    (hk : k ≤ count (tm - 1)) : ∏ i ∈ range k, cls (issuedUAV pp tm b d id u).c1 i ≠ 0 := by
  refine prod_ne_zero_iff.mpr fun i hi ↦ ?_
  have hi' : i < (coefficients tm b).length := by
    rw [length_coefficients]
    exact (mem_range.mp hi).trans_le hk
  rw [issuedUAV, issuedKey, cls_map_rep _ hi']
  exact pow_ne_zero _ hg

end Sharing

end Fussion
