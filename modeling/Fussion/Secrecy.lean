import Fussion.Pipeline

/-!
# What a coalition learns

`getUAV` hands every UAV the values of all `tm - 1` linear polynomials at its ID.  The signing
secret of the threshold `t` is the product of the constant terms of the first `t - 1` of them,
so a coalition of `t - 1` UAVs ought not to know it.

Since every factor is linear, two of its values determine it, and the coalition sees all factors
separately: `threshold_secrecy_iff` says that the secret is hidden from `t - 1` UAVs exactly
when `t = 2`.
-/

namespace Fussion

open Finset

/-- Every class is drawn. -/
theorem exists_cast_randMpz (x : Zq) : ∃ r, (randMpz r : Zq) = x := by
  by_cases hx : x = 0
  · obtain ⟨r, hr⟩ := exists_eq_randMpz (a := curveOrder)
      (by exact_mod_cast one_lt_curveOrder.le) le_rfl
    refine ⟨r, ?_⟩
    rw [← hr, hx, Int.cast_natCast, ZMod.natCast_self]
  · obtain ⟨r, hr⟩ := exists_eq_randMpz (rep_pos hx) (rep_lt x).le
    exact ⟨r, by rw [← hr, cast_rep]⟩

/-- The plaintext of `getUAV` is the value of the linear polynomial. -/
theorem fij_eq (d b id : Fin curveOrder) :
    fij curveOrder (randMpz d) (randMpz b) (randMpz id) =
      pure (rep ((randMpz d : Zq) * (randMpz id : Zq) + (randMpz b : Zq))) := by
  have hnonneg : 0 ≤ randMpz d * randMpz id + randMpz b :=
    add_nonneg (mul_nonneg (randMpz_pos d).le (randMpz_pos id).le) (randMpz_pos b).le
  rw [fij, remMpz_order_of_nonneg hnonneg]
  push_cast
  rfl

/-- Two pairs of coefficient vectors give a UAV the same plaintexts, which is all that its key
contains once it is decrypted (`cls_c2_issuedKey`). -/
def SameView (tm : Int32) (b d b' d' : ℕ → Fin curveOrder) (id : Fin curveOrder) : Prop :=
  ∀ i < count (tm - 1), fij curveOrder (randMpz (d' i)) (randMpz (b' i)) (randMpz id) =
    fij curveOrder (randMpz (d i)) (randMpz (b i)) (randMpz id)

/-- The secret behind `PK[t - 2]`. -/
def secret (t : Int32) (b : ℕ → Fin curveOrder) : Zq :=
  ∏ i ∈ range (count (t - 1)), (randMpz (b i) : Zq)

theorem sameView_iff {tm : Int32} {b d b' d' : ℕ → Fin curveOrder} {id : Fin curveOrder} :
    SameView tm b d b' d' id ↔ ∀ i < count (tm - 1),
      (randMpz (d' i) : Zq) * (randMpz id : Zq) + (randMpz (b' i) : Zq) =
        (randMpz (d i) : Zq) * (randMpz id : Zq) + (randMpz (b i) : Zq) := by
  refine forall₂_congr fun i _ ↦ ?_
  rw [fij_eq, fij_eq, Run.pure_inj, rep_injective.eq_iff]

/-- Two UAVs with different IDs know every coefficient, hence every secret. -/
theorem secret_eq_of_sameView {tm t : Int32} (ht : 1 ≤ t.toInt) (htm : t.toInt ≤ tm.toInt)
    {b d b' d' : ℕ → Fin curveOrder} {id₀ id₁ : Fin curveOrder}
    (hne : (randMpz id₀ : Zq) ≠ (randMpz id₁ : Zq)) (h₀ : SameView tm b d b' d' id₀)
    (h₁ : SameView tm b d b' d' id₁) : secret t b' = secret t b := by
  refine prod_congr rfl fun i hi ↦ ?_
  have hi : i < count (tm - 1) := (mem_range.mp hi).trans_le (count_sub_one_mono ht htm)
  exact (eq_of_linear_eq hne (sameView_iff.mp h₀ i hi) (sameView_iff.mp h₁ i hi)).2

/-- One UAV does not know the first constant term. -/
theorem exists_sameView_ne (tm : Int32) (b d : ℕ → Fin curveOrder) {id : Fin curveOrder}
    (hid : (randMpz id : Zq) ≠ 0) :
    ∃ b' d', SameView tm b d b' d' id ∧ (randMpz (b' 0) : Zq) ≠ (randMpz (b 0) : Zq) := by
  obtain ⟨b₀, hb₀⟩ := exists_cast_randMpz ((randMpz (b 0) : Zq) + 1)
  obtain ⟨d₀, hd₀⟩ := exists_cast_randMpz ((randMpz (d 0) : Zq) - (randMpz id : Zq)⁻¹)
  refine ⟨Function.update b 0 b₀, Function.update d 0 d₀, sameView_iff.mpr fun i _ ↦ ?_, ?_⟩
  · by_cases hi : i = 0
    · subst hi
      rw [Function.update_self, Function.update_self, hb₀, hd₀, sub_mul, inv_mul_cancel₀ hid]
      ring
    · rw [Function.update_of_ne hi, Function.update_of_ne hi]
  · rw [Function.update_self, hb₀]
    exact fun h ↦ one_ne_zero (left_eq_add.mp h.symm)

/-- **When the threshold holds.**  Whatever the coefficients are, `t - 1` UAVs cannot tell the
secret of the threshold `t` from another one: this is so exactly for `t = 2`. -/
theorem threshold_secrecy_iff (tm t : Int32) (ht : 2 ≤ t.toInt) (htm : t.toInt ≤ tm.toInt)
    (ID : ℕ → Fin curveOrder) (hID : ∀ j < count (t - 1), ¬ (curveOrder : ℤ) ∣ randMpz (ID j))
    (hdistinct : ∀ j < count (t - 1), ∀ k < count (t - 1), j ≠ k →
      ¬ (curveOrder : ℤ) ∣ randMpz (ID j) - randMpz (ID k)) :
    (∀ b d : ℕ → Fin curveOrder, ∃ b' d' : ℕ → Fin curveOrder,
      (∀ j < count (t - 1), SameView tm b d b' d' (ID j)) ∧ secret t b' ≠ secret t b) ↔
      t.toInt = 2 := by
  have hcount : (count (t - 1) : ℤ) = t.toInt - 1 := cast_count_sub_one (by omega)
  constructor
  · intro h
    by_contra hne
    obtain ⟨b', d', hview, hsecret⟩ := h 0 0
    have h₁₀ : (randMpz (ID 1) : Zq) ≠ (randMpz (ID 0) : Zq) := by
      rw [← sub_ne_zero, ← Int.cast_sub]
      exact cast_ne_zero_iff.mpr (hdistinct 1 (by omega) 0 (by omega) one_ne_zero)
    exact hsecret (secret_eq_of_sameView (by omega) htm h₁₀ (hview 1 (by omega))
      (hview 0 (by omega)))
  · intro ht₂ b d
    have hone : count (t - 1) = 1 := by omega
    obtain ⟨b', d', hview, hne⟩ := exists_sameView_ne tm b d
      (cast_ne_zero_iff.mpr (hID 0 (by omega)))
    refine ⟨b', d', fun j hj ↦ ?_, ?_⟩
    · obtain rfl : j = 0 := by omega
      exact hview
    · rw [secret, secret, hone, prod_range_one, prod_range_one]
      exact hne

/-- `threshold_secrecy_iff` on the threshold `2` and a UAV with the ID `1`. -/
theorem threshold_secrecy_two :
    (∀ b d : ℕ → Fin curveOrder, ∃ b' d' : ℕ → Fin curveOrder,
      (∀ j < count (2 - 1), SameView 2 b d b' d' 0) ∧ secret 2 b' ≠ secret 2 b) ↔
      (2 : Int32).toInt = 2 := by
  refine threshold_secrecy_iff 2 2 (by decide) (by decide) (fun _ ↦ 0) ?_ ?_
  · intro j hj
    rw [randMpz_zero]
    exact cast_ne_zero_iff.mp (by simp)
  · intro j hj k hk hjk
    have hcount : count (2 - 1) = 1 := rfl
    omega

/-- Two UAVs with the IDs `1` and `2` know the secret of the threshold `3`. -/
theorem threshold_three_broken :
    let ID : ℕ → Fin curveOrder := fun j ↦ ⟨j % 2, mod_two_lt_order j⟩
    (∀ j < count (3 - 1), ¬ (curveOrder : ℤ) ∣ randMpz (ID j)) ∧
      (∀ j < count (3 - 1), ∀ k < count (3 - 1), j ≠ k →
        ¬ (curveOrder : ℤ) ∣ randMpz (ID j) - randMpz (ID k)) ∧
      ¬ ∀ b d : ℕ → Fin curveOrder, ∃ b' d' : ℕ → Fin curveOrder,
        (∀ j < count (3 - 1), SameView 3 b d b' d' (ID j)) ∧ secret 3 b' ≠ secret 3 b := by
  intro ID
  have hlt := lt_curveOrder
  have hcount : count (3 - 1) = 2 := rfl
  have hdistinct : ∀ j < count (3 - 1), ∀ k < count (3 - 1), j ≠ k →
      ¬ (curveOrder : ℤ) ∣ randMpz (ID j) - randMpz (ID k) := by
    intro j hj k hk hjk
    simp only [ID, randMpz]
    exact not_order_dvd (by omega) (abs_lt.mpr (by omega))
  refine ⟨fun j hj ↦ ?_, hdistinct, fun h ↦ ?_⟩
  · simp only [ID, randMpz]
    exact not_order_dvd (by omega) (abs_lt.mpr (by omega))
  · obtain ⟨b', d', hview, hsecret⟩ := h 0 0
    have hne : (randMpz (ID 1) : Zq) ≠ (randMpz (ID 0) : Zq) := by
      rw [← sub_ne_zero, ← Int.cast_sub]
      exact cast_ne_zero_iff.mpr (hdistinct 1 (by decide) 0 (by decide) one_ne_zero)
    exact hsecret (secret_eq_of_sameView (t := 3) (by decide) le_rfl hne (hview 1 (by decide))
      (hview 0 (by decide)))

end Fussion
