import Fussion.Exponents
import Fussion.Shares

/-!
# One polynomial for every threshold

`getUAV` runs over the whole coefficient vector, `Sign` over its first `t - 1` entries, and `getPK`
accumulates its points in a `do … while` loop.  For a threshold `t` all three belong to one
polynomial, the product of the first `t - 1` linear ones: the scalar of `Sign` is its masked value
at the ID, and the entry `t - 2` of the public key is its value at zero.

The coefficients are arbitrary vectors here, as `initParams` draws them, and `alpha` is any integer
for which the parameters are consistent.
-/

namespace Fussion

open Finset

namespace Miracl

variable {ECP ECP2 FP12 : Type} [AddCommGroup ECP] [AddCommGroup ECP2] [CommGroup FP12]
variable [Module Zq ECP2]

/-- **Issuing, signing and the public key agree at every threshold.**  With `F` the product of the
first `t - 1` linear polynomials, an issued key signs with the value of `F` at its ID, masked by
`cj ^ alpha`, and the public key for `t` is the value of `F` at zero. -/
theorem sign_issued_share (M : Miracl ECP ECP2 FP12) (pp : Params ECP2) (hq : pp.q = curveOrder)
    (alpha : ℤ) (hbeta : (pp.beta : Zq) = (pp.g : Zq) ^ alpha) (tm : Int32) (b d : List ℤ)
    (hblen : (b.length : ℤ) = tm.toInt - 1) (hdlen : (d.length : ℤ) = tm.toInt - 1)
    (hb : ∀ x ∈ b, 1 ≤ x ∧ x ≤ curveOrder) (hd : ∀ x ∈ d, 1 ≤ x ∧ x ≤ curveOrder) (id : ℤ)
    (hid : 0 ≤ id) (u : ℕ → Fin curveOrder) (t : Int32) (ht : 2 ≤ t.toInt)
    (htm : t.toInt ≤ tm.toInt) (msg : ℤ) :
    let F := prodLinear (cls d) (cls b) (count (t - 1))
    (∃ uav cj sj, (getUAV pp d b id u).out = .ok uav ∧
      (signScalars pp uav t).out = .ok (cj, sj) ∧
      (M.sign pp uav t msg).out =
        .ok { cj := cj, sig := sj.toNat • M.hashToPoint msg pp.q, ID := id } ∧
      0 ≤ sj ∧ sj < curveOrder ∧ (sj : Zq) = (cj : Zq) ^ alpha * F.eval (id : Zq)) ∧
    ∃ PK, (M.getPK b).out = .ok PK ∧ (PK.length : ℤ) = tm.toInt - 1 ∧
      PK[count (t - 2)]? = some (F.eval 0 • M.generator2) := by
  intro F
  have hcount : (count (t - 1) : ℤ) = t.toInt - 1 := cast_count_sub_one (by omega)
  have hk : count (t - 1) ≤ b.length := by omega
  have hbnonneg : Nonneg b := fun x hx ↦ (hb x hx).1.trans' zero_le_one
  have hdnonneg : Nonneg d := fun x hx ↦ (hd x hx).1.trans' zero_le_one
  constructor
  · have hlen₁ : count (t - 1) ≤ (issuedKey pp d b id u).c1.length := by simpa [issuedKey] using hk
    have hlen₂ : count (t - 1) ≤ (issuedKey pp d b id u).c2.length := by simpa [issuedKey] using hk
    have hscalars := signScalars_eq hq hlen₁ hlen₂ (nonneg_map_rep _ _) (nonneg_map_rep _ _)
    refine ⟨issuedKey pp d b id u, _, _, ?_, congrArg Run.out hscalars, ?_, rep_nonneg _,
      rep_lt _, ?_⟩
    · rw [getUAV_eq hq (by omega) hdnonneg hbnonneg hid, Run.out_pure]
    · rw [sign_eq_signScalars, hscalars, pure_bind]
      simp only [Run.out_pure, ecpMul_rep_eq_nsmul]
      rfl
    · rw [cast_rep, cast_rep, prod_c2_issuedKey hbeta d b id u hk]
  · have hindex : count (t - 2) + 1 = count (t - 1) := by
      have := toInt_sub_two ht
      have := cast_count (t := t - 2) (by omega)
      omega
    have hne : b ≠ [] := by
      rintro rfl
      simp only [List.length_nil] at hk
      omega
    refine ⟨_, congrArg Run.out (M.getPK_eq hne fun x hx ↦ ⟨hbnonneg x hx, (hb x hx).2⟩), ?_, ?_⟩
    · rw [List.length_map, List.length_range, hblen]
    · rw [List.getElem?_map, List.getElem?_range (by omega), Option.map_some, hindex,
        eval_prodLinear]
      simp only [mul_zero, zero_add]

end Miracl

/-- `sign_issued_share` at the threshold `2` of `3`. -/
theorem sign_issued_share_exponents :
    let pp : Params Zq :=
      { n := 3, tm := 3, q := curveOrder, P2 := 1, g := 2, beta := 8, PK := [] }
    let F := prodLinear (cls [4, 5]) (cls [6, 7]) (count (2 - 1))
    (∃ uav cj sj, (getUAV pp [4, 5] [6, 7] 9 fun _ ↦ 0).out = .ok uav ∧
      (signScalars pp uav 2).out = .ok (cj, sj) ∧
      (exponents.sign pp uav 2 1).out =
        .ok { cj := cj, sig := sj.toNat • exponents.hashToPoint 1 pp.q, ID := 9 } ∧
      0 ≤ sj ∧ sj < curveOrder ∧ (sj : Zq) = (cj : Zq) ^ (3 : ℤ) * F.eval ((9 : ℤ) : Zq)) ∧
    ∃ PK, (exponents.getPK [6, 7]).out = .ok PK ∧ (PK.length : ℤ) = (3 : Int32).toInt - 1 ∧
      PK[count (2 - 2)]? = some (F.eval 0 • exponents.generator2) := by
  intro pp
  have hlt := lt_curveOrder
  refine exponents.sign_issued_share pp rfl 3 ?_ 3 [6, 7] [4, 5] (by decide) (by decide) ?_ ?_ 9
    (by norm_num) (fun _ ↦ 0) 2 (by decide) (by decide) 1
  · rw [zpow_ofNat]
    norm_num [pp]
  · simp only [List.mem_cons, List.not_mem_nil, or_false]
    omega
  · simp only [List.mem_cons, List.not_mem_nil, or_false]
    omega

end Fussion
