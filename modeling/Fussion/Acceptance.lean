import Fussion.Secrecy
import Fussion.Tamper
import Fussion.Transfer
import Mathlib.Data.Nat.Prime.Factorial

/-!
# What is accepted

`Verify` accumulates a point and compares two pairings.  With a nondegenerate pairing and the
public key of the TA this accepts exactly one point for a message and a threshold, the secret of
the threshold times the point of the message (`accepts_iff_accumulated`).  Everything else follows
from where that point comes from.

The pipeline reaches it except on draws that vanish modulo the order (`fussion_accepts_iff`).
Whoever has it can write it into a `Sigma` that every verifier accepts (`forge`): a verifier that
has accepted one signature (`accepted_forges`), and two UAVs together with the cluster head, at
every threshold (`two_uavs_sign`).
-/

namespace Fussion

open Finset

namespace Miracl

variable {ECP ECP2 FP12 : Type} [AddCommGroup ECP] [AddCommGroup ECP2] [CommGroup FP12]
variable (M : Miracl ECP ECP2 FP12)

/-! ## The accumulated point -/

/-- `Verify` up to the pairings. -/
def accumulated (sigma : Sigma ECP) (sk_v : ℤ) (pp : Params ECP2) (t : Int32) : Exec ECP := do
  let Pis ← getPi0 pp sigma.IDs t
  let hash ← M.verifyHash pp sk_v
  let k ← verifyCoeffs pp sigma Pis hash t
  accumulate sigma k t

theorem accepts_iff_pair [DecidableEq FP12] {sigma : Sigma ECP} {sk_v : ℤ} {pp : Params ECP2}
    {msg : ℤ} {t : Int32} :
    (M.verify sigma sk_v pp msg t).out = .ok 1 ↔
      ∃ S K, (M.accumulated sigma sk_v pp t).out = .ok S ∧
        (subscript pp.PK (t - 2).toInt).out = .ok K ∧
        M.e S pp.P2 = M.e (M.hashToPoint msg pp.q) K := by
  rw [verify_accepts_iff]
  constructor
  · rintro ⟨Pis, h, k, S, K, hPis, hh, hk, hS, hK, hpair⟩
    exact ⟨S, K, Run.out_bind_eq_ok.mpr ⟨Pis, hPis, Run.out_bind_eq_ok.mpr ⟨h, hh,
      Run.out_bind_eq_ok.mpr ⟨k, hk, hS⟩⟩⟩, hK, hpair⟩
  · rintro ⟨S, K, hS, hK, hpair⟩
    obtain ⟨Pis, hPis, hS⟩ := Run.out_bind_eq_ok.mp hS
    obtain ⟨h, hh, hS⟩ := Run.out_bind_eq_ok.mp hS
    obtain ⟨k, hk, hS⟩ := Run.out_bind_eq_ok.mp hS
    exact ⟨Pis, h, k, S, K, hPis, hh, hk, hS, hK, hpair⟩

/-- The entry of the TA's public key for a threshold. -/
theorem subscript_issuedParams [Module Zq ECP2] (n : Int32) {tm t : Int32} (ht : 2 ≤ t.toInt)
    (htm : t.toInt ≤ tm.toInt) (g alpha : Fin curveOrder) (b : ℕ → Fin curveOrder) :
    subscript (M.issuedParams n tm g alpha b).PK (t - 2).toInt =
      pure (secret t b • M.generator2) := by
  rw [toInt_sub_two_eq_count ht]
  exact subscript_of_getElem? (M.publicKey_getElem? ht htm b)

section Pipeline

variable [Module Zq ECP] [Module Zq ECP2]

omit [Module Zq ECP2] in
/-- The point of a message is infinity only when its hash vanishes. -/
theorem hashToPoint_eq_zero_iff (hgen : M.generator ≠ 0) (msg : ℤ) :
    M.hashToPoint msg curveOrder = 0 ↔ (curveOrder : ℤ) ∣ M.hashToZp256 msg curveOrder := by
  rw [M.hashToPoint_eq, smul_eq_zero, or_iff_left hgen, ZMod.intCast_zmod_eq_zero_iff_dvd]

omit [AddCommGroup ECP2] [Module Zq ECP2] in
/-- The accumulated point when the base vanishes: `AggSig` has multiplied every point by zero. -/
theorem combined_reencrypt_of_zero {pp : Params ECP2} (hbeta : (pp.beta : Zq) = 0) (rk : ℕ)
    (e : Fin curveOrder) (parSigs : List (ParSig ECP)) (h : ℕ) (t : Int32) :
    combined (reencrypt pp rk e parSigs) h t = 0 := by
  have he := toNat_randMpz_ne_zero e
  have hsig : ∀ i, (reencrypt pp rk e parSigs).sig.getD i 0 = 0 := by
    intro i
    rw [reencrypt, List.getD_eq_getElem?_getD, List.getElem?_map]
    cases parSigs[i]? with
    | none => rfl
    | some p => simp only [hbeta, zero_pow he, zero_smul, Option.map_some, Option.getD_some]
  exact sum_eq_zero fun i _ ↦ by rw [hsig, smul_zero]

omit [AddCommGroup ECP2] [Module Zq ECP2] in
/-- The accumulated point depends neither on the verifier, whose key gives `rk` and `h`, nor on the
draw `e`. -/
theorem combined_reencrypt_eq {pp : Params ECP2} {alpha : ℕ} (halpha : alpha ≠ 0)
    (hbeta : (pp.beta : Zq) = (pp.g : Zq) ^ alpha) {parSigs : List (ParSig ECP)}
    (hcj : (pp.g : Zq) ≠ 0 → ∀ p ∈ parSigs, (p.cj : Zq) ≠ 0) {rk h rk' h' : ℕ}
    (hrk : rk * h ≡ alpha [MOD curveOrder - 1]) (hrk' : rk' * h' ≡ alpha [MOD curveOrder - 1])
    (e e' : Fin curveOrder) (t : Int32) :
    combined (reencrypt pp rk e parSigs) h t = combined (reencrypt pp rk' e' parSigs) h' t := by
  by_cases hg : (pp.g : Zq) = 0
  · have hzero : (pp.beta : Zq) = 0 := by rw [hbeta, hg, zero_pow halpha]
    rw [combined_reencrypt_of_zero hzero, combined_reencrypt_of_zero hzero]
  · refine sum_congr rfl fun i _ ↦ ?_
    have hIDs : (reencrypt pp rk e parSigs).IDs = (reencrypt pp rk' e' parSigs).IDs := rfl
    rw [mul_smul, mul_smul, hIDs]
    congr 1
    simp only [reencrypt, cls, List.getD_eq_getElem?_getD, List.getElem?_map]
    cases hi : parSigs[i]? with
    | none => simp only [Option.map_none, Option.getD_none, smul_zero]
    | some p =>
        have hp := hcj hg p (List.mem_of_getElem? hi)
        simp only [Option.map_some, Option.getD_some, cast_rep]
        rw [decrypt_reencrypt hbeta hrk hg hp, decrypt_reencrypt hbeta hrk' hg hp]

omit [Module Zq ECP2] in
/-- The masks of issued keys vanish only together with the base. -/
theorem cj_issuedSigs_ne_zero {pp : Params ECP2} (hg : (pp.g : Zq) ≠ 0) (r : KeyDraws) {t : Int32}
    (ht : 1 ≤ t.toInt) (htm : t.toInt ≤ pp.tm.toInt) (msg : ℤ) :
    ∀ p ∈ M.issuedSigs pp r t msg, (p.cj : Zq) ≠ 0 := by
  intro p hp
  obtain ⟨i, -, rfl⟩ := List.mem_map.mp hp
  rw [partialSig, cast_rep]
  exact prod_c1_issuedUAV_ne_zero hg _ _ _ _ (count_sub_one_mono ht htm)

/-- The verdict of the pipeline depends neither on the verifier nor on the draw `e`. -/
theorem out_fussion_congr [DecidableEq FP12] {n tm t : Int32} (ht : 2 ≤ t.toInt)
    (htm : t.toInt ≤ tm.toInt) (hn : t.toInt ≤ n.toInt) (msg : ℤ) {r r' : Draws}
    (hg : r'.g = r.g) (halpha : r'.alpha = r.alpha) (hkey : r'.key = r.key)
    (hterm : ∃ h, (M.verifyHash (M.issuedParams n tm r.g r.alpha r.key.b)
      (randMpz r.sk_v)).out = .ok h)
    (hterm' : ∃ h, (M.verifyHash (M.issuedParams n tm r.g r.alpha r.key.b)
      (randMpz r'.sk_v)).out = .ok h) :
    (M.fussion n tm t msg r').out = (M.fussion n tm t msg r).out := by
  obtain ⟨_, hok⟩ := hterm
  obtain ⟨_, hok'⟩ := hterm'
  set pp := M.issuedParams n tm r.g r.alpha r.key.b with hpp
  have hpp' : pp = M.issuedParams n tm r'.g r'.alpha r'.key.b := by rw [hpp, hg, halpha, hkey]
  obtain ⟨h, -, hh, hgcd⟩ := M.sharedHash_of_ok rfl (randMpz_pos _).le hok
  obtain ⟨h', -, hh', hgcd'⟩ := M.sharedHash_of_ok rfl (randMpz_pos _).le hok'
  obtain ⟨rk, hrk, -, heq⟩ := M.fussion_eq ht htm hn msg r hpp hh hgcd
  obtain ⟨rk', hrk', -, heq'⟩ := M.fussion_eq ht htm hn msg r' hpp' hh' hgcd'
  rw [halpha] at hrk'
  have hbeta : (pp.beta : Zq) = (pp.g : Zq) ^ (randMpz r.alpha).toNat := cast_rep _
  have hsame : combined (reencrypt pp rk' r'.e (M.issuedSigs pp r.key t msg)) h' t =
      combined (reencrypt pp rk r.e (M.issuedSigs pp r.key t msg)) h t :=
    combined_reencrypt_eq (toNat_randMpz_ne_zero r.alpha) hbeta
      (fun hg ↦ M.cj_issuedSigs_ne_zero hg r.key (by omega) htm msg) hrk' hrk r'.e r.e t
  rw [heq, heq', Run.out_ret, Run.out_ret, hkey, hsame]

omit [Module Zq ECP2] in
/-- On issued keys the accumulated point is infinity when the base or an ID vanishes. -/
theorem combined_issued_of_zero {pp : Params ECP2} {alpha : ℕ} (halpha : alpha ≠ 0)
    (hbeta : (pp.beta : Zq) = (pp.g : Zq) ^ alpha) (r : KeyDraws) {t : Int32}
    (hzero : (pp.g : Zq) = 0 ∨ ∃ i < count t, (randMpz (r.ID i) : Zq) = 0) (rk h : ℕ)
    (e : Fin curveOrder) (msg : ℤ) :
    combined (reencrypt pp rk e (M.issuedSigs pp r t msg)) h t = 0 := by
  rcases hzero with hg | ⟨i, hi, hID⟩
  · exact combined_reencrypt_of_zero (by rw [hbeta, hg, zero_pow halpha]) _ _ _ _ _
  · have hcls := (M.reencrypt_issuedSigs pp r rk e msg hi).1.trans hID
    exact sum_eq_zero fun j _ ↦ by rw [coeffZero_eq_zero hi hcls, zero_mul, zero_smul]

/-- The verdict of the pipeline compares the accumulated point with the signature. -/
theorem fussion_accepts_iff_combined [DecidableEq FP12]
    (hnondeg : ∀ P, (∀ Q, M.e P Q = 1) → P = 0) (hgen : ∀ Q, ∃ c : Zq, Q = c • M.generator2)
    {n tm t : Int32} (ht : 2 ≤ t.toInt) (htm : t.toInt ≤ tm.toInt) (hn : t.toInt ≤ n.toInt)
    (msg : ℤ) (r : Draws)
    (hterm : ∃ h, (M.verifyHash (M.issuedParams n tm r.g r.alpha r.key.b)
      (randMpz r.sk_v)).out = .ok h) :
    let pp := M.issuedParams n tm r.g r.alpha r.key.b
    ∃ rk h : ℕ, rk * h ≡ (randMpz r.alpha).toNat [MOD curveOrder - 1] ∧
      ((M.fussion n tm t msg r).out = .ok 1 ∨ (M.fussion n tm t msg r).out = .ok 0) ∧
      ((M.fussion n tm t msg r).out = .ok 1 ↔
        combined (reencrypt pp rk r.e (M.issuedSigs pp r.key t msg)) h t =
          secret t r.key.b • M.hashToPoint msg curveOrder) := by
  intro pp
  obtain ⟨_, hok⟩ := hterm
  obtain ⟨h, -, hh, hgcd⟩ := M.sharedHash_of_ok rfl (randMpz_pos _).le hok
  obtain ⟨rk, hrk, -, heq⟩ := M.fussion_eq ht htm hn msg r rfl hh hgcd
  refine ⟨rk, h, hrk, ?_, ?_⟩
  · rw [heq, Run.out_ret]
    split_ifs
    · exact .inl rfl
    · exact .inr rfl
  · rw [heq, Run.out_ret, ← M.e_smul_comm, Outcome.ok.injEq, ite_eq_left_iff]
    simp only [zero_ne_one, imp_false, not_not]
    exact (M.e_left_injective hnondeg hgen).eq_iff

omit [AddCommGroup ECP] [AddCommGroup ECP2] [CommGroup FP12] [Module Zq ECP] [Module Zq ECP2] in
theorem secret_eq_zero_iff {t : Int32} {b : ℕ → Fin curveOrder} :
    secret t b = 0 ↔ ∃ j < count (t - 1), randMpz (b j) = curveOrder := by
  rw [secret, prod_eq_zero_iff]
  simp only [mem_range, cast_randMpz_eq_zero_iff]

omit [AddCommGroup ECP] [AddCommGroup ECP2] [CommGroup FP12] [Module Zq ECP] [Module Zq ECP2] in
/-- Draws that differ differ modulo the order. -/
theorem injOn_cast_randMpz {ID : ℕ → Fin curveOrder} {k : ℕ}
    (h : ∀ i < k, ∀ j < k, i ≠ j → randMpz (ID i) ≠ randMpz (ID j)) :
    Set.InjOn (fun i ↦ (randMpz (ID i) : Zq)) (range k) := by
  intro i hi j hj hij
  by_contra hne
  exact h i (mem_range.mp hi) j (mem_range.mp hj) hne
    (congrArg randMpz (cast_randMpz_injective hij))

omit [Module Zq ECP2] in
/-- The accumulated point is the signature unless the base or an ID vanishes; if one of them does,
only when both are infinity. -/
theorem combined_issued_eq_iff (hgen : M.generator ≠ 0) {pp : Params ECP2} {alpha : ℕ}
    (halpha : alpha ≠ 0) (hbeta : (pp.beta : Zq) = (pp.g : Zq) ^ alpha) (r : KeyDraws) {t : Int32}
    (ht : 1 ≤ t.toInt) (htm : t.toInt ≤ pp.tm.toInt)
    (hdistinct : ∀ i < count t, ∀ j < count t, i ≠ j → randMpz (r.ID i) ≠ randMpz (r.ID j))
    {rk h : ℕ} (hrk : rk * h ≡ alpha [MOD curveOrder - 1]) (e : Fin curveOrder) (msg : ℤ) :
    combined (reencrypt pp rk e (M.issuedSigs pp r t msg)) h t =
      secret t r.b • M.hashToPoint msg curveOrder ↔
    ((pp.g : Zq) ≠ 0 ∧ ∀ i < count t, randMpz (r.ID i) ≠ curveOrder) ∨
      (∃ j < count (t - 1), randMpz (r.b j) = curveOrder) ∨
      (curveOrder : ℤ) ∣ M.hashToZp256 msg curveOrder := by
  by_cases hgood : (pp.g : Zq) ≠ 0 ∧ ∀ i < count t, randMpz (r.ID i) ≠ curveOrder
  · have hID : ∀ i < count t, (randMpz (r.ID i) : Zq) ≠ 0 := fun i hi ↦
      (cast_randMpz_eq_zero_iff _).not.mpr (hgood.2 i hi)
    exact iff_of_true (M.combined_issued hbeta hgood.1 r ht htm hID (injOn_cast_randMpz hdistinct)
      hrk e msg) (.inl hgood)
  · have hzero : (pp.g : Zq) = 0 ∨ ∃ i < count t, (randMpz (r.ID i) : Zq) = 0 := by
      rw [not_and_or, not_not] at hgood
      refine hgood.imp id fun hID ↦ ?_
      push Not at hID
      obtain ⟨i, hi, hID⟩ := hID
      exact ⟨i, hi, (cast_randMpz_eq_zero_iff _).mpr hID⟩
    rw [M.combined_issued_of_zero halpha hbeta r hzero, or_iff_right hgood, eq_comm, smul_eq_zero,
      secret_eq_zero_iff, M.hashToPoint_eq_zero_iff hgen]

/-- **Exactly which draws are accepted.**  For UAVs with different IDs the whole pipeline ends with
a verdict.  It is `1` when neither the base nor an ID of the first `t` UAVs is the order, which
`rand_mpz` can return.  Otherwise the accumulated point is infinity, and the verdict is `1` only
when so is the signature: some coefficient `b` is the order, or the hash of the message
vanishes. -/
theorem fussion_accepts_iff [DecidableEq FP12] (hnondeg : ∀ P, (∀ Q, M.e P Q = 1) → P = 0)
    (hgen₁ : M.generator ≠ 0) (hgen₂ : ∀ Q, ∃ c : Zq, Q = c • M.generator2) (n tm t : Int32)
    (ht : 2 ≤ t.toInt) (htm : t.toInt ≤ tm.toInt) (hn : t.toInt ≤ n.toInt) (msg : ℤ) (r : Draws)
    (hdistinct : ∀ i < count t, ∀ j < count t, i ≠ j →
      randMpz (r.key.ID i) ≠ randMpz (r.key.ID j))
    {x : ℤ} (hx : sharedValue r = pure x)
    (hterm : ∃ h, (M.hashToCoprime x (curveOrder - 1) getFactors).out = .ok h) :
    ((M.fussion n tm t msg r).out = .ok 1 ∨ (M.fussion n tm t msg r).out = .ok 0) ∧
    ((M.fussion n tm t msg r).out = .ok 1 ↔
      (randMpz r.g ≠ curveOrder ∧ ∀ i < count t, randMpz (r.key.ID i) ≠ curveOrder) ∨
      (∃ j < count (t - 1), randMpz (r.key.b j) = curveOrder) ∨
      (curveOrder : ℤ) ∣ M.hashToZp256 msg curveOrder) := by
  rw [← verifyHash_issuedParams M n tm r hx] at hterm
  obtain ⟨rk, h, hrk, hverdict, haccepts⟩ :=
    M.fussion_accepts_iff_combined hnondeg hgen₂ ht htm hn msg r hterm
  have hg : (randMpz r.g : Zq) ≠ 0 ↔ randMpz r.g ≠ curveOrder :=
    (cast_randMpz_eq_zero_iff r.g).not
  rw [← hg]
  exact ⟨hverdict, haccepts.trans (M.combined_issued_eq_iff hgen₁ (toNat_randMpz_ne_zero r.alpha)
    (cast_rep _) r.key (by omega) htm hdistinct hrk r.e msg)⟩

end Pipeline

end Miracl

/-- The hashes of `exponents` end. -/
theorem exists_sharedHash_exponents {pp : Params Zq} (hq : pp.q = curveOrder) (base : ℤ) {exp : ℤ}
    (hexp : 0 ≤ exp) : ∃ h, (exponents.sharedHash pp base exp).out = .ok h := by
  rw [exponents.sharedHash_eq hq base hexp]
  exact exists_hashToCoprime_exponents _

theorem order_sub_one_lt : curveOrder - 1 < curveOrder :=
  Nat.sub_lt prime_curveOrder.pos one_pos

/-- `fussion_accepts_iff` on two UAVs, of which the first has drawn the order as its ID. -/
theorem fussion_accepts_iff_exponents :
    let r := unitDraws fun i ↦ if i = 0 then ⟨curveOrder - 1, order_sub_one_lt⟩ else 0
    (exponents.fussion 2 2 2 123456789 r).out = .ok 0 := by
  intro r
  have hlt := lt_curveOrder
  have hID : randMpz (r.key.ID 0) = curveOrder := randMpz_last _
  have hID₁ : randMpz (r.key.ID 1) = 1 := rfl
  obtain ⟨hverdict, hiff⟩ := exponents.fussion_accepts_iff exponents_nondegenerate one_ne_zero
    (fun Q ↦ ⟨Q, (mul_one Q).symm⟩) 2 2 2 (by decide) (by decide) (by decide) 123456789 r
    (forall_ne_count_two (by omega) (by omega)) (sharedValue_unitDraws _)
    (exists_hashToCoprime_exponents 1)
  refine hverdict.resolve_left fun hone ↦ ?_
  rcases hiff.mp hone with ⟨-, hgood⟩ | ⟨j, -, hb⟩ | hdvd
  · exact hgood 0 (by decide) hID
  · have hb : (1 : ℤ) = curveOrder := hb
    omega
  · rw [hashToZp256_exponents_order] at hdvd
    have := Int.le_of_dvd (by norm_num) hdvd
    omega

/-! ## Forging -/

/-- A signature with the IDs `1, …, t` whose points are all infinity but the first. -/
def forge {ECP : Type} [AddCommGroup ECP] (t : Int32) (P : ECP) : Sigma ECP where
  aux := List.replicate (count t) 1
  sig := ecpMul P (modInv t.toInt curveOrder) :: List.replicate (count t - 1) 0
  IDs := (List.range (count t)).map fun i : ℕ ↦ (i : ℤ) + 1

theorem count_lt_order (t : Int32) : count t < curveOrder := by
  have hlt := lt_curveOrder
  have ht := t.toInt_lt
  rw [count]
  omega

namespace Miracl

variable {ECP ECP2 FP12 : Type} [AddCommGroup ECP] [AddCommGroup ECP2] [CommGroup FP12]
variable [Module Zq ECP] (M : Miracl ECP ECP2 FP12)

/-- The first entry has the coefficient `t`, which the point has been divided by. -/
theorem combined_forge {t : Int32} (ht : 1 ≤ t.toInt) (P : ECP) (h : ℕ) :
    combined (forge t P) h t = P := by
  have hcount : (count t : ℤ) = t.toInt := cast_count (by omega)
  have hpos : 0 < count t := by omega
  have hlt := count_lt_order t
  have hIDs : ∀ i < count t, cls (forge t P).IDs i = (i : Zq) + 1 := by
    intro i hi
    rw [cls, forge, getD_map_range _ _ hi]
    push_cast
    rfl
  have haux : cls (forge t P).aux 0 = 1 := by
    rw [cls, forge, List.getD_replicate _ hpos, Int.cast_one]
  have hfac : ((count t - 1).factorial : Zq) ≠ 0 := by
    rw [Ne, ZMod.natCast_eq_zero_iff, prime_curveOrder.dvd_factorial]
    omega
  have hcoeff : coeffZero (cls (forge t P).IDs) (count t) 0 = t.toInt := by
    rw [coeffZero_congr hpos hIDs, coeffZero_succ_zero hpos hfac, ← hcount, Int.cast_natCast]
  have hne : (t.toInt : Zq) ≠ 0 := by
    rw [← hcount, Int.cast_natCast]
    exact natCast_ne_zero_of_lt hpos.ne' hlt
  rw [combined, sum_eq_single_of_mem 0 (mem_range.mpr hpos), hcoeff, haux]
  · rw [forge, List.getD_cons_zero, modInv_eq_rep, ecpMul_rep, one_pow, inv_one, mul_one, smul_smul,
      mul_inv_cancel₀ hne, one_smul]
  · rintro (_ | i) - hi
    · exact absurd rfl hi
    · rw [forge, List.getD_cons_succ, List.getD_eq_getElem?_getD,
        List.getElem?_getD_replicate_default_eq, smul_zero]

/-- `Verify` accumulates the point that was written into the signature, whatever the verifier's
key is. -/
theorem accumulated_forge {pp : Params ECP2} (hq : pp.q = curveOrder) {t : Int32}
    (ht : 1 ≤ t.toInt) (P : ECP) {sk_v : ℤ} (hterm : ∃ h, (M.verifyHash pp sk_v).out = .ok h) :
    (M.accumulated (forge t P) sk_v pp t).out = .ok P := by
  have hcount : (count t : ℤ) = t.toInt := cast_count (by omega)
  obtain ⟨_, hok⟩ := hterm
  obtain ⟨h, rfl, -⟩ := M.verifyHash_of_ok hok
  have hIDs : Nonneg (forge t P).IDs := by
    intro x hx
    obtain ⟨i, -, rfl⟩ := List.mem_map.mp hx
    omega
  have hlenIDs : count t ≤ (forge t P).IDs.length := by simp [forge]
  have hlenaux : count t ≤ (forge t P).aux.length := by simp [forge]
  have hlensig : count t ≤ (forge t P).sig.length := by simp [forge]; omega
  rw [accumulated, getPi0_eq hq hlenIDs hIDs, Run.ret_bind, Run.eq_ret_of_out hok, Run.ret_bind,
    verifyCoeffs_eq hq hlenaux, Run.ret_bind, accumulate_eq (by omega) hlensig]
  exact congrArg Outcome.ok (combined_forge ht P h)

/-- The secret of a threshold is all that a signature takes. -/
theorem accepts_forge [Module Zq ECP2] [DecidableEq FP12] (n : Int32) {tm t : Int32}
    (ht : 2 ≤ t.toInt) (htm : t.toInt ≤ tm.toInt) (g alpha : Fin curveOrder)
    (b : ℕ → Fin curveOrder) {sk_v : ℤ} (msg : ℤ)
    (hterm : ∃ h, (M.verifyHash (M.issuedParams n tm g alpha b) sk_v).out = .ok h) :
    (M.verify (forge t (secret t b • M.hashToPoint msg curveOrder)) sk_v
      (M.issuedParams n tm g alpha b) msg t).out = .ok 1 :=
  M.accepts_iff_pair.mpr ⟨_, _, M.accumulated_forge rfl (by omega) _ hterm,
    congrArg Run.out (M.subscript_issuedParams n ht htm g alpha b), M.e_smul_comm _ _ _⟩

/-- **An accepted signature is good for every verifier and every message.**  `AggSig` transforms a
signature for one verifier, who has to decrypt it with its own key.  Once it has done so and has
accepted, the accumulated point gives signatures on any message that any verifier accepts. -/
theorem accepted_forges [DecidableEq FP12] (pp : Params ECP2) (hq : pp.q = curveOrder) (t : Int32)
    (ht : 2 ≤ t.toInt) (sigma : Sigma ECP) (sk_v msg : ℤ)
    (hmsg : ¬ (curveOrder : ℤ) ∣ M.hashToZp256 msg curveOrder)
    (hok : (M.verify sigma sk_v pp msg t).out = .ok 1) :
    ∃ S, (M.accumulated sigma sk_v pp t).out = .ok S ∧
      ∀ sk_v' msg', (∃ h, (M.verifyHash pp sk_v').out = .ok h) →
        (M.verify (forge t (ecpMul S (M.transferFactor msg msg'))) sk_v' pp msg' t).out =
          .ok 1 := by
  obtain ⟨S, K, hS, hK, hpair⟩ := M.accepts_iff_pair.mp hok
  refine ⟨S, hS, fun sk_v' msg' hterm ↦ M.accepts_iff_pair.mpr
    ⟨_, K, M.accumulated_forge hq (by omega) _ hterm, hK, ?_⟩⟩
  rw [hq] at hpair ⊢
  rw [← M.ecpMul_transferFactor hmsg msg', ecpMul, ecpMul, e_nsmul_left, e_nsmul_left, hpair]

end Miracl

/-- The hash of a shared value ends under `separating` where `beta` is `1`. -/
theorem exists_verifyHash_separating {sk_v : ℤ} (hsk : 0 ≤ sk_v) :
    ∃ h, (separating.verifyHash (separating.issuedParams 2 2 0 0 fun _ ↦ 0) sk_v).out = .ok h := by
  have hbeta : ((separating.issuedParams 2 2 0 0 fun _ ↦ 0).beta : Zq) = 1 := by
    change ((rep ((randMpz 0 : Zq) ^ (randMpz 0).toNat) : ℤ) : Zq) = 1
    rw [cast_rep, randMpz_zero, Int.cast_one, one_pow]
  obtain ⟨h, hh⟩ := exists_hashToCoprime_separating (x := 1) (by norm_num) one_pos
  rw [Nat.cast_one] at hh
  refine ⟨h, ?_⟩
  rw [Miracl.verifyHash, separating.sharedHash_eq rfl _ hsk, hbeta, one_pow, rep_one, hh,
    Run.out_pure]

/-- `accepted_forges` for two verifiers and two messages, whose hashes differ. -/
theorem accepted_forges_exponents :
    let pp := separating.issuedParams 2 2 0 0 fun _ ↦ 0
    let sigma := forge 2 (secret 2 (fun _ ↦ 0) • separating.hashToPoint 5 curveOrder)
    ∃ S, (separating.accumulated sigma 1 pp 2).out = .ok S ∧
      (separating.verify (forge 2 (ecpMul S (separating.transferFactor 5 6))) 3 pp 6 2).out =
        .ok 1 := by
  intro pp sigma
  have hok := separating.accepts_forge 2 (t := 2) (by decide) le_rfl 0 0 (fun _ ↦ 0) 5
    (exists_verifyHash_separating zero_le_one)
  obtain ⟨S, hS, hall⟩ := separating.accepted_forges pp rfl 2 (by decide) sigma 1 5
    not_dvd_hashToZp256_separating hok
  exact ⟨S, hS, hall 3 6 (exists_verifyHash_separating (by decide))⟩

/-! ## Two UAVs and the cluster head -/

/-- The constant term of the `i`-th linear polynomial, from two keys and the key of the head. -/
def recoverFactor (alpha : ℤ) (uav uav' : UAV) (i : ℕ) : Zq :=
  let f := cls uav.c2 i / cls uav.c1 i ^ alpha
  let f' := cls uav'.c2 i / cls uav'.c1 i ^ alpha
  (f * uav'.ID - f' * uav.ID) / (uav'.ID - uav.ID)

/-- The secret of a threshold, from the same. -/
def recoverSecret (alpha : ℤ) (uav uav' : UAV) (t : Int32) : Zq :=
  ∏ i ∈ range (count (t - 1)), recoverFactor alpha uav uav' i

section Recover

variable {ECP2 : Type} {pp : Params ECP2} {alpha : ℤ}
variable (hbeta : (pp.beta : Zq) = (pp.g : Zq) ^ alpha) (hg : (pp.g : Zq) ≠ 0) (d b : List ℤ)
include hbeta hg

/-- An entry of an issued key is decrypted to the value of the linear polynomial at the ID. -/
theorem decrypt_issuedKey (id : ℤ) (u : ℕ → Fin curveOrder) {i : ℕ} (hi : i < b.length) :
    cls (issuedKey pp d b id u).c2 i / cls (issuedKey pp d b id u).c1 i ^ alpha =
      cls d i * (id : Zq) + cls b i := by
  have hc1 : cls (issuedKey pp d b id u).c1 i ≠ 0 := by
    rw [issuedKey, cls_map_rep _ hi]
    exact pow_ne_zero _ hg
  rw [cls_c2_issuedKey hbeta d b id u hi, mul_div_cancel_left₀ _ (zpow_ne_zero alpha hc1)]

theorem recoverFactor_issuedKey {id id' : ℤ} (hne : (id : Zq) ≠ (id' : Zq))
    (u u' : ℕ → Fin curveOrder) {i : ℕ} (hi : i < b.length) :
    recoverFactor alpha (issuedKey pp d b id u) (issuedKey pp d b id' u') i = cls b i := by
  rw [recoverFactor, decrypt_issuedKey hbeta hg d b id u hi,
    decrypt_issuedKey hbeta hg d b id' u' hi]
  exact constant_of_linear hne _ _

end Recover

namespace Miracl

variable {ECP ECP2 FP12 : Type} [AddCommGroup ECP] [AddCommGroup ECP2] [CommGroup FP12]
variable [Module Zq ECP] [Module Zq ECP2] (M : Miracl ECP ECP2 FP12)

omit [Module Zq ECP] in
/-- Two keys under different IDs and the key of the head give the secret. -/
theorem recoverSecret_issuedUAV (n : Int32) {tm t : Int32} (ht : 1 ≤ t.toInt)
    (htm : t.toInt ≤ tm.toInt) {g : Fin curveOrder} (alpha : Fin curveOrder)
    (hg : ¬ (curveOrder : ℤ) ∣ randMpz g) (b d : ℕ → Fin curveOrder) {id id' : ℤ}
    (hne : (id : Zq) ≠ id') (u u' : ℕ → Fin curveOrder) :
    recoverSecret (randMpz alpha) (issuedUAV (M.issuedParams n tm g alpha b) tm b d id u)
      (issuedUAV (M.issuedParams n tm g alpha b) tm b d id' u') t = secret t b := by
  set pp := M.issuedParams n tm g alpha b
  have hbeta : (pp.beta : Zq) = (pp.g : Zq) ^ randMpz alpha := by
    rw [← Int.toNat_of_nonneg (randMpz_pos alpha).le, zpow_natCast]
    exact cast_rep _
  refine prod_congr rfl fun i hi ↦ ?_
  have hi : i < count (tm - 1) := (mem_range.mp hi).trans_le (count_sub_one_mono ht htm)
  have hi' : i < (coefficients tm b).length := by rwa [length_coefficients]
  rw [issuedUAV, issuedUAV, recoverFactor_issuedKey hbeta (cast_ne_zero_iff.mpr hg) _ _ hne u u'
    hi', cls_coefficients tm b hi]

/-- **Two UAVs and the cluster head sign alone, at every threshold.**  From two keys issued under
different IDs and the key of the head the secret of every threshold is computed, and with it a
signature on any message that any verifier accepts. -/
theorem two_uavs_sign [DecidableEq FP12] (n tm : Int32) (g alpha : Fin curveOrder)
    (hg : ¬ (curveOrder : ℤ) ∣ randMpz g) (b d : ℕ → Fin curveOrder) (id id' : Fin curveOrder)
    (hne : id ≠ id') (u u' : ℕ → Fin curveOrder) {uav uav' : UAV}
    (huav : (getUAV (M.issuedParams n tm g alpha b) (coefficients tm d) (coefficients tm b)
      (randMpz id) u).out = .ok uav)
    (huav' : (getUAV (M.issuedParams n tm g alpha b) (coefficients tm d) (coefficients tm b)
      (randMpz id') u').out = .ok uav')
    (t : Int32) (ht : 2 ≤ t.toInt) (htm : t.toInt ≤ tm.toInt) (sk_v msg : ℤ)
    (hterm : ∃ h, (M.verifyHash (M.issuedParams n tm g alpha b) sk_v).out = .ok h) :
    (M.verify (forge t (ecpMul (M.hashToPoint msg curveOrder)
        (rep (recoverSecret (randMpz alpha) uav uav' t)))) sk_v
      (M.issuedParams n tm g alpha b) msg t).out = .ok 1 := by
  have hq : (M.issuedParams n tm g alpha b).q = curveOrder := rfl
  rw [getUAV_coefficients hq tm b d (randMpz_pos id).le u] at huav
  rw [getUAV_coefficients hq tm b d (randMpz_pos id').le u'] at huav'
  cases huav
  cases huav'
  rw [M.recoverSecret_issuedUAV n (by omega) htm alpha hg b d (cast_randMpz_injective.ne hne) u u',
    ecpMul_rep]
  exact M.accepts_forge n ht htm g alpha b msg hterm

end Miracl

/-- `two_uavs_sign` at the threshold `3`, for the UAVs with the IDs `1` and `2`. -/
theorem two_uavs_sign_three :
    let pp := exponents.issuedParams 3 3 0 0 fun _ ↦ 0
    let d := coefficients 3 fun _ ↦ 0
    ∃ uav uav', (getUAV pp d d 1 fun _ ↦ 0).out = .ok uav ∧
      (getUAV pp d d 2 fun _ ↦ 0).out = .ok uav' ∧
      (exponents.verify (forge 3 (ecpMul (exponents.hashToPoint 5 curveOrder)
        (rep (recoverSecret 1 uav uav' 3)))) 1 pp 5 3).out = .ok 1 := by
  intro pp d
  have hkey (id : Fin curveOrder) := congrArg Run.out
    (getUAV_coefficients (show pp.q = curveOrder from rfl) 3 (fun _ ↦ 0) (fun _ ↦ 0)
      (randMpz_pos id).le fun _ ↦ 0)
  refine ⟨_, _, hkey 0, hkey ⟨1, one_lt_curveOrder⟩, ?_⟩
  refine exponents.two_uavs_sign 3 3 0 0 (not_order_dvd (by decide) (by decide)) (fun _ ↦ 0)
    (fun _ ↦ 0) 0 ⟨1, one_lt_curveOrder⟩ ?_ (fun _ ↦ 0) (fun _ ↦ 0) (hkey 0)
    (hkey ⟨1, one_lt_curveOrder⟩) 3 (by decide) (by decide) 1 5
    (exists_sharedHash_exponents rfl _ zero_le_one)
  exact fun h ↦ zero_ne_one (congrArg Fin.val h)

end Fussion
