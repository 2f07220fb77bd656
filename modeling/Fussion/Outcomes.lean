import Fussion.Pipeline

/-!
# How the verifier and the pipeline end

`Verify` gets its lists from the aggregator and its threshold from the TA, and checks neither
against the other.  `verify_outcome` says for every `Sigma` and every `int` how it ends: it returns
when all lists are long enough and the threshold is at least two, it hangs when the hash of its key
does, and everything else reads a vector out of range.

`fussion_outcome` says the same of the whole pipeline, for all values of `n`, `tm` and `t`.
-/

namespace Fussion

open Finset

section Stages

variable {ECP ECP2 FP12 : Type} [AddCommGroup ECP] [AddCommGroup ECP2] [CommGroup FP12]

omit [AddCommGroup ECP2] in
/-- With fewer than `t` IDs the first loop of `getPi_0` reads past their end. -/
theorem getPi0_of_short {pp : Params ECP2} (hq : pp.q ≠ 0) {ID : List ℤ} {t : Int32}
    (h : ID.length < count t) : getPi0 pp ID t = Run.fault .outOfRange := by
  rw [getPi0, Run.upTo_eq_fault h _ _ 1, Run.fault_bind]
  · intro i hi s
    rw [subscript_of_lt hi 0, pure_bind, remMpz_of_ne_zero hq]
    exact ⟨_, rfl⟩
  · intro s
    rw [subscript_of_le le_rfl, Run.fault_bind]

namespace Miracl

omit [AddCommGroup ECP] [AddCommGroup ECP2] in
theorem verifyCoeffs_of_short {pp : Params ECP2} (hq : pp.q ≠ 0) {sigma : Sigma ECP}
    {t : Int32} (c : ℕ → ℤ) (hash : ℕ) (h : sigma.aux.length < count t) :
    (verifyCoeffs pp sigma ((List.range (count t)).map c) hash t).out = .fault .outOfRange := by
  refine Run.upTo_out_fault h (fun i hi k ↦ ?_) (fun k ↦ ?_) []
  · rw [subscript_of_lt hi 0, subscript_of_lt (by simpa using hi.trans h) 0]
    simp only [pure_bind, powMpz_eq_mask hq, invertMpz_eq, Run.ret_bind, remMpz_of_ne_zero hq,
      Run.after_pure]
    exact ⟨_, rfl⟩
  · rw [subscript_of_le le_rfl, Run.fault_bind, Run.out_fault]

/-- The loop of `Verify` needs a first coefficient, and `t` points. -/
theorem accumulate_of_short {sigma : Sigma ECP} {t : Int32} (k : ℕ → ℤ)
    (h : count t = 0 ∨ sigma.sig.length < count t) :
    (accumulate sigma ((List.range (count t)).map k) t).out = .fault .outOfRange := by
  by_cases hsig : sigma.sig.length = 0
  · rw [accumulate, ← Nat.cast_zero, subscript_of_le hsig.le, Run.fault_bind, Run.out_fault]
  rw [accumulate, ← Nat.cast_zero, subscript_of_lt (Nat.pos_of_ne_zero hsig) 0, pure_bind]
  rcases Nat.eq_zero_or_pos (count t) with hzero | hpos
  · rw [hzero, subscript_of_le (by simp), Run.fault_bind, Run.out_fault]
  have hlt : sigma.sig.length < count t := h.resolve_left hpos.ne'
  rw [subscript_of_lt (by simpa using hpos) 0, pure_bind]
  refine Run.upTo_out_fault (k := sigma.sig.length - 1) (by omega) (fun i hi s ↦ ?_)
    (fun s ↦ ?_) _
  · rw [subscript_of_lt (by omega) 0, subscript_of_lt (by simp; omega) 0]
    exact ⟨_, rfl⟩
  · rw [subscript_of_le (by omega), Run.fault_bind, Run.out_fault]

variable (M : Miracl ECP ECP2 FP12)

/-- A shared hash ends with a number or not at all. -/
theorem sharedHash_cases {pp : Params ECP2} (hq : pp.q = curveOrder) (base : ℤ) {exp : ℤ}
    (hexp : 0 ≤ exp) : (∃ h : ℕ, (M.sharedHash pp base exp).out = .ok (h : ℤ)) ∨
      (M.sharedHash pp base exp).out = .diverge := by
  rw [M.sharedHash_eq hq _ hexp, hashToCoprime]
  cases hloop : coprimeLoop getFactors _ with
  | none => exact .inr rfl
  | some r =>
      refine .inl ?_
      obtain ⟨h, rfl, -⟩ := M.hashToCoprime_of_ok (x := rep ((base : Zq) ^ exp.toNat))
        (by rw [hashToCoprime, hloop, Run.ofOption_some, Run.out_pure])
      exact ⟨h, rfl⟩

theorem verifyHash_cases {pp : Params ECP2} (hq : pp.q = curveOrder) {sk_v : ℤ} (hsk : 0 ≤ sk_v) :
    (∃ h : ℕ, (M.verifyHash pp sk_v).out = .ok (h : ℤ)) ∨
      (M.verifyHash pp sk_v).out = .diverge :=
  M.sharedHash_cases hq pp.beta hsk

/-- When `AggSig` has returned for the public key of a verifier, the verifier's hash ends too. -/
theorem exists_verifyHash_of_aggSig {pp : Params ECP2} (hq : pp.q = curveOrder) {uavH : UAVh}
    (halpha : 0 ≤ uavH.alpha) (hbeta : (pp.beta : Zq) = (pp.g : Zq) ^ uavH.alpha.toNat)
    {sk_v PK_v : ℤ} (hsk : 0 ≤ sk_v) (hPK : (powMpz pp.g sk_v pp.q).out = .ok PK_v)
    {parSigs : List (ParSig ECP)} {e : Fin curveOrder} {sigma : Sigma ECP}
    (hagg : (M.aggSig parSigs pp uavH PK_v e).out = .ok sigma) :
    ∃ h : ℕ, (M.verifyHash pp sk_v).out = .ok (h : ℤ) := by
  obtain ⟨rk, hrk, -⟩ := Run.out_bind_eq_ok.mp hagg
  obtain ⟨h, hh, -⟩ := Run.out_bind_eq_ok.mp hrk
  rw [hq, powMpz_order _ hsk, Run.out_pure] at hPK
  cases hPK
  rw [← M.verifyHash_eq_aggHash hq halpha hsk hbeta (cast_rep _)] at hh
  obtain ⟨k, rfl, -⟩ := M.verifyHash_of_ok hh
  exact ⟨k, hh⟩

end Miracl

end Stages

/-! ## The verifier -/

/-- What `Verify` reads for the threshold `t` is there. -/
structure Sigma.Fits {ECP ECP2 : Type} (sigma : Sigma ECP) (pp : Params ECP2) (t : Int32) :
    Prop where
  two_le : 2 ≤ t.toInt
  IDs : count t ≤ sigma.IDs.length
  aux : count t ≤ sigma.aux.length
  sig : count t ≤ sigma.sig.length
  PK : count t - 2 < pp.PK.length

/-- The entry `t - 2` of a vector, for a threshold below two or past the end. -/
theorem subscript_sub_two_of_not {A : Type} {v : List A} {t : Int32} (ht : 1 ≤ t.toInt)
    (h : ¬ (2 ≤ t.toInt ∧ count t - 2 < v.length)) :
    subscript v (t - 2).toInt = Run.fault .outOfRange := by
  by_cases htwo : 2 ≤ t.toInt
  · rw [toInt_sub_two_eq_count htwo, subscript_of_le (not_lt.mp fun hlt ↦ h ⟨htwo, hlt⟩)]
  · -- For `t = 1` the subscript is negative.
    have hneg : (t - 2).toInt = Int.negSucc 0 := by
      rw [Int32.toInt_sub, show (2 : Int32).toInt = 2 from rfl, Int.bmod_eq_of_le] <;> omega
    rw [hneg]
    rfl

namespace Miracl

variable {ECP ECP2 FP12 : Type} [AddCommGroup ECP] [AddCommGroup ECP2] [CommGroup FP12]
variable [DecidableEq FP12] (M : Miracl ECP ECP2 FP12)

section Verify

variable {pp : Params ECP2} (hq : pp.q = curveOrder) {sigma : Sigma ECP} {sk_v : ℤ} (msg : ℤ)
variable {t : Int32}
include hq

theorem out_verify_of_short (h : sigma.IDs.length < count t) :
    (M.verify sigma sk_v pp msg t).out = .fault .outOfRange := by
  rw [verify, getPi0_of_short (hq ▸ order_ne_zero) h, Run.fault_bind, Run.out_fault]

theorem out_verify_of_diverge (hIDs : count t ≤ sigma.IDs.length)
    (hhash : (M.verifyHash pp sk_v).out = .diverge) :
    (M.verify sigma sk_v pp msg t).out = .diverge := by
  rw [verify, getPi0_eq_piZero (hq ▸ order_ne_zero) hIDs, Run.out_bind_of_ok (Run.out_ret _ _),
    Run.out_bind_of_diverge hhash]

theorem out_verify_of_fits (hfits : sigma.Fits pp t) {h : ℕ}
    (hhash : (M.verifyHash pp sk_v).out = .ok (h : ℤ)) :
    (M.verify sigma sk_v pp msg t).out = .ok 1 ∨ (M.verify sigma sk_v pp msg t).out = .ok 0 := by
  have hcount : (count t : ℤ) = t.toInt := cast_count (by have := hfits.two_le; omega)
  have hpos : 1 ≤ count t := by have := hfits.two_le; omega
  rw [M.out_verify (hq ▸ order_ne_zero) hpos hfits.IDs hfits.aux hfits.sig hhash,
    toInt_sub_two_eq_count hfits.two_le, subscript_of_lt hfits.PK 0, pure_bind, Run.out_pure]
  split_ifs
  · exact .inl rfl
  · exact .inr rfl

/-- The stages after the hash fault on the first list that is too short. -/
theorem out_verify_of_not_fits (hIDs : count t ≤ sigma.IDs.length) {h : ℕ}
    (hhash : (M.verifyHash pp sk_v).out = .ok (h : ℤ)) (hfits : ¬ sigma.Fits pp t) :
    (M.verify sigma sk_v pp msg t).out = .fault .outOfRange := by
  have hq₀ : pp.q ≠ 0 := hq ▸ order_ne_zero
  rw [verify, getPi0_eq_piZero hq₀ hIDs, Run.out_bind_of_ok (Run.out_ret _ _),
    Run.out_bind_of_ok hhash]
  by_cases haux : count t ≤ sigma.aux.length
  · rw [verifyCoeffs_eq_mask hq₀ haux, Run.out_bind_of_ok (Run.out_ret _ _)]
    by_cases hsig : count t = 0 ∨ sigma.sig.length < count t
    · exact Run.out_bind_of_fault (accumulate_of_short _ hsig) _
    · push Not at hsig
      have hpos : 1 ≤ t.toInt := by
        have := hsig.1
        rw [count] at this
        omega
      have hPK : ¬ (2 ≤ t.toInt ∧ count t - 2 < pp.PK.length) := fun hPK ↦
        hfits ⟨hPK.1, hIDs, haux, hsig.2, hPK.2⟩
      rw [accumulate_eq_sum (Nat.one_le_iff_ne_zero.mpr hsig.1) hsig.2, pure_bind,
        subscript_sub_two_of_not hpos hPK, Run.fault_bind, Run.out_fault]
  · exact Run.out_bind_of_fault (verifyCoeffs_of_short hq₀ _ _ (not_le.mp haux)) _

end Verify

/-- **How `Verify` ends.**  For every `Sigma`, every public key, every message and every `int`: it
returns `0` or `1` exactly when all that it reads is there and the hash of its key ends; it hangs
exactly when that hash does not end and there are `t` IDs; and in all other cases it reads a vector
out of range. -/
theorem verify_outcome (pp : Params ECP2) (hq : pp.q = curveOrder) (sigma : Sigma ECP) (sk_v : ℤ)
    (hsk : 0 ≤ sk_v) (msg : ℤ) (t : Int32) :
    ((∃ v, (M.verify sigma sk_v pp msg t).out = .ok v) ↔
      sigma.Fits pp t ∧ ∃ h, (M.verifyHash pp sk_v).out = .ok h) ∧
    (∀ v, (M.verify sigma sk_v pp msg t).out = .ok v → v = 1 ∨ v = 0) ∧
    ((M.verify sigma sk_v pp msg t).out = .diverge ↔
      count t ≤ sigma.IDs.length ∧ (M.verifyHash pp sk_v).out = .diverge) ∧
    ∀ f, (M.verify sigma sk_v pp msg t).out = .fault f → f = .outOfRange := by
  by_cases hIDs : count t ≤ sigma.IDs.length
  · rcases M.verifyHash_cases hq hsk with ⟨h, hhash⟩ | hhash
    · by_cases hfits : sigma.Fits pp t
      · rcases M.out_verify_of_fits hq msg hfits hhash with hout | hout <;>
          simp [hout, hhash, hfits]
      · simp [M.out_verify_of_not_fits hq msg hIDs hhash hfits, hhash, hfits, eq_comm]
    · simp [M.out_verify_of_diverge hq msg hIDs hhash, hhash, hIDs]
  · have hfits : ¬ sigma.Fits pp t := fun h ↦ hIDs h.IDs
    simp [M.out_verify_of_short hq msg (not_le.mp hIDs), hIDs, hfits, eq_comm]

end Miracl

/-- `verify_outcome` on a signature of two entries, at the thresholds `2` and `3`. -/
theorem verify_outcome_exponents :
    let pp : Params Zq :=
      { n := 3, tm := 3, q := curveOrder, P2 := 1, g := 1, beta := 1, PK := [1, 1] }
    let sigma : Sigma Zq := { aux := [1, 1], sig := [2, 3], IDs := [1, 2] }
    (∃ v, (exponents.verify sigma 1 pp 5 2).out = .ok v) ∧
      ¬ ∃ v, (exponents.verify sigma 1 pp 5 3).out = .ok v := by
  intro pp sigma
  have hhash : ∃ h, (exponents.verifyHash pp 1).out = .ok h := by
    rw [Miracl.verifyHash, exponents.sharedHash_eq rfl _ zero_le_one]
    exact exists_hashToCoprime_exponents _
  constructor
  · exact (exponents.verify_outcome pp rfl sigma 1 zero_le_one 5 2).1.mpr
      ⟨⟨by decide, by decide, by decide, by decide, by decide⟩, hhash⟩
  · rw [(exponents.verify_outcome pp rfl sigma 1 zero_le_one 5 3).1]
    rintro ⟨hfits, -⟩
    exact absurd hfits.IDs (by decide)

/-! ## The pipeline -/

namespace Miracl

variable {ECP ECP2 FP12 : Type} [AddCommGroup ECP] [AddCommGroup ECP2] [CommGroup FP12]
variable (M : Miracl ECP ECP2 FP12)

/-- Without coefficients the `do … while` loop of `getPK` reads the first one. -/
theorem getPK_nil : M.getPK [] = Run.fault .outOfRange := by
  rw [getPK, List.length_nil, max_eq_left zero_le_one, Run.upTo_eq_fault zero_lt_one
    (fun i hi ↦ absurd hi i.not_lt_zero) _ _, Run.fault_bind]
  intro s
  rw [subscript_of_le (by simp), Run.fault_bind]

theorem keyGen_of_lt {params : Params ECP2} (hmin : -2 ^ 31 < params.tm.toInt)
    (htm : params.tm.toInt < 2) (alpha : ℤ) (r : KeyDraws) :
    M.keyGen params alpha r = Run.fault .outOfRange := by
  have hnil : coefficients params.tm r.b = [] := by
    have htoInt : (params.tm - 1).toInt = params.tm.toInt - 1 := by
      rw [Int32.toInt_sub, Int32.toInt_one, Int.bmod_eq_of_le] <;> omega
    rw [← List.length_eq_zero_iff, length_coefficients, count, htoInt]
    omega
  rw [keyGen]
  simp only [hnil, M.getPK_nil, Run.fault_bind]

section Run

variable [Module Zq ECP]

/-- The keys that `KeyGen` issues. -/
def issuedUAVs (pp : Params ECP2) (r : KeyDraws) : List UAV :=
  (List.range (count pp.n)).map fun j ↦ issuedUAV pp pp.tm r.b r.d (randMpz (r.ID j)) (r.u j)

omit [Module Zq ECP] [AddCommGroup ECP] [AddCommGroup ECP2] [CommGroup FP12] in
theorem issuedUAVs_getElem? (pp : Params ECP2) (r : KeyDraws) {i : ℕ} (hi : i < count pp.n) :
    (issuedUAVs pp r)[i]? = some (issuedUAV pp pp.tm r.b r.d (randMpz (r.ID i)) (r.u i)) := by
  rw [issuedUAVs, List.getElem?_map, List.getElem?_range hi, Option.map_some]

/-- `collectSig` asks for more signatures than there are UAVs, or for longer ones than the keys
allow. -/
theorem collectSig_of_not {pp : Params ECP2} (hq : pp.q = curveOrder) {t : Int32}
    (hpos : 0 < count t)
    (h : ¬ (count t ≤ count pp.n ∧ count (t - 1) ≤ count (pp.tm - 1))) (r : KeyDraws) (msg : ℤ) :
    M.collectSig pp (issuedUAVs pp r) t msg = Run.fault .outOfRange := by
  have hlen : (issuedUAVs pp r).length = count pp.n := by
    rw [issuedUAVs, List.length_map, List.length_range]
  by_cases hkeys : count (t - 1) ≤ count (pp.tm - 1)
  · -- The keys are long enough, and the UAV after the last one is asked.
    refine Run.upTo_eq_fault (k := count pp.n) (not_le.mp fun hn ↦ h ⟨hn, hkeys⟩) ?_ ?_ []
    · intro i hi s
      rw [subscript_of_getElem? (issuedUAVs_getElem? pp r hi), pure_bind,
        M.sign_issuedUAV hq hkeys, pure_bind]
      exact ⟨_, rfl⟩
    · intro s
      rw [subscript_of_le hlen.le, Run.fault_bind]
  · refine Run.upTo_eq_fault hpos (fun i hi ↦ absurd hi i.not_lt_zero) ?_ []
    intro s
    by_cases hn : 0 < count pp.n
    · rw [subscript_of_getElem? (issuedUAVs_getElem? pp r hn), pure_bind,
        M.sign_eq_fault hq (by rw [length_c1_issuedUAV]; exact not_le.mp hkeys)
          (by rw [length_c1_issuedUAV, length_c2_issuedUAV]), Run.fault_bind]
    · rw [subscript_of_le (hlen.le.trans (not_lt.mp hn)), Run.fault_bind]

theorem exists_collectSig {pp : Params ECP2} (hq : pp.q = curveOrder) {t : Int32}
    (hn : count t ≤ count pp.n) (hkeys : 0 < count t → count (t - 1) ≤ count (pp.tm - 1))
    (r : KeyDraws) (msg : ℤ) :
    ∃ sigs : List (ParSig ECP), sigs.length = count t ∧
      M.collectSig pp (issuedUAVs pp r) t msg = pure sigs := by
  refine ⟨_, ?_, M.collectSig_eq fun i hi ↦ ⟨_, issuedUAVs_getElem? pp r (hi.trans_le hn),
    M.sign_issuedUAV hq (hkeys (Nat.zero_lt_of_lt hi)) _ _ _ _ msg⟩⟩
  rw [List.length_map, List.length_range]

variable [Module Zq ECP2] [DecidableEq FP12]

omit [Module Zq ECP] in
/-- `fussion` up to `collectSig`. -/
theorem fussion_eq_collectSig {n tm : Int32} (htm : 2 ≤ tm.toInt) (t : Int32) (msg : ℤ) (r : Draws)
    {pp : Params ECP2} (hpp : pp = M.issuedParams n tm r.g r.alpha r.key.b) :
    M.fussion n tm t msg r = (do
      let sigmas ← M.collectSig pp (issuedUAVs pp r.key) t msg
      let PK_v ← powMpz pp.g (randMpz r.sk_v) pp.q
      let sig ← M.aggSig sigmas pp { ID := randMpz r.key.IDh, alpha := randMpz r.alpha } PK_v r.e
      M.verify sig (randMpz r.sk_v) pp msg t) := by
  have hkey := M.keyGen_eq rfl (show 2 ≤ (M.setupParams n tm r.g r.alpha).tm.toInt from htm)
    (randMpz r.alpha) r.key
  subst hpp
  simp only [fussion, M.setup_eq, pure_bind, hkey]
  rfl

/-- After `collectSig`, the pipeline ends as `Verify` does on the transformed signatures. -/
theorem out_fussion_of_collectSig {n tm : Int32} (htm : 2 ≤ tm.toInt) {t : Int32} {msg : ℤ}
    {r : Draws} {pp : Params ECP2} (hpp : pp = M.issuedParams n tm r.g r.alpha r.key.b) {h : ℕ}
    (hhash : M.verifyHash pp (randMpz r.sk_v) = pure (h : ℤ))
    (hgcd : (h : ℤ).gcd (curveOrder - 1) = 1) {sigs : List (ParSig ECP)}
    (hsigs : M.collectSig pp (issuedUAVs pp r.key) t msg = pure sigs) :
    ∃ rk : ℕ, (M.fussion n tm t msg r).out =
      (M.verify (reencrypt pp rk r.e sigs) (randMpz r.sk_v) pp msg t).out := by
  have hq : pp.q = curveOrder := by rw [hpp]; rfl
  have hagg : M.aggHash pp (randMpz r.alpha)
      (rep ((pp.g : Zq) ^ (randMpz r.sk_v).toNat)) = pure (h : ℤ) := by
    rw [← hhash, hpp]
    exact (M.verifyHash_eq_aggHash rfl (randMpz_pos _).le (randMpz_pos _).le (cast_rep _)
      (cast_rep _)).symm
  obtain ⟨rk, hrk, -⟩ := M.reKey_eq hq (randMpz_pos _).le hagg hgcd
  have hsigma := M.aggSig_eq hq { ID := randMpz r.key.IDh, alpha := randMpz r.alpha } hrk r.e sigs
  refine ⟨rk, ?_⟩
  rw [M.fussion_eq_collectSig htm t msg r hpp, hsigs, pure_bind, hq,
    powMpz_order _ (randMpz_pos _).le, pure_bind, Run.bind_of_eq_ret hsigma]
  rfl

end Run

section Ends

variable [Module Zq ECP] [Module Zq ECP2] [DecidableEq FP12] {n tm t : Int32} (msg : ℤ)
variable {r : Draws} {h : ℕ}
variable (hh : M.verifyHash (M.issuedParams n tm r.g r.alpha r.key.b) (randMpz r.sk_v) =
  pure (h : ℤ)) (hgcd : (h : ℤ).gcd (curveOrder - 1) = 1)
include hh hgcd

theorem out_fussion_of_le (ht : 2 ≤ t.toInt) (htm : t.toInt ≤ tm.toInt)
    (hn : t.toInt ≤ n.toInt) :
    (M.fussion n tm t msg r).out = .ok 1 ∨ (M.fussion n tm t msg r).out = .ok 0 := by
  set pp := M.issuedParams n tm r.g r.alpha r.key.b with hpp
  have hq : pp.q = curveOrder := rfl
  obtain ⟨sigs, hlen, hsigs⟩ := M.exists_collectSig hq (show count t ≤ count pp.n from
    count_mono hn) (fun _ ↦ count_sub_one_mono (by omega) htm) r.key msg
  obtain ⟨rk, hout⟩ := M.out_fussion_of_collectSig (ht.trans htm) hpp hh hgcd hsigs
  have hPK : count t - 2 < pp.PK.length :=
    List.getElem?_eq_some_iff.mp (M.publicKey_getElem? ht htm r.key.b) |>.1
  rw [hout]
  refine M.out_verify_of_fits hq msg ⟨ht, ?_, ?_, ?_, hPK⟩ (congrArg Run.out hh) <;>
    rw [reencrypt, List.length_map, hlen]

/-- The signatures that the threshold asks for are there, and it is below two. -/
theorem out_fussion_of_lt (ht : t.toInt < 2) (htm : 2 ≤ tm.toInt) (hn : count t ≤ count n) :
    (M.fussion n tm t msg r).out = .fault .outOfRange := by
  set pp := M.issuedParams n tm r.g r.alpha r.key.b with hpp
  have hq : pp.q = curveOrder := rfl
  have hkeys : 0 < count t → count (t - 1) ≤ count (pp.tm - 1) := fun hpos ↦
    count_sub_one_mono (by rw [count] at hpos; omega) (ht.le.trans htm)
  obtain ⟨sigs, hlen, hsigs⟩ := M.exists_collectSig hq (show count t ≤ count pp.n from hn) hkeys
    r.key msg
  obtain ⟨rk, hout⟩ := M.out_fussion_of_collectSig htm hpp hh hgcd hsigs
  rw [hout]
  refine M.out_verify_of_not_fits hq msg ?_ (congrArg Run.out hh) fun hfits ↦
    absurd hfits.two_le (not_le.mpr ht)
  rw [reencrypt, List.length_map, hlen]

end Ends

/-- **How the pipeline ends.**  For all numbers of UAVs and thresholds, whatever is drawn, as long
as the hash of the shared value ends: `fussion` returns a verdict when `2 ≤ t ≤ tm` and `t ≤ n`, and
otherwise reads a vector out of range.  (For the least `int`, `tm - 1` wraps around.) -/
theorem fussion_outcome [Module Zq ECP] [Module Zq ECP2] [DecidableEq FP12] (n tm t : Int32)
    (hmin : -2 ^ 31 < tm.toInt) (msg : ℤ) (r : Draws) {x : ℤ} (hx : sharedValue r = pure x)
    (hterm : ∃ h, (M.hashToCoprime x (curveOrder - 1) getFactors).out = .ok h) :
    (2 ≤ t.toInt ∧ t.toInt ≤ tm.toInt ∧ t.toInt ≤ n.toInt →
      (M.fussion n tm t msg r).out = .ok 1 ∨ (M.fussion n tm t msg r).out = .ok 0) ∧
    (¬ (2 ≤ t.toInt ∧ t.toInt ≤ tm.toInt ∧ t.toInt ≤ n.toInt) →
      (M.fussion n tm t msg r).out = .fault .outOfRange) := by
  obtain ⟨h, hh, hgcd⟩ := hterm.elim fun _ h ↦
    M.hashToCoprime_eq_pure (M.not_dvd_of_hashToCoprime h)
  rw [← verifyHash_issuedParams M n tm r hx] at hh
  refine ⟨fun ⟨ht, htm, hn⟩ ↦ M.out_fussion_of_le msg hh hgcd ht htm hn, fun hnot ↦ ?_⟩
  by_cases htm : 2 ≤ tm.toInt
  · by_cases hcollect : count t ≤ count n ∧ (0 < count t → count (t - 1) ≤ count (tm - 1))
    · refine M.out_fussion_of_lt msg hh hgcd (not_le.mp fun ht ↦ hnot ?_) htm hcollect.1
      have hcount : (count t : ℤ) = t.toInt := cast_count (by omega)
      have h₁ : (count (t - 1) : ℤ) = t.toInt - 1 := cast_count_sub_one (by omega)
      have h₂ : (count (tm - 1) : ℤ) = tm.toInt - 1 := cast_count_sub_one (by omega)
      have hkeys := hcollect.2 (by omega)
      have hn := hcollect.1
      rw [count, count] at hn
      exact ⟨ht, by omega, by omega⟩
    · have hpos : 0 < count t := by
        by_contra hzero
        exact hcollect ⟨by omega, fun h ↦ absurd h hzero⟩
      have hfault := M.collectSig_of_not
        (show (M.issuedParams n tm r.g r.alpha r.key.b).q = curveOrder from rfl) hpos
        (fun h ↦ hcollect ⟨h.1, fun _ ↦ h.2⟩) r.key msg
      rw [M.fussion_eq_collectSig htm t msg r rfl, hfault, Run.fault_bind, Run.out_fault]
  · have hkey : M.keyGen (M.setupParams n tm r.g r.alpha) (randMpz r.alpha) r.key =
        Run.fault .outOfRange := M.keyGen_of_lt hmin (not_le.mp htm) _ _
    rw [fussion, M.setup_eq, pure_bind]
    simp only [hkey, Run.fault_bind, Run.out_fault]

end Miracl

/-- `fussion_outcome` on two UAVs, at the thresholds `2` and `3`. -/
theorem fussion_outcome_exponents :
    let r := unitDraws fun _ ↦ 0
    ((exponents.fussion 2 2 2 123456789 r).out = .ok 1 ∨
      (exponents.fussion 2 2 2 123456789 r).out = .ok 0) ∧
    (exponents.fussion 2 2 3 123456789 r).out = .fault .outOfRange := by
  intro r
  have hterm := exists_hashToCoprime_exponents 1
  exact ⟨(exponents.fussion_outcome 2 2 2 (by decide) _ r (sharedValue_unitDraws _) hterm).1
    (by decide), (exponents.fussion_outcome 2 2 3 (by decide) _ r (sharedValue_unitDraws _)
    hterm).2 (by decide)⟩

end Fussion
