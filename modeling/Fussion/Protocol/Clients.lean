import Fussion.Protocol.Faultless
import Fussion.Protocol.Verdicts

/-!
# What clients can do

The services of the TA and the UAVs answer whoever calls them.  Here is what that amounts to, in
any state of any run, whatever calls have failed in it.

`Register` gives the key of the head to every client that sends the ID of the head, and a `sign`
request names both the message and the threshold.  So a client gets a signature on a message of its
own choice from any `t` UAVs with keys, for a threshold `t` of its own choice
(`client_chooses_threshold`).  It does not need the UAVs: three registrations give it the secrets of
all thresholds (`registrations_sign`).
-/

namespace Fussion

variable {ECP ECP2 FP12 : Type} [AddCommGroup ECP] [AddCommGroup ECP2] [CommGroup FP12]

/-! ## Partial signatures on issued keys -/

namespace Miracl

variable [Module Zq ECP] [Module Zq ECP2] [DecidableEq FP12] (M : Miracl ECP ECP2 FP12)

/-- `AggSig` on the partial signatures of issued keys returns what `Verify` accepts, if the hash of
the verifier's key ends. -/
theorem exists_aggSig_accepts (n : Int32) {tm t : Int32} (ht : 2 ≤ t.toInt)
    (hle : t.toInt ≤ tm.toInt) {g alpha : Fin curveOrder} (hg : randMpz g ≠ curveOrder)
    (r : KeyDraws) (hID : ∀ i < count t, randMpz (r.ID i) ≠ curveOrder)
    (hdistinct : ∀ i < count t, ∀ j < count t, i ≠ j → randMpz (r.ID i) ≠ randMpz (r.ID j))
    {sk_v : Fin curveOrder}
    (hterm : ∃ k, (M.verifyHash (M.issuedParams n tm g alpha r.b) (randMpz sk_v)).out = .ok k)
    (idh m : ℤ) (e : Fin curveOrder) :
    let pp := M.issuedParams n tm g alpha r.b
    ∃ sigma, (M.aggSig (M.issuedSigs pp r t m) pp { ID := idh, alpha := randMpz alpha }
        (rep ((pp.g : Zq) ^ (randMpz sk_v).toNat)) e).out = .ok sigma ∧
      (M.verify sigma (randMpz sk_v) pp m t).out = .ok 1 := by
  intro pp
  have hq : pp.q = curveOrder := rfl
  have hbeta : (pp.beta : Zq) = (pp.g : Zq) ^ (randMpz alpha).toNat := cast_rep _
  obtain ⟨_, hok⟩ := hterm
  obtain ⟨h, -, hh, hgcd⟩ := M.sharedHash_of_ok hq (randMpz_pos sk_v).le hok
  have hagg : M.aggHash pp (randMpz alpha) (rep ((pp.g : Zq) ^ (randMpz sk_v).toNat)) =
      pure (h : ℤ) := by
    rw [← M.verifyHash_eq_aggHash hq (randMpz_pos alpha).le (randMpz_pos sk_v).le hbeta
      (cast_rep _)]
    exact hh
  obtain ⟨rk, hrk, hmod, -⟩ := M.reKey_eq hq (randMpz_pos alpha).le hagg hgcd
  refine ⟨reencrypt pp rk e (M.issuedSigs pp r t m),
    congrArg Run.out (M.aggSig_eq hq { ID := idh, alpha := randMpz alpha } hrk e _), ?_⟩
  have hlen : (M.issuedSigs pp r t m).length = count t := by
    simp only [issuedSigs, List.length_map, List.length_range]
  have hnonneg : Nonneg (reencrypt pp rk e (M.issuedSigs pp r t m)).IDs := by
    intro x hx
    simp only [reencrypt, issuedSigs, List.map_map, List.mem_map] at hx
    obtain ⟨i, -, rfl⟩ := hx
    exact (randMpz_pos _).le
  rw [M.verify_eq hq ht hnonneg (by simp [reencrypt, hlen]) (by simp [reencrypt, hlen])
    (by simp [reencrypt, hlen]) hh (M.publicKey_getElem? ht hle r.b) m, Run.out_ret,
    M.combined_issued hbeta ((cast_randMpz_eq_zero_iff g).not.mpr hg) r (by omega) hle
      (fun i hi ↦ (cast_randMpz_eq_zero_iff _).not.mpr (hID i hi)) (injOn_cast_randMpz hdistinct)
      hmod]
  exact congrArg Outcome.ok (if_pos (M.e_smul_comm _ _ _))

end Miracl

/-! ## Clients of a run -/

namespace PointCodec

variable (C : PointCodec ECP ECP2)

omit [AddCommGroup ECP] [AddCommGroup ECP2] in
/-- Whoever registers under the ID of the head holds what the aggregator holds. -/
theorem out_register_saveHead (ta : TA ECP2) (u : ℕ → Fin curveOrder) :
    (C.register ta ⟨isUAVh⟩ u >>= C.saveHead).out = .ok (ta.head C.carry2 []) := by
  have hresponse := congrArg Run.out (C.register_headID ta u)
  rw [mpzToStr_headID] at hresponse
  have hsave := C.saveHead_of_register (mpzToStr_headID ▸ hresponse)
  exact Run.out_bind_eq_ok.mpr ⟨_, hresponse, congrArg Run.out hsave⟩

omit [AddCommGroup ECP] [AddCommGroup ECP2] in
/-- Whoever registers under another ID holds a key. -/
theorem out_register_saveUAV {ta : TA ECP2} {id : ℤ} (hid : id ≠ headID) {u : ℕ → Fin curveOrder}
    {uav : UAV} (huav : (getUAV ta.pp ta.d ta.b id u).out = .ok uav) :
    (C.register ta ⟨mpzToStr id⟩ u >>= C.saveUAV id).out =
      .ok (ta.pp.mapPoints C.carry2, uav) := by
  obtain ⟨response, hresponse⟩ := C.exists_register huav
  obtain ⟨uav', huav', hsave⟩ := C.saveUAV_of_register hid hresponse
  cases huav.symm.trans huav'
  exact Run.out_bind_eq_ok.mpr ⟨_, hresponse, congrArg Run.out hsave⟩

end PointCodec

section Clients

variable [Module Zq ECP2] [DecidableEq FP12] {M : Miracl ECP ECP2 FP12}
variable {C : PointCodec ECP ECP2} {n tm : Int32} {msg : ℤ} {s : Sys ECP ECP2}

omit [Module Zq ECP2] [DecidableEq FP12] in
theorem carries_carry {a : Action} : Carries M C C.carry C.carry2 s a :=
  ⟨fun _ _ ↦ rfl, fun _ _ ↦ rfl⟩

omit [Module Zq ECP2] in
/-- A UAV with a key serves with the parameters of the TA. -/
theorem Matches.serving_of_keyed {a : Session} {ρ₁ : ECP → ECP} {ρ₂ : ECP2 → ECP2}
    (h : Matches M C n tm msg ρ₁ ρ₂ s a) (htm : 2 ≤ tm.toInt) {ta : TA ECP2} (hta : s.ta = some ta)
    {i : ℕ} (hi : s.Keyed i) : s.uavs i = .serving (ta.pp.mapPoints ρ₂) (s.key i) := by
  obtain ⟨ta', pp, id, uav, hta', huav, hissued⟩ := hi
  cases hta.symm.trans hta'
  have hholds := h.uavs i
  rw [huav] at hholds
  rw [huav, Sys.key_of_serving huav]
  cases hholds with
  | keyed hta' _ =>
      cases hta.symm.trans hta'
      rfl
  | keyless hnil => exact absurd hnil ((h.sized htm hta).c1_ne_nil htm hissued)

/-- **A client chooses the message and the threshold.**  Take any state of any run in which no fault
has stopped a process.  A client registers under the ID of the head and saves the response as the
aggregator does.  It asks `t` UAVs that have keys under different IDs to sign a message `m`, where
`m` and `2 ≤ t ≤ tm` are its own choice, and runs `AggSig` on what it reads.  If the points of these
partial signatures arrive unchanged, all of this returns, and `Verify` accepts the result for `m`
and `t`.  The proof has no need of `_hfaults`: it is there because the model lets a process go on
that a fault would have stopped, and such a process answers nobody. -/
theorem client_chooses_threshold [Module Zq ECP] (htm : 2 ≤ tm.toInt)
    (h : (protocol M C n tm msg).Reach (fun _ _ ↦ True) (Sys.init ECP ECP2) s)
    (_hfaults : s.faults = []) {ta : TA ECP2} (hta : s.ta = some ta) (hg : ta.pp.g ≠ curveOrder)
    {t : Int32} (ht : 2 ≤ t.toInt) (hle : t.toInt ≤ tm.toInt) {ports : ℕ → ℕ}
    (hkeyed : ∀ k < count t, s.Keyed (ports k))
    (hID : ∀ k < count t, (s.key (ports k)).ID ≠ curveOrder)
    (hdistinct : ∀ k < count t, ∀ l < count t, k ≠ l →
      (s.key (ports k)).ID ≠ (s.key (ports l)).ID)
    {sk_v : Fin curveOrder} (hterm : ∃ k, (M.verifyHash ta.pp (randMpz sk_v)).out = .ok k)
    {m : ℤ} (hpoint : ∀ k < count t, ∀ sig, (M.sign ta.pp (s.key (ports k)) t m).out = .ok sig →
      C.carry sig.sig = sig.sig) (u : ℕ → Fin curveOrder) (e : Fin curveOrder) :
    ∃ head sigmas PK_v sigma,
      (C.register ta ⟨isUAVh⟩ u >>= C.saveHead).out = .ok head ∧
      List.Forall₂ (fun i sigma ↦ ∃ pp uav, s.uavs i = .serving pp uav ∧
        (M.signService pp uav ⟨mpzToStr m, t⟩ >>= fun sig ↦ C.readParSig (C.writeParSig sig)).out =
          .ok sigma) ((List.range (count t)).map ports) sigmas ∧
      (powMpz head.pp_AGG.g (randMpz sk_v) head.pp_AGG.q).out = .ok PK_v ∧
      (M.aggSig sigmas head.pp_AGG head.uavH PK_v e).out = .ok sigma ∧
      (M.verify sigma (randMpz sk_v) ta.pp m t).out = .ok 1 := by
  obtain ⟨a, -, hmatches⟩ := Matches.of_reach htm (h.mono fun _ _ _ ↦ carries_carry)
  obtain ⟨r, hr⟩ := hmatches.exists_drawn
  cases hr.ta_eq htm hta
  let pp := M.issuedParams n tm r.g r.alpha r.key.b
  have hq : pp.q = curveOrder := rfl
  -- The keys that the UAVs at the ports drew are those of a KeyGen of its own.
  let key : KeyDraws :=
    { r.key with ID := fun k ↦ r.key.ID (ports k), u := fun k ↦ r.key.u (ports k) }
  have hkey : ∀ k < count t, s.key (ports k) =
      issuedUAV pp tm key.b key.d (randMpz (key.ID k)) (key.u k) :=
    fun k hk ↦ hr.key_eq htm hta (hkeyed k hk)
  have hdrawn : ∀ k < count t, randMpz (key.ID k) = (s.key (ports k)).ID :=
    fun k hk ↦ (congrArg UAV.ID (hkey k hk)).symm
  have hcount : count (t - 1) ≤ count (pp.tm - 1) := count_sub_one_mono (by omega) hle
  obtain ⟨sigma, hsigma, haccepts⟩ := M.exists_aggSig_accepts n ht hle hg key
    (fun k hk ↦ (hdrawn k hk).symm ▸ hID k hk)
    (fun k hk l hl hne ↦ by rw [hdrawn k hk, hdrawn l hl]; exact hdistinct k hk l hl hne)
    hterm headID m e
  refine ⟨_, M.issuedSigs pp key t m, _, sigma, C.out_register_saveHead _ u, ?_,
    congrArg Run.out (powMpz_order _ (randMpz_pos sk_v).le), hsigma, haccepts⟩
  · rw [Miracl.issuedSigs, List.forall₂_map_left_iff, List.forall₂_map_right_iff,
      List.forall₂_same]
    intro k hk
    have hk := List.mem_range.mp hk
    refine ⟨_, _, hmatches.serving_of_keyed htm hta (hkeyed k hk), ?_⟩
    have hsign := M.sign_issuedUAV hq hcount key.b key.d (randMpz (key.ID k)) (key.u k) m
    have hsent := hpoint k hk _ (by rw [hkey k hk]; exact congrArg Run.out hsign)
    rw [Miracl.signService, strToMpz_mpzToStr, pure_bind, hkey k hk]
    refine Run.out_bind_eq_ok.mpr ⟨_, congrArg Run.out hsign, ?_⟩
    rw [C.readParSig_writeParSig, ParSig.mapPoint, hsent]
    rfl

/-- Read for the numbers of the source: the UAVs `3` and `5` sign `5` for the threshold `2`, where
the TA has set `t = 11`. -/
theorem client_chooses_threshold_exponents :
    ∃ (s : Sys Zq Zq) (sigma : Sigma Zq), (protocol exponents exponentCodec 52 20 123456789).Reach
        (fun _ _ ↦ True) (Sys.init Zq Zq) s ∧ s.ta = some unitTA ∧ unitTA.t = 11 ∧
      s.faults = [] ∧ (exponents.verify sigma 1 unitTA.pp 5 2).out = .ok 1 := by
  obtain ⟨s, -, -, hown, hta, hserving, -⟩ :=
    exists_reach_checks_exponents fun (_ : Sys Zq Zq) _ h ↦ h
  have hreach := hown.mono fun _ _ _ ↦ True.intro
  obtain ⟨-, hfaults⟩ := Inv.faultless (by decide) Inv.init rfl
    (hown.mono fun _ _ ha ↦ ⟨ha.proper, ha.not_malformed 20⟩)
  have hlt : ∀ k < count 2, 3 + 2 * k < 11 := by
    intro k hk
    have hk : k < 2 := hk
    omega
  have horder := lt_curveOrder
  have hone := randMpz_zero
  have hIDs (k : ℕ) (hk : k < count 2) := ID_key_of_serving (hlt k hk) (hserving _ (hlt k hk))
  obtain ⟨_, _, _, sigma, -, -, -, -, haccepts⟩ := client_chooses_threshold (t := 2) (m := 5)
    (by decide) hreach hfaults hta (hone.trans_lt (by omega)).ne (by decide) (by decide)
    (fun k hk ↦ ⟨_, _, _, _, hta, hserving _ (hlt k hk), issued_countedKey _⟩)
    (fun k hk ↦ by rw [hIDs k hk]; have := hlt k hk; omega)
    (fun k hk l hl hne ↦ by rw [hIDs k hk, hIDs l hl]; omega)
    (exists_sharedHash_exponents rfl _ (randMpz_pos 0).le)
    (fun _ _ _ _ ↦ carry_exponentCodec _) (fun _ ↦ 0) 0
  exact ⟨s, sigma, hreach, hta, rfl, hfaults, haccepts⟩

/-- **Three registrations are enough to sign.**  In any state of any run, a client that registers
under two IDs that differ modulo the order, and under the ID of the head, computes from the scalars
in the three responses a signature on any message that `Verify` accepts, for every threshold. -/
theorem registrations_sign [Module Zq ECP] (htm : 2 ≤ tm.toInt)
    (h : (protocol M C n tm msg).Reach (fun _ _ ↦ True) (Sys.init ECP ECP2) s) {ta : TA ECP2}
    (hta : s.ta = some ta) (hg : ta.pp.g ≠ curveOrder) {x y : ℤ} (hx : 0 ≤ x) (hy : 0 ≤ y)
    (hne : ¬ (curveOrder : ℤ) ∣ x - y) (hheadx : x ≠ headID) (hheady : y ≠ headID)
    (u u' u'' : ℕ → Fin curveOrder) :
    ∃ pp pp' uav uav' head,
      (C.register ta ⟨mpzToStr x⟩ u >>= C.saveUAV x).out = .ok (pp, uav) ∧
      (C.register ta ⟨mpzToStr y⟩ u' >>= C.saveUAV y).out = .ok (pp', uav') ∧
      (C.register ta ⟨isUAVh⟩ u'' >>= C.saveHead).out = .ok head ∧
      ∀ (t : Int32) (m sk_v : ℤ), 2 ≤ t.toInt → t.toInt ≤ tm.toInt →
        (∃ k, (M.verifyHash ta.pp sk_v).out = .ok k) →
        (M.verify (forge t (ecpMul (M.hashToPoint m curveOrder)
          (rep (recoverSecret head.uavH.alpha uav uav' t)))) sk_v ta.pp m t).out = .ok 1 := by
  obtain ⟨a, -, hmatches⟩ := Matches.of_reach htm (h.mono fun _ _ _ ↦ carries_carry)
  obtain ⟨r, hr⟩ := hmatches.exists_drawn
  cases hr.ta_eq htm hta
  have hq : (M.issuedTA n tm msg r.ta).pp.q = curveOrder := rfl
  have huav := getUAV_coefficients hq tm r.key.b r.key.d hx u
  have huav' := getUAV_coefficients hq tm r.key.b r.key.d hy u'
  have hg : ¬ (curveOrder : ℤ) ∣ randMpz r.g :=
    cast_ne_zero_iff.mp ((cast_randMpz_eq_zero_iff r.g).not.mpr hg)
  have hne : (x : Zq) ≠ y := by
    rw [← sub_ne_zero, ← Int.cast_sub]
    exact cast_ne_zero_iff.mpr hne
  refine ⟨_, _, _, _, _, C.out_register_saveUAV hheadx (congrArg Run.out huav),
    C.out_register_saveUAV hheady (congrArg Run.out huav'), C.out_register_saveHead _ u'', ?_⟩
  intro t m sk_v ht hle hterm
  have hsecret := M.recoverSecret_issuedUAV n (by omega) hle r.alpha hg r.key.b r.key.d hne u u'
  have haccepts := M.accepts_forge n ht hle r.g r.alpha r.key.b m hterm
  rw [← hsecret, ← ecpMul_rep] at haccepts
  exact haccepts

/-- Read for the numbers of the source: the IDs `1` and `2`, and the largest threshold. -/
theorem registrations_sign_exponents :
    ∃ (s : Sys Zq Zq) (sigma : Sigma Zq), (protocol exponents exponentCodec 52 20 123456789).Reach
        (fun _ _ ↦ True) (Sys.init Zq Zq) s ∧ s.ta = some unitTA ∧
      (exponents.verify sigma 1 unitTA.pp 5 20).out = .ok 1 := by
  obtain ⟨s, -, -, hreach, hta, -⟩ :=
    exists_reach_checks_exponents fun (_ : Sys Zq Zq) _ _ ↦ True.intro
  have horder := lt_curveOrder
  have hone := randMpz_zero
  obtain ⟨_, _, _, _, _, -, -, -, haccepts⟩ := registrations_sign (x := 1) (y := 2) (by decide)
    hreach hta (hone.trans_lt (by omega)).ne zero_le_one zero_le_two
    (not_order_dvd (by decide) (by decide)) (by decide) (by decide) (fun _ ↦ 0) (fun _ ↦ 0)
    fun _ ↦ 0
  exact ⟨s, _, hreach, hta, haccepts 20 5 1 (by decide) (by decide)
    (exists_sharedHash_exponents rfl _ zero_le_one)⟩

end Clients

end Fussion
