import Fussion.Digest
import Fussion.Protocol.Faultless
import Fussion.Protocol.Verdicts

/-!
# Progress from every state

Runs do not get stuck.  However far the processes have come, as long as no fault has stopped one,
the four programs alone bring a UAV and the aggregator to serving and the verifier to being ready,
where a verifier that has made its check is started again.  Then one more check can be made.

What can stand in the way is the loop of `hashToCoprime`, which the aggregator runs for the key of
the verifier: `check_possible_iff` says that a check with a key is possible, from any state without
faults of any run, exactly when that loop ends.  A verifier that waits for an aggregator in that
loop gives the call up.
-/

namespace Fussion

variable {ECP ECP2 FP12 : Type} [AddCommGroup ECP] [AddCommGroup ECP2] [CommGroup FP12]

/-- What the four programs do by themselves, where only a call of `Tran` may be given up and only
the verifier is started again. -/
def Action.Unaided (a : Action) : Prop := a.Own ∨ a = .verifyFailed

omit [AddCommGroup ECP] [AddCommGroup ECP2] in
theorem Action.Own.unaided (_ : Sys ECP ECP2) (a : Action) (h : a.Own) : a.Unaided := .inl h

theorem Action.Unaided.proper {a : Action} (h : a.Unaided) : a.Proper := by
  rcases h with h | rfl
  · exact h.proper
  · trivial

theorem Action.Unaided.not_malformed {a : Action} (h : a.Unaided) (tm : Int32) :
    ¬ a.Malformed tm := by
  rcases h with h | rfl
  · exact h.not_malformed tm
  · exact id

/-! ## The keys of a TA -/

section Keys

variable [Module Zq ECP2] {M : Miracl ECP ECP2 FP12} {n tm : Int32} {msg : ℤ} {ta : TA ECP2}

/-- The TA issues a key for every ID. -/
theorem exists_issued (htm : 2 ≤ tm.toInt) (hta : ∃ r, (M.initParams n tm msg r).out = .ok ta)
    (id : Fin curveOrder) : ∃ uav, ta.Issued id uav := by
  obtain ⟨r, hr⟩ := hta
  cases eq_issuedTA htm hr
  exact ⟨_, fun _ ↦ 0, congrArg Run.out (getUAV_coefficients rfl tm _ _ (randMpz_pos id).le _)⟩

/-- Every key that it has issued signs its message for its threshold. -/
theorem TA.Issued.sign [Module Zq ECP] (htm : 2 ≤ tm.toInt)
    (hta : ∃ r, (M.initParams n tm msg r).out = .ok ta) {id : Fin curveOrder} {uav : UAV}
    (h : ta.Issued id uav) : ∃ sig, (M.sign ta.pp uav ta.t ta.M).out = .ok sig := by
  obtain ⟨r, hr⟩ := hta
  cases eq_issuedTA htm hr
  obtain ⟨u, hu⟩ := h
  have hissued := getUAV_coefficients (show (M.issuedTA n tm msg r).pp.q = curveOrder from rfl)
    tm r.b r.d (randMpz_pos id).le u
  cases (congrArg Run.out hissued).symm.trans hu
  obtain ⟨sig, hsig⟩ := sign_issuedTA M n htm msg r (randMpz id) u
  exact ⟨sig, congrArg Run.out hsig⟩

end Keys

/-! ## The processes -/

section Processes

variable [Module Zq ECP2] [DecidableEq FP12] {M : Miracl ECP ECP2 FP12} {C : PointCodec ECP ECP2}
variable {n tm : Int32} {msg : ℤ} {s₀ s : Sys ECP ECP2} {ta : TA ECP2}

/-- Neither the invariant nor the absence of faults is lost. -/
theorem Inv.unaided (h : Inv M C n tm msg C.carry C.carry2 s₀) (htm : 2 ≤ tm.toInt)
    (hnil : s₀.faults = [])
    (hreach : (protocol M C n tm msg).Reach (fun _ a ↦ a.Unaided) s₀ s) :
    Inv M C n tm msg C.carry C.carry2 s ∧ s.faults = [] :=
  h.faultless htm hnil (hreach.mono fun _ _ ha ↦ ⟨ha.proper, ha.not_malformed tm⟩)

/-- Any UAV can be brought to serving. -/
theorem Inv.reach_uav (h : Inv M C n tm msg C.carry C.carry2 s) (htm : 2 ≤ tm.toInt)
    (hta : s.ta = some ta) (i : ℕ) :
    ∃ id uav, ta.Issued id uav ∧ (protocol M C n tm msg).Reach (fun _ a ↦ a.Unaided) s
      (s.setUAV i (.serving (ta.pp.mapPoints C.carry2) uav)) := by
  have hp := h.uavs i
  generalize huav : s.uavs i = p at hp
  cases hp with
  | start =>
      obtain ⟨uav, hkey⟩ := exists_issued htm (h.ta ta hta) (countedID 0)
      exact ⟨_, uav, hkey, reach_registerUAV Action.Own.unaided .refl hta huav
        (countedID_ne_headID 0) hkey⟩
  | sent hid =>
      obtain ⟨uav, hkey⟩ := exists_issued htm (h.ta ta hta) _
      exact ⟨_, uav, hkey, reach_registered Action.Own.unaided .refl hta hid huav hkey⟩
  | replied hta' hkey hsave =>
      cases hta.symm.trans hta'
      exact ⟨_, _, hkey, reach_own_bind Action.Own.unaided .refl (.saveUAV huav) trivial
        (congrArg Run.out hsave)⟩
  | serving hta' hkey =>
      cases hta.symm.trans hta'
      refine ⟨_, _, hkey, ?_⟩
      rw [Sys.setUAV, ← huav, Function.update_eq_self]
      exact .refl

/-- So can the first `k` of them. -/
theorem Inv.reach_uavs (h : Inv M C n tm msg C.carry C.carry2 s) (htm : 2 ≤ tm.toInt)
    (hnil : s.faults = []) (hta : s.ta = some ta) (k : ℕ) :
    ∃ uavs, (protocol M C n tm msg).Reach (fun _ a ↦ a.Unaided) s { s with uavs := uavs } ∧
      ∀ i < k, ∃ id uav, ta.Issued id uav ∧
        uavs i = .serving (ta.pp.mapPoints C.carry2) uav := by
  induction k with
  | zero => exact ⟨s.uavs, .refl, fun i hi ↦ absurd hi i.not_lt_zero⟩
  | succ k ih =>
      obtain ⟨uavs, hreach, hserving⟩ := ih
      obtain ⟨hinv, -⟩ := h.unaided htm hnil hreach
      obtain ⟨id, uav, hkey, hk⟩ := hinv.reach_uav htm hta k
      refine ⟨_, hreach.trans hk, fun i hi ↦ ?_⟩
      by_cases hik : i = k
      · rw [hik, Function.update_self]
        exact ⟨id, uav, hkey, rfl⟩
      · rw [Function.update_of_ne hik]
        exact hserving i (lt_of_le_of_ne (Nat.le_of_lt_succ hi) hik)

omit [Module Zq ECP2] in
/-- The aggregator can be brought to serving, when the UAVs serve. -/
theorem Inv.reach_agg (h : Inv M C n tm msg C.carry C.carry2 s) (hta : s.ta = some ta)
    (hsign : ∀ i < count ta.t, ∃ uav sig, s.uavs i = .serving (ta.pp.mapPoints C.carry2) uav ∧
      (M.sign ta.pp uav ta.t ta.M).out = .ok sig) :
    ∃ sigmas, (protocol M C n tm msg).Reach (fun _ a ↦ a.Unaided) s
      { s with agg := .serving (ta.head C.carry2 sigmas) } := by
  have hrest {i : ℕ} (hi : i ≤ count ta.t) {sigmas : List (ParSig ECP)}
      (hreach : (protocol M C n tm msg).Reach (fun _ a ↦ a.Unaided) s
        { s with agg := .collecting (ta.head C.carry2 sigmas) i none }) :=
    reach_serving Action.Own.unaided hi hreach hsign
  have hp := h.agg
  generalize hagg : s.agg = p at hp
  have hself : (protocol M C n tm msg).Reach (fun _ a ↦ a.Unaided) s { s with agg := p } :=
    hagg ▸ .refl
  cases hp with
  | start => exact hrest (Nat.zero_le _) (reach_getPpAndSk Action.Own.unaided .refl hta hagg)
  | sent => exact hrest (Nat.zero_le _) (reach_headRegistered Action.Own.unaided .refl hta hagg)
  | replied hta' hsave =>
      cases hta.symm.trans hta'
      exact hrest (Nat.zero_le _) (reach_own_bind Action.Own.unaided hself (.saveHead rfl) trivial
        (congrArg Run.out hsave))
  | idle hta' hi hsigmas =>
      cases hta.symm.trans hta'
      exact hrest hi hself
  | asked hta' hi hsigmas =>
      cases hta.symm.trans hta'
      obtain ⟨uav, sig, huav, hsig⟩ := hsign _ hi
      exact hrest hi (reach_signed Action.Own.unaided .refl hagg huav hsig)
  | answered hta' hi hsigmas hsigned hread =>
      cases hta.symm.trans hta'
      exact hrest hi (reach_collected Action.Own.unaided hread hself)
  | serving hta' hsigmas =>
      cases hta.symm.trans hta'
      exact ⟨_, hself⟩

/-- The verifier can be brought to being ready: a call that it waits for is given up, and a verifier
whose `main` is over is started again. -/
theorem Inv.reach_ready (h : Inv M C n tm msg C.carry C.carry2 s) (htm : 2 ≤ tm.toInt)
    (hta : s.ta = some ta) :
    (protocol M C n tm msg).Reach (fun _ a ↦ a.Unaided) s
      { s with ver := .ready (ta.verifier C.carry2) } := by
  have hkey := exists_issued htm (h.ta ta hta)
  have hgiveUp {v : Verifier ECP2} {sk_v : Fin curveOrder}
      {call : Call VerifyRequest (VerifyResponse × Fin curveOrder)}
      (hver : s.ver = .verifying v sk_v call) :
      (protocol M C n tm msg).Reach (fun _ a ↦ a.Unaided) s
        { s with ver := .ready (ta.verifier C.carry2) } := by
    have hdone : (protocol M C n tm msg).Reach (fun _ a ↦ a.Unaided) s { s with ver := .done v } :=
      System.Reach.refl.ok (.inr rfl) (.verifyFailed hver) rfl
    obtain ⟨uav, hkey⟩ := hkey 0
    have hready := reach_restart Action.Own.unaided hdone hta rfl hkey
    exact hready
  have hp := h.ver
  generalize hver : s.ver = p at hp
  have hself : (protocol M C n tm msg).Reach (fun _ a ↦ a.Unaided) s { s with ver := p } :=
    hver ▸ .refl
  cases hp with
  | start =>
      obtain ⟨uav, hkey⟩ := hkey 0
      exact reach_getParams Action.Own.unaided .refl hta hver hkey
  | sent =>
      obtain ⟨uav, hkey⟩ := hkey _
      exact reach_verifierRegistered Action.Own.unaided .refl hta hver hkey
  | replied hta' hsave =>
      cases hta.symm.trans hta'
      exact reach_own_bind Action.Own.unaided hself (.saveVerifier rfl) trivial
        (congrArg Run.out hsave)
  | ready hta' =>
      cases hta.symm.trans hta'
      exact hself
  | asked hta' hPK => exact hgiveUp hver
  | answered hta' hsigma hread => exact hgiveUp hver
  | done hta' =>
      obtain ⟨uav, hkey⟩ := hkey 0
      exact reach_restart Action.Own.unaided .refl hta hver hkey

/-- All of them together: then the aggregator serves and the verifier is ready. -/
theorem Inv.reach_serving_ready [Module Zq ECP] (h : Inv M C n tm msg C.carry C.carry2 s)
    (htm : 2 ≤ tm.toInt) (hnil : s.faults = []) (hta : s.ta = some ta) :
    ∃ uavs sigmas, (protocol M C n tm msg).Reach (fun _ a ↦ a.Unaided) s { s with
      uavs := uavs
      agg := .serving (ta.head C.carry2 sigmas)
      ver := .ready (ta.verifier C.carry2) } := by
  -- The UAVs first, since the aggregator waits for them.
  obtain ⟨uavs, huavs, hserving⟩ := h.reach_uavs htm hnil hta (count ta.t)
  obtain ⟨hinv₁, hnil₁⟩ := h.unaided htm hnil huavs
  have hsign : ∀ i < count ta.t, ∃ uav sig,
      uavs i = .serving (ta.pp.mapPoints C.carry2) uav ∧
        (M.sign ta.pp uav ta.t ta.M).out = .ok sig := by
    intro i hi
    obtain ⟨id, uav, hkey, huav⟩ := hserving i hi
    obtain ⟨sig, hsig⟩ := hkey.sign htm (h.ta ta hta)
    exact ⟨uav, sig, huav, hsig⟩
  obtain ⟨sigmas, hagg⟩ := hinv₁.reach_agg hta hsign
  obtain ⟨hinv₂, -⟩ := hinv₁.unaided htm hnil₁ hagg
  exact ⟨uavs, sigmas, (huavs.trans hagg).trans (hinv₂.reach_ready htm hta)⟩

omit [Module Zq ECP2] in
/-- The TA keeps its data. -/
theorem Enabled.ta_eq {a : Action} {x : Exec (Sys ECP ECP2)} {s' : Sys ECP ECP2}
    (he : Enabled M C n tm msg s a x) (hx : x.out = .ok s') (hta : s.ta = some ta) :
    s'.ta = some ta := by
  cases he with
  | initParams r hnone => cases hnone.symm.trans hta
  | _ => first
    | (cases hx; exact hta)
    | (obtain ⟨_, -, hs⟩ := Run.out_bind_eq_ok.mp hx; cases hs; exact hta)

omit [Module Zq ECP2] in
theorem reach_ta_eq {allowed : Sys ECP ECP2 → Action → Prop}
    (h : (protocol M C n tm msg).Reach allowed s₀ s) (hta : s₀.ta = some ta) : s.ta = some ta :=
  System.Reach.invariant (I := fun s ↦ s.ta = some ta) hta
    (fun hta _ he hx ↦ Enabled.ta_eq he hx hta) (fun hta _ _ _ ↦ hta) h

end Processes

/-! ## One more check -/

/-- The hash of the verifier's key ends unless the step of the loop divides the digest. -/
theorem Miracl.exists_verifyHash_iff (M : Miracl ECP ECP2 FP12) {pp : Params ECP2}
    (hq : pp.q = curveOrder) {sk_v : ℤ} (hsk : 0 ≤ sk_v) :
    (∃ h, (M.verifyHash pp sk_v).out = .ok h) ↔
      ¬ 254760293 ∣ M.digest (rep ((pp.beta : Zq) ^ sk_v.toNat)) := by
  rw [verifyHash, M.sharedHash_eq hq _ hsk, ← M.inc_dvd_hashToZp256_iff]
  constructor
  · rintro ⟨h, hh⟩
    exact M.not_dvd_of_hashToCoprime hh
  · intro hdvd
    obtain ⟨r, hr, -⟩ := M.hashToCoprime_eq_pure hdvd
    exact ⟨r, congrArg Run.out hr⟩

section Main

variable [Module Zq ECP] [Module Zq ECP2] [DecidableEq FP12] {M : Miracl ECP ECP2 FP12}
variable {C : PointCodec ECP ECP2} {n tm : Int32} {msg : ℤ} {s : Sys ECP ECP2} {ta : TA ECP2}

/-- **Runs do not get stuck.**  Take any state without faults of any run in which no registration
and no call of `sign` fails and no UAV draws the ID of the head, with any further requests in
between.  From there the four programs, of which the verifier may be started again, can make one
more check with a given key of the verifier and a given mask of the aggregator exactly when the loop
of `hashToCoprime` ends for that key.  Nothing is assumed of how points arrive: they decide what
the check says, not whether it is made. -/
theorem check_possible_iff (htm : 2 ≤ tm.toInt)
    (h : (protocol M C n tm msg).Reach (fun _ a ↦ a.Proper) (Sys.init ECP ECP2) s)
    (hfaults : s.faults = []) (hta : s.ta = some ta) (sk_v e : Fin curveOrder) :
    (∃ s' c, (protocol M C n tm msg).Reach (fun _ a ↦ a.Unaided) s s' ∧ s'.faults = [] ∧
      s'.checks = s.checks ++ [c] ∧ c.sk_v = sk_v ∧ c.e = e ∧
      (c.verdict = .ok 1 ∨ c.verdict = .ok 0)) ↔
    ¬ 254760293 ∣ M.digest (rep ((ta.pp.beta : Zq) ^ (randMpz sk_v).toNat)) := by
  have hinv := Inv.of_reach (h.mono fun _ _ ↦ delivers_carry)
  obtain ⟨hq, hsk, hbeta⟩ := hinv.scalars htm hta
  rw [← M.exists_verifyHash_iff hq (randMpz_pos sk_v).le]
  constructor
  · rintro ⟨s', c, hreach, -, hchecks, rfl, -⟩
    obtain ⟨hinv', -⟩ := hinv.unaided htm hfaults hreach
    have hc : c ∈ s'.checks := hchecks ▸ List.mem_concat_self
    obtain ⟨ta', hta', ⟨sigmas, PK_v, sigma₀, -, hPK, hagg, -⟩, -⟩ := hinv'.checks c hc
    cases (reach_ta_eq hreach hta).symm.trans hta'
    obtain ⟨k, hk⟩ := M.exists_verifyHash_of_aggSig hq hsk hbeta (randMpz_pos _).le hPK hagg
    exact ⟨k, hk⟩
  · intro hterm
    rw [M.verifyHash_eq_aggHash hq hsk (randMpz_pos sk_v).le hbeta (cast_rep _)] at hterm
    obtain ⟨uavs, sigmas, hready⟩ := hinv.reach_serving_ready htm hfaults hta
    obtain ⟨c, hc, he, -, -, hdone⟩ :=
      reach_check Action.Own.unaided hready hq hsk rfl rfl hterm e
    obtain ⟨hinv', hnil'⟩ := hinv.unaided htm hfaults hdone
    exact ⟨_, c, hdone, hnil', rfl, hc, he, hinv'.verdict_cases htm List.mem_concat_self⟩

/-- With the numbers of the source, a third check can be made after two, by a verifier that is
started again. -/
theorem check_possible_iff_exponents :
    ∃ s s' : Sys Zq Zq, (protocol exponents exponentCodec 52 20 123456789).Reach
        (fun _ a ↦ a.Proper) (Sys.init Zq Zq) s ∧
      (protocol exponents exponentCodec 52 20 123456789).Reach (fun _ a ↦ a.Unaided) s s' ∧
      s.checks.length = 2 ∧ s'.checks.length = 3 ∧ s'.faults = [] := by
  have hpos := (randMpz_pos 0).le
  have hdigest := (exponents.exists_verifyHash_iff (show unitTA.pp.q = curveOrder from rfl) hpos).mp
    (exists_sharedHash_exponents rfl _ hpos)
  obtain ⟨s, c, c', hown, hta, -, hchecks, -⟩ :=
    exists_reach_checks_exponents fun (_ : Sys Zq Zq) _ ha ↦ ha
  obtain ⟨-, hnil⟩ := Inv.unaided Inv.init (by decide) rfl (hown.mono Action.Own.unaided)
  have hreach := hown.mono fun _ _ ha ↦ ha.proper
  obtain ⟨s', c'', hreach', hnil', hchecks', -⟩ :=
    (check_possible_iff (by decide) hreach hnil hta 0 0).mpr hdigest
  refine ⟨s, s', hreach, hreach', ?_, ?_, hnil'⟩
  · rw [hchecks]
    rfl
  · rw [hchecks', hchecks]
    rfl

end Main

end Fussion
