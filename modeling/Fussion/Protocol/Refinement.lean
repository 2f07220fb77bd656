import Fussion.Protocol.Invariant

/-!
# The protocol refines the pipeline

In a run whose points arrive unchanged, every check of the verifier is a check of the
single-process pipeline of `fussion` on the TA's own data: the `Sigma` that the verifier reads is
the one that `collectSig` and `AggSig` compute from the keys of the UAVs, and `Verify` is
evaluated on the TA's parameters, message and threshold (`protocol_refines`).
-/

namespace Fussion

variable {ECP ECP2 FP12 : Type} [AddCommGroup ECP] [AddCommGroup ECP2] [CommGroup FP12]

namespace Miracl

variable (M : Miracl ECP ECP2 FP12)

/-- `collectSig` on keys with which every signature is made. -/
theorem out_collectSig {pp : Params ECP2} {UAVs : List UAV} {t : Int32} {msg : ℤ}
    {sigs : List (ParSig ECP)}
    (h : List.Forall₂ (fun i sig ↦ ∃ uav, UAVs[i]? = some uav ∧ (M.sign pp uav t msg).out = .ok sig)
      (List.range (count t)) sigs) : (M.collectSig pp UAVs t msg).out = .ok sigs := by
  have hlen : count t = sigs.length := by rw [← h.length_eq, List.length_range]
  refine (Run.upTo_out (fun i ↦ sigs.take i) List.take_zero fun i hi ↦ ?_).trans ?_
  · have hi' : i < sigs.length := hlen ▸ hi
    obtain ⟨uav, huav, hsign⟩ := h.get (by rwa [List.length_range]) hi'
    rw [List.get_eq_getElem, List.getElem_range] at huav
    rw [subscript_of_getElem? huav, pure_bind]
    refine Run.out_bind_eq_ok.mpr ⟨_, hsign, ?_⟩
    rw [Run.out_pure, List.get_eq_getElem, List.take_append_getElem hi']
  · rw [hlen, List.take_length]

end Miracl

/-! ## The keys of the UAVs -/

/-- The key that the UAV `i` signs with. -/
def Sys.key (s : Sys ECP ECP2) (i : ℕ) : UAV :=
  match s.uavs i with
  | .serving _ uav => uav
  | _ => UAV.unset

/-- The keys of the first `k` UAVs. -/
def Sys.keys (s : Sys ECP ECP2) (k : ℕ) : List UAV := (List.range k).map s.key

omit [AddCommGroup ECP] [AddCommGroup ECP2] in
theorem Sys.key_of_serving {s : Sys ECP ECP2} {i : ℕ} {pp : Params ECP2} {uav : UAV}
    (h : s.uavs i = .serving pp uav) : s.key i = uav := by
  rw [key, h]

/-- The globals that the verifier has set. -/
def VerifierProc.globals : VerifierProc ECP2 → Option (Verifier ECP2)
  | .ready v => some v
  | .verifying v _ _ => some v
  | .done v => some v
  | _ => none

/-! ## Refinement -/

section

variable {M : Miracl ECP ECP2 FP12} {s : Sys ECP ECP2} {ta : TA ECP2}

/-- The collected signatures are those of `collectSig` on the keys of the UAVs. -/
theorem Collected.out_collectSig {sigmas : List (ParSig ECP)}
    (h : Collected M id s ta (count ta.t) sigmas) :
    (M.collectSig ta.pp (s.keys (count ta.t)) ta.t ta.M).out = .ok sigmas := by
  refine M.out_collectSig (List.forall₂_iff_get.mpr ⟨h.length_eq, fun i h₁ h₂ ↦ ?_⟩)
  obtain ⟨pp, uav, sig, huav, hsign, heq⟩ := h.get h₁ h₂
  rw [ParSig.mapPoint_id] at heq
  have hi : i < count ta.t := by rwa [List.length_range] at h₁
  rw [List.get_eq_getElem, List.getElem_range] at huav ⊢
  refine ⟨uav, ?_, heq ▸ hsign⟩
  rw [Sys.keys, List.getElem?_map, List.getElem?_range hi, Option.map_some,
    Sys.key_of_serving huav]

/-- The transformed signature is that of the single process. -/
theorem Transformed.out_singleSigma {sk_v e : Fin curveOrder} {sigma : Sigma ECP}
    (h : Transformed M id s ta sk_v e sigma) :
    (M.singleSigma ta (s.keys (count ta.t)) (randMpz sk_v) e).out = .ok sigma := by
  obtain ⟨sigmas, PK_v, sigma₀, hsigmas, hPK, hagg, rfl⟩ := h
  rw [Sigma.mapPoints_id]
  exact Run.out_bind_eq_ok.mpr ⟨sigmas, hsigmas.out_collectSig,
    Run.out_bind_eq_ok.mpr ⟨PK_v, hPK, hagg⟩⟩

/-- Every UAV whose signature was collected serves. -/
theorem Transformed.serving {ρ₁ : ECP → ECP} {sk_v e : Fin curveOrder} {sigma : Sigma ECP}
    (h : Transformed M ρ₁ s ta sk_v e sigma) {i : ℕ} (hi : i < count ta.t) :
    ∃ pp, s.uavs i = .serving pp (s.key i) := by
  obtain ⟨sigmas, -, -, hsigmas, -⟩ := h
  have h₁ : i < (List.range (count ta.t)).length := by rwa [List.length_range]
  obtain ⟨pp, uav, -, huav, -⟩ := hsigmas.get h₁ (hsigmas.length_eq ▸ h₁)
  rw [List.get_eq_getElem, List.getElem_range] at huav
  exact ⟨pp, (Sys.key_of_serving huav).symm ▸ huav⟩

end

variable (M : Miracl ECP ECP2 FP12) (C : PointCodec ECP ECP2)

theorem ta_t_of_initParams {n tm : Int32} {msg : ℤ} {r : TADraws} {ta : TA ECP2}
    (h : (M.initParams n tm msg r).out = .ok ta) : ta.M = msg ∧ ta.t = tm / 2 + 1 := by
  obtain ⟨⟨sk, pp⟩, -, h⟩ := Run.out_bind_eq_ok.mp h
  obtain ⟨PK, -, h⟩ := Run.out_bind_eq_ok.mp h
  cases h
  exact ⟨rfl, rfl⟩

/-- **The distributed protocol refines the single process.**  Take any run, from any number of
UAVs and with any further requests in between, in which no registration and no call of `sign`
fails, no UAV draws the ID of the head, and the points that are sent arrive unchanged.  Then what
the verifier holds are the TA's parameters, message and threshold; the UAVs sign with keys that
the TA has issued; and every check is that of the single process on the TA's own data, with the
same keys of the UAVs, the same key of the verifier and the same draw of the aggregator: the
`Sigma` is the same, and so is what `Verify` does with it. -/
theorem protocol_refines [DecidableEq FP12] (n tm : Int32) (msg : ℤ) {s : Sys ECP ECP2}
    (h : (protocol M C n tm msg).Reach (Delivers M C id id) (Sys.init ECP ECP2) s) :
    (∀ v, s.ver.globals = some v →
      ∃ ta, s.ta = some ta ∧ v.params = ta.pp ∧ v.Msg = ta.M ∧ v.T = ta.t) ∧
    ∀ c ∈ s.checks, ∃ ta r, s.ta = some ta ∧ (M.initParams n tm msg r).out = .ok ta ∧
      ta.M = msg ∧ ta.t = tm / 2 + 1 ∧
      (∀ i < count ta.t, s.uavs i = .serving ta.pp (s.key i) ∧ ∃ id, ta.Issued id (s.key i)) ∧
      (M.singleSigma ta (s.keys (count ta.t)) (randMpz c.sk_v) c.e).out = .ok c.sigma ∧
      (M.singleProcess ta (s.keys (count ta.t)) (randMpz c.sk_v) c.e).out = c.verdict := by
  have hinv := Inv.of_reach h
  refine ⟨fun v hv ↦ ?_, fun c hc ↦ ?_⟩
  · have hver := hinv.ver
    cases hver' : s.ver with
    | start => rw [hver'] at hv; cases hv
    | registering id call => rw [hver'] at hv; cases hv
    | ready v' =>
        rw [hver'] at hv hver
        cases hv
        cases hver with
        | ready hta => exact ⟨_, hta, Params.mapPoints_id _, rfl, rfl⟩
    | verifying v' sk_v call =>
        rw [hver'] at hv hver
        cases hv
        cases hver with
        | asked hta hPK => exact ⟨_, hta, Params.mapPoints_id _, rfl, rfl⟩
        | answered hta hsigma hread => exact ⟨_, hta, Params.mapPoints_id _, rfl, rfl⟩
    | done v' =>
        rw [hver'] at hv hver
        cases hv
        cases hver with
        | done hta => exact ⟨_, hta, Params.mapPoints_id _, rfl, rfl⟩
  · obtain ⟨ta, hta, hsigma, hverdict⟩ := hinv.checks c hc
    obtain ⟨r, hr⟩ := hinv.ta ta hta
    obtain ⟨hM, ht⟩ := ta_t_of_initParams M hr
    refine ⟨ta, r, hta, hr, hM, ht, fun i hi ↦ ?_, hsigma.out_singleSigma, ?_⟩
    · obtain ⟨pp, huav⟩ := hsigma.serving hi
      have huavInv := hinv.uav_at huav
      cases huavInv with
      | serving hta' hissued =>
          cases hta.symm.trans hta'
          rw [Params.mapPoints_id] at huav
          exact ⟨huav, _, hissued⟩
    · rw [hverdict, Params.mapPoints_id, Miracl.singleProcess,
        Run.eq_ret_of_out hsigma.out_singleSigma]
      rfl

theorem delivers_exponents (s : Sys Zq Zq) (a : Action) (h : a.Own) :
    Delivers exponents exponentCodec id id s a :=
  ⟨h.proper, fun P _ ↦ carry_exponentCodec P, fun P _ ↦ carry2_exponentCodec P⟩

/-- The IDs in the run of `exists_reach_checks_exponents`. -/
theorem ID_key_of_serving {s : Sys Zq Zq} {pp : Params Zq} {i : ℕ} (hi : i < 11)
    (h : s.uavs i = .serving pp (countedKey i)) : (s.key i).ID = i + 1 := by
  rw [Sys.key_of_serving h, ID_countedKey hi]

/-- `protocol_refines` in a complete run with the numbers of the source, where the UAVs have the IDs
`1, …, 11`. -/
theorem protocol_refines_exponents :
    ∃ (s : Sys Zq Zq) (c : Check Zq) (ta : TA Zq),
      (protocol exponents exponentCodec 52 20 123456789).Reach
        (Delivers exponents exponentCodec id id) (Sys.init Zq Zq) s ∧
      c ∈ s.checks ∧ s.ta = some ta ∧ ta.t = 11 ∧ (∀ i < 11, (s.key i).ID = i + 1) ∧
      (exponents.singleSigma ta (s.keys (count ta.t)) (randMpz c.sk_v) c.e).out = .ok c.sigma ∧
      (exponents.singleProcess ta (s.keys (count ta.t)) (randMpz c.sk_v) c.e).out = c.verdict := by
  obtain ⟨s, c, c', hreach, -, hserving, hchecks, -⟩ :=
    exists_reach_checks_exponents delivers_exponents
  have hc : c ∈ s.checks := hchecks ▸ List.mem_cons_self
  have hIDs (i : ℕ) (hi : i < 11) := ID_key_of_serving hi (hserving i hi)
  obtain ⟨-, hall⟩ := protocol_refines exponents exponentCodec 52 20 123456789 hreach
  obtain ⟨ta, -, hta, -, -, ht, -, hsigma, hverdict⟩ := hall c hc
  exact ⟨s, c, ta, hreach, hc, hta, ht, hIDs, hsigma, hverdict⟩

end Fussion
