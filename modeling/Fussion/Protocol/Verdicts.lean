import Fussion.Acceptance
import Fussion.Outcomes
import Fussion.Protocol.Failures

/-!
# The verdicts of a run

What the checks of a run say, whatever fails in it.  When the aggregator has all `t` partial
signatures, a check ends as the single process `fussion` does on the draws of the run, and
otherwise it reads past the end of the IDs (`protocol_simulates`).

All checks of a run agree, although each is made with a key of its own and on a signature that was
transformed for it (`verdicts_agree`), and what they agree on is determined by the draws
(`verdict_accepts_iff`).
-/

namespace Fussion

variable {ECP ECP2 FP12 : Type} [AddCommGroup ECP] [AddCommGroup ECP2] [CommGroup FP12]

/-! ## The draws of a run -/

/-- What the TA draws. -/
def Draws.ta (r : Draws) : TADraws where
  g := r.g
  alpha := r.alpha
  b := r.key.b
  d := r.key.d

/-- The TA and the keys of the UAVs come from these draws. -/
structure Drawn (M : Miracl ECP ECP2 FP12) (n tm : Int32) (msg : ℤ) (r : Draws)
    (s : Sys ECP ECP2) : Prop where
  ta : ∀ ta, s.ta = some ta → (M.initParams n tm msg r.ta).out = .ok ta
  key : ∀ ta i, s.ta = some ta → s.Keyed i →
    (getUAV ta.pp ta.d ta.b (randMpz (r.key.ID i)) (r.key.u i)).out = .ok (s.key i)

/-- A check after what the session finds: it ends as `fussion` does on the draws of the run, the key
of the verifier and the draw of the aggregator, or it reads out of range. -/
def Judged [DecidableEq FP12] (M : Miracl ECP ECP2 FP12) (n tm : Int32) (msg : ℤ) (r : Draws) :
    Finding → Check ECP → Prop
  | .complete, c => c.verdict =
      (M.fussion n tm (tm / 2 + 1) msg { r with sk_v := c.sk_v, e := c.e }).out
  | .short, c => c.verdict = .fault .outOfRange

section

variable [DecidableEq FP12] {M : Miracl ECP ECP2 FP12} {C : PointCodec ECP ECP2}
variable {n tm : Int32} {msg : ℤ} {s : Sys ECP ECP2} {a : Session}

/-- Every run has draws. -/
theorem Matches.exists_drawn {ρ₁ : ECP → ECP} {ρ₂ : ECP2 → ECP2}
    (h : Matches M C n tm msg ρ₁ ρ₂ s a) : ∃ r, Drawn M n tm msg r s := by
  cases hta : s.ta with
  | none =>
      refine ⟨unitDraws fun _ ↦ 0, fun ta h' ↦ ?_, fun ta i h' ↦ ?_⟩ <;>
      · rw [hta] at h'
        cases h'
  | some ta =>
      obtain ⟨r, hr⟩ := h.ta ta hta
      have hkey : ∀ i, ∃ id u, s.Keyed i →
          (getUAV ta.pp ta.d ta.b (randMpz id) u).out = .ok (s.key i) := by
        intro i
        by_cases hi : s.Keyed i
        · obtain ⟨ta', pp, id, uav, hta', huav, u, hu⟩ := hi
          cases hta.symm.trans hta'
          exact ⟨id, u, fun _ ↦ (Sys.key_of_serving huav).symm ▸ hu⟩
        · exact ⟨0, fun _ ↦ 0, fun hi' ↦ absurd hi' hi⟩
      choose ID u hkey using hkey
      let key : KeyDraws := { b := r.b, d := r.d, ID := ID, u := u, IDh := 0 }
      refine ⟨{ g := r.g, alpha := r.alpha, key := key, sk_v := 0, e := 0 },
        fun ta' h' ↦ ?_, fun ta' i h' hi ↦ ?_⟩
      · cases hta.symm.trans h'
        exact hr
      · cases hta.symm.trans h'
        exact hkey i hi

end

/-! ## The single process and `fussion` -/

namespace Miracl

variable (M : Miracl ECP ECP2 FP12)

/-- `collectSig` looks at the first `t` keys only. -/
theorem collectSig_congr (pp : Params ECP2) {UAVs UAVs' : List UAV} {t : Int32} (msg : ℤ)
    (h : ∀ i < count t, ∃ uav, UAVs[i]? = some uav ∧ UAVs'[i]? = some uav) :
    M.collectSig pp UAVs t msg = M.collectSig pp UAVs' t msg := by
  refine Run.upTo_congr (fun i hi ↦ ?_) []
  obtain ⟨uav, huav, huav'⟩ := h i hi
  funext sigmas
  rw [subscript_of_getElem? huav, subscript_of_getElem? huav']

/-- On keys that were issued on its draws, the single process is `fussion`. -/
theorem fussion_eq_singleProcess [Module Zq ECP2] [DecidableEq FP12] {n tm : Int32}
    (htm : 2 ≤ tm.toInt) (hn : (tm / 2 + 1).toInt ≤ n.toInt) (msg : ℤ) (r : Draws)
    {UAVs : List UAV}
    (hkeys : ∀ i < count (tm / 2 + 1), UAVs[i]? = some (issuedUAV
      (M.issuedParams n tm r.g r.alpha r.key.b) tm r.key.b r.key.d (randMpz (r.key.ID i))
      (r.key.u i))) :
    M.fussion n tm (tm / 2 + 1) msg r =
      M.singleProcess (M.issuedTA n tm msg r.ta) UAVs (randMpz r.sk_v) r.e := by
  have hcollect := M.collectSig_congr (M.issuedParams n tm r.g r.alpha r.key.b) msg fun i hi ↦
    ⟨_, issuedUAVs_getElem? (M.issuedParams n tm r.g r.alpha r.key.b) r.key
      (hi.trans_le (count_mono hn)), hkeys i hi⟩
  rw [M.fussion_eq_collectSig htm _ msg r rfl, hcollect, singleProcess, singleSigma, bind_assoc]
  simp only [bind_assoc]
  rfl

end Miracl

/-! ## The checks of a run -/

section Checks

variable [Module Zq ECP2] [DecidableEq FP12] {M : Miracl ECP ECP2 FP12} {C : PointCodec ECP ECP2}
variable {n tm : Int32} {msg : ℤ} {s : Sys ECP ECP2} {a : Session} {r : Draws}

omit [DecidableEq FP12] in
/-- The TA of a run, on its draws. -/
theorem Drawn.ta_eq (hr : Drawn M n tm msg r s) (htm : 2 ≤ tm.toInt) {ta : TA ECP2}
    (hta : s.ta = some ta) : ta = M.issuedTA n tm msg r.ta :=
  eq_issuedTA htm (hr.ta ta hta)

omit [DecidableEq FP12] in
/-- The key of a UAV, on the draws of the run. -/
theorem Drawn.key_eq (hr : Drawn M n tm msg r s) (htm : 2 ≤ tm.toInt) {ta : TA ECP2}
    (hta : s.ta = some ta) {i : ℕ} (hi : s.Keyed i) :
    s.key i = issuedUAV (M.issuedParams n tm r.g r.alpha r.key.b) tm r.key.b r.key.d
      (randMpz (r.key.ID i)) (r.key.u i) := by
  have hok := hr.key ta i hta hi
  rw [hr.ta_eq htm hta] at hok
  have hissued := getUAV_coefficients (show (M.issuedTA n tm msg r.ta).pp.q = curveOrder from rfl)
    tm r.key.b r.key.d (randMpz_pos (r.key.ID i)).le (r.key.u i)
  exact (Outcome.ok.inj ((congrArg Run.out hissued).symm.trans hok)).symm

/-- A check on all `t` partial signatures ends as `fussion` does. -/
theorem CheckHolds.verdict_of_complete {c : Check ECP}
    (hc : CheckHolds M id id s (List.range (count (tm / 2 + 1))) c)
    (hr : Drawn M n tm msg r s) (htm : 2 ≤ tm.toInt) (hn : (tm / 2 + 1).toInt ≤ n.toInt)
    (hkeyed : ∀ i < count (tm / 2 + 1), s.Keyed i) : c.verdict =
      (M.fussion n tm (tm / 2 + 1) msg { r with sk_v := c.sk_v, e := c.e }).out := by
  obtain ⟨ta, hta, hsigma, hverdict⟩ := hc
  have hissued := hr.ta_eq htm hta
  have ht : ta.t = tm / 2 + 1 := by rw [hissued]; rfl
  rw [← ht] at hsigma
  have hsingle : (M.singleProcess ta (s.keys (count ta.t)) (randMpz c.sk_v) c.e).out =
      c.verdict := by
    rw [Miracl.singleProcess, Run.out_bind_of_ok (Transformed.out_singleSigma hsigma), hverdict,
      Params.mapPoints_id]
  have hkeys : ∀ i < count (tm / 2 + 1), (s.keys (count ta.t))[i]? = some (issuedUAV
      (M.issuedParams n tm r.g r.alpha r.key.b) tm r.key.b r.key.d (randMpz (r.key.ID i))
      (r.key.u i)) := by
    intro i hi
    rw [ht, Sys.keys, List.getElem?_map, List.getElem?_range hi, Option.map_some,
      hr.key_eq htm hta (hkeyed i hi)]
  rw [← hsingle, M.fussion_eq_singleProcess htm hn msg { r with sk_v := c.sk_v, e := c.e } hkeys,
    hissued]
  rfl

omit [Module Zq ECP2] in
/-- A check on fewer reads past the end of the IDs. -/
theorem CheckHolds.verdict_of_short {ρ₁ : ECP → ECP} {ρ₂ : ECP2 → ECP2} {ports : List ℕ}
    {c : Check ECP} (hc : CheckHolds M ρ₁ ρ₂ s ports c) {ta : TA ECP2} (hta : s.ta = some ta)
    (hq : ta.pp.q = curveOrder) (hlt : ports.length < count ta.t) :
    c.verdict = .fault .outOfRange := by
  obtain ⟨ta', hta', ⟨sigmas, PK_v, sigma₀, hsigmas, -, hagg, hsigma⟩, hverdict⟩ := hc
  cases hta.symm.trans hta'
  have hIDs := ((ensures_aggSig M sigmas ta.pp _ PK_v c.e).post hagg).2.2
  have hlen : c.sigma.IDs.length = ports.length := by
    rw [hsigma, Sigma.mapPoints, hIDs, hsigmas.length_eq]
  have hq' : (ta.pp.mapPoints ρ₂).q = curveOrder := hq
  rw [hverdict]
  exact M.out_verify_of_short hq' ta.M (hlen ▸ hlt)

/-- What the session finds of a check is how it ended. -/
theorem Matches.judged (h : Matches M C n tm msg id id s a)
    (hrun : Session.Run (count (tm / 2 + 1)) a) (hr : Drawn M n tm msg r s) (htm : 2 ≤ tm.toInt)
    (hn : (tm / 2 + 1).toInt ≤ n.toInt) {c : Check ECP} (hc : c ∈ s.checks) :
    Judged M n tm msg r (Session.finding (count (tm / 2 + 1)) a.collected) c := by
  have hcheck := h.checks c hc
  by_cases hlen : a.collected.length = count (tm / 2 + 1)
  · have hall := hrun.collected_eq hlen
    rw [Session.finding, if_pos hlen]
    refine CheckHolds.verdict_of_complete (hall ▸ hcheck) hr htm hn fun i hi ↦ ?_
    have hkeyed := hrun.inv.keyed i (hall ▸ List.mem_range.mpr hi)
    rwa [h.keyed] at hkeyed
  · rw [Session.finding, if_neg hlen]
    obtain ⟨ta, hta, -⟩ := hcheck
    have hissued := hr.ta_eq htm hta
    refine (h.checks c hc).verdict_of_short hta (by rw [hissued]; rfl) ?_
    rw [h.ta_t hta]
    have hle := hrun.sublist.length_le
    rw [List.length_range] at hle
    exact lt_of_le_of_ne hle hlen

/-- The hash that `AggSig` needed for a check is the verifier's. -/
theorem CheckHolds.exists_verifyHash {ρ₁ : ECP → ECP} {ρ₂ : ECP2 → ECP2} {ports : List ℕ}
    {c : Check ECP} (hc : CheckHolds M ρ₁ ρ₂ s ports c) (hr : Drawn M n tm msg r s)
    (htm : 2 ≤ tm.toInt) : ∃ h, (M.verifyHash (M.issuedParams n tm r.g r.alpha r.key.b)
      (randMpz c.sk_v)).out = .ok h := by
  obtain ⟨ta, hta, ⟨sigmas, PK_v, sigma₀, -, hPK, hagg, -⟩, -⟩ := hc
  cases hr.ta_eq htm hta
  obtain ⟨h, hh⟩ := M.exists_verifyHash_of_aggSig rfl (randMpz_pos _).le (cast_rep _)
    (randMpz_pos _).le hPK hagg
  exact ⟨h, hh⟩

omit [Module Zq ECP2] in
/-- The signatures that a serving aggregator holds. -/
theorem Matches.signed_of_serving (h : Matches M C n tm msg id id s a) {head : Head ECP ECP2}
    (hagg : s.agg = .serving head) : a.closed = true ∧
      List.Forall₂ (fun i sigma ↦ ∃ ta, s.ta = some ta ∧
        (M.sign ta.pp (s.key i) ta.t ta.M).out = .ok sigma) a.collected head.sigmas := by
  cases h.agg_at hagg with
  | serving hclosed hta hsigmas =>
      refine ⟨hclosed, List.Forall₂.imp ?_ hsigmas⟩
      rintro i sigma ⟨pp, uav, sig, huav, hsig, rfl⟩
      rw [ParSig.mapPoint_id, Sys.key_of_serving huav]
      exact ⟨_, hta, hsig⟩
  | servingUnset hports hclosed =>
      rw [hports]
      exact ⟨hclosed, .nil⟩

end Checks

/-! ## What the checks say -/

section Main

variable [Module Zq ECP2] [DecidableEq FP12] {M : Miracl ECP ECP2 FP12} {C : PointCodec ECP ECP2}
variable {n tm : Int32} {msg : ℤ} {s : Sys ECP ECP2}

/-- **Runs in which anything may fail.**  Take any run in which points arrive unchanged: any
registration and any call may fail, processes go on with their globals unset, UAVs may draw the ID
of the head, and there are any further requests in between.  Such a run follows a session of the
abstract model.  The UAVs with a key are those of the session.  The aggregator serves when the
session is closed, and holds the partial signatures that the collected UAVs make with their keys.
And every check that the session finds complete ended as the single process does on the draws of
the run, and every other check with a subscript out of range. -/
theorem protocol_simulates (htm : 2 ≤ tm.toInt) (hn : (tm / 2 + 1).toInt ≤ n.toInt)
    (h : (protocol M C n tm msg).Reach (Carries M C id id) (Sys.init ECP ECP2) s) :
    ∃ (a : Session) (r : Draws), Session.Run (count (tm / 2 + 1)) a ∧ Drawn M n tm msg r s ∧
      a.keyed = {i | s.Keyed i} ∧
      (∀ head, s.agg = .serving head → a.closed = true ∧
        List.Forall₂ (fun i sigma ↦ ∃ ta, s.ta = some ta ∧
          (M.sign ta.pp (s.key i) ta.t ta.M).out = .ok sigma) a.collected head.sigmas) ∧
      List.Forall₂ (Judged M n tm msg r) a.findings s.checks := by
  obtain ⟨a, hrun, hmatches⟩ := Matches.of_reach htm h
  obtain ⟨r, hr⟩ := hmatches.exists_drawn
  refine ⟨a, r, hrun, hr, hmatches.keyed, fun head ↦ hmatches.signed_of_serving, ?_⟩
  refine List.forall₂_iff_get.mpr ⟨hmatches.findings, fun i h₁ h₂ ↦ ?_⟩
  rw [(hrun.inv.findings _ (List.get_mem _ _)).2]
  exact hmatches.judged hrun hr htm hn (List.get_mem _ _)

/-- Read for the numbers of the source and the group of exponents, on a run with two checks, which
the session finds complete. -/
theorem protocol_simulates_exponents :
    ∃ s a r, Session.Run 11 a ∧ Drawn exponents 52 20 123456789 r s ∧
      s.ta = some unitTA ∧ s.checks.length = 2 ∧
      List.Forall₂ (Judged exponents 52 20 123456789 r) a.findings s.checks := by
  obtain ⟨s, c, c', hreach, hta, -, hchecks, -⟩ :=
    exists_reach_checks_exponents fun s a h ↦ (delivers_exponents s a h).carries
  obtain ⟨a, r, hrun, hr, -, -, hjudged⟩ := protocol_simulates (by decide) (by decide) hreach
  exact ⟨s, a, r, hrun, hr, hta, by rw [hchecks]; rfl, hjudged⟩

/-- **All checks of a run agree.**  In any such run every check accepts, rejects or reads out of
range, and all checks do the same, although the verifier draws a new key for each and the
aggregator a new mask. -/
theorem verdicts_agree [Module Zq ECP] (htm : 2 ≤ tm.toInt)
    (hn : (tm / 2 + 1).toInt ≤ n.toInt)
    (h : (protocol M C n tm msg).Reach (Carries M C id id) (Sys.init ECP ECP2) s) :
    (∀ c ∈ s.checks, c.verdict = .ok 1 ∨ c.verdict = .ok 0 ∨ c.verdict = .fault .outOfRange) ∧
    ∀ c ∈ s.checks, ∀ c' ∈ s.checks, c.verdict = c'.verdict := by
  obtain ⟨a, hrun, hmatches⟩ := Matches.of_reach htm h
  obtain ⟨r, hr⟩ := hmatches.exists_drawn
  have ht := toInt_threshold htm
  have hterm {c : Check ECP} (hc : c ∈ s.checks) := (hmatches.checks c hc).exists_verifyHash hr htm
  have hjudged {c : Check ECP} (hc : c ∈ s.checks) := hmatches.judged hrun hr htm hn hc
  cases hfinding : Session.finding (count (tm / 2 + 1)) a.collected with
  | complete =>
      rw [hfinding] at hjudged
      constructor
      · intro c hc
        obtain ⟨_, hok⟩ := hterm hc
        obtain ⟨h, -, hh, hgcd⟩ := M.sharedHash_of_ok rfl (randMpz_pos _).le hok
        have hout := M.out_fussion_of_le (r := { r with sk_v := c.sk_v, e := c.e }) msg hh hgcd
          (t := tm / 2 + 1) (by omega) (by omega) hn
        rw [← hjudged hc] at hout
        exact hout.imp id .inl
      · intro c hc c' hc'
        rw [hjudged hc, hjudged hc']
        exact M.out_fussion_congr (by omega) (by omega) hn msg rfl rfl rfl (hterm hc') (hterm hc)
  | short =>
      rw [hfinding] at hjudged
      refine ⟨fun c hc ↦ .inr (.inr (hjudged hc)), fun c hc c' hc' ↦ ?_⟩
      rw [hjudged hc, hjudged hc']

/-- Read for the numbers of the source, on two checks with two keys. -/
theorem verdicts_agree_exponents :
    ∃ s c c', (protocol exponents exponentCodec 52 20 123456789).Reach
        (Carries exponents exponentCodec id id) (Sys.init Zq Zq) s ∧
      s.checks = [c, c'] ∧ c.sk_v ≠ c'.sk_v ∧ c.verdict = c'.verdict := by
  obtain ⟨s, c, c', hreach, -, -, hchecks, hne⟩ :=
    exists_reach_checks_exponents fun s a h ↦ (delivers_exponents s a h).carries
  have hagree := (verdicts_agree (by decide) (by decide) hreach).2
  refine ⟨s, c, c', hreach, hchecks, hne, hagree c ?_ c' ?_⟩ <;>
  · rw [hchecks]
    simp

/-- **What the checks of a run say.**  If the pairing is nondegenerate and the UAVs that were asked
have different IDs, then a check that is not out of range accepts or rejects, and it accepts exactly
when neither the base nor one of these IDs is the order, or one of the first `t - 1` coefficients
`b` of the TA is, or the hash of the message vanishes. -/
theorem verdict_accepts_iff [Module Zq ECP] (htm : 2 ≤ tm.toInt)
    (hn : (tm / 2 + 1).toInt ≤ n.toInt) (hnondeg : ∀ P, (∀ Q, M.e P Q = 1) → P = 0)
    (hgen₁ : M.generator ≠ 0) (hgen₂ : ∀ Q, ∃ c : Zq, Q = c • M.generator2)
    (h : (protocol M C n tm msg).Reach (Carries M C id id) (Sys.init ECP ECP2) s)
    (hdistinct : ∀ i < count (tm / 2 + 1), ∀ j < count (tm / 2 + 1), i ≠ j →
      (s.key i).ID ≠ (s.key j).ID)
    {c : Check ECP} (hc : c ∈ s.checks) (hfull : c.verdict ≠ .fault .outOfRange) :
    ∃ ta, s.ta = some ta ∧ (c.verdict = .ok 1 ∨ c.verdict = .ok 0) ∧
      (c.verdict = .ok 1 ↔
        (ta.pp.g ≠ curveOrder ∧ ∀ i < count ta.t, (s.key i).ID ≠ curveOrder) ∨
        (∃ j < count (ta.t - 1), ta.b.getD j 0 = curveOrder) ∨
        (curveOrder : ℤ) ∣ M.hashToZp256 msg curveOrder) := by
  obtain ⟨a, hrun, hmatches⟩ := Matches.of_reach htm h
  obtain ⟨r, hr⟩ := hmatches.exists_drawn
  have ht := toInt_threshold htm
  have hcheck := hmatches.checks c hc
  have hjudged := hmatches.judged hrun hr htm hn hc
  obtain ⟨ta, hta, -⟩ := id hcheck
  have hissued := hr.ta_eq htm hta
  by_cases hlen : a.collected.length = count (tm / 2 + 1)
  · rw [Session.finding, if_pos hlen] at hjudged
    have hID : ∀ i < count (tm / 2 + 1), (s.key i).ID = randMpz (r.key.ID i) := by
      intro i hi
      have hkeyed := hrun.inv.keyed i (hrun.collected_eq hlen ▸ List.mem_range.mpr hi)
      rw [hmatches.keyed] at hkeyed
      rw [hr.key_eq htm hta hkeyed]
      rfl
    have hterm := hcheck.exists_verifyHash hr htm
    have hle : (tm / 2 + 1).toInt ≤ tm.toInt := by omega
    obtain ⟨rk, h, hrk, hverdict, haccepts⟩ := M.fussion_accepts_iff_combined hnondeg hgen₂
      (by omega) hle hn msg { r with sk_v := c.sk_v, e := c.e } hterm
    rw [← hjudged] at hverdict haccepts
    have hdrawn : ∀ i < count (tm / 2 + 1), ∀ j < count (tm / 2 + 1), i ≠ j →
        randMpz (r.key.ID i) ≠ randMpz (r.key.ID j) := by
      intro i hi j hj hij
      rw [← hID i hi, ← hID j hj]
      exact hdistinct i hi j hj hij
    refine ⟨ta, hta, hverdict, haccepts.trans (Iff.trans (M.combined_issued_eq_iff hgen₁
      (toNat_randMpz_ne_zero r.alpha) (cast_rep _) r.key (by omega) hle hdrawn hrk c.e msg) ?_)⟩
    rw [hissued]
    refine or_congr (and_congr (cast_randMpz_eq_zero_iff r.g).not ?_) (or_congr_left ?_)
    · exact forall₂_congr fun i hi ↦ by rw [hID i hi]
    · refine exists_congr fun j ↦ and_congr_right fun hj ↦ ?_
      have hj : j < count (tm - 1) := hj.trans_le (count_sub_one_mono (by omega) hle)
      change _ ↔ (coefficients tm r.key.b).getD j 0 = curveOrder
      rw [coefficients, getD_map_range _ _ hj]
  · rw [Session.finding, if_neg hlen] at hjudged
    exact absurd hjudged hfull

/-- Read for the numbers of the source and the group of exponents: eleven UAVs with the IDs
`1, …, 11`, and a check that accepts. -/
theorem verdict_accepts_iff_exponents :
    ∃ s, (protocol exponents exponentCodec 52 20 123456789).Reach
        (Carries exponents exponentCodec id id) (Sys.init Zq Zq) s ∧
      (∀ i < 11, (s.key i).ID = i + 1) ∧ ∃ c ∈ s.checks, c.verdict = .ok 1 := by
  obtain ⟨s, c, c', hdelivers, hta, hserving, hchecks, -⟩ :=
    exists_reach_checks_exponents delivers_exponents
  have hreach := hdelivers.mono fun _ _ ↦ Delivers.carries
  have hIDs (i : ℕ) (hi : i < 11) := ID_key_of_serving hi (hserving i hi)
  have hc : c ∈ s.checks := by rw [hchecks]; exact List.mem_cons_self
  have hfull := (Inv.of_reach hdelivers).ensures_verdict (by decide) hc
  have hdistinct : ∀ i < 11, ∀ j < 11, i ≠ j → (s.key i).ID ≠ (s.key j).ID := by
    intro i hi j hj hij
    rw [hIDs i hi, hIDs j hj]
    omega
  obtain ⟨ta, hta', -, haccepts⟩ := verdict_accepts_iff (by decide) (by decide)
    exponents_nondegenerate one_ne_zero (fun Q ↦ ⟨Q, (mul_one Q).symm⟩) hreach hdistinct hc hfull
  cases hta.symm.trans hta'
  refine ⟨s, hreach, hIDs, c, hc, haccepts.mpr (.inl ⟨?_, fun i hi ↦ ?_⟩)⟩
  · exact (randMpz_zero.trans_lt (by exact_mod_cast one_lt_curveOrder)).ne
  · have hlt := lt_curveOrder
    have hi : i < 11 := hi
    rw [hIDs i hi]
    omega

end Main

end Fussion
