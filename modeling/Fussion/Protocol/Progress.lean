import Fussion.Protocol.System

/-!
# Complete runs

The single-process pipeline on the data of the TA, and the runs of the protocol that compute the
same: the TA starts, the UAVs register one after the other, the aggregator registers and collects,
the verifier registers and checks.  `exists_reach_checks` says that there are such runs, and so
statements about all runs are about more than the runs that get stuck.

The lemmas take the actions of a run to be allowed whenever they are `Own`: actions of the four
programs in which no call fails and no UAV draws the ID of the head, and new starts of the verifier.
Nothing is assumed of how points arrive: what is sent arrives as `carry` and `carry2` of itself.
-/

namespace Fussion

variable {ECP ECP2 FP12 : Type} [AddCommGroup ECP] [AddCommGroup ECP2] [CommGroup FP12]

/-! ## The single process -/

namespace Miracl

variable (M : Miracl ECP ECP2 FP12)

/-- `collectSig` and `AggSig` on the data of the TA, as `fussion` calls them. -/
def singleSigma (ta : TA ECP2) (UAVs : List UAV) (sk_v : ℤ) (e : Fin curveOrder) :
    Exec (Sigma ECP) := do
  let sigmas ← M.collectSig ta.pp UAVs ta.t ta.M
  let PK_v ← powMpz ta.pp.g sk_v ta.pp.q
  M.aggSig sigmas ta.pp { ID := headID, alpha := ta.sk } PK_v e

/-- The same with `Verify` after it. -/
def singleProcess [DecidableEq FP12] (ta : TA ECP2) (UAVs : List UAV) (sk_v : ℤ)
    (e : Fin curveOrder) : Exec ℤ := do
  let sigma ← M.singleSigma ta UAVs sk_v e
  M.verify sigma sk_v ta.pp ta.M ta.t

end Miracl

/-- The TA has made this key for a UAV that drew the ID. -/
def TA.Issued (ta : TA ECP2) (id : Fin curveOrder) (uav : UAV) : Prop :=
  ∃ u, (getUAV ta.pp ta.d ta.b (randMpz id) u).out = .ok uav

/-! ## Runs of the four programs -/

/-- An action of the four programs, where no call fails and no UAV draws the ID of the head, or a
new start of the verifier. -/
def Action.Own : Action → Prop
  | .registerUAV _ id => randMpz id ≠ headID
  | .registerFailed _ => False
  | .collectFailed _ => False
  | .verifyFailed => False
  | .registerOther _ _ => False
  | .signOther _ _ => False
  | .tranOther _ _ => False
  | _ => True

section Steps

variable [DecidableEq FP12] {M : Miracl ECP ECP2 FP12} {C : PointCodec ECP ECP2}
variable {n tm : Int32} {msg : ℤ} {allowed : Sys ECP ECP2 → Action → Prop}
variable {s₀ s : Sys ECP ECP2} {ta : TA ECP2}

theorem reach_own (hown : ∀ s a, a.Own → allowed s a)
    (h : (protocol M C n tm msg).Reach allowed s₀ s) {a : Action} {x : Exec (Sys ECP ECP2)}
    {s' : Sys ECP ECP2} (he : Enabled M C n tm msg s a x) (ha : a.Own) (hx : x.out = .ok s') :
    (protocol M C n tm msg).Reach allowed s₀ s' :=
  h.ok (hown s a ha) he hx

/-- The actions that wait for a result and store it. -/
theorem reach_own_bind (hown : ∀ s a, a.Own → allowed s a)
    (h : (protocol M C n tm msg).Reach allowed s₀ s) {a : Action} {A : Type} {x : Exec A}
    {f : A → Sys ECP ECP2} (he : Enabled M C n tm msg s a (x >>= fun y ↦ pure (f y)))
    (ha : a.Own) {y : A} (hx : x.out = .ok y) :
    (protocol M C n tm msg).Reach allowed s₀ (f y) :=
  reach_own hown h he ha (Run.out_bind_eq_ok.mpr ⟨y, hx, rfl⟩)

/-! ### Registrations -/

/-- A UAV that has sent its request gets its key. -/
theorem reach_registered (hown : ∀ s a, a.Own → allowed s a)
    (h : (protocol M C n tm msg).Reach allowed s₀ s) (hta : s.ta = some ta) {i : ℕ}
    {id : Fin curveOrder} (hid : randMpz id ≠ headID)
    (huav : s.uavs i = .registering id (.sent ⟨mpzToStr (randMpz id)⟩)) {uav : UAV}
    (hkey : ta.Issued id uav) :
    (protocol M C n tm msg).Reach allowed s₀
      (s.setUAV i (.serving (ta.pp.mapPoints C.carry2) uav)) := by
  obtain ⟨u, hu⟩ := hkey
  obtain ⟨response, hresponse⟩ := C.exists_register hu
  obtain ⟨uav', hu', hsave⟩ := C.saveUAV_of_register hid hresponse
  cases hu.symm.trans hu'
  have h₁ := reach_own_bind hown h (.registerForUAV u hta huav) trivial hresponse
  have h₂ := reach_own_bind hown h₁ (.saveUAV (Sys.uavs_setUAV_self _ _ _)) trivial
    (congrArg Run.out hsave)
  simpa only [Sys.setUAV_setUAV] using h₂

/-- A UAV registers. -/
theorem reach_registerUAV (hown : ∀ s a, a.Own → allowed s a)
    (h : (protocol M C n tm msg).Reach allowed s₀ s) (hta : s.ta = some ta) {i : ℕ}
    (hstart : s.uavs i = .start) {id : Fin curveOrder} (hid : randMpz id ≠ headID) {uav : UAV}
    (hkey : ta.Issued id uav) :
    (protocol M C n tm msg).Reach allowed s₀
      (s.setUAV i (.serving (ta.pp.mapPoints C.carry2) uav)) := by
  have h₁ := reach_own hown h (.registerUAV i id hstart) hid rfl
  have h₂ := reach_registered hown h₁ hta hid (Sys.uavs_setUAV_self _ _ _) hkey
  simpa only [Sys.setUAV_setUAV] using h₂

/-- An aggregator that has sent its request gets the key of the head. -/
theorem reach_headRegistered (hown : ∀ s a, a.Own → allowed s a)
    (h : (protocol M C n tm msg).Reach allowed s₀ s) (hta : s.ta = some ta)
    (hagg : s.agg = .registering (.sent ⟨mpzToStr headID⟩)) :
    (protocol M C n tm msg).Reach allowed s₀
      { s with agg := .collecting (ta.head C.carry2 []) 0 none } := by
  have hresponse := congrArg Run.out (C.register_headID ta fun _ ↦ 0)
  have hsave := C.saveHead_of_register hresponse
  have h₁ := reach_own_bind hown h (.registerForAgg (fun _ ↦ 0) hta hagg) trivial hresponse
  exact reach_own_bind hown h₁ (.saveHead rfl) trivial (congrArg Run.out hsave)

/-- The aggregator registers. -/
theorem reach_getPpAndSk (hown : ∀ s a, a.Own → allowed s a)
    (h : (protocol M C n tm msg).Reach allowed s₀ s) (hta : s.ta = some ta)
    (hstart : s.agg = .start) :
    (protocol M C n tm msg).Reach allowed s₀
      { s with agg := .collecting (ta.head C.carry2 []) 0 none } := by
  have h₁ := reach_own hown h (.getPpAndSk hstart) trivial (Run.out_pure _)
  have h₂ := reach_headRegistered hown h₁ hta rfl
  exact h₂

/-- A verifier that has sent its request gets the parameters. -/
theorem reach_verifierRegistered (hown : ∀ s a, a.Own → allowed s a)
    (h : (protocol M C n tm msg).Reach allowed s₀ s) (hta : s.ta = some ta) {id : Fin curveOrder}
    (hver : s.ver = .registering id (.sent ⟨mpzToStr (randMpz id)⟩)) {uav : UAV}
    (hkey : ta.Issued id uav) :
    (protocol M C n tm msg).Reach allowed s₀ { s with ver := .ready (ta.verifier C.carry2) } := by
  obtain ⟨u, hu⟩ := hkey
  obtain ⟨response, hresponse⟩ := C.exists_register hu
  have hsave := C.saveVerifier_of_register hresponse
  have h₁ := reach_own_bind hown h (.registerForVerifier u hta hver) trivial hresponse
  exact reach_own_bind hown h₁ (.saveVerifier rfl) trivial (congrArg Run.out hsave)

/-- The verifier registers. -/
theorem reach_getParams (hown : ∀ s a, a.Own → allowed s a)
    (h : (protocol M C n tm msg).Reach allowed s₀ s) (hta : s.ta = some ta)
    (hstart : s.ver = .start) {id : Fin curveOrder} {uav : UAV} (hkey : ta.Issued id uav) :
    (protocol M C n tm msg).Reach allowed s₀ { s with ver := .ready (ta.verifier C.carry2) } := by
  have h₁ := reach_own hown h (.getParams id hstart) trivial (Run.out_pure _)
  have h₂ := reach_verifierRegistered hown h₁ hta rfl hkey
  exact h₂

/-- A verifier whose `main` is over is started again and registers. -/
theorem reach_restart (hown : ∀ s a, a.Own → allowed s a)
    (h : (protocol M C n tm msg).Reach allowed s₀ s) (hta : s.ta = some ta) {v : Verifier ECP2}
    (hdone : s.ver = .done v) {id : Fin curveOrder} {uav : UAV} (hkey : ta.Issued id uav) :
    (protocol M C n tm msg).Reach allowed s₀ { s with ver := .ready (ta.verifier C.carry2) } := by
  have h₁ := reach_own hown h (.restart hdone) trivial (Run.out_pure _)
  have h₂ := reach_getParams hown h₁ hta rfl hkey
  exact h₂

/-! ### Partial signatures -/

/-- The aggregator reads an answer. -/
theorem reach_collected (hown : ∀ s a, a.Own → allowed s a) {i : ℕ} {sigmas : List (ParSig ECP)}
    {response : SignResponse} {sigma : ParSig ECP} (hread : C.readParSig response = pure sigma)
    (h : (protocol M C n tm msg).Reach allowed s₀
      { s with agg := .collecting (ta.head C.carry2 sigmas) i (some (.replied response)) }) :
    (protocol M C n tm msg).Reach allowed s₀
      { s with agg := .collecting (ta.head C.carry2 (sigmas ++ [sigma])) (i + 1) none } := by
  have hone : C.collectOne (.reply response) sigmas = pure (sigmas ++ [sigma], none) := by
    rw [PointCodec.collectOne, hread, pure_bind]
  exact reach_own_bind hown h (.collected rfl) trivial (congrArg Run.out hone)

/-- A UAV that has been asked answers, and the aggregator reads the answer. -/
theorem reach_signed (hown : ∀ s a, a.Own → allowed s a)
    (h : (protocol M C n tm msg).Reach allowed s₀ s) {i : ℕ} {sigmas : List (ParSig ECP)}
    (hagg : s.agg = .collecting (ta.head C.carry2 sigmas) i
      (some (.sent ⟨mpzToStr ta.M, ta.t⟩))) {uav : UAV}
    (huav : s.uavs i = .serving (ta.pp.mapPoints C.carry2) uav) {sig : ParSig ECP}
    (hsig : (M.sign ta.pp uav ta.t ta.M).out = .ok sig) :
    (protocol M C n tm msg).Reach allowed s₀ { s with
      agg := .collecting (ta.head C.carry2 (sigmas ++ [sig.mapPoint C.carry])) (i + 1) none } := by
  have hsign : (M.signService (ta.pp.mapPoints C.carry2) uav ⟨mpzToStr ta.M, ta.t⟩).out =
      .ok sig := by
    rw [Miracl.signService, strToMpz_mpzToStr, pure_bind]
    exact hsig
  exact reach_collected hown (C.readParSig_writeParSig sig)
    (reach_own_bind hown h (.sign hagg huav) trivial hsign)

/-- The aggregator collects `k` partial signatures. -/
theorem reach_collect (hown : ∀ s a, a.Own → allowed s a) (k : ℕ) {i : ℕ}
    (hi : i + k ≤ count ta.t) {sigmas : List (ParSig ECP)}
    (h : (protocol M C n tm msg).Reach allowed s₀
      { s with agg := .collecting (ta.head C.carry2 sigmas) i none })
    (hsign : ∀ j < i + k, ∃ uav sig, s.uavs j = .serving (ta.pp.mapPoints C.carry2) uav ∧
      (M.sign ta.pp uav ta.t ta.M).out = .ok sig) :
    ∃ sigmas', sigmas'.length = sigmas.length + k ∧ (protocol M C n tm msg).Reach allowed s₀
      { s with agg := .collecting (ta.head C.carry2 sigmas') (i + k) none } := by
  induction k with
  | zero => exact ⟨sigmas, rfl, h⟩
  | succ k ih =>
      obtain ⟨sigmas', hlen, hreach⟩ := ih (by omega) fun j hj ↦ hsign j (by omega)
      obtain ⟨uav, sig, huav, hsig⟩ := hsign (i + k) (by omega)
      have hlt : i + k < count ta.t := by omega
      have hasked := reach_own hown hreach (.collect rfl hlt) trivial rfl
      refine ⟨_, ?_, reach_signed hown hasked rfl huav hsig⟩
      rw [List.length_append, hlen, List.length_singleton]
      omega

/-- The aggregator collects what is missing and serves. -/
theorem reach_serving (hown : ∀ s a, a.Own → allowed s a) {i : ℕ} (hi : i ≤ count ta.t)
    {sigmas : List (ParSig ECP)}
    (h : (protocol M C n tm msg).Reach allowed s₀
      { s with agg := .collecting (ta.head C.carry2 sigmas) i none })
    (hsign : ∀ j < count ta.t, ∃ uav sig, s.uavs j = .serving (ta.pp.mapPoints C.carry2) uav ∧
      (M.sign ta.pp uav ta.t ta.M).out = .ok sig) :
    ∃ sigmas', (protocol M C n tm msg).Reach allowed s₀
      { s with agg := .serving (ta.head C.carry2 sigmas') } := by
  obtain ⟨k, hk⟩ := Nat.exists_eq_add_of_le hi
  obtain ⟨sigmas', -, hreach⟩ := reach_collect hown k hk.ge h fun j hj ↦ hsign j (hk ▸ hj)
  exact ⟨sigmas', reach_own hown hreach (.startServerTran rfl hk.le) trivial rfl⟩

/-! ### Checks -/

/-- The verifier checks what the aggregator makes of the collected signatures. -/
theorem reach_verifySignature (hown : ∀ s a, a.Own → allowed s a)
    (h : (protocol M C n tm msg).Reach allowed s₀ s) {sigmas : List (ParSig ECP)}
    (hagg : s.agg = .serving (ta.head C.carry2 sigmas))
    (hver : s.ver = .ready (ta.verifier C.carry2)) {sk_v e : Fin curveOrder} {PK_v : ℤ}
    {sigma : Sigma ECP} (hPK : (powMpz ta.pp.g (randMpz sk_v) ta.pp.q).out = .ok PK_v)
    (hsigma : (M.aggSig sigmas ta.pp { ID := headID, alpha := ta.sk } PK_v e).out = .ok sigma) :
    (protocol M C n tm msg).Reach allowed s₀ { s with
      ver := .done (ta.verifier C.carry2)
      checks := s.checks ++ [⟨sk_v, e, sigma.mapPoints C.carry,
        (M.verify (sigma.mapPoints C.carry) (randMpz sk_v) (ta.pp.mapPoints C.carry2) ta.M
          ta.t).out⟩] } := by
  have htran : (M.tranService (ta.head C.carry2 sigmas) ⟨mpzToStr PK_v⟩ e).out = .ok sigma := by
    rw [Miracl.tranService, strToMpz_mpzToStr, pure_bind]
    exact hsigma
  have h₁ := reach_own_bind hown h (.verifySignature sk_v hver) trivial
    (Run.out_bind_eq_ok.mpr ⟨PK_v, hPK, rfl⟩)
  have h₂ := reach_own_bind hown h₁ (.tran e hagg rfl) trivial htran
  exact reach_own_bind hown h₂ (.verify rfl) trivial (congrArg Run.out (C.readSigma_writeSigma _))

/-- A serving aggregator and a ready verifier make a check, if the hash of the key ends. -/
theorem reach_check [Module Zq ECP] (hown : ∀ s a, a.Own → allowed s a)
    (h : (protocol M C n tm msg).Reach allowed s₀ s) (hq : ta.pp.q = curveOrder) (hsk : 0 ≤ ta.sk)
    {sigmas : List (ParSig ECP)} (hagg : s.agg = .serving (ta.head C.carry2 sigmas))
    (hver : s.ver = .ready (ta.verifier C.carry2)) {sk_v : Fin curveOrder}
    (hterm : ∃ k, (M.aggHash ta.pp ta.sk (rep ((ta.pp.g : Zq) ^ (randMpz sk_v).toNat))).out = .ok k)
    (e : Fin curveOrder) :
    ∃ c : Check ECP, c.sk_v = sk_v ∧ c.e = e ∧ c.sigma.IDs = sigmas.map ParSig.ID ∧
      c.verdict = (M.verify c.sigma (randMpz sk_v) (ta.pp.mapPoints C.carry2) ta.M ta.t).out ∧
      (protocol M C n tm msg).Reach allowed s₀ { s with
        ver := .done (ta.verifier C.carry2)
        checks := s.checks ++ [c] } := by
  obtain ⟨k, hk⟩ := hterm
  obtain ⟨_, -, hhash, hgcd⟩ := M.sharedHash_of_ok hq hsk hk
  obtain ⟨rk, hrk, -⟩ := M.reKey_eq hq hsk hhash hgcd
  have hPK := powMpz_order ta.pp.g (randMpz_pos sk_v).le
  rw [← hq] at hPK
  exact ⟨_, rfl, rfl, rfl, rfl, reach_verifySignature hown h hagg hver (congrArg Run.out hPK)
    (congrArg Run.out (M.aggSig_eq hq { ID := headID, alpha := ta.sk } hrk e sigmas))⟩

/-! ## Complete runs -/

/-- The TA starts and the first `k` UAVs register. -/
theorem exists_reach_uavs (hown : ∀ s a, a.Own → allowed s a) {r : TADraws}
    (hta : (M.initParams n tm msg r).out = .ok ta) {k : ℕ} {ids : ℕ → Fin curveOrder}
    {UAVs : ℕ → UAV} (hids : ∀ i < k, randMpz (ids i) ≠ headID)
    (hkeys : ∀ i < k, ta.Issued (ids i) (UAVs i)) :
    ∃ s, (protocol M C n tm msg).Reach allowed (Sys.init ECP ECP2) s ∧ s.ta = some ta ∧
      (∀ i < k, s.uavs i = .serving (ta.pp.mapPoints C.carry2) (UAVs i)) ∧
      (∀ i, k ≤ i → s.uavs i = .start) ∧ s.agg = .start ∧ s.ver = .start ∧ s.checks = [] := by
  induction k with
  | zero =>
      refine ⟨{ Sys.init ECP ECP2 with ta := some ta }, ?_, rfl,
        fun i hi ↦ absurd hi i.not_lt_zero, fun _ _ ↦ rfl, rfl, rfl, rfl⟩
      exact reach_own hown .refl (.initParams r rfl) trivial
        (Run.out_bind_eq_ok.mpr ⟨ta, hta, rfl⟩)
  | succ k ih =>
      obtain ⟨s, hreach, hs, hserving, hstart, hagg, hver, hchecks⟩ :=
        ih (fun i hi ↦ hids i (Nat.lt_succ_of_lt hi)) fun i hi ↦ hkeys i (Nat.lt_succ_of_lt hi)
      refine ⟨s.setUAV k (.serving (ta.pp.mapPoints C.carry2) (UAVs k)), ?_, hs, fun i hi ↦ ?_,
        fun i hi ↦ ?_, hagg, hver, hchecks⟩
      · exact reach_registerUAV hown hreach hs (hstart k le_rfl) (hids k k.lt_succ_self)
          (hkeys k k.lt_succ_self)
      · rcases Nat.lt_succ_iff_lt_or_eq.mp hi with hi | rfl
        · rw [Sys.uavs_setUAV_of_ne _ hi.ne, hserving i hi]
        · exact Sys.uavs_setUAV_self _ _ _
      · rw [Sys.uavs_setUAV_of_ne _ (Nat.lt_of_succ_le hi).ne', hstart i (Nat.le_of_succ_le hi)]

/-- **Complete runs.**  When the TA's keys sign and the hashes end, there is a run in which all UAVs
register, the aggregator collects, and the verifier checks, is started again and checks with another
key. -/
theorem exists_reach_checks [Module Zq ECP] (hown : ∀ s a, a.Own → allowed s a) {r : TADraws}
    (hta : (M.initParams n tm msg r).out = .ok ta) (hq : ta.pp.q = curveOrder) (hsk : 0 ≤ ta.sk)
    {ids : ℕ → Fin curveOrder} {UAVs : ℕ → UAV} (hids : ∀ i, randMpz (ids i) ≠ headID)
    (hkeys : ∀ i, ta.Issued (ids i) (UAVs i))
    (hsign : ∀ i, ∃ sig, (M.sign ta.pp (UAVs i) ta.t ta.M).out = .ok sig)
    (hterm : ∀ PK_v, ∃ h, (M.aggHash ta.pp ta.sk PK_v).out = .ok h)
    (sk_v sk_v' e e' : Fin curveOrder) :
    ∃ s c c', (protocol M C n tm msg).Reach allowed (Sys.init ECP ECP2) s ∧ s.ta = some ta ∧
      (∀ i < count ta.t, s.uavs i = .serving (ta.pp.mapPoints C.carry2) (UAVs i)) ∧
      s.checks = [c, c'] ∧ c.sk_v = sk_v ∧ c'.sk_v = sk_v' := by
  obtain ⟨s, hreach, hs, hserving, -, hagg, hver, hchecks⟩ :=
    exists_reach_uavs (C := C) hown hta (k := count ta.t) (fun i _ ↦ hids i) fun i _ ↦ hkeys i
  have hcollecting := reach_getPpAndSk hown hreach hs hagg
  obtain ⟨sigmas, hcollected⟩ := reach_serving hown (Nat.zero_le _) hcollecting fun i hi ↦ by
    obtain ⟨sig, hsig⟩ := hsign i
    exact ⟨UAVs i, sig, hserving i hi, hsig⟩
  have hready := reach_getParams hown hcollected hs hver (hkeys 0)
  obtain ⟨c, hc, -, -, -, hfirst⟩ := reach_check hown hready hq hsk rfl rfl (hterm _) e
  have hagain := reach_restart hown hfirst hs rfl (hkeys 0)
  obtain ⟨c', hc', -, -, -, hsecond⟩ := reach_check hown hagain hq hsk rfl rfl (hterm _) e'
  refine ⟨_, c, c', hsecond, hs, hserving, ?_, hc, hc'⟩
  simp only [hchecks, List.nil_append, List.cons_append]

end Steps

/-! ## Runs on points as exponents -/

/-- What `initParams` makes of its draws. -/
def Miracl.issuedTA [Module Zq ECP2] (M : Miracl ECP ECP2 FP12) (n tm : Int32) (msg : ℤ)
    (r : TADraws) : TA ECP2 where
  pp := M.issuedParams n tm r.g r.alpha r.b
  sk := randMpz r.alpha
  d := coefficients tm r.d
  b := coefficients tm r.b
  M := msg
  t := tm / 2 + 1

theorem initParams_eq [Module Zq ECP2] (M : Miracl ECP ECP2 FP12) (n : Int32) {tm : Int32}
    (htm : 2 ≤ tm.toInt) (msg : ℤ) (r : TADraws) :
    M.initParams n tm msg r = pure (M.issuedTA n tm msg r) := by
  simp only [Miracl.initParams, M.setup_eq, M.getPK_coefficients htm, pure_bind]
  rfl

/-- What a TA holds that has started. -/
theorem eq_issuedTA [Module Zq ECP2] {M : Miracl ECP ECP2 FP12} {n tm : Int32}
    (htm : 2 ≤ tm.toInt) {msg : ℤ} {r : TADraws} {ta : TA ECP2}
    (h : (M.initParams n tm msg r).out = .ok ta) : ta = M.issuedTA n tm msg r := by
  rw [initParams_eq M n htm msg r, Run.out_pure] at h
  exact (Outcome.ok.inj h).symm

/-- An issued key signs for the threshold of the TA. -/
theorem sign_issuedTA [Module Zq ECP] [Module Zq ECP2] (M : Miracl ECP ECP2 FP12) (n : Int32)
    {tm : Int32} (htm : 2 ≤ tm.toInt) (msg : ℤ) (r : TADraws) (id : ℤ) (u : ℕ → Fin curveOrder) :
    ∃ sig, M.sign (M.issuedTA n tm msg r).pp
      (issuedUAV (M.issuedTA n tm msg r).pp tm r.b r.d id u) (tm / 2 + 1) msg = pure sig := by
  have ht := toInt_threshold htm
  have hcount : count (tm / 2 + 1 - 1) ≤ count (tm - 1) :=
    count_sub_one_mono (by omega) (by omega)
  exact ⟨_, M.sign_issuedUAV (show (M.issuedTA n tm msg r).pp.q = curveOrder from rfl) hcount r.b
    r.d id u msg⟩

/-- Draws that are all `1`. -/
def unitTADraws : TADraws where
  g := 0
  alpha := 0
  b _ := 0
  d _ := 0

/-- The TA with the numbers of the source on these draws. -/
def unitTA : TA Zq := exponents.issuedTA 52 20 123456789 unitTADraws

/-- The ID that the UAV `i` draws. -/
def countedID (i : ℕ) : Fin curveOrder := ⟨i % 11, by
  have := lt_curveOrder
  omega⟩

/-- The key that the TA issues for it. -/
def countedKey (i : ℕ) : UAV :=
  issuedUAV unitTA.pp 20 unitTADraws.b unitTADraws.d (randMpz (countedID i)) fun _ ↦ 0

theorem countedID_ne_headID (i : ℕ) : randMpz (countedID i) ≠ headID := by
  have hlt : randMpz (countedID i) < 12 := by
    simp only [randMpz, countedID]
    omega
  exact (hlt.trans (by decide)).ne

theorem issued_countedKey (i : ℕ) : unitTA.Issued (countedID i) (countedKey i) :=
  ⟨fun _ ↦ 0, congrArg Run.out (getUAV_coefficients rfl 20 _ _ (randMpz_pos _).le _)⟩

theorem ID_countedKey {i : ℕ} (hi : i < 11) : (countedKey i).ID = i + 1 := by
  simp only [countedKey, issuedUAV, issuedKey, randMpz, countedID, Nat.mod_eq_of_lt hi]

theorem initParams_unitTA :
    (exponents.initParams 52 20 123456789 unitTADraws).out = .ok unitTA :=
  have htm : 2 ≤ (20 : Int32).toInt := by decide
  congrArg Run.out (initParams_eq exponents 52 htm 123456789 unitTADraws)

theorem sign_countedKey (i : ℕ) :
    ∃ sig, (exponents.sign unitTA.pp (countedKey i) unitTA.t unitTA.M).out = .ok sig := by
  have htm : 2 ≤ (20 : Int32).toInt := by decide
  obtain ⟨sig, hsig⟩ := sign_issuedTA exponents 52 htm 123456789 unitTADraws
    (randMpz (countedID i)) fun _ ↦ 0
  exact ⟨sig, congrArg Run.out hsig⟩

theorem exists_aggHash_exponents {pp : Params Zq} (hq : pp.q = curveOrder) {alpha : ℤ}
    (halpha : 0 ≤ alpha) (PK_v : ℤ) : ∃ h, (exponents.aggHash pp alpha PK_v).out = .ok h := by
  rw [Miracl.aggHash, exponents.sharedHash_eq hq PK_v halpha]
  exact exists_hashToCoprime_exponents _

/-- With the numbers of the source, eleven UAVs register under the IDs `1, …, 11`, and the verifier
checks twice, with two keys. -/
theorem exists_reach_checks_exponents {allowed : Sys Zq Zq → Action → Prop}
    (hown : ∀ s a, a.Own → allowed s a) :
    ∃ s c c', (protocol exponents exponentCodec 52 20 123456789).Reach allowed (Sys.init Zq Zq) s ∧
      s.ta = some unitTA ∧
      (∀ i < 11, s.uavs i = .serving (unitTA.pp.mapPoints exponentCodec.carry2) (countedKey i)) ∧
      s.checks = [c, c'] ∧ c.sk_v ≠ c'.sk_v := by
  have hsk : 0 ≤ unitTA.sk := (randMpz_pos 0).le
  obtain ⟨s, c, c', hreach, hta, hserving, hchecks, hc, hc'⟩ := exists_reach_checks
    (C := exponentCodec) hown initParams_unitTA rfl hsk countedID_ne_headID issued_countedKey
    sign_countedKey (exists_aggHash_exponents rfl hsk) 0 ⟨1, one_lt_curveOrder⟩ 0 0
  refine ⟨s, c, c', hreach, hta, hserving, hchecks, ?_⟩
  rw [hc, hc']
  exact fun h ↦ zero_ne_one (congrArg Fin.val h)

end Fussion
