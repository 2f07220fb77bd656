import Fussion.Protocol.Progress

/-!
# What the processes hold

One invariant of the protocol, from which the statements about whole runs follow: every copy of a
value in some process or message is the TA's value after the conversions on its way.  Scalars
arrive as they were sent.  For points the invariant speaks of two functions `ρ₁` and `ρ₂`; the
actions that are allowed are those where the points sent arrive as `ρ₁` and `ρ₂` of themselves.
With the identity this is a run in which points arrive unchanged, and with `carry` and `carry2`
it is no restriction at all.

An action is `Proper` when no registration and no call of `sign` fails and no UAV draws the ID of
the cluster head.
-/

namespace Fussion

variable {ECP ECP2 FP12 : Type} [AddCommGroup ECP] [AddCommGroup ECP2] [CommGroup FP12]

/-! ## Runs -/

/-- No registration and no call of `sign` fails, and no UAV draws the ID of the head. -/
def Action.Proper : Action → Prop
  | .registerUAV _ id => randMpz id ≠ headID
  | .registerFailed _ => False
  | .collectFailed _ => False
  | _ => True

theorem Action.Own.proper {a : Action} (h : a.Own) : a.Proper := by
  cases a <;> first
    | exact trivial
    | exact h

section Sends

variable (M : Miracl ECP ECP2 FP12)

/-- The points of the first group in the responses to the four programs. -/
inductive Sends (s : Sys ECP ECP2) : Action → ECP → Prop
  | sign {head : Head ECP ECP2} {i : ℕ} {request : SignRequest} {pp : Params ECP2} {uav : UAV}
      {sig : ParSig ECP} (hagg : s.agg = .collecting head i (some (.sent request)))
      (huav : s.uavs i = .serving pp uav) (hsig : (M.signService pp uav request).out = .ok sig) :
      Sends s .sign sig.sig
  | tran {head : Head ECP ECP2} {v : Verifier ECP2} {sk_v e : Fin curveOrder}
      {request : VerifyRequest} {sigma : Sigma ECP} {P : ECP} (hagg : s.agg = .serving head)
      (hver : s.ver = .verifying v sk_v (.sent request))
      (hsigma : (M.tranService head request e).out = .ok sigma) (hP : P ∈ sigma.sig) :
      Sends s (.tran e) P

/-- The points of the second group in the responses to the four programs. -/
inductive Sends2 (s : Sys ECP ECP2) : Action → ECP2 → Prop
  | P2 {ta : TA ECP2} {c : Client} {u : ℕ → Fin curveOrder} (hta : s.ta = some ta) :
      Sends2 s (.register c u) ta.pp.P2
  | PK {ta : TA ECP2} {c : Client} {u : ℕ → Fin curveOrder} {P : ECP2} (hta : s.ta = some ta)
      (hP : P ∈ ta.pp.PK) : Sends2 s (.register c u) P

variable (C : PointCodec ECP ECP2) (ρ₁ : ECP → ECP) (ρ₂ : ECP2 → ECP2)

/-- A proper action whose points arrive as `ρ₁` and `ρ₂` of themselves. -/
structure Delivers (s : Sys ECP ECP2) (a : Action) : Prop where
  proper : a.Proper
  point : ∀ P, Sends M s a P → C.carry P = ρ₁ P
  point2 : ∀ P, Sends2 s a P → C.carry2 P = ρ₂ P

end Sends

/-! ## The invariant -/

section Data

variable (M : Miracl ECP ECP2 FP12) (ρ₁ : ECP → ECP)

/-- The partial signature that the UAV `i` makes on the TA's message arrives as `sigma`. -/
def Signed (s : Sys ECP ECP2) (ta : TA ECP2) (i : ℕ) (sigma : ParSig ECP) : Prop :=
  ∃ pp uav sig, s.uavs i = .serving pp uav ∧ (M.sign ta.pp uav ta.t ta.M).out = .ok sig ∧
    sigma = sig.mapPoint ρ₁

/-- The partial signatures of the first `k` UAVs. -/
def Collected (s : Sys ECP ECP2) (ta : TA ECP2) (k : ℕ) (sigmas : List (ParSig ECP)) : Prop :=
  List.Forall₂ (Signed M ρ₁ s ta) (List.range k) sigmas

/-- What `AggSig` makes of them for the verifier with key `sk_v` arrives as `sigma`. -/
def Transformed (s : Sys ECP ECP2) (ta : TA ECP2) (sk_v e : Fin curveOrder) (sigma : Sigma ECP) :
    Prop :=
  ∃ sigmas PK_v sigma₀, Collected M ρ₁ s ta (count ta.t) sigmas ∧
    (powMpz ta.pp.g (randMpz sk_v) ta.pp.q).out = .ok PK_v ∧
    (M.aggSig sigmas ta.pp { ID := headID, alpha := ta.sk } PK_v e).out = .ok sigma₀ ∧
    sigma = sigma₀.mapPoints ρ₁

end Data

section Inv

variable [DecidableEq FP12] (M : Miracl ECP ECP2 FP12) (C : PointCodec ECP ECP2)
variable (n tm : Int32) (msg : ℤ) (ρ₁ : ECP → ECP) (ρ₂ : ECP2 → ECP2)

/-- What a UAV holds. -/
inductive UAVInv (s : Sys ECP ECP2) : UAVProc ECP2 → Prop
  | start : UAVInv s .start
  | sent {id : Fin curveOrder} (hid : randMpz id ≠ headID) :
      UAVInv s (.registering id (.sent ⟨mpzToStr (randMpz id)⟩))
  | replied {ta : TA ECP2} {id : Fin curveOrder} {response : UAVIDResponse} {uav : UAV}
      (hta : s.ta = some ta) (hissued : ta.Issued id uav)
      (hsave : C.saveUAV (randMpz id) response = pure (ta.pp.mapPoints ρ₂, uav)) :
      UAVInv s (.registering id (.replied response))
  | serving {ta : TA ECP2} {id : Fin curveOrder} {uav : UAV} (hta : s.ta = some ta)
      (hissued : ta.Issued id uav) : UAVInv s (.serving (ta.pp.mapPoints ρ₂) uav)

/-- What the aggregator holds. -/
inductive AggInv (s : Sys ECP ECP2) : AggProc ECP ECP2 → Prop
  | start : AggInv s .start
  | sent : AggInv s (.registering (.sent ⟨mpzToStr headID⟩))
  | replied {ta : TA ECP2} {response : UAVIDResponse} (hta : s.ta = some ta)
      (hsave : C.saveHead response = pure (ta.head ρ₂ [])) :
      AggInv s (.registering (.replied response))
  | idle {ta : TA ECP2} {i : ℕ} {sigmas : List (ParSig ECP)} (hta : s.ta = some ta)
      (hi : i ≤ count ta.t) (hsigmas : Collected M ρ₁ s ta i sigmas) :
      AggInv s (.collecting (ta.head ρ₂ sigmas) i none)
  | asked {ta : TA ECP2} {i : ℕ} {sigmas : List (ParSig ECP)} (hta : s.ta = some ta)
      (hi : i < count ta.t) (hsigmas : Collected M ρ₁ s ta i sigmas) :
      AggInv s (.collecting (ta.head ρ₂ sigmas) i (some (.sent ⟨mpzToStr ta.M, ta.t⟩)))
  | answered {ta : TA ECP2} {i : ℕ} {sigmas : List (ParSig ECP)} {response : SignResponse}
      {sigma : ParSig ECP} (hta : s.ta = some ta) (hi : i < count ta.t)
      (hsigmas : Collected M ρ₁ s ta i sigmas) (hsigned : Signed M ρ₁ s ta i sigma)
      (hread : C.readParSig response = pure sigma) :
      AggInv s (.collecting (ta.head ρ₂ sigmas) i (some (.replied response)))
  | serving {ta : TA ECP2} {sigmas : List (ParSig ECP)} (hta : s.ta = some ta)
      (hsigmas : Collected M ρ₁ s ta (count ta.t) sigmas) : AggInv s (.serving (ta.head ρ₂ sigmas))

/-- What the verifier holds. -/
inductive VerifierInv (s : Sys ECP ECP2) : VerifierProc ECP2 → Prop
  | start : VerifierInv s .start
  | sent {id : Fin curveOrder} : VerifierInv s (.registering id (.sent ⟨mpzToStr (randMpz id)⟩))
  | replied {ta : TA ECP2} {id : Fin curveOrder} {response : UAVIDResponse} (hta : s.ta = some ta)
      (hsave : C.saveVerifier response = pure (ta.verifier ρ₂)) :
      VerifierInv s (.registering id (.replied response))
  | ready {ta : TA ECP2} (hta : s.ta = some ta) : VerifierInv s (.ready (ta.verifier ρ₂))
  | asked {ta : TA ECP2} {sk_v : Fin curveOrder} {PK_v : ℤ} (hta : s.ta = some ta)
      (hPK : (powMpz ta.pp.g (randMpz sk_v) ta.pp.q).out = .ok PK_v) :
      VerifierInv s (.verifying (ta.verifier ρ₂) sk_v (.sent ⟨mpzToStr PK_v⟩))
  | answered {ta : TA ECP2} {sk_v e : Fin curveOrder} {response : VerifyResponse}
      {sigma : Sigma ECP} (hta : s.ta = some ta) (hsigma : Transformed M ρ₁ s ta sk_v e sigma)
      (hread : C.readSigma response = pure sigma) :
      VerifierInv s (.verifying (ta.verifier ρ₂) sk_v (.replied (response, e)))
  | done {ta : TA ECP2} (hta : s.ta = some ta) : VerifierInv s (.done (ta.verifier ρ₂))

/-- What is recorded of a check. -/
def CheckInv (s : Sys ECP ECP2) (c : Check ECP) : Prop :=
  ∃ ta, s.ta = some ta ∧ Transformed M ρ₁ s ta c.sk_v c.e c.sigma ∧
    c.verdict = (M.verify c.sigma (randMpz c.sk_v) (ta.pp.mapPoints ρ₂) ta.M ta.t).out

/-- The invariant of the protocol. -/
structure Inv (s : Sys ECP ECP2) : Prop where
  ta : ∀ ta, s.ta = some ta → ∃ r, (M.initParams n tm msg r).out = .ok ta
  uavs : ∀ i, UAVInv C ρ₂ s (s.uavs i)
  agg : AggInv M C ρ₁ ρ₂ s s.agg
  ver : VerifierInv M C ρ₁ ρ₂ s s.ver
  checks : ∀ c ∈ s.checks, CheckInv M ρ₁ ρ₂ s c

end Inv

/-! ## Frames -/

/-- The TA keeps its data and the registered UAVs keep their keys. -/
structure Extends (s s' : Sys ECP ECP2) : Prop where
  ta : ∀ {ta}, s.ta = some ta → s'.ta = some ta
  uavs : ∀ {i pp uav}, s.uavs i = .serving pp uav → s'.uavs i = .serving pp uav

section Frame

variable {M : Miracl ECP ECP2 FP12} {C : PointCodec ECP ECP2}
variable {n tm : Int32} {msg : ℤ} {ρ₁ : ECP → ECP} {ρ₂ : ECP2 → ECP2} {s s' : Sys ECP ECP2}

theorem Signed.mono (h : Extends s s') {ta : TA ECP2} {i : ℕ} {sigma : ParSig ECP}
    (hs : Signed M ρ₁ s ta i sigma) : Signed M ρ₁ s' ta i sigma := by
  obtain ⟨pp, uav, sig, huav, hsig⟩ := hs
  exact ⟨pp, uav, sig, h.uavs huav, hsig⟩

theorem Collected.mono (h : Extends s s') {ta : TA ECP2} {k : ℕ} {sigmas : List (ParSig ECP)}
    (hs : Collected M ρ₁ s ta k sigmas) : Collected M ρ₁ s' ta k sigmas :=
  List.Forall₂.imp (fun _ _ ↦ Signed.mono h) hs

theorem Transformed.mono (h : Extends s s') {ta : TA ECP2} {sk_v e : Fin curveOrder}
    {sigma : Sigma ECP} (hs : Transformed M ρ₁ s ta sk_v e sigma) :
    Transformed M ρ₁ s' ta sk_v e sigma := by
  obtain ⟨sigmas, PK_v, sigma₀, hsigmas, hrest⟩ := hs
  exact ⟨sigmas, PK_v, sigma₀, hsigmas.mono h, hrest⟩

omit [AddCommGroup ECP] [AddCommGroup ECP2] in
theorem UAVInv.mono (h : Extends s s') {p : UAVProc ECP2} (hp : UAVInv C ρ₂ s p) :
    UAVInv C ρ₂ s' p := by
  cases hp with
  | start => exact .start
  | sent hid => exact .sent hid
  | replied hta hissued hsave => exact .replied (h.ta hta) hissued hsave
  | serving hta hissued => exact .serving (h.ta hta) hissued

theorem AggInv.mono (h : Extends s s') {p : AggProc ECP ECP2} (hp : AggInv M C ρ₁ ρ₂ s p) :
    AggInv M C ρ₁ ρ₂ s' p := by
  cases hp with
  | start => exact .start
  | sent => exact .sent
  | replied hta hsave => exact .replied (h.ta hta) hsave
  | idle hta hi hsigmas => exact .idle (h.ta hta) hi (hsigmas.mono h)
  | asked hta hi hsigmas => exact .asked (h.ta hta) hi (hsigmas.mono h)
  | answered hta hi hsigmas hsigned hread =>
      exact .answered (h.ta hta) hi (hsigmas.mono h) (hsigned.mono h) hread
  | serving hta hsigmas => exact .serving (h.ta hta) (hsigmas.mono h)

theorem VerifierInv.mono (h : Extends s s') {p : VerifierProc ECP2}
    (hp : VerifierInv M C ρ₁ ρ₂ s p) : VerifierInv M C ρ₁ ρ₂ s' p := by
  cases hp with
  | start => exact .start
  | sent => exact .sent
  | replied hta hsave => exact .replied (h.ta hta) hsave
  | ready hta => exact .ready (h.ta hta)
  | asked hta hPK => exact .asked (h.ta hta) hPK
  | answered hta hsigma hread => exact .answered (h.ta hta) (hsigma.mono h) hread
  | done hta => exact .done (h.ta hta)

variable [DecidableEq FP12]

theorem CheckInv.mono (h : Extends s s') {c : Check ECP} (hc : CheckInv M ρ₁ ρ₂ s c) :
    CheckInv M ρ₁ ρ₂ s' c := by
  obtain ⟨ta, hta, hsigma, hverdict⟩ := hc
  exact ⟨ta, h.ta hta, hsigma.mono h, hverdict⟩

/-- When the TA and the UAVs stay, what the other processes hold is looked at in the old state. -/
theorem Inv.of_same (h : Inv M C n tm msg ρ₁ ρ₂ s) (hta : s'.ta = s.ta) (huavs : s'.uavs = s.uavs)
    (hagg : AggInv M C ρ₁ ρ₂ s s'.agg) (hver : VerifierInv M C ρ₁ ρ₂ s s'.ver)
    (hchecks : ∀ c ∈ s'.checks, CheckInv M ρ₁ ρ₂ s c) : Inv M C n tm msg ρ₁ ρ₂ s' := by
  have hext : Extends s s' :=
    ⟨fun h ↦ hta.trans h, fun h ↦ (congrFun huavs _).trans h⟩
  refine ⟨fun ta h' ↦ h.ta ta (hta.symm.trans h'), fun i ↦ ?_, hagg.mono hext, hver.mono hext,
    fun c hc ↦ (hchecks c hc).mono hext⟩
  rw [huavs]
  exact (h.uavs i).mono hext

theorem Inv.setAgg (h : Inv M C n tm msg ρ₁ ρ₂ s) {p : AggProc ECP ECP2}
    (hp : AggInv M C ρ₁ ρ₂ s p) : Inv M C n tm msg ρ₁ ρ₂ { s with agg := p } :=
  h.of_same rfl rfl hp h.ver h.checks

theorem Inv.setVer (h : Inv M C n tm msg ρ₁ ρ₂ s) {p : VerifierProc ECP2}
    (hp : VerifierInv M C ρ₁ ρ₂ s p) : Inv M C n tm msg ρ₁ ρ₂ { s with ver := p } :=
  h.of_same rfl rfl h.agg hp h.checks

theorem Inv.record (h : Inv M C n tm msg ρ₁ ρ₂ s) (f : Fault) :
    Inv M C n tm msg ρ₁ ρ₂ ((protocol M C n tm msg).record s f) :=
  h.of_same rfl rfl h.agg h.ver h.checks

theorem Inv.setTA (h : Inv M C n tm msg ρ₁ ρ₂ s) (hnone : s.ta = none) {r : TADraws}
    {ta : TA ECP2} (hta : (M.initParams n tm msg r).out = .ok ta) :
    Inv M C n tm msg ρ₁ ρ₂ { s with ta := some ta } := by
  have hext : Extends s { s with ta := some ta } :=
    ⟨fun h' ↦ absurd (hnone.symm.trans h') (Option.some_ne_none _).symm, id⟩
  refine ⟨fun ta' h' ↦ ⟨r, ?_⟩, fun i ↦ (h.uavs i).mono hext, h.agg.mono hext, h.ver.mono hext,
    fun c hc ↦ (h.checks c hc).mono hext⟩
  cases h'
  exact hta

/-- A UAV that does not serve yet changes. -/
theorem Inv.setUAV (h : Inv M C n tm msg ρ₁ ρ₂ s) {i : ℕ} {p : UAVProc ECP2}
    (hold : ∀ pp uav, s.uavs i ≠ .serving pp uav) (hp : UAVInv C ρ₂ s p) :
    Inv M C n tm msg ρ₁ ρ₂ (s.setUAV i p) := by
  have hext : Extends s (s.setUAV i p) := by
    refine ⟨id, fun {j pp uav} hj ↦ ?_⟩
    have hne : j ≠ i := fun hji ↦ hold pp uav (hji ▸ hj)
    exact (s.uavs_setUAV_of_ne hne p).trans hj
  refine ⟨h.ta, fun j ↦ ?_, h.agg.mono hext, h.ver.mono hext,
    fun c hc ↦ (h.checks c hc).mono hext⟩
  by_cases hji : j = i
  · rw [hji, Sys.uavs_setUAV_self]
    exact hp.mono hext
  · rw [Sys.uavs_setUAV_of_ne _ hji]
    exact (h.uavs j).mono hext

/-! ## The steps -/

theorem Inv.uav_at (h : Inv M C n tm msg ρ₁ ρ₂ s) {i : ℕ} {p : UAVProc ECP2} (hp : s.uavs i = p) :
    UAVInv C ρ₂ s p := hp ▸ h.uavs i

theorem Inv.agg_at (h : Inv M C n tm msg ρ₁ ρ₂ s) {p : AggProc ECP ECP2} (hp : s.agg = p) :
    AggInv M C ρ₁ ρ₂ s p := hp ▸ h.agg

theorem Inv.ver_at (h : Inv M C n tm msg ρ₁ ρ₂ s) {p : VerifierProc ECP2} (hp : s.ver = p) :
    VerifierInv M C ρ₁ ρ₂ s p := hp ▸ h.ver

omit [DecidableEq FP12] in
/-- The parameters that a response of `Register` carries arrive as `ρ₂` says. -/
theorem Delivers.mapPoints {ta : TA ECP2} {c : Client} {u : ℕ → Fin curveOrder}
    (h : Delivers M C ρ₁ ρ₂ s (.register c u)) (hta : s.ta = some ta) :
    ta.pp.mapPoints C.carry2 = ta.pp.mapPoints ρ₂ := by
  rw [Params.mapPoints, Params.mapPoints, h.point2 _ (.P2 hta),
    List.map_congr_left fun P hP ↦ h.point2 P (.PK hta hP)]

/-! ### The TA answers -/

theorem Inv.registerForUAV (h : Inv M C n tm msg ρ₁ ρ₂ s) {u : ℕ → Fin curveOrder} {i : ℕ}
    (hd : Delivers M C ρ₁ ρ₂ s (.register (.uav i) u)) {ta : TA ECP2} (hta : s.ta = some ta)
    {id : Fin curveOrder} {request : UAVIDRequest}
    (huav : s.uavs i = .registering id (.sent request)) {response : UAVIDResponse}
    (hok : (C.register ta request u).out = .ok response) :
    Inv M C n tm msg ρ₁ ρ₂ (s.setUAV i (.registering id (.replied response))) := by
  refine h.setUAV (by rw [huav]; rintro _ _ ⟨⟩) ?_
  cases h.uav_at huav with
  | sent hid =>
      obtain ⟨uav, hissued, hsave⟩ := C.saveUAV_of_register hid hok
      exact .replied hta ⟨u, hissued⟩ (hd.mapPoints hta ▸ hsave)

theorem Inv.registerForAgg (h : Inv M C n tm msg ρ₁ ρ₂ s) {u : ℕ → Fin curveOrder}
    (hd : Delivers M C ρ₁ ρ₂ s (.register .agg u)) {ta : TA ECP2} (hta : s.ta = some ta)
    {request : UAVIDRequest} (hagg : s.agg = .registering (.sent request))
    {response : UAVIDResponse} (hok : (C.register ta request u).out = .ok response) :
    Inv M C n tm msg ρ₁ ρ₂ { s with agg := .registering (.replied response) } := by
  cases h.agg_at hagg with
  | sent =>
      have hsave := C.saveHead_of_register hok
      rw [TA.head, hd.mapPoints hta] at hsave
      exact h.setAgg (.replied hta hsave)

theorem Inv.registerForVerifier (h : Inv M C n tm msg ρ₁ ρ₂ s) {u : ℕ → Fin curveOrder}
    (hd : Delivers M C ρ₁ ρ₂ s (.register .ver u)) {ta : TA ECP2} (hta : s.ta = some ta)
    {request : UAVIDRequest} (id : Fin curveOrder) {response : UAVIDResponse}
    (hok : (C.register ta request u).out = .ok response) :
    Inv M C n tm msg ρ₁ ρ₂ { s with ver := .registering id (.replied response) } := by
  have hsave := C.saveVerifier_of_register hok
  rw [TA.verifier, hd.mapPoints hta] at hsave
  exact h.setVer (.replied hta hsave)

/-! ### The clients save what they got -/

theorem Inv.saveUAV (h : Inv M C n tm msg ρ₁ ρ₂ s) {i : ℕ} {id : Fin curveOrder}
    {response : UAVIDResponse} (huav : s.uavs i = .registering id (.replied response))
    {pp : Params ECP2} {uav : UAV} (hok : (C.saveUAV (randMpz id) response).out = .ok (pp, uav)) :
    Inv M C n tm msg ρ₁ ρ₂ (s.setUAV i (.serving pp uav)) := by
  refine h.setUAV (by rw [huav]; rintro _ _ ⟨⟩) ?_
  cases h.uav_at huav with
  | replied hta hissued hsave =>
      rw [hsave] at hok
      cases hok
      exact .serving hta hissued

theorem Inv.saveHead (h : Inv M C n tm msg ρ₁ ρ₂ s) {response : UAVIDResponse}
    (hagg : s.agg = .registering (.replied response)) {head : Head ECP ECP2}
    (hok : (C.saveHead response).out = .ok head) :
    Inv M C n tm msg ρ₁ ρ₂ { s with agg := .collecting head 0 none } := by
  cases h.agg_at hagg with
  | replied hta hsave =>
      rw [hsave] at hok
      cases hok
      exact h.setAgg (.idle hta (Nat.zero_le _) .nil)

theorem Inv.saveVerifier (h : Inv M C n tm msg ρ₁ ρ₂ s) {id : Fin curveOrder}
    {response : UAVIDResponse} (hver : s.ver = .registering id (.replied response))
    {v : Verifier ECP2} (hok : (C.saveVerifier response).out = .ok v) :
    Inv M C n tm msg ρ₁ ρ₂ { s with ver := .ready v } := by
  cases h.ver_at hver with
  | replied hta hsave =>
      rw [hsave] at hok
      cases hok
      exact h.setVer (.ready hta)

/-! ### The aggregator collects -/

/-- The UAV that is asked signs the TA's message for the TA's threshold. -/
theorem Inv.sign (h : Inv M C n tm msg ρ₁ ρ₂ s) (hd : Delivers M C ρ₁ ρ₂ s .sign)
    {head : Head ECP ECP2} {i : ℕ} {request : SignRequest} {pp : Params ECP2} {uav : UAV}
    (hagg : s.agg = .collecting head i (some (.sent request))) (huav : s.uavs i = .serving pp uav)
    {sig : ParSig ECP} (hok : (M.signService pp uav request).out = .ok sig) :
    Inv M C n tm msg ρ₁ ρ₂
      { s with agg := .collecting head i (some (.replied (C.writeParSig sig))) } := by
  have hpoint := hd.point _ (.sign hagg huav hok)
  cases h.agg_at hagg with
  | asked hta hi hsigmas =>
      cases h.uav_at huav with
      | serving hta' hissued =>
          cases hta.symm.trans hta'
          rw [Miracl.signService, strToMpz_mpzToStr, pure_bind] at hok
          refine h.setAgg (.answered hta hi hsigmas ⟨_, _, sig, huav, hok, rfl⟩ ?_)
          rw [C.readParSig_writeParSig, ParSig.mapPoint, hpoint]
          rfl

theorem Inv.collected (h : Inv M C n tm msg ρ₁ ρ₂ s) {head : Head ECP ECP2} {i : ℕ}
    {response : SignResponse} (hagg : s.agg = .collecting head i (some (.replied response)))
    {r : List (ParSig ECP) × Option ℤ}
    (hok : (C.collectOne (.reply response) head.sigmas).out = .ok r) :
    Inv M C n tm msg ρ₁ ρ₂ { s with agg := .next head i r } := by
  cases h.agg_at hagg with
  | answered hta hi hsigmas hsigned hread =>
      rw [PointCodec.collectOne, hread, pure_bind] at hok
      cases hok
      refine h.setAgg (.idle hta hi ?_)
      rw [Collected, List.range_succ]
      exact List.rel_append hsigmas (.cons hsigned .nil)

/-! ### The verifier checks -/

/-- The aggregator transforms the collected signatures for the key that the verifier has sent. -/
theorem Inv.tran (h : Inv M C n tm msg ρ₁ ρ₂ s) {e : Fin curveOrder}
    (hd : Delivers M C ρ₁ ρ₂ s (.tran e)) {head : Head ECP ECP2} {v : Verifier ECP2}
    {sk_v : Fin curveOrder} {request : VerifyRequest} (hagg : s.agg = .serving head)
    (hver : s.ver = .verifying v sk_v (.sent request)) {sigma : Sigma ECP}
    (hok : (M.tranService head request e).out = .ok sigma) :
    Inv M C n tm msg ρ₁ ρ₂
      { s with ver := .verifying v sk_v (.replied (C.writeSigma sigma, e)) } := by
  have hpoint := fun P hP ↦ hd.point P (.tran hagg hver hok hP)
  cases h.agg_at hagg with
  | serving hta hsigmas =>
      cases h.ver_at hver with
      | asked hta' hPK =>
          cases hta.symm.trans hta'
          rw [Miracl.tranService, strToMpz_mpzToStr, pure_bind] at hok
          refine h.setVer (.answered hta ⟨_, _, sigma, hsigmas, hPK, hok, rfl⟩ ?_)
          rw [C.readSigma_writeSigma, Sigma.mapPoints, List.map_congr_left hpoint]
          rfl

theorem Inv.verify (h : Inv M C n tm msg ρ₁ ρ₂ s) {v : Verifier ECP2} {sk_v e : Fin curveOrder}
    {response : VerifyResponse} (hver : s.ver = .verifying v sk_v (.replied (response, e)))
    {sigma : Sigma ECP} (hok : (C.readSigma response).out = .ok sigma) :
    Inv M C n tm msg ρ₁ ρ₂ { s with
      ver := .done v
      checks := s.checks ++
        [⟨sk_v, e, sigma, (M.verify sigma (randMpz sk_v) v.params v.Msg v.T).out⟩] } := by
  cases h.ver_at hver with
  | answered hta hsigma hread =>
      rw [hread] at hok
      cases hok
      refine h.of_same rfl rfl h.agg (.done hta) fun c hc ↦ ?_
      rcases List.mem_append.mp hc with hc | hc
      · exact h.checks c hc
      · rw [List.mem_singleton.mp hc]
        exact ⟨_, hta, hsigma, rfl⟩

/-! ### All actions -/

/-- An action that returns keeps the invariant. -/
theorem Inv.ok {a : Action} {x : Exec (Sys ECP ECP2)} (h : Inv M C n tm msg ρ₁ ρ₂ s)
    (hd : Delivers M C ρ₁ ρ₂ s a) (he : Enabled M C n tm msg s a x) (hx : x.out = .ok s') :
    Inv M C n tm msg ρ₁ ρ₂ s' := by
  cases he with
  | initParams r hta =>
      obtain ⟨ta, hok, ⟨⟩⟩ := Run.out_bind_eq_ok.mp hx
      exact h.setTA hta hok
  | registerUAV i id huav =>
      cases hx
      exact h.setUAV (by rw [huav]; rintro _ _ ⟨⟩) (.sent hd.proper)
  | getPpAndSk hagg =>
      cases hx
      exact h.setAgg .sent
  | getParams id hver =>
      cases hx
      exact h.setVer .sent
  | registerForUAV u hta huav =>
      obtain ⟨response, hok, ⟨⟩⟩ := Run.out_bind_eq_ok.mp hx
      exact h.registerForUAV hd hta huav hok
  | registerForAgg u hta hagg =>
      obtain ⟨response, hok, ⟨⟩⟩ := Run.out_bind_eq_ok.mp hx
      exact h.registerForAgg hd hta hagg hok
  | registerForVerifier u hta hver =>
      obtain ⟨response, hok, ⟨⟩⟩ := Run.out_bind_eq_ok.mp hx
      exact h.registerForVerifier hd hta _ hok
  | registerOther request u hta =>
      obtain ⟨response, -, ⟨⟩⟩ := Run.out_bind_eq_ok.mp hx
      exact h
  | saveUAV huav =>
      obtain ⟨⟨pp, uav⟩, hok, ⟨⟩⟩ := Run.out_bind_eq_ok.mp hx
      exact h.saveUAV huav hok
  | saveHead hagg =>
      obtain ⟨head, hok, ⟨⟩⟩ := Run.out_bind_eq_ok.mp hx
      exact h.saveHead hagg hok
  | saveVerifier hver =>
      obtain ⟨v, hok, ⟨⟩⟩ := Run.out_bind_eq_ok.mp hx
      exact h.saveVerifier hver hok
  | registerUAVFailed huav => exact absurd hd.proper id
  | getPpAndSkFailed hagg => exact absurd hd.proper id
  | getParamsFailed hver => exact absurd hd.proper id
  | collect hagg hi =>
      cases hx
      cases h.agg_at hagg with
      | idle hta hle hsigmas => exact h.setAgg (.asked hta hi hsigmas)
  | sign hagg huav =>
      obtain ⟨sig, hok, ⟨⟩⟩ := Run.out_bind_eq_ok.mp hx
      exact h.sign hd hagg huav hok
  | signOther request huav =>
      obtain ⟨sig, -, ⟨⟩⟩ := Run.out_bind_eq_ok.mp hx
      exact h
  | collected hagg =>
      obtain ⟨r, hok, ⟨⟩⟩ := Run.out_bind_eq_ok.mp hx
      exact h.collected hagg hok
  | collectFailed hagg hi houtcome => exact absurd hd.proper id
  | startServerTran hagg hi =>
      cases hx
      cases h.agg_at hagg with
      | idle hta hle hsigmas =>
          rw [le_antisymm hle hi] at hsigmas
          exact h.setAgg (.serving hta hsigmas)
  | verifySignature sk_v hver =>
      obtain ⟨request, hok, ⟨⟩⟩ := Run.out_bind_eq_ok.mp hx
      cases h.ver_at hver with
      | ready hta =>
          obtain ⟨PK_v, hPK, ⟨⟩⟩ := Run.out_bind_eq_ok.mp hok
          exact h.setVer (.asked hta hPK)
  | tran e hagg hver =>
      obtain ⟨sigma, hok, ⟨⟩⟩ := Run.out_bind_eq_ok.mp hx
      exact h.tran hd hagg hver hok
  | tranOther request e hagg =>
      obtain ⟨sigma, -, ⟨⟩⟩ := Run.out_bind_eq_ok.mp hx
      exact h
  | verify hver =>
      obtain ⟨sigma, hok, ⟨⟩⟩ := Run.out_bind_eq_ok.mp hx
      exact h.verify hver hok
  | verifyFailed hver =>
      cases hx
      cases h.ver_at hver with
      | asked hta hPK => exact h.setVer (.done hta)
      | answered hta hsigma hread => exact h.setVer (.done hta)
  | verifyNotSent hver =>
      cases hx
      cases h.ver_at hver with
      | ready hta => exact h.setVer (.done hta)
  | restart hver =>
      cases hx
      exact h.setVer .start

theorem Inv.init : Inv M C n tm msg ρ₁ ρ₂ (Sys.init ECP ECP2) where
  ta _ h := by cases h
  uavs _ := .start
  agg := .start
  ver := .start
  checks _ h := by cases h

/-- The invariant holds in every run whose actions deliver their points. -/
theorem Inv.of_reach
    (h : (protocol M C n tm msg).Reach (Delivers M C ρ₁ ρ₂) (Sys.init ECP ECP2) s) :
    Inv M C n tm msg ρ₁ ρ₂ s :=
  System.Reach.invariant Inv.init (fun hinv hd he hx ↦ hinv.ok hd he hx)
    (fun hinv _ _ _ ↦ hinv.record _) h

end Frame

end Fussion
