import Fussion.Protocol.Bounds
import Fussion.Protocol.Refinement
import Fussion.Protocol.Session

/-!
# Runs in which calls fail

The invariant of `Fussion.Protocol.Invariant` is about runs in which every call succeeds.  Here
nothing is asked of the actions but that points arrive as `ρ₁` and `ρ₂` of themselves.  Any
registration may fail, which leaves the globals of a process unset; any call of `sign` may fail;
a UAV may draw the ID of the cluster head, and is then answered as if it were the head.

Such a run follows a session (`Matches`).  Two things keep it one.  A process whose globals are
unset is harmless: it has no key to sign with, so that `Sign` reads past the end of an empty vector,
and it has the modulus zero, on which the first power traps, so that it never sends or answers a
call of `Tran`.  And the head's answer gives a UAV no `c1`, hence no signature either.
-/

namespace Fussion

variable {ECP ECP2 FP12 : Type} [AddCommGroup ECP] [AddCommGroup ECP2] [CommGroup FP12]

/-! ## Without a key -/

omit [AddCommGroup ECP] [AddCommGroup ECP2] in
/-- A UAV that is answered as the head saves no `c1`. -/
theorem c1_of_saveUAV_headResponse (C : PointCodec ECP ECP2) {ta : TA ECP2} {id : ℤ}
    {pp : Params ECP2} {uav : UAV}
    (h : (C.saveUAV id (C.headResponse ta)).out = .ok (pp, uav)) :
    pp = ta.pp.mapPoints C.carry2 ∧ uav.c1 = [] := by
  have hcj : strToMpzArr (C.headResponse ta).cj = pure [] := strToMpzArr_mpzArrToStr []
  have hparams : C.readParams (C.headResponse ta).params = pure (ta.pp.mapPoints C.carry2) :=
    C.readParams_writeParams ta.pp
  rw [PointCodec.saveUAV, hparams, pure_bind, hcj, pure_bind] at h
  obtain ⟨c2, -, hc2⟩ := Run.out_bind_eq_ok.mp h
  cases hc2
  exact ⟨rfl, rfl⟩

/-- Whoever signs has as many entries of `c1` as `Sign` reads. -/
theorem Miracl.le_length_of_sign (M : Miracl ECP ECP2 FP12) {pp : Params ECP2} {uav : UAV}
    {t : Int32} {msg : ℤ} {sig : ParSig ECP} (h : (M.sign pp uav t msg).out = .ok sig) :
    count (t - 1) ≤ uav.c1.length := by
  obtain ⟨s, hs, -⟩ := Run.out_bind_eq_ok.mp h
  have hall := Run.forall_of_upTo_out (p := (· < uav.c1.length))
    (fun i s s' hbody ↦ Run.lt_length_of_index_bind_out hbody) hs
  by_contra hlt
  exact absurd (hall uav.c1.length (by omega)) (lt_irrefl _)

/-! ## Runs -/

section Carries

variable (M : Miracl ECP ECP2 FP12) (C : PointCodec ECP ECP2) (ρ₁ : ECP → ECP) (ρ₂ : ECP2 → ECP2)

/-- An action, failed or not, whose points arrive as `ρ₁` and `ρ₂` of themselves. -/
structure Carries (s : Sys ECP ECP2) (a : Action) : Prop where
  point : ∀ P, Sends M s a P → C.carry P = ρ₁ P
  point2 : ∀ P, Sends2 s a P → C.carry2 P = ρ₂ P

variable {M C ρ₁ ρ₂} {s : Sys ECP ECP2} {a : Action}

theorem Delivers.carries (h : Delivers M C ρ₁ ρ₂ s a) : Carries M C ρ₁ ρ₂ s a :=
  ⟨h.point, h.point2⟩

theorem Carries.mapPoints {ta : TA ECP2} {c : Client} {u : ℕ → Fin curveOrder}
    (h : Carries M C ρ₁ ρ₂ s (.register c u)) (hta : s.ta = some ta) :
    ta.pp.mapPoints C.carry2 = ta.pp.mapPoints ρ₂ := by
  rw [Params.mapPoints, Params.mapPoints, h.point2 _ (.P2 hta),
    List.map_congr_left fun P hP ↦ h.point2 P (.PK hta hP)]

end Carries

/-! ## What the processes hold -/

/-- The UAV `i` serves with a key that the TA has issued. -/
def Sys.Keyed (s : Sys ECP ECP2) (i : ℕ) : Prop :=
  ∃ ta pp id uav, s.ta = some ta ∧ s.uavs i = .serving pp uav ∧ ta.Issued id uav

section Data

variable (M : Miracl ECP ECP2 FP12) (ρ₁ : ECP → ECP)

/-- The partial signatures of the given UAVs. -/
def Gathered (s : Sys ECP ECP2) (ta : TA ECP2) (ports : List ℕ) (sigmas : List (ParSig ECP)) :
    Prop :=
  List.Forall₂ (Signed M ρ₁ s ta) ports sigmas

/-- What `AggSig` makes of them for the verifier with key `sk_v` arrives as `sigma`. -/
def Converted (s : Sys ECP ECP2) (ta : TA ECP2) (ports : List ℕ) (sk_v e : Fin curveOrder)
    (sigma : Sigma ECP) : Prop :=
  ∃ sigmas PK_v sigma₀, Gathered M ρ₁ s ta ports sigmas ∧
    (powMpz ta.pp.g (randMpz sk_v) ta.pp.q).out = .ok PK_v ∧
    (M.aggSig sigmas ta.pp { ID := headID, alpha := ta.sk } PK_v e).out = .ok sigma₀ ∧
    sigma = sigma₀.mapPoints ρ₁

end Data

section Holds

variable [DecidableEq FP12] (M : Miracl ECP ECP2 FP12) (C : PointCodec ECP ECP2)
variable (n tm : Int32) (msg : ℤ) (ρ₁ : ECP → ECP) (ρ₂ : ECP2 → ECP2)

/-- What a UAV holds. -/
inductive UAVHolds (s : Sys ECP ECP2) : UAVProc ECP2 → Prop
  | start : UAVHolds s .start
  | sent {id : Fin curveOrder} : UAVHolds s (.registering id (.sent ⟨mpzToStr (randMpz id)⟩))
  | replied {ta : TA ECP2} {id : Fin curveOrder} {response : UAVIDResponse} (hta : s.ta = some ta)
      (hsave : ∀ pp uav, (C.saveUAV (randMpz id) response).out = .ok (pp, uav) →
        pp = ta.pp.mapPoints ρ₂ ∧ (ta.Issued id uav ∨ uav.c1 = [])) :
      UAVHolds s (.registering id (.replied response))
  | keyed {ta : TA ECP2} {id : Fin curveOrder} {uav : UAV} (hta : s.ta = some ta)
      (hissued : ta.Issued id uav) : UAVHolds s (.serving (ta.pp.mapPoints ρ₂) uav)
  | keyless {pp : Params ECP2} {uav : UAV} (h : uav.c1 = []) : UAVHolds s (.serving pp uav)

/-- What the aggregator holds, when it has the partial signatures of the given UAVs. -/
inductive AggHolds (s : Sys ECP ECP2) (ports : List ℕ) (closed : Bool) : AggProc ECP ECP2 → Prop
  | start (hports : ports = []) (hopen : closed = false) : AggHolds s ports closed .start
  | sent (hports : ports = []) (hopen : closed = false) :
      AggHolds s ports closed (.registering (.sent ⟨mpzToStr headID⟩))
  | replied {ta : TA ECP2} {response : UAVIDResponse} (hports : ports = []) (hopen : closed = false)
      (hta : s.ta = some ta) (hsave : C.saveHead response = pure (ta.head ρ₂ [])) :
      AggHolds s ports closed (.registering (.replied response))
  | idle {ta : TA ECP2} {i : ℕ} {sigmas : List (ParSig ECP)} (hopen : closed = false)
      (hta : s.ta = some ta) (hports : ∀ j ∈ ports, j < i)
      (hsigmas : Gathered M ρ₁ s ta ports sigmas) :
      AggHolds s ports closed (.collecting (ta.head ρ₂ sigmas) i none)
  | asked {ta : TA ECP2} {i : ℕ} {sigmas : List (ParSig ECP)} (hopen : closed = false)
      (hta : s.ta = some ta) (hports : ∀ j ∈ ports, j < i) (hi : i < count ta.t)
      (hsigmas : Gathered M ρ₁ s ta ports sigmas) :
      AggHolds s ports closed
        (.collecting (ta.head ρ₂ sigmas) i (some (.sent ⟨mpzToStr ta.M, ta.t⟩)))
  | answered {ta : TA ECP2} {i : ℕ} {sigmas : List (ParSig ECP)} {response : SignResponse}
      {sigma : ParSig ECP} (hopen : closed = false) (hta : s.ta = some ta)
      (hports : ∀ j ∈ ports, j < i) (hi : i < count ta.t)
      (hsigmas : Gathered M ρ₁ s ta ports sigmas) (hkeyed : s.Keyed i)
      (hsigned : Signed M ρ₁ s ta i sigma) (hread : C.readParSig response = pure sigma) :
      AggHolds s ports closed (.collecting (ta.head ρ₂ sigmas) i (some (.replied response)))
  | serving {ta : TA ECP2} {sigmas : List (ParSig ECP)} (hclosed : closed = true)
      (hta : s.ta = some ta) (hsigmas : Gathered M ρ₁ s ta ports sigmas) :
      AggHolds s ports closed (.serving (ta.head ρ₂ sigmas))
  | unset (hports : ports = []) (hopen : closed = false) :
      AggHolds s ports closed (.collecting Head.unset 0 none)
  | servingUnset (hports : ports = []) (hclosed : closed = true) :
      AggHolds s ports closed (.serving Head.unset)

/-- What the verifier holds. -/
inductive VerifierHolds (s : Sys ECP ECP2) (ports : List ℕ) (closed : Bool) :
    VerifierProc ECP2 → Prop
  | start : VerifierHolds s ports closed .start
  | sent {id : Fin curveOrder} :
      VerifierHolds s ports closed (.registering id (.sent ⟨mpzToStr (randMpz id)⟩))
  | replied {ta : TA ECP2} {id : Fin curveOrder} {response : UAVIDResponse} (hta : s.ta = some ta)
      (hsave : C.saveVerifier response = pure (ta.verifier ρ₂)) :
      VerifierHolds s ports closed (.registering id (.replied response))
  | ready {ta : TA ECP2} (hta : s.ta = some ta) :
      VerifierHolds s ports closed (.ready (ta.verifier ρ₂))
  | unset : VerifierHolds s ports closed (.ready Verifier.unset)
  | asked {ta : TA ECP2} {sk_v : Fin curveOrder} {PK_v : ℤ} (hta : s.ta = some ta)
      (hPK : (powMpz ta.pp.g (randMpz sk_v) ta.pp.q).out = .ok PK_v) :
      VerifierHolds s ports closed (.verifying (ta.verifier ρ₂) sk_v (.sent ⟨mpzToStr PK_v⟩))
  | answered {ta : TA ECP2} {sk_v e : Fin curveOrder} {response : VerifyResponse}
      {sigma : Sigma ECP} (hclosed : closed = true) (hta : s.ta = some ta)
      (hsigma : Converted M ρ₁ s ta ports sk_v e sigma)
      (hread : C.readSigma response = pure sigma) :
      VerifierHolds s ports closed (.verifying (ta.verifier ρ₂) sk_v (.replied (response, e)))
  | done {v : Verifier ECP2} : VerifierHolds s ports closed (.done v)

/-- What is recorded of a check. -/
def CheckHolds (s : Sys ECP ECP2) (ports : List ℕ) (c : Check ECP) : Prop :=
  ∃ ta, s.ta = some ta ∧ Converted M ρ₁ s ta ports c.sk_v c.e c.sigma ∧
    c.verdict = (M.verify c.sigma (randMpz c.sk_v) (ta.pp.mapPoints ρ₂) ta.M ta.t).out

/-- The run has come as far as the session. -/
structure Matches (s : Sys ECP ECP2) (a : Session) : Prop where
  ta : ∀ ta, s.ta = some ta → ∃ r, (M.initParams n tm msg r).out = .ok ta
  keyed : a.keyed = {i | s.Keyed i}
  uavs : ∀ i, UAVHolds C ρ₂ s (s.uavs i)
  agg : AggHolds M C ρ₁ ρ₂ s a.collected a.closed s.agg
  ver : VerifierHolds M C ρ₁ ρ₂ s a.collected a.closed s.ver
  checks : ∀ c ∈ s.checks, CheckHolds M ρ₁ ρ₂ s a.collected c
  findings : a.findings.length = s.checks.length

end Holds

/-! ## Frames -/

section Frame

variable {M : Miracl ECP ECP2 FP12} {C : PointCodec ECP ECP2}
variable {n tm : Int32} {msg : ℤ} {ρ₁ : ECP → ECP} {ρ₂ : ECP2 → ECP2} {s s' : Sys ECP ECP2}
variable {ports : List ℕ} {closed : Bool}

omit [AddCommGroup ECP] [AddCommGroup ECP2] in
theorem Sys.Keyed.mono (h : Extends s s') {i : ℕ} (hi : s.Keyed i) : s'.Keyed i := by
  obtain ⟨ta, pp, id, uav, hta, huav, hissued⟩ := hi
  exact ⟨ta, pp, id, uav, h.ta hta, h.uavs huav, hissued⟩

theorem Gathered.mono (h : Extends s s') {ta : TA ECP2} {sigmas : List (ParSig ECP)}
    (hs : Gathered M ρ₁ s ta ports sigmas) : Gathered M ρ₁ s' ta ports sigmas :=
  List.Forall₂.imp (fun _ _ ↦ Signed.mono h) hs

theorem Converted.mono (h : Extends s s') {ta : TA ECP2} {sk_v e : Fin curveOrder}
    {sigma : Sigma ECP} (hs : Converted M ρ₁ s ta ports sk_v e sigma) :
    Converted M ρ₁ s' ta ports sk_v e sigma := by
  obtain ⟨sigmas, PK_v, sigma₀, hsigmas, hrest⟩ := hs
  exact ⟨sigmas, PK_v, sigma₀, hsigmas.mono h, hrest⟩

omit [AddCommGroup ECP] [AddCommGroup ECP2] in
theorem UAVHolds.mono (h : Extends s s') {p : UAVProc ECP2} (hp : UAVHolds C ρ₂ s p) :
    UAVHolds C ρ₂ s' p := by
  cases hp with
  | start => exact .start
  | sent => exact .sent
  | replied hta hsave => exact .replied (h.ta hta) hsave
  | keyed hta hissued => exact .keyed (h.ta hta) hissued
  | keyless hkey => exact .keyless hkey

theorem AggHolds.mono (h : Extends s s') {p : AggProc ECP ECP2}
    (hp : AggHolds M C ρ₁ ρ₂ s ports closed p) : AggHolds M C ρ₁ ρ₂ s' ports closed p := by
  cases hp with
  | start hports hopen => exact .start hports hopen
  | sent hports hopen => exact .sent hports hopen
  | replied hports hopen hta hsave => exact .replied hports hopen (h.ta hta) hsave
  | idle hopen hta hports hsigmas => exact .idle hopen (h.ta hta) hports (hsigmas.mono h)
  | asked hopen hta hports hi hsigmas => exact .asked hopen (h.ta hta) hports hi (hsigmas.mono h)
  | answered hopen hta hports hi hsigmas hkeyed hsigned hread =>
      exact .answered hopen (h.ta hta) hports hi (hsigmas.mono h) (hkeyed.mono h) (hsigned.mono h)
        hread
  | serving hclosed hta hsigmas => exact .serving hclosed (h.ta hta) (hsigmas.mono h)
  | unset hports hopen => exact .unset hports hopen
  | servingUnset hports hclosed => exact .servingUnset hports hclosed

theorem VerifierHolds.mono (h : Extends s s') {p : VerifierProc ECP2}
    (hp : VerifierHolds M C ρ₁ ρ₂ s ports closed p) :
    VerifierHolds M C ρ₁ ρ₂ s' ports closed p := by
  cases hp with
  | start => exact .start
  | sent => exact .sent
  | replied hta hsave => exact .replied (h.ta hta) hsave
  | ready hta => exact .ready (h.ta hta)
  | unset => exact .unset
  | asked hta hPK => exact .asked (h.ta hta) hPK
  | answered hclosed hta hsigma hread =>
      exact .answered hclosed (h.ta hta) (hsigma.mono h) hread
  | done => exact .done

/-- While the collector asks, the verifier holds nothing that depends on what is collected. -/
theorem VerifierHolds.of_open {p : VerifierProc ECP2}
    (hp : VerifierHolds M C ρ₁ ρ₂ s ports false p) (ports' : List ℕ) (closed' : Bool) :
    VerifierHolds M C ρ₁ ρ₂ s ports' closed' p := by
  cases hp with
  | start => exact .start
  | sent => exact .sent
  | replied hta hsave => exact .replied hta hsave
  | ready hta => exact .ready hta
  | unset => exact .unset
  | asked hta hPK => exact .asked hta hPK
  | answered hclosed => cases hclosed
  | done => exact .done

variable [DecidableEq FP12]

theorem CheckHolds.mono (h : Extends s s') {c : Check ECP} (hc : CheckHolds M ρ₁ ρ₂ s ports c) :
    CheckHolds M ρ₁ ρ₂ s' ports c := by
  obtain ⟨ta, hta, hsigma, hverdict⟩ := hc
  exact ⟨ta, h.ta hta, hsigma.mono h, hverdict⟩

variable {a b : Session}

/-- When the TA and the UAVs stay, what the other processes hold is looked at in the old state. -/
theorem Matches.of_same (h : Matches M C n tm msg ρ₁ ρ₂ s a) (hta : s'.ta = s.ta)
    (huavs : s'.uavs = s.uavs) (hkeyed : b.keyed = a.keyed)
    (hagg : AggHolds M C ρ₁ ρ₂ s b.collected b.closed s'.agg)
    (hver : VerifierHolds M C ρ₁ ρ₂ s b.collected b.closed s'.ver)
    (hchecks : ∀ c ∈ s'.checks, CheckHolds M ρ₁ ρ₂ s b.collected c)
    (hfindings : b.findings.length = s'.checks.length) : Matches M C n tm msg ρ₁ ρ₂ s' b := by
  have hext : Extends s s' := ⟨fun h ↦ hta.trans h, fun h ↦ (congrFun huavs _).trans h⟩
  have hsame : s'.Keyed = s.Keyed := by
    funext i
    rw [Sys.Keyed, Sys.Keyed, hta, huavs]
  refine ⟨fun ta h' ↦ h.ta ta (hta.symm.trans h'), ?_, fun i ↦ ?_, hagg.mono hext, hver.mono hext,
    fun c hc ↦ (hchecks c hc).mono hext, hfindings⟩
  · rw [hkeyed, h.keyed, hsame]
  · rw [huavs]
    exact (h.uavs i).mono hext

theorem Matches.setAgg (h : Matches M C n tm msg ρ₁ ρ₂ s a) {p : AggProc ECP ECP2}
    (hp : AggHolds M C ρ₁ ρ₂ s a.collected a.closed p) :
    Matches M C n tm msg ρ₁ ρ₂ { s with agg := p } a :=
  h.of_same rfl rfl rfl hp h.ver h.checks h.findings

theorem Matches.setVer (h : Matches M C n tm msg ρ₁ ρ₂ s a) {p : VerifierProc ECP2}
    (hp : VerifierHolds M C ρ₁ ρ₂ s a.collected a.closed p) :
    Matches M C n tm msg ρ₁ ρ₂ { s with ver := p } a :=
  h.of_same rfl rfl rfl h.agg hp h.checks h.findings

theorem Matches.record (h : Matches M C n tm msg ρ₁ ρ₂ s a) (f : Fault) :
    Matches M C n tm msg ρ₁ ρ₂ ((protocol M C n tm msg).record s f) a :=
  h.of_same rfl rfl rfl h.agg h.ver h.checks h.findings

/-- The vectors of the TA are long enough, and its keys have a `c1`. -/
theorem Matches.sized (h : Matches M C n tm msg ρ₁ ρ₂ s a) (htm : 2 ≤ tm.toInt) {ta : TA ECP2}
    (hta : s.ta = some ta) : ta.Sized tm := by
  obtain ⟨r, hr⟩ := h.ta ta hta
  exact (ensures_initParams M n htm msg r).post hr

omit [AddCommGroup ECP2] in
theorem TA.Sized.c1_ne_nil (htm : 2 ≤ tm.toInt) {ta : TA ECP2} (h : ta.Sized tm)
    {id : Fin curveOrder} {uav : UAV} (hissued : ta.Issued id uav) : uav.c1 ≠ [] := by
  have hcount : (count (tm - 1) : ℤ) = tm.toInt - 1 := cast_count_sub_one (by omega)
  rw [← List.length_pos_iff, (h.length_key hissued).1]
  omega

/-- The TA starts.  Nobody has a key yet, since a process without globals has none. -/
theorem Matches.setTA (h : Matches M C n tm msg ρ₁ ρ₂ s a) (htm : 2 ≤ tm.toInt)
    (hnone : s.ta = none) {r : TADraws} {ta : TA ECP2}
    (hta : (M.initParams n tm msg r).out = .ok ta) :
    Matches M C n tm msg ρ₁ ρ₂ { s with ta := some ta } a := by
  have hext : Extends s { s with ta := some ta } :=
    ⟨fun h' ↦ absurd (hnone.symm.trans h') (Option.some_ne_none _).symm, id⟩
  have hsized := (ensures_initParams M n htm msg r).post hta
  refine ⟨fun ta' h' ↦ ⟨r, ?_⟩, ?_, fun i ↦ (h.uavs i).mono hext, h.agg.mono hext, h.ver.mono hext,
    fun c hc ↦ (h.checks c hc).mono hext, h.findings⟩
  · cases h'
    exact hta
  · rw [h.keyed]
    ext i
    constructor
    · exact fun hi ↦ hi.mono hext
    · rintro ⟨ta', pp, id, uav, ⟨⟩, huav, hissued⟩
      have hholds := h.uavs i
      rw [show s.uavs i = .serving pp uav from huav] at hholds
      cases hholds with
      | keyed hta' => exact absurd (hnone.symm.trans hta') (Option.some_ne_none _).symm
      | keyless hnil => exact absurd hnil (hsized.c1_ne_nil htm hissued)

/-- A UAV that does not serve yet changes; it may have got its key. -/
theorem Matches.setUAV (h : Matches M C n tm msg ρ₁ ρ₂ s a) {i : ℕ} {p : UAVProc ECP2}
    (hold : ∀ pp uav, s.uavs i ≠ .serving pp uav) (hp : UAVHolds C ρ₂ s p) (t : ℕ) :
    ∃ b, Relation.ReflTransGen (Session.Step t) a b ∧
      Matches M C n tm msg ρ₁ ρ₂ (s.setUAV i p) b := by
  have hext : Extends s (s.setUAV i p) := by
    refine ⟨id, fun {j pp uav} hj ↦ ?_⟩
    have hne : j ≠ i := fun hji ↦ hold pp uav (hji ▸ hj)
    exact (s.uavs_setUAV_of_ne hne p).trans hj
  have huavs : ∀ j, UAVHolds C ρ₂ (s.setUAV i p) ((s.setUAV i p).uavs j) := by
    intro j
    by_cases hji : j = i
    · rw [hji, Sys.uavs_setUAV_self]
      exact hp.mono hext
    · rw [Sys.uavs_setUAV_of_ne _ hji]
      exact (h.uavs j).mono hext
  have hnot : ¬ s.Keyed i := fun ⟨_, pp, _, uav, _, huav, _⟩ ↦ hold pp uav huav
  have hothers : ∀ j ≠ i, (s.setUAV i p).Keyed j ↔ s.Keyed j := by
    intro j hji
    rw [Sys.Keyed, Sys.Keyed, Sys.uavs_setUAV_of_ne _ hji]
    rfl
  have hmatches (keyed : Set ℕ) (hkeyed : keyed = {j | (s.setUAV i p).Keyed j}) :
      Matches M C n tm msg ρ₁ ρ₂ (s.setUAV i p) { a with keyed := keyed } :=
    ⟨h.ta, hkeyed, huavs, h.agg.mono hext, h.ver.mono hext, fun c hc ↦ (h.checks c hc).mono hext,
      h.findings⟩
  by_cases hnew : (s.setUAV i p).Keyed i
  · refine ⟨_, .single (.key i (by rw [h.keyed]; exact hnot)), hmatches _ ?_⟩
    ext j
    by_cases hji : j = i
    · subst hji
      exact iff_of_true (Set.mem_insert _ _) hnew
    · rw [Set.mem_insert_iff, or_iff_right hji, h.keyed]
      exact (hothers j hji).symm
  · refine ⟨a, .refl, hmatches a.keyed ?_⟩
    rw [h.keyed]
    ext j
    by_cases hji : j = i
    · subst hji
      exact iff_of_false hnot hnew
    · exact (hothers j hji).symm

/-! ## The steps -/

theorem Matches.uav_at (h : Matches M C n tm msg ρ₁ ρ₂ s a) {i : ℕ} {p : UAVProc ECP2}
    (hp : s.uavs i = p) : UAVHolds C ρ₂ s p := hp ▸ h.uavs i

theorem Matches.agg_at (h : Matches M C n tm msg ρ₁ ρ₂ s a) {p : AggProc ECP ECP2}
    (hp : s.agg = p) : AggHolds M C ρ₁ ρ₂ s a.collected a.closed p := hp ▸ h.agg

theorem Matches.ver_at (h : Matches M C n tm msg ρ₁ ρ₂ s a) {p : VerifierProc ECP2}
    (hp : s.ver = p) : VerifierHolds M C ρ₁ ρ₂ s a.collected a.closed p := hp ▸ h.ver

omit [DecidableEq FP12] in
/-- What a UAV saves: its key, or no `c1` when it was taken for the head. -/
theorem UAVHolds.replied_of_register {ta : TA ECP2} (hta : s.ta = some ta) {i : ℕ}
    {u : ℕ → Fin curveOrder} (hc : Carries M C ρ₁ ρ₂ s (.register (.uav i) u))
    {id : Fin curveOrder} {response : UAVIDResponse}
    (hok : (C.register ta ⟨mpzToStr (randMpz id)⟩ u).out = .ok response) :
    UAVHolds C ρ₂ s (.registering id (.replied response)) := by
  refine .replied hta fun pp uav hsave ↦ ?_
  by_cases hid : randMpz id = headID
  · rw [hid, C.register_headID, Run.out_pure] at hok
    injection hok with hok
    rw [← hok] at hsave
    obtain ⟨hpp, hnil⟩ := c1_of_saveUAV_headResponse C hsave
    exact ⟨hpp.trans (hc.mapPoints hta), .inr hnil⟩
  · obtain ⟨uav', hissued, hsave'⟩ := C.saveUAV_of_register hid hok
    rw [hsave'] at hsave
    cases hsave
    exact ⟨hc.mapPoints hta, .inl ⟨u, hissued⟩⟩

/-- The UAV that is asked signs only with a key. -/
theorem Matches.sign (h : Matches M C n tm msg ρ₁ ρ₂ s a) (htm : 2 ≤ tm.toInt)
    (hc : Carries M C ρ₁ ρ₂ s .sign) {head : Head ECP ECP2} {i : ℕ} {request : SignRequest}
    {pp : Params ECP2} {uav : UAV} (hagg : s.agg = .collecting head i (some (.sent request)))
    (huav : s.uavs i = .serving pp uav) {sig : ParSig ECP}
    (hok : (M.signService pp uav request).out = .ok sig) :
    Matches M C n tm msg ρ₁ ρ₂
      { s with agg := .collecting head i (some (.replied (C.writeParSig sig))) } a := by
  have hpoint := hc.point _ (.sign hagg huav hok)
  cases h.agg_at hagg with
  | @asked ta _ sigmas hopen hta hports hi hsigmas =>
      rw [Miracl.signService, strToMpz_mpzToStr, pure_bind] at hok
      cases h.uav_at huav with
      | keyed hta' hissued =>
          cases hta.symm.trans hta'
          refine h.setAgg (.answered hopen hta hports hi hsigmas ⟨_, _, _, _, hta, huav, hissued⟩
            ⟨_, _, sig, huav, hok, rfl⟩ ?_)
          rw [C.readParSig_writeParSig, ParSig.mapPoint, hpoint]
          rfl
      | keyless hnil =>
          have ht := ((h.sized htm hta).toInt_t htm).1
          have hcount : (count (ta.t - 1) : ℤ) = ta.t.toInt - 1 := cast_count_sub_one (by omega)
          have hle : count (ta.t - 1) ≤ uav.c1.length := M.le_length_of_sign hok
          rw [hnil, List.length_nil] at hle
          omega

/-- Before the collector stops asking there are no checks. -/
theorem Matches.checks_eq_nil (h : Matches M C n tm msg ρ₁ ρ₂ s a) {t : ℕ} (hinv : Session.Inv t a)
    (hopen : a.closed = false) : s.checks = [] := by
  have hnil : a.findings = [] := by
    refine List.eq_nil_iff_forall_not_mem.mpr fun v hv ↦ ?_
    rw [(hinv.findings v hv).1] at hopen
    cases hopen
  rw [← List.length_eq_zero_iff, ← h.findings, hnil, List.length_nil]

/-- The collector goes on, and holds a list that may be longer. -/
theorem Matches.setCollected (h : Matches M C n tm msg ρ₁ ρ₂ s a) {t : ℕ} (hinv : Session.Inv t a)
    (hopen : a.closed = false) {ports : List ℕ} {closed : Bool} {p : AggProc ECP ECP2}
    (hp : AggHolds M C ρ₁ ρ₂ s ports closed p) :
    Matches M C n tm msg ρ₁ ρ₂ { s with agg := p }
      { a with collected := ports, closed := closed } := by
  have hchecks := h.checks_eq_nil hinv hopen
  have hver := h.ver
  rw [hopen] at hver
  refine h.of_same rfl rfl rfl hp (hver.of_open ports closed) ?_ h.findings
  rw [show ({ s with agg := p } : Sys ECP ECP2).checks = [] from hchecks]
  exact fun c hc ↦ absurd hc List.not_mem_nil

theorem Matches.ta_t (h : Matches M C n tm msg ρ₁ ρ₂ s a) {ta : TA ECP2} (hta : s.ta = some ta) :
    ta.t = tm / 2 + 1 := by
  obtain ⟨r, hr⟩ := h.ta ta hta
  exact (ta_t_of_initParams M hr).2

/-- The aggregator keeps a partial signature. -/
theorem Matches.collected (h : Matches M C n tm msg ρ₁ ρ₂ s a)
    (hinv : Session.Inv (count (tm / 2 + 1)) a) {head : Head ECP ECP2} {i : ℕ}
    {response : SignResponse} (hagg : s.agg = .collecting head i (some (.replied response)))
    {r : List (ParSig ECP) × Option ℤ}
    (hok : (C.collectOne (.reply response) head.sigmas).out = .ok r) :
    ∃ b, Relation.ReflTransGen (Session.Step (count (tm / 2 + 1))) a b ∧
      Matches M C n tm msg ρ₁ ρ₂ { s with agg := .next head i r } b := by
  cases h.agg_at hagg with
  | answered hopen hta hports hi hsigmas hkeyed hsigned hread =>
      rw [PointCodec.collectOne, hread, pure_bind] at hok
      cases hok
      rw [h.ta_t hta] at hi
      have hstep := Session.Step.collect i hopen hi (by rw [h.keyed]; exact hkeyed) hports
      refine ⟨_, .single hstep, h.setCollected hinv hopen (.idle hopen hta ?_ ?_)⟩
      · rw [List.forall_mem_append, List.forall_mem_singleton]
        exact ⟨fun j hj ↦ (hports j hj).trans i.lt_succ_self, i.lt_succ_self⟩
      · exact List.rel_append hsigmas (.cons hsigned .nil)

/-- A UAV is passed over, or the collector stops asking. -/
theorem Matches.collectFailed (h : Matches M C n tm msg ρ₁ ρ₂ s a) {t : ℕ}
    (hinv : Session.Inv t a) {outcome : SignOutcome} {head : Head ECP ECP2} {i : ℕ}
    {call : Option (Call SignRequest SignResponse)} (hagg : s.agg = .collecting head i call)
    (hi : i < count head.t_AGG) (houtcome : ∀ response, outcome ≠ .reply response)
    {r : List (ParSig ECP) × Option ℤ} (hok : (C.collectOne outcome head.sigmas).out = .ok r) :
    ∃ b, Relation.ReflTransGen (Session.Step t) a b ∧
      Matches M C n tm msg ρ₁ ρ₂ { s with agg := .next head i r } b := by
  -- Registered or not, the aggregator is in the loop with what it has collected.
  obtain ⟨ta, sigmas, rfl, hta, hopen, hports, hsigmas⟩ : ∃ ta sigmas, head = ta.head ρ₂ sigmas ∧
      s.ta = some ta ∧ a.closed = false ∧ (∀ j ∈ a.collected, j < i) ∧
      Gathered M ρ₁ s ta a.collected sigmas := by
    cases h.agg_at hagg with
    | idle hopen hta hports hsigmas => exact ⟨_, _, rfl, hta, hopen, hports, hsigmas⟩
    | asked hopen hta hports _ hsigmas => exact ⟨_, _, rfl, hta, hopen, hports, hsigmas⟩
    | answered hopen hta hports _ hsigmas => exact ⟨_, _, rfl, hta, hopen, hports, hsigmas⟩
    | unset => exact absurd hi (Nat.not_lt_zero _)
  have hnext : ∀ j ∈ a.collected, j < i + 1 := fun j hj ↦ (hports j hj).trans i.lt_succ_self
  cases outcome with
  | reply response => exact absurd rfl (houtcome response)
  | initFailed =>
      cases hok
      exact ⟨_, .single (.close hopen), h.setCollected hinv hopen (.serving rfl hta hsigmas)⟩
  | askedToQuit =>
      cases hok
      exact ⟨a, .refl, h.setAgg (.idle hopen hta hnext hsigmas)⟩
  | rpcFailed =>
      cases hok
      exact ⟨a, .refl, h.setAgg (.idle hopen hta hnext hsigmas)⟩

/-- Only a registered aggregator answers a registered verifier. -/
theorem Matches.tran (h : Matches M C n tm msg ρ₁ ρ₂ s a) {e : Fin curveOrder}
    (hc : Carries M C ρ₁ ρ₂ s (.tran e)) {head : Head ECP ECP2} {v : Verifier ECP2}
    {sk_v : Fin curveOrder} {request : VerifyRequest} (hagg : s.agg = .serving head)
    (hver : s.ver = .verifying v sk_v (.sent request)) {sigma : Sigma ECP}
    (hok : (M.tranService head request e).out = .ok sigma) :
    Matches M C n tm msg ρ₁ ρ₂
      { s with ver := .verifying v sk_v (.replied (C.writeSigma sigma, e)) } a := by
  have hpoint := fun P hP ↦ hc.point P (.tran hagg hver hok hP)
  cases h.ver_at hver with
  | asked hta hPK =>
      rw [Miracl.tranService, strToMpz_mpzToStr, pure_bind] at hok
      cases h.agg_at hagg with
      | serving hclosed hta' hsigmas =>
          cases hta.symm.trans hta'
          refine h.setVer (.answered hclosed hta ⟨_, _, sigma, hsigmas, hPK, hok, rfl⟩ ?_)
          rw [C.readSigma_writeSigma, Sigma.mapPoints, List.map_congr_left hpoint]
          rfl
      | servingUnset =>
          -- The modulus of unset parameters is zero.
          obtain ⟨rk, hrk, -⟩ := Run.out_bind_eq_ok.mp hok
          obtain ⟨hash, hhash, -⟩ := Run.out_bind_eq_ok.mp hrk
          obtain ⟨shared, hshared, -⟩ := Run.out_bind_eq_ok.mp hhash
          cases hshared

theorem Matches.verify (h : Matches M C n tm msg ρ₁ ρ₂ s a) {t : ℕ} {v : Verifier ECP2}
    {sk_v e : Fin curveOrder} {response : VerifyResponse}
    (hver : s.ver = .verifying v sk_v (.replied (response, e))) {sigma : Sigma ECP}
    (hok : (C.readSigma response).out = .ok sigma) :
    ∃ b, Relation.ReflTransGen (Session.Step t) a b ∧ Matches M C n tm msg ρ₁ ρ₂ { s with
      ver := .done v
      checks := s.checks ++
        [⟨sk_v, e, sigma, (M.verify sigma (randMpz sk_v) v.params v.Msg v.T).out⟩] } b := by
  cases h.ver_at hver with
  | answered hclosed hta hsigma hread =>
      rw [hread] at hok
      cases hok
      refine ⟨_, .single (.check hclosed), h.of_same rfl rfl rfl h.agg .done ?_ ?_⟩
      · rw [List.forall_mem_append, List.forall_mem_singleton]
        exact ⟨h.checks, _, hta, hsigma, rfl⟩
      · rw [List.length_append, List.length_append, h.findings]
        rfl

/-- Every action that returns is followed by the session. -/
theorem Matches.ok {act : Action} {x : Exec (Sys ECP ECP2)}
    (h : Matches M C n tm msg ρ₁ ρ₂ s a) (htm : 2 ≤ tm.toInt)
    (hinv : Session.Inv (count (tm / 2 + 1)) a) (hc : Carries M C ρ₁ ρ₂ s act)
    (he : Enabled M C n tm msg s act x) (hx : x.out = .ok s') :
    ∃ b, Relation.ReflTransGen (Session.Step (count (tm / 2 + 1))) a b ∧
      Matches M C n tm msg ρ₁ ρ₂ s' b := by
  cases he with
  | initParams r hta =>
      obtain ⟨ta, hok, ⟨⟩⟩ := Run.out_bind_eq_ok.mp hx
      exact ⟨a, .refl, h.setTA htm hta hok⟩
  | registerUAV i id huav =>
      cases hx
      exact h.setUAV (by rw [huav]; rintro _ _ ⟨⟩) .sent _
  | getPpAndSk hagg =>
      cases hx
      cases h.agg_at hagg with
      | start hports hopen => exact ⟨a, .refl, h.setAgg (.sent hports hopen)⟩
  | getParams id hver =>
      cases hx
      exact ⟨a, .refl, h.setVer .sent⟩
  | registerForUAV u hta huav =>
      obtain ⟨response, hok, ⟨⟩⟩ := Run.out_bind_eq_ok.mp hx
      refine h.setUAV (by rw [huav]; rintro _ _ ⟨⟩) ?_ _
      cases h.uav_at huav with
      | sent => exact .replied_of_register hta hc hok
  | registerForAgg u hta hagg =>
      obtain ⟨response, hok, ⟨⟩⟩ := Run.out_bind_eq_ok.mp hx
      cases h.agg_at hagg with
      | sent hports hopen =>
          have hsave := C.saveHead_of_register hok
          rw [TA.head, hc.mapPoints hta] at hsave
          exact ⟨a, .refl, h.setAgg (.replied hports hopen hta hsave)⟩
  | registerForVerifier u hta hver =>
      obtain ⟨response, hok, ⟨⟩⟩ := Run.out_bind_eq_ok.mp hx
      have hsave := C.saveVerifier_of_register hok
      rw [TA.verifier, hc.mapPoints hta] at hsave
      exact ⟨a, .refl, h.setVer (.replied hta hsave)⟩
  | registerOther request u hta =>
      obtain ⟨response, -, ⟨⟩⟩ := Run.out_bind_eq_ok.mp hx
      exact ⟨a, .refl, h⟩
  | saveUAV huav =>
      obtain ⟨⟨pp, uav⟩, hok, ⟨⟩⟩ := Run.out_bind_eq_ok.mp hx
      refine h.setUAV (by rw [huav]; rintro _ _ ⟨⟩) ?_ _
      cases h.uav_at huav with
      | replied hta hsave =>
          obtain ⟨rfl, hissued | hnil⟩ := hsave pp uav hok
          · exact .keyed hta hissued
          · exact .keyless hnil
  | saveHead hagg =>
      obtain ⟨head, hok, ⟨⟩⟩ := Run.out_bind_eq_ok.mp hx
      cases h.agg_at hagg with
      | replied hports hopen hta hsave =>
          rw [hsave] at hok
          cases hok
          refine ⟨a, .refl, h.setAgg (.idle hopen hta ?_ ?_)⟩
          · rw [hports]
            exact fun j hj ↦ absurd hj List.not_mem_nil
          · rw [hports]
            exact .nil
  | saveVerifier hver =>
      obtain ⟨v, hok, ⟨⟩⟩ := Run.out_bind_eq_ok.mp hx
      cases h.ver_at hver with
      | replied hta hsave =>
          rw [hsave] at hok
          cases hok
          exact ⟨a, .refl, h.setVer (.ready hta)⟩
  | registerUAVFailed huav =>
      cases hx
      exact h.setUAV (by rw [huav]; rintro _ _ ⟨⟩) (.keyless rfl) _
  | getPpAndSkFailed hagg =>
      cases hx
      cases h.agg_at hagg with
      | sent hports hopen => exact ⟨a, .refl, h.setAgg (.unset hports hopen)⟩
      | replied hports hopen => exact ⟨a, .refl, h.setAgg (.unset hports hopen)⟩
  | getParamsFailed hver =>
      cases hx
      exact ⟨a, .refl, h.setVer .unset⟩
  | collect hagg hi =>
      cases hx
      cases h.agg_at hagg with
      | idle hopen hta hports hsigmas =>
          exact ⟨a, .refl, h.setAgg (.asked hopen hta hports hi hsigmas)⟩
      | unset => exact absurd hi (Nat.not_lt_zero _)
  | sign hagg huav =>
      obtain ⟨sig, hok, ⟨⟩⟩ := Run.out_bind_eq_ok.mp hx
      exact ⟨a, .refl, h.sign htm hc hagg huav hok⟩
  | signOther request huav =>
      obtain ⟨sig, -, ⟨⟩⟩ := Run.out_bind_eq_ok.mp hx
      exact ⟨a, .refl, h⟩
  | collected hagg =>
      obtain ⟨r, hok, ⟨⟩⟩ := Run.out_bind_eq_ok.mp hx
      exact h.collected hinv hagg hok
  | @collectFailed outcome head i call hagg hi houtcome =>
      obtain ⟨r, hok, ⟨⟩⟩ := Run.out_bind_eq_ok.mp hx
      refine h.collectFailed hinv hagg hi ?_ hok
      rintro response rfl
      cases call with
      | none => rcases houtcome with h | h <;> cases h
      | some call => cases houtcome
  | startServerTran hagg hi =>
      cases hx
      cases h.agg_at hagg with
      | idle hopen hta hports hsigmas =>
          exact ⟨_, .single (.close hopen), h.setCollected hinv hopen (.serving rfl hta hsigmas)⟩
      | unset hports hopen =>
          exact ⟨_, .single (.close hopen), h.setCollected hinv hopen (.servingUnset hports rfl)⟩
  | verifySignature sk_v hver =>
      obtain ⟨request, hok, ⟨⟩⟩ := Run.out_bind_eq_ok.mp hx
      obtain ⟨PK_v, hPK, ⟨⟩⟩ := Run.out_bind_eq_ok.mp hok
      cases h.ver_at hver with
      | ready hta => exact ⟨a, .refl, h.setVer (.asked hta hPK)⟩
      | unset => cases hPK
  | tran e hagg hver =>
      obtain ⟨sigma, hok, ⟨⟩⟩ := Run.out_bind_eq_ok.mp hx
      exact ⟨a, .refl, h.tran hc hagg hver hok⟩
  | tranOther request e hagg =>
      obtain ⟨sigma, -, ⟨⟩⟩ := Run.out_bind_eq_ok.mp hx
      exact ⟨a, .refl, h⟩
  | verify hver =>
      obtain ⟨sigma, hok, ⟨⟩⟩ := Run.out_bind_eq_ok.mp hx
      exact h.verify hver hok
  | verifyFailed hver =>
      cases hx
      exact ⟨a, .refl, h.setVer .done⟩
  | verifyNotSent hver =>
      cases hx
      exact ⟨a, .refl, h.setVer .done⟩
  | restart hver =>
      cases hx
      exact ⟨a, .refl, h.setVer .start⟩

theorem Matches.init : Matches M C n tm msg ρ₁ ρ₂ (Sys.init ECP ECP2) Session.init where
  ta _ h := by cases h
  keyed := by
    ext i
    refine iff_of_false id ?_
    rintro ⟨_, _, _, _, h, -⟩
    cases h
  uavs _ := .start
  agg := .start rfl rfl
  ver := .start
  checks _ h := by cases h
  findings := rfl

/-- Every run, whatever fails in it, follows a session. -/
theorem Matches.of_reach (htm : 2 ≤ tm.toInt)
    (h : (protocol M C n tm msg).Reach (Carries M C ρ₁ ρ₂) (Sys.init ECP ECP2) s) :
    ∃ a, Session.Run (count (tm / 2 + 1)) a ∧ Matches M C n tm msg ρ₁ ρ₂ s a :=
  System.Reach.simulates Matches.init
    (fun hrun hmatches hc he hx ↦ hmatches.ok htm (Session.Run.inv hrun) hc he hx)
    (fun f hmatches ↦ hmatches.record f) h

end Frame

end Fussion
