import Fussion.Texts
import Fussion.Protocol.Bounds

/-!
# Faults

Which actions can fault, in runs where no registration and no call of `sign` fails and no UAV draws
the ID of the head.  The four programs themselves never do, and neither does `Verify`.  A request
from elsewhere makes a service fault exactly when it is malformed (`Action.Malformed`): it is not a
number, or asks a UAV for more factors than its key has.

Nothing is assumed of how points arrive.
-/

namespace Fussion

variable {ECP ECP2 FP12 : Type} [AddCommGroup ECP] [AddCommGroup ECP2] [CommGroup FP12]

/-! ## The functions -/

/-- The text is no hexadecimal number. -/
def Unreadable (str : Str) : Prop := ∀ x, ¬ IsNumber 16 (cStr str) x

theorem exists_strToMpz {str : Str} (h : ¬ Unreadable str) : ∃ x, strToMpz str = pure x := by
  rw [Unreadable] at h
  push Not at h
  obtain ⟨x, hx⟩ := h
  exact ⟨x, (strToMpz_eq_pure_iff str x).mpr hx⟩

theorem Unreadable.faults {str : Str} (h : Unreadable str) : (strToMpz str).Faults :=
  ⟨_, congrArg Run.out ((strToMpz_eq_fault_iff str).mpr h)⟩

theorem readable_mpzToStr (x : ℤ) : ¬ Unreadable (mpzToStr x) := fun h ↦
  h x ((strToMpz_eq_pure_iff _ x).mp (strToMpz_mpzToStr x))

section Scheme

omit [AddCommGroup ECP2] in
/-- `getUAV` returns for every ID. -/
theorem exists_getUAV {pp : Params ECP2} (hq : pp.q = curveOrder) {d b : List ℤ}
    (hlen : b.length ≤ d.length) (id : ℤ) (u : ℕ → Fin curveOrder) :
    ∃ uav, getUAV pp d b id u = pure uav := by
  refine Run.exists_bind_eq_pure (Run.exists_upTo_eq_pure (fun i hi c ↦ ?_) _) fun c ↦ ⟨_, rfl⟩
  have hu := (randMpz_pos (u i)).le
  simp only [subscript_of_lt hi 0, subscript_of_lt (hi.trans_le hlen) 0, fij, hq, pure_bind,
    remMpz_order, powMpz_order _ hu]
  exact ⟨_, rfl⟩

variable (M : Miracl ECP ECP2 FP12)

/-- `Sign` returns when the key has enough factors. -/
theorem exists_sign {pp : Params ECP2} (hq : pp.q = curveOrder) {uav : UAV} {t : Int32}
    (h₁ : count (t - 1) ≤ uav.c1.length) (h₂ : count (t - 1) ≤ uav.c2.length) (msg : ℤ) :
    ∃ sig, M.sign pp uav t msg = pure sig := by
  refine Run.exists_bind_eq_pure (Run.exists_upTo_eq_pure (fun i hi c ↦ ?_) _) fun c ↦ ⟨_, rfl⟩
  simp only [subscript_of_lt (hi.trans_le h₁) 0, subscript_of_lt (hi.trans_le h₂) 0, hq, pure_bind,
    remMpz_order]
  exact ⟨_, rfl⟩

/-- `AggSig` does not fault: it returns, or the hash does not end. -/
theorem not_faults_aggSig {pp : Params ECP2} (hq : pp.q = curveOrder) {uavH : UAVh}
    (halpha : 0 ≤ uavH.alpha) (parSigs : List (ParSig ECP)) (PK_v : ℤ) (e : Fin curveOrder) :
    ¬ (M.aggSig parSigs pp uavH PK_v e).Faults := by
  rcases M.sharedHash_cases hq PK_v halpha with ⟨_, hok⟩ | hdiverge
  · obtain ⟨h, -, hh, hgcd⟩ := M.sharedHash_of_ok hq halpha hok
    obtain ⟨rk, hrk, -⟩ := M.reKey_eq hq halpha hh hgcd
    have he := (randMpz_pos e).le
    rw [Miracl.aggSig, hrk, Run.faults_bind_of_ok (Run.out_ret _ _), hq, powMpz_order _ he,
      pure_bind, powMpz_order _ he, pure_bind]
    refine Run.not_faults_of_eq_pure (Run.exists_upTo_eq_pure (fun i hi sigma ↦ ?_) _)
    have hp : parSigs[i]? = some parSigs[i] := List.getElem?_eq_getElem hi
    simp only [subscript_of_getElem? hp, pure_bind, remMpz_order,
      powMpz_order _ (Int.natCast_nonneg rk)]
    exact ⟨_, rfl⟩
  · exact Run.not_faults_of_diverge (Run.out_bind_of_diverge (Run.out_bind_of_diverge hdiverge _) _)

end Scheme

/-! ## The services -/

/-- A request from elsewhere that its service cannot answer. -/
def Action.Malformed (tm : Int32) : Action → Prop
  | .registerOther request _ => Unreadable request.uav_id
  | .signOther _ request => Unreadable request.M ∨ count (tm - 1) < count (request.t - 1)
  | .tranOther request _ => Unreadable request.PK_v
  | _ => False

section Services

variable [DecidableEq FP12] {M : Miracl ECP ECP2 FP12} {C : PointCodec ECP ECP2}
variable {n tm : Int32} {msg : ℤ} {ρ₁ : ECP → ECP} {ρ₂ : ECP2 → ECP2} {s : Sys ECP ECP2}
variable {ta : TA ECP2}

/-- The scalars of the TA. -/
theorem Inv.scalars [Module Zq ECP2] (h : Inv M C n tm msg ρ₁ ρ₂ s) (htm : 2 ≤ tm.toInt)
    (hta : s.ta = some ta) : ta.pp.q = curveOrder ∧ 0 ≤ ta.sk ∧
      (ta.pp.beta : Zq) = (ta.pp.g : Zq) ^ ta.sk.toNat := by
  obtain ⟨r, hr⟩ := h.ta ta hta
  cases eq_issuedTA htm hr
  exact ⟨rfl, (randMpz_pos r.alpha).le, cast_rep _⟩

omit [AddCommGroup ECP] [AddCommGroup ECP2] in
theorem TA.Sized.faults_register (h : ta.Sized tm) (hq : ta.pp.q = curveOrder)
    (C : PointCodec ECP ECP2) (request : UAVIDRequest) (u : ℕ → Fin curveOrder) :
    (C.register ta request u).Faults ↔ Unreadable request.uav_id := by
  refine ⟨fun hfaults ↦ ?_, fun hid ↦ hid.faults.bind _⟩
  by_contra hid
  obtain ⟨id, hid⟩ := exists_strToMpz hid
  rw [PointCodec.register, hid, pure_bind] at hfaults
  refine Run.not_faults_of_eq_pure ?_ hfaults
  split_ifs
  · exact Run.exists_bind_eq_pure (exists_getUAV hq (h.b.trans h.d.symm).le id u) fun _ ↦ ⟨_, rfl⟩
  · exact ⟨_, rfl⟩

theorem Inv.faults_signService [Module Zq ECP2] (h : Inv M C n tm msg ρ₁ ρ₂ s)
    (htm : 2 ≤ tm.toInt) {i : ℕ} {pp : Params ECP2} {uav : UAV}
    (huav : s.uavs i = .serving pp uav) (request : SignRequest) :
    (M.signService pp uav request).Faults ↔
      Unreadable request.M ∨ count (tm - 1) < count (request.t - 1) := by
  by_cases hM : Unreadable request.M
  · exact iff_of_true (hM.faults.bind _) (.inl hM)
  obtain ⟨m, hm⟩ := exists_strToMpz hM
  rw [Miracl.signService, hm, pure_bind, or_iff_right hM]
  cases h.uav_at huav with
  | serving hta hissued =>
      obtain ⟨h₁, h₂⟩ := (h.sized htm hta).length_key hissued
      have hq' : (Params.mapPoints ρ₂ _).q = curveOrder := (h.scalars htm hta).1
      by_cases hlt : count (tm - 1) < count (request.t - 1)
      · refine iff_of_true ?_ hlt
        rw [M.sign_eq_fault hq' (h₁ ▸ hlt) (h₁.trans h₂.symm).le]
        exact ⟨_, rfl⟩
      · have hle := not_lt.mp hlt
        exact iff_of_false (Run.not_faults_of_eq_pure (exists_sign M hq' (hle.trans h₁.ge)
          (hle.trans h₂.ge) m)) hlt

theorem Inv.faults_tranService [Module Zq ECP2] (h : Inv M C n tm msg ρ₁ ρ₂ s)
    (htm : 2 ≤ tm.toInt) {head : Head ECP ECP2} (hagg : s.agg = .serving head)
    (request : VerifyRequest) (e : Fin curveOrder) :
    (M.tranService head request e).Faults ↔ Unreadable request.PK_v := by
  refine ⟨fun hfaults ↦ ?_, fun hPK ↦ hPK.faults.bind _⟩
  by_contra hPK
  obtain ⟨PK_v, hPK⟩ := exists_strToMpz hPK
  rw [Miracl.tranService, hPK, pure_bind] at hfaults
  cases h.agg_at hagg with
  | serving hta hsigmas =>
      obtain ⟨hq, hsk, -⟩ := h.scalars htm hta
      have hq' : (Params.mapPoints ρ₂ _).q = curveOrder := hq
      exact not_faults_aggSig M hq' hsk _ PK_v e hfaults

/-! ## The actions -/

/-- A proper action faults exactly when it is a malformed request. -/
theorem Inv.faults_iff [Module Zq ECP2] (h : Inv M C n tm msg ρ₁ ρ₂ s) (htm : 2 ≤ tm.toInt)
    {a : Action} (ha : a.Proper) {x : Exec (Sys ECP ECP2)} (he : Enabled M C n tm msg s a x) :
    x.Faults ↔ a.Malformed tm := by
  have hregister {ta : TA ECP2} (hta : s.ta = some ta) (request : UAVIDRequest)
      (u : ℕ → Fin curveOrder) :=
        (h.sized htm hta).faults_register (h.scalars htm hta).1 C request u
  cases he with
  | initParams r hta =>
      rw [Run.faults_bind_pure, initParams_eq M n htm msg r]
      exact iff_of_false (Run.not_faults_pure _) id
  | registerUAV i _ huav => exact iff_of_false (Run.not_faults_pure _) id
  | getPpAndSk hagg => exact iff_of_false (Run.not_faults_pure _) id
  | getParams _ hver => exact iff_of_false (Run.not_faults_pure _) id
  | registerForUAV u hta huav =>
      rw [Run.faults_bind_pure, hregister hta]
      cases h.uav_at huav with
      | sent hid => exact iff_of_false (readable_mpzToStr _) id
  | registerForAgg u hta hagg =>
      rw [Run.faults_bind_pure, hregister hta]
      cases h.agg_at hagg with
      | sent => exact iff_of_false (readable_mpzToStr _) id
  | registerForVerifier u hta hver =>
      rw [Run.faults_bind_pure, hregister hta]
      cases h.ver_at hver with
      | sent => exact iff_of_false (readable_mpzToStr _) id
  | registerOther request u hta =>
      rw [Run.faults_bind_pure, hregister hta]
      rfl
  | saveUAV huav =>
      cases h.uav_at huav with
      | replied hta hissued hsave =>
          rw [hsave, pure_bind]
          exact iff_of_false (Run.not_faults_pure _) id
  | saveHead hagg =>
      cases h.agg_at hagg with
      | replied hta hsave =>
          rw [hsave, pure_bind]
          exact iff_of_false (Run.not_faults_pure _) id
  | saveVerifier hver =>
      cases h.ver_at hver with
      | replied hta hsave =>
          rw [hsave, pure_bind]
          exact iff_of_false (Run.not_faults_pure _) id
  | registerUAVFailed huav => exact absurd ha id
  | getPpAndSkFailed hagg => exact absurd ha id
  | getParamsFailed hver => exact absurd ha id
  | collect hagg hi => exact iff_of_false (Run.not_faults_pure _) id
  | sign hagg huav =>
      rw [Run.faults_bind_pure, h.faults_signService htm huav]
      cases h.agg_at hagg with
      | asked hta hi hsigmas =>
          obtain ⟨ht, hle⟩ := (h.sized htm hta).toInt_t htm
          refine iff_of_false (not_or.mpr ⟨readable_mpzToStr _, not_lt.mpr ?_⟩) id
          exact count_sub_one_mono (one_le_two.trans ht) hle
  | signOther request huav =>
      rw [Run.faults_bind_pure, h.faults_signService htm huav]
      rfl
  | collected hagg =>
      cases h.agg_at hagg with
      | answered hta hi hsigmas hsigned hread =>
          rw [PointCodec.collectOne, hread]
          exact iff_of_false (Run.not_faults_pure _) id
  | collectFailed hagg hi houtcome => exact absurd ha id
  | startServerTran hagg hi => exact iff_of_false (Run.not_faults_pure _) id
  | verifySignature sk_v hver =>
      cases h.ver_at hver with
      | ready hta =>
          have hq' : (Params.mapPoints ρ₂ _).q = curveOrder := (h.scalars htm hta).1
          rw [Run.faults_bind_pure, tranRequest, Run.faults_bind_pure, TA.verifier, hq',
            powMpz_order _ (randMpz_pos sk_v).le]
          exact iff_of_false (Run.not_faults_pure _) id
  | tran e hagg hver =>
      rw [Run.faults_bind_pure, h.faults_tranService htm hagg]
      cases h.ver_at hver with
      | asked hta hPK => exact iff_of_false (readable_mpzToStr _) id
  | tranOther request e hagg =>
      rw [Run.faults_bind_pure, h.faults_tranService htm hagg]
      rfl
  | verify hver =>
      cases h.ver_at hver with
      | answered hta hsigma hread =>
          rw [hread, pure_bind]
          exact iff_of_false (Run.not_faults_pure _) id
  | verifyFailed hver => exact iff_of_false (Run.not_faults_pure _) id
  | verifyNotSent hver => exact iff_of_false (Run.not_faults_pure _) id
  | restart hver => exact iff_of_false (Run.not_faults_pure _) id

/-- Every check returns. -/
theorem Inv.verdict_cases [Module Zq ECP2] (h : Inv M C n tm msg ρ₁ ρ₂ s) (htm : 2 ≤ tm.toInt)
    {c : Check ECP} (hc : c ∈ s.checks) : c.verdict = .ok 1 ∨ c.verdict = .ok 0 := by
  obtain ⟨ta, hta, hsigma, hverdict⟩ := h.checks c hc
  obtain ⟨haux, hsig, hIDs⟩ := hsigma.length
  obtain ⟨hq, hsk, hbeta⟩ := h.scalars htm hta
  have hsized := h.sized htm hta
  obtain ⟨ht, hle⟩ := hsized.toInt_t htm
  have hfits : c.sigma.Fits (ta.pp.mapPoints ρ₂) ta.t := by
    refine ⟨ht, hIDs.ge, haux.ge, hsig.ge, ?_⟩
    rw [Params.mapPoints, List.length_map, hsized.PK, count_sub_one (by omega)]
    have hcount : 2 ≤ count ta.t := Int.le_toNat (by omega) |>.mpr ht
    have := count_mono hle
    omega
  obtain ⟨sigmas, PK_v, sigma₀, -, hPK, hagg, -⟩ := hsigma
  obtain ⟨k, hk⟩ := M.exists_verifyHash_of_aggSig hq hsk hbeta (randMpz_pos _).le hPK hagg
  have hq' : (ta.pp.mapPoints ρ₂).q = curveOrder := hq
  rw [hverdict]
  exact M.out_verify_of_fits hq' ta.M hfits hk

end Services

section Main

variable [Module Zq ECP2] [DecidableEq FP12] {M : Miracl ECP ECP2 FP12} {C : PointCodec ECP ECP2}
variable {n tm : Int32} {msg : ℤ} {s : Sys ECP ECP2}

omit [Module Zq ECP2] [DecidableEq FP12] in
theorem delivers_carry {a : Action} (ha : a.Proper) : Delivers M C C.carry C.carry2 s a :=
  ⟨ha, fun _ _ ↦ rfl, fun _ _ ↦ rfl⟩

/-- **Only malformed requests fault, and all of them do.**  In any state of any run where no
registration and no call of `sign` fails and no UAV draws the ID of the head, an action of the four
programs returns or does not end, and so does the answer to a request from elsewhere unless the
request is malformed.  A malformed one makes its service fault.  And `Verify` has returned in every
check up to this state. -/
theorem faults_iff_malformed (htm : 2 ≤ tm.toInt)
    (h : (protocol M C n tm msg).Reach (fun _ a ↦ a.Proper) (Sys.init ECP ECP2) s) {a : Action}
    (ha : a.Proper) {x : Exec (Sys ECP ECP2)} (he : Enabled M C n tm msg s a x) :
    (x.Faults ↔ a.Malformed tm) ∧ ∀ c ∈ s.checks, c.verdict = .ok 1 ∨ c.verdict = .ok 0 := by
  have hinv := Inv.of_reach (h.mono fun _ _ ↦ delivers_carry)
  exact ⟨hinv.faults_iff htm ha he, fun c hc ↦ hinv.verdict_cases htm hc⟩

/-- With the numbers of the source, after two checks a UAV signs `5` for the threshold `20`, and
faults when it is asked for `21`. -/
theorem faults_iff_malformed_exponents :
    ∃ (s : Sys Zq Zq) (c c' : Check Zq) (x y : Exec (Sys Zq Zq)),
      (protocol exponents exponentCodec 52 20 123456789).Reach (fun _ a ↦ a.Proper)
        (Sys.init Zq Zq) s ∧
      Enabled exponents exponentCodec 52 20 123456789 s (.signOther 0 ⟨mpzToStr 5, 20⟩) x ∧
      Enabled exponents exponentCodec 52 20 123456789 s (.signOther 0 ⟨mpzToStr 5, 21⟩) y ∧
      ¬ x.Faults ∧ y.Faults ∧ s.checks = [c, c'] ∧ (c.verdict = .ok 1 ∨ c.verdict = .ok 0) := by
  have hproper (_ : Sys Zq Zq) (a : Action) (ha : a.Own) : a.Proper := ha.proper
  obtain ⟨s, c, c', hreach, -, huavs, hchecks, -⟩ := exists_reach_checks_exponents hproper
  have he (request : SignRequest) : ∃ x, Enabled exponents exponentCodec 52 20 123456789 s
      (.signOther 0 request) x := ⟨_, .signOther request (huavs 0 (by decide))⟩
  obtain ⟨x, hx⟩ := he ⟨mpzToStr 5, 20⟩
  obtain ⟨y, hy⟩ := he ⟨mpzToStr 5, 21⟩
  have hsign (request : SignRequest) : Action.Proper (.signOther 0 request) := trivial
  obtain ⟨hreturns, hverdicts⟩ := faults_iff_malformed (by decide) hreach (hsign _) hx
  obtain ⟨hfaults, -⟩ := faults_iff_malformed (by decide) hreach (hsign _) hy
  refine ⟨s, c, c', x, y, hreach, hx, hy, ?_, ?_, hchecks, hverdicts c ?_⟩
  · rw [hreturns]
    exact not_or.mpr ⟨readable_mpzToStr 5, by decide⟩
  · rw [hfaults]
    exact .inr (by decide)
  · rw [hchecks]
    exact List.mem_cons_self

theorem Action.Own.not_malformed {a : Action} (h : a.Own) (tm : Int32) : ¬ a.Malformed tm := by
  cases a <;> first
    | exact id
    | exact h.elim

/-- Nothing faults from a state of the invariant on, until a malformed request comes. -/
theorem Inv.faultless (htm : 2 ≤ tm.toInt) {s₀ : Sys ECP ECP2}
    (hinv : Inv M C n tm msg C.carry C.carry2 s₀) (hnil : s₀.faults = [])
    (h : (protocol M C n tm msg).Reach (fun _ a ↦ a.Proper ∧ ¬ a.Malformed tm) s₀ s) :
    Inv M C n tm msg C.carry C.carry2 s ∧ s.faults = [] := by
  refine System.Reach.invariant
    (I := fun s ↦ Inv M C n tm msg C.carry C.carry2 s ∧ s.faults = []) ⟨hinv, hnil⟩ ?_ ?_ h
  · rintro s a x s' ⟨hinv, hnil⟩ ha he hx
    exact ⟨hinv.ok (delivers_carry ha.1) he hx, (Enabled.faults_eq he hx).trans hnil⟩
  · rintro s a x f ⟨hinv, hnil⟩ ha he hx
    exact absurd ((hinv.faults_iff htm ha.1 he).mp ⟨f, hx⟩) ha.2

/-- **Runs without malformed requests have no faults**, and all their checks accept or reject. -/
theorem runs_faultless (htm : 2 ≤ tm.toInt)
    (h : (protocol M C n tm msg).Reach (fun _ a ↦ a.Proper ∧ ¬ a.Malformed tm)
      (Sys.init ECP ECP2) s) :
    s.faults = [] ∧ ∀ c ∈ s.checks, c.verdict = .ok 1 ∨ c.verdict = .ok 0 := by
  obtain ⟨hinv, hnil⟩ := Inv.faultless htm Inv.init rfl h
  exact ⟨hnil, fun c hc ↦ hinv.verdict_cases htm hc⟩

/-- Read for a complete run with the numbers of the source. -/
theorem runs_faultless_exponents :
    ∃ (s : Sys Zq Zq) (c c' : Check Zq), (protocol exponents exponentCodec 52 20 123456789).Reach
        (fun _ a ↦ a.Proper ∧ ¬ a.Malformed 20) (Sys.init Zq Zq) s ∧ s.checks = [c, c'] ∧
      s.faults = [] ∧ (c.verdict = .ok 1 ∨ c.verdict = .ok 0) := by
  have hallowed (_ : Sys Zq Zq) (a : Action) (ha : a.Own) : a.Proper ∧ ¬ a.Malformed 20 :=
    ⟨ha.proper, ha.not_malformed 20⟩
  obtain ⟨s, c, c', hreach, -, -, hchecks, -⟩ := exists_reach_checks_exponents hallowed
  obtain ⟨hnil, hverdicts⟩ := runs_faultless (by decide) hreach
  refine ⟨s, c, c', hreach, hchecks, hnil, hverdicts c ?_⟩
  rw [hchecks]
  exact List.mem_cons_self

end Main

end Fussion
