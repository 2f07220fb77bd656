import Fussion.Outcomes
import Fussion.Protocol.Invariant
import Fussion.Lib.Ensures

/-!
# Subscripts

Which vectors are long enough in which runs.  The lengths come from other processes: the keys of
a UAV have `tm - 1` entries because the TA has drawn as many coefficients, and the lists of a
`Sigma` have as many as the aggregator has collected signatures.  The bounds of the loops are
separate numbers: the `t` of a request, and the `t` of the TA.

The first part says how long the results of the functions are, and which lengths they need
(`Run.Ensures .outOfRange`).  The second part combines this with the invariant of the protocol.
-/

namespace Fussion

open Run (Ensures)

/-! ## Tools -/

theorem ensures_remMpz (a m : ℤ) : Ensures .outOfRange (remMpz a m) fun _ ↦ True := by
  rw [remMpz]
  split_ifs
  · exact .fault (by decide)
  · exact .pure trivial

theorem ensures_powMpz (base exp mod : ℤ) :
    Ensures .outOfRange (powMpz base exp mod) fun _ ↦ True := by
  rw [powMpz]
  split_ifs
  · exact .fault (by decide)
  · exact .pure trivial
  · exact .pure trivial
  · exact .fault (by decide)

theorem ensures_invertMpz (a m : ℤ) : Ensures .outOfRange (invertMpz a m) fun _ ↦ True :=
  .bind (.tell _) fun _ _ ↦ .pure trivial

theorem ensures_strToMpz (str : Str) : Ensures .outOfRange (strToMpz str) fun _ ↦ True := by
  rw [strToMpz, mpzClass]
  split
  · exact .pure trivial
  · exact .fault (by decide)

theorem ensures_subscript {A : Type} {v : List A} {i : ℕ} (h : i < v.length) :
    Ensures .outOfRange (subscript v i) fun _ ↦ True := .index h

/-! ## The scheme -/

theorem ensures_getUAV {ECP2 : Type} (pp : Params ECP2) {d b : List ℤ} (hlen : b.length ≤ d.length)
    (id : ℤ) (u : ℕ → Fin curveOrder) :
    Ensures .outOfRange (getUAV pp d b id u) fun uav ↦
      uav.c1.length = b.length ∧ uav.c2.length = b.length := by
  refine .bind (.upTo (fun i c ↦ c.1.length = i ∧ c.2.length = i) ⟨rfl, rfl⟩ ?_) fun c hc ↦ .pure hc
  intro i hi c hc
  refine .bind (ensures_subscript (hi.trans_le hlen)) fun _ _ ↦ .bind (ensures_subscript hi)
    fun _ _ ↦ .bind (ensures_remMpz _ _) fun _ _ ↦ .bind (ensures_powMpz _ _ _)
    fun _ _ ↦ .bind (ensures_powMpz _ _ _) fun _ _ ↦ .bind (ensures_remMpz _ _)
    fun _ _ ↦ .pure ?_
  simp only [List.length_append, List.length_singleton, hc, and_self]

theorem ensures_getPi0 {ECP2 : Type} (pp : Params ECP2) {ID : List ℤ} {t : Int32}
    (hlen : count t ≤ ID.length) :
    Ensures .outOfRange (getPi0 pp ID t) fun Pis ↦ Pis.length = count t := by
  have hsub {i : ℕ} (hi : i < count t) : Ensures .outOfRange (subscript ID i) fun _ ↦ True :=
    ensures_subscript (hi.trans_le hlen)
  refine .bind (.upTo (fun _ _ ↦ True) trivial fun i hi _ _ ↦
    .bind (hsub hi) fun _ _ ↦ ensures_remMpz _ _) fun _ _ ↦ .upTo_push fun i hi Pis ↦ ?_
  refine .bind (.upTo (fun _ _ ↦ True) trivial fun j hj _ _ ↦ ?_) fun _ _ ↦
    .bind (hsub hi) fun _ _ ↦ .bind (ensures_invertMpz _ _) fun _ _ ↦
    .bind (ensures_remMpz _ _) fun _ _ ↦ .bind (ensures_invertMpz _ _) fun _ _ ↦
    .bind (ensures_remMpz _ _) fun _ _ ↦ .pure List.length_append
  split_ifs
  · exact .bind (hsub hj) fun _ _ ↦ .bind (hsub hi) fun _ _ ↦
      .bind (ensures_remMpz _ _) fun _ _ ↦ ensures_remMpz _ _
  · exact .pure trivial

section Scheme

variable {ECP ECP2 FP12 : Type} [AddCommGroup ECP] [AddCommGroup ECP2] [CommGroup FP12]
variable (M : Miracl ECP ECP2 FP12)

theorem ensures_getPK {b : List ℤ} (hb : b ≠ []) :
    Ensures .outOfRange (M.getPK b) fun PK ↦ PK.length = b.length := by
  have hmax : max 1 b.length = b.length := max_eq_right (List.length_pos_iff.mpr hb)
  rw [Miracl.getPK, hmax]
  refine .bind (.upTo (fun i s ↦ s.2.length = i) rfl fun i hi s hs ↦ ?_) fun s hs ↦ .pure hs
  refine .bind (ensures_subscript hi) fun _ _ ↦ .pure ?_
  simp only [List.length_append, List.length_singleton, hs]

/-- `Sign` needs `t - 1` entries of both vectors of the key. -/
theorem ensures_sign (pp : Params ECP2) {uav : UAV} {t : Int32}
    (h₁ : count (t - 1) ≤ uav.c1.length) (h₂ : count (t - 1) ≤ uav.c2.length) (msg : ℤ) :
    Ensures .outOfRange (M.sign pp uav t msg) fun _ ↦ True := by
  refine .bind (.upTo (fun _ _ ↦ True) trivial fun i hi _ _ ↦ ?_) fun _ _ ↦ .pure trivial
  exact .bind (ensures_subscript (hi.trans_le h₁)) fun _ _ ↦ .bind (ensures_remMpz _ _)
    fun _ _ ↦ .bind (ensures_subscript (hi.trans_le h₂)) fun _ _ ↦
    .bind (ensures_remMpz _ _) fun _ _ ↦ .pure trivial

theorem ensures_sharedHash (pp : Params ECP2) (base exp : ℤ) :
    Ensures .outOfRange (M.sharedHash pp base exp) fun _ ↦ True :=
  .bind (ensures_powMpz _ _ _) fun _ _ ↦ (Ensures.ofOption _).mono fun _ _ ↦ trivial

/-- `AggSig` makes lists as long as that of the partial signatures. -/
theorem ensures_aggSig (parSigs : List (ParSig ECP)) (pp : Params ECP2) (uavH : UAVh) (PK_v : ℤ)
    (e : Fin curveOrder) :
    Ensures .outOfRange (M.aggSig parSigs pp uavH PK_v e) fun sigma ↦
      sigma.aux.length = parSigs.length ∧ sigma.sig.length = parSigs.length ∧
        sigma.IDs.length = parSigs.length := by
  have hrk : Ensures .outOfRange (M.reKey pp uavH.alpha PK_v) fun _ ↦ True :=
    .bind (ensures_sharedHash M _ _ _) fun _ _ ↦ .bind (ensures_invertMpz _ _)
      fun _ _ ↦ ensures_remMpz _ _
  refine .bind hrk fun _ _ ↦ .bind (ensures_powMpz _ _ _) fun _ _ ↦ .bind (ensures_powMpz _ _ _)
    fun _ _ ↦ .upTo (fun i (sigma : Sigma ECP) ↦ sigma.aux.length = i ∧ sigma.sig.length = i ∧
      sigma.IDs.length = i) ⟨rfl, rfl, rfl⟩ fun i hi sigma hsigma ↦ ?_
  refine .bind (ensures_subscript hi) fun _ _ ↦ .bind (ensures_remMpz _ _)
    fun _ _ ↦ .bind (ensures_powMpz _ _ _) fun _ _ ↦ .pure ?_
  simp only [List.length_append, List.length_singleton, hsigma, and_self]

/-- `Verify` needs `t` entries of the three lists, and the entry `t - 2` of the public key. -/
theorem ensures_verify [DecidableEq FP12] {sigma : Sigma ECP} {pp : Params ECP2} {t : Int32}
    (ht : 2 ≤ t.toInt) (hIDs : count t ≤ sigma.IDs.length) (haux : count t ≤ sigma.aux.length)
    (hsig : count t ≤ sigma.sig.length) (hPK : count t - 2 < pp.PK.length) (sk_v msg : ℤ) :
    Ensures .outOfRange (M.verify sigma sk_v pp msg t) fun _ ↦ True := by
  have hcount : 2 ≤ count t := Int.le_toNat (by omega) |>.mpr ht
  have hlast : (t - 2).toInt = ((count t - 2 : ℕ) : ℤ) := by
    rw [toInt_sub_two ht, ← cast_count (by omega)]
    omega
  refine .bind (ensures_getPi0 pp hIDs) fun Pis hPis ↦ .bind (ensures_sharedHash M _ _ _)
    fun _ _ ↦ .bind (P := fun k ↦ k.length = count t) (.upTo_push fun i hi k ↦ ?_) fun k hk ↦
    .bind (P := fun _ ↦ True) ?_ fun _ _ ↦ .bind (P := fun _ ↦ True) ?_ fun _ _ ↦ .pure trivial
  · exact .bind (ensures_subscript (hi.trans_le haux)) fun _ _ ↦ .bind (ensures_powMpz _ _ _)
      fun _ _ ↦ .bind (ensures_invertMpz _ _) fun _ _ ↦
      .bind (ensures_subscript (hPis ▸ hi)) fun _ _ ↦ .bind (ensures_remMpz _ _)
      fun _ _ ↦ .pure List.length_append
  · refine .bind (ensures_subscript (i := 0) (by omega)) fun _ _ ↦
      .bind (ensures_subscript (i := 0) (by omega)) fun _ _ ↦ .upTo (fun _ _ ↦ True) trivial
      fun i hi _ _ ↦ .bind (ensures_subscript (by omega)) fun _ _ ↦
      .bind (ensures_subscript (by omega)) fun _ _ ↦ .pure trivial
  · rw [hlast]
    exact ensures_subscript hPK

end Scheme

/-! ## The thresholds -/

/-- Unless `t - 1` wraps around, a threshold up to `tm` needs no more than `tm - 1` entries. -/
theorem count_sub_one_le {t tm : Int32} (hmin : -2 ^ 31 < t.toInt) (h : t.toInt ≤ tm.toInt) :
    count (t - 1) ≤ count (tm - 1) := by
  rcases le_or_gt 1 t.toInt with ht | ht
  · exact count_sub_one_mono ht h
  · have hneg : (t - 1).toInt = t.toInt - 1 := by
      rw [Int32.toInt_sub, Int32.toInt_one, Int.bmod_eq_of_le] <;> omega
    rw [count, hneg, Int.toNat_of_nonpos (by omega)]
    exact Nat.zero_le _

/-! ## The protocol -/

section Protocol

variable {ECP ECP2 FP12 : Type} [AddCommGroup ECP] [AddCommGroup ECP2] [CommGroup FP12]

/-- The vectors of the TA are long enough for `tm`. -/
structure TA.Sized (tm : Int32) (ta : TA ECP2) : Prop where
  b : ta.b.length = count (tm - 1)
  d : ta.d.length = count (tm - 1)
  PK : ta.pp.PK.length = count (tm - 1)
  t : ta.t = tm / 2 + 1

theorem ensures_initParams (M : Miracl ECP ECP2 FP12) (n : Int32) {tm : Int32}
    (htm : 2 ≤ tm.toInt) (msg : ℤ) (r : TADraws) :
    Ensures .outOfRange (M.initParams n tm msg r) (TA.Sized tm) := by
  have hcount : (count (tm - 1) : ℤ) = tm.toInt - 1 := cast_count_sub_one (by omega)
  have hne : coefficients tm r.b ≠ [] := by
    rw [← List.length_pos_iff, length_coefficients]
    omega
  have hsetup : Ensures .outOfRange (M.setup n tm r.g r.alpha) fun _ ↦ True :=
    .bind (ensures_powMpz _ _ _) fun _ _ ↦ .pure trivial
  refine .bind hsetup fun _ _ ↦ .bind (ensures_getPK M hne) fun PK hPK ↦ .pure ?_
  exact ⟨length_coefficients _ _, length_coefficients _ _, hPK.trans (length_coefficients _ _), rfl⟩

omit [AddCommGroup ECP2] in
theorem TA.Sized.toInt_t {tm : Int32} (htm : 2 ≤ tm.toInt) {ta : TA ECP2} (h : ta.Sized tm) :
    2 ≤ ta.t.toInt ∧ ta.t.toInt ≤ tm.toInt := by
  rw [h.t, toInt_threshold htm]
  omega

omit [AddCommGroup ECP2] in
/-- The keys that the TA issues have `tm - 1` entries. -/
theorem TA.Sized.length_key {tm : Int32} {ta : TA ECP2} (h : ta.Sized tm) {id : Fin curveOrder}
    {uav : UAV} (hissued : ta.Issued id uav) :
    uav.c1.length = count (tm - 1) ∧ uav.c2.length = count (tm - 1) := by
  obtain ⟨u, hu⟩ := hissued
  obtain ⟨h₁, h₂⟩ := (ensures_getUAV ta.pp (h.b.trans h.d.symm).le (randMpz id) u).post hu
  exact ⟨h₁.trans h.b, h₂.trans h.b⟩

omit [AddCommGroup ECP] [AddCommGroup ECP2] in
/-- `Register` is within bounds for every request. -/
theorem TA.Sized.ensures_register {tm : Int32} {ta : TA ECP2} (h : ta.Sized tm)
    (C : PointCodec ECP ECP2) (request : UAVIDRequest) (u : ℕ → Fin curveOrder) :
    Ensures .outOfRange (C.register ta request u) fun _ ↦ True := by
  refine .bind (ensures_strToMpz _) fun id _ ↦ ?_
  split_ifs
  · exact .bind (ensures_getUAV ta.pp (h.b.trans h.d.symm).le id u) fun _ _ ↦ .pure trivial
  · exact .pure trivial

/-- A proper action, where a UAV gets a `t` up to `tm` for which `t - 1` does not wrap around. -/
structure Action.Bounded (tm : Int32) (a : Action) : Prop where
  proper : a.Proper
  sign : ∀ i request, a = .signOther i request →
    -2 ^ 31 < request.t.toInt ∧ request.t.toInt ≤ tm.toInt

theorem Action.Own.bounded {a : Action} (h : a.Own) (tm : Int32) : a.Bounded tm :=
  ⟨h.proper, fun i request ha ↦ by rw [ha] at h; exact h.elim⟩

/-- Some subscript was out of range, in an action or in `Verify`. -/
def Sys.OutOfRange (s : Sys ECP ECP2) : Prop :=
  .outOfRange ∈ s.faults ∨ ∃ c ∈ s.checks, c.verdict = .fault .outOfRange

section Inv

variable [DecidableEq FP12] {M : Miracl ECP ECP2 FP12} {C : PointCodec ECP ECP2}
variable {n tm : Int32} {msg : ℤ} {ρ₁ : ECP → ECP} {ρ₂ : ECP2 → ECP2} {s s' : Sys ECP ECP2}

theorem Inv.sized (h : Inv M C n tm msg ρ₁ ρ₂ s) (htm : 2 ≤ tm.toInt) {ta : TA ECP2}
    (hta : s.ta = some ta) : ta.Sized tm := by
  obtain ⟨r, hr⟩ := h.ta ta hta
  exact (ensures_initParams M n htm msg r).post hr

omit [DecidableEq FP12] in
/-- The lists of a transformed signature have as many entries as `Verify` reads. -/
theorem Transformed.length {ta : TA ECP2} {sk_v e : Fin curveOrder} {sigma : Sigma ECP}
    (h : Transformed M ρ₁ s ta sk_v e sigma) :
    sigma.aux.length = count ta.t ∧ sigma.sig.length = count ta.t ∧
      sigma.IDs.length = count ta.t := by
  obtain ⟨sigmas, PK_v, sigma₀, hsigmas, -, hagg, rfl⟩ := h
  have hlen : sigmas.length = count ta.t := by rw [← hsigmas.length_eq, List.length_range]
  obtain ⟨haux, hsig, hIDs⟩ := (ensures_aggSig M sigmas ta.pp _ PK_v e).post hagg
  exact ⟨haux.trans hlen, (List.length_map _).trans (hsig.trans hlen), hIDs.trans hlen⟩

/-- The UAVs sign within bounds. -/
theorem Inv.ensures_signService (h : Inv M C n tm msg ρ₁ ρ₂ s) (htm : 2 ≤ tm.toInt) {i : ℕ}
    {pp : Params ECP2} {uav : UAV} (huav : s.uavs i = .serving pp uav) {request : SignRequest}
    (hmin : -2 ^ 31 < request.t.toInt) (hmax : request.t.toInt ≤ tm.toInt) :
    Ensures .outOfRange (M.signService pp uav request) fun _ ↦ True := by
  cases h.uav_at huav with
  | serving hta hissued =>
      obtain ⟨h₁, h₂⟩ := (h.sized htm hta).length_key hissued
      have hcount := count_sub_one_le hmin hmax
      exact .bind (ensures_strToMpz _) fun msg _ ↦
        ensures_sign M _ (hcount.trans h₁.ge) (hcount.trans h₂.ge) msg

/-- `Verify` is within bounds. -/
theorem Inv.ensures_verdict (h : Inv M C n tm msg ρ₁ ρ₂ s) (htm : 2 ≤ tm.toInt) {c : Check ECP}
    (hc : c ∈ s.checks) : c.verdict ≠ .fault .outOfRange := by
  obtain ⟨ta, hta, hsigma, hverdict⟩ := h.checks c hc
  obtain ⟨haux, hsig, hIDs⟩ := hsigma.length
  have hsized := h.sized htm hta
  obtain ⟨ht, hle⟩ := hsized.toInt_t htm
  have hPK : count ta.t - 2 < (ta.pp.mapPoints ρ₂).PK.length := by
    rw [Params.mapPoints, List.length_map, hsized.PK, count_sub_one (by omega)]
    have hcount : 2 ≤ count ta.t := Int.le_toNat (by omega) |>.mpr ht
    have := count_mono hle
    omega
  rw [hverdict]
  exact (ensures_verify M ht hIDs.ge haux.ge hsig.ge hPK _ _).avoids

/-- No bounded action reads out of range. -/
theorem Inv.ensures_enabled (h : Inv M C n tm msg ρ₁ ρ₂ s) (htm : 2 ≤ tm.toInt) {a : Action}
    (ha : a.Bounded tm) {x : Exec (Sys ECP ECP2)} (he : Enabled M C n tm msg s a x) :
    Ensures .outOfRange x fun _ ↦ True := by
  cases he with
  | initParams r hta =>
      exact .bind (ensures_initParams M n htm msg r) fun _ _ ↦ .pure trivial
  | registerUAV i id huav => exact .pure trivial
  | getPpAndSk hagg => exact .pure trivial
  | getParams id hver => exact .pure trivial
  | registerForUAV u hta huav =>
      exact .bind ((h.sized htm hta).ensures_register C _ u) fun _ _ ↦ .pure trivial
  | registerForAgg u hta hagg =>
      exact .bind ((h.sized htm hta).ensures_register C _ u) fun _ _ ↦ .pure trivial
  | registerForVerifier u hta hver =>
      exact .bind ((h.sized htm hta).ensures_register C _ u) fun _ _ ↦ .pure trivial
  | registerOther request u hta =>
      exact .bind ((h.sized htm hta).ensures_register C _ u) fun _ _ ↦ .pure trivial
  | saveUAV huav =>
      cases h.uav_at huav with
      | replied hta hissued hsave =>
          rw [hsave]
          exact .pure trivial
  | saveHead hagg =>
      cases h.agg_at hagg with
      | replied hta hsave =>
          rw [hsave]
          exact .pure trivial
  | saveVerifier hver =>
      cases h.ver_at hver with
      | replied hta hsave =>
          rw [hsave]
          exact .pure trivial
  | registerUAVFailed huav => exact absurd ha.proper id
  | getPpAndSkFailed hagg => exact absurd ha.proper id
  | getParamsFailed hver => exact absurd ha.proper id
  | collect hagg hi => exact .pure trivial
  | sign hagg huav =>
      cases h.agg_at hagg with
      | asked hta hi hsigmas =>
          obtain ⟨ht, hle⟩ := (h.sized htm hta).toInt_t htm
          exact .bind (h.ensures_signService htm huav (lt_of_lt_of_le (by norm_num) ht) hle)
            fun _ _ ↦ .pure trivial
  | signOther request huav =>
      obtain ⟨hmin, hmax⟩ := ha.sign _ request rfl
      exact .bind (h.ensures_signService htm huav hmin hmax) fun _ _ ↦ .pure trivial
  | collected hagg =>
      cases h.agg_at hagg with
      | answered hta hi hsigmas hsigned hread =>
          rw [PointCodec.collectOne, hread]
          exact .pure trivial
  | collectFailed hagg hi houtcome => exact absurd ha.proper id
  | startServerTran hagg hi => exact .pure trivial
  | verifySignature sk_v hver =>
      exact .bind (P := fun _ ↦ True) (.bind (ensures_powMpz _ _ _) fun _ _ ↦ .pure trivial)
        fun _ _ ↦ .pure trivial
  | tran e hagg hver =>
      exact .bind (.bind (ensures_strToMpz _) fun _ _ ↦ ensures_aggSig M _ _ _ _ e)
        fun _ _ ↦ .pure trivial
  | tranOther request e hagg =>
      exact .bind (.bind (ensures_strToMpz _) fun _ _ ↦ ensures_aggSig M _ _ _ _ e)
        fun _ _ ↦ .pure trivial
  | verify hver =>
      cases h.ver_at hver with
      | answered hta hsigma hread =>
          rw [hread]
          exact .pure trivial
  | verifyFailed hver => exact .pure trivial
  | verifyNotSent hver => exact .pure trivial
  | restart hver => exact .pure trivial

/-- An action that returns records no fault. -/
theorem Enabled.faults_eq {a : Action} {x : Exec (Sys ECP ECP2)}
    (he : Enabled M C n tm msg s a x) (hx : x.out = .ok s') : s'.faults = s.faults := by
  cases he <;> first
    | (cases hx; rfl)
    | (obtain ⟨_, -, hs⟩ := Run.out_bind_eq_ok.mp hx; cases hs; rfl)

end Inv

/-- **Subscripts stay in range.**  In every run in which no registration and no call of `sign`
fails, no UAV draws the ID of the head, and every `t` that a UAV is asked for is at most `tm` and
not the least `int`, no subscript is ever out of range: not in `Sign`, not in `AggSig`, and not in
`getPi_0` and `Verify` on what the verifier reads.  Nothing is assumed of how points arrive. -/
theorem subscripts_in_range [DecidableEq FP12] (M : Miracl ECP ECP2 FP12)
    (C : PointCodec ECP ECP2) (n : Int32) {tm : Int32} (htm : 2 ≤ tm.toInt) (msg : ℤ)
    {s : Sys ECP ECP2}
    (h : (protocol M C n tm msg).Reach (fun _ a ↦ a.Bounded tm) (Sys.init ECP ECP2) s) :
    ¬ s.OutOfRange := by
  have hdelivers {s : Sys ECP ECP2} {a : Action} (ha : a.Bounded tm) :
      Delivers M C C.carry C.carry2 s a := ⟨ha.proper, fun _ _ ↦ rfl, fun _ _ ↦ rfl⟩
  have hinv : Inv M C n tm msg C.carry C.carry2 s ∧ Fault.outOfRange ∉ s.faults := by
    refine System.Reach.invariant
      (I := fun s ↦ Inv M C n tm msg C.carry C.carry2 s ∧ Fault.outOfRange ∉ s.faults)
      ⟨Inv.init, List.not_mem_nil⟩ ?_ ?_ h
    · rintro s a x s' ⟨hinv, hsafe⟩ ha he hx
      exact ⟨hinv.ok (hdelivers ha) he hx, he.faults_eq hx ▸ hsafe⟩
    · rintro s a x f ⟨hinv, hsafe⟩ ha he hx
      refine ⟨hinv.record f, fun hmem ↦ ?_⟩
      rcases List.mem_append.mp hmem with hmem | hmem
      · exact hsafe hmem
      · rw [← List.mem_singleton.mp hmem] at hx
        exact (hinv.ensures_enabled htm ha he).avoids hx
  rintro (hmem | ⟨c, hc, hverdict⟩)
  · exact hinv.2 hmem
  · exact hinv.1.ensures_verdict htm hc hverdict

/-- `subscripts_in_range` in a complete run with the numbers of the source. -/
theorem subscripts_in_range_exponents :
    ∃ (s : Sys Zq Zq) (c c' : Check Zq), (protocol exponents exponentCodec 52 20 123456789).Reach
      (fun _ a ↦ a.Bounded 20) (Sys.init Zq Zq) s ∧ s.checks = [c, c'] ∧ ¬ s.OutOfRange := by
  obtain ⟨s, c, c', hreach, -, -, hchecks, -⟩ :=
    exists_reach_checks_exponents fun _ _ h ↦ h.bounded 20
  exact ⟨s, c, c', hreach, hchecks,
    subscripts_in_range exponents exponentCodec 52 (by decide) 123456789 hreach⟩

/-- A registered UAV that is asked to sign for `t = 21` reads past the end of its key. -/
theorem exists_sign_past_key :
    ∃ s s' : Sys Zq Zq, (protocol exponents exponentCodec 52 20 123456789).Reach
        (fun _ a ↦ a.Bounded 20) (Sys.init Zq Zq) s ∧
      (protocol exponents exponentCodec 52 20 123456789).Step s
        (.signOther 0 { M := mpzToStr 123456789, t := 21 }) s' ∧ .outOfRange ∈ s'.faults := by
  obtain ⟨s, hreach, -, huavs, -⟩ := exists_reach_uavs (C := exponentCodec) (k := 1)
    (fun (_ : Sys Zq Zq) _ h ↦ h.bounded 20) initParams_unitTA
    (fun i _ ↦ countedID_ne_headID i) fun i _ ↦ issued_countedKey i
  have hlen : (countedKey 0).c1.length = 19 ∧ (countedKey 0).c2.length = 19 :=
    ⟨length_c1_issuedUAV _ _ _ _ _ _, length_c2_issuedUAV _ _ _ _ _ _⟩
  have hsign : (exponents.signService (unitTA.pp.mapPoints exponentCodec.carry2) (countedKey 0)
      ⟨mpzToStr 123456789, 21⟩).out = .fault .outOfRange := by
    rw [Miracl.signService, strToMpz_mpzToStr, pure_bind, exponents.sign_eq_fault rfl
      (by rw [hlen.1]; decide) (by rw [hlen.1, hlen.2]), Run.out_fault]
  exact ⟨s, _, hreach, .fault (.signOther _ (huavs 0 one_pos))
    (Run.out_bind_eq_fault.mpr (Or.inl hsign)), List.mem_concat_self⟩

/-- A call of `sign` fails, and the aggregator goes on with the next UAV. -/
theorem reach_rpcFailed [DecidableEq FP12] {M : Miracl ECP ECP2 FP12} {C : PointCodec ECP ECP2}
    {n tm : Int32} {msg : ℤ} {allowed : Sys ECP ECP2 → Action → Prop} {s₀ s : Sys ECP ECP2}
    {ta : TA ECP2} (hown : ∀ s a, a.Own → allowed s a)
    (hfailed : ∀ s, allowed s (.collectFailed .rpcFailed)) {i : ℕ} (hi : i < count ta.t)
    {sigmas : List (ParSig ECP)} (h : (protocol M C n tm msg).Reach allowed s₀
      { s with agg := .collecting (ta.head C.carry2 sigmas) i none }) :
    (protocol M C n tm msg).Reach allowed s₀
      { s with agg := .collecting (ta.head C.carry2 sigmas) (i + 1) none } := by
  have hasked := reach_own hown h (.collect rfl hi) trivial rfl
  exact hasked.ok (hfailed _) (.collectFailed rfl hi rfl) rfl

/-- Ten UAVs sign and the call of the eleventh fails: `Verify` reads past the end of the IDs. -/
theorem exists_verify_past_IDs :
    ∃ (s : Sys Zq Zq) (c : Check Zq), (protocol exponents exponentCodec 52 20 123456789).Reach
        (fun _ a ↦ a.Own ∨ a = .collectFailed .rpcFailed) (Sys.init Zq Zq) s ∧ s.checks = [c] ∧
      c.sigma.IDs.length = 10 ∧ c.verdict = .fault .outOfRange := by
  have hown (_ : Sys Zq Zq) (a : Action) (h : a.Own) : a.Own ∨ a = .collectFailed .rpcFailed :=
    .inl h
  have hsk : 0 ≤ unitTA.sk := (randMpz_pos 0).le
  have hlt : 0 + 10 < count unitTA.t := by decide
  have hle : count unitTA.t ≤ 0 + 10 + 1 := by decide
  obtain ⟨s, hreach, hs, hserving, -, hagg, hver, hchecks⟩ := exists_reach_uavs
    (C := exponentCodec) (k := 10) hown initParams_unitTA (fun i _ ↦ countedID_ne_headID i)
    fun i _ ↦ issued_countedKey i
  obtain ⟨sigmas, hlen, hten⟩ := reach_collect hown 10 hlt.le
    (reach_getPpAndSk hown hreach hs hagg) fun j hj ↦ by
      obtain ⟨sig, hsig⟩ := sign_countedKey j
      exact ⟨countedKey j, sig, hserving j (by omega), hsig⟩
  have hfailed := reach_rpcFailed hown (fun _ ↦ .inr rfl) hlt hten
  have hserved := reach_own hown hfailed (.startServerTran rfl hle) trivial rfl
  have hready := reach_getParams hown hserved hs hver (issued_countedKey 0)
  have hterm : ∃ k, (exponents.aggHash unitTA.pp unitTA.sk
      (rep ((unitTA.pp.g : Zq) ^ (randMpz 0).toNat))).out = .ok k :=
    exists_aggHash_exponents rfl hsk _
  obtain ⟨c, -, -, hIDs, hverdict, hdone⟩ := reach_check hown hready rfl hsk rfl rfl hterm 0
  have hcount : c.sigma.IDs.length = 10 := by rw [hIDs, List.length_map, hlen]; rfl
  refine ⟨_, c, hdone, ?_, hcount, ?_⟩
  · simp only [hchecks, List.nil_append]
  · have hq : (unitTA.pp.mapPoints exponentCodec.carry2).q = curveOrder := rfl
    rw [hverdict]
    exact exponents.out_verify_of_short hq _ (hcount.trans_lt hlt)

/-- With the numbers of the source, subscripts run past the end in two ways: in `Sign`, when a
request asks for more factors than the key has, and in `Verify`, when a call of `sign` failed. -/
theorem subscripts_past_end :
    (∃ s s' : Sys Zq Zq, (protocol exponents exponentCodec 52 20 123456789).Reach
        (fun _ a ↦ a.Bounded 20) (Sys.init Zq Zq) s ∧
      (protocol exponents exponentCodec 52 20 123456789).Step s
        (.signOther 0 { M := mpzToStr 123456789, t := 21 }) s' ∧ s'.OutOfRange) ∧
    ∃ s : Sys Zq Zq, (protocol exponents exponentCodec 52 20 123456789).Reach
        (fun _ a ↦ a.Own ∨ a = .collectFailed .rpcFailed) (Sys.init Zq Zq) s ∧
      s.OutOfRange := by
  obtain ⟨s, s', hreach, hstep, hmem⟩ := exists_sign_past_key
  obtain ⟨s₂, c, hreach₂, hchecks, -, hverdict⟩ := exists_verify_past_IDs
  refine ⟨⟨s, s', hreach, hstep, .inl hmem⟩, s₂, hreach₂, .inr ⟨c, ?_, hverdict⟩⟩
  rw [hchecks]
  exact List.mem_singleton_self c

end Protocol

end Fussion
