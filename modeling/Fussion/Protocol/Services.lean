import Fussion.BrpcTools
import Fussion.Pipeline

/-!
# The four entities

The code that each entity runs on its own: `src/brpcTA.cpp`, `src/brpcUAV.cpp`,
`src/brpcAgg.cpp` and `src/brpcVerifier.cpp`, with the messages of `proto/`.  What a handler
computes and how the result is written into the response are two functions, so that the points
that are sent can be named.

A protobuf message is the record of its fields; a field that is not set reads as its default.
Log output and the options of the channels have no effect on the values and are left out.
`initParams` takes the numbers that the source fixes, `n = 52`, `tm = 20` and `M = 123456789`.
-/

namespace Fussion

/-! ## Messages -/

/-- `Parameters` of `TA.proto`. -/
structure Parameters where
  n : Int32
  tm : Int32
  q : Str
  P2 : Str
  g : Str
  beta : Str
  PK : Str

/-- `UAVIDRequest` of `TA.proto`. -/
structure UAVIDRequest where
  uav_id : Str

/-- `UAVIDResponse` of `TA.proto`. -/
structure UAVIDResponse where
  params : Parameters
  cj : Str := []
  sj : Str
  M : Str
  t : Int32

/-- `SignRequest` of `UAV.proto`. -/
structure SignRequest where
  M : Str
  t : Int32

/-- `SignResponse` of `UAV.proto`. -/
structure SignResponse where
  cj : Str
  sig : Str
  ID : Str

/-- `verifyRequest` of `Agg.proto`. -/
structure VerifyRequest where
  PK_v : Str

/-- `verifyResponse` of `Agg.proto`. -/
structure VerifyResponse where
  auxs : Str
  sigs : Str
  IDs : Str

/-! ## The TA -/

/-- The globals of the TA after `initParams`. -/
structure TA (ECP2 : Type) where
  pp : Params ECP2
  /-- The key of the cluster head. -/
  sk : ℤ
  d : List ℤ
  b : List ℤ
  M : ℤ
  t : Int32

/-- The draws of `initParams`. -/
structure TADraws where
  g : Fin curveOrder
  alpha : Fin curveOrder
  b : ℕ → Fin curveOrder
  d : ℕ → Fin curveOrder

/-- `initParams`. -/
def Miracl.initParams {ECP ECP2 FP12 : Type} [AddCommGroup ECP] [AddCommGroup ECP2]
    [CommGroup FP12] (M : Miracl ECP ECP2 FP12) (n tm : Int32) (msg : ℤ) (r : TADraws) :
    Exec (TA ECP2) := do
  let (sk, pp) ← M.setup n tm r.g r.alpha
  let b := coefficients tm r.b
  let d := coefficients tm r.d
  let PK ← M.getPK b
  pure { pp := { pp with PK := PK }, sk := sk, d := d, b := b, M := msg, t := tm / 2 + 1 }

/-- The ID that marks the cluster head. -/
def headID : ℤ := 0x6666666666666666666666666666666666666666666666666666666666666666

/-- `isUAVh`, the text that `Register` compares an ID with. -/
def isUAVh : Str := List.replicate 64 '6'

namespace PointCodec

variable {ECP ECP2 : Type} (C : PointCodec ECP ECP2)

/-- The public parameters as `Register` writes them. -/
def writeParams (pp : Params ECP2) : Parameters where
  n := pp.n
  tm := pp.tm
  q := mpzToStr pp.q
  P2 := C.ecp2ToStr pp.P2
  g := mpzToStr pp.g
  beta := mpzToStr pp.beta
  PK := C.ecp2ArrToStr pp.PK

/-- The public parameters as every client reads them. -/
def readParams (p : Parameters) : Exec (Params ECP2) := do
  let q ← strToMpz p.q
  let g ← strToMpz p.g
  let beta ← strToMpz p.beta
  let P2 ← C.strToECP2 p.P2
  let PK ← C.strToECP2Arr p.PK
  pure { n := p.n, tm := p.tm, q := q, P2 := P2, g := g, beta := beta, PK := PK }

/-- `RegisterServiceImpl::Register`; `u` are the ElGamal exponents of `getUAV`. -/
def register (ta : TA ECP2) (request : UAVIDRequest) (u : ℕ → Fin curveOrder) :
    Exec UAVIDResponse := do
  let id ← strToMpz request.uav_id
  if request.uav_id ≠ isUAVh then
    let uav ← getUAV ta.pp ta.d ta.b id u
    pure { params := C.writeParams ta.pp, cj := mpzArrToStr uav.c1, sj := mpzArrToStr uav.c2,
           M := mpzToStr ta.M, t := ta.t }
  else
    pure { params := C.writeParams ta.pp, sj := mpzToStr ta.sk, M := mpzToStr ta.M, t := ta.t }

/-! ## The UAVs -/

/-- What `registerUAV` saves from the response. -/
def saveUAV (id : ℤ) (response : UAVIDResponse) : Exec (Params ECP2 × UAV) := do
  let pp ← C.readParams response.params
  let c1 ← strToMpzArr response.cj
  let c2 ← strToMpzArr response.sj
  pure (pp, { c1 := c1, c2 := c2, ID := id })

/-- The response of `SignServiceImpl::sign`. -/
def writeParSig (sig : ParSig ECP) : SignResponse where
  cj := mpzToStr sig.cj
  sig := C.ecpToStr sig.sig
  ID := mpzToStr sig.ID

/-! ## The aggregator -/

end PointCodec

/-- The globals of the aggregator. -/
structure Head (ECP ECP2 : Type) where
  pp_AGG : Params ECP2
  uavH : UAVh
  M_AGG : ℤ
  t_AGG : Int32
  sigmas : List (ParSig ECP)

/-- How the call of one UAV in `collectParSigs` ends. -/
inductive SignOutcome
  | /-- `channel.Init` fails. -/ initFailed
  | /-- `IsAskedToQuit` holds, and no call is made. -/ askedToQuit
  | /-- The call fails; this is only logged. -/ rpcFailed
  | /-- A response arrives. -/ reply (response : SignResponse)

namespace PointCodec

variable {ECP ECP2 : Type} (C : PointCodec ECP ECP2)

/-- What `getPpAndSk` saves from the response. -/
def saveHead (response : UAVIDResponse) : Exec (Head ECP ECP2) := do
  let pp ← C.readParams response.params
  let alpha ← strToMpz response.sj
  let msg ← strToMpz response.M
  pure { pp_AGG := pp, uavH := { ID := headID, alpha := alpha }, M_AGG := msg,
         t_AGG := response.t, sigmas := [] }

/-- A partial signature as `collectParSigs` reads it. -/
def readParSig (response : SignResponse) : Exec (ParSig ECP) := do
  let cj ← strToMpz response.cj
  let ID ← strToMpz response.ID
  let sig ← C.strToECP response.sig
  pure { cj := cj, sig := sig, ID := ID }

/-- One iteration of `collectParSigs`: the new `sigmas`, and the value returned early. -/
def collectOne (outcome : SignOutcome) (sigmas : List (ParSig ECP)) :
    Exec (List (ParSig ECP) × Option ℤ) :=
  match outcome with
  | .initFailed => pure (sigmas, some (-1))
  | .askedToQuit => pure (sigmas, none)
  | .rpcFailed => pure (sigmas, none)
  | .reply response => do
    let sigma ← C.readParSig response
    pure (sigmas ++ [sigma], none)

/-- The response of `TranServiceImpl::Tran`. -/
def writeSigma (sig : Sigma ECP) : VerifyResponse where
  auxs := mpzArrToStr sig.aux
  sigs := C.ecpArrToStr sig.sig
  IDs := mpzArrToStr sig.IDs

end PointCodec

/-! ## The verifier -/

/-- The globals of the verifier. -/
structure Verifier (ECP2 : Type) where
  params : Params ECP2
  T : Int32
  Msg : ℤ

/-- The request of `verifySignature`. -/
def tranRequest {ECP2 : Type} (v : Verifier ECP2) (sk_v : ℤ) : Exec VerifyRequest := do
  let PK_v ← powMpz v.params.g sk_v v.params.q
  pure { PK_v := mpzToStr PK_v }

namespace PointCodec

variable {ECP ECP2 : Type} (C : PointCodec ECP ECP2)

/-- What `getParams` saves from the response. -/
def saveVerifier (response : UAVIDResponse) : Exec (Verifier ECP2) := do
  let params ← C.readParams response.params
  let msg ← strToMpz response.M
  pure { params := params, T := response.t, Msg := msg }

/-- A transformed signature as `verifySignature` reads it. -/
def readSigma (response : VerifyResponse) : Exec (Sigma ECP) := do
  let aux ← strToMpzArr response.auxs
  let IDs ← strToMpzArr response.IDs
  let sig ← C.strToECPArr response.sigs
  pure { aux := aux, sig := sig, IDs := IDs }

end PointCodec

namespace Miracl

variable {ECP ECP2 FP12 : Type} [AddCommGroup ECP] [AddCommGroup ECP2] [CommGroup FP12]
variable (M : Miracl ECP ECP2 FP12)

/-- The computation of `SignServiceImpl::sign`. -/
def signService (pp : Params ECP2) (uav : UAV) (request : SignRequest) : Exec (ParSig ECP) := do
  let msg ← strToMpz request.M
  M.sign pp uav request.t msg

/-- The computation of `TranServiceImpl::Tran`. -/
def tranService (head : Head ECP ECP2) (request : VerifyRequest) (e : Fin curveOrder) :
    Exec (Sigma ECP) := do
  let PK_v ← strToMpz request.PK_v
  M.aggSig head.sigmas head.pp_AGG head.uavH PK_v e

end Miracl

/-! ## What arrives -/

/-- The points of the parameters changed by `ρ`. -/
def Params.mapPoints {ECP2 : Type} (ρ : ECP2 → ECP2) (pp : Params ECP2) : Params ECP2 :=
  { pp with P2 := ρ pp.P2, PK := pp.PK.map ρ }

/-- The point of a partial signature changed by `ρ`. -/
def ParSig.mapPoint {ECP : Type} (ρ : ECP → ECP) (sig : ParSig ECP) : ParSig ECP :=
  { sig with sig := ρ sig.sig }

/-- The points of a transformed signature changed by `ρ`. -/
def Sigma.mapPoints {ECP : Type} (ρ : ECP → ECP) (sigma : Sigma ECP) : Sigma ECP :=
  { sigma with sig := sigma.sig.map ρ }

@[simp] theorem Params.mapPoints_id {ECP2 : Type} (pp : Params ECP2) : pp.mapPoints id = pp := by
  rw [mapPoints, List.map_id]
  rfl

@[simp] theorem ParSig.mapPoint_id {ECP : Type} (sig : ParSig ECP) : sig.mapPoint id = sig := rfl

@[simp] theorem Sigma.mapPoints_id {ECP : Type} (sigma : Sigma ECP) :
    sigma.mapPoints id = sigma := by
  rw [mapPoints, List.map_id]

/-- The globals of an aggregator that is registered with the TA, when the points of the
parameters arrive changed by `ρ`. -/
def TA.head {ECP ECP2 : Type} (ρ : ECP2 → ECP2) (ta : TA ECP2) (sigmas : List (ParSig ECP)) :
    Head ECP ECP2 where
  pp_AGG := ta.pp.mapPoints ρ
  uavH := { ID := headID, alpha := ta.sk }
  M_AGG := ta.M
  t_AGG := ta.t
  sigmas := sigmas

/-- The globals of a verifier that is registered with the TA. -/
def TA.verifier {ECP2 : Type} (ρ : ECP2 → ECP2) (ta : TA ECP2) : Verifier ECP2 where
  params := ta.pp.mapPoints ρ
  T := ta.t
  Msg := ta.M

theorem mpzToStr_injective : Function.Injective mpzToStr :=
  Run.injective_of_eq_pure strToMpz_mpzToStr

theorem mpzToStr_headID : mpzToStr headID = isUAVh := by
  have hdigits : numeral 16 headID.natAbs = List.replicate 64 6 := by
    rw [numeral, if_neg (by decide)]
    norm_num [headID]
    rfl
  rw [mpzToStr, getStr_eq, hdigits]
  rfl

theorem mpzToStr_ne_isUAVh {id : ℤ} (h : id ≠ headID) : mpzToStr id ≠ isUAVh := by
  rw [← mpzToStr_headID]
  exact mpzToStr_injective.ne h

theorem ID_of_getUAV {ECP2 : Type} {pp : Params ECP2} {d b : List ℤ} {id : ℤ}
    {u : ℕ → Fin curveOrder} {uav : UAV} (h : (getUAV pp d b id u).out = .ok uav) :
    uav.ID = id := by
  obtain ⟨c, -, hc⟩ := Run.out_bind_eq_ok.mp h
  cases hc
  rfl

namespace PointCodec

variable {ECP ECP2 : Type} (C : PointCodec ECP ECP2)

theorem readParams_writeParams (pp : Params ECP2) :
    C.readParams (C.writeParams pp) = pure (pp.mapPoints C.carry2) := by
  simp only [readParams, writeParams, strToMpz_mpzToStr, C.strToECP2_ecp2ToStr,
    C.strToECP2Arr_ecp2ArrToStr, pure_bind]
  rfl

theorem readParSig_writeParSig (sig : ParSig ECP) :
    C.readParSig (C.writeParSig sig) = pure (sig.mapPoint C.carry) := by
  simp only [readParSig, writeParSig, strToMpz_mpzToStr, C.strToECP_ecpToStr, pure_bind]
  rfl

theorem readSigma_writeSigma (sigma : Sigma ECP) :
    C.readSigma (C.writeSigma sigma) = pure (sigma.mapPoints C.carry) := by
  simp only [readSigma, writeSigma, strToMpzArr_mpzArrToStr, C.strToECPArr_ecpArrToStr, pure_bind]
  rfl

/-- The response of `Register` to a UAV. -/
def uavResponse (ta : TA ECP2) (uav : UAV) : UAVIDResponse where
  params := C.writeParams ta.pp
  cj := mpzArrToStr uav.c1
  sj := mpzArrToStr uav.c2
  M := mpzToStr ta.M
  t := ta.t

/-- The response of `Register` to the cluster head. -/
def headResponse (ta : TA ECP2) : UAVIDResponse where
  params := C.writeParams ta.pp
  sj := mpzToStr ta.sk
  M := mpzToStr ta.M
  t := ta.t

theorem register_of_ne (ta : TA ECP2) {id : ℤ} (hid : id ≠ headID) (u : ℕ → Fin curveOrder) :
    C.register ta ⟨mpzToStr id⟩ u =
      getUAV ta.pp ta.d ta.b id u >>= fun uav ↦ pure (C.uavResponse ta uav) := by
  rw [register, strToMpz_mpzToStr, pure_bind, if_pos (mpzToStr_ne_isUAVh hid)]
  rfl

theorem register_headID (ta : TA ECP2) (u : ℕ → Fin curveOrder) :
    C.register ta ⟨mpzToStr headID⟩ u = pure (C.headResponse ta) := by
  have hread : strToMpz isUAVh = pure headID := by rw [← mpzToStr_headID, strToMpz_mpzToStr]
  rw [mpzToStr_headID, register, hread, pure_bind, if_neg (not_not.mpr rfl)]
  rfl

/-- `Register` answers whenever a key can be made. -/
theorem exists_register {ta : TA ECP2} {id : ℤ} {u : ℕ → Fin curveOrder} {uav : UAV}
    (h : (getUAV ta.pp ta.d ta.b id u).out = .ok uav) :
    ∃ response, (C.register ta ⟨mpzToStr id⟩ u).out = .ok response := by
  by_cases hid : id = headID
  · subst hid
    exact ⟨C.headResponse ta, by rw [register_headID, Run.out_pure]⟩
  · refine ⟨C.uavResponse ta uav, ?_⟩
    rw [C.register_of_ne ta hid]
    exact Run.out_bind_eq_ok.mpr ⟨uav, h, rfl⟩

/-- A UAV that registers under another ID than the head's saves the key that the TA made. -/
theorem saveUAV_of_register {ta : TA ECP2} {id : ℤ} (hid : id ≠ headID) {u : ℕ → Fin curveOrder}
    {response : UAVIDResponse} (h : (C.register ta ⟨mpzToStr id⟩ u).out = .ok response) :
    ∃ uav, (getUAV ta.pp ta.d ta.b id u).out = .ok uav ∧
      C.saveUAV id response = pure (ta.pp.mapPoints C.carry2, uav) := by
  rw [C.register_of_ne ta hid] at h
  obtain ⟨uav, huav, hresponse⟩ := Run.out_bind_eq_ok.mp h
  cases hresponse
  refine ⟨uav, huav, ?_⟩
  simp only [saveUAV, uavResponse, C.readParams_writeParams, strToMpzArr_mpzArrToStr, pure_bind]
  rw [← ID_of_getUAV huav]

/-- For the cluster head the field `sj` is the key as one scalar. -/
theorem saveHead_of_register {ta : TA ECP2} {u : ℕ → Fin curveOrder} {response : UAVIDResponse}
    (h : (C.register ta ⟨mpzToStr headID⟩ u).out = .ok response) :
    C.saveHead response = pure (ta.head C.carry2 []) := by
  rw [register_headID] at h
  cases h
  simp only [saveHead, headResponse, C.readParams_writeParams, strToMpz_mpzToStr, pure_bind]
  rfl

/-- The verifier saves what every response contains. -/
theorem saveVerifier_of_register {ta : TA ECP2} {request : UAVIDRequest} {u : ℕ → Fin curveOrder}
    {response : UAVIDResponse} (h : (C.register ta request u).out = .ok response) :
    C.saveVerifier response = pure (ta.verifier C.carry2) := by
  have hfields : response.params = C.writeParams ta.pp ∧ response.M = mpzToStr ta.M ∧
      response.t = ta.t := by
    obtain ⟨id, -, hid⟩ := Run.out_bind_eq_ok.mp h
    split_ifs at hid
    · obtain ⟨uav, -, hresponse⟩ := Run.out_bind_eq_ok.mp hid
      cases hresponse
      exact ⟨rfl, rfl, rfl⟩
    · cases hid
      exact ⟨rfl, rfl, rfl⟩
  obtain ⟨hparams, hM, ht⟩ := hfields
  rw [saveVerifier, hparams, C.readParams_writeParams, pure_bind, hM, strToMpz_mpzToStr, pure_bind,
    ht]
  rfl

end PointCodec

end Fussion
