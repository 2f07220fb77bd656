import Fussion.Protocol.Services
import Fussion.Lib.Transition

/-!
# The distributed protocol

The four programs as processes: the TA, one UAV for each port from `8002` on, the aggregator and
the verifier.  The state of a process is how far its `main` has come (three of the four files keep
it as a comment), with the globals that it has set by then.  A remote call is the request that has
been sent and then the response that has arrived; brpc and protobuf deliver bytes unchanged, so
both are values.

Between any two actions of a process the others may act.  Besides the calls that the four programs
make, every service may be called at any time with any request (`registerOther`, `signOther`,
`tranOther`).  The results of the functions that set up the servers and the calls are ignored by
every `main`, and so a process whose registration fails goes on with its globals unset.

The TA, the UAVs and the aggregator serve until they are stopped.  The verifier makes one check and
its `main` is over; for another check it is started again and registers again (`restart`).

An action that faults is recorded and changes nothing else.  A process is not stopped by it, which
adds runs to those that the programs have; in a state without recorded faults none was to be
stopped.

The checks are recorded for the statements about them: `Check` keeps the verifier's key, the
`Sigma` that it has read and what `Verify` did, and also the draw `e` of the aggregator that
produced the response, which travels with the response but is not part of it.
-/

namespace Fussion

/-- A remote call that has not been evaluated yet. -/
inductive Call (Q R : Type)
  | /-- The request is on its way. -/ sent (request : Q)
  | /-- The response has arrived. -/ replied (response : R)

/-- How far a UAV has come. -/
inductive UAVProc (ECP2 : Type)
  | start
  | /-- In `registerUAV`, with the drawn ID. -/
    registering (id : Fin curveOrder) (call : Call UAVIDRequest UAVIDResponse)
  | /-- Serving `sign`, with `pp_UAV` and `uav`. -/ serving (pp_UAV : Params ECP2) (uav : UAV)

/-- How far the aggregator has come. -/
inductive AggProc (ECP ECP2 : Type)
  | start
  | /-- In `getPpAndSk`. -/ registering (call : Call UAVIDRequest UAVIDResponse)
  | /-- In `collectParSigs`, at the UAV `i`; no call before the channel is set up. -/
    collecting (head : Head ECP ECP2) (i : ℕ) (call : Option (Call SignRequest SignResponse))
  | /-- Serving `Tran`. -/ serving (head : Head ECP ECP2)

/-- How far the verifier has come. -/
inductive VerifierProc (ECP2 : Type)
  | start
  | /-- In `getParams`, with the drawn ID. -/
    registering (id : Fin curveOrder) (call : Call UAVIDRequest UAVIDResponse)
  | /-- After `getParams`. -/ ready (v : Verifier ECP2)
  | /-- In `verifySignature`, with its key; the response comes with the draw of the aggregator. -/
    verifying (v : Verifier ECP2) (sk_v : Fin curveOrder)
      (call : Call VerifyRequest (VerifyResponse × Fin curveOrder))
  | /-- `main` is over; with the globals that it had. -/ done (v : Verifier ECP2)

/-- One evaluation of `Verify` by the verifier. -/
structure Check (ECP : Type) where
  sk_v : Fin curveOrder
  e : Fin curveOrder
  sigma : Sigma ECP
  verdict : Outcome Fault ℤ

/-- The state of the system. -/
structure Sys (ECP ECP2 : Type) where
  /-- The TA, once it has run `initParams`. -/
  ta : Option (TA ECP2)
  uavs : ℕ → UAVProc ECP2
  agg : AggProc ECP ECP2
  ver : VerifierProc ECP2
  checks : List (Check ECP)
  faults : List Fault

/-- Nothing has happened yet. -/
def Sys.init (ECP ECP2 : Type) : Sys ECP ECP2 where
  ta := none
  uavs _ := .start
  agg := .start
  ver := .start
  checks := []
  faults := []

/-- The UAV `i` changes. -/
def Sys.setUAV {ECP ECP2 : Type} (s : Sys ECP ECP2) (i : ℕ) (p : UAVProc ECP2) : Sys ECP ECP2 :=
  { s with uavs := Function.update s.uavs i p }

@[simp] theorem Sys.uavs_setUAV_self {ECP ECP2 : Type} (s : Sys ECP ECP2) (i : ℕ)
    (p : UAVProc ECP2) : (s.setUAV i p).uavs i = p := by
  simp only [setUAV, Function.update_self]

@[simp] theorem Sys.setUAV_setUAV {ECP ECP2 : Type} (s : Sys ECP ECP2) (i : ℕ)
    (p p' : UAVProc ECP2) : (s.setUAV i p).setUAV i p' = s.setUAV i p' := by
  simp only [setUAV, Function.update_idem]

@[simp] theorem Sys.uavs_setUAV_of_ne {ECP ECP2 : Type} (s : Sys ECP ECP2) {i j : ℕ} (h : j ≠ i)
    (p : UAVProc ECP2) : (s.setUAV i p).uavs j = s.uavs j := by
  simp only [setUAV, Function.update_of_ne h]

/-- Who registers with the TA. -/
inductive Client
  | uav (i : ℕ)
  | agg
  | ver

/-- What the processes do, with what they draw. -/
inductive Action
  /-- The TA runs `initParams`. -/
  | initParams (r : TADraws)
  /-- The UAV `i` calls `Register` with the drawn ID. -/
  | registerUAV (i : ℕ) (id : Fin curveOrder)
  /-- The aggregator calls `Register`. -/
  | getPpAndSk
  /-- The verifier calls `Register` with the drawn ID. -/
  | getParams (id : Fin curveOrder)
  /-- The TA answers a call of `Register`. -/
  | register (c : Client) (u : ℕ → Fin curveOrder)
  /-- The TA answers some other call. -/
  | registerOther (request : UAVIDRequest) (u : ℕ → Fin curveOrder)
  /-- The client saves the response of `Register`. -/
  | save (c : Client)
  /-- The registration fails: no channel, no answer, or the process is asked to quit. -/
  | registerFailed (c : Client)
  /-- The aggregator calls `sign` of the next UAV. -/
  | collect
  /-- That UAV answers. -/
  | sign
  /-- The UAV `i` answers some other call. -/
  | signOther (i : ℕ) (request : SignRequest)
  /-- The aggregator reads the answer. -/
  | collected
  /-- The call of `sign` does not give a response. -/
  | collectFailed (outcome : SignOutcome)
  /-- The loop of `collectParSigs` is done, and the aggregator serves `Tran`. -/
  | startServerTran
  /-- The verifier draws a key and calls `Tran`. -/
  | verifySignature (sk_v : Fin curveOrder)
  /-- The aggregator answers, with the draw of `AggSig`. -/
  | tran (e : Fin curveOrder)
  /-- The aggregator answers some other call. -/
  | tranOther (request : VerifyRequest) (e : Fin curveOrder)
  /-- The verifier reads the answer and runs `Verify`. -/
  | verify
  /-- `verifySignature` makes no check: no channel, no answer, or the process is asked to quit. -/
  | verifyFailed
  /-- The verifier is started again. -/
  | restart

/-! ## Globals that are not set -/

/-- A global `Params`: all zero, which is the point at infinity. -/
def Params.unset {ECP2 : Type} [Zero ECP2] : Params ECP2 where
  n := 0
  tm := 0
  q := 0
  P2 := 0
  g := 0
  beta := 0
  PK := []

/-- A global `UAV`. -/
def UAV.unset : UAV where
  c1 := []
  c2 := []
  ID := 0

/-- The globals of the aggregator. -/
def Head.unset {ECP ECP2 : Type} [Zero ECP2] : Head ECP ECP2 where
  pp_AGG := Params.unset
  uavH := { ID := 0, alpha := 0 }
  M_AGG := 0
  t_AGG := 0
  sigmas := []

/-- The globals of the verifier. -/
def Verifier.unset {ECP2 : Type} [Zero ECP2] : Verifier ECP2 where
  params := Params.unset
  T := 0
  Msg := 0

/-! ## The actions -/

/-- The aggregator after an iteration of `collectParSigs`: an early `return` ends the loop. -/
def AggProc.next {ECP ECP2 : Type} (head : Head ECP ECP2) (i : ℕ)
    (r : List (ParSig ECP) × Option ℤ) : AggProc ECP ECP2 :=
  match r.2 with
  | none => .collecting { head with sigmas := r.1 } (i + 1) none
  | some _ => .serving { head with sigmas := r.1 }

section Actions

variable {ECP ECP2 FP12 : Type} [AddCommGroup ECP] [AddCommGroup ECP2] [CommGroup FP12]
variable [DecidableEq FP12] (M : Miracl ECP ECP2 FP12) (C : PointCodec ECP ECP2)
variable (n tm : Int32) (msg : ℤ)

/-- The actions that a state allows, as computations of the next state.  `n`, `tm` and `msg` are
the numbers that the TA fixes. -/
inductive Enabled (s : Sys ECP ECP2) : Action → Exec (Sys ECP ECP2) → Prop
  | initParams (r : TADraws) (hta : s.ta = none) :
      Enabled s (.initParams r) do
        let ta ← M.initParams n tm msg r
        pure { s with ta := some ta }
  | registerUAV (i : ℕ) (id : Fin curveOrder) (huav : s.uavs i = .start) :
      Enabled s (.registerUAV i id)
        (pure (s.setUAV i (.registering id (.sent ⟨mpzToStr (randMpz id)⟩))))
  | getPpAndSk (hagg : s.agg = .start) :
      Enabled s .getPpAndSk (pure { s with agg := .registering (.sent ⟨mpzToStr headID⟩) })
  | getParams (id : Fin curveOrder) (hver : s.ver = .start) :
      Enabled s (.getParams id)
        (pure { s with ver := .registering id (.sent ⟨mpzToStr (randMpz id)⟩) })
  | registerForUAV (u : ℕ → Fin curveOrder) {i : ℕ} {ta : TA ECP2} {id : Fin curveOrder}
      {request : UAVIDRequest} (hta : s.ta = some ta)
      (huav : s.uavs i = .registering id (.sent request)) :
      Enabled s (.register (.uav i) u) do
        let response ← C.register ta request u
        pure (s.setUAV i (.registering id (.replied response)))
  | registerForAgg (u : ℕ → Fin curveOrder) {ta : TA ECP2} {request : UAVIDRequest}
      (hta : s.ta = some ta) (hagg : s.agg = .registering (.sent request)) :
      Enabled s (.register .agg u) do
        let response ← C.register ta request u
        pure { s with agg := .registering (.replied response) }
  | registerForVerifier (u : ℕ → Fin curveOrder) {ta : TA ECP2} {id : Fin curveOrder}
      {request : UAVIDRequest} (hta : s.ta = some ta)
      (hver : s.ver = .registering id (.sent request)) :
      Enabled s (.register .ver u) do
        let response ← C.register ta request u
        pure { s with ver := .registering id (.replied response) }
  | registerOther (request : UAVIDRequest) (u : ℕ → Fin curveOrder) {ta : TA ECP2}
      (hta : s.ta = some ta) :
      Enabled s (.registerOther request u) do
        let _ ← C.register ta request u
        pure s
  | saveUAV {i : ℕ} {id : Fin curveOrder} {response : UAVIDResponse}
      (huav : s.uavs i = .registering id (.replied response)) :
      Enabled s (.save (.uav i)) do
        let (pp, uav) ← C.saveUAV (randMpz id) response
        pure (s.setUAV i (.serving pp uav))
  | saveHead {response : UAVIDResponse} (hagg : s.agg = .registering (.replied response)) :
      Enabled s (.save .agg) do
        let head ← C.saveHead response
        pure { s with agg := .collecting head 0 none }
  | saveVerifier {id : Fin curveOrder} {response : UAVIDResponse}
      (hver : s.ver = .registering id (.replied response)) :
      Enabled s (.save .ver) do
        let v ← C.saveVerifier response
        pure { s with ver := .ready v }
  | registerUAVFailed {i : ℕ} {id : Fin curveOrder} {call : Call UAVIDRequest UAVIDResponse}
      (huav : s.uavs i = .registering id call) :
      Enabled s (.registerFailed (.uav i)) (pure (s.setUAV i (.serving Params.unset UAV.unset)))
  | getPpAndSkFailed {call : Call UAVIDRequest UAVIDResponse} (hagg : s.agg = .registering call) :
      Enabled s (.registerFailed .agg) (pure { s with agg := .collecting Head.unset 0 none })
  | getParamsFailed {id : Fin curveOrder} {call : Call UAVIDRequest UAVIDResponse}
      (hver : s.ver = .registering id call) :
      Enabled s (.registerFailed .ver) (pure { s with ver := .ready Verifier.unset })
  | collect {head : Head ECP ECP2} {i : ℕ} (hagg : s.agg = .collecting head i none)
      (hi : i < count head.t_AGG) :
      Enabled s .collect (pure { s with
        agg := .collecting head i (some (.sent ⟨mpzToStr head.M_AGG, head.t_AGG⟩)) })
  | sign {head : Head ECP ECP2} {i : ℕ} {request : SignRequest} {pp : Params ECP2} {uav : UAV}
      (hagg : s.agg = .collecting head i (some (.sent request)))
      (huav : s.uavs i = .serving pp uav) :
      Enabled s .sign do
        let sig ← M.signService pp uav request
        pure { s with agg := .collecting head i (some (.replied (C.writeParSig sig))) }
  | signOther (request : SignRequest) {i : ℕ} {pp : Params ECP2} {uav : UAV}
      (huav : s.uavs i = .serving pp uav) :
      Enabled s (.signOther i request) do
        let _ ← M.signService pp uav request
        pure s
  | collected {head : Head ECP ECP2} {i : ℕ} {response : SignResponse}
      (hagg : s.agg = .collecting head i (some (.replied response))) :
      Enabled s .collected do
        let r ← C.collectOne (.reply response) head.sigmas
        pure { s with agg := .next head i r }
  | collectFailed {outcome : SignOutcome} {head : Head ECP ECP2} {i : ℕ}
      {call : Option (Call SignRequest SignResponse)} (hagg : s.agg = .collecting head i call)
      (hi : i < count head.t_AGG) (houtcome : match call with
        | none => outcome = .initFailed ∨ outcome = .askedToQuit
        | some _ => outcome = .rpcFailed) :
      Enabled s (.collectFailed outcome) do
        let r ← C.collectOne outcome head.sigmas
        pure { s with agg := .next head i r }
  | startServerTran {head : Head ECP ECP2} {i : ℕ} (hagg : s.agg = .collecting head i none)
      (hi : count head.t_AGG ≤ i) :
      Enabled s .startServerTran (pure { s with agg := .serving head })
  | verifySignature (sk_v : Fin curveOrder) {v : Verifier ECP2} (hver : s.ver = .ready v) :
      Enabled s (.verifySignature sk_v) do
        let request ← tranRequest v (randMpz sk_v)
        pure { s with ver := .verifying v sk_v (.sent request) }
  | tran (e : Fin curveOrder) {head : Head ECP ECP2} {v : Verifier ECP2} {sk_v : Fin curveOrder}
      {request : VerifyRequest} (hagg : s.agg = .serving head)
      (hver : s.ver = .verifying v sk_v (.sent request)) :
      Enabled s (.tran e) do
        let sigma ← M.tranService head request e
        pure { s with ver := .verifying v sk_v (.replied (C.writeSigma sigma, e)) }
  | tranOther (request : VerifyRequest) (e : Fin curveOrder) {head : Head ECP ECP2}
      (hagg : s.agg = .serving head) :
      Enabled s (.tranOther request e) do
        let _ ← M.tranService head request e
        pure s
  | verify {v : Verifier ECP2} {sk_v e : Fin curveOrder} {response : VerifyResponse}
      (hver : s.ver = .verifying v sk_v (.replied (response, e))) :
      Enabled s .verify do
        let sigma ← C.readSigma response
        pure { s with
          ver := .done v
          checks := s.checks ++
            [⟨sk_v, e, sigma, (M.verify sigma (randMpz sk_v) v.params v.Msg v.T).out⟩] }
  | verifyFailed {v : Verifier ECP2} {sk_v : Fin curveOrder}
      {call : Call VerifyRequest (VerifyResponse × Fin curveOrder)}
      (hver : s.ver = .verifying v sk_v call) :
      Enabled s .verifyFailed (pure { s with ver := .done v })
  | verifyNotSent {v : Verifier ECP2} (hver : s.ver = .ready v) :
      Enabled s .verifyFailed (pure { s with ver := .done v })
  | restart {v : Verifier ECP2} (hver : s.ver = .done v) :
      Enabled s .restart (pure { s with ver := .start })

/-- The distributed protocol. -/
def protocol : System InvertCall Fault (Sys ECP ECP2) Action where
  enabled := Enabled M C n tm msg
  record s f := { s with faults := s.faults ++ [f] }

end Actions

end Fussion
