import Fussion.Coprime

/-!
# The threshold signature scheme

The functions of `src/fussion.cpp`, statement by statement.  Every subscript is checked, every
remainder and power goes through the tools, and an `int` is an `Int32`, so that `t - 1` and
`t - 2` wrap as the machine's do.

Each call of `rand_mpz` is a parameter: the residue `Fin curveOrder` that `mpz_urandomm`
returned at that place, indexed by the loop counters in front of it.  `initState`, which
reseeds the generator from the clock, has nothing to change then.
-/

namespace Fussion

/-- `Params`, the public parameters. -/
structure Params (ECP2 : Type) where
  n : Int32
  tm : Int32
  q : ℤ
  P2 : ECP2
  g : ℤ
  beta : ℤ
  PK : List ECP2

/-- `UAV`, with its share reconstruction key. -/
structure UAV where
  c1 : List ℤ
  c2 : List ℤ
  ID : ℤ
deriving DecidableEq, Repr

/-- `UAV_h`, the cluster head. -/
structure UAVh where
  ID : ℤ
  alpha : ℤ
deriving DecidableEq, Repr

/-- `parSig`, a partial signature. -/
structure ParSig (ECP : Type) where
  cj : ℤ
  sig : ECP
  ID : ℤ

/-- `Sigma`, a transformed threshold signature. -/
structure Sigma (ECP : Type) where
  aux : List ℤ
  sig : List ECP
  IDs : List ℤ

/-- The number of iterations of `for (int i = 0; i < t; ++i)`. -/
def count (t : Int32) : ℕ := t.toInt.toNat

/-- The draws of `KeyGen`. -/
structure KeyDraws where
  b : ℕ → Fin curveOrder
  d : ℕ → Fin curveOrder
  /-- The ID of the `j`-th UAV. -/
  ID : ℕ → Fin curveOrder
  /-- The ElGamal exponents of the `j`-th UAV. -/
  u : ℕ → ℕ → Fin curveOrder
  /-- The ID of the cluster head. -/
  IDh : Fin curveOrder

/-- The coefficients that a loop `for (int i = 0; i < tm - 1; ++i)` draws. -/
def coefficients (tm : Int32) (c : ℕ → Fin curveOrder) : List ℤ :=
  (List.range (count (tm - 1))).map fun i ↦ randMpz (c i)

/-- The draws of one run of the scheme. -/
structure Draws where
  g : Fin curveOrder
  alpha : Fin curveOrder
  key : KeyDraws
  sk_v : Fin curveOrder
  e : Fin curveOrder

/-- The plaintext `fij` of `getUAV`: the value of the `i`-th linear polynomial at the ID. -/
def fij (q di bi id : ℤ) : Exec ℤ := remMpz (di * id + bi) q

/-- `getUAV`; `u i` is the ElGamal exponent of iteration `i`. -/
def getUAV {ECP2 : Type} (pp : Params ECP2) (d b : List ℤ) (id : ℤ) (u : ℕ → Fin curveOrder) :
    Exec UAV := do
  let (c1, c2) ← Run.upTo b.length (fun i (c : List ℤ × List ℤ) ↦ do
    let f ← fij pp.q (← subscript d i) (← subscript b i) id
    let c1 ← powMpz pp.g (randMpz (u i)) pp.q
    let beta_u ← powMpz pp.beta (randMpz (u i)) pp.q
    let beta_u ← remMpz (beta_u * f) pp.q
    pure (c.1 ++ [c1], c.2 ++ [beta_u])) ([], [])
  pure { c1 := c1, c2 := c2, ID := id }

/-- `getPi_0(Params, vector<mpz_class>, int)`. -/
def getPi0 {ECP2 : Type} (pp : Params ECP2) (ID : List ℤ) (t : Int32) : Exec (List ℤ) := do
  let prodX ← Run.upTo (count t) (fun i prodX ↦ do
    remMpz (prodX * (← subscript ID i)) pp.q) 1
  Run.upTo (count t) (fun i Pis ↦ do
    let denominator ← Run.upTo (count t) (fun j denominator ↦ do
      if j ≠ i then
        let temp ← remMpz ((← subscript ID j) - (← subscript ID i) + pp.q) pp.q
        remMpz (denominator * temp) pp.q
      else
        pure denominator) 1
    let inv ← invertMpz (← subscript ID i) pp.q
    let numerator ← remMpz (prodX * inv) pp.q
    let inv_den ← invertMpz denominator pp.q
    let Pi_0 ← remMpz (numerator * inv_den) pp.q
    pure (Pis ++ [Pi_0])) []

/-- `getPi_0(Params, Sigma, int)`, the overload that multiplies up every numerator. -/
def getPi0Sigma {ECP ECP2 : Type} (pp : Params ECP2) (UAVs : Sigma ECP) (t : Int32) :
    Exec (List ℤ) :=
  Run.upTo (count t) (fun i Pis ↦ do
    let (numerator, denominator) ← Run.upTo (count t) (fun j (s : ℤ × ℤ) ↦ do
      if j ≠ i then
        let temp_numerator ← remMpz (-(← subscript UAVs.IDs j) + pp.q) pp.q
        let numerator ← remMpz (s.1 * temp_numerator) pp.q
        let temp_denominator ←
          remMpz ((← subscript UAVs.IDs i) - (← subscript UAVs.IDs j) + pp.q) pp.q
        let denominator ← remMpz (s.2 * temp_denominator) pp.q
        pure (numerator, denominator)
      else
        pure s) (1, 1)
    let inv_den ← invertMpz denominator pp.q
    let Pi_0 ← remMpz (numerator * inv_den) pp.q
    pure (Pis ++ [Pi_0])) []

namespace Miracl

variable {ECP ECP2 FP12 : Type} [AddCommGroup ECP] [AddCommGroup ECP2] [CommGroup FP12]
variable (M : Miracl ECP ECP2 FP12)

/-- `Setup`: the key of the cluster head and the public parameters. -/
def setup (n tm : Int32) (g alpha : Fin curveOrder) : Exec (ℤ × Params ECP2) := do
  let q := bigToMpz curveOrder
  let beta ← powMpz (randMpz g) (randMpz alpha) q
  pure (randMpz alpha,
    { n := n, tm := tm, q := q, P2 := M.generator2, g := randMpz g, beta := beta, PK := [] })

/-- `getPK`: the body of the `do … while` runs once before the size is looked at. -/
def getPK (b : List ℤ) : Exec (List ECP2) := do
  let (_, PK) ← Run.upTo (max 1 b.length) (fun i (s : ECP2 × List ECP2) ↦ do
    let A := ecpMul s.1 (← subscript b i)
    pure (A, s.2 ++ [A])) (M.generator2, [])
  pure PK

/-- `KeyGen`. -/
def keyGen (params : Params ECP2) (alpha : ℤ) (r : KeyDraws) :
    Exec (Params ECP2 × List UAV × UAVh) := do
  let b := coefficients params.tm r.b
  let d := coefficients params.tm r.d
  let PK ← M.getPK b
  let params := { params with PK := PK }
  let UAVs ← Run.upTo (count params.n) (fun j UAVs ↦ do
    let uav ← getUAV params d b (randMpz (r.ID j)) (r.u j)
    pure (UAVs ++ [uav])) []
  pure (params, UAVs, { ID := randMpz r.IDh, alpha := alpha })

/-- `Sign`. -/
def sign (pp : Params ECP2) (uav : UAV) (t : Int32) (msg : ℤ) : Exec (ParSig ECP) := do
  let (cj, sj) ← Run.upTo (count (t - 1)) (fun i (s : ℤ × ℤ) ↦ do
    let cj ← remMpz (s.1 * (← subscript uav.c1 i)) pp.q
    let sj ← remMpz (s.2 * (← subscript uav.c2 i)) pp.q
    pure (cj, sj)) (1, 1)
  let Hm := M.hashToPoint msg pp.q
  pure { cj := cj, sig := ecpMul Hm sj, ID := uav.ID }

/-- `collectSig`. -/
def collectSig (pp : Params ECP2) (UAVs : List UAV) (t : Int32) (msg : ℤ) :
    Exec (List (ParSig ECP)) :=
  Run.upTo (count t) (fun i sigmas ↦ do
    let sigma ← M.sign pp (← subscript UAVs i) t msg
    pure (sigmas ++ [sigma])) []

/-- The hash of a shared value `base ^ exp`, made coprime to `q - 1`. -/
def sharedHash (pp : Params ECP2) (base exp : ℤ) : Exec ℤ := do
  let shared ← powMpz base exp pp.q
  M.hashToCoprime shared (pp.q - 1) getFactors

/-- The exponent that `AggSig` derives from the verifier's public key. -/
def aggHash (pp : Params ECP2) (alpha PK_v : ℤ) : Exec ℤ := M.sharedHash pp PK_v alpha

/-- The exponent that `Verify` derives from its own key. -/
def verifyHash (pp : Params ECP2) (sk_v : ℤ) : Exec ℤ := M.sharedHash pp pp.beta sk_v

/-- The re-encryption key of `AggSig`: `alpha` divided by the hash modulo `q - 1`. -/
def reKey (pp : Params ECP2) (alpha PK_v : ℤ) : Exec ℤ := do
  let rk ← M.aggHash pp alpha PK_v
  let lambda_q := pp.q - 1
  let rk ← invertMpz rk lambda_q
  remMpz (alpha * rk) lambda_q

/-- `AggSig`; `e` is the draw that masks the signatures. -/
def aggSig (parSigs : List (ParSig ECP)) (pp : Params ECP2) (uavH : UAVh) (PK_v : ℤ)
    (e : Fin curveOrder) : Exec (Sigma ECP) := do
  let rk ← M.reKey pp uavH.alpha PK_v
  let ge ← powMpz pp.g (randMpz e) pp.q
  let beta_e ← powMpz pp.beta (randMpz e) pp.q
  Run.upTo parSigs.length (fun i (sigma : Sigma ECP) ↦ do
    let p ← subscript parSigs i
    let aux_i ← remMpz (p.cj * ge) pp.q
    let aux_i ← powMpz aux_i rk pp.q
    pure { aux := sigma.aux ++ [aux_i], sig := sigma.sig ++ [ecpMul p.sig beta_e],
           IDs := sigma.IDs ++ [p.ID] }) { aux := [], sig := [], IDs := [] }

/-- The coefficients `k` of `Verify`. -/
def verifyCoeffs (pp : Params ECP2) (sigma : Sigma ECP) (Pis : List ℤ) (hash : ℤ) (t : Int32) :
    Exec (List ℤ) :=
  Run.upTo (count t) (fun i k ↦ do
    let temp ← powMpz (← subscript sigma.aux i) hash pp.q
    let temp ← invertMpz temp pp.q
    let temp ← remMpz ((← subscript Pis i) * temp) pp.q
    pure (k ++ [temp])) []

/-- The signature that `Verify` accumulates: it starts from the first point, and the loop runs
from `i = 1`. -/
def accumulate (sigma : Sigma ECP) (k : List ℤ) (t : Int32) : Exec ECP := do
  let s := ecpMul (← subscript sigma.sig 0) (← subscript k 0)
  Run.upTo (count t - 1) (fun i s ↦ do
    let p := ecpMul (← subscript sigma.sig (i + 1 : ℕ)) (← subscript k (i + 1 : ℕ))
    pure (s + p)) s

/-- `Verify`. -/
def verify [DecidableEq FP12] (sigma : Sigma ECP) (sk_v : ℤ) (pp : Params ECP2) (msg : ℤ)
    (t : Int32) : Exec ℤ := do
  let Pis ← getPi0 pp sigma.IDs t
  let hash ← M.verifyHash pp sk_v
  let k ← verifyCoeffs pp sigma Pis hash t
  let s ← accumulate sigma k t
  let left := M.e s pp.P2
  let Hm := M.hashToPoint msg pp.q
  let right := M.e Hm (← subscript pp.PK (t - 2).toInt)
  pure (if left = right then 1 else 0)

/-- `fussion`, with the parameters that the source sets to `n = tm = 2`, `t = tm / 2 + 1` and
`M = 123456789`. -/
def fussion [DecidableEq FP12] (n tm t : Int32) (msg : ℤ) (r : Draws) : Exec ℤ := do
  let (alpha, pp) ← M.setup n tm r.g r.alpha
  let (pp, UAVs, uavH) ← M.keyGen pp alpha r.key
  let sigmas ← M.collectSig pp UAVs t msg
  let PK_v ← powMpz pp.g (randMpz r.sk_v) pp.q
  let sig ← M.aggSig sigmas pp uavH PK_v r.e
  M.verify sig (randMpz r.sk_v) pp msg t

end Miracl

end Fussion
