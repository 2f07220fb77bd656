import Fussion.Protocol.System

/-!
# Collecting the partial signatures

`collectParSigs` of `src/brpcAgg.cpp` as one function of how the calls of the UAVs end.  The
global `sigmas` is appended to while the loop runs; a channel that cannot be set up ends the
loop with `-1`, a failed call is only logged.

`AllOrNothing` is the contract that callers of such a function rely on, and
`collectParSigs_allOrNothing_iff` says for which outcomes it is met.

In the protocol the iterations of the loop are actions with those of other processes in between.
`served_of_reach` says that what the aggregator serves in the end is what the function leaves in
`sigmas`, whatever happened in the run.
-/

namespace Fussion

/-- The call of a UAV leaves `sigmas` alone, and the loop goes on. -/
def SignOutcome.Skipped (outcome : SignOutcome) : Prop :=
  outcome = .askedToQuit ∨ outcome = .rpcFailed

namespace PointCodec

variable {ECP ECP2 : Type} (C : PointCodec ECP ECP2)

/-- The loop of `collectParSigs` after `k` iterations: `sigmas`, and the value of an early
`return`. -/
def collectLoop (outcomes : ℕ → SignOutcome) (sigmas : List (ParSig ECP)) (k : ℕ) :
    Exec (List (ParSig ECP) × Option ℤ) :=
  Run.upTo k (fun i (s : List (ParSig ECP) × Option ℤ) ↦
    match s.2 with
    | some _ => pure s
    | none => C.collectOne (outcomes i) s.1) (sigmas, none)

/-- `collectParSigs`: the returned value and the new `sigmas`, where `outcomes i` is how the call
of the UAV at port `8002 + i` ends. -/
def collectParSigs (t_AGG : Int32) (outcomes : ℕ → SignOutcome) (sigmas : List (ParSig ECP)) :
    Exec (ℤ × List (ParSig ECP)) := do
  let (sigmas, returned) ← C.collectLoop outcomes sigmas (count t_AGG)
  pure (returned.getD 1, sigmas)

/-- The call of a UAV gives a response that is read as `sigma`. -/
def Reads (outcome : SignOutcome) (sigma : ParSig ECP) : Prop :=
  ∃ response, outcome = .reply response ∧ (C.readParSig response).out = .ok sigma

/-- Either `1` is returned and the responses of all UAVs are appended, one each in the order of
the ports, or `-1` is returned and `sigmas` is as before. -/
def AllOrNothing (t_AGG : Int32) (outcomes : ℕ → SignOutcome) (sigmas : List (ParSig ECP)) :
    Prop :=
  (∃ new, List.Forall₂ (fun i ↦ C.Reads (outcomes i)) (List.range (count t_AGG)) new ∧
    (C.collectParSigs t_AGG outcomes sigmas).out = .ok (1, sigmas ++ new)) ∨
  (C.collectParSigs t_AGG outcomes sigmas).out = .ok (-1, sigmas)

/-! ## One iteration -/

/-- An iteration that goes on has skipped the UAV or appended its response. -/
theorem collectOne_running {outcome : SignOutcome} {sigmas sigmas' : List (ParSig ECP)}
    (h : (C.collectOne outcome sigmas).out = .ok (sigmas', none)) :
    outcome.Skipped ∧ sigmas' = sigmas ∨ ∃ sigma, sigmas' = sigmas ++ [sigma] := by
  cases outcome with
  | initFailed => cases h
  | askedToQuit =>
      cases h
      exact Or.inl ⟨Or.inl rfl, rfl⟩
  | rpcFailed =>
      cases h
      exact Or.inl ⟨Or.inr rfl, rfl⟩
  | reply response =>
      obtain ⟨sigma, -, hsigma⟩ := Run.out_bind_eq_ok.mp h
      cases hsigma
      exact Or.inr ⟨sigma, rfl⟩

/-- Only a channel that cannot be set up ends the loop. -/
theorem collectOne_returned {outcome : SignOutcome} {sigmas sigmas' : List (ParSig ECP)} {v : ℤ}
    (h : (C.collectOne outcome sigmas).out = .ok (sigmas', some v)) :
    outcome = .initFailed ∧ sigmas' = sigmas ∧ v = -1 := by
  cases outcome with
  | initFailed =>
      cases h
      exact ⟨rfl, rfl, rfl⟩
  | askedToQuit => cases h
  | rpcFailed => cases h
  | reply response =>
      obtain ⟨sigma, -, hsigma⟩ := Run.out_bind_eq_ok.mp h
      cases hsigma

theorem collectOne_of_skipped {outcome : SignOutcome} (h : outcome.Skipped)
    (sigmas : List (ParSig ECP)) : C.collectOne outcome sigmas = pure (sigmas, none) := by
  rcases h with rfl | rfl <;> rfl

/-! ## The loop -/

variable {C} {outcomes : ℕ → SignOutcome} {sigmas sigmas' : List (ParSig ECP)}

/-- The last iteration does nothing after an early `return`, and calls one UAV otherwise. -/
theorem collectLoop_succ_cases {k : ℕ} {returned : Option ℤ}
    (h : (C.collectLoop outcomes sigmas (k + 1)).out = .ok (sigmas', returned)) :
    (∃ v, returned = some v ∧ (C.collectLoop outcomes sigmas k).out = .ok (sigmas', some v)) ∨
      ∃ acc, (C.collectLoop outcomes sigmas k).out = .ok (acc, none) ∧
        (C.collectOne (outcomes k) acc).out = .ok (sigmas', returned) := by
  rw [collectLoop, Run.upTo_succ] at h
  obtain ⟨⟨acc, before⟩, hacc, hstep⟩ := Run.out_bind_eq_ok.mp h
  cases before with
  | some v =>
      cases hstep
      exact Or.inl ⟨v, rfl, hacc⟩
  | none => exact Or.inr ⟨acc, hacc, hstep⟩

/-- While the loop runs, `sigmas` grows, and it stays as it was only if every UAV is skipped. -/
theorem collectLoop_running {k : ℕ}
    (h : (C.collectLoop outcomes sigmas k).out = .ok (sigmas', none)) :
    sigmas.length ≤ sigmas'.length ∧
      (sigmas'.length = sigmas.length → ∀ i < k, (outcomes i).Skipped) := by
  induction k generalizing sigmas' with
  | zero =>
      cases h
      exact ⟨le_refl _, fun _ i hi ↦ absurd hi i.not_lt_zero⟩
  | succ k ih =>
      rcases collectLoop_succ_cases h with ⟨v, hv, -⟩ | ⟨acc, hacc, hstep⟩
      · cases hv
      · obtain ⟨hle, hskip⟩ := ih hacc
        rcases C.collectOne_running hstep with ⟨hk, rfl⟩ | ⟨sigma, rfl⟩
        · refine ⟨hle, fun hlen i hi ↦ ?_⟩
          rcases Nat.lt_succ_iff_lt_or_eq.mp hi with hi | rfl
          · exact hskip hlen i hi
          · exact hk
        · have hlen : (acc ++ [sigma]).length = acc.length + 1 := List.length_append
          exact ⟨by omega, fun heq ↦ absurd heq (by omega)⟩

/-- An early `return` gives `-1` and leaves `sigmas` as the iterations before made it. -/
theorem collectLoop_returned {k : ℕ} {v : ℤ}
    (h : (C.collectLoop outcomes sigmas k).out = .ok (sigmas', some v)) :
    v = -1 ∧ ∃ i < k, outcomes i = .initFailed ∧
      (C.collectLoop outcomes sigmas i).out = .ok (sigmas', none) := by
  induction k generalizing sigmas' with
  | zero => cases h
  | succ k ih =>
      rcases collectLoop_succ_cases h with ⟨w, hw, hacc⟩ | ⟨acc, hacc, hstep⟩
      · cases hw
        obtain ⟨hv, i, hi, hinit⟩ := ih hacc
        exact ⟨hv, i, Nat.lt_succ_of_lt hi, hinit⟩
      · obtain ⟨hinit, rfl, hv⟩ := C.collectOne_returned hstep
        exact ⟨hv, k, Nat.lt_succ_self k, hinit, hacc⟩

/-- A channel that cannot be set up after skipped UAVs only. -/
theorem collectLoop_of_initFailed {i k : ℕ} (hi : i < k) (hinit : outcomes i = .initFailed)
    (h : ∀ j < i, (outcomes j).Skipped) :
    C.collectLoop outcomes sigmas k = pure (sigmas, some (-1)) := by
  refine Run.upTo_eq_pure (fun j ↦ (sigmas, if j ≤ i then none else some (-1)))
    (by rw [if_pos (Nat.zero_le i)]) ?_ |>.trans (by rw [if_neg (by omega)])
  intro j _
  rcases lt_trichotomy j i with hj | rfl | hj
  · simp only [if_pos hj.le, if_pos (Nat.succ_le_of_lt hj), C.collectOne_of_skipped (h j hj)]
  · simp only [if_pos le_rfl, if_neg (Nat.not_succ_le_self j), hinit]
    rfl
  · simp only [if_neg (show ¬ j ≤ i by omega), if_neg (show ¬ j + 1 ≤ i by omega)]

/-- Responses that can all be read are appended in order. -/
theorem out_collectLoop_of_reads {k : ℕ} (h : ∀ i < k, ∃ sigma, C.Reads (outcomes i) sigma) :
    ∃ new, List.Forall₂ (fun i ↦ C.Reads (outcomes i)) (List.range k) new ∧
      (C.collectLoop outcomes sigmas k).out = .ok (sigmas ++ new, none) := by
  induction k with
  | zero => exact ⟨[], .nil, by rw [List.append_nil]; rfl⟩
  | succ k ih =>
      obtain ⟨new, hnew, hloop⟩ := ih fun i hi ↦ h i (Nat.lt_succ_of_lt hi)
      obtain ⟨sigma, hsigma⟩ := h k (Nat.lt_succ_self k)
      refine ⟨new ++ [sigma], ?_, ?_⟩
      · rw [List.range_succ]
        exact List.rel_append hnew (.cons hsigma .nil)
      · obtain ⟨response, hk, hread⟩ := hsigma
        rw [collectLoop, Run.upTo_succ, Run.out_bind_eq_ok]
        refine ⟨_, hloop, ?_⟩
        simp only [hk, collectOne]
        exact Run.out_bind_eq_ok.mpr ⟨sigma, hread, by rw [List.append_assoc]; rfl⟩

/-! ## The contract -/

/-- **When `collectParSigs` is all-or-nothing.**  It is exactly when the responses of all `t_AGG`
UAVs arrive and can be read, or when some channel cannot be set up and no earlier UAV has
answered.  In particular one failed call among calls that are answered breaks the contract, since
`1` is returned with a shorter list, and so does a channel that cannot be set up after an answered
call, since `-1` is returned with the answers kept. -/
theorem collectParSigs_allOrNothing_iff (t_AGG : Int32) (outcomes : ℕ → SignOutcome)
    (sigmas : List (ParSig ECP)) :
    C.AllOrNothing t_AGG outcomes sigmas ↔
      (∀ i < count t_AGG, ∃ sigma, C.Reads (outcomes i) sigma) ∨
        ∃ i < count t_AGG, outcomes i = .initFailed ∧ ∀ j < i, (outcomes j).Skipped := by
  constructor
  · rintro (⟨new, hnew, -⟩ | hnothing)
    · refine Or.inl fun i hi ↦ ?_
      have hi₁ : i < (List.range (count t_AGG)).length := by rwa [List.length_range]
      have hi₂ : i < new.length := hnew.length_eq ▸ hi₁
      refine ⟨new.get ⟨i, hi₂⟩, ?_⟩
      simpa only [List.get_eq_getElem, List.getElem_range] using hnew.get hi₁ hi₂
    · obtain ⟨⟨acc, returned⟩, hloop, hret⟩ := Run.out_bind_eq_ok.mp hnothing
      cases returned with
      | none => cases hret
      | some v =>
          cases hret
          obtain ⟨-, i, hi, hinit, hbefore⟩ := collectLoop_returned hloop
          exact Or.inr ⟨i, hi, hinit, (collectLoop_running hbefore).2 rfl⟩
  · rintro (hread | ⟨i, hi, hinit, hskip⟩)
    · obtain ⟨new, hnew, hloop⟩ := out_collectLoop_of_reads hread
      exact Or.inl ⟨new, hnew, Run.out_bind_eq_ok.mpr ⟨_, hloop, rfl⟩⟩
    · refine Or.inr ?_
      rw [collectParSigs, collectLoop_of_initFailed hi hinit hskip, pure_bind]
      rfl

/-- The first of two UAVs answers and the second is skipped: the answer is kept. -/
theorem out_collectParSigs_short {sigma : ParSig ECP} (h₀ : C.Reads (outcomes 0) sigma)
    (h₁ : (outcomes 1).Skipped) :
    (C.collectParSigs 2 outcomes sigmas).out = .ok (1, sigmas ++ [sigma]) := by
  obtain ⟨response, houtcome, hread⟩ := h₀
  have hfirst : (C.collectLoop outcomes sigmas 1).out = .ok (sigmas ++ [sigma], none) := by
    rw [collectLoop, Run.upTo_succ, Run.upTo_zero, pure_bind]
    simp only [houtcome, collectOne]
    exact Run.out_bind_eq_ok.mpr ⟨sigma, hread, rfl⟩
  refine Run.out_bind_eq_ok.mpr ⟨(sigmas ++ [sigma], none), ?_, rfl⟩
  refine Run.out_bind_eq_ok.mpr ⟨(sigmas ++ [sigma], none), hfirst, ?_⟩
  simp only [C.collectOne_of_skipped h₁, Run.out_pure]

end PointCodec

/-- Two UAVs, the first answers and the call of the second fails: `1` is returned, with one
partial signature. -/
theorem collectParSigs_short :
    let sigma : ParSig Zq := { cj := 1, sig := 5, ID := 7 }
    let outcomes : ℕ → SignOutcome := fun i ↦
      if i = 0 then .reply (exponentCodec.writeParSig sigma) else .rpcFailed
    (exponentCodec.collectParSigs 2 outcomes []).out = .ok (1, [sigma]) ∧
      ¬ exponentCodec.AllOrNothing 2 outcomes [] := by
  intro sigma outcomes
  have hread : exponentCodec.Reads (outcomes 0) sigma := by
    refine ⟨_, rfl, ?_⟩
    rw [exponentCodec.readParSig_writeParSig, Run.out_pure, ParSig.mapPoint, carry_exponentCodec]
  have hresult : (exponentCodec.collectParSigs 2 outcomes []).out = .ok (1, [sigma]) :=
    PointCodec.out_collectParSigs_short hread (Or.inr rfl)
  refine ⟨hresult, ?_⟩
  rintro (⟨new, hnew, hout⟩ | hout)
  · rw [hresult] at hout
    injection hout with hout
    have hlen : (2 : ℕ) = new.length := hnew.length_eq
    rw [← List.nil_append new, ← (Prod.mk.inj hout).2] at hlen
    cases hlen
  · rw [hresult] at hout
    cases hout

/-! ## In the protocol -/

namespace PointCodec

variable {ECP ECP2 : Type} {C : PointCodec ECP ECP2} {outcomes : ℕ → SignOutcome}
variable {sigmas : List (ParSig ECP)}

/-- The first `k` iterations depend on the first `k` outcomes. -/
theorem collectLoop_congr {outcomes' : ℕ → SignOutcome} {k : ℕ}
    (h : ∀ i < k, outcomes i = outcomes' i) :
    C.collectLoop outcomes sigmas k = C.collectLoop outcomes' sigmas k := by
  induction k with
  | zero => rfl
  | succ k ih =>
      have hk := h k k.lt_succ_self
      have ih := ih fun i hi ↦ h i (Nat.lt_succ_of_lt hi)
      simp only [collectLoop] at ih ⊢
      rw [Run.upTo_succ, Run.upTo_succ, ih, hk]

/-- Nothing happens after an early `return`. -/
theorem out_collectLoop_of_returned {acc : List (ParSig ECP)} {v : ℤ} {i k : ℕ} (hik : i ≤ k)
    (h : (C.collectLoop outcomes sigmas i).out = .ok (acc, some v)) :
    (C.collectLoop outcomes sigmas k).out = .ok (acc, some v) := by
  induction hik with
  | refl => exact h
  | step _ ih => exact Run.out_bind_eq_ok.mpr ⟨_, ih, rfl⟩

end PointCodec

section Protocol

variable {ECP ECP2 FP12 : Type}

/-- Where the loop of `collectParSigs` stands: it has run on some outcomes so far. -/
inductive LoopInv (C : PointCodec ECP ECP2) : AggProc ECP ECP2 → Prop
  | start : LoopInv C .start
  | registering (call : Call UAVIDRequest UAVIDResponse) : LoopInv C (.registering call)
  | collecting {head : Head ECP ECP2} {i : ℕ} {call : Option (Call SignRequest SignResponse)}
      {outcomes : ℕ → SignOutcome} (hi : i ≤ count head.t_AGG)
      (hcall : call.isSome → i < count head.t_AGG)
      (hloop : (C.collectLoop outcomes [] i).out = .ok (head.sigmas, none)) :
      LoopInv C (.collecting head i call)
  | serving {head : Head ECP ECP2} {outcomes : ℕ → SignOutcome} {v : ℤ}
      (hserved : (C.collectParSigs head.t_AGG outcomes []).out = .ok (v, head.sigmas)) :
      LoopInv C (.serving head)

/-- Before the first iteration. -/
theorem LoopInv.first {C : PointCodec ECP ECP2} {head : Head ECP ECP2} (h : head.sigmas = []) :
    LoopInv C (.collecting head 0 none) := by
  have hloop : (C.collectLoop (fun _ ↦ .rpcFailed) [] 0).out = .ok (head.sigmas, none) := by
    rw [h]
    rfl
  exact .collecting (Nat.zero_le _) nofun hloop

/-- One iteration. -/
theorem LoopInv.next {C : PointCodec ECP ECP2} {head : Head ECP ECP2} {i : ℕ}
    {outcomes : ℕ → SignOutcome} {outcome : SignOutcome} {r : List (ParSig ECP) × Option ℤ}
    (hi : i < count head.t_AGG)
    (hloop : (C.collectLoop outcomes [] i).out = .ok (head.sigmas, none))
    (hone : (C.collectOne outcome head.sigmas).out = .ok r) :
    LoopInv C (.next head i r) := by
  have hsame : C.collectLoop (Function.update outcomes i outcome) [] i =
      C.collectLoop outcomes [] i :=
    PointCodec.collectLoop_congr fun j hj ↦ Function.update_of_ne hj.ne _ _
  have hstep : (C.collectLoop (Function.update outcomes i outcome) [] (i + 1)).out = .ok r := by
    refine Run.out_bind_eq_ok.mpr ⟨(head.sigmas, none), (congrArg Run.out hsame).trans hloop, ?_⟩
    simpa only [Function.update_self] using hone
  obtain ⟨acc, returned⟩ := r
  cases returned with
  | none => exact .collecting hi nofun hstep
  | some v =>
      exact .serving (Run.out_bind_eq_ok.mpr
        ⟨_, PointCodec.out_collectLoop_of_returned hi hstep, rfl⟩)

variable [AddCommGroup ECP] [AddCommGroup ECP2] [CommGroup FP12] [DecidableEq FP12]
variable {M : Miracl ECP ECP2 FP12} {C : PointCodec ECP ECP2} {n tm : Int32} {msg : ℤ}
variable {s s' : Sys ECP ECP2}

theorem LoopInv.ok {a : Action} {x : Exec (Sys ECP ECP2)} (h : LoopInv C s.agg)
    (he : Enabled M C n tm msg s a x) (hx : x.out = .ok s') : LoopInv C s'.agg := by
  cases he with
  | getPpAndSk hagg =>
      cases hx
      exact .registering _
  | registerForAgg u hta hagg =>
      obtain ⟨response, -, ⟨⟩⟩ := Run.out_bind_eq_ok.mp hx
      exact .registering _
  | saveHead hagg =>
      obtain ⟨head, hhead, ⟨⟩⟩ := Run.out_bind_eq_ok.mp hx
      obtain ⟨pp, -, hhead⟩ := Run.out_bind_eq_ok.mp hhead
      obtain ⟨alpha, -, hhead⟩ := Run.out_bind_eq_ok.mp hhead
      obtain ⟨msg, -, ⟨⟩⟩ := Run.out_bind_eq_ok.mp hhead
      exact .first rfl
  | getPpAndSkFailed hagg =>
      cases hx
      exact .first rfl
  | collect hagg hi =>
      cases hx
      rw [hagg] at h
      cases h with
      | collecting _ _ hloop => exact .collecting hi.le (fun _ ↦ hi) hloop
  | sign hagg huav =>
      obtain ⟨sig, -, ⟨⟩⟩ := Run.out_bind_eq_ok.mp hx
      rw [hagg] at h
      cases h with
      | collecting hi hcall hloop => exact .collecting hi (fun _ ↦ hcall rfl) hloop
  | collected hagg =>
      obtain ⟨r, hone, ⟨⟩⟩ := Run.out_bind_eq_ok.mp hx
      rw [hagg] at h
      cases h with
      | collecting _ hcall hloop => exact .next (hcall rfl) hloop hone
  | collectFailed hagg hi houtcome =>
      obtain ⟨r, hone, ⟨⟩⟩ := Run.out_bind_eq_ok.mp hx
      rw [hagg] at h
      cases h with
      | collecting _ _ hloop => exact .next hi hloop hone
  | startServerTran hagg hi =>
      cases hx
      rw [hagg] at h
      cases h with
      | collecting hle _ hloop =>
          rw [le_antisymm hle hi] at hloop
          exact .serving (Run.out_bind_eq_ok.mpr ⟨_, hloop, rfl⟩)
  | _ =>
      -- The other actions leave the aggregator alone.
      first
      | (cases hx; exact h)
      | (obtain ⟨_, -, ⟨⟩⟩ := Run.out_bind_eq_ok.mp hx; exact h)

/-- **What the aggregator serves is what `collectParSigs` leaves.**  In every run, also when calls
fail, there are outcomes of the calls of `sign` from which `collectParSigs`, called once on the
empty list, returns with the list that `Tran` works on. -/
theorem served_of_reach (h : (protocol M C n tm msg).Reach (fun _ _ ↦ True) (Sys.init ECP ECP2) s)
    {head : Head ECP ECP2} (hagg : s.agg = .serving head) :
    ∃ outcomes v, (C.collectParSigs head.t_AGG outcomes []).out = .ok (v, head.sigmas) := by
  have hinv : LoopInv C s.agg :=
    System.Reach.invariant (I := fun s ↦ LoopInv C s.agg) .start (fun hinv _ he hx ↦ hinv.ok he hx)
      (fun hinv _ _ _ ↦ hinv) h
  rw [hagg] at hinv
  cases hinv with
  | serving hserved => exact ⟨_, _, hserved⟩

end Protocol

end Fussion
