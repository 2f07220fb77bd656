import Mathlib.Data.List.Sort
import Mathlib.Data.Set.Insert
import Mathlib.Logic.Relation

/-!
# Signing sessions

What the four programs are for, without their data: UAVs come to hold keys, a collector asks the
UAVs `0, …, t - 1` in this order and keeps the partial signatures that it gets, and from the moment
it stops asking, checks are made of what it holds.  A check finds the signature complete or short.

Calls may fail, so any UAV may be passed over and the collector may stop at any time.  What such a
session can still be relied on for is stated here: nobody signs without a key
(`Session.Run.inv`) or twice (`Session.Run.sublist`), and all checks of one session find the same,
that is what the collector holds when it stops.
-/

namespace Fussion

/-- What a check finds. -/
inductive Finding
  | /-- All partial signatures are there. -/ complete
  | /-- Some are missing. -/ short
deriving DecidableEq, Repr

/-- The state of a session. -/
structure Session where
  /-- The UAVs that hold a key. -/
  keyed : Set ℕ
  /-- The UAVs whose partial signatures the collector holds, the oldest first. -/
  collected : List ℕ
  /-- The collector has stopped asking. -/
  closed : Bool
  /-- What the checks have found. -/
  findings : List Finding

namespace Session

/-- Nothing has happened yet. -/
def init : Session where
  keyed := ∅
  collected := []
  closed := false
  findings := []

/-- What a check finds at the threshold `t`. -/
def finding (t : ℕ) (collected : List ℕ) : Finding :=
  if collected.length = t then .complete else .short

/-- One step of a session with the threshold `t`. -/
inductive Step (t : ℕ) (a : Session) : Session → Prop
  | /-- A UAV gets its key. -/
    key (i : ℕ) (hi : i ∉ a.keyed) : Step t a { a with keyed := insert i a.keyed }
  | /-- The collector gets the partial signature of a UAV behind those that it has asked. -/
    collect (i : ℕ) (hopen : a.closed = false) (hi : i < t) (hkeyed : i ∈ a.keyed)
      (hlast : ∀ j ∈ a.collected, j < i) :
      Step t a { a with collected := a.collected ++ [i] }
  | /-- The collector stops asking. -/
    close (hopen : a.closed = false) : Step t a { a with closed := true }
  | /-- A check is made. -/
    check (hclosed : a.closed = true) :
      Step t a { a with findings := a.findings ++ [finding t a.collected] }

/-- The sessions that the steps lead to. -/
def Run (t : ℕ) (a : Session) : Prop := Relation.ReflTransGen (Step t) init a

/-! ## What holds in every session -/

/-- The invariant of a session. -/
structure Inv (t : ℕ) (a : Session) : Prop where
  sorted : a.collected.Pairwise (· < ·)
  lt : ∀ i ∈ a.collected, i < t
  keyed : ∀ i ∈ a.collected, i ∈ a.keyed
  findings : ∀ v ∈ a.findings, a.closed = true ∧ v = finding t a.collected

variable {t : ℕ} {a b : Session}

theorem Inv.init : Inv t Session.init where
  sorted := .nil
  lt _ h := absurd h List.not_mem_nil
  keyed _ h := absurd h List.not_mem_nil
  findings _ h := absurd h List.not_mem_nil

theorem Inv.step (h : Inv t a) (hstep : Step t a b) : Inv t b := by
  cases hstep with
  | key i hi =>
      exact ⟨h.sorted, h.lt, fun j hj ↦ Set.mem_insert_of_mem _ (h.keyed j hj), h.findings⟩
  | collect i hopen hi hkeyed hlast =>
      refine ⟨?_, ?_, ?_, ?_⟩
      · rw [List.pairwise_append]
        exact ⟨h.sorted, List.pairwise_singleton _ _, fun j hj k hk ↦
          List.mem_singleton.mp hk ▸ hlast j hj⟩
      · exact List.forall_mem_append.mpr ⟨h.lt, List.forall_mem_singleton.mpr hi⟩
      · exact List.forall_mem_append.mpr ⟨h.keyed, List.forall_mem_singleton.mpr hkeyed⟩
      · -- While the collector asks there has been no check.
        intro v hv
        have hclosed := (h.findings v hv).1
        rw [hopen] at hclosed
        cases hclosed
  | close hopen => exact ⟨h.sorted, h.lt, h.keyed, fun v hv ↦ ⟨rfl, (h.findings v hv).2⟩⟩
  | check hclosed =>
      exact ⟨h.sorted, h.lt, h.keyed, List.forall_mem_append.mpr
        ⟨h.findings, List.forall_mem_singleton.mpr ⟨hclosed, rfl⟩⟩⟩

theorem Run.inv (h : Run t a) : Inv t a := by
  induction h with
  | refl => exact .init
  | tail _ hstep ih => exact ih.step hstep

/-- Nobody signs twice, and the partial signatures are in the order of the UAVs. -/
theorem Run.sublist (h : Run t a) : a.collected.Sublist (List.range t) := by
  have hinv := h.inv
  have hnodup : a.collected.Nodup := hinv.sorted.imp fun h ↦ h.ne
  have hsubset : a.collected ⊆ List.range t := fun i hi ↦ List.mem_range.mpr (hinv.lt i hi)
  exact List.sublist_of_subperm_of_pairwise (List.subperm_of_subset hnodup hsubset) hinv.sorted
    List.pairwise_lt_range

/-- A complete session has the partial signatures of all UAVs. -/
theorem Run.collected_eq (h : Run t a) (hlen : a.collected.length = t) :
    a.collected = List.range t :=
  h.sublist.eq_of_length (by rw [hlen, List.length_range])

end Session

end Fussion
