import Mathlib.Data.ZMod.Basic
import Mathlib.Data.Int.CardIntervalMod
import Mathlib.Data.Nat.Prime.Int
import Mathlib.Data.Nat.ChineseRemainder
import Mathlib.Data.List.Prime
import Mathlib.RingTheory.Coprime.Lemmas

/-!
# Arithmetic progressions that avoid finitely many primes

The progression `h, h + c, h + 2c, …` whose step `c` is itself one of the primes to be
avoided.  It meets a number that none of the primes divides exactly when `c` does not divide
the start: every term has the residue of `h` modulo `c`, and modulo the other primes `c` is a
unit, so a term that is `1` modulo all of them exists by the Chinese remainder theorem.

`exists_lt_avoids` bounds the way to such a number for any step that the primes do not divide:
each prime rules out at most every `p`-th term.
-/

namespace Fussion

/-- `x` is divided by none of the numbers of `ps`. -/
def Avoids (ps : List ℕ) (x : ℤ) : Prop := ∀ p ∈ ps, ¬ (p : ℤ) ∣ x

instance (ps : List ℕ) (x : ℤ) : Decidable (Avoids ps x) :=
  inferInstanceAs (Decidable (∀ p ∈ ps, ¬ (p : ℤ) ∣ x))

/-- A step that is coprime to `n` reaches the residue `1` modulo `n` from any start. -/
theorem exists_add_mul_modEq_one {c n : ℕ} (hn : n ≠ 0) (hc : c.Coprime n) (h : ℤ) :
    ∃ k : ℕ, (n : ℤ) ∣ h + k * c - 1 := by
  have : NeZero n := ⟨hn⟩
  refine ⟨((1 - (h : ZMod n)) * (c : ZMod n)⁻¹).val, ?_⟩
  rw [← ZMod.intCast_zmod_eq_zero_iff_dvd]
  push_cast
  rw [ZMod.natCast_zmod_val, mul_assoc, mul_comm (c : ZMod n)⁻¹, ZMod.coe_mul_inv_eq_one c hc]
  ring

/-- The step keeps the residue modulo itself. -/
theorem dvd_add_mul_iff (c : ℕ) (h : ℤ) (k : ℕ) : (c : ℤ) ∣ h + k * c ↔ (c : ℤ) ∣ h := by
  rw [add_comm, Int.dvd_add_right (Dvd.intro_left _ rfl)]

/-- **The progression meets a number avoiding all the primes exactly when its step, one of
them, does not divide its start.** -/
theorem exists_avoids_iff {ps : List ℕ} (hps : ∀ p ∈ ps, p.Prime) {c : ℕ} (hc : c ∈ ps) (h : ℤ) :
    (∃ k : ℕ, Avoids ps (h + k * c)) ↔ ¬ (c : ℤ) ∣ h := by
  constructor
  · rintro ⟨k, hk⟩ hdvd
    exact hk c hc ((dvd_add_mul_iff c h k).mpr hdvd)
  · intro hdvd
    -- The other primes multiply to a number that the step is coprime to.
    let others := ps.filter (· ≠ c)
    have hothers : ∀ p ∈ others, p ∈ ps ∧ p ≠ c := fun p hp ↦ by simpa [others] using hp
    have hne : others.prod ≠ 0 :=
      List.prod_ne_zero fun h0 ↦ (hps 0 (hothers 0 h0).1).ne_zero rfl
    have hcop : c.Coprime others.prod :=
      Nat.coprime_list_prod_right_iff.mpr fun p hp ↦
        (Nat.coprime_primes (hps c hc) (hps p (hothers p hp).1)).mpr (hothers p hp).2.symm
    obtain ⟨k, hk⟩ := exists_add_mul_modEq_one hne hcop h
    refine ⟨k, fun p hp hpdvd ↦ ?_⟩
    by_cases hpc : p = c
    · subst hpc
      exact hdvd ((dvd_add_mul_iff p h k).mp hpdvd)
    · have hmem : p ∈ others := by simpa [others] using ⟨hp, hpc⟩
      have hpk : (p : ℤ) ∣ h + k * c - 1 :=
        (Int.natCast_dvd_natCast.mpr (List.dvd_prod hmem)).trans hk
      have hone : (p : ℤ) ∣ 1 := by
        have := Int.dvd_sub hpdvd hpk
        rwa [sub_sub_cancel] at this
      exact (hps p hp).one_lt.ne' (Nat.eq_one_of_dvd_one (Int.natCast_dvd_natCast.mp hone))

/-! ## How far to go -/

section Bound

open Finset

/-- The terms that a prime divides are one residue class of the indices, unless the prime divides
the step. -/
theorem card_dvd_le {p : ℕ} (hp : p.Prime) {c : ℤ} (hc : ¬ (p : ℤ) ∣ c) (h : ℤ) (N : ℕ) :
    ((range N).filter fun k : ℕ ↦ (p : ℤ) ∣ h + k * c).card ≤ (N + p - 1) / p := by
  rcases eq_empty_or_nonempty ((range N).filter fun k : ℕ ↦ (p : ℤ) ∣ h + k * c) with
    hempty | ⟨v, hv⟩
  · rw [hempty, card_empty]
    exact Nat.zero_le _
  · have hclass : ((range N).filter fun k : ℕ ↦ (p : ℤ) ∣ h + k * c) ⊆
        (range N).filter (· ≡ v [MOD p]) := by
      intro k hk
      obtain ⟨hkN, hk⟩ := mem_filter.mp hk
      have hdiff : (p : ℤ) ∣ (v - k) * c := by
        have := Int.dvd_sub (mem_filter.mp hv).2 hk
        rwa [add_sub_add_left_eq_sub, ← sub_mul] at this
      have hdvd := ((Nat.prime_iff_prime_int.mp hp).dvd_or_dvd hdiff).resolve_right hc
      exact mem_filter.mpr ⟨hkN, Int.natCast_modEq_iff.mp (Int.modEq_iff_dvd.mpr hdvd)⟩
    have hsplit := Nat.div_add_mod N p
    have hpos := hp.pos
    refine (card_le_card hclass).trans ?_
    rw [← Nat.count_eq_card_filter_range, Nat.count_modEq_card _ hpos,
      Nat.le_div_iff_mul_le hpos, add_mul, mul_comm (N / p)]
    split_ifs <;> omega

/-- Each prime rules out at most every `p`-th term. -/
theorem card_not_avoids_le {ps : List ℕ} (hps : ∀ p ∈ ps, p.Prime) {c : ℤ}
    (hc : ∀ p ∈ ps, ¬ (p : ℤ) ∣ c) (h : ℤ) (N : ℕ) :
    ((range N).filter fun k : ℕ ↦ ¬ Avoids ps (h + k * c)).card ≤
      (ps.map fun p ↦ (N + p - 1) / p).sum := by
  induction ps with
  | nil => simp [Avoids]
  | cons p ps ih =>
      have hsplit : ((range N).filter fun k : ℕ ↦ ¬ Avoids (p :: ps) (h + k * c)) ⊆
          ((range N).filter fun k : ℕ ↦ (p : ℤ) ∣ h + k * c) ∪
            (range N).filter fun k : ℕ ↦ ¬ Avoids ps (h + k * c) := by
        intro k hk
        obtain ⟨hkN, hk⟩ := mem_filter.mp hk
        rw [Avoids, List.forall_mem_cons, not_and_or, not_not] at hk
        rw [← filter_or]
        exact mem_filter.mpr ⟨hkN, hk⟩
      have hp := card_dvd_le (hps p List.mem_cons_self) (hc p List.mem_cons_self) h N
      have hrest := ih (fun q hq ↦ hps q (List.mem_cons_of_mem p hq)) fun q hq ↦
        hc q (List.mem_cons_of_mem p hq)
      rw [List.map_cons, List.sum_cons]
      exact (card_le_card hsplit).trans ((card_union_le _ _).trans (Nat.add_le_add hp hrest))

/-- **How far to go.**  Among `N` terms in a row one avoids all the primes, if together the primes
rule out fewer. -/
theorem exists_lt_avoids {ps : List ℕ} (hps : ∀ p ∈ ps, p.Prime) {c : ℤ}
    (hc : ∀ p ∈ ps, ¬ (p : ℤ) ∣ c) (h : ℤ) {N : ℕ}
    (hN : (ps.map fun p ↦ (N + p - 1) / p).sum < N) : ∃ k < N, Avoids ps (h + k * c) := by
  by_contra hnone
  have hall : ((range N).filter fun k : ℕ ↦ ¬ Avoids ps (h + k * c)) = range N :=
    filter_true_of_mem fun k hk hk' ↦ hnone ⟨k, mem_range.mp hk, hk'⟩
  have hcard := card_not_avoids_le hps hc h N
  rw [hall, card_range] at hcard
  exact absurd hcard (not_le.mpr hN)

end Bound

end Fussion
