import Fussion.Verify

/-!
# The order of the partial signatures

`Verify` looks at the first `t` entries of its three lists and at nothing behind them, and the
order of these entries does not matter: the loops over the IDs multiply, the last loop adds, and
the truncating remainder can be taken early or late (`remProd_perm`).  Nothing is assumed of the
entries or of the modulus, so this is a property of the loops and not of the field: a signature
with negative IDs or without inverses, which `Verify` gives a meaningless verdict on, keeps it.
-/

namespace Fussion

open Finset

/-! ## Products and sums over reordered counters -/

theorem remProd_map_reorder (q : ℤ) {f : ℕ → ℕ} {l l' : List ℕ} (hl : (l.map f).Perm l')
    {x x' : ℕ → ℤ} (h : ∀ j ∈ l, x' j = x (f j)) : remProd q (l.map x') = remProd q (l'.map x) := by
  have hmap : l.map x' = (l.map f).map x := by
    rw [List.map_map]
    exact List.map_congr_left h
  rw [hmap]
  exact remProd_perm (hl.map x)

section Counters

variable {n : ℕ} {f : ℕ → ℕ} (hf : Set.BijOn f (Set.Iio n) (Set.Iio n))
include hf

theorem map_range_perm : ((List.range n).map f).Perm (List.range n) := by
  have hnodup : ((List.range n).map f).Nodup :=
    List.nodup_range.map_on fun i hi j hj h ↦
      hf.injOn (List.mem_range.mp hi) (List.mem_range.mp hj) h
  refine (List.perm_ext_iff_of_nodup hnodup List.nodup_range).mpr fun j ↦ ?_
  rw [List.mem_map, List.mem_range]
  constructor
  · rintro ⟨i, hi, rfl⟩
    exact hf.mapsTo (List.mem_range.mp hi)
  · intro hj
    obtain ⟨i, hi, rfl⟩ := hf.surjOn hj
    exact ⟨i, List.mem_range.mpr hi, rfl⟩

theorem map_others_perm {i : ℕ} (hi : i < n) : ((others n i).map f).Perm (others n (f i)) := by
  have hnodup : ((others n i).map f).Nodup :=
    (nodup_others n i).map_on fun j hj k hk h ↦
      hf.injOn (mem_others.mp hj).1 (mem_others.mp hk).1 h
  refine (List.perm_ext_iff_of_nodup hnodup (nodup_others n (f i))).mpr fun j ↦ ?_
  rw [List.mem_map, mem_others]
  constructor
  · rintro ⟨k, hk, rfl⟩
    obtain ⟨hkn, hki⟩ := mem_others.mp hk
    exact ⟨hf.mapsTo hkn, fun h ↦ hki (hf.injOn hkn hi h)⟩
  · rintro ⟨hj, hji⟩
    obtain ⟨k, hk, rfl⟩ := hf.surjOn hj
    exact ⟨k, mem_others.mpr ⟨hk, fun h ↦ hji (congrArg f h)⟩, rfl⟩

theorem sum_range_reorder {A : Type*} [AddCommMonoid A] {g g' : ℕ → A}
    (h : ∀ i < n, g' i = g (f i)) : ∑ i ∈ range n, g' i = ∑ i ∈ range n, g i := by
  refine sum_nbij f (fun i hi ↦ ?_) ?_ ?_ fun i hi ↦ h i (mem_range.mp hi)
  · exact mem_range.mpr (hf.mapsTo (mem_range.mp hi))
  · simpa using hf.injOn
  · simpa using hf.surjOn

/-- The coefficient of an ID stays with it. -/
theorem piZero_reorder {x x' : ℕ → ℤ} (h : ∀ j < n, x' j = x (f j)) (q : ℤ) {i : ℕ} (hi : i < n) :
    piZero q x' n i = piZero q x n (f i) := by
  have hprod : remProd q ((List.range n).map x') = remProd q ((List.range n).map x) :=
    remProd_map_reorder q (map_range_perm hf) fun j hj ↦ h j (List.mem_range.mp hj)
  have hden : remProd q ((others n i).map fun j ↦ (x' j - x' i + q).tmod q) =
      remProd q ((others n (f i)).map fun j ↦ (x j - x (f i) + q).tmod q) := by
    refine remProd_map_reorder q (map_others_perm hf hi) fun j hj ↦ ?_
    rw [h j (mem_others.mp hj).1, h i hi]
  rw [piZero, hprod, hden, h i hi, ← piZero]

end Counters

/-! ## Reordered signatures -/

/-- The first `n` entries of `sigma'` are those of `sigma` in the order `p`.  The entries behind
them are free. -/
structure Sigma.Reorders {ECP : Type} (sigma : Sigma ECP) {n : ℕ} (p : Equiv.Perm (Fin n))
    (sigma' : Sigma ECP) : Prop where
  IDs : ∀ i : Fin n, sigma'.IDs[(i : ℕ)]? = sigma.IDs[(p i : ℕ)]?
  aux : ∀ i : Fin n, sigma'.aux[(i : ℕ)]? = sigma.aux[(p i : ℕ)]?
  sig : ∀ i : Fin n, sigma'.sig[(i : ℕ)]? = sigma.sig[(p i : ℕ)]?

section Lists

variable {n : ℕ} (p : Equiv.Perm (Fin n))

/-- The permutation as a function of the loop counter. -/
def reorder (j : ℕ) : ℕ := if h : j < n then p ⟨j, h⟩ else j

theorem reorder_of_lt {j : ℕ} (h : j < n) : reorder p j = p ⟨j, h⟩ := dif_pos h

theorem bijOn_reorder : Set.BijOn (reorder p) (Set.Iio n) (Set.Iio n) := by
  refine ⟨fun j hj ↦ ?_, fun j hj k hk h ↦ ?_, fun j hj ↦ ?_⟩
  · rw [reorder_of_lt p hj]
    exact (p ⟨j, hj⟩).isLt
  · rw [reorder_of_lt p hj, reorder_of_lt p hk] at h
    exact congrArg Fin.val (p.injective (Fin.ext h))
  · refine ⟨p.symm ⟨j, hj⟩, (p.symm ⟨j, hj⟩).isLt, ?_⟩
    rw [reorder_of_lt p (p.symm ⟨j, hj⟩).isLt, Fin.eta, Equiv.apply_symm_apply]

variable {A : Type} {v v' : List A} {p} (h : ∀ i : Fin n, v'[(i : ℕ)]? = v[(p i : ℕ)]?)
include h

theorem getD_reorder (a : A) {j : ℕ} (hj : j < n) : v'.getD j a = v.getD (reorder p j) a := by
  rw [List.getD_eq_getElem?_getD, List.getD_eq_getElem?_getD, reorder_of_lt p hj, ← h ⟨j, hj⟩]

theorem le_length_of_reorder (hlen : n ≤ v.length) : n ≤ v'.length := by
  by_contra hlt
  have hj : v'.length < n := by omega
  have hnone : v'[v'.length]? = none := List.getElem?_eq_none le_rfl
  rw [h ⟨v'.length, hj⟩] at hnone
  have := List.getElem?_eq_none_iff.mp hnone
  have := (p ⟨v'.length, hj⟩).isLt
  omega

end Lists

namespace Miracl

variable {ECP ECP2 FP12 : Type} [AddCommGroup ECP] [AddCommGroup ECP2] [CommGroup FP12]
variable {sigma sigma' : Sigma ECP}

omit [AddCommGroup ECP] in
/-- The scalar of a signature stays with it. -/
theorem scalar_reorder {n : ℕ} {p : Equiv.Perm (Fin n)} (hp : sigma.Reorders p sigma') (q : ℤ)
    (h : ℕ) {i : ℕ} (hi : i < n) :
    scalar q sigma' h n i = scalar q sigma h n (reorder p i) := by
  have hpi : piZero q (sigma'.IDs.getD · 0) n i =
      piZero q (sigma.IDs.getD · 0) n (reorder p i) :=
    piZero_reorder (bijOn_reorder p) (fun j hj ↦ getD_reorder hp.IDs 0 hj) q hi
  rw [scalar, hpi, getD_reorder hp.aux 0 hi, ← scalar]

omit [AddCommGroup ECP2] in
/-- With the modulus zero the first remainder traps. -/
theorem getPi0_eq_fault {pp : Params ECP2} (hq : pp.q = 0) {ID : List ℤ} {t : Int32}
    (ht : 1 ≤ count t) (hlen : count t ≤ ID.length) :
    getPi0 pp ID t = Run.fault .divideByZero := by
  have hfault : ∀ s : ℤ, (do remMpz (s * (← subscript ID (0 : ℕ))) pp.q) =
      (Run.fault .divideByZero : Exec ℤ) := by
    intro s
    rw [subscript_of_lt (by omega) 0, pure_bind, remMpz, if_pos hq]
  rw [getPi0, Run.upTo_eq_fault (k := 0) (by omega) (fun i hi ↦ absurd hi i.not_lt_zero) hfault,
    Run.fault_bind]

/-- **`Verify` does not depend on the order of the first `t` entries or on what stands behind
them**: the verdict is the same, and so is the way in which a call ends that has none. -/
theorem verify_reorder [DecidableEq FP12] (M : Miracl ECP ECP2 FP12) (pp : Params ECP2)
    (sk_v msg : ℤ) (t : Int32) (ht : 2 ≤ t.toInt) (sigma sigma' : Sigma ECP)
    (hIDs : t.toInt ≤ sigma.IDs.length) (haux : t.toInt ≤ sigma.aux.length)
    (hsig : t.toInt ≤ sigma.sig.length) (p : Equiv.Perm (Fin (count t)))
    (hp : sigma.Reorders p sigma') :
    (M.verify sigma' sk_v pp msg t).out = (M.verify sigma sk_v pp msg t).out := by
  have hcount : (count t : ℤ) = t.toInt := cast_count (by omega)
  have hIDs : count t ≤ sigma.IDs.length := by omega
  have haux : count t ≤ sigma.aux.length := by omega
  have hsig : count t ≤ sigma.sig.length := by omega
  have hIDs' := le_length_of_reorder hp.IDs hIDs
  by_cases hq : pp.q = 0
  · rw [verify, verify, getPi0_eq_fault hq (by omega) hIDs, getPi0_eq_fault hq (by omega) hIDs']
    rfl
  by_cases hok : ∃ h, (M.verifyHash pp sk_v).out = .ok h
  · obtain ⟨h, hhash⟩ := hok
    obtain ⟨h, rfl, -⟩ := M.verifyHash_of_ok hhash
    have hsum : ∑ i ∈ range (count t),
          ecpMul (sigma'.sig.getD i 0) (scalar pp.q sigma' h (count t) i) =
        ∑ i ∈ range (count t),
          ecpMul (sigma.sig.getD i 0) (scalar pp.q sigma h (count t) i) := by
      refine sum_range_reorder (bijOn_reorder p)
        (g := fun i ↦ ecpMul (sigma.sig.getD i 0) (scalar pp.q sigma h (count t) i)) fun i hi ↦ ?_
      rw [getD_reorder hp.sig 0 hi, scalar_reorder hp pp.q h hi]
    rw [M.out_verify hq (by omega) hIDs haux hsig hhash, M.out_verify hq (by omega) hIDs'
      (le_length_of_reorder hp.aux haux) (le_length_of_reorder hp.sig hsig) hhash, hsum]
  · -- The coefficients are computed in front of the hash, and that loop returns.
    rw [verify, verify, getPi0_eq_piZero hq hIDs, getPi0_eq_piZero hq hIDs']
    exact Run.out_bind_congr fun h hhash ↦ absurd ⟨h, hhash⟩ hok

end Miracl

/-- `verify_reorder` on two signatures that change places, with a third one added. -/
theorem verify_reorder_exponents :
    let pp : Params Zq :=
      { n := 2, tm := 2, q := curveOrder, P2 := 1, g := 1, beta := 1, PK := [1] }
    let sigma : Sigma Zq := { aux := [1, 3], sig := [5, 6], IDs := [1, 2] }
    let sigma' : Sigma Zq := { aux := [3, 1], sig := [6, 5, 7], IDs := [2, 1, -4] }
    (exponents.verify sigma' 1 pp 5 2).out = (exponents.verify sigma 1 pp 5 2).out := by
  intro pp sigma sigma'
  refine exponents.verify_reorder pp 1 5 2 (by decide) sigma sigma' (by decide) (by decide)
    (by decide) Fin.revPerm ⟨?_, ?_, ?_⟩
  all_goals
    rintro ⟨i, hi⟩
    have hi : i < 2 := hi
    interval_cases i <;> rfl

end Fussion
