import Mathlib.Data.ZMod.Basic
import Mathlib.Data.Int.GCD
import Mathlib.FieldTheory.Finite.Basic
import Mathlib.NumberTheory.LucasPrimality
import Mathlib.Data.List.Prime

/-!
# Canonical residues of big-integer arithmetic

A program that computes modulo `m` with signed big integers holds representatives, not
residue classes.  `rep x` is the representative of `x : ZMod m` in `[0, m)`, and the lemmas
below say that the truncating remainder, modular powers and modular inverses of integers are
`rep` of the corresponding operation of `ZMod m`.  A whole computation then reads as one
expression of the field.

Also here: square-and-multiply powers (`modPow`), which the kernel can evaluate at 255-bit
exponents, and Lucas's primality test phrased with them.
-/

namespace Fussion

/-! ## Representatives -/

section Rep

variable {m : ℕ}

/-- The representative of a residue class in `[0, m)`, as an integer. -/
def rep (x : ZMod m) : ℤ := x.val

theorem rep_nonneg (x : ZMod m) : 0 ≤ rep x := Int.natCast_nonneg _

theorem rep_pos {x : ZMod m} (hx : x ≠ 0) : 0 < rep x := Int.natCast_pos.mpr (ZMod.val_pos.mpr hx)

@[simp] theorem rep_zero : rep (0 : ZMod m) = 0 := by
  rw [rep, ZMod.val_zero, Nat.cast_zero]

@[simp] theorem toNat_rep (x : ZMod m) : (rep x).toNat = x.val := rfl

/-- The truncating remainder does not change the residue class, whatever the signs. -/
@[simp] theorem cast_tmod (a : ℤ) : ((a.tmod m : ℤ) : ZMod m) = a := by
  rw [Int.tmod_def]
  simp

variable [NeZero m]

theorem rep_lt (x : ZMod m) : rep x < m := Int.ofNat_lt.mpr x.val_lt

@[simp] theorem cast_rep (x : ZMod m) : ((rep x : ℤ) : ZMod m) = x := by
  rw [rep, Int.cast_natCast, ZMod.natCast_zmod_val]

/-- An integer in `[0, m)` represents its own class. -/
theorem rep_intCast_of_lt {a : ℤ} (h₀ : 0 ≤ a) (h₁ : a < m) : rep (a : ZMod m) = a := by
  rw [rep, ZMod.val_intCast, Int.emod_eq_of_lt h₀ h₁]

theorem rep_injective : Function.Injective (rep (m := m)) := by
  intro x y h
  rw [← cast_rep x, h, cast_rep]

/-- The truncating remainder of a nonnegative integer is the representative. -/
theorem tmod_eq_rep {a : ℤ} (h : 0 ≤ a) : a.tmod m = rep (a : ZMod m) := by
  have hm : (0 : ℤ) < m := Int.natCast_pos.mpr (Nat.pos_of_neZero m)
  rw [← cast_tmod a, rep_intCast_of_lt (Int.tmod_nonneg _ h) (Int.tmod_lt_of_pos _ hm)]

/-- The Euclidean remainder is the representative, whatever the sign. -/
theorem emod_eq_rep (a : ℤ) : a % m = rep (a : ZMod m) := by
  rw [rep, ZMod.val_intCast]

theorem rep_mul_rep_tmod (x y : ZMod m) : (rep x * rep y).tmod m = rep (x * y) := by
  rw [tmod_eq_rep (mul_nonneg (rep_nonneg x) (rep_nonneg y))]
  simp

end Rep

/-! ## Representatives with a sign -/

section SignedRep

variable {m : ℕ}

/-- The representative of a residue class in `(-m, 0]` or in `[0, m)`. -/
def signedRep (neg : Bool) (x : ZMod m) : ℤ := if neg then -rep (-x) else rep x

@[simp] theorem signedRep_false (x : ZMod m) : signedRep false x = rep x := rfl

@[simp] theorem signedRep_true (x : ZMod m) : signedRep true x = -rep (-x) := rfl

variable [NeZero m]

@[simp] theorem cast_signedRep (neg : Bool) (x : ZMod m) :
    ((signedRep neg x : ℤ) : ZMod m) = x := by
  cases neg with
  | false => exact cast_rep x
  | true => rw [signedRep_true, Int.cast_neg, cast_rep, neg_neg]

/-- The truncating remainder is the representative with the sign of the dividend. -/
theorem tmod_eq_signedRep (a : ℤ) : a.tmod m = signedRep (decide (a < 0)) (a : ZMod m) := by
  by_cases h : a < 0
  · rw [decide_eq_true h, signedRep_true, ← Int.cast_neg, ← tmod_eq_rep (by omega), Int.neg_tmod,
      neg_neg]
  · rw [decide_eq_false h, signedRep_false, tmod_eq_rep (by omega)]

/-- A nonnegative factor keeps the sign. -/
theorem signedRep_mul_rep_tmod (neg : Bool) (x y : ZMod m) :
    (signedRep neg x * rep y).tmod m = signedRep neg (x * y) := by
  cases neg with
  | false => exact rep_mul_rep_tmod x y
  | true => rw [signedRep_true, signedRep_true, neg_mul, Int.neg_tmod, rep_mul_rep_tmod, neg_mul]

end SignedRep

/-! ## Products that are reduced after every factor -/

/-- The product of a list, with the truncating remainder taken after every factor. -/
def remProd (q : ℤ) (l : List ℤ) : ℤ := l.foldl (fun a x ↦ (a * x).tmod q) 1

/-- A remainder that is taken early does not change the remainder of the product, sign
included. -/
theorem tmod_mul_tmod (a b q : ℤ) : (a.tmod q * b).tmod q = (a * b).tmod q := by
  rw [Int.mul_tmod, Int.tmod_tmod, ← Int.mul_tmod]

/-- The order of the factors does not matter. -/
theorem remProd_perm {q : ℤ} {l l' : List ℤ} (h : l.Perm l') : remProd q l = remProd q l' := by
  refine h.foldl_eq' (fun x _ y _ a ↦ ?_) 1
  rw [tmod_mul_tmod, tmod_mul_tmod, mul_right_comm]

/-- Modulo more than one the remainder of the whole product is computed. -/
theorem remProd_eq_tmod {q : ℤ} (hq : 1 < q) (l : List ℤ) : remProd q l = l.prod.tmod q := by
  induction l using List.reverseRecOn with
  | nil => exact (Int.tmod_eq_of_lt zero_le_one hq).symm
  | append_singleton l x ih =>
      rw [remProd, List.foldl_append, List.foldl_cons, List.foldl_nil, ← remProd, ih,
        tmod_mul_tmod, List.prod_append, List.prod_singleton]

/-! ## Powers -/

/-- `a ^ n % m` by square-and-multiply on the `k` low bits of `n`. -/
def modPowBits (m a : ℕ) : ℕ → ℕ → ℕ
  | 0, _ => 1 % m
  | k + 1, n =>
    let r := modPowBits m a k (n / 2)
    r * r % m * a ^ (n % 2) % m

/-- `a ^ n % m`. -/
def modPow (m a n : ℕ) : ℕ := modPowBits m a (n.log2 + 1) n

theorem modPowBits_eq (m a k n : ℕ) (h : n < 2 ^ k) : modPowBits m a k n = a ^ n % m := by
  induction k generalizing n with
  | zero =>
      obtain rfl : n = 0 := by simpa using h
      rfl
  | succ k ih =>
      have hn : n / 2 < 2 ^ k := by rw [pow_succ] at h; omega
      -- `n = n/2 + n/2 + n%2`, and the remainders can be taken at the end.
      have hsplit : a ^ n = a ^ (n / 2) * a ^ (n / 2) * a ^ (n % 2) := by
        rw [← pow_add, ← pow_add]
        congr 1
        omega
      simp only [modPowBits]
      rw [ih _ hn, hsplit, ← Nat.mul_mod, Nat.mod_mul_mod]

theorem modPow_eq (m a n : ℕ) : modPow m a n = a ^ n % m :=
  modPowBits_eq m a _ n Nat.lt_log2_self

/-- A power modulo `m` of any integer is the representative of the power of its class. -/
theorem modPow_emod_eq_rep {m : ℕ} [NeZero m] (a : ℤ) (n : ℕ) :
    (modPow m (a % m).toNat n : ℤ) = rep ((a : ZMod m) ^ n) := by
  have ha : ((a % m).toNat : ZMod m) = (a : ZMod m) := by
    rw [emod_eq_rep, toNat_rep, ZMod.natCast_zmod_val]
  rw [modPow_eq, rep, ← ha, ← Nat.cast_pow, ZMod.val_natCast]

/-- **Fermat**: exponents of a nonzero residue count modulo `p - 1`. -/
theorem pow_eq_pow_of_modEq {p : ℕ} [Fact p.Prime] {x : ZMod p} (hx : x ≠ 0) {a b : ℕ}
    (h : a ≡ b [MOD p - 1]) : x ^ a = x ^ b := by
  have hord : a ≡ b [MOD orderOf x] :=
    h.of_dvd (orderOf_dvd_of_pow_eq_one (ZMod.pow_card_sub_one_eq_one hx))
  rw [← pow_mod_orderOf, show a % orderOf x = b % orderOf x from hord, pow_mod_orderOf]

section CoprimePower

variable {p k : ℕ} [Fact p.Prime] (hk : k.Coprime (p - 1)) {x y : ZMod p}
include hk

theorem coprime_card_units : (Nat.card (ZMod p)ˣ).Coprime k := by
  rw [Nat.card_units, Nat.card_zmod]
  exact hk.symm

/-- A power prime to `p - 1` tells the nonzero residues apart. -/
theorem eq_of_pow_eq_pow (hx : x ≠ 0) (hy : y ≠ 0) (h : x ^ k = y ^ k) : x = y := by
  have hunits : Units.mk0 x hx ^ k = Units.mk0 y hy ^ k := Units.ext h
  exact congrArg Units.val ((powCoprime (coprime_card_units hk)).injective hunits)

/-- A power prime to `p - 1` reaches every nonzero residue. -/
theorem exists_pow_eq (hx : x ≠ 0) : ∃ y : ZMod p, y ≠ 0 ∧ y ^ k = x := by
  obtain ⟨u, hu⟩ := (powCoprime (coprime_card_units hk)).surjective (Units.mk0 x hx)
  exact ⟨u, u.ne_zero, congrArg Units.val hu⟩

end CoprimePower

/-- A prime that divides a product of prime powers is one of the primes. -/
theorem mem_of_prime_dvd_prod {factors : List (ℕ × ℕ)} (hprime : ∀ f ∈ factors, f.1.Prime)
    {r : ℕ} (hr : r.Prime) (h : r ∣ (factors.map fun f ↦ f.1 ^ f.2).prod) :
    r ∈ factors.map Prod.fst := by
  obtain ⟨x, hx, hrx⟩ := (Prime.dvd_prod_iff hr.prime).mp h
  obtain ⟨f, hf, rfl⟩ := List.mem_map.mp hx
  have hrf : r = f.1 :=
    (Nat.prime_dvd_prime_iff_eq hr (hprime f hf)).mp (hr.dvd_of_dvd_pow hrx)
  exact hrf ▸ List.mem_map_of_mem hf

/-- Lucas's test, with the powers computed by `modPow` and the primes dividing `p - 1` given
by a list that multiplies up to it. -/
theorem prime_of_modPow {p a : ℕ} (hp : 2 ≤ p) (factors : List (ℕ × ℕ))
    (hprime : ∀ f ∈ factors, f.1.Prime) (hprod : (factors.map fun f ↦ f.1 ^ f.2).prod = p - 1)
    (hone : modPow p a (p - 1) = 1) (hne : ∀ f ∈ factors, modPow p a ((p - 1) / f.1) ≠ 1) :
    p.Prime := by
  have key : ∀ n, (a : ZMod p) ^ n = 1 ↔ modPow p a n = 1 := by
    intro n
    rw [modPow_eq, ← Nat.cast_pow, ← Nat.cast_one, ZMod.natCast_eq_natCast_iff',
      Nat.mod_eq_of_lt hp]
  refine lucas_primality p a ((key _).mpr hone) ?_
  intro r hr hdvd
  rw [← hprod] at hdvd
  obtain ⟨f, hf, rfl⟩ := List.mem_map.mp (mem_of_prime_dvd_prod hprime hr hdvd)
  rw [Ne, key]
  exact hne f hf

/-! ## Inverses -/

/-- The inverse of `a` modulo `m` in `[0, m)`; `0` when there is none. -/
def modInv (a m : ℤ) : ℤ := if a.gcd m = 1 then Int.gcdA a m % m else 0

/-- Modulo a prime, having an inverse is being nonzero. -/
theorem gcd_eq_one_iff {p : ℕ} [Fact p.Prime] (a : ℤ) : a.gcd p = 1 ↔ (a : ZMod p) ≠ 0 := by
  have hp : p.Prime := Fact.out
  rw [Ne, ZMod.intCast_zmod_eq_zero_iff_dvd, Int.natCast_dvd, ← hp.coprime_iff_not_dvd,
    Nat.coprime_comm]
  rfl

/-- Modulo a prime the representative of the inverse is `modInv`, at `0` included. -/
theorem modInv_eq_rep {p : ℕ} [Fact p.Prime] (a : ℤ) : modInv a p = rep ((a : ZMod p)⁻¹) := by
  by_cases ha : (a : ZMod p) = 0
  · rw [modInv, if_neg (fun h ↦ (gcd_eq_one_iff a).mp h ha), ha, inv_zero, rep_zero]
  · have hgcd : a.gcd p = 1 := (gcd_eq_one_iff a).mpr ha
    rw [modInv, if_pos hgcd, emod_eq_rep]
    congr 1
    -- Bézout's identity in `ZMod p`.
    refine eq_inv_of_mul_eq_one_right ?_
    have h := congrArg (Int.cast (R := ZMod p)) (Int.gcd_eq_gcd_ab a p)
    rw [hgcd] at h
    push_cast at h
    rw [h, ZMod.natCast_self, zero_mul, add_zero]

/-- Where the inverse exists it lies in `[0, m)` and is one. -/
theorem modInv_spec {a m : ℤ} (hm : 0 < m) (h : a.gcd m = 1) :
    0 ≤ modInv a m ∧ modInv a m < m ∧ a * modInv a m ≡ 1 [ZMOD m] := by
  rw [modInv, if_pos h]
  refine ⟨Int.emod_nonneg _ hm.ne', Int.emod_lt_of_pos _ hm, ?_⟩
  have hb := Int.gcd_eq_gcd_ab a m
  rw [h] at hb
  calc a * (Int.gcdA a m % m) ≡ a * Int.gcdA a m [ZMOD m] := (Int.mod_modEq _ _).mul_left a
    _ ≡ a * Int.gcdA a m + m * Int.gcdB a m [ZMOD m] := by
        exact (Int.modEq_iff_dvd.mpr ⟨Int.gcdB a m, by ring⟩)
    _ = 1 := by rw [← hb]; rfl

/-- There is no other inverse in `[0, m)`. -/
theorem eq_modInv {a m r : ℤ} (h₀ : 0 ≤ r) (h₁ : r < m) (h : a.gcd m = 1)
    (hr : a * r ≡ 1 [ZMOD m]) : r = modInv a m := by
  obtain ⟨hinv₀, hinv₁, hinv⟩ := modInv_spec (h₀.trans_lt h₁) h
  have hmod : r ≡ modInv a m [ZMOD m] :=
    calc r = 1 * r := (one_mul r).symm
      _ ≡ a * modInv a m * r [ZMOD m] := hinv.symm.mul_right r
      _ = modInv a m * (a * r) := by ring
      _ ≡ modInv a m * 1 [ZMOD m] := hr.mul_left _
      _ = modInv a m := mul_one _
  rw [Int.ModEq, Int.emod_eq_of_lt h₀ h₁, Int.emod_eq_of_lt hinv₀ hinv₁] at hmod
  exact hmod

/-- Dividing by `a` and multiplying by it again. -/
theorem mul_modInv_mul_modEq {a m : ℤ} (hm : 0 < m) (h : a.gcd m = 1) (b : ℤ) :
    b * modInv a m * a ≡ b [ZMOD m] := by
  obtain ⟨-, -, hinv⟩ := modInv_spec hm h
  calc b * modInv a m * a = b * (a * modInv a m) := by ring
    _ ≡ b * 1 [ZMOD m] := hinv.mul_left b
    _ = b := mul_one b

end Fussion
