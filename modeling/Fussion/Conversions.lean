import Fussion.BrpcTools

/-!
# The conversions between numbers

`mpz_to_BIG` fills the hexadecimal text of a number up to 64 digits and reads 32 bytes from it;
`BIG_to_mpz` writes 48 bytes as 96 digits and reads the number back; `str_to_BIG` fills a text up
to 96 digits and reads 48 bytes.  The widths decide what survives, and for each round trip the
range is given exactly:

| round trip | kept |
|---|---|
| `BIG_to_mpz` after `mpz_to_BIG` | `0 ≤ v < 2 ^ 256` |
| `mpz_to_BIG` after `BIG_to_mpz` | `x < 2 ^ 256` |
| `str_to_BIG` after `mpz_to_str` after `BIG_to_mpz` | `x < 2 ^ 384` |

The coordinates of a point have 381 bits, so that only the last one may carry them; scalars are at
most the order and may take any of the three.

## Signs

A `BIG` has no sign, and the byte loop of `mpz_to_BIG` does not look for one.  A minus sign that
begins a pair of characters negates that byte modulo 256 (`mpzToBIG_neg_of_odd`), and from 64 digits
on it displaces the last digit (`mpzToBIG_neg_div`).
-/

namespace Fussion

/-! ## Exact ranges -/

/-- What `mpz_to_BIG` and back keeps. -/
theorem bigToMpz_mpzToBIG_iff (v : ℤ) : bigToMpz (mpzToBIG v) = v ↔ 0 ≤ v ∧ v < 2 ^ 256 := by
  have hlt := mpzToBIG_lt v
  rw [bigToMpz_of_lt (hlt.trans (two_pow_lt_big (by norm_num)))]
  constructor
  · intro h
    omega
  · rintro ⟨h₀, h₁⟩
    lift v to ℕ using h₀
    rw [mpzToBIG_of_lt (by exact_mod_cast h₁)]

/-- What `BIG_to_mpz` and back keeps. -/
theorem mpzToBIG_bigToMpz_iff (x : ℕ) : mpzToBIG (bigToMpz x) = x ↔ x < 2 ^ 256 := by
  constructor
  · intro h
    rw [← h]
    exact mpzToBIG_lt _
  · intro h
    rw [bigToMpz_of_lt (h.trans (two_pow_lt_big (by norm_num))), mpzToBIG_of_lt h]

/-- What the text of a `BIG` keeps. -/
theorem strToBIG_mpzToStr_bigToMpz_iff (x : ℕ) :
    strToBIG (mpzToStr (bigToMpz x)) = pure x ↔ x < 2 ^ 384 := by
  rw [strToBIG_mpzToStr_bigToMpz, Run.pure_inj, Nat.mod_eq_iff_lt (by norm_num)]

/-! ## Signs -/

/-- A text is read piece by piece, so that it may be cut in front of a piece. -/
theorem strtolBytes_append {k : ℕ} {s : Str} (hs : s.length = 2 * k) (l : ℕ) (r : Str) :
    strtolBytes (k + l) (s ++ r) = strtolBytes k s ++ strtolBytes l r := by
  rw [strtolBytes, List.range_add, List.map_append, List.map_map]
  refine congrArg₂ (· ++ ·) (List.map_congr_left fun i hi ↦ ?_) (List.map_congr_left fun i _ ↦ ?_)
  · have hi : i < k := List.mem_range.mp hi
    have hpiece : 2 ≤ (s.drop (2 * i)).length := by rw [List.length_drop]; omega
    rw [List.drop_append_of_le_length (by omega), List.take_append_of_le_length hpiece]
  · rw [Function.comp_apply, Nat.mul_add, ← hs, List.drop_length_add_append]

theorem bigFromBytes_append (xs ys : List UInt8) :
    bigFromBytes (xs ++ ys) = bigFromBytes xs * 256 ^ ys.length + bigFromBytes ys := by
  rw [bigFromBytes, List.map_append, value_append, List.length_map, bigFromBytes, bigFromBytes]

/-- One pair of arbitrary characters between zeros and digits. -/
theorem bigFromBytes_strtolBytes_pair (k : ℕ) {l : ℕ} (c₁ c₂ : Char) {ds : List ℕ}
    (h : ∀ d ∈ ds, d < 16) (hlen : ds.length = 2 * l) :
    bigFromBytes (strtolBytes (k + (1 + l))
      (List.replicate (2 * k) '0' ++ ([c₁, c₂] ++ ds.map Nat.digitChar))) =
        (strtol16 [c₁, c₂] % 256).toNat * 256 ^ l + value 16 ds := by
  have hzeros : bigFromBytes (strtolBytes k (List.replicate (2 * k) '0')) = 0 := by
    have hmap : List.replicate (2 * k) '0' = (List.replicate (2 * k) 0).map Nat.digitChar := by
      rw [List.map_replicate]
      rfl
    have hvalue := value_replicate_zero_append 16 (2 * k) []
    rw [List.append_nil, value_nil] at hvalue
    rw [hmap, bigFromBytes_strtolBytes (by simp) (by simp), List.take_of_length_le (by simp),
      hvalue]
  have hpair : bigFromBytes (strtolBytes 1 [c₁, c₂]) = (strtol16 [c₁, c₂] % 256).toNat := by
    refine (value_singleton 256 _).trans (toNat_ofNat_of_lt ?_)
    change (strtol16 [c₁, c₂] % 256).toNat < 256
    omega
  have hdigits : bigFromBytes (strtolBytes l (ds.map Nat.digitChar)) = value 16 ds := by
    rw [bigFromBytes_strtolBytes h hlen.ge, List.take_of_length_le hlen.le]
  rw [strtolBytes_append (by simp), strtolBytes_append rfl, bigFromBytes_append,
    bigFromBytes_append, hzeros, hpair, hdigits, length_strtolBytes]
  omega

theorem padLeft_getStr_neg {n : ℕ} (h : n ≠ 0) :
    padLeft 64 (getStr 16 (-n)) = List.replicate (63 - (numeral 16 n).length) '0' ++
      '-' :: (numeral 16 n).map Nat.digitChar := by
  rw [getStr_neg 16 h, padLeft, List.length_cons, List.length_map]
  congr 2
  omega

/-- **A sign that begins a pair negates its byte.**  So it is for a negative number with an odd
number `2 * l + 1` of digits. -/
theorem mpzToBIG_neg_of_odd {l n : ℕ} (hl : l ≤ 31) (h₀ : 256 ^ l ≤ n) (h₁ : n < 16 * 256 ^ l) :
    mpzToBIG (-n) = (256 - n / 256 ^ l) * 256 ^ l + n % 256 ^ l := by
  have hpos : 0 < 256 ^ l := by positivity
  have hlen : (numeral 16 n).length = 2 * l + 1 := by
    refine length_numeral_eq (by norm_num) ?_ ?_
    · rwa [pow_mul]
    · rwa [pow_succ', pow_mul]
  obtain ⟨d, ds, hds, hd⟩ := numeral_head_ne_zero (b := 16) (n := n) (by omega)
  have hlt : ∀ e ∈ d :: ds, e < 16 := fun e he ↦ numeral_lt (by norm_num) (hds ▸ he)
  have hlen_ds : ds.length = 2 * l := by rw [hds, List.length_cons] at hlen; omega
  have htext : padLeft 64 (getStr 16 (-n)) = List.replicate (2 * (31 - l)) '0' ++
      (['-', Nat.digitChar d] ++ ds.map Nat.digitChar) := by
    rw [padLeft_getStr_neg (by omega), hlen, show 63 - (2 * l + 1) = 2 * (31 - l) by omega, hds]
    rfl
  have hcount : 32 = (31 - l) + (1 + l) := by omega
  have hbyte : (strtol16 ['-', Nat.digitChar d] % 256).toNat = 256 - d := by
    have hd16 := hlt d List.mem_cons_self
    interval_cases d <;> first | exact absurd rfl hd | rfl
  -- The leading digit and the rest are the quotient and the remainder by `256 ^ l`.
  have hrest : value 16 ds < 256 ^ l := by
    have := value_lt (by norm_num) fun e he ↦ hlt e (List.mem_cons_of_mem d he)
    rwa [hlen_ds, pow_mul] at this
  have hn : n = value 16 ds + 256 ^ l * d := by
    have := value_numeral 16 n
    rw [hds, value_cons, hlen_ds, pow_mul] at this
    rw [← this, Nat.mul_comm, Nat.add_comm]
    rfl
  rw [mpzToBIG_eq_strtolBytes, htext, hcount, bigFromBytes_strtolBytes_pair _ _ _
    (fun e he ↦ hlt e (List.mem_cons_of_mem d he)) hlen_ds, hbyte, hn,
    Nat.add_mul_div_left _ _ hpos, Nat.div_eq_of_lt hrest, Nat.zero_add, Nat.add_mul_mod_self_left,
    Nat.mod_eq_of_lt hrest]

/-! ## Scalars -/

section Points

variable {P : Type} [AddCommGroup P]

theorem ecpMul_eq_zsmul (p : P) {v : ℤ} (h₀ : 0 ≤ v) (h₁ : v < 2 ^ 256) : ecpMul p v = v • p := by
  rw [ecpMul_eq_nsmul p h₀ h₁, ← natCast_zsmul, Int.toNat_of_nonneg h₀]

end Points

/-- **Conversions lose nothing on the range the scheme uses**: numbers of 256 bits through a `BIG`,
`BIG`s of 48 bytes through their text; and the multiplications by a scalar up to the order are
exact in both groups. -/
theorem conversions_lossless (ECP ECP2 : Type) [AddCommGroup ECP] [AddCommGroup ECP2] :
    (∀ v : ℤ, 0 ≤ v → v < 2 ^ 256 → bigToMpz (mpzToBIG v) = v) ∧
    (∀ x : ℕ, x < 2 ^ 384 → strToBIG (mpzToStr (bigToMpz x)) = pure x) ∧
    ∀ v : ℤ, 0 ≤ v → v ≤ curveOrder →
      (∀ P : ECP, ecpMul P v = v • P) ∧ ∀ P : ECP2, ecpMul P v = v • P := by
  refine ⟨fun v h₀ h₁ ↦ (bigToMpz_mpzToBIG_iff v).mpr ⟨h₀, h₁⟩,
    fun x h ↦ (strToBIG_mpzToStr_bigToMpz_iff x).mpr h, fun v h₀ h₁ ↦ ?_⟩
  have hlt := lt_two_pow_of_le_order h₁
  exact ⟨fun P ↦ ecpMul_eq_zsmul P h₀ hlt, fun P ↦ ecpMul_eq_zsmul P h₀ hlt⟩

/-- `conversions_lossless` at the ends of the ranges, with points as exponents. -/
theorem conversions_lossless_ends :
    bigToMpz (mpzToBIG 0) = 0 ∧ bigToMpz (mpzToBIG (2 ^ 256 - 1)) = 2 ^ 256 - 1 ∧
    strToBIG (mpzToStr (bigToMpz (2 ^ 384 - 1))) = pure (2 ^ 384 - 1) ∧
    ecpMul (1 : ZMod curveOrder) curveOrder = (curveOrder : ℤ) • 1 := by
  obtain ⟨hmpz, hstr, hmul⟩ := conversions_lossless (ZMod curveOrder) (ZMod curveOrder)
  exact ⟨hmpz 0 le_rfl (by norm_num), hmpz _ (by norm_num) (by norm_num), hstr _ (by norm_num),
    (hmul curveOrder (Int.natCast_nonneg _) le_rfl).1 1⟩

end Fussion
