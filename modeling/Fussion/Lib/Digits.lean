import Mathlib.Data.Nat.Digits.Lemmas
import Mathlib.Tactic.IntervalCases
import Mathlib.Tactic.Ring

/-!
# Big-endian digit lists and their characters

Numbers as they are printed: most significant digit first.  `value b ds` is the number a digit
list stands for, `numeral b n` the shortest list for `n` (one digit for `0`), and
`fixed b k n` the list of exactly `k` digits, which keeps `n` modulo `b ^ k`.  `pairUp` cuts a
digit list into pairs, which turns hexadecimal digits into bytes.

`digitVal` reads one character as a digit in the way of the table `digit_value` of GMP:
decimal digits, then letters of either case, and a value no base reaches for anything else.
-/

namespace Fussion

open Nat (ofDigits digits)

/-! ## The value of a digit list -/

/-- The number written by `ds` in base `b`, most significant digit first. -/
def value (b : ℕ) (ds : List ℕ) : ℕ := ofDigits b ds.reverse

@[simp] theorem value_nil (b : ℕ) : value b [] = 0 := rfl

@[simp] theorem value_singleton (b d : ℕ) : value b [d] = d := by
  simp [value]

/-- Writing one list after another shifts the first. -/
theorem value_append (b : ℕ) (xs ys : List ℕ) :
    value b (xs ++ ys) = value b xs * b ^ ys.length + value b ys := by
  rw [value, List.reverse_append, Nat.ofDigits_append, List.length_reverse, value, value]
  ring

theorem value_cons (b d : ℕ) (ds : List ℕ) :
    value b (d :: ds) = d * b ^ ds.length + value b ds := by
  rw [← List.singleton_append, value_append, value_singleton]

/-- Leading zeros do not count. -/
theorem value_replicate_zero_append (b k : ℕ) (ds : List ℕ) :
    value b (List.replicate k 0 ++ ds) = value b ds := by
  rw [value_append]
  have h : value b (List.replicate k 0) = 0 := by
    rw [value, List.reverse_replicate, Nat.ofDigits_replicate_zero]
  rw [h, Nat.zero_mul, Nat.zero_add]

theorem lt_of_mem_padded {b : ℕ} (hb : 0 < b) {ds : List ℕ} (h : ∀ d ∈ ds, d < b) (k : ℕ) :
    ∀ d ∈ List.replicate k 0 ++ ds, d < b := by
  intro d hd
  rcases List.mem_append.mp hd with hd | hd
  · rwa [List.eq_of_mem_replicate hd]
  · exact h d hd

theorem value_lt {b : ℕ} (hb : 1 < b) {ds : List ℕ} (h : ∀ d ∈ ds, d < b) :
    value b ds < b ^ ds.length := by
  rw [value, ← List.length_reverse]
  exact Nat.ofDigits_lt_base_pow_length hb fun d hd ↦ h d (List.mem_reverse.mp hd)

/-- Digit lists of one length are equal when their values are. -/
theorem eq_of_value_eq {b : ℕ} (hb : 1 < b) {xs ys : List ℕ} (hlen : xs.length = ys.length)
    (hx : ∀ d ∈ xs, d < b) (hy : ∀ d ∈ ys, d < b) (h : value b xs = value b ys) : xs = ys := by
  refine List.reverse_injective (Nat.ofDigits_inj_of_len_eq hb (by simpa using hlen) ?_ ?_ h)
  · exact fun d hd ↦ hx d (List.mem_reverse.mp hd)
  · exact fun d hd ↦ hy d (List.mem_reverse.mp hd)

/-- The leading `k` digits are the quotient by the weight of the rest. -/
theorem value_take {b : ℕ} (hb : 1 < b) {ds : List ℕ} (h : ∀ d ∈ ds, d < b) (k : ℕ) :
    value b (ds.take k) = value b ds / b ^ (ds.length - k) := by
  have hlt : value b (ds.drop k) < b ^ (ds.length - k) := by
    rw [← List.length_drop]
    exact value_lt hb fun d hd ↦ h d (List.mem_of_mem_drop hd)
  have hsplit : value b ds = value b (ds.take k) * b ^ (ds.length - k) + value b (ds.drop k) := by
    rw [← List.length_drop, ← value_append, List.take_append_drop]
  rw [hsplit, Nat.mul_comm, Nat.mul_add_div (pow_pos (by omega) _), Nat.div_eq_of_lt hlt,
    Nat.add_zero]

/-! ## Shortest numerals -/

/-- The digits of `n` without leading zeros; `0` has the one digit `0`. -/
def numeral (b n : ℕ) : List ℕ := if n = 0 then [0] else (digits b n).reverse

@[simp] theorem value_numeral (b n : ℕ) : value b (numeral b n) = n := by
  rw [numeral]
  split_ifs with h
  · rw [h, value_singleton]
  · rw [value, List.reverse_reverse, Nat.ofDigits_digits]

theorem numeral_lt {b : ℕ} (hb : 1 < b) {n d : ℕ} (hd : d ∈ numeral b n) : d < b := by
  rw [numeral] at hd
  split_ifs at hd with h
  · rw [List.mem_singleton.mp hd]; omega
  · exact Nat.digits_lt_base hb (List.mem_reverse.mp hd)

theorem numeral_ne_nil (b n : ℕ) : numeral b n ≠ [] := by
  rw [numeral]
  split_ifs with h
  · exact List.cons_ne_nil _ _
  · rw [Ne, List.reverse_eq_nil_iff, Nat.digits_eq_nil_iff_eq_zero]
    exact h

/-- The first digit of a nonzero number is nonzero. -/
theorem numeral_head_ne_zero {b n : ℕ} (hn : n ≠ 0) :
    ∃ d ds, numeral b n = d :: ds ∧ d ≠ 0 := by
  have hne : digits b n ≠ [] := Nat.digits_ne_nil_iff_ne_zero.mpr hn
  refine ⟨(digits b n).getLast hne, (digits b n).dropLast.reverse, ?_,
    Nat.getLast_digit_ne_zero b hn⟩
  rw [numeral, if_neg hn, ← List.reverse_concat, List.dropLast_append_getLast]

/-- The last digit of a numeral of more than one. -/
theorem numeral_of_le {b n : ℕ} (hb : 1 < b) (h : b ≤ n) :
    numeral b n = numeral b (n / b) ++ [n % b] := by
  have hdiv : n / b ≠ 0 := (Nat.div_pos h (zero_lt_one.trans hb)).ne'
  rw [numeral, numeral, if_neg (by omega), if_neg hdiv, Nat.digits_def' hb (by omega),
    List.reverse_cons]

/-- A number below `b ^ k` has at most `k` digits, and conversely. -/
theorem length_numeral_le_iff {b : ℕ} (hb : 1 < b) {k : ℕ} (hk : k ≠ 0) (n : ℕ) :
    (numeral b n).length ≤ k ↔ n < b ^ k := by
  rw [numeral]
  split_ifs with h
  · subst h
    exact iff_of_true (by simpa using Nat.one_le_iff_ne_zero.mpr hk) (pow_pos (by omega) k)
  · rw [List.length_reverse, Nat.digits_length_le_iff hb]

theorem length_numeral {b : ℕ} (hb : 1 < b) (n : ℕ) : (numeral b n).length = Nat.log b n + 1 := by
  rw [numeral]
  split_ifs with h
  · rw [h, Nat.log_zero_right, List.length_singleton]
  · rw [List.length_reverse, Nat.length_digits b n hb h]

theorem length_numeral_eq {b k n : ℕ} (hb : 1 < b) (h₀ : b ^ k ≤ n) (h₁ : n < b ^ (k + 1)) :
    (numeral b n).length = k + 1 := by
  rw [length_numeral hb, Nat.log_eq_of_pow_le_of_lt_pow h₀ h₁]

/-! ## Numerals of fixed length -/

/-- The `k` low digits of `n`. -/
def fixed (b : ℕ) : ℕ → ℕ → List ℕ
  | 0, _ => []
  | k + 1, n => fixed b k (n / b) ++ [n % b]

@[simp] theorem length_fixed (b k n : ℕ) : (fixed b k n).length = k := by
  induction k generalizing n with
  | zero => rfl
  | succ k ih => rw [fixed, List.length_append, ih, List.length_singleton]

theorem fixed_lt {b : ℕ} (hb : 0 < b) {k n d : ℕ} (hd : d ∈ fixed b k n) : d < b := by
  induction k generalizing n with
  | zero => cases hd
  | succ k ih =>
      rw [fixed, List.mem_append, List.mem_singleton] at hd
      rcases hd with hd | rfl
      · exact ih hd
      · exact Nat.mod_lt _ hb

theorem value_fixed (b k n : ℕ) : value b (fixed b k n) = n % b ^ k := by
  induction k generalizing n with
  | zero => rw [fixed, value_nil, pow_zero, Nat.mod_one]
  | succ k ih =>
      rw [fixed, value_append, ih, value_singleton, List.length_singleton, pow_one, pow_succ',
        Nat.mod_mul]
      ring

/-- A shortest numeral padded with zeros on the left is the fixed one. -/
theorem replicate_append_numeral {b k : ℕ} (hb : 1 < b) {n : ℕ} (hk : k ≠ 0) (hn : n < b ^ k) :
    List.replicate (k - (numeral b n).length) 0 ++ numeral b n = fixed b k n := by
  have hlen := (length_numeral_le_iff hb hk n).mpr hn
  refine eq_of_value_eq hb (by simp; omega)
    (lt_of_mem_padded (by omega) (fun d ↦ numeral_lt hb) _) (fun d ↦ fixed_lt (by omega)) ?_
  rw [value_replicate_zero_append, value_numeral, value_fixed, Nat.mod_eq_of_lt hn]

/-! ## Pairs of digits -/

/-- The values of the first `k` pairs of digits. -/
def pairUp (b : ℕ) (k : ℕ) (ds : List ℕ) : List ℕ :=
  (List.range k).map fun i ↦ value b ((ds.drop (2 * i)).take 2)

theorem pairUp_succ (b k : ℕ) (x y : ℕ) (ds : List ℕ) :
    pairUp b (k + 1) (x :: y :: ds) = value b [x, y] :: pairUp b k ds := by
  rw [pairUp, List.range_succ_eq_map, List.map_cons, List.map_map]
  rfl

/-- Cutting into pairs passes to the base `b ^ 2`. -/
theorem value_pairUp (b : ℕ) {k : ℕ} {ds : List ℕ} (h : ds.length = 2 * k) :
    value (b ^ 2) (pairUp b k ds) = value b ds := by
  induction k generalizing ds with
  | zero => rw [List.length_eq_zero_iff.mp h]; rfl
  | succ k ih =>
      obtain ⟨x, y, rest, rfl⟩ : ∃ x y rest, ds = x :: y :: rest := by
        match ds, h with
        | x :: y :: rest, _ => exact ⟨x, y, rest, rfl⟩
      have hrest : rest.length = 2 * k := by simp only [List.length_cons] at h; omega
      rw [pairUp_succ, value_cons, ih hrest, pairUp, List.length_map, List.length_range,
        ← pow_mul]
      simp only [value_cons, List.length_cons, hrest, value_nil, List.length_nil]
      ring

/-- The digits of the pairs are the digits that were cut. -/
theorem flatMap_fixed_pairUp {b : ℕ} {k : ℕ} {ds : List ℕ} (h : ds.length = 2 * k)
    (hds : ∀ d ∈ ds, d < b) : (pairUp b k ds).flatMap (fixed b 2) = ds := by
  induction k generalizing ds with
  | zero => rw [List.length_eq_zero_iff.mp h]; rfl
  | succ k ih =>
      obtain ⟨x, y, rest, rfl⟩ : ∃ x y rest, ds = x :: y :: rest := by
        match ds, h with
        | x :: y :: rest, _ => exact ⟨x, y, rest, rfl⟩
      have hrest : rest.length = 2 * k := by simp only [List.length_cons] at h; omega
      obtain ⟨hx, hy, hlt⟩ : x < b ∧ y < b ∧ ∀ d ∈ rest, d < b := by
        simpa only [List.forall_mem_cons] using hds
      have hpair : fixed b 2 (value b [x, y]) = [x, y] := by
        have hb : 0 < b := by omega
        have hvalue : value b [x, y] = y + b * x := by
          rw [value_cons, value_singleton, List.length_singleton, pow_one]
          ring
        have hhigh : (y + b * x) / b = x := by
          rw [Nat.add_mul_div_left y x hb, Nat.div_eq_of_lt hy, Nat.zero_add]
        have hlow : (y + b * x) % b = y := by
          rw [Nat.add_mul_mod_self_left, Nat.mod_eq_of_lt hy]
        rw [hvalue]
        simp only [fixed, hhigh, hlow, Nat.mod_eq_of_lt hx, List.nil_append, List.cons_append]
      rw [pairUp_succ, List.flatMap_cons, ih hrest hlt, hpair]
      rfl

/-! ## Characters -/

/-- The digit a character stands for; `255` for a character that is no digit. -/
def digitVal (c : Char) : ℕ :=
  if '0' ≤ c ∧ c ≤ '9' then c.toNat - 48
  else if 'a' ≤ c ∧ c ≤ 'z' then c.toNat - 87
  else if 'A' ≤ c ∧ c ≤ 'Z' then c.toNat - 55
  else 255

/-- The upper-case hexadecimal digit of `%X`. -/
def upperDigitChar (d : ℕ) : Char := (Nat.digitChar d).toUpper

@[simp] theorem digitVal_digitChar {d : ℕ} (h : d < 16) : digitVal (Nat.digitChar d) = d := by
  interval_cases d <;> rfl

@[simp] theorem digitVal_upperDigitChar {d : ℕ} (h : d < 16) :
    digitVal (upperDigitChar d) = d := by
  interval_cases d <;> rfl

/-- Reading back the characters of a digit list, in either case. -/
theorem map_digitVal_map {f : ℕ → Char} (hf : ∀ d < 16, digitVal (f d) = d) {ds : List ℕ}
    (h : ∀ d ∈ ds, d < 16) : (ds.map f).map digitVal = ds := by
  rw [List.map_map]
  calc ds.map (digitVal ∘ f) = ds.map id := List.map_congr_left fun d hd ↦ hf d (h d hd)
    _ = ds := List.map_id ds

theorem map_digitVal_digitChar {ds : List ℕ} (h : ∀ d ∈ ds, d < 16) :
    (ds.map Nat.digitChar).map digitVal = ds :=
  map_digitVal_map (fun _ ↦ digitVal_digitChar) h

theorem digitVal_lt_of_mem_map {f : ℕ → Char} (hf : ∀ d < 16, digitVal (f d) = d) {ds : List ℕ}
    (h : ∀ d ∈ ds, d < 16) {c : Char} (hc : c ∈ ds.map f) : digitVal c < 16 := by
  obtain ⟨d, hd, rfl⟩ := List.mem_map.mp hc
  rw [hf d (h d hd)]
  exact h d hd

end Fussion
