import Fussion.ToolsSpec

/-!
# Which part of a message is signed

`hashToPoint(M, q)` turns the message into a `BIG` and hashes its 48 bytes.  `mpz_to_BIG`
fills a short text up to 64 hexadecimal digits but does not look at a longer one: only the
first 64 digits of it become bytes.  Two messages are told apart exactly when their leading 64
digits differ, and a message is told apart from all others exactly when it is below `2 ^ 252`:
from there on its digits fill the 64 places, and appending a digit to it changes nothing.
-/

namespace Fussion

/-- The 48 bytes that `hashToPoint(msg, q)` hands to `HASH256`. -/
def hashInput (msg : ℤ) : List UInt8 := bigToBytes (mpzToBIG msg)

/-- The point depends on the message through these bytes. -/
theorem Miracl.hashToPoint_eq_hash256 {ECP ECP2 FP12 : Type} [AddCommGroup ECP]
    [AddCommGroup ECP2] [CommGroup FP12] (M : Miracl ECP ECP2 FP12) (msg q : ℤ) :
    M.hashToPoint msg q =
      (bigFromBytes ((M.hash256 (hashInput msg)).toList ++ List.replicate 16 0) % mpzToBIG q) •
        M.generator := rfl

/-- The value of the leading 64 hexadecimal digits; the number itself when it has no more. -/
def leading64 (n : ℕ) : ℕ := n / 16 ^ (Nat.log 16 n - 63)

theorem leading64_of_lt {n : ℕ} (h : n < 2 ^ 256) : leading64 n = n := by
  rw [leading64, ← mpzToBIG_eq, mpzToBIG_of_lt h]

theorem hashInput_eq_iff (m n : ℕ) : hashInput m = hashInput n ↔ leading64 m = leading64 n := by
  have hlt : ∀ n : ℕ, mpzToBIG n < 2 ^ 384 := fun n ↦
    (mpzToBIG_lt n).trans (two_pow_lt_big (by norm_num))
  rw [leading64, leading64, ← mpzToBIG_eq, ← mpzToBIG_eq]
  exact ⟨bigToBytes_injOn (hlt m) (hlt n), congrArg bigToBytes⟩

theorem log_of_le {n : ℕ} (h : 2 ^ 252 ≤ n) : 63 ≤ Nat.log 16 n :=
  Nat.le_log_of_pow_le (by norm_num) (by simpa using h)

/-- The digits of a number from `2 ^ 252` on fill the 64 places. -/
theorem le_leading64 {n : ℕ} (h : 2 ^ 252 ≤ n) : 2 ^ 252 ≤ leading64 n := by
  have hn : n ≠ 0 := by rintro rfl; simp at h
  rw [leading64, Nat.le_div_iff_mul_le (by positivity)]
  calc 2 ^ 252 * 16 ^ (Nat.log 16 n - 63) = 16 ^ (63 + (Nat.log 16 n - 63)) := by
        rw [pow_add]; norm_num
    _ = 16 ^ Nat.log 16 n := by rw [Nat.add_sub_cancel' (log_of_le h)]
    _ ≤ n := Nat.pow_log_le_self 16 hn

/-- Appending a digit to a number whose digits fill the 64 places is not seen. -/
theorem leading64_mul_sixteen {n : ℕ} (h : 2 ^ 252 ≤ n) : leading64 (n * 16) = leading64 n := by
  have hn : n ≠ 0 := by rintro rfl; simp at h
  rw [leading64, leading64, Nat.log_mul_base (by norm_num) hn, Nat.succ_sub (log_of_le h), pow_succ,
    Nat.mul_div_mul_right _ _ (by norm_num)]

/-- A number below `2 ^ 252` shares its leading digits with no other. -/
theorem eq_of_leading64_eq {m n : ℕ} (hm : m < 2 ^ 252) (h : leading64 n = leading64 m) :
    n = m := by
  have hm' : m < 2 ^ 256 := hm.trans (by norm_num)
  rw [leading64_of_lt hm'] at h
  have hn : n < 2 ^ 252 := by
    by_contra hle
    have := le_leading64 (not_lt.mp hle)
    omega
  rwa [leading64_of_lt (hn.trans (by norm_num))] at h

/-- **What binds a signature to its message**: two messages are hashed from different bytes
exactly when their leading 64 hexadecimal digits differ, and a message is hashed from bytes of
its own exactly when it is below `2 ^ 252`. -/
theorem hashInput_binding (m n : ℕ) :
    (hashInput m ≠ hashInput n ↔ leading64 m ≠ leading64 n) ∧
      ((∀ k : ℕ, k ≠ m → hashInput k ≠ hashInput m) ↔ m < 2 ^ 252) := by
  refine ⟨not_congr (hashInput_eq_iff m n), fun h ↦ ?_, fun hm k hne h ↦ ?_⟩
  · by_contra hle
    have hle : 2 ^ 252 ≤ m := not_lt.mp hle
    have hne : m * 16 ≠ m := by
      have : 0 < m := lt_of_lt_of_le (by norm_num) hle
      omega
    exact h (m * 16) hne ((hashInput_eq_iff _ _).mpr (leading64_mul_sixteen hle))
  · exact hne (eq_of_leading64_eq hm ((hashInput_eq_iff k m).mp h))

/-- The messages `2 ^ 252` and `2 ^ 256` are hashed from the same bytes. -/
theorem hashInput_collision :
    (2 ^ 252 : ℕ) ≠ 2 ^ 256 ∧ hashInput (2 ^ 252 : ℕ) = hashInput (2 ^ 256 : ℕ) := by
  refine ⟨by norm_num, (hashInput_eq_iff _ _).mpr ?_⟩
  have h := leading64_mul_sixteen (le_refl (2 ^ 252))
  rw [← h]
  norm_num

end Fussion
