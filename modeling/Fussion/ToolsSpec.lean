import Fussion.Tools
import Mathlib.Data.List.TakeWhile

/-!
# What the tools compute

One lemma per function of `Fussion.Tools`, so that no later proof opens a definition of that
module: modulo the order, the `mpz_class` operations are `rep` of the operations of
`ZMod curveOrder`; the conversions to and from `BIG` keep every number that fits; a scalar
multiplication by a representative is the scalar action of its class.
-/

namespace Fussion

/-! ## Arithmetic modulo the order -/

theorem randMpz_pos (r : Fin curveOrder) : 0 < randMpz r := by
  rw [randMpz]; omega

theorem toNat_randMpz_ne_zero (r : Fin curveOrder) : (randMpz r).toNat ≠ 0 := by
  have := randMpz_pos r
  omega

theorem randMpz_le (r : Fin curveOrder) : randMpz r ≤ curveOrder := by
  have := r.isLt
  rw [randMpz]; omega

/-- Every value from `1` to the order is drawn. -/
theorem exists_eq_randMpz {a : ℤ} (h₀ : 1 ≤ a) (h₁ : a ≤ curveOrder) : ∃ r, a = randMpz r := by
  refine ⟨⟨(a - 1).toNat, by omega⟩, ?_⟩
  rw [randMpz, Int.natCast_toNat_eq_self.mpr (by omega)]
  omega

theorem randMpz_injective : Function.Injective randMpz := by
  intro r s h
  rw [randMpz, randMpz] at h
  exact Fin.ext (by omega)

/-- Only the largest draw is zero modulo the order. -/
theorem cast_randMpz_eq_zero_iff (r : Fin curveOrder) :
    (randMpz r : ZMod curveOrder) = 0 ↔ randMpz r = curveOrder := by
  rw [ZMod.intCast_zmod_eq_zero_iff_dvd]
  constructor
  · intro h
    exact le_antisymm (randMpz_le r) (Int.le_of_dvd (randMpz_pos r) h)
  · exact fun h ↦ ⟨1, by rw [h, mul_one]⟩

theorem order_ne_zero : (curveOrder : ℤ) ≠ 0 :=
  Int.natCast_ne_zero.mpr prime_curveOrder.ne_zero

@[simp] theorem remMpz_order (a : ℤ) : remMpz a curveOrder = pure (a.tmod curveOrder) :=
  if_neg order_ne_zero

theorem remMpz_order_of_nonneg {a : ℤ} (h : 0 ≤ a) :
    remMpz a curveOrder = pure (rep (a : ZMod curveOrder)) := by
  rw [remMpz_order, tmod_eq_rep h]

theorem powMpz_order (base : ℤ) {exp : ℤ} (h : 0 ≤ exp) :
    powMpz base exp curveOrder = pure (rep ((base : ZMod curveOrder) ^ exp.toNat)) := by
  rw [powMpz, if_neg order_ne_zero, if_pos h, Int.natAbs_natCast, modPow_emod_eq_rep]

theorem invertMpz_eq (a m : ℤ) : invertMpz a m = Run.ret [⟨a, m⟩] (modInv a m) := by
  rw [invertMpz, Run.tell_bind, Run.after_pure]

/-! ## Reading and writing numerals -/

theorem isSpace_digitChar {d : ℕ} (h : d < 16) : isSpace (Nat.digitChar d) = false := by
  interval_cases d <;> rfl

theorem digitChar_eq_zero_iff {d : ℕ} (h : d < 16) : Nat.digitChar d = '0' ↔ d = 0 := by
  interval_cases d <;> decide

/-- What `mpz_set_str` does with a text of digits behind the sign. -/
theorem setStr_digits_aux {b : ℕ} {ds : List ℕ} (hb : b ≤ 16) (h : ∀ d ∈ ds, d < b) :
    let rest := (((ds.map Nat.digitChar).dropWhile fun c ↦ c = '0' || isSpace c).filter
      fun c ↦ !isSpace c).map digitVal
    rest.all (· < b) = true ∧ value b rest = value b ds := by
  induction ds with
  | nil => exact ⟨rfl, rfl⟩
  | cons d ds ih =>
      have hd : d < 16 := lt_of_lt_of_le (h d List.mem_cons_self) hb
      have hds : ∀ d ∈ ds, d < b := fun e he ↦ h e (List.mem_cons_of_mem d he)
      by_cases h0 : d = 0
      · -- A leading zero is skipped.
        subst h0
        have hz : value b (0 :: ds) = value b ds := value_replicate_zero_append b 1 ds
        rw [hz]
        exact ih hds
      · have hc : (Nat.digitChar d = '0' || isSpace (Nat.digitChar d)) = false := by
          simp [isSpace_digitChar hd, digitChar_eq_zero_iff hd, h0]
        have hfilter : ((d :: ds).map Nat.digitChar).filter (fun c ↦ !isSpace c) =
            (d :: ds).map Nat.digitChar := by
          refine List.filter_eq_self.mpr fun c hc ↦ ?_
          obtain ⟨e, he, rfl⟩ := List.mem_map.mp hc
          rw [isSpace_digitChar (lt_of_lt_of_le (h e he) hb)]
          rfl
        have hrest : ((((d :: ds).map Nat.digitChar).dropWhile fun c ↦ c = '0' || isSpace c).filter
            fun c ↦ !isSpace c).map digitVal = d :: ds := by
          rw [List.map_cons, List.dropWhile_cons_of_neg (by simpa using hc), ← List.map_cons,
            hfilter, map_digitVal_digitChar fun e he ↦ lt_of_lt_of_le (h e he) hb]
        intro rest
        rw [show rest = d :: ds from hrest]
        exact ⟨List.all_eq_true.mpr fun e he ↦ by simpa using h e he, rfl⟩

/-- A text of digits, with or without a sign in front, is read as its value when `base` is the
base of the digits or is detected to be. -/
theorem setStr_signed {base b : ℕ} (neg : Bool) {ds : List ℕ} (hb : b ≤ 16) (hne : ds ≠ [])
    (h : ∀ d ∈ ds, d < b) (hfirst : (if base = 0 then 10 else base) = b)
    (hbase : (if base = 0 then detectBase (ds.map Nat.digitChar)
      else (base, ds.map Nat.digitChar)) = (b, ds.map Nat.digitChar)) :
    setStr base ((if neg then ['-'] else []) ++ ds.map Nat.digitChar) =
      some (if neg then -(value b ds : ℤ) else value b ds) := by
  obtain ⟨d, ds, rfl⟩ := List.exists_cons_of_ne_nil hne
  have hd : d < b := h d List.mem_cons_self
  have hd16 : d < 16 := lt_of_lt_of_le hd hb
  obtain ⟨hall, hval⟩ := setStr_digits_aux hb h
  have hdigit : ¬ ((d :: ds).map Nat.digitChar).head?.elim 255 digitVal ≥ b := by
    simpa [digitVal_digitChar hd16] using hd
  cases neg with
  | true =>
      have hspace : ('-' :: (d :: ds).map Nat.digitChar).dropWhile isSpace =
          '-' :: (d :: ds).map Nat.digitChar := List.dropWhile_cons_of_neg (by decide)
      simp only [setStr, if_true, List.singleton_append, hspace, List.head?_cons, decide_true,
        List.tail_cons, hfirst, if_neg hdigit, hbase, hall, hval]
  | false =>
      have hspace : (((d :: ds).map Nat.digitChar).dropWhile isSpace) =
          (d :: ds).map Nat.digitChar := by
        rw [List.map_cons, List.dropWhile_cons_of_neg (by simp [isSpace_digitChar hd16])]
      have hneg : (((d :: ds).map Nat.digitChar).head? = some '-') = False := by
        simp
      simp only [setStr, Bool.false_eq_true, if_false, List.nil_append, hspace, hneg, decide_false,
        hfirst, if_neg hdigit, hbase, hall, if_true, hval]

/-- A nonempty text of digits is read as its value. -/
theorem setStr_digits {b : ℕ} {ds : List ℕ} (h0 : b ≠ 0) (hb : b ≤ 16) (hne : ds ≠ [])
    (h : ∀ d ∈ ds, d < b) : setStr b (ds.map Nat.digitChar) = some (value b ds : ℤ) :=
  setStr_signed false hb hne h (if_neg h0) (if_neg h0)

theorem getStr_eq (base : ℕ) (x : ℤ) :
    getStr base x = (if decide (x < 0) then ['-'] else []) ++
      (numeral base x.natAbs).map Nat.digitChar := by
  rw [getStr]
  simp only [decide_eq_true_eq]

theorem getStr_natCast (base n : ℕ) : getStr base n = (numeral base n).map Nat.digitChar := by
  rw [getStr, if_neg (by omega), List.nil_append, Int.natAbs_natCast]

theorem signed_natAbs (x : ℤ) :
    (if decide (x < 0) then -(x.natAbs : ℤ) else x.natAbs) = x := by
  simp only [decide_eq_true_eq]
  split_ifs <;> omega

/-- **Text in one base, up to sixteen, is read back as the number it was written from.** -/
theorem setStr_getStr {b : ℕ} (h1 : 1 < b) (hb : b ≤ 16) (x : ℤ) :
    setStr b (getStr b x) = some x := by
  have h0 : b ≠ 0 := by omega
  rw [getStr_eq, setStr_signed _ hb (numeral_ne_nil b _) (fun d ↦ numeral_lt h1) (if_neg h0)
    (if_neg h0), value_numeral, signed_natAbs]

theorem detectBase_of_ne_zero {d : ℕ} (h0 : d ≠ 0) (h : d < 16) (r : Str) :
    detectBase (Nat.digitChar d :: r) = (10, Nat.digitChar d :: r) := by
  interval_cases d <;> first | exact absurd rfl h0 | rfl

/-- **Decimal text is read back with base detection**: it never leads with a zero, unless it is
the number zero. -/
theorem setStr_zero_getStr (x : ℤ) : setStr 0 (getStr 10 x) = some x := by
  by_cases hx : x = 0
  · subst hx
    rfl
  · obtain ⟨d, ds, hds, hd0⟩ := numeral_head_ne_zero (b := 10) (Int.natAbs_ne_zero.mpr hx)
    have hlt : ∀ e ∈ numeral 10 x.natAbs, e < 10 := fun e ↦ numeral_lt (by norm_num)
    have hd : d < 16 := (hlt d (hds ▸ List.mem_cons_self)).trans (by norm_num)
    rw [getStr_eq, setStr_signed _ (by norm_num) (numeral_ne_nil 10 _) hlt (if_pos rfl),
      value_numeral, signed_natAbs]
    rw [if_pos rfl, hds, List.map_cons, detectBase_of_ne_zero hd0 hd]

/-! ## `BIG`s -/

theorem toNat_ofNat_of_lt {n : ℕ} (h : n < 256) : (UInt8.ofNat n).toNat = n :=
  UInt8.toNat_ofNat_of_lt' h

@[simp] theorem length_bigToBytes (x : ℕ) : (bigToBytes x).length = 48 := by
  rw [bigToBytes, List.length_map, length_fixed]

/-- `BIG_fromBytes` undoes `BIG_toBytes` on what fits into 48 bytes. -/
theorem bigFromBytes_bigToBytes (x : ℕ) : bigFromBytes (bigToBytes x) = x % 2 ^ 384 := by
  rw [bigFromBytes, bigToBytes, List.map_map]
  have h : (fixed 256 48 x).map (UInt8.toNat ∘ UInt8.ofNat) = fixed 256 48 x := by
    calc (fixed 256 48 x).map (UInt8.toNat ∘ UInt8.ofNat) = (fixed 256 48 x).map id :=
          List.map_congr_left fun d hd ↦ toNat_ofNat_of_lt (fixed_lt (by norm_num) hd)
      _ = fixed 256 48 x := List.map_id _
  rw [h, value_fixed, show (256 : ℕ) = 2 ^ 8 from rfl, ← pow_mul]

/-- `BIG_toBytes` separates the numbers that fit into 48 bytes. -/
theorem bigToBytes_injOn {x y : ℕ} (hx : x < 2 ^ 384) (hy : y < 2 ^ 384)
    (h : bigToBytes x = bigToBytes y) : x = y := by
  have := congrArg bigFromBytes h
  rwa [bigFromBytes_bigToBytes, bigFromBytes_bigToBytes, Nat.mod_eq_of_lt hx,
    Nat.mod_eq_of_lt hy] at this

/-- The text of a byte list has the value of the byte list. -/
theorem value_flatMap_fixed {bs : List ℕ} (h : ∀ b ∈ bs, b < 256) :
    value 16 (bs.flatMap (fixed 16 2)) = value 256 bs := by
  induction bs with
  | nil => rfl
  | cons b bs ih =>
      have hlen : (bs.flatMap (fixed 16 2)).length = bs.length * 2 := by
        simp [List.length_flatMap]
      rw [List.flatMap_cons, value_append, ih fun c hc ↦ h c (List.mem_cons_of_mem b hc),
        value_fixed, Nat.mod_eq_of_lt (show b < 16 ^ 2 from h b List.mem_cons_self), hlen,
        value_cons, Nat.mul_comm bs.length, pow_mul, show 16 ^ 2 = 256 from rfl]

theorem charsToString_eq (ch : List UInt8) :
    charsToString ch = ((ch.map UInt8.toNat).flatMap (fixed 16 2)).map Nat.digitChar := by
  rw [charsToString, List.flatMap_map, List.map_flatMap]
  rfl

theorem lt_of_mem_map_toNat {bs : List UInt8} {b : ℕ} (h : b ∈ bs.map UInt8.toNat) : b < 256 := by
  obtain ⟨c, -, rfl⟩ := List.mem_map.mp h
  exact c.toNat_lt

/-- The 16 zero bytes that `hashZp256` puts behind a digest. -/
theorem bigFromBytes_append_zeros (bs : List UInt8) :
    bigFromBytes (bs ++ List.replicate 16 0) = bigFromBytes bs * 2 ^ 128 := by
  have hzeros : value 256 (List.replicate 16 0) = 0 := rfl
  rw [bigFromBytes, bigFromBytes, List.map_append, value_append, List.map_replicate,
    UInt8.toNat_zero, List.length_replicate, hzeros, add_zero]
  norm_num

theorem bigFromBytes_lt (bs : List UInt8) : bigFromBytes bs < 256 ^ bs.length := by
  have h : ∀ b ∈ bs.map UInt8.toNat, b < 256 := fun b ↦ lt_of_mem_map_toNat
  rw [bigFromBytes, ← List.length_map]
  exact value_lt (by norm_num) h

/-- `BIG_to_mpz` gives back what fits into 48 bytes. -/
theorem bigToMpz_eq (x : ℕ) : bigToMpz x = (x % 2 ^ 384 : ℕ) := by
  have hne : ((bigToBytes x).map UInt8.toNat).flatMap (fixed 16 2) ≠ [] := by
    obtain ⟨c, cs, hcs⟩ := List.exists_cons_of_length_eq_add_one (length_bigToBytes x)
    rw [hcs]
    exact fun h ↦ by simpa using congrArg List.length h
  rw [bigToMpz, charsToString_eq, setStr_digits (by norm_num) le_rfl hne,
    value_flatMap_fixed fun b ↦ lt_of_mem_map_toNat, Option.getD_some, ← bigFromBytes_bigToBytes]
  · rfl
  · intro d hd
    obtain ⟨b, -, hd⟩ := List.mem_flatMap.mp hd
    exact fixed_lt (by norm_num) hd

theorem bigToMpz_of_lt {x : ℕ} (h : x < 2 ^ 384) : bigToMpz x = x := by
  rw [bigToMpz_eq, Nat.mod_eq_of_lt h]

theorem digitVal_of_isSpace {c : Char} (h : isSpace c = true) : digitVal c = 255 := by
  simp only [isSpace, List.mem_cons, List.not_mem_nil, or_false, decide_eq_true_eq] at h
  rcases h with rfl | rfl | rfl | rfl | rfl | rfl <;> rfl

/-- A text that leads with a digit has no blank and no sign in front. -/
theorem dropWhile_isSpace_of_hex {c : Char} (h : digitVal c < 16) (r : Str) :
    (c :: r).dropWhile isSpace = c :: r := by
  refine List.dropWhile_cons_of_neg fun hc ↦ ?_
  rw [digitVal_of_isSpace hc] at h
  omega

/-- `strtol` on digits. -/
theorem strtol16_hex {s : Str} (h : ∀ c ∈ s, digitVal c < 16) :
    strtol16 s = value 16 (s.map digitVal) := by
  cases s with
  | nil => rfl
  | cons c r =>
      have hc : digitVal c < 16 := h c List.mem_cons_self
      have htake : (c :: r).takeWhile (fun c ↦ digitVal c < 16) = c :: r :=
        List.takeWhile_eq_self_iff.mpr fun c hc ↦ by simpa using h c hc
      rw [strtol16.eq_def, dropWhile_isSpace_of_hex hc]
      split
      · rename_i heq
        cases heq
        exact absurd hc (by decide)
      · rename_i heq
        cases heq
        exact absurd hc (by decide)
      · simp only [htake]

theorem value_piece_lt {s : Str} (h : ∀ c ∈ s, digitVal c < 16) (i : ℕ) :
    value 16 (((s.drop (2 * i)).take 2).map digitVal) < 256 := by
  have hpiece : ∀ d ∈ ((s.drop (2 * i)).take 2).map digitVal, d < 16 := by
    intro d hd
    obtain ⟨c, hc, rfl⟩ := List.mem_map.mp hd
    exact h c (List.mem_of_mem_drop (List.mem_of_mem_take hc))
  refine lt_of_lt_of_le (value_lt (by norm_num) hpiece) ?_
  rw [List.length_map]
  exact (Nat.pow_le_pow_right (by norm_num) (List.length_take_le 2 _)).trans (by norm_num)

/-- The byte that a two-digit piece of a text is read as. -/
theorem strtol16_piece {s : Str} (h : ∀ c ∈ s, digitVal c < 16) (i : ℕ) :
    (strtol16 ((s.drop (2 * i)).take 2) % 256).toNat =
      value 16 (((s.map digitVal).drop (2 * i)).take 2) := by
  have hlt := value_piece_lt h i
  rw [strtol16_hex fun c hc ↦ h c (List.mem_of_mem_drop (List.mem_of_mem_take hc)),
    Int.emod_eq_of_lt (Int.natCast_nonneg _) (by exact_mod_cast hlt), Int.toNat_natCast,
    ← List.map_drop, ← List.map_take]

/-- `sscanf` reads the pieces of a text of digits. -/
theorem scanBytes_hex {s : Str} (h : ∀ c ∈ s, digitVal c < 16) {k : ℕ} (hk : 2 * k ≤ s.length) :
    scanBytes k s = pure ((List.range k).map fun i ↦
      UInt8.ofNat (value 16 (((s.map digitVal).drop (2 * i)).take 2))) := by
  refine Run.upTo_push_pure _ fun i hi acc ↦ ?_
  have hdigit : ∀ c ∈ (s.drop (2 * i)).take 2, digitVal c < 16 := fun c hc ↦
    h c (List.mem_of_mem_drop (List.mem_of_mem_take hc))
  rw [← strtol16_piece h i]
  obtain ⟨c, r, hcr⟩ : ∃ c r, (s.drop (2 * i)).take 2 = c :: r := by
    refine List.exists_cons_of_ne_nil fun hnil ↦ ?_
    have := congrArg List.length hnil
    simp only [List.length_take, List.length_drop, List.length_nil] at this
    omega
  rw [hcr] at hdigit ⊢
  have hc : digitVal c < 16 := hdigit c List.mem_cons_self
  have hsign : ¬ ((c :: r).head? = some '-' ∨ (c :: r).head? = some '+') := by
    rintro (hs | hs) <;> (cases hs; exact absurd hc (by decide))
  rw [scanByte, dropWhile_isSpace_of_hex hc, if_neg hsign, List.head?_cons, Option.elim_some,
    if_pos hc, pure_bind]

/-- The first `k` pieces of a text of digits as bytes. -/
theorem map_toNat_pieces {ds : List ℕ} (h : ∀ d ∈ ds, d < 16) (k : ℕ) :
    ((List.range k).map fun i ↦
      UInt8.ofNat (value 16 ((ds.drop (2 * i)).take 2))).map UInt8.toNat =
        pairUp 16 k (ds.take (2 * k)) := by
  have hpiece : ∀ i, ∀ d ∈ (ds.drop (2 * i)).take 2, d < 16 := fun i d hd ↦
    h d (List.mem_of_mem_drop (List.mem_of_mem_take hd))
  rw [List.map_map, pairUp]
  refine List.map_congr_left fun i hi ↦ ?_
  have hi : i < k := List.mem_range.mp hi
  -- A piece in front of position `2k` is a piece of the first `2k` digits.
  have hcut : ((ds.take (2 * k)).drop (2 * i)).take 2 = (ds.drop (2 * i)).take 2 := by
    rw [List.drop_take, List.take_take, min_eq_left (by omega)]
  have hlt : value 16 ((ds.drop (2 * i)).take 2) < 256 := by
    refine lt_of_lt_of_le (value_lt (by norm_num) (hpiece i)) ?_
    exact Nat.pow_le_pow_right (by norm_num) (List.length_take_le 2 _) |>.trans (by norm_num)
  rw [hcut, Function.comp_apply, toNat_ofNat_of_lt hlt]

/-- The number whose bytes are the first `k` pieces of a long enough text of digits. -/
theorem bigFromBytes_pieces {ds : List ℕ} (h : ∀ d ∈ ds, d < 16) {k : ℕ}
    (hk : 2 * k ≤ ds.length) :
    bigFromBytes ((List.range k).map fun i ↦
      UInt8.ofNat (value 16 ((ds.drop (2 * i)).take 2))) = value 16 (ds.take (2 * k)) := by
  rw [bigFromBytes, map_toNat_pieces h]
  exact value_pairUp 16 (by rw [List.length_take, min_eq_left hk])

/-- The bytes read from the text of a byte list. -/
theorem pairUp_flatMap_fixed {bs : List ℕ} (h : ∀ b ∈ bs, b < 256) :
    pairUp 16 bs.length (bs.flatMap (fixed 16 2)) = bs := by
  induction bs with
  | nil => rfl
  | cons b bs ih =>
      have hb : value 16 [b / 16 % 16, b % 16] = b := by
        have := h b List.mem_cons_self
        rw [value_cons, value_singleton, List.length_singleton]
        omega
      rw [List.flatMap_cons, List.length_cons]
      exact (pairUp_succ 16 bs.length _ _ _).trans
        (congrArg₂ List.cons hb (ih fun c hc ↦ h c (List.mem_cons_of_mem b hc)))

theorem padLeft_digits (k : ℕ) (ds : List ℕ) :
    padLeft k (ds.map Nat.digitChar) =
      (List.replicate (k - ds.length) 0 ++ ds).map Nat.digitChar := by
  rw [padLeft, List.map_append, List.map_replicate, List.length_map]
  rfl

/-- The bytes that `mpz_to_BIG` reads from the first `k` pieces of a text. -/
def strtolBytes (k : ℕ) (s : Str) : List UInt8 :=
  (List.range k).map fun i ↦ UInt8.ofNat (strtol16 ((s.drop (2 * i)).take 2) % 256).toNat

theorem mpzToBIG_eq_strtolBytes (t : ℤ) :
    mpzToBIG t = bigFromBytes (strtolBytes 32 (padLeft 64 (getStr 16 t))) := rfl

@[simp] theorem length_strtolBytes (k : ℕ) (s : Str) : (strtolBytes k s).length = k := by
  rw [strtolBytes, List.length_map, List.length_range]

/-- The characters behind the last piece are not looked at. -/
theorem strtolBytes_take (k : ℕ) (s : Str) : strtolBytes k (s.take (2 * k)) = strtolBytes k s := by
  refine List.map_congr_left fun i hi ↦ ?_
  have hi : i < k := List.mem_range.mp hi
  rw [List.drop_take, List.take_take, min_eq_left (by omega)]

theorem bigFromBytes_strtolBytes {ds : List ℕ} (h : ∀ d ∈ ds, d < 16) {k : ℕ}
    (hk : 2 * k ≤ ds.length) :
    bigFromBytes (strtolBytes k (ds.map Nat.digitChar)) = value 16 (ds.take (2 * k)) := by
  have hchars := fun c ↦ digitVal_lt_of_mem_map (c := c) (fun _ ↦ digitVal_digitChar) h
  rw [← bigFromBytes_pieces h hk, strtolBytes]
  simp only [strtol16_piece hchars, map_digitVal_digitChar h]

/-- `mpz_to_BIG` of a nonnegative number is the value of the first 64 of its digits, filled up
on the left. -/
theorem mpzToBIG_eq_value (n : ℕ) : mpzToBIG n =
    value 16 ((List.replicate (64 - (numeral 16 n).length) 0 ++ numeral 16 n).take 64) := by
  have hdig : ∀ d ∈ List.replicate (64 - (numeral 16 n).length) 0 ++ numeral 16 n, d < 16 :=
    lt_of_mem_padded (by norm_num) (fun d ↦ numeral_lt (by norm_num)) _
  rw [mpzToBIG_eq_strtolBytes, getStr_natCast, padLeft_digits]
  exact bigFromBytes_strtolBytes hdig (by rw [List.length_append, List.length_replicate]; omega)

/-- `str_to_BIG` on at most 96 digits. -/
theorem strToBIG_digits {ds : List ℕ} (h : ∀ d ∈ ds, d < 16) (hlen : ds.length ≤ 96) :
    strToBIG (ds.map Nat.digitChar) = pure (value 16 ds) := by
  have hdig := lt_of_mem_padded (by norm_num) h (96 - ds.length)
  have hpad : (List.replicate (96 - ds.length) 0 ++ ds).length = 96 := by
    rw [List.length_append, List.length_replicate]
    omega
  have hchars := fun c ↦ digitVal_lt_of_mem_map (c := c) (fun _ ↦ digitVal_digitChar) hdig
  unfold strToBIG
  rw [padLeft_digits, scanBytes_hex hchars (by rw [List.length_map, hpad]), pure_bind,
    map_digitVal_digitChar hdig, bigFromBytes_pieces hdig (k := 48) hpad.ge,
    List.take_of_length_le hpad.le, value_replicate_zero_append]

/-- `str_to_BIG` reads back the hexadecimal text of every number of 48 bytes. -/
theorem strToBIG_getStr {x : ℕ} (h : x < 2 ^ 384) : strToBIG (getStr 16 x) = pure x := by
  have hlen : (numeral 16 x).length ≤ 96 :=
    (length_numeral_le_iff (by norm_num) (by norm_num) x).mpr
      (h.trans_eq (by rw [show (16 : ℕ) = 2 ^ 4 from rfl, ← pow_mul]))
  rw [getStr_natCast, strToBIG_digits (fun d ↦ numeral_lt (by norm_num)) hlen, value_numeral]

/-- **`mpz_to_BIG` keeps the leading 64 digits**, which is all of a number that has no more. -/
theorem mpzToBIG_eq (n : ℕ) : mpzToBIG n = n / 16 ^ (Nat.log 16 n - 63) := by
  have hlen := length_numeral (b := 16) (by norm_num) n
  rw [mpzToBIG_eq_value]
  by_cases h : (numeral 16 n).length ≤ 64
  · have hn : n < 16 ^ 64 := (length_numeral_le_iff (by norm_num) (by norm_num) n).mp h
    rw [replicate_append_numeral (by norm_num) (by norm_num) hn, List.take_of_length_le (by simp),
      value_fixed, Nat.mod_eq_of_lt hn, show Nat.log 16 n - 63 = 0 by omega, pow_zero, Nat.div_one]
  · rw [Nat.sub_eq_zero_of_le (by omega), List.replicate_zero, List.nil_append,
      value_take (by norm_num) (fun d ↦ numeral_lt (by norm_num)), value_numeral, hlen]
    rfl

/-- A number of at most 256 bits is kept. -/
theorem mpzToBIG_of_lt {n : ℕ} (h : n < 2 ^ 256) : mpzToBIG n = n := by
  have hlog : Nat.log 16 n < 64 := Nat.log_lt_of_lt_pow' (by norm_num) (by simpa using h)
  rw [mpzToBIG_eq, show Nat.log 16 n - 63 = 0 by omega, pow_zero, Nat.div_one]

theorem mpzToBIG_lt (t : ℤ) : mpzToBIG t < 2 ^ 256 := by
  rw [mpzToBIG_eq_strtolBytes]
  refine (bigFromBytes_lt _).trans_eq ?_
  rw [length_strtolBytes]
  norm_num

/-- `mpz_to_BIG` looks at the first 64 characters only. -/
theorem mpzToBIG_congr {s t : ℤ}
    (h : (padLeft 64 (getStr 16 s)).take 64 = (padLeft 64 (getStr 16 t)).take 64) :
    mpzToBIG s = mpzToBIG t := by
  rw [mpzToBIG_eq_strtolBytes, mpzToBIG_eq_strtolBytes, ← strtolBytes_take, h, strtolBytes_take]

/-! ## Signs -/

theorem padLeft_of_le {k : ℕ} {s : Str} (h : k ≤ s.length) : padLeft k s = s := by
  rw [padLeft, Nat.sub_eq_zero_of_le h, List.replicate_zero, List.nil_append]

theorem getStr_neg {n : ℕ} (base : ℕ) (h : n ≠ 0) :
    getStr base (-n) = '-' :: (numeral base n).map Nat.digitChar := by
  rw [getStr, if_pos (by omega), Int.natAbs_neg, Int.natAbs_natCast, List.singleton_append]

/-- **The minus sign takes the place of the last digit**: of a negative number of 64 digits or more
the last is not read. -/
theorem mpzToBIG_neg_div {n : ℕ} (h : 16 ^ 63 ≤ n) :
    mpzToBIG (-n) = mpzToBIG (-(n / 16 : ℕ)) := by
  have htext : getStr 16 (-n) = getStr 16 (-(n / 16 : ℕ)) ++ [Nat.digitChar (n % 16)] := by
    rw [getStr_neg 16 (by omega), getStr_neg 16 (by omega), numeral_of_le (by norm_num) (by omega),
      List.map_append]
    rfl
  have hlen : 64 ≤ (getStr 16 (-(n / 16 : ℕ))).length := by
    have hlog : 62 ≤ Nat.log 16 (n / 16) := Nat.le_log_of_pow_le (by norm_num) (by omega)
    rw [getStr_neg 16 (by omega), List.length_cons, List.length_map, length_numeral (by norm_num)]
    omega
  refine mpzToBIG_congr ?_
  rw [htext, padLeft_of_le hlen, padLeft_of_le (by rw [List.length_append]; omega),
    List.take_append_of_le_length hlen]

theorem mpzToBIG_neg_congr {x y : ℕ} (hx : 16 ^ 63 ≤ x) (h : x / 16 = y / 16) :
    mpzToBIG (-x) = mpzToBIG (-y) := by
  rw [mpzToBIG_neg_div hx, h, ← mpzToBIG_neg_div (by omega)]

/-! ## Scalar multiples and hashes -/

section Points

theorem lt_two_pow_of_le_order {t : ℤ} (h : t ≤ curveOrder) : t < 2 ^ 256 := by
  have hlt := curveOrder_lt
  omega

variable {P : Type} [AddCommGroup P]

/-- A scalar of at most 256 bits multiplies by its value. -/
theorem ecpMul_eq_nsmul (p : P) {t : ℤ} (h₀ : 0 ≤ t) (h₁ : t < 2 ^ 256) :
    ecpMul p t = t.toNat • p := by
  lift t to ℕ using h₀
  rw [ecpMul, mpzToBIG_of_lt (by exact_mod_cast h₁), Int.toNat_natCast]

theorem ecpMul_rep_eq_nsmul (p : P) (x : ZMod curveOrder) :
    ecpMul p (rep x) = (rep x).toNat • p :=
  ecpMul_eq_nsmul p (rep_nonneg x) (lt_two_pow_of_le_order (rep_lt x).le)

variable [Module (ZMod curveOrder) P]

/-- A scalar of at most 256 bits acts as its class. -/
theorem ecpMul_of_lt (p : P) {t : ℤ} (h₀ : 0 ≤ t) (h₁ : t < 2 ^ 256) :
    ecpMul p t = (t : ZMod curveOrder) • p := by
  rw [ecpMul_eq_nsmul p h₀ h₁, ← Nat.cast_smul_eq_nsmul (ZMod curveOrder), ← Int.cast_natCast,
    Int.toNat_of_nonneg h₀]

theorem ecpMul_rep (p : P) (x : ZMod curveOrder) : ecpMul p (rep x) = x • p := by
  rw [ecpMul_of_lt p (rep_nonneg x) (lt_two_pow_of_le_order (rep_lt x).le), cast_rep]

end Points

namespace Miracl

variable {ECP ECP2 FP12 : Type} [AddCommGroup ECP] [AddCommGroup ECP2] [CommGroup FP12]
variable (M : Miracl ECP ECP2 FP12)

/-- `hashToZp256` gives the residue that was computed as a `BIG`. -/
theorem hashToZp256_eq (x : ℤ) {q : ℕ} (h₀ : 0 < q) (h₁ : q < 2 ^ 256) :
    M.hashToZp256 x q = M.hashToZp256Big (mpzToBIG x) q := by
  have hlt : M.hashToZp256Big (mpzToBIG x) q < 2 ^ 384 :=
    (Nat.mod_lt _ h₀).trans (h₁.trans (two_pow_lt_big (by norm_num)))
  rw [hashToZp256, mpzToBIG_of_lt h₁, bigToMpz_of_lt hlt]

/-- The hash lies in `[0, q)`. -/
theorem hashToZp256_nonneg_and_lt (x : ℤ) {q : ℕ} (h₀ : 0 < q) (h₁ : q < 2 ^ 256) :
    0 ≤ M.hashToZp256 x q ∧ M.hashToZp256 x q < q := by
  rw [M.hashToZp256_eq x h₀ h₁]
  exact ⟨Int.natCast_nonneg _, Int.ofNat_lt.mpr (Nat.mod_lt _ h₀)⟩

/-- `hashToPoint` is the multiple of the generator by the hash. -/
theorem hashToPoint_eq [Module (ZMod curveOrder) ECP] (x : ℤ) :
    M.hashToPoint x curveOrder =
      (M.hashToZp256 x curveOrder : ZMod curveOrder) • M.generator := by
  have h₁ : curveOrder < 2 ^ 256 := curveOrder_lt.trans (by norm_num)
  rw [M.hashToZp256_eq x prime_curveOrder.pos h₁, hashToPoint, hashToPointBig, mpzToBIG_of_lt h₁,
    Int.cast_natCast, Nat.cast_smul_eq_nsmul]

end Miracl

end Fussion
