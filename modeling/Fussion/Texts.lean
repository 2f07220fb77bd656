import Fussion.BrpcTools

/-!
# What the readers accept

The texts that the conversions of `src/Tools/brpcTools.cpp` read are not only those that they write.
A message may hold any text, and what a process makes of it depends on its reader.

`str_to_mpz` reads exactly the numbers of `IsNumber`: blanks may stand in front of the sign and
behind any digit, the digits may be of either case, and leading zeros are allowed.  `str_to_ECP`
does not insist on its comma.  `str_to_ECP2` takes pairs of digits of either case; it needs 194 of
them, or 386 when the first byte is `4`, and ignores what follows.
-/

namespace Fussion

/-! ## Numbers -/

/-- The values of the digits of a text, without its blanks. -/
def digitsOf (s : Str) : List ℕ := (s.filter fun c ↦ !isSpace c).map digitVal

/-- A text and the number that it is in a base. -/
inductive IsNumber (base : ℕ) : Str → ℤ → Prop
  | /-- Blanks, a digit, and digits with blanks in between. -/
    pos {blanks rest : Str} {d : Char} (hblanks : ∀ c ∈ blanks, isSpace c = true)
      (hd : digitVal d < base) (hrest : ∀ c ∈ rest, isSpace c = true ∨ digitVal c < base) :
      IsNumber base (blanks ++ d :: rest) (value base (digitsOf (d :: rest)))
  | /-- The same with a minus sign in front of the first digit. -/
    neg {blanks rest : Str} {d : Char} (hblanks : ∀ c ∈ blanks, isSpace c = true)
      (hd : digitVal d < base) (hrest : ∀ c ∈ rest, isSpace c = true ∨ digitVal c < base) :
      IsNumber base (blanks ++ '-' :: d :: rest) (-(value base (digitsOf (d :: rest)) : ℤ))

/-- The digits that `mpz_set_str` converts, behind the leading zeros. -/
def significant (s : Str) : List ℕ := digitsOf (s.dropWhile fun c ↦ c = '0' || isSpace c)

theorem digitsOf_cons (c : Char) (s : Str) :
    digitsOf (c :: s) = if isSpace c then digitsOf s else digitVal c :: digitsOf s := by
  rw [digitsOf, List.filter_cons]
  cases isSpace c <;> rfl

/-- What is skipped are zeros. -/
theorem exists_digitsOf_eq (s : Str) : ∃ k, digitsOf s = List.replicate k 0 ++ significant s := by
  induction s with
  | nil => exact ⟨0, rfl⟩
  | cons c s ih =>
      obtain ⟨k, hk⟩ := ih
      by_cases hc : (c = '0' || isSpace c) = true
      · rw [significant, List.dropWhile_cons, if_pos hc, digitsOf_cons]
        split_ifs with hspace
        · exact ⟨k, hk⟩
        · have hzero : c = '0' := by simpa [hspace] using hc
          refine ⟨k + 1, ?_⟩
          rw [hk, hzero]
          rfl
      · rw [significant, List.dropWhile_cons, if_neg hc]
        exact ⟨0, rfl⟩

theorem value_significant (base : ℕ) (s : Str) :
    value base (significant s) = value base (digitsOf s) := by
  obtain ⟨k, hk⟩ := exists_digitsOf_eq s
  rw [hk, value_replicate_zero_append]

theorem all_significant {base : ℕ} (h₀ : base ≠ 0) (s : Str) :
    ((significant s).all fun d ↦ decide (d < base)) = true ↔
      ∀ c ∈ s, isSpace c = true ∨ digitVal c < base := by
  have hdigits : (∀ d ∈ digitsOf s, d < base) ↔
      ∀ c ∈ s, isSpace c = true ∨ digitVal c < base := by
    simp only [digitsOf, List.forall_mem_map, List.mem_filter, Bool.not_eq_true', and_imp]
    refine forall₂_congr fun c _ ↦ ?_
    cases isSpace c <;> simp
  obtain ⟨k, hk⟩ := exists_digitsOf_eq s
  rw [← hdigits, hk, List.forall_mem_append]
  simp only [List.all_eq_true, decide_eq_true_eq]
  refine (and_iff_right fun d hd ↦ ?_).symm
  rw [List.eq_of_mem_replicate hd]
  exact Nat.pos_of_ne_zero h₀

/-- What `mpz_set_str` reads behind the blanks and the sign. -/
def readDigits (base : ℕ) (s : Str) : Option ℕ :=
  if s.head?.elim 255 digitVal ≥ base then none
  else if (significant s).all (· < base) then some (value base (significant s)) else none

theorem setStr_eq_readDigits {base : ℕ} (h₀ : base ≠ 0) (s : Str) :
    setStr base s =
      if (s.dropWhile isSpace).head? = some '-' then
        (readDigits base (s.dropWhile isSpace).tail).map fun v : ℕ ↦ -(v : ℤ)
      else (readDigits base (s.dropWhile isSpace)).map fun v : ℕ ↦ (v : ℤ) := by
  unfold setStr readDigits significant digitsOf
  by_cases hneg : (s.dropWhile isSpace).head? = some '-'
  · simp only [hneg, h₀, decide_true, if_true, if_false]
    split_ifs <;> rfl
  · simp only [hneg, h₀, decide_false, Bool.false_eq_true, if_false]
    split_ifs <;> rfl

theorem readDigits_eq_some_iff {base : ℕ} (h₀ : base ≠ 0) (hb : base ≤ 16) (s : Str) (v : ℕ) :
    readDigits base s = some v ↔ ∃ d rest, s = d :: rest ∧ digitVal d < base ∧
      (∀ c ∈ rest, isSpace c = true ∨ digitVal c < base) ∧ v = value base (digitsOf s) := by
  unfold readDigits
  cases s with
  | nil => simpa using fun h : 255 < base ↦ absurd h (by omega)
  | cons d rest =>
      rw [List.head?_cons, Option.elim_some, value_significant]
      constructor
      · intro h
        split_ifs at h with hd hall
        · have hd : digitVal d < base := not_le.mp hd
          have hall := (all_significant h₀ (d :: rest)).mp hall
          exact ⟨d, rest, rfl, hd, fun c hc ↦ hall c (List.mem_cons_of_mem d hc),
            (Option.some.inj h).symm⟩
      · rintro ⟨d', rest', heq, hd, hrest, rfl⟩
        obtain ⟨rfl, rfl⟩ := List.cons.inj heq
        have hall := (all_significant h₀ (d :: rest)).mpr
          (List.forall_mem_cons.mpr ⟨Or.inr hd, hrest⟩)
        rw [if_neg (not_le.mpr hd), if_pos hall]

/-- Behind the blanks stands the first character that is none. -/
theorem dropWhile_blanks {blanks : Str} (hblanks : ∀ c ∈ blanks, isSpace c = true) {d : Char}
    (hd : isSpace d = false) (rest : Str) :
    (blanks ++ d :: rest).dropWhile isSpace = d :: rest := by
  rw [List.dropWhile_append_of_pos hblanks, List.dropWhile_cons_of_neg (by simp [hd])]

/-- `mpz_set_str` reads the numbers of the base and nothing else. -/
theorem setStr_eq_some_iff {base : ℕ} (h₀ : base ≠ 0) (hb : base ≤ 16) (s : Str) (x : ℤ) :
    setStr base s = some x ↔ IsNumber base s x := by
  rw [setStr_eq_readDigits h₀]
  constructor
  · intro h
    have hsplit : s.takeWhile isSpace ++ s.dropWhile isSpace = s := List.takeWhile_append_dropWhile
    have hblanks : ∀ c ∈ s.takeWhile isSpace, isSpace c = true := fun c ↦ List.mem_takeWhile_imp
    rw [← hsplit]
    split_ifs at h with hneg
    · obtain ⟨v, hv, rfl⟩ := Option.map_eq_some_iff.mp h
      obtain ⟨d, rest, hcons, hd, hrest, rfl⟩ := (readDigits_eq_some_iff h₀ hb _ v).mp hv
      have hminus : s.dropWhile isSpace = '-' :: d :: rest := by
        rw [← hcons]
        exact List.eq_cons_of_mem_head? hneg
      rw [hcons, hminus]
      exact IsNumber.neg hblanks hd hrest
    · obtain ⟨v, hv, rfl⟩ := Option.map_eq_some_iff.mp h
      obtain ⟨d, rest, hcons, hd, hrest, rfl⟩ := (readDigits_eq_some_iff h₀ hb _ v).mp hv
      rw [hcons]
      exact IsNumber.pos hblanks hd hrest
  · intro h
    cases h with
    | @pos blanks rest d hblanks hd hrest =>
        have hspace : isSpace d = false := by
          refine Bool.eq_false_iff.mpr fun hspace ↦ ?_
          rw [digitVal_of_isSpace hspace] at hd
          omega
        have hminus : d ≠ '-' := by
          rintro rfl
          exact absurd (hd.trans_le hb) (by decide)
        have hread :=
          (readDigits_eq_some_iff h₀ hb (d :: rest) _).mpr ⟨d, rest, rfl, hd, hrest, rfl⟩
        rw [dropWhile_blanks hblanks hspace, if_neg (by simpa using hminus), hread]
        rfl
    | @neg blanks rest d hblanks hd hrest =>
        have hread :=
          (readDigits_eq_some_iff h₀ hb (d :: rest) _).mpr ⟨d, rest, rfl, hd, hrest, rfl⟩
        rw [dropWhile_blanks hblanks (by decide), List.head?_cons, if_pos rfl,
          List.tail_cons, hread]
        rfl

theorem strToMpz_eq_pure_iff (str : Str) (x : ℤ) :
    strToMpz str = pure x ↔ IsNumber 16 (cStr str) x := by
  rw [← setStr_eq_some_iff (by norm_num) le_rfl, strToMpz, mpzClass]
  cases setStr 16 (cStr str) with
  | some v => rw [Run.pure_inj, Option.some_inj]
  | none =>
      refine iff_of_false (fun h ↦ ?_) (Option.some_ne_none x).symm
      cases congrArg Run.out h

theorem strToMpz_eq_fault_iff (str : Str) :
    strToMpz str = Run.fault .invalidArgument ↔ ∀ x, ¬ IsNumber 16 (cStr str) x := by
  simp only [← setStr_eq_some_iff (show 16 ≠ 0 by norm_num) le_rfl]
  rw [← Option.eq_none_iff_forall_ne_some, strToMpz, mpzClass]
  cases setStr 16 (cStr str) with
  | some v =>
      refine iff_of_false (fun h ↦ ?_) (Option.some_ne_none v)
      cases congrArg Run.out h
  | none => exact iff_of_true rfl rfl

/-- **What `str_to_mpz` reads** are the hexadecimal numbers; any other text ends the process. -/
theorem strToMpz_reads_iff (str : Str) :
    (∀ x, strToMpz str = pure x ↔ IsNumber 16 (cStr str) x) ∧
      (strToMpz str = Run.fault .invalidArgument ↔ ∀ x, ¬ IsNumber 16 (cStr str) x) := by
  exact ⟨strToMpz_eq_pure_iff str, strToMpz_eq_fault_iff str⟩

/-! ## Points of the first group -/

/-- The number that `str_to_BIG` makes of a text of digits: only the first 96 are read. -/
def bigOf (s : Str) : ℕ := value 16 ((s.take 96).map digitVal)

theorem strToBIG_hex {s : Str} (h : ∀ c ∈ s, digitVal c < 16) : strToBIG s = pure (bigOf s) := by
  have hpad : ∀ c ∈ padLeft 96 s, digitVal c < 16 := by
    intro c hc
    rcases List.mem_append.mp hc with hc | hc
    · rw [List.eq_of_mem_replicate hc]
      decide
    · exact h c hc
  have hlen : 2 * 48 ≤ (padLeft 96 s).length := by
    rw [padLeft, List.length_append, List.length_replicate]
    omega
  have hdigits : ∀ d ∈ (padLeft 96 s).map digitVal, d < 16 := List.forall_mem_map.mpr hpad
  unfold strToBIG
  rw [scanBytes_hex hpad hlen, pure_bind, bigFromBytes_pieces hdigits (by rwa [List.length_map])]
  refine congrArg pure ?_
  rcases le_total s.length 96 with hle | hle
  · -- A short text stands behind zeros, and nothing is cut off.
    have hfull : ((padLeft 96 s).map digitVal).length = 2 * 48 := by
      rw [List.length_map, padLeft, List.length_append, List.length_replicate]
      omega
    rw [List.take_of_length_le hfull.le, padLeft, List.map_append, List.map_replicate, bigOf,
      List.take_of_length_le hle]
    exact value_replicate_zero_append 16 _ _
  · rw [padLeft, Nat.sub_eq_zero_of_le hle, List.replicate_zero, List.nil_append, bigOf,
      List.map_take]

namespace PointCodec

variable {ECP ECP2 : Type} (C : PointCodec ECP ECP2)

/-- **What `str_to_ECP` reads** from a text of digits: two coordinates at a comma, and without one
the same number twice.  Digits behind the 96th of a coordinate are not read. -/
theorem strToECP_reads {x : Str} (hx : ∀ c ∈ x, digitVal c < 16) :
    C.strToECP x = pure (C.ecpSet (bigOf x) (bigOf x)) ∧
      ∀ y, (∀ c ∈ y, digitVal c < 16) →
        C.strToECP (x ++ ',' :: y) = pure (C.ecpSet (bigOf x) (bigOf y)) := by
  have hcomma : ∀ c ∈ x, decide (c ≠ ',') = true := by
    intro c hc
    refine decide_eq_true fun heq ↦ ?_
    have hlt := hx c hc
    rw [heq] at hlt
    exact absurd hlt (by decide)
  have hmem : ',' ∉ x := fun h ↦ absurd (hcomma ',' h) (by decide)
  constructor
  · unfold strToECP
    rw [List.takeWhile_eq_self_iff.mpr hcomma, if_neg hmem, strToBIG_hex hx, pure_bind, pure_bind]
  · intro y hy
    have hfirst : (x ++ ',' :: y).takeWhile (· ≠ ',') = x := by
      rw [List.takeWhile_append_of_pos hcomma, List.takeWhile_cons_of_neg (by decide),
        List.append_nil]
    have hsecond : ((x ++ ',' :: y).dropWhile (· ≠ ',')).tail = y := by
      rw [List.dropWhile_append_of_pos hcomma, List.dropWhile_cons_of_neg (by decide),
        List.tail_cons]
    unfold strToECP
    rw [hfirst, if_pos (List.mem_append_right x List.mem_cons_self), hsecond, strToBIG_hex hx,
      pure_bind, strToBIG_hex hy, pure_bind]

/-- `strToECP_reads` with and without a comma, on points as exponents. -/
theorem strToECP_reads_exponents :
    exponentCodec.strToECP ['1', 'a'] = pure (exponentCodec.ecpSet 26 26) ∧
      exponentCodec.strToECP ['1', 'a', ',', 'B'] = pure (exponentCodec.ecpSet 26 11) := by
  have hx : ∀ c ∈ ['1', 'a'], digitVal c < 16 :=
    List.forall_mem_cons.mpr ⟨by decide, List.forall_mem_singleton.mpr (by decide)⟩
  obtain ⟨hwhole, hcomma⟩ := exponentCodec.strToECP_reads hx
  exact ⟨hwhole, hcomma ['B'] (List.forall_mem_singleton.mpr (by decide))⟩

end PointCodec

/-! ## Points of the second group -/

/-- The normal form of the text of an octet: upper-case digits, and an even number of them. -/
def octetText (s : Str) : Str :=
  (s.take (2 * (s.length / 2))).map fun c ↦ upperDigitChar (digitVal c)

/-- The bytes that the pairs of digits of a text stand for. -/
def octetOf (s : Str) : List UInt8 :=
  (List.range (s.length / 2)).map fun i ↦
    UInt8.ofNat (value 16 (((s.map digitVal).drop (2 * i)).take 2))

@[simp] theorem length_octetOf (s : Str) : (octetOf s).length = s.length / 2 := by
  rw [octetOf, List.length_map, List.length_range]

theorem scanBytes_octetOf {s : Str} (h : ∀ c ∈ s, digitVal c < 16) :
    scanBytes (s.length / 2) s = pure (octetOf s) :=
  scanBytes_hex h (Nat.mul_div_le s.length 2)

/-- Written again, the bytes are the normal form. -/
theorem flatMap_octetOf {s : Str} (h : ∀ c ∈ s, digitVal c < 16) :
    (octetOf s).flatMap byteHexUpper = octetText s := by
  have hdigits : ∀ d ∈ s.map digitVal, d < 16 := List.forall_mem_map.mpr h
  have htake : ((s.map digitVal).take (2 * (s.length / 2))).length = 2 * (s.length / 2) := by
    rw [List.length_take, List.length_map, min_eq_left (Nat.mul_div_le s.length 2)]
  have hpairs := flatMap_fixed_pairUp htake fun d hd ↦ hdigits d (List.mem_of_mem_take hd)
  rw [← map_toNat_pieces hdigits, List.flatMap_map] at hpairs
  have hupper := congrArg (List.map upperDigitChar) hpairs
  rw [List.map_flatMap, ← List.map_take, List.map_map] at hupper
  exact hupper

/-- Texts with one normal form are the same bytes. -/
theorem octetOf_congr {s s' : Str} (h : ∀ c ∈ s, digitVal c < 16)
    (h' : ∀ c ∈ s', digitVal c < 16) (heq : octetText s' = octetText s) :
    octetOf s' = octetOf s := by
  have hwritten := scanBytes_flatMap_byteHexUpper (octetOf s')
  rw [flatMap_octetOf h', heq, ← flatMap_octetOf h, scanBytes_flatMap_byteHexUpper,
    Run.pure_inj] at hwritten
  exact hwritten.symm

/-- The first `k` bytes are those of the first `2k` digits. -/
theorem take_octetOf (s : Str) (k : ℕ) : (octetOf s).take k = octetOf (s.take (2 * k)) := by
  have hcount : min k (s.length / 2) = (s.take (2 * k)).length / 2 := by
    rw [List.length_take]
    omega
  rw [octetOf, octetOf, ← List.map_take, List.take_range, hcount]
  refine List.map_congr_left fun i hi ↦ ?_
  rw [List.mem_range, List.length_take] at hi
  rw [List.map_take, List.drop_take, List.take_take, min_eq_left (by omega)]

/-- `ECP2_fromOctet` decides by the first byte how many it reads. -/
theorem octetSize_take (bs : List UInt8) {k : ℕ} (hk : k ≠ 0) :
    octetSize (bs.take k) = octetSize bs := by
  rw [octetSize, List.head?_take, if_neg hk, octetSize]

theorem octetSize_ne_zero (bs : List UInt8) : octetSize bs ≠ 0 := by
  rw [octetSize]
  split_ifs <;> decide

namespace PointCodec

variable {ECP ECP2 : Type} (C : PointCodec ECP ECP2)

theorem strToECP2_hex {s : Str} (h : ∀ c ∈ s, digitVal c < 16)
    (hlen : 2 * octetSize (octetOf s) ≤ s.length) :
    C.strToECP2 s = pure (C.ecp2FromOctet (octetOf (s.take (2 * octetSize (octetOf s))))) := by
  have hfits : ¬ (octetOf s).length < octetSize (octetOf s) := by
    rw [length_octetOf]
    omega
  rw [strToECP2, scanBytes_octetOf h, pure_bind, if_neg hfits, take_octetOf]

/-- **What `str_to_ECP2` reads** from a text of digits of either case that is long enough for its
first byte is the octet of the first 194 digits, or 386.  Every text that begins with these digits
in some case is the same point, and a point that the octet determines is written in the normal
form of them. -/
theorem strToECP2_reads {s : Str} (h : ∀ c ∈ s, digitVal c < 16)
    (hlen : 2 * octetSize (octetOf s) ≤ s.length) :
    let digits := 2 * octetSize (octetOf s)
    ∃ P, C.strToECP2 s = pure P ∧ P = C.ecp2FromOctet (octetOf (s.take digits)) ∧
      (C.ecp2ToOctet P = octetOf (s.take digits) → C.ecp2ToStr P = octetText (s.take digits)) ∧
      ∀ s', (∀ c ∈ s', digitVal c < 16) → octetText (s'.take digits) = octetText (s.take digits) →
        C.strToECP2 s' = pure P := by
  intro digits
  have hsome (s : Str) (h : ∀ c ∈ s, digitVal c < 16) : ∀ c ∈ s.take digits, digitVal c < 16 :=
    fun c hc ↦ h c (List.mem_of_mem_take hc)
  refine ⟨_, C.strToECP2_hex h hlen, rfl, ?_, ?_⟩
  · intro hback
    rw [ecp2ToStr, hback, flatMap_octetOf (hsome s h)]
  · intro s' h' hsame
    have hbytes : octetOf (s'.take digits) = octetOf (s.take digits) :=
      octetOf_congr (hsome s h) (hsome s' h') hsame
    -- The first byte is among those that agree, so as many bytes are read.
    have hsize : octetSize (octetOf s') = octetSize (octetOf s) := by
      rw [← octetSize_take _ (octetSize_ne_zero (octetOf s)), take_octetOf, hbytes, ← take_octetOf,
        octetSize_take _ (octetSize_ne_zero (octetOf s))]
    have hlen' : 2 * octetSize (octetOf s') ≤ s'.length := by
      have hcount := congrArg List.length hbytes
      rw [length_octetOf, length_octetOf, List.length_take, List.length_take] at hcount
      omega
    rw [C.strToECP2_hex h' hlen', hsize, hbytes]

/-- `strToECP2_reads` on 195 digits, of which the last is ignored, and on the first 194 of them in
capitals. -/
theorem strToECP2_reads_exponents :
    exponentCodec.strToECP2 (['0', '2'] ++ List.replicate 190 '0' ++ ['a', 'f', '7']) =
        pure 175 ∧
      exponentCodec.strToECP2 (['0', '2'] ++ List.replicate 190 '0' ++ ['A', 'F']) =
        pure 175 := by
  have hpair {c d : Char} (hc : digitVal c < 16) (hd : digitVal d < 16) :
      ∀ x ∈ [c, d], digitVal x < 16 :=
    List.forall_mem_cons.mpr ⟨hc, List.forall_mem_singleton.mpr hd⟩
  have hzeros : ∀ c ∈ ['0', '2'] ++ List.replicate 190 '0', digitVal c < 16 := by
    refine List.forall_mem_append.mpr ⟨hpair (by decide) (by decide), fun c hc ↦ ?_⟩
    rw [List.eq_of_mem_replicate hc]
    decide
  have hs : ∀ c ∈ ['0', '2'] ++ List.replicate 190 '0' ++ ['a', 'f', '7'], digitVal c < 16 :=
    List.forall_mem_append.mpr
      ⟨hzeros, List.forall_mem_cons.mpr ⟨by decide, hpair (by decide) (by decide)⟩⟩
  have hs' : ∀ c ∈ ['0', '2'] ++ List.replicate 190 '0' ++ ['A', 'F'], digitVal c < 16 :=
    List.forall_mem_append.mpr ⟨hzeros, hpair (by decide) (by decide)⟩
  obtain ⟨P, hread, hP, -, hall⟩ := exponentCodec.strToECP2_reads hs (by decide +kernel)
  have hvalue : P = 175 :=
    (hP.trans (congrArg Nat.cast (by decide +kernel : _ = 175))).trans Nat.cast_ofNat
  rw [← hvalue]
  exact ⟨hread, hall _ hs' (by decide +kernel)⟩

end PointCodec

end Fussion
