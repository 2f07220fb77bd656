import Fussion.ToolsSpec
import Fussion.Lib.Split

/-!
# The codecs of the messages

The functions of `src/Tools/brpcTools.cpp` through which every value passes that one process
sends to another: scalars as hexadecimal text, lists of scalars as decimal text that is read
back with base detection, points of the first group as two coordinates, points of the second
as the bytes of an octet.

What is used of MIRACL is collected in `PointCodec`: coordinates are reduced and fit into the 48
bytes of a `BIG`, and a compressed octet has 97 bytes, of which the first is `2` or `3`.  That a
point arrives unchanged is not assumed here; the round trips say that `carry` or `carry2` of the
point arrives.
-/

namespace Fussion

/-- The conversions of MIRACL between points and numbers or bytes. -/
structure PointCodec (ECP ECP2 : Type) where
  /-- `ECP_get`: the affine coordinates. -/
  ecpGet : ECP → ℕ × ℕ
  /-- `ECP_set`. -/
  ecpSet : ℕ → ℕ → ECP
  /-- `ECP2_toOctet`, compressed.  At infinity the coordinate is not set before it is written. -/
  ecp2ToOctet : ECP2 → List UInt8
  /-- `ECP2_fromOctet` on the bytes that it reads; what the point is set to when it fails. -/
  ecp2FromOctet : List UInt8 → ECP2
  ecpGet_lt (ecp : ECP) : (ecpGet ecp).1 < 2 ^ 384 ∧ (ecpGet ecp).2 < 2 ^ 384
  length_ecp2ToOctet (ecp2 : ECP2) : (ecp2ToOctet ecp2).length = 97
  head?_ecp2ToOctet (ecp2 : ECP2) :
    (ecp2ToOctet ecp2).head? = some 2 ∨ (ecp2ToOctet ecp2).head? = some 3

/-! ## Scalars -/

/-- The part of a `std::string` that its `c_str` shows. -/
def cStr (s : Str) : Str := s.takeWhile (· ≠ '\x00')

/-- The constructor of `mpz_class` from a text, which throws when the text is no number. -/
def mpzClass (base : ℕ) (s : Str) : Exec ℤ :=
  match setStr base (cStr s) with
  | some x => pure x
  | none => Run.fault .invalidArgument

/-- `mpz_to_str`. -/
def mpzToStr (value : ℤ) : Str := getStr 16 value

/-- `str_to_mpz`. -/
def strToMpz (str : Str) : Exec ℤ := mpzClass 16 str

/-- `mpzArr_to_str`: decimal items, each followed by a comma. -/
def mpzArrToStr (mpzs : List ℤ) : Str := mpzs.flatMap fun x ↦ getStr 10 x ++ [',']

/-- `str_to_mpzArr`: `mpz_class(item)` detects the base of the item. -/
def strToMpzArr (str : Str) : Exec (List ℤ) := (pieces ',' str).mapM (mpzClass 0)

/-! ## Points -/

/-- The two digits that `%02X` writes for a byte. -/
def byteHexUpper (b : UInt8) : Str := (fixed 16 2 b.toNat).map upperDigitChar

/-- How many bytes `ECP2_fromOctet` reads: one coordinate behind the first byte, and two when that
is `4`.  It does not look at the length of the octet. -/
def octetSize (buffer : List UInt8) : ℕ := if buffer.head? = some 4 then 193 else 97

namespace PointCodec

variable {ECP ECP2 : Type} (C : PointCodec ECP ECP2)

/-- `ECP_to_str`. -/
def ecpToStr (ecp : ECP) : Str :=
  mpzToStr (bigToMpz (C.ecpGet ecp).1) ++ ',' :: mpzToStr (bigToMpz (C.ecpGet ecp).2)

/-- `str_to_ECP`.  Without a comma `find` returns `npos`, which becomes the `int` `-1`, and both
coordinates are read from the whole text. -/
def strToECP (str : Str) : Exec ECP := do
  let x ← strToBIG (str.takeWhile (· ≠ ','))
  let y ← strToBIG (if ',' ∈ str then (str.dropWhile (· ≠ ',')).tail else str)
  pure (C.ecpSet x y)

/-- `ECP2_to_str`, in the compressed form that every caller asks for. -/
def ecp2ToStr (ecp2 : ECP2) : Str := (C.ecp2ToOctet ecp2).flatMap byteHexUpper

/-- `str_to_ECP2`.  The buffer is as long as the text allows, and `ECP2_fromOctet` reads behind its
end when that is too short. -/
def strToECP2 (hexString : Str) : Exec ECP2 := do
  let buffer ← scanBytes (hexString.length / 2) hexString
  if buffer.length < octetSize buffer then Run.fault .pastBuffer
  else pure (C.ecp2FromOctet (buffer.take (octetSize buffer)))

/-- `ECPArr_to_str`. -/
def ecpArrToStr (ecps : List ECP) : Str := [';'].intercalate (ecps.map C.ecpToStr)

/-- `str_to_ECPArr`. -/
def strToECPArr (str : Str) : Exec (List ECP) := (pieces ';' str).mapM C.strToECP

/-- `ECP2Arr_to_str`. -/
def ecp2ArrToStr (ecp2s : List ECP2) : Str := [';'].intercalate (ecp2s.map C.ecp2ToStr)

/-- `str_to_ECP2Arr`. -/
def strToECP2Arr (str : Str) : Exec (List ECP2) := (pieces ';' str).mapM C.strToECP2

/-- What arrives when a point of the first group is sent. -/
def carry (ecp : ECP) : ECP := C.ecpSet (C.ecpGet ecp).1 (C.ecpGet ecp).2

/-- What arrives when a point of the second group is sent. -/
def carry2 (ecp2 : ECP2) : ECP2 := C.ecp2FromOctet (C.ecp2ToOctet ecp2)

end PointCodec

/-! ## Round trips of scalars -/

/-- A character that is no digit and no sign does not occur in a written number. -/
theorem not_mem_getStr {b : ℕ} (h1 : 1 < b) (hb : b ≤ 16) {c : Char} (hc : digitVal c = 255)
    (hne : c ≠ '-') (x : ℤ) : c ∉ getStr b x := by
  rw [getStr_eq]
  intro hmem
  rcases List.mem_append.mp hmem with hmem | hmem
  · split_ifs at hmem
    · exact hne (List.mem_singleton.mp hmem)
    · cases hmem
  · have := digitVal_lt_of_mem_map (fun _ ↦ digitVal_digitChar)
      (fun d hd ↦ (numeral_lt h1 hd).trans_le hb) hmem
    omega

theorem not_mem_mpzToStr {c : Char} (hc : digitVal c = 255) (hne : c ≠ '-') (x : ℤ) :
    c ∉ mpzToStr x :=
  not_mem_getStr (by norm_num) (by norm_num) hc hne x

theorem cStr_of_not_mem {s : Str} (h : '\x00' ∉ s) : cStr s = s :=
  List.takeWhile_eq_self_iff.mpr fun c hc ↦ by
    simpa using fun heq : c = '\x00' ↦ h (heq ▸ hc)

theorem strToMpz_mpzToStr (x : ℤ) : strToMpz (mpzToStr x) = pure x := by
  rw [strToMpz, mpzClass, cStr_of_not_mem (not_mem_mpzToStr rfl (by decide) x), mpzToStr,
    setStr_getStr (by norm_num) (by norm_num)]

/-- The loop over `getline`. -/
theorem strToMpzArr_eq_getlineLoop (str : Str) :
    strToMpzArr str = getlineLoop ',' (mpzClass 0) str [] := by
  rw [getlineLoop_eq]
  exact (id_map _).symm

theorem mpzClass_zero_getStr (x : ℤ) : mpzClass 0 (getStr 10 x) = pure x := by
  rw [mpzClass, cStr_of_not_mem (not_mem_getStr (by norm_num) (by norm_num) rfl (by decide) x),
    setStr_zero_getStr]

/-- Lists of scalars arrive as they were sent. -/
theorem strToMpzArr_mpzArrToStr (xs : List ℤ) : strToMpzArr (mpzArrToStr xs) = pure xs := by
  have hpieces : pieces ',' (mpzArrToStr xs) = xs.map (getStr 10) := by
    rw [mpzArrToStr, ← List.flatMap_map (getStr 10) (· ++ [','])]
    refine pieces_flatMap fun l hl ↦ ?_
    obtain ⟨x, -, rfl⟩ := List.mem_map.mp hl
    exact not_mem_getStr (by norm_num) (by norm_num) rfl (by decide) x
  rw [strToMpzArr, hpieces, Run.mapM_map_eq_pure (g := id) fun x _ ↦ mpzClass_zero_getStr x,
    List.map_id]

/-- **The codec of scalar lists is lossless.** -/
theorem mpzArr_codec_lossless :
    (∀ xs, strToMpzArr (mpzArrToStr xs) = pure xs) ∧ Function.Injective mpzArrToStr := by
  exact ⟨strToMpzArr_mpzArrToStr, Run.injective_of_eq_pure strToMpzArr_mpzArrToStr⟩

/-! ## Round trips of points -/

theorem digitVal_byteHexUpper {b : UInt8} {c : Char} (h : c ∈ byteHexUpper b) : digitVal c < 16 :=
  digitVal_lt_of_mem_map (fun _ ↦ digitVal_upperDigitChar) (fun _ ↦ fixed_lt (by norm_num)) h

theorem map_digitVal_flatMap_byteHexUpper (bs : List UInt8) :
    (bs.flatMap byteHexUpper).map digitVal = (bs.map UInt8.toNat).flatMap (fixed 16 2) := by
  rw [List.map_flatMap, List.flatMap_map]
  refine congrArg bs.flatMap (funext fun b ↦ ?_)
  exact map_digitVal_map (fun _ ↦ digitVal_upperDigitChar) fun _ ↦ fixed_lt (by norm_num)

theorem length_flatMap_byteHexUpper (bs : List UInt8) :
    (bs.flatMap byteHexUpper).length = 2 * bs.length := by
  simp [List.length_flatMap, byteHexUpper, Nat.mul_comm]

/-- The bytes written with `%02X` are read back. -/
theorem scanBytes_flatMap_byteHexUpper (bs : List UInt8) :
    scanBytes ((bs.flatMap byteHexUpper).length / 2) (bs.flatMap byteHexUpper) = pure bs := by
  have hlen := length_flatMap_byteHexUpper bs
  have hdigit : ∀ c ∈ bs.flatMap byteHexUpper, digitVal c < 16 := by
    intro c hc
    obtain ⟨b, -, hc⟩ := List.mem_flatMap.mp hc
    exact digitVal_byteHexUpper hc
  have hlt : ∀ b ∈ bs.map UInt8.toNat, b < 256 := fun b ↦ lt_of_mem_map_toNat
  have hpairs := pairUp_flatMap_fixed hlt
  rw [hlen, Nat.mul_div_cancel_left _ two_pos, scanBytes_hex hdigit hlen.ge,
    map_digitVal_flatMap_byteHexUpper]
  refine congrArg pure ?_
  have hbytes := congrArg (List.map UInt8.ofNat) hpairs
  rw [pairUp, List.length_map, List.map_map, List.map_map] at hbytes
  refine hbytes.trans ?_
  calc bs.map (UInt8.ofNat ∘ UInt8.toNat) = bs.map id :=
        List.map_congr_left fun b _ ↦ UInt8.ofNat_toNat
    _ = bs := List.map_id bs

/-- The text of a `BIG` is read back as its low 48 bytes. -/
theorem strToBIG_mpzToStr_bigToMpz (x : ℕ) :
    strToBIG (mpzToStr (bigToMpz x)) = pure (x % 2 ^ 384) := by
  rw [bigToMpz_eq]
  exact strToBIG_getStr (Nat.mod_lt x (by norm_num))

namespace PointCodec

variable {ECP ECP2 : Type} (C : PointCodec ECP ECP2)

theorem strToECP_ecpToStr (ecp : ECP) : C.strToECP (C.ecpToStr ecp) = pure (C.carry ecp) := by
  have hcomma : ∀ c ∈ mpzToStr (bigToMpz (C.ecpGet ecp).1), (c ≠ ',') = True := fun c hc ↦
    eq_true fun heq ↦ not_mem_mpzToStr rfl (by decide) _ (heq ▸ hc)
  have hx : (C.ecpToStr ecp).takeWhile (· ≠ ',') = mpzToStr (bigToMpz (C.ecpGet ecp).1) := by
    rw [ecpToStr, List.takeWhile_append_of_pos (by simpa using hcomma),
      List.takeWhile_cons_of_neg (by decide), List.append_nil]
  have hy : ((C.ecpToStr ecp).dropWhile (· ≠ ',')).tail = mpzToStr (bigToMpz (C.ecpGet ecp).2) := by
    rw [ecpToStr, List.dropWhile_append_of_pos (by simpa using hcomma),
      List.dropWhile_cons_of_neg (by decide), List.tail_cons]
  have hmem : ',' ∈ C.ecpToStr ecp := List.mem_append_right _ List.mem_cons_self
  obtain ⟨hx_lt, hy_lt⟩ := C.ecpGet_lt ecp
  unfold strToECP
  rw [hx, strToBIG_mpzToStr_bigToMpz, Nat.mod_eq_of_lt hx_lt, pure_bind, if_pos hmem, hy,
    strToBIG_mpzToStr_bigToMpz, Nat.mod_eq_of_lt hy_lt, pure_bind]
  rfl

theorem octetSize_ecp2ToOctet (ecp2 : ECP2) : octetSize (C.ecp2ToOctet ecp2) = 97 := by
  refine if_neg fun h ↦ ?_
  rcases C.head?_ecp2ToOctet ecp2 with hhead | hhead <;> rw [hhead] at h <;> cases h

theorem strToECP2_ecp2ToStr (ecp2 : ECP2) :
    C.strToECP2 (C.ecp2ToStr ecp2) = pure (C.carry2 ecp2) := by
  have hlen := C.length_ecp2ToOctet ecp2
  unfold strToECP2
  rw [ecp2ToStr, scanBytes_flatMap_byteHexUpper, pure_bind, octetSize_ecp2ToOctet,
    if_neg hlen.not_lt, List.take_of_length_le hlen.le]
  rfl

/-- The loop over `find`, with the last item behind it. -/
theorem strToECPArr_eq_findLoop (str : Str) :
    C.strToECPArr str = findLoop ';' C.strToECP str [] := by
  rw [findLoop_eq]
  exact (id_map _).symm

theorem strToECP2Arr_eq_findLoop (str : Str) :
    C.strToECP2Arr str = findLoop ';' C.strToECP2 str [] := by
  rw [findLoop_eq]
  exact (id_map _).symm

/-- Lists of points of the first group arrive item by item. -/
theorem strToECPArr_ecpArrToStr (ecps : List ECP) :
    C.strToECPArr (C.ecpArrToStr ecps) = pure (ecps.map C.carry) := by
  rw [strToECPArr, ecpArrToStr, pieces_intercalate,
    Run.mapM_map_eq_pure fun ecp _ ↦ C.strToECP_ecpToStr ecp]
  · intro l hl
    obtain ⟨ecp, -, rfl⟩ := List.mem_map.mp hl
    have hnum : ∀ x : ℤ, ';' ∉ mpzToStr x := not_mem_mpzToStr rfl (by decide)
    simp [ecpToStr, hnum]
  · intro l hl
    obtain ⟨ecp, -, rfl⟩ := List.mem_map.mp hl
    exact List.append_ne_nil_of_right_ne_nil _ (List.cons_ne_nil _ _)

/-- Lists of points of the second group arrive item by item. -/
theorem strToECP2Arr_ecp2ArrToStr (ecp2s : List ECP2) :
    C.strToECP2Arr (C.ecp2ArrToStr ecp2s) = pure (ecp2s.map C.carry2) := by
  rw [strToECP2Arr, ecp2ArrToStr, pieces_intercalate,
    Run.mapM_map_eq_pure fun ecp2 _ ↦ C.strToECP2_ecp2ToStr ecp2]
  · intro l hl hmem
    obtain ⟨ecp2, -, rfl⟩ := List.mem_map.mp hl
    obtain ⟨b, -, hc⟩ := List.mem_flatMap.mp hmem
    exact absurd (digitVal_byteHexUpper hc) (by decide)
  · intro l hl hnil
    obtain ⟨ecp2, -, rfl⟩ := List.mem_map.mp hl
    have hlen := congrArg List.length hnil
    rw [ecp2ToStr, length_flatMap_byteHexUpper, C.length_ecp2ToOctet] at hlen
    cases hlen

end PointCodec

/-! ## A codec for points as exponents -/

/-- Points written as their exponents: in the first coordinate, or in the second half of the one
that follows the `2` of an octet. -/
def exponentCodec : PointCodec (ZMod curveOrder) (ZMod curveOrder) where
  ecpGet P := (P.val, 0)
  ecpSet x _ := x
  ecp2ToOctet P := 2 :: (List.replicate 48 0 ++ bigToBytes P.val)
  ecp2FromOctet bytes := bigFromBytes bytes.tail
  ecpGet_lt P := ⟨(ZMod.val_lt P).trans curveOrder_lt_big, by norm_num⟩
  length_ecp2ToOctet P := by
    rw [List.length_cons, List.length_append, List.length_replicate, length_bigToBytes]
  head?_ecp2ToOctet _ := Or.inl rfl

@[simp] theorem carry_exponentCodec (P : ZMod curveOrder) : exponentCodec.carry P = P :=
  ZMod.natCast_zmod_val P

@[simp] theorem carry2_exponentCodec (P : ZMod curveOrder) : exponentCodec.carry2 P = P := by
  have hzeros (bs : List UInt8) : bigFromBytes (List.replicate 48 0 ++ bs) = bigFromBytes bs := by
    rw [bigFromBytes, List.map_append, List.map_replicate, UInt8.toNat_zero,
      value_replicate_zero_append, bigFromBytes]
  have hlt : P.val < 2 ^ 384 := (ZMod.val_lt P).trans curveOrder_lt_big
  change ((bigFromBytes (List.replicate 48 0 ++ bigToBytes P.val) : ℕ) : ZMod curveOrder) = P
  rw [hzeros, bigFromBytes_bigToBytes, Nat.mod_eq_of_lt hlt, ZMod.natCast_zmod_val]

/-! ## Lossless codecs -/

namespace PointCodec

variable {ECP ECP2 : Type}

/-- **The codec of point lists of the first group is lossless** on points other than infinity, as
far as `ECP_set` undoes `ECP_get`. -/
theorem ecpArr_codec_lossless [Zero ECP] (C : PointCodec ECP ECP2)
    (hset : ∀ P : ECP, P ≠ 0 → C.ecpSet (C.ecpGet P).1 (C.ecpGet P).2 = P) (ps : List ECP)
    (hps : ∀ P ∈ ps, P ≠ 0) : C.strToECPArr (C.ecpArrToStr ps) = pure ps := by
  have hcarry : ps.map C.carry = ps.map id := List.map_congr_left fun P hP ↦ hset P (hps P hP)
  rw [strToECPArr_ecpArrToStr, hcarry, List.map_id]

/-- `ecpArr_codec_lossless` on two points written as exponents. -/
theorem ecpArr_codec_lossless_exponents :
    exponentCodec.strToECPArr (exponentCodec.ecpArrToStr [1, 1]) = pure [1, 1] :=
  exponentCodec.ecpArr_codec_lossless (fun P _ ↦ carry_exponentCodec P) [1, 1] fun P hP ↦ by
    have hP : P = 1 := by simpa using hP
    exact hP ▸ one_ne_zero

/-- **The codec of point lists of the second group is lossless**, as far as `ECP2_fromOctet` undoes
`ECP2_toOctet` on the points that are sent. -/
theorem ecp2Arr_codec_lossless (C : PointCodec ECP ECP2) (ps : List ECP2)
    (hoctet : ∀ P ∈ ps, C.ecp2FromOctet (C.ecp2ToOctet P) = P) :
    C.strToECP2Arr (C.ecp2ArrToStr ps) = pure ps := by
  have hcarry : ps.map C.carry2 = ps.map id := List.map_congr_left hoctet
  rw [strToECP2Arr_ecp2ArrToStr, hcarry, List.map_id]

/-- `ecp2Arr_codec_lossless` on three points written as exponents. -/
theorem ecp2Arr_codec_lossless_exponents :
    exponentCodec.strToECP2Arr (exponentCodec.ecp2ArrToStr [3, 1, 2]) = pure [3, 1, 2] :=
  exponentCodec.ecp2Arr_codec_lossless [3, 1, 2] fun P _ ↦ carry2_exponentCodec P

end PointCodec

end Fussion
