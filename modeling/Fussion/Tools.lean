import Fussion.Lib.Run
import Fussion.Lib.Digits
import Fussion.Order
import Mathlib.Algebra.Module.ZMod

/-!
# The tools of the scheme

The functions of `src/Tools/Tools.cpp` that the scheme calls, under their own names.  An
`mpz_class` is an `ℤ`, its `%` the truncating remainder; a `BIG` is its value, a natural number
that `BIG_toBytes` cuts to 48 bytes; a `std::string` is its list of characters.

## What is assumed

MIRACL and GMP are not part of the repository.

* `Miracl` collects what is used of MIRACL: the two generators, the pairing and the hash.
  The points form additive groups in which `ECP_mul` is scalar multiplication; that their
  order divides `curveOrder` is said by a module structure over `ZMod curveOrder` wherever a
  result needs it, and bilinearity of the pairing is a field.  The hash is an arbitrary function.
* `mpz_powm` and `mpz_invert` are exact.  Where the inverse does not exist `invert_mpz`
  returns `0`, as its comment in `include/Tools.h` says.  Every call of `invert_mpz` is logged
  with its arguments.
-/

namespace Fussion

/-- A `std::string`. -/
abbrev Str := List Char

/-- Ways in which a call can end without returning. -/
inductive Fault
  | /-- A subscript outside its vector. -/ outOfRange
  | /-- The divide-by-zero trap of GMP. -/ divideByZero
  | /-- `std::invalid_argument`, thrown by the constructors of `mpz_class`. -/ invalidArgument
  | /-- A byte that `sscanf` did not set is used. -/ unsetByte
  | /-- A read behind the end of a buffer. -/ pastBuffer
deriving DecidableEq, Repr

/-- The arguments of one call of `invert_mpz`. -/
structure InvertCall where
  /-- The number to be inverted. -/
  a : ℤ
  /-- The modulus. -/
  m : ℤ
deriving DecidableEq, Repr

/-- A call of the program. -/
abbrev Exec (A : Type) := Run InvertCall Fault A

/-- `v[i]` for a `std::vector`. -/
def subscript {A : Type} (v : List A) (i : ℤ) : Exec A := Run.index .outOfRange v i

/-- What the code uses of MIRACL, over the points of the two curve groups and the field
elements the pairing takes its values in. -/
structure Miracl (ECP ECP2 FP12 : Type) [AddCommGroup ECP] [AddCommGroup ECP2]
    [CommGroup FP12] where
  /-- `ECP_generator`. -/
  generator : ECP
  /-- `ECP2_generator`. -/
  generator2 : ECP2
  /-- `PAIR_ate`, `PAIR_fexp` and `FP12_reduce`, the body of `e`. -/
  e : ECP → ECP2 → FP12
  /-- `HASH256_init`, `HASH256_process` on every byte, and `HASH256_hash`. -/
  hash256 : List UInt8 → Vector UInt8 32
  /-- The pairing is additive in the first point. -/
  e_add_left : ∀ P Q R, e (P + Q) R = e P R * e Q R
  /-- The pairing is additive in the second point. -/
  e_add_right : ∀ P Q R, e P (Q + R) = e P Q * e P R

/-! ## Random numbers, powers, inverses -/

/-- `rand_mpz`: `mpz_urandomm` gives a residue below the order, and `1` is added.  The largest
value is the order itself. -/
def randMpz (r : Fin curveOrder) : ℤ := r + 1

/-- `%` of `mpz_class`: the remainder truncates toward zero, and a zero divisor traps. -/
def remMpz (a m : ℤ) : Exec ℤ := if m = 0 then Run.fault .divideByZero else pure (a.tmod m)

/-- `pow_mpz`, which is `mpz_powm`: the result lies in `[0, |mod|)`; a negative exponent
inverts the base first, and traps when that is impossible. -/
def powMpz (base exp mod : ℤ) : Exec ℤ :=
  if mod = 0 then Run.fault .divideByZero
  else if 0 ≤ exp then
    pure (modPow mod.natAbs (base % mod.natAbs).toNat exp.toNat)
  else if base.gcd mod = 1 then
    pure (modPow mod.natAbs (modInv base mod.natAbs).toNat (-exp).toNat)
  else Run.fault .divideByZero

/-- `invert_mpz`. -/
def invertMpz (a m : ℤ) : Exec ℤ := do
  Run.tell ⟨a, m⟩
  pure (modInv a m)

/-! ## Numbers as text -/

/-- `isspace`. -/
def isSpace (c : Char) : Bool := c ∈ [' ', '\t', '\n', '\x0b', '\x0c', '\r']

/-- `get_str(base)` of an `mpz_class`: a sign, and lower-case digits without leading zeros. -/
def getStr (base : ℕ) (x : ℤ) : Str :=
  (if x < 0 then ['-'] else []) ++ (numeral base x.natAbs).map Nat.digitChar

/-- The base that a leading `0x`, `0b` or `0` announces, and the text behind it. -/
def detectBase : Str → ℕ × Str
  | '0' :: 'x' :: r | '0' :: 'X' :: r => (16, r)
  | '0' :: 'b' :: r | '0' :: 'B' :: r => (2, r)
  | '0' :: r => (8, r)
  | r => (10, r)

/-- `mpz_set_str`: blanks are skipped, a minus sign may lead, a first character that is no
digit is an error, and base `0` detects the base from the text. -/
def setStr (base : ℕ) (s : Str) : Option ℤ :=
  let s := s.dropWhile isSpace
  let neg : Bool := s.head? = some '-'
  let s := if neg then s.tail else s
  if (s.head?.elim 255 digitVal) ≥ (if base = 0 then 10 else base) then none
  else
    let p := if base = 0 then detectBase s else (base, s)
    let ds := ((p.2.dropWhile fun c ↦ c = '0' || isSpace c).filter fun c ↦ !isSpace c).map digitVal
    if ds.all (· < p.1) then
      some (if neg then -(value p.1 ds : ℤ) else value p.1 ds)
    else none

/-- `strtol(s, nullptr, 16)`: blanks, a sign, and the value of the digits up to the first
character that is none. -/
def strtol16 (s : Str) : ℤ :=
  let digitsOf (r : Str) : ℤ := value 16 ((r.takeWhile fun c ↦ digitVal c < 16).map digitVal)
  match s.dropWhile isSpace with
  | '-' :: r => -digitsOf r
  | '+' :: r => digitsOf r
  | r => digitsOf r

/-! ## `BIG` -/

/-- `BIG_toBytes`: 48 bytes, most significant first. -/
def bigToBytes (x : ℕ) : List UInt8 := (fixed 256 48 x).map UInt8.ofNat

/-- `BIG_fromBytesLen`, and `BIG_fromBytes` on 48 bytes. -/
def bigFromBytes (bs : List UInt8) : ℕ := value 256 (bs.map UInt8.toNat)

/-- The two digits that `setw(2) << setfill('0') << hex` writes for a byte. -/
def byteHex (b : UInt8) : Str := (fixed 16 2 b.toNat).map Nat.digitChar

/-- `charsToString`. -/
def charsToString (ch : List UInt8) : Str := ch.flatMap byteHex

/-- `BIG_to_mpz`: `set_str` leaves the number `0` when it fails. -/
def bigToMpz (big : ℕ) : ℤ := (setStr 16 (charsToString (bigToBytes big))).getD 0

/-- Fill up with `'0'` on the left to length `k`; a longer text stays as it is. -/
def padLeft (k : ℕ) (s : Str) : Str := List.replicate (k - s.length) '0' ++ s

/-- `mpz_to_BIG`: the digits are filled up to 64, and the first 32 pairs are the bytes. -/
def mpzToBIG (t : ℤ) : ℕ :=
  let hexStr := padLeft 64 (getStr 16 t)
  bigFromBytes ((List.range 32).map fun i ↦
    UInt8.ofNat (strtol16 ((hexStr.drop (2 * i)).take 2) % 256).toNat)

/-- `sscanf(s, "%2hhx", ..)` on a piece of at most two characters: blanks and a sign may lead,
and nothing is stored when no digit follows them. -/
def scanByte (s : Str) : Exec UInt8 :=
  let r := s.dropWhile isSpace
  let r := if r.head? = some '-' ∨ r.head? = some '+' then r.tail else r
  if (r.head?.elim 255 digitVal) < 16 then pure (UInt8.ofNat (strtol16 s % 256).toNat)
  else Run.fault .unsetByte

/-- The loop that reads the bytes `i < k` from the pieces `s.substr(2 * i, 2)`. -/
def scanBytes (k : ℕ) (s : Str) : Exec (List UInt8) :=
  Run.upTo k (fun i bs ↦ do
    let b ← scanByte ((s.drop (2 * i)).take 2)
    pure (bs ++ [b])) []

/-- `str_to_BIG`: the digits are filled up to 96, and the first 48 pairs are the bytes. -/
def strToBIG (hexString : Str) : Exec ℕ := do
  let bytes ← scanBytes 48 (padLeft 96 hexString)
  pure (bigFromBytes bytes)

/-! ## Points and hashes -/

/-- `ECP_mul` and `ECP2_mul` by an `mpz_class`. -/
def ecpMul {P : Type} [AddCommGroup P] (p : P) (t : ℤ) : P := mpzToBIG t • p

namespace Miracl

variable {ECP ECP2 FP12 : Type} [AddCommGroup ECP] [AddCommGroup ECP2] [CommGroup FP12]
variable (M : Miracl ECP ECP2 FP12)

/-- `hashZp256`: the 32 hash bytes stand in front of 16 zero bytes. -/
def hashZp256 (ct : List UInt8) (q : ℕ) : ℕ :=
  bigFromBytes ((M.hash256 ct).toList ++ List.replicate 16 0) % q

/-- `hashToZp256` on `BIG`s. -/
def hashToZp256Big (beHashed q : ℕ) : ℕ := M.hashZp256 (bigToBytes beHashed) q

/-- `hashToZp256` on `mpz_class`es. -/
def hashToZp256 (beHashed q : ℤ) : ℤ :=
  bigToMpz (M.hashToZp256Big (mpzToBIG beHashed) (mpzToBIG q))

/-- `hashToPoint` on `BIG`s: a multiple of the generator. -/
def hashToPointBig (big q : ℕ) : ECP := M.hashToZp256Big big q • M.generator

/-- `hashToPoint` on `mpz_class`es. -/
def hashToPoint (big q : ℤ) : ECP := M.hashToPointBig (mpzToBIG big) (mpzToBIG q)

end Miracl

end Fussion
