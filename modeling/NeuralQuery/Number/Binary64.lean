import NeuralQuery.Number.Integer

/-!
# NeuralQuery.Number.Binary64

Decimal fractions as IEEE 754 binary64 values. A decimal is read exactly, as a natural number
times a power of ten, and rounded once, to the nearest representable value with ties to the even
significand. Values too large become infinite and values too small become zero, with the sign
kept.
-/

namespace NeuralQuery

/-- A binary64 value, by its bits. -/
structure Binary64 where
  bits : UInt64
  deriving DecidableEq, Repr, Inhabited

namespace Number

/-- The quotient rounded to the nearest natural number, a tie to the even one. -/
def roundDiv (num den : Nat) : Nat :=
  let q := num / den
  let r := num % den
  if 2 * r < den ∨ (2 * r = den ∧ q % 2 = 0) then q else q + 1

/-- The largest `e` with `2 ^ e ≤ num / den`, for positive `num` and `den`. -/
def binaryExponent (num den : Nat) : Int :=
  let e : Int := (Nat.log2 num : Int) - Nat.log2 den
  if num <<< (-e).toNat < den <<< e.toNat then e - 1 else e

/-- The bits of the positive value nearest to `num / den`. The significand is a whole number of
units `2 ^ unit`; adding it to the exponent field also carries a significand that rounds up to the
next power of two, and covers the subnormal values, whose unit is the least one. -/
def ratioBits (num den : Nat) : Nat :=
  let unit := max (binaryExponent num den - 52) (-1074)
  let significand := roundDiv (num <<< (-unit).toNat) (den <<< unit.toNat)
  min (((unit + 1074).toNat <<< 52) + significand) (0x7FF <<< 52)

/-- The bits of `digits * 10 ^ exponent`. Far out of range the value is decided by its number of
digits, so a huge exponent costs nothing. -/
def decimalBits (digits : Nat) (exponent : Int) : Nat :=
  let magnitude := (Nat.toDigits 10 digits).length + exponent
  if digits = 0 then 0
  else if magnitude > 310 then 0x7FF <<< 52
  else if magnitude < -330 then 0
  else ratioBits (digits * Nat.pow 10 exponent.toNat) (Nat.pow 10 (-exponent).toNat)

/-- An exponent mark with its integer; the empty text is the exponent zero. -/
def exponent? : List Char → Option Int
  | [] => some 0
  | c :: cs => if c = 'e' ∨ c = 'E' then integer? cs else none

/-- An unsigned decimal: digits with at most one point among or around them, and an exponent. -/
def magnitudeBits? (cs : List Char) : Option Nat :=
  let whole := cs.takeWhile Char.isDigit
  let (fraction, rest) :=
    match cs.dropWhile Char.isDigit with
    | '.' :: ds => (ds.takeWhile Char.isDigit, ds.dropWhile Char.isDigit)
    | ds => ([], ds)
  if whole.isEmpty && fraction.isEmpty then none
  else
    match exponent? rest with
    | some e => some (decimalBits (Nat.ofDigitChars 10 (whole ++ fraction) 0) (e - fraction.length))
    | none => none

/-- A decimal fraction with an optional sign, rounded to the nearest binary64 value. -/
def binary64? (text : String) : Option Binary64 :=
  let signBit := 1 <<< 63
  match text.toList with
  | '-' :: cs => (magnitudeBits? cs).map fun n => ⟨UInt64.ofNat (signBit + n)⟩
  | '+' :: cs => (magnitudeBits? cs).map fun n => ⟨UInt64.ofNat n⟩
  | cs => (magnitudeBits? cs).map fun n => ⟨UInt64.ofNat n⟩

end Number
end NeuralQuery
