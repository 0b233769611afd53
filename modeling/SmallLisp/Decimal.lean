/-! # Decimal numerals

A numeral without a sign is a row of digits of which the last `places` stand after a point. Reading
`whole.fraction` and writing it back are inverse on digits, so a `Decimal` keeps its places even
where they are zeros. -/

namespace SmallLisp

def tenTo (n : Nat) : Nat := Nat.pow 10 n

/-- The number `coefficient / 10 ^ places`, written with `places` digits after the point. -/
structure Decimal where
  coefficient : Nat
  places : Nat
  deriving DecidableEq, Repr

namespace Decimal

/-- The decimal written `whole.fraction`. -/
def ofDigits (whole fraction : List Char) : Decimal :=
  ⟨Nat.ofDigitChars 10 (whole ++ fraction) 0, fraction.length⟩

/-- The decimal `coefficient * 10 ^ exponent`. -/
def scaled (coefficient : Nat) : Int → Decimal
  | .ofNat n => ⟨coefficient * tenTo n, 0⟩
  | .negSucc n => ⟨coefficient, n + 1⟩

/-- Drop the zeros that end the fraction. -/
def trimPlaces (coefficient : Nat) : Nat → Decimal
  | 0 => ⟨coefficient, 0⟩
  | places + 1 =>
      if coefficient % 10 = 0 then trimPlaces (coefficient / 10) places
      else ⟨coefficient, places + 1⟩

def trim (d : Decimal) : Decimal :=
  trimPlaces d.coefficient d.places

/-- The digits of the coefficient, with zeros in front so that one digit at least stands before
    the point. -/
def digits (d : Decimal) : List Char :=
  let row := Nat.toDigits 10 d.coefficient
  List.replicate (d.places + 1 - row.length) '0' ++ row

/-- The numeral: the point is written only when digits follow it. -/
def toText (d : Decimal) : List Char :=
  let row := d.digits
  let whole := row.length - d.places
  if d.places = 0 then row else row.take whole ++ '.' :: row.drop whole

end Decimal

end SmallLisp
