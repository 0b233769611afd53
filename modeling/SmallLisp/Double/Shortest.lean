import SmallLisp.Double.Nearest

/-! # The shortest decimal of a double

A finite double is written with the fewest significant digits whose nearest double it is, and of two
such decimals with the nearer one; a decimal halfway gives way to the greater one. Seventeen digits
are always enough. -/

namespace SmallLisp.Double

/-- A number of places that brings a positive quotient to one at least. -/
def placesToOne (num den : Nat) : Nat := den.log2 + 1 - num.log2

/-- The number of digits that a positive quotient has before its point; zero or negative when its
    first digit stands after the point. -/
def wholeDigits (num den : Nat) : Int :=
  let places := placesToOne num den
  ((Nat.toDigits 10 (num * tenTo places / den)).length : Int) - places

/-- The decimal of `count` significant digits nearest to `num / den` among those that round to
    `rank`. -/
def withDigits? (rank num den count : Nat) : Option Decimal :=
  let exponent := wholeDigits num den - count
  let num := num * tenTo (-exponent).toNat
  let den := den * tenTo exponent.toNat
  let below := (Decimal.scaled (num / den) exponent).trim
  let above := (Decimal.scaled (num / den + 1) exponent).trim
  match below.nearestRank == rank, above.nearestRank == rank with
  | true, true => some (if 2 * (num % den) < den then below else above)
  | true, false => some below
  | false, true => some above
  | false, false => none

/-- The decimal that equals a finite double. -/
def exactDecimal (rank : Nat) : Decimal :=
  let (significand, exponent) := components rank
  match exponent with
  | .ofNat n => ⟨significand * twoTo n, 0⟩
  | .negSucc n => (Decimal.mk (significand * Nat.pow 5 (n + 1)) (n + 1)).trim

/-- Try `count` significant digits, then more, `tries` times in all. -/
def shortestFrom (rank num den count : Nat) : Nat → Decimal
  | 0 => exactDecimal rank
  | tries + 1 =>
      match withDigits? rank num den count with
      | some d => d
      | none => shortestFrom rank num den (count + 1) tries

def shortest (rank : Nat) : Decimal :=
  if rank = 0 then ⟨0, 0⟩
  else
    let (num, den) := ratio rank
    shortestFrom rank num den 1 17

/-- A number as text: never an exponent, no point without digits after it, and a sign on a negative
    zero. -/
def toText (x : Float) : String :=
  let sign := if isNegative x then "-" else ""
  if infinityRank < rank x then "NaN"
  else if rank x = infinityRank then sign ++ "inf"
  else sign ++ String.ofList (shortest (rank x)).toText

end SmallLisp.Double
