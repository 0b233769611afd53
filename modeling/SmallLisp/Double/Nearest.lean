import SmallLisp.Decimal
import SmallLisp.Double.Rank

/-! # The double nearest to a decimal

A quotient is rounded to the nearest double, and to the one with the even significand when it lies
halfway between two. Doubles are counted by rank, so a significand that rounds up to the next power
of two needs no case of its own: the rank carries. -/

namespace SmallLisp.Double

/-- The natural number nearest to a quotient, the even one of two that are equally near. -/
def roundHalfEven (num den : Nat) : Nat :=
  let quotient := num / den
  let rest := num % den
  if 2 * rest < den then quotient
  else if den < 2 * rest then quotient + 1
  else quotient + quotient % 2

/-- The exponent `k` of a positive quotient: `2 ^ k ≤ num / den < 2 ^ (k + 1)`. -/
def binaryExponent (num den : Nat) : Int :=
  let guess : Int := (num.log2 : Int) - den.log2
  if den * twoTo guess.toNat ≤ num * twoTo (-guess).toNat then guess else guess - 1

/-- The rank of the double nearest to a quotient. It reaches `infinityRank` for quotients beyond
    the largest finite double. -/
def nearestRank (num den : Nat) : Nat :=
  if num = 0 then 0
  else
    let exponent := max (binaryExponent num den - 52) (-1074)
    let significand := roundHalfEven (num * twoTo (-exponent).toNat) (den * twoTo exponent.toNat)
    (exponent + 1074).toNat * fractionCount + significand

end SmallLisp.Double

namespace SmallLisp.Decimal

def nearestRank (d : Decimal) : Nat :=
  Double.nearestRank d.coefficient (tenTo d.places)

/-- The double that a numeral stands for. Numerals beyond the largest finite double stand for that
    double. -/
def toDouble (negative : Bool) (d : Decimal) : Float :=
  Double.ofRank negative (min d.nearestRank Double.largestRank)

end SmallLisp.Decimal
