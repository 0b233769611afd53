/-! # Doubles by rank

The bits of a double below its sign bit, read as a number, give its place among the non-negative
doubles in increasing order: `0` has rank zero, the least positive double rank one, and infinity
stands after the largest finite one. -/

namespace SmallLisp.Double

def twoTo (n : Nat) : Nat := Nat.pow 2 n

/-- The sign bit, `2 ^ 63`. -/
def signBit : Nat := 0x8000000000000000

/-- The number of doubles with the same exponent, `2 ^ 52`. -/
def fractionCount : Nat := 0x10000000000000

/-- The rank of infinity. Greater ranks are not numbers. -/
def infinityRank : Nat := 0x7FF0000000000000

def largestRank : Nat := infinityRank - 1

/-- The rank of the absolute value. -/
def rank (x : Float) : Nat := x.toBits.toNat % signBit

def isNegative (x : Float) : Bool := signBit ≤ x.toBits.toNat

def ofRank (negative : Bool) (rank : Nat) : Float :=
  Float.ofBits (UInt64.ofNat (rank + if negative then signBit else 0))

/-- The significand `m` and the exponent `q` of the finite double `m * 2 ^ q` of this rank. -/
def components (rank : Nat) : Nat × Int :=
  let exponent : Nat := rank / fractionCount
  let fraction := rank % fractionCount
  if exponent = 0 then (fraction, -1074) else (fraction + fractionCount, (exponent : Int) - 1075)

/-- The finite double of this rank as a quotient of natural numbers. -/
def ratio (rank : Nat) : Nat × Nat :=
  let (significand, exponent) := components rank
  (significand * twoTo exponent.toNat, twoTo (-exponent).toNat)

end SmallLisp.Double
