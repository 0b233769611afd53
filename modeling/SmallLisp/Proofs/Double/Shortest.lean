import SmallLisp.Double.Shortest
import SmallLisp.Proofs.Double.Bits

/-! # The decimal of a double is nearest to it

The search for a short decimal only stops at one that rounds to the rank it started from, so all
that is left is the exact decimal, which it falls back to. A quotient that equals a finite double
rounds to it: the double fixes the binary exponent of the quotient, and at that exponent the
quotient is a whole number of units.
-/

namespace SmallLisp

namespace Double

theorem twoTo_pos (n : Nat) : 0 < twoTo n := Nat.pow_pos (by decide)

/-- A power of two as a quotient of natural numbers. -/
theorem two_zpow (k : Int) : (2 : ℚ) ^ k = twoTo k.toNat / twoTo (-k).toNat := by
  obtain ⟨n, rfl | rfl⟩ := k.eq_nat_or_neg
  · simp [twoTo]
  · simp [twoTo]

variable {num den : Nat}

theorem zpow_le_div_iff (k : Int) (posDen : 0 < den) :
    (2 : ℚ) ^ k ≤ num / den ↔ den * twoTo k.toNat ≤ num * twoTo (-k).toNat := by
  have posDen' : (0 : ℚ) < den := by exact_mod_cast posDen
  have posTwo : (0 : ℚ) < twoTo (-k).toNat := by exact_mod_cast twoTo_pos _
  rw [two_zpow, div_le_div_iff₀ posTwo posDen', mul_comm]
  exact_mod_cast Iff.rfl

theorem div_eq_zpow_iff (m : Nat) (k : Int) (posDen : 0 < den) :
    (num : ℚ) / den = m * 2 ^ k ↔ num * twoTo (-k).toNat = m * (den * twoTo k.toNat) := by
  have posDen' : (den : ℚ) ≠ 0 := by exact_mod_cast posDen.ne'
  have posTwo : (twoTo (-k).toNat : ℚ) ≠ 0 := by exact_mod_cast (twoTo_pos _).ne'
  rw [two_zpow, mul_div_assoc', div_eq_div_iff posDen' posTwo, mul_assoc, mul_comm (twoTo _ : ℚ)]
  exact_mod_cast Iff.rfl

theorem div_lt_guess (posDen : 0 < den) :
    (num : ℚ) / den < 2 ^ ((num.log2 : Int) - den.log2 + 1) := by
  have posDen' : (0 : ℚ) < den := by exact_mod_cast posDen
  have above : (num : ℚ) < 2 ^ (num.log2 + 1) := by exact_mod_cast Nat.lt_log2_self
  have below : (2 : ℚ) ^ den.log2 ≤ den := by exact_mod_cast Nat.log2_self_le posDen.ne'
  rw [div_lt_iff₀ posDen']
  calc (num : ℚ) < 2 ^ (num.log2 + 1) := above
    _ = 2 ^ ((num.log2 : Int) - den.log2 + 1) * 2 ^ den.log2 := by
        rw [← zpow_natCast, ← zpow_natCast, ← zpow_add₀ two_ne_zero]
        congr 1
        push_cast
        omega
    _ ≤ 2 ^ ((num.log2 : Int) - den.log2 + 1) * den := by gcongr

theorem guess_lt_div (posNum : 0 < num) (posDen : 0 < den) :
    (2 : ℚ) ^ ((num.log2 : Int) - den.log2 - 1) < num / den := by
  have posDen' : (0 : ℚ) < den := by exact_mod_cast posDen
  have below : (2 : ℚ) ^ num.log2 ≤ num := by exact_mod_cast Nat.log2_self_le posNum.ne'
  have above : (den : ℚ) < 2 ^ (den.log2 + 1) := by exact_mod_cast Nat.lt_log2_self
  rw [lt_div_iff₀ posDen']
  calc (2 : ℚ) ^ ((num.log2 : Int) - den.log2 - 1) * den
      < 2 ^ ((num.log2 : Int) - den.log2 - 1) * 2 ^ (den.log2 + 1) := by gcongr
    _ = 2 ^ num.log2 := by
        rw [← zpow_natCast, ← zpow_natCast, ← zpow_add₀ two_ne_zero]
        congr 1
        push_cast
        omega
    _ ≤ num := below

/-- The binary exponent is the one of the greatest power of two that is not above the quotient. -/
theorem binaryExponent_spec (posNum : 0 < num) (posDen : 0 < den) :
    (2 : ℚ) ^ binaryExponent num den ≤ num / den ∧
      (num : ℚ) / den < 2 ^ (binaryExponent num den + 1) := by
  have above := @div_lt_guess num den posDen
  have below := guess_lt_div posNum posDen
  unfold binaryExponent
  simp only [← zpow_le_div_iff _ posDen]
  split
  · next fits => exact ⟨fits, above⟩
  · next exceeds =>
      rw [not_le] at exceeds
      exact ⟨below.le, by rwa [sub_add_cancel]⟩

theorem le_binaryExponent_iff (posNum : 0 < num) (posDen : 0 < den) (k : Int) :
    k ≤ binaryExponent num den ↔ (2 : ℚ) ^ k ≤ num / den := by
  obtain ⟨below, above⟩ := binaryExponent_spec posNum posDen
  constructor
  · intro le
    exact (zpow_le_zpow_right₀ one_le_two le).trans below
  · intro le
    have := (zpow_lt_zpow_iff_right₀ one_lt_two).mp (le.trans_lt above)
    omega

/-- A significand and an exponent as a double stores them: all digits are used unless the exponent
    is the least one. -/
structure Stored (m : Nat) (q : Int) : Prop where
  pos : 0 < m
  lt : m < 2 ^ 53
  least : -1074 ≤ q
  full : 2 ^ 52 ≤ m ∨ q = -1074

theorem roundHalfEven_mul (m : Nat) {den : Nat} (posDen : 0 < den) :
    roundHalfEven (m * den) den = m := by
  simp [roundHalfEven, Nat.mul_div_cancel _ posDen, posDen]

/-- The exponent at which an exact quotient is rounded is the one it is stored with. -/
theorem exponent_of_stored {m : Nat} {q : Int} (stored : Stored m q) (posNum : 0 < num)
    (posDen : 0 < den) (exact : (num : ℚ) / den = m * 2 ^ q) :
    max (binaryExponent num den - 52) (-1074) = q := by
  have upper : ¬ 53 + q ≤ binaryExponent num den := by
    rw [le_binaryExponent_iff posNum posDen, exact, zpow_add₀ two_ne_zero, not_le]
    have : (m : ℚ) < 2 ^ 53 := by exact_mod_cast stored.lt
    gcongr
    exact_mod_cast this
  have least := stored.least
  rcases stored.full with full | atLeast
  · have lower : 52 + q ≤ binaryExponent num den := by
      rw [le_binaryExponent_iff posNum posDen, exact, zpow_add₀ two_ne_zero]
      gcongr
      exact_mod_cast full
    omega
  · omega

/-- A quotient that equals a finite double has its rank. -/
theorem nearestRank_of_stored {m : Nat} {q : Int} (stored : Stored m q) (posDen : 0 < den)
    (exact : (num : ℚ) / den = m * 2 ^ q) :
    nearestRank num den = (q + 1074).toNat * fractionCount + m := by
  have units := (div_eq_zpow_iff m q posDen).mp exact
  have posUnit : 0 < den * twoTo q.toNat := Nat.mul_pos posDen (twoTo_pos _)
  have posNum : 0 < num := by
    apply Nat.pos_of_mul_pos_right (b := twoTo (-q).toNat)
    rw [units]
    exact Nat.mul_pos stored.pos posUnit
  rw [nearestRank, if_neg posNum.ne']
  simp only [exponent_of_stored stored posNum posDen exact, units, roundHalfEven_mul m posUnit]

theorem components_stored {rank : Nat} (pos : 0 < rank) (finite : rank < infinityRank) :
    Stored (components rank).1 (components rank).2 := by
  unfold infinityRank at finite
  simp only [components]
  have fraction : rank % fractionCount < 2 ^ 52 := Nat.mod_lt _ (by decide)
  split
  · next least =>
      unfold fractionCount at least ⊢
      exact ⟨by omega, by omega, by omega, .inr rfl⟩
  · unfold fractionCount at *
    exact ⟨by omega, by omega, by omega, .inl (by omega)⟩

theorem rank_of_components (rank : Nat) :
    ((components rank).2 + 1074).toNat * fractionCount + (components rank).1 = rank := by
  simp only [components]
  split
  · unfold fractionCount at *
    omega
  · unfold fractionCount at *
    omega

end Double

namespace Decimal

theorem tenTo_pos (n : Nat) : 0 < tenTo n := Nat.pow_pos (by decide)

/-- The number that a decimal stands for. -/
def value (d : Decimal) : ℚ := d.coefficient / tenTo d.places

theorem trimPlaces_value (coefficient places : Nat) :
    (trimPlaces coefficient places).value = coefficient / tenTo places := by
  induction places generalizing coefficient with
  | zero => rfl
  | succ places ih =>
      unfold trimPlaces
      split
      · next zero =>
          have whole : 10 * (coefficient / 10) = coefficient := by omega
          have : (coefficient : ℚ) = 10 * (coefficient / 10 : Nat) := by exact_mod_cast whole.symm
          rw [ih, this, tenTo, tenTo, Nat.pow_eq, Nat.pow_eq, pow_succ']
          push_cast
          rw [mul_div_mul_left _ _ (by norm_num)]
      · rfl

end Decimal

namespace Double

theorem exactDecimal_value (rank : Nat) :
    (exactDecimal rank).value = (components rank).1 * 2 ^ (components rank).2 := by
  unfold exactDecimal
  generalize components rank = c
  obtain ⟨m, q⟩ := c
  cases q with
  | ofNat n => simp [Decimal.value, twoTo, tenTo]
  | negSucc n =>
      simp only [Decimal.trim, Decimal.trimPlaces_value, tenTo, Nat.pow_eq]
      push_cast
      have ten : (10 : ℚ) = 2 * 5 := by norm_num
      rw [zpow_negSucc, ten, mul_pow, mul_div_mul_right _ _ (by positivity), div_eq_mul_inv]

theorem exactDecimal_nearestRank {rank : Nat} (pos : 0 < rank) (finite : rank < infinityRank) :
    (exactDecimal rank).nearestRank = rank := by
  have exact := nearestRank_of_stored (components_stored pos finite) (Decimal.tenTo_pos _)
    (exactDecimal_value rank)
  rw [Decimal.nearestRank, exact, rank_of_components]

/-! ### Short decimals -/

/-- A decimal is only taken if it rounds to the rank. -/
theorem withDigits?_nearestRank {rank num den count : Nat} {d : Decimal}
    (found : withDigits? rank num den count = some d) : d.nearestRank = rank := by
  simp only [withDigits?] at found
  split at found
  · next below above =>
      cases found
      split
      · exact beq_iff_eq.mp below
      · exact beq_iff_eq.mp above
  · next below _ =>
      cases found
      exact beq_iff_eq.mp below
  · next _ above =>
      cases found
      exact beq_iff_eq.mp above
  · cases found

theorem shortestFrom_nearestRank {rank : Nat} (exact : (exactDecimal rank).nearestRank = rank)
    (num den count tries : Nat) : (shortestFrom rank num den count tries).nearestRank = rank := by
  induction tries generalizing count with
  | zero => exact exact
  | succ tries ih =>
      unfold shortestFrom
      split
      · next found => exact withDigits?_nearestRank found
      · exact ih (count + 1)

theorem shortest_nearestRank {rank : Nat} (finite : rank < infinityRank) :
    (shortest rank).nearestRank = rank := by
  unfold shortest
  split
  · next zero =>
      rw [zero]
      rfl
  · next nonzero =>
      exact shortestFrom_nearestRank
        (exactDecimal_nearestRank (Nat.pos_of_ne_zero nonzero) finite) _ _ _ _

/-- The digits of a finite double, read with its sign, give it back. -/
theorem shortest_toDouble {x : Float} (finite : x.isFinite = true) :
    (shortest (rank x)).toDouble (isNegative x) = x := by
  have low : rank x < infinityRank := (isFinite_iff x).mp finite
  have clamped : min (rank x) largestRank = rank x := Nat.min_eq_left (Nat.le_sub_one_of_lt low)
  rw [Decimal.toDouble, shortest_nearestRank low, clamped, ofRank_rank]

end Double

end SmallLisp
