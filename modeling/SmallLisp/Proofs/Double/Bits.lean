import Mathlib
import SmallLisp.Double.Rank

/-! # Doubles and their ranks

A double is determined by its sign and its rank. The finite doubles are those whose rank is below
that of infinity, and each of them equals itself.
-/

namespace SmallLisp.Double

open Float.Model (Format)
open Float.Model.UnpackedFloat

/-- A double is the one of its sign and rank. -/
theorem ofRank_rank (x : Float) : ofRank (isNegative x) (rank x) = x := by
  have bound : x.toBits.toNat < 2 * signBit := x.toBits.toNat_lt
  have parts : (rank x + if isNegative x then signBit else 0) = x.toBits.toNat := by
    simp only [rank, isNegative, decide_eq_true_eq]
    unfold signBit at bound ⊢
    split <;> omega
  rw [ofRank, parts, UInt64.ofNat_toNat, Float.ofBits_toBits]

theorem isFinite_unpack (b : BitVec Format.binary64.numBits) :
    (unpack .binary64 b).isFinite = true ↔ unpackExponent b ≠ -1#11 := by
  rw [unpack]
  split
  · next top =>
      split <;> simp [isFinite, top]
  · next low =>
      refine ⟨fun _ => low, fun _ => ?_⟩
      split
      · split <;> rfl
      · rfl

theorem toNat_unpackExponent (b : BitVec 64) :
    (@unpackExponent .binary64 b).toNat = b.toNat / fractionCount % 2048 := by
  rw [unpackExponent_def, BitVec.extractLsb'_toNat, Nat.shiftRight_eq_div_pow]
  rfl

theorem unpackExponent_ne_iff (b : BitVec 64) :
    @unpackExponent .binary64 b ≠ -1#11 ↔ b.toNat % signBit < infinityRank := by
  have bound : b.toNat < 2 * signBit := b.isLt
  rw [ne_eq, ← BitVec.toNat_inj, toNat_unpackExponent]
  have top : (-1#11).toNat = 2047 := rfl
  rw [top]
  unfold fractionCount signBit infinityRank at *
  omega

/-- The finite doubles have the ranks below that of infinity. -/
theorem isFinite_iff (x : Float) : x.isFinite = true ↔ rank x < infinityRank :=
  (isFinite_unpack _).trans (unpackExponent_ne_iff x.toBits.toBitVec)

theorem isFinite_ofRank (negative : Bool) {rank : Nat} (finite : rank < infinityRank) :
    (ofRank negative rank).isFinite = true := by
  have bits : (UInt64.ofNat (rank + if negative then signBit else 0)).toNat =
      rank + if negative then signBit else 0 := by
    apply UInt64.toNat_ofNat_of_lt'
    have size : UInt64.size = 2 * signBit := rfl
    unfold infinityRank signBit at *
    split <;> omega
  unfold ofRank
  generalize UInt64.ofNat (rank + if negative then signBit else 0) = b at bits
  have low : @unpackExponent .binary64 b.toBitVec ≠ -1#11 := by
    rw [unpackExponent_ne_iff, UInt64.toNat_toBitVec, bits]
    unfold infinityRank signBit at *
    split <;> omega
  have kept : (unpack .binary64 b.toBitVec).pack .binary64 = b.toBitVec :=
    pack_unpack_of_valid ⟨fun top => absurd top low⟩
  show (unpack .binary64 ((unpack .binary64 b.toBitVec).pack .binary64)).isFinite = true
  rw [kept]
  exact (isFinite_unpack _).mpr low

/-- A finite double is equal to itself. -/
theorem beq_self {x : Float} (finite : x.isFinite = true) : (x == x) = true := by
  refine Float.beq_self_iff.mpr ?_
  rintro rfl
  exact absurd finite (by decide)

end SmallLisp.Double
