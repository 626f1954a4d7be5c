import Mathlib
import Mdao.Vec

/-!
# Exact arithmetic

Theorems that hold of a computation only up to rounding are stated over numbers without rounding:
an `ExactScalar` is an ordered field whose scalar operations are those of the field. The order in
which a sum is formed does not matter there (`Vec.sum_eq`), every number is finite, and equality is
decided. Square roots are only known not to be negative and to be zero at zero, so the rational
numbers are exact.
-/

namespace Mdao

/-- An ordered field whose operations, as a type of scalars, have no rounding. -/
class ExactScalar (α : Type) extends Scalar α, Field α, LinearOrder α, IsStrictOrderedRing α where
  /-- The Boolean test decides equality. -/
  beq_iff : ∀ x y : α, (x == y) = true ↔ x = y
  /-- The magnitude is the absolute value of the field. -/
  abs_eq : ∀ x : α, Scalar.abs x = |x|
  /-- Literals in decimal notation are the rational numbers they denote. -/
  ofScientific_eq : ∀ (m : Nat) (s : Bool) (e : Nat),
    (OfScientific.ofScientific m s e : α) = ((OfScientific.ofScientific m s e : ℚ) : α)
  /-- Every number is a proper number. -/
  isFinite_eq : ∀ x : α, Scalar.isFinite x = true
  /-- No number is undefined. -/
  isUndefined_eq : ∀ x : α, Scalar.isUndefined x = false
  /-- The root of zero is zero. -/
  sqrt_zero : Scalar.sqrt (0 : α) = 0
  /-- No root is negative. -/
  sqrt_nonneg : ∀ x : α, 0 ≤ Scalar.sqrt x

/-- The square root of a rational number, rounded down to a multiple of the reciprocal of its
denominator; the root of a square is exact. -/
def rootBelow (x : ℚ) : ℚ := (Nat.sqrt (x.num.toNat * x.den) : ℚ) / (x.den : ℚ)

instance : Scalar ℚ where
  decLt := inferInstance
  decLe := inferInstance
  abs x := |x|
  sqrt := rootBelow
  hypot x y := rootBelow (x * x + y * y)
  isFinite _ := true
  isUndefined _ := false
  lowest? := none
  highest? := none
  totalLe x y := decide (x ≤ y)

instance : ExactScalar ℚ where
  __ := (inferInstance : Scalar ℚ)
  __ := (inferInstance : Field ℚ)
  __ := (inferInstance : LinearOrder ℚ)
  __ := (inferInstance : IsStrictOrderedRing ℚ)
  beq_iff _ _ := beq_iff_eq
  abs_eq _ := rfl
  ofScientific_eq _ _ _ := rfl
  isFinite_eq _ := rfl
  isUndefined_eq _ := rfl
  sqrt_zero := by
    show rootBelow 0 = 0
    simp [rootBelow]
  sqrt_nonneg x := by
    show 0 ≤ rootBelow x
    unfold rootBelow
    positivity

variable {α : Type} [ExactScalar α]

instance instLawfulBEqExact : LawfulBEq α where
  eq_of_beq h := (ExactScalar.beq_iff _ _).1 h
  rfl := (ExactScalar.beq_iff _ _).2 rfl

namespace Vec

/-- Summation from left to right is the sum. -/
theorem sum_eq (x : List α) : sum x = x.sum := by
  unfold sum
  rw [neg_zero, List.sum_eq_foldl]

end Vec

end Mdao
