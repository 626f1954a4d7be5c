import Mdao.Proofs.Vec

/-!
# Exact square roots

Lengths and angles make sense over numbers with exact square roots (`EuclideanScalar`); the real
numbers are such numbers. There the norm of a vector is the root of its product with itself
(`norm_mul_self`), and vectors may be turned and made orthogonal without error.
-/

namespace Mdao

/-- Exact numbers whose square roots are exact as well. -/
class EuclideanScalar (α : Type) extends ExactScalar α where
  /-- The square of a root is the number itself. -/
  sqrt_mul_self : ∀ x : α, 0 ≤ x → Scalar.sqrt x * Scalar.sqrt x = x
  /-- The hypotenuse is the root of the sum of the squares of the legs. -/
  hypot_eq : ∀ x y : α, Scalar.hypot x y = Scalar.sqrt (x * x + y * y)

noncomputable instance : Scalar ℝ where
  decLt := inferInstance
  decLe := inferInstance
  beq x y := decide (x = y)
  abs x := |x|
  sqrt := Real.sqrt
  hypot x y := Real.sqrt (x * x + y * y)
  isFinite _ := true
  isUndefined _ := false
  lowest? := none
  highest? := none
  totalLe x y := decide (x ≤ y)

noncomputable instance : EuclideanScalar ℝ where
  __ := (inferInstance : Scalar ℝ)
  __ := (inferInstance : Field ℝ)
  __ := (inferInstance : LinearOrder ℝ)
  __ := (inferInstance : IsStrictOrderedRing ℝ)
  beq_iff _ _ := decide_eq_true_iff
  abs_eq _ := rfl
  ofScientific_eq m s e := (Rat.cast_ofScientific m s e).symm
  isFinite_eq _ := rfl
  isUndefined_eq _ := rfl
  sqrt_zero := Real.sqrt_zero
  sqrt_nonneg := Real.sqrt_nonneg
  sqrt_mul_self _ := Real.mul_self_sqrt
  hypot_eq _ _ := rfl

namespace Vec

open Matrix

/-- The product of two vectors is a sum of products. -/
theorem dot_eq {α : Type} [ExactScalar α] {n : Nat} {x y : Array α} (hx : x.size = n)
    (hy : y.size = n) : dot x y = toFun n x ⬝ᵥ toFun n y := by
  rw [dot, sum_eq, dotProduct, ← List.sum_ofFn]
  refine congrArg List.sum (List.ext_getElem (by simp [hx, hy]) fun i h1 h2 => ?_)
  simp [toFun, entry_eq_getElem, hx, hy]

variable {α : Type} [EuclideanScalar α] {n : Nat}

theorem dotProduct_self_nonneg (f : Fin n → α) : 0 ≤ f ⬝ᵥ f :=
  Finset.sum_nonneg fun i _ => mul_self_nonneg (f i)

theorem norm_eq_sqrt {x : Array α} (hx : x.size = n) :
    norm x = Scalar.sqrt (toFun n x ⬝ᵥ toFun n x) := by
  rw [← dot_eq hx hx, dot, List.zipWith_self]
  rfl

/-- **The square of the norm** of a vector is its product with itself. -/
theorem norm_mul_self {x : Array α} (hx : x.size = n) :
    norm x * norm x = toFun n x ⬝ᵥ toFun n x := by
  rw [norm_eq_sqrt hx, EuclideanScalar.sqrt_mul_self _ (dotProduct_self_nonneg _)]

/-- A norm is the magnitude of any number with the same square. -/
theorem norm_eq_abs {x : Array α} (hx : x.size = n) {v : α} (h : toFun n x ⬝ᵥ toFun n x = v * v) :
    norm x = |v| := by
  refine (mul_self_inj_of_nonneg (ExactScalar.sqrt_nonneg _) (abs_nonneg v)).1 ?_
  exact (norm_mul_self hx).trans (h.trans (abs_mul_abs_self v).symm)

/-- Norms compare as the products of vectors with themselves. -/
theorem norm_le_norm {x y : Array α} (hx : x.size = n) (hy : y.size = n)
    (h : toFun n x ⬝ᵥ toFun n x ≤ toFun n y ⬝ᵥ toFun n y) : norm x ≤ norm y := by
  refine (mul_self_le_mul_self_iff (ExactScalar.sqrt_nonneg _) (ExactScalar.sqrt_nonneg _)).2 ?_
  exact (norm_mul_self hx).trans_le (h.trans_eq (norm_mul_self hy).symm)

end Vec

end Mdao
