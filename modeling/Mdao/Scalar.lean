/-!
# The numbers a model computes with

Every quantity of a model is an element of one type `α` with the operations of `Scalar α`. The
operations are those of floating point arithmetic, so the order in which sums are formed is part of
every definition that uses them; the ordered field of exact numbers is an instance as well, and
there the order of a sum no longer matters.

* `Scalar` holds arithmetic, comparison, absolute value and square root, and the few questions that
  only floating point numbers answer in an interesting way (`isFinite`, `lowest?`).
* `Elementary` adds the functions that formulas are written with.
-/

namespace Mdao

/-- Numbers with the arithmetic and the comparisons that solvers need. -/
class Scalar (α : Type) extends Zero α, One α, Add α, Sub α, Mul α, Div α, Neg α, NatCast α,
    OfScientific α, LT α, LE α, BEq α where
  /-- Strict comparison is decided. -/
  decLt : DecidableLT α
  /-- Comparison is decided. -/
  decLe : DecidableLE α
  /-- The magnitude of a number. -/
  abs : α → α
  /-- The square root. -/
  sqrt : α → α
  /-- The length of the hypotenuse over two legs. -/
  hypot : α → α → α
  /-- Whether a number is a proper number: not infinite and not undefined. -/
  isFinite : α → Bool
  /-- Whether a number is undefined, and so differs from itself. -/
  isUndefined : α → Bool
  /-- The number below all others, when there is one. -/
  lowest? : Option α
  /-- The number above all others, when there is one. -/
  highest? : Option α
  /-- A total order that refines `≤`: also undefined numbers and the two zeros have a place. -/
  totalLe : α → α → Bool

namespace Scalar

variable {α : Type} [Scalar α]

instance : DecidableLT α := decLt

instance : DecidableLE α := decLe

/-- The larger of two numbers; an undefined one gives way to the other. -/
def maxNum (x y : α) : α :=
  if isUndefined x then y else if x < y then y else x

/-- The smaller of two numbers; an undefined one gives way to the other. -/
def minNum (x y : α) : α :=
  if isUndefined x then y else if y < x then y else x

/-- The distance from 1 to the next larger number of double precision, `2⁻⁵²`. -/
def epsilon : α := 1 / ((Nat.pow 2 52 : Nat) : α)

/-- The least positive normal number of double precision, `2⁻¹⁰²²`. -/
def minPositive : α := 1 / ((Nat.pow 2 1022 : Nat) : α)

/-- Repeated squaring: `acc · x ^ n`, the factors of `acc` first. -/
def powNat (acc x : α) (n : Nat) : α :=
  if n = 0 then acc
  else
    let acc' := if n % 2 = 1 then acc * x else acc
    if n / 2 = 0 then acc' else powNat acc' (x * x) (n / 2)
termination_by n
decreasing_by omega

/-- A whole power; a negative one is the reciprocal of the positive one. -/
def powInt (x : α) (n : Int) : α :=
  let p := powNat 1 x n.natAbs
  if n < 0 then 1 / p else p

end Scalar

/-- Scalars with the functions that formulas are written with. -/
class Elementary (α : Type) extends Scalar α where
  /-- Sine. -/
  sin : α → α
  /-- Cosine. -/
  cos : α → α
  /-- Exponential. -/
  exp : α → α
  /-- Hyperbolic sine. -/
  sinh : α → α
  /-- Hyperbolic cosine. -/
  cosh : α → α
  /-- The angle of the point with the given ordinate and abscissa. -/
  atan2 : α → α → α
  /-- Whether a number carries no minus sign; a zero may carry one. -/
  isSignPositive : α → Bool
  /-- Whether a number is infinite. -/
  isInfinite : α → Bool
  /-- The undefined number. -/
  undefined : α

end Mdao
