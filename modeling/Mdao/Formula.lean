import Mdao.Complex
import Mdao.Error
import Mdao.Layout

/-!
# Formulas

Expressions over the entries of variables, with the four operations of arithmetic and a few
functions. An expression has a value for scalars and for complex numbers, so that a discipline
written by formulas evaluates at complex points as well. A guard marks the points where a formula is
not to be used.
-/

namespace Mdao

/-- Numbers that formulas are evaluated in. -/
class FormulaNumber (α : outParam Type) (β : Type) extends Zero β, Add β, Sub β, Mul β, Div β,
    Neg β where
  /-- A scalar as such a number. -/
  ofScalar : α → β
  /-- The real part. -/
  realPart : β → α
  /-- The sine. -/
  sin : β → β
  /-- The cosine. -/
  cos : β → β
  /-- The exponential. -/
  exp : β → β
  /-- The square root. -/
  sqrt : β → β

namespace Formula

instance {α : Type} [Elementary α] : FormulaNumber α α where
  ofScalar := id
  realPart := id
  sin := Elementary.sin
  cos := Elementary.cos
  exp := Elementary.exp
  sqrt := Scalar.sqrt

instance {α : Type} [Elementary α] : FormulaNumber α (Complex α) where
  ofScalar := Complex.ofReal
  realPart := Complex.re
  sin := Complex.sin
  cos := Complex.cos
  exp := Complex.exp
  sqrt := Complex.sqrt

/-- The operations of arithmetic. -/
inductive Operation where
  | add
  | sub
  | mul
  | div
  deriving DecidableEq, Repr

/-- The functions. -/
inductive Function where
  | sin
  | cos
  | exp
  | sqrt
  deriving DecidableEq, Repr

/-- An expression over entries of variables. -/
inductive Expr (α : Type) where
  /-- A constant. -/
  | number (x : α)
  /-- An entry of a variable. -/
  | entry (name : String) (index : Nat)
  /-- The negative. -/
  | negate (a : Expr α)
  /-- Two expressions joined by an operation. -/
  | binary (op : Operation) (a b : Expr α)
  /-- A function of an expression. -/
  | apply (f : Function) (a : Expr α)
  deriving Repr

section

variable {α β : Type} [FormulaNumber α β]

/-- The result of an operation. -/
def Operation.eval (a b : β) : Operation → β
  | add => a + b
  | sub => a - b
  | mul => a * b
  | div => a / b

/-- The value of a function. -/
def Function.eval (a : β) : Function → β
  | sin => FormulaNumber.sin a
  | cos => FormulaNumber.cos a
  | exp => FormulaNumber.exp a
  | sqrt => FormulaNumber.sqrt a

/-- The value of an expression where the entries have given values. -/
def Expr.eval (entries : String → Nat → β) : Expr α → β
  | .number x => FormulaNumber.ofScalar x
  | .entry name i => entries name i
  | .negate a => -(a.eval entries)
  | .binary op a b => op.eval (a.eval entries) (b.eval entries)
  | .apply f a => f.eval (a.eval entries)

end

/-- How a guard fails. -/
inductive Failure where
  /-- The point is outside the region of validity; a solver may step back. -/
  | analysis (message : String)
  /-- The evaluation fails for good. -/
  | fatal (message : String)
  /-- The point is not supported. -/
  | unsupported
  deriving DecidableEq, Repr

/-- The error of a failure. -/
def Failure.error : Failure → EvalError
  | .analysis message => .analysis "" message
  | .fatal message => .fatal "" message
  | .unsupported => .unsupported "" "guarded point"

/-- A bound on the value of an expression, and what is wrong below it. -/
structure Guard (α : Type) where
  /-- The expression. -/
  value : Expr α
  /-- The bound. -/
  below : α
  /-- What is wrong below the bound. -/
  failure : Failure

/-- The first guard that fails; the real part counts. -/
def checkGuards {α β : Type} [Scalar α] [FormulaNumber α β] (entries : String → Nat → β)
    (guards : List (Guard α)) : Option EvalError :=
  (guards.find? fun g =>
    decide (FormulaNumber.realPart (g.value.eval entries) < g.below)).map fun g => g.failure.error

end Formula

end Mdao
