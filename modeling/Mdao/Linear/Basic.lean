import Mdao.Linear.Config
import Mdao.Observer
import Mdao.Operator

/-!
# Outcomes of linear solves

A linear solve ends with a `LinearSolution` or a `LinearError`. Not to converge is no error: the
status of the solution tells.
-/

namespace Mdao

/-- How a linear solve ended. -/
inductive LinearStatus where
  | converged
  | maxIters
  | stoppedByObserver
  deriving DecidableEq, Repr

/-- The name of a status. -/
def LinearStatus.label : LinearStatus → String
  | .converged => "Converged"
  | .maxIters => "MaxIters"
  | .stoppedByObserver => "StoppedByObserver"

/-- What a linear solve found. -/
structure LinearSolution (α : Type) where
  /-- How it ended. -/
  status : LinearStatus
  /-- The solution. -/
  x : Array α
  /-- The number of iterations. -/
  iters : Nat
  /-- The norm of what is left of the right-hand side. -/
  residualNorm : α

/-- Why a linear solve failed. -/
inductive LinearError where
  /-- The settings make no sense. -/
  | invalidConfig (cause : LinearConfigError)
  /-- A matrix has no inverse, as far as can be told. -/
  | singularJacobian
  /-- The right-hand side has the wrong length. -/
  | dimensionMismatch (expected found : Nat)
  /-- The operator failed. -/
  | eval (cause : EvalError)
  deriving DecidableEq, Repr

/-- What an error of a linear solve says. -/
def LinearError.message : LinearError → String
  | .invalidConfig cause => s!"invalid config: {cause.message}"
  | .singularJacobian => "jacobian is singular"
  | .dimensionMismatch expected found =>
    s!"right-hand side has {found} entries, operator has {expected}"
  | .eval cause => cause.message

/-- What an iterative linear solver reports. -/
structure LinearEvent (α : Type) where
  /-- The number of the cycle or sweep. -/
  cycle : Nat
  /-- The number of inner iterations so far. -/
  iters : Nat
  /-- The norm of the residual. -/
  residualNorm : α

instance {α : Type} : Progress (LinearEvent α) α where
  iteration e := e.cycle
  residualNorm e := e.residualNorm

variable {α : Type} [Scalar α]

/-- What is left of the right-hand side of a linear system, as a step of a solve. -/
def linearResidual (op : Operator α) (rhs x : Array α) (mode : Mode) :
    Except LinearError (Array α) :=
  match op.residual rhs x mode with
  | .ok r => .ok r
  | .error e => .error (.eval e)

/-- Refuses a right-hand side of the wrong length. -/
def checkDim (op : Operator α) (rhs : Array α) : Except LinearError Unit :=
  if rhs.size = op.dim then .ok () else .error (.dimensionMismatch op.dim rhs.size)

end Mdao
