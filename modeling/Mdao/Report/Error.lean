import Mdao.Model.Error
import Mdao.Report.Number

/-!
# Errors in reports

An error is reported by its kind, a short name, and by its message. A kind that wraps another is
written before it with a point between. Unreadable texts and files are reported by their kind alone,
and a solve that did not converge by its status and numbers.
-/

namespace Mdao

/-- The kind of an error of unit expressions. -/
def UnitsError.kind : UnitsError → String
  | .unknown .. => "Unknown"
  | .malformed .. => "Malformed"
  | .incompatible .. => "Incompatible"

/-- The kind of an error of partial derivatives. -/
def PartialsError.kind : PartialsError → String
  | .undeclared .. => "Undeclared"
  | .length .. => "Length"

/-- The kind of an evaluation error. -/
def EvalError.kind : EvalError → String
  | .analysis .. => "Analysis"
  | .fatal .. => "Fatal"
  | .partials e => "Partials." ++ e.kind
  | .undeclaredNonzero .. => "UndeclaredNonzero"
  | .unsupported .. => "Unsupported"

/-- The kind of a structure error. -/
def StructureError.kind : StructureError → String
  | .shapeMismatch .. => "ShapeMismatch"
  | .units e => "Units." ++ e.kind
  | .duplicateConnection .. => "DuplicateConnection"
  | .unknownVariable .. => "UnknownVariable"
  | .unknownUnit .. => "UnknownUnit"
  | .duplicateUnit .. => "DuplicateUnit"
  | .duplicateVariable .. => "DuplicateVariable"
  | .invalidPartial .. => "InvalidPartial"
  | .complexStepUnsupported .. => "ComplexStepUnsupported"
  | .notIndependent .. => "NotIndependent"
  | .eval e => "Eval." ++ e.kind

/-- The kind of what is wrong with a linear solver. -/
def LinearConfigError.kind : LinearConfigError → String
  | .atol => "Atol"
  | .rtol => "Rtol"
  | .restart => "Restart"

/-- The kind of an error of a linear solve. -/
def LinearError.kind : LinearError → String
  | .invalidConfig e => "InvalidConfig." ++ e.kind
  | .singularJacobian => "SingularJacobian"
  | .dimensionMismatch .. => "DimensionMismatch"
  | .eval e => "Eval." ++ e.kind

/-- The kind of what is wrong with a nonlinear solver. -/
def NonlinearConfigError.kind : NonlinearConfigError → String
  | .atol => "Atol"
  | .rtol => "Rtol"
  | .armijo => "Armijo"
  | .contraction => "Contraction"
  | .alpha => "Alpha"
  | .linear e => "Linear." ++ e.kind

/-- The kind of an error of a nonlinear solve. -/
def NonlinearError.kind {α : Type} : NonlinearError α → String
  | .invalidConfig e => "InvalidConfig." ++ e.kind
  | .eval e => "Eval." ++ e.kind
  | .linear e => "Linear." ++ e.kind
  | .nonConvergence .. => "NonConvergence"

/-- The kind of what is wrong with settings of a coloring. -/
def ColoringConfigError.kind : ColoringConfigError → String
  | .tolerance => "Tolerance"
  | .samples => "Samples"

/-- The kind of an error of colorings. -/
def ColoringError.kind : ColoringError → String
  | .invalidConfig e => "InvalidConfig." ++ e.kind
  | .outOfBounds .. => "OutOfBounds"
  | .length .. => "Length"
  | .products .. => "Products"
  | .sample .. => "Sample"
  | .staleSignature => "StaleSignature"
  | .json => "Json"
  | .io => "Io"

/-- The kind of an error of a model. -/
def ModelError.kind {α : Type} : ModelError α → String
  | .core e => "Core." ++ e.kind
  | .eval e => "Eval." ++ e.kind
  | .linear e => "Linear." ++ e.kind
  | .nonlinear _ e => "Nonlinear." ++ e.kind
  | .nonlinearConfig e => "NonlinearConfig." ++ e.kind
  | .linearConfig e => "LinearConfig." ++ e.kind
  | .coloring e => "Coloring." ++ e.kind
  | .setup _ => "Setup"
  | .config => "Config"
  | .json => "Json"
  | .io => "Io"

namespace Report

/-- An error of a kind, with more that is known about it. -/
def failure (kind : String) (more : List (String × Datum)) : Datum :=
  .table (("error", .text kind) :: more)

/-- An error of a kind with its message. -/
def failed (kind message : String) : Datum := failure kind [("message", .text message)]

/-- The report of an evaluation error of a single unit, which tells whether to try again. -/
def evalError (e : EvalError) : Datum :=
  failure e.kind [("message", .text e.message), ("retryable", .truth e.isRetryable)]

/-- The report of an error of colorings. -/
def coloringError (e : ColoringError) : Datum :=
  match e with
  | .json => failure e.kind []
  | .io => failure e.kind []
  | _ => failed e.kind e.message

/-- What is known about a failed nonlinear solve, with the message where there is one. -/
def nonlinearDetails (message : String) : NonlinearError Float → List (String × Datum)
  | .nonConvergence status iters residualNorm =>
    [("status", .text status.label), ("iters", .ofNat iters),
      ("residual_norm", Rounding.norm.write residualNorm)]
  | _ => [("message", .text message)]

/-- The report of an error of a nonlinear solve. -/
def nonlinearError (e : NonlinearError Float) : Datum :=
  failure e.kind (nonlinearDetails e.message e)

/-- The report of an error of a model. -/
def modelError (e : ModelError Float) : Datum :=
  match e with
  | .nonlinear block cause =>
    failure e.kind (("block", .text block) :: nonlinearDetails e.message cause)
  | .coloring .json => failure e.kind []
  | .coloring .io => failure e.kind []
  | .config => failure e.kind []
  | .json => failure e.kind []
  | .io => failure e.kind []
  | _ => failed e.kind e.message

end Report

end Mdao
