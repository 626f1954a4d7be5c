import Mdao.Measure

/-!
# Errors of disciplines and models

Each error is a cause; `message` gives its wording. `EvalError` is what a discipline raises at a
point where it cannot be evaluated or linearized, and `StructureError` is what is wrong with the way
a model is put together or addressed.
-/

namespace Mdao

/-- Why a block of partial derivatives was not written. -/
inductive PartialsError where
  /-- The pair was not declared. -/
  | undeclared (output wrt : String)
  /-- The number of values differs from the number of declared entries. -/
  | length (output wrt : String) (expected found : Nat)
  deriving DecidableEq, Repr

/-- What an error of partial derivatives says. -/
def PartialsError.message : PartialsError → String
  | .undeclared output wrt => s!"partial ({output}, {wrt}) was not declared"
  | .length output wrt expected found =>
    s!"partial ({output}, {wrt}) expects {expected} values, found {found}"

/-- Why a discipline could not be evaluated or linearized. -/
inductive EvalError where
  /-- The point is outside the region where the discipline is valid; a line search may retreat. -/
  | analysis (owner message : String)
  /-- The evaluation failed for good. -/
  | fatal (owner cause : String)
  /-- A block of partial derivatives was not written. -/
  | partials (cause : PartialsError)
  /-- A derivative lies outside the declared structure. -/
  | undeclaredNonzero (owner output wrt : String) (row col : Nat)
  /-- The discipline lacks a capability. -/
  | unsupported (owner capability : String)
  deriving DecidableEq, Repr

namespace EvalError

/-- What an evaluation error says. -/
def message : EvalError → String
  | .analysis owner text => s!"analysis error in '{owner}': {text}"
  | .fatal owner cause => s!"evaluation failed in '{owner}': {cause}"
  | .partials cause => cause.message
  | .undeclaredNonzero owner output wrt row col =>
    s!"unit '{owner}' has a nonzero derivative of '{output}' with respect to '{wrt}'"
      ++ s!" at ({row}, {col}) outside its declared sparsity"
  | .unsupported owner capability => s!"unit '{owner}' does not support {capability}"

/-- Whether a solver may step back and try again. -/
def isRetryable : EvalError → Bool
  | .analysis .. => true
  | _ => false

/-- Names the owner of an error that has none yet. -/
def ownedBy (name : String) : EvalError → EvalError
  | .analysis "" text => .analysis name text
  | .fatal "" cause => .fatal name cause
  | .unsupported "" capability => .unsupported name capability
  | e => e

end EvalError

/-- What is wrong with the way a model is put together or addressed. -/
inductive StructureError where
  /-- A value has the wrong number of entries. -/
  | shapeMismatch (name : String) (expected found : Nat)
  /-- Unit expressions have no meaning or do not convert. -/
  | units (cause : UnitsError)
  /-- An input has a source already. -/
  | duplicateConnection (target existing source : String)
  /-- There is no such variable. -/
  | unknownVariable (name : String)
  /-- There is no such unit. -/
  | unknownUnit (name : String)
  /-- The name of a unit is taken. -/
  | duplicateUnit (name : String)
  /-- The name of a variable is taken. -/
  | duplicateVariable (name : String)
  /-- A declaration of partial derivatives makes no sense. -/
  | invalidPartial (owner output wrt reason : String)
  /-- Complex steps are declared for a unit that evaluates real numbers only. -/
  | complexStepUnsupported (owner : String)
  /-- A variable is no independent input. -/
  | notIndependent (name : String)
  /-- A unit could not be evaluated. -/
  | eval (cause : EvalError)
  deriving DecidableEq, Repr

/-- What a structure error says. -/
def StructureError.message : StructureError → String
  | .shapeMismatch name expected found =>
    s!"shape mismatch for '{name}': expected {expected} values, found {found}"
  | .units cause => cause.message
  | .duplicateConnection target existing source =>
    s!"input '{target}' is already connected to '{existing}', cannot connect '{source}'"
  | .unknownVariable name => s!"no variable named '{name}'"
  | .unknownUnit name => s!"no unit named '{name}'"
  | .duplicateUnit name => s!"unit '{name}' is declared more than once"
  | .duplicateVariable name => s!"variable '{name}' is declared more than once"
  | .invalidPartial owner output wrt reason =>
    s!"invalid partial declaration in '{owner}' for ({output}, {wrt}): {reason}"
  | .complexStepUnsupported owner =>
    s!"unit '{owner}' requested complex step but cannot evaluate with complex values"
  | .notIndependent name => s!"'{name}' is not an independent variable"
  | .eval cause => cause.message

end Mdao
