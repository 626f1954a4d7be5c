import Mdao.Complex
import Mdao.Layout
import Mdao.Mode
import Mdao.Partials

/-!
# Disciplines

A discipline is what the author of a model supplies: the variables and partial derivatives it
declares, and functions. An explicit discipline computes its outputs from its inputs; an implicit
one gives residuals that vanish at its outputs, and may know how to drive them to zero, how to solve
its own linear system, and how to form products with its Jacobian.

Functions that fill a buffer get the buffer as it is and give it back with an outcome, also when
they fail: what was written before a failure stays.
-/

namespace Mdao

/-- What an implicit discipline provides beyond its residuals. -/
structure Capabilities where
  /-- It drives its own residuals to zero. -/
  solveNonlinear : Bool := false
  /-- It solves with its own diagonal block of the Jacobian. -/
  solveLinear : Bool := false
  /-- It forms products with its Jacobian instead of giving partial derivatives. -/
  applyLinear : Bool := false
  /-- It evaluates at complex points. -/
  complexStep : Bool := false
  deriving DecidableEq, Repr

/-- The outcome of filling a buffer: the buffer, and a failure if there was one. -/
abbrev Filled (β : Type) : Type := EStateM.Result EvalError (Array β) PUnit

/-- A discipline that computes its outputs. -/
structure ExplicitDiscipline (α : Type) where
  /-- The inputs it declares. -/
  inputs : List (Variable α)
  /-- The outputs it declares. -/
  outputs : List (Variable α)
  /-- The partial derivatives it declares, in order. -/
  partials : List (PartialDeclaration α)
  /-- Whether it evaluates at complex points. -/
  complexStep : Bool
  /-- The outputs at the inputs. -/
  compute : (inputs outputs : View α) → Filled α
  /-- The outputs at complex inputs. -/
  computeComplex : (inputs outputs : View (Complex α)) → Filled (Complex α)
  /-- The partial derivatives at the inputs. -/
  linearize : (inputs : View α) → Linearization α

/-- A discipline whose outputs are the roots of residuals. -/
structure ImplicitDiscipline (α : Type) where
  /-- The inputs it declares. -/
  inputs : List (Variable α)
  /-- The outputs it declares. -/
  outputs : List (Variable α)
  /-- The partial derivatives it declares, in order. -/
  partials : List (PartialDeclaration α)
  /-- What it provides beyond residuals. -/
  capabilities : Capabilities
  /-- The residuals at a point. -/
  residuals : (inputs outputs residuals : View α) → Filled α
  /-- The residuals at a complex point. -/
  residualsComplex : (inputs outputs residuals : View (Complex α)) → Filled (Complex α)
  /-- The partial derivatives of the residuals at a point. -/
  linearize : (inputs outputs : View α) → Linearization α
  /-- Outputs at which the residuals vanish, starting from the given ones. -/
  solve : (inputs outputs : View α) → Filled α
  /-- Outputs to start a solver from, in view of the present residuals. -/
  guess : (inputs outputs residuals : View α) → Array α
  /-- The solution of the linear system of its diagonal block, from what the last linearization
  kept, added to the given buffer. -/
  solveLinear : (memo : Array α) → (rhs solution : View α) → Mode → Except EvalError (Array α)
  /-- The product of the Jacobian with a direction, added to the given buffer. -/
  applyForward : (inputs outputs dInputs dOutputs dResiduals : View α) →
    Except EvalError (Array α)
  /-- The products of the transposed Jacobian, added to the given buffers of inputs and outputs. -/
  applyReverse : (inputs outputs dResiduals dInputs dOutputs : View α) →
    Except EvalError (Array α × Array α)

/-- A discipline of either kind. -/
inductive Discipline (α : Type) where
  | explicit (d : ExplicitDiscipline α)
  | implicit (d : ImplicitDiscipline α)

namespace ExplicitDiscipline

/-- An explicit discipline that declares and computes nothing. -/
def blank {α : Type} : ExplicitDiscipline α where
  inputs := []
  outputs := []
  partials := []
  complexStep := false
  compute _ outputs := .ok () outputs.data
  computeComplex _ outputs := .error (.unsupported "" "complex step") outputs.data
  linearize _ := .nothing

end ExplicitDiscipline

namespace ImplicitDiscipline

/-- An implicit discipline that declares nothing, leaves every residual alone and has no
capability. -/
def blank {α : Type} : ImplicitDiscipline α where
  inputs := []
  outputs := []
  partials := []
  capabilities := {}
  residuals _ _ residuals := .ok () residuals.data
  residualsComplex _ _ residuals := .error (.unsupported "" "complex step") residuals.data
  linearize _ _ := .nothing
  solve _ outputs := .error (.unsupported "" "solve_nonlinear") outputs.data
  guess _ outputs _ := outputs.data
  solveLinear _ _ _ _ := .error (.unsupported "" "solve_linear")
  applyForward _ _ _ _ _ := .error (.unsupported "" "apply_linear")
  applyReverse _ _ _ _ _ := .error (.unsupported "" "apply_linear")

end ImplicitDiscipline

namespace Discipline

variable {α : Type}

/-- The declared inputs. -/
def inputs : Discipline α → List (Variable α)
  | explicit d => d.inputs
  | implicit d => d.inputs

/-- The declared outputs. -/
def outputs : Discipline α → List (Variable α)
  | explicit d => d.outputs
  | implicit d => d.outputs

/-- The declared partial derivatives. -/
def partials : Discipline α → List (PartialDeclaration α)
  | explicit d => d.partials
  | implicit d => d.partials

/-- Whether outputs are roots of residuals. -/
def isImplicit : Discipline α → Bool
  | explicit _ => false
  | implicit _ => true

/-- The capabilities; of an explicit discipline only the complex step counts. -/
def capabilities : Discipline α → Capabilities
  | explicit d => { complexStep := d.complexStep }
  | implicit d => d.capabilities

end Discipline

end Mdao
