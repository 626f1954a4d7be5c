import Mdao.Linear.Config

/-!
# Choosing a nonlinear solver

A `NonlinearConfig` names a nonlinear solver and its settings, `LineSearchSettings` say how a Newton
step is shortened and kept within bounds.
-/

namespace Mdao

/-- Why settings of a nonlinear solver make no sense. -/
inductive NonlinearConfigError where
  | atol
  | rtol
  | armijo
  | contraction
  | alpha
  | linear (cause : LinearConfigError)
  deriving DecidableEq, Repr

/-- What is wrong with settings of a nonlinear solver. -/
def NonlinearConfigError.message : NonlinearConfigError → String
  | .atol => "atol must be finite and non-negative"
  | .rtol => "rtol must be finite and non-negative"
  | .armijo => "line search c must be in (0, 1)"
  | .contraction => "line search rho must be in (0, 1)"
  | .alpha => "line search alpha must be in (0, 1]"
  | .linear cause => s!"linear solver: {cause.message}"

/-- How a step that leaves the bounds is brought back. -/
inductive BoundEnforcement where
  /-- The whole step is shortened until every unknown is within its bounds. -/
  | vector
  /-- Each unknown is clipped to its bounds by itself. -/
  | scalar
  /-- As `scalar`, but unknowns that leave the bounds with the full step stay at the bound for every
  length of the step. -/
  | wall
  deriving DecidableEq, Repr

/-- The search along a Newton step. -/
inductive LineSearchKind where
  /-- The full step, whatever the bounds. -/
  | none
  /-- The full step within the bounds. -/
  | boundsEnforce
  /-- Shorter and shorter steps until the residual norm decreases enough. -/
  | armijo
  deriving DecidableEq, Repr

/-- Settings of the search along a step. -/
structure LineSearchSettings (α : Type) where
  /-- The kind of search. -/
  kind : LineSearchKind
  /-- How bounds are enforced. -/
  boundEnforcement : BoundEnforcement
  /-- The share of the decrease that a trial has to achieve. -/
  c : α
  /-- The factor from one trial to the next. -/
  rho : α
  /-- The greatest number of trials. -/
  maxiter : Nat
  /-- The length of the first trial. -/
  alpha : α
  /-- Whether an error at a trial point is answered by a shorter step. -/
  retryOnAnalysisError : Bool
  deriving BEq

/-- Settings of Newton's method. -/
structure NewtonSettings (α : Type) where
  /-- The greatest number of steps. -/
  maxiter : Nat
  /-- The absolute tolerance. -/
  atol : α
  /-- The tolerance relative to the initial residual. -/
  rtol : α
  /-- Whether a solve that does not converge is an error. -/
  errOnNonConvergence : Bool
  /-- Whether the subsystems are swept before a step. -/
  solveSubsystems : Bool
  /-- The last step with a sweep before it. -/
  maxSubSolves : Nat
  /-- The search along a step. -/
  lineSearch : LineSearchSettings α
  deriving BEq

/-- Settings of nonlinear block Gauss-Seidel. -/
structure GaussSeidelSettings (α : Type) where
  /-- The greatest number of sweeps. -/
  maxiter : Nat
  /-- The absolute tolerance. -/
  atol : α
  /-- The tolerance relative to the initial residual. -/
  rtol : α
  /-- Whether a solve that does not converge is an error. -/
  errOnNonConvergence : Bool
  /-- The number of sweeps without a decrease that ends the solve; zero for no such end. -/
  stallLimit : Nat
  deriving BEq

/-- A nonlinear solver with its settings. -/
inductive NonlinearConfig (α : Type) where
  /-- Newton's method. -/
  | newton (settings : NewtonSettings α)
  /-- Repeated sweeps over the subsystems. -/
  | gaussSeidel (settings : GaussSeidelSettings α)
  /-- One sweep. -/
  | runOnce
  deriving BEq

/-- The name of a solver in reports. -/
def NonlinearConfig.label {α : Type} : NonlinearConfig α → String
  | .newton _ => "newton"
  | .gaussSeidel _ => "gauss_seidel"
  | .runOnce => "run_once"

/-- The greatest number of iterations, where there is one. -/
def NonlinearConfig.maxiter? {α : Type} : NonlinearConfig α → Option Nat
  | .newton s => some s.maxiter
  | .gaussSeidel s => some s.maxiter
  | .runOnce => none

variable {α : Type} [Scalar α]

/-- The full step within the bounds. -/
def LineSearchSettings.default : LineSearchSettings α :=
  ⟨.boundsEnforce, .vector, 0.1, 0.5, 10, 1.0, true⟩

/-- At most ten steps. -/
def NewtonSettings.default : NewtonSettings α :=
  ⟨10, 1e-10, 1e-10, false, false, 10, .default⟩

/-- At most ten sweeps, and at most three without a decrease. -/
def GaussSeidelSettings.default : GaussSeidelSettings α := ⟨10, 1e-10, 1e-10, false, 3⟩

/-- Checks the numbers of a search. -/
def LineSearchSettings.validate (s : LineSearchSettings α) : Except NonlinearConfigError Unit :=
  if ¬(0 < s.c ∧ s.c < 1) then .error .armijo
  else if ¬(0 < s.rho ∧ s.rho < 1) then .error .contraction
  else if ¬(0 < s.alpha ∧ s.alpha ≤ 1) then .error .alpha
  else .ok ()

/-- Checks the tolerances of a nonlinear solver. -/
def checkNonlinearTolerances (atol rtol : α) : Except NonlinearConfigError Unit :=
  match checkTolerances atol rtol with
  | .ok _ => .ok ()
  | .error .rtol => .error .rtol
  | .error _ => .error .atol

/-- Checks tolerances and then the search. -/
def NewtonSettings.validate (s : NewtonSettings α) : Except NonlinearConfigError Unit :=
  match checkNonlinearTolerances s.atol s.rtol with
  | .ok _ => s.lineSearch.validate
  | .error e => .error e

/-- Checks tolerances. -/
def GaussSeidelSettings.validate (s : GaussSeidelSettings α) : Except NonlinearConfigError Unit :=
  checkNonlinearTolerances s.atol s.rtol

/-- Checks the settings of a solver. -/
def NonlinearConfig.validate : NonlinearConfig α → Except NonlinearConfigError Unit
  | .newton s => s.validate
  | .gaussSeidel s => s.validate
  | .runOnce => .ok ()

/-- Checks the settings of a solver before use; the linear solver counts for Newton's method alone,
and there it is checked first. -/
def NonlinearConfig.validateWith (linear : LinearConfig α) :
    NonlinearConfig α → Except NonlinearConfigError Unit
  | .newton s =>
    match linear.validate with
    | .ok _ => s.validate
    | .error e => .error (.linear e)
  | .gaussSeidel s => s.validate
  | .runOnce => .ok ()

end Mdao
