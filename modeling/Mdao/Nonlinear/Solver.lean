import Mdao.Nonlinear.GaussSeidel
import Mdao.Nonlinear.Newton

/-!
# Nonlinear solvers

The solver that a configuration names, run on a system.
-/

namespace Mdao

variable {α μ σ ω : Type} [Scalar α]

/-- Runs the configured solver with some linear solver; a single sweep has nothing to report. -/
def NonlinearConfig.solveWith (linear : LinearSolver α μ) (sys : NonlinearSystem α σ)
    (observer : Observer (NonlinearEvent α) ω) :
    NonlinearConfig α → SolveWith α μ σ ω (Solution α)
  | .newton s => Newton.solve s linear sys observer
  | .gaussSeidel s => GaussSeidel.solve s sys observer
  | .runOnce => RunOnce.solve sys

/-- Runs the configured solver with the configured linear solver. -/
def NonlinearConfig.solve (linear : LinearConfig α) (sys : NonlinearSystem α σ)
    (observer : Observer (NonlinearEvent α) ω) (config : NonlinearConfig α) :
    SolveM α σ ω (Solution α) :=
  config.solveWith linear.solver sys observer

end Mdao
