import Mdao.Nonlinear.LineSearch

/-!
# Newton's method

Each iteration refreshes the Jacobian, solves `J Δ = -r` with a linear solver, and moves along the
step by a line search, which also keeps the unknowns within their bounds. Before a step the
subsystems may be swept. The linear solver may be any; it keeps its memory from one iteration to the
next.
-/

namespace Mdao.Newton

variable {α μ σ ω : Type} [Scalar α]

/-- The end of a solve that did not converge: an error where that is asked for. -/
def giveUp (s : NewtonSettings α) (initialNorm : α) (status : Status) (iters : Nat)
    (residualNorm : α) : SolveWith α μ σ ω (Solution α) :=
  if s.errOnNonConvergence then throw (.nonConvergence status iters residualNorm)
  else pure ⟨status, iters, initialNorm, residualNorm⟩

/-- The residuals before a step, after a sweep over the subsystems where one is due. -/
def prepare (s : NewtonSettings α) (sys : NonlinearSystem α σ) (iter : Nat)
    (residuals : Array α) : SolveWith α μ σ ω (Array α) :=
  if s.solveSubsystems && iter ≤ s.maxSubSolves then do
    SolveM.onSystem sys.sweep
    SolveM.onSystem sys.residuals
  else pure residuals

/-- One step from the given residuals; gives the length of the step and the residuals after it. -/
def step (s : NewtonSettings α) (linear : LinearSolver α μ) (sys : NonlinearSystem α σ)
    (residuals : Array α) : SolveWith α μ σ ω (α × Array α) := do
  SolveM.onSystem sys.linearize
  SolveM.onMemory sys fun op => linear.setup op
  let Δ ← SolveM.onMemory sys fun op => linear.solve op .fwd (residuals.map fun r => -r)
  let x0 ← SolveM.unknowns sys
  SolveM.onSystem (LineSearch.search s.lineSearch sys x0 Δ.x (Vec.norm residuals))

/-- At most `fuel` iterations, the first of them with number `iter`. -/
def iterate (s : NewtonSettings α) (linear : LinearSolver α μ) (sys : NonlinearSystem α σ)
    (observer : Observer (NonlinearEvent α) ω) (initialNorm : α) :
    (fuel iter : Nat) → (residuals : Array α) → SolveWith α μ σ ω (Solution α)
  | 0, iter, residuals =>
    let residualNorm := Vec.norm residuals
    let status := if Scalar.isFinite residualNorm then Status.maxIters else .diverged
    giveUp s initialNorm status (iter - 1) residualNorm
  | fuel + 1, iter, residuals => do
    let residuals ← prepare s sys iter residuals
    let residualNorm := Vec.norm residuals
    if Scalar.isFinite residualNorm then
      let (alpha, residuals) ← step s linear sys residuals
      let residualNorm := Vec.norm residuals
      let state ← SolveM.unknowns sys
      if ← SolveM.report observer (.iterated iter residualNorm alpha state) then
        return ⟨.stoppedByObserver, iter, initialNorm, residualNorm⟩
      else if meetsTolerances s.atol s.rtol initialNorm residualNorm then
        return ⟨.converged, iter, initialNorm, residualNorm⟩
      else iterate s linear sys observer initialNorm fuel (iter + 1) residuals
    else giveUp s initialNorm .diverged (iter - 1) residualNorm

/-- Drives the residuals to zero. -/
def solve (s : NewtonSettings α) (linear : LinearSolver α μ) (sys : NonlinearSystem α σ)
    (observer : Observer (NonlinearEvent α) ω) : SolveWith α μ σ ω (Solution α) := do
  SolveM.onSystem sys.guess
  let residuals ← SolveM.onSystem sys.residuals
  let initialNorm := Vec.norm residuals
  if ← SolveM.report observer (.started initialNorm) then
    return ⟨.stoppedByObserver, 0, initialNorm, initialNorm⟩
  else if meetsTolerances s.atol s.rtol initialNorm initialNorm then
    return ⟨.converged, 0, initialNorm, initialNorm⟩
  else iterate s linear sys observer initialNorm s.maxiter 1 residuals

end Mdao.Newton
