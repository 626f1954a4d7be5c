import Mdao.Nonlinear.Basic

/-!
# Sweeping subsystems

Nonlinear block Gauss-Seidel sweeps the subsystems again and again until the residuals of the whole
system meet the tolerances, or have not decreased for a number of sweeps. A single sweep is enough
for a system without feedback, and `RunOnce` makes just that one.
-/

namespace Mdao

namespace GaussSeidel

variable {α μ σ ω : Type} [Scalar α]

/-- The end of a solve that did not converge: an error where that is asked for. -/
def giveUp (s : GaussSeidelSettings α) (initialNorm : α) (status : Status) (iters : Nat)
    (residualNorm : α) : SolveWith α μ σ ω (Solution α) :=
  if s.errOnNonConvergence then throw (.nonConvergence status iters residualNorm)
  else pure ⟨status, iters, initialNorm, residualNorm⟩

/-- The least norm after a sweep, and the number of sweeps since it was reached. -/
def countStalled (best : α) (stalled : Nat) (residualNorm : α) : α × Nat :=
  if residualNorm < best then (residualNorm, 0) else (best, stalled + 1)

/-- At most `fuel` sweeps, the first of them with number `iter`; `best` is the least norm so far,
reached `stalled` sweeps ago, and `residualNorm` the last norm. -/
def iterate (s : GaussSeidelSettings α) (sys : NonlinearSystem α σ)
    (observer : Observer (NonlinearEvent α) ω) (initialNorm : α) :
    (fuel iter : Nat) → (best : α) → (stalled : Nat) → (residualNorm : α) →
      SolveWith α μ σ ω (Solution α)
  | 0, iter, _, _, residualNorm => giveUp s initialNorm .maxIters (iter - 1) residualNorm
  | fuel + 1, iter, best, stalled, _ => do
    SolveM.onSystem sys.sweep
    let residuals ← SolveM.onSystem sys.residuals
    let residualNorm := Vec.norm residuals
    let state ← SolveM.unknowns sys
    if ← SolveM.report observer (.iterated iter residualNorm 1 state) then
      return ⟨.stoppedByObserver, iter, initialNorm, residualNorm⟩
    else if meetsTolerances s.atol s.rtol initialNorm residualNorm then
      return ⟨.converged, iter, initialNorm, residualNorm⟩
    else if !Scalar.isFinite residualNorm then
      giveUp s initialNorm .diverged iter residualNorm
    else
      let (best, stalled) := countStalled best stalled residualNorm
      if 0 < s.stallLimit ∧ s.stallLimit ≤ stalled then
        giveUp s initialNorm .stalled iter residualNorm
      else iterate s sys observer initialNorm fuel (iter + 1) best stalled residualNorm

/-- Sweeps until the residuals meet the tolerances. -/
def solve (s : GaussSeidelSettings α) (sys : NonlinearSystem α σ)
    (observer : Observer (NonlinearEvent α) ω) : SolveWith α μ σ ω (Solution α) := do
  SolveM.onSystem sys.guess
  let residuals ← SolveM.onSystem sys.residuals
  let initialNorm := Vec.norm residuals
  if ← SolveM.report observer (.started initialNorm) then
    return ⟨.stoppedByObserver, 0, initialNorm, initialNorm⟩
  else if meetsTolerances s.atol s.rtol initialNorm initialNorm then
    return ⟨.converged, 0, initialNorm, initialNorm⟩
  else if !Scalar.isFinite initialNorm then giveUp s initialNorm .diverged 0 initialNorm
  else iterate s sys observer initialNorm s.maxiter 1 initialNorm 0 initialNorm

end GaussSeidel

namespace RunOnce

variable {α μ σ ω : Type} [Scalar α]

/-- Sweeps once. -/
def solve (sys : NonlinearSystem α σ) : SolveWith α μ σ ω (Solution α) := do
  SolveM.onSystem sys.guess
  SolveM.onSystem sys.sweep
  let residuals ← SolveM.onSystem sys.residuals
  let r := Vec.norm residuals
  let status : Status :=
    if !Scalar.isFinite r then .diverged
    else if r < 1e-10 then .converged
    else .maxIters
  return ⟨status, 1, r, r⟩

end RunOnce

end Mdao
