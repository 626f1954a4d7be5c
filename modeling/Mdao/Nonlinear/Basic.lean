import Mdao.Linear.Solver
import Mdao.Nonlinear.Config

/-!
# Nonlinear systems and outcomes of their solves

A `NonlinearSystem` is a set of unknowns with residuals, as functions on a state `σ`: residuals are
evaluated, the Jacobian is refreshed, and subsystems are swept, and any of these may fail and leave
a changed state behind. A solve ends with a `Solution` or a `NonlinearError`.
-/

namespace Mdao

/-- Unknowns with residuals that a solver drives to zero. -/
structure NonlinearSystem (α σ : Type) where
  /-- The present unknowns. -/
  state : σ → Array α
  /-- Replaces the unknowns. -/
  setState : Array α → σ → σ
  /-- The lower bounds, where there are any. -/
  lower : Array (Option α)
  /-- The upper bounds, where there are any. -/
  upper : Array (Option α)
  /-- The residuals at the present unknowns. -/
  residuals : EStateM EvalError σ (Array α)
  /-- Refreshes the Jacobian at the present unknowns. -/
  linearize : EStateM EvalError σ Unit
  /-- Lets each subsystem solve its own unknowns, one after the other. -/
  sweep : EStateM EvalError σ Unit
  /-- Lets subsystems adjust the unknowns before the first iteration. -/
  guess : EStateM EvalError σ Unit
  /-- The Jacobian as last refreshed. -/
  operator : σ → Operator α

/-- How a nonlinear solve ended. -/
inductive Status where
  | converged
  | maxIters
  | stalled
  | diverged
  | stoppedByObserver
  deriving DecidableEq, Repr

/-- The name of a status. -/
def Status.label : Status → String
  | .converged => "Converged"
  | .maxIters => "MaxIters"
  | .stalled => "Stalled"
  | .diverged => "Diverged"
  | .stoppedByObserver => "StoppedByObserver"

/-- What a nonlinear solve reports; the unknowns stay in the system. -/
structure Solution (α : Type) where
  /-- How it ended. -/
  status : Status
  /-- The number of iterations. -/
  iters : Nat
  /-- The residual norm before the first iteration. -/
  initialNorm : α
  /-- The residual norm at the end. -/
  residualNorm : α

/-- Whether a solve converged. -/
def Solution.isConverged {α : Type} (s : Solution α) : Bool := s.status == .converged

/-- Why a nonlinear solve failed. -/
inductive NonlinearError (α : Type) where
  /-- The settings make no sense. -/
  | invalidConfig (cause : NonlinearConfigError)
  /-- An evaluation failed. -/
  | eval (cause : EvalError)
  /-- A linear solve failed. -/
  | linear (cause : LinearError)
  /-- The solve did not converge, and that counts as an error. -/
  | nonConvergence (status : Status) (iters : Nat) (residualNorm : α)

/-- What an error of a nonlinear solve says; a solve that did not converge is told by its status and
numbers. -/
def NonlinearError.message {α : Type} : NonlinearError α → String
  | .invalidConfig cause => s!"invalid config: {cause.message}"
  | .eval cause => cause.message
  | .linear cause => s!"linear solve failed: {cause.message}"
  | .nonConvergence status iters _ =>
    s!"failed to converge ({status.label}) after {iters} iterations"

/-- What a nonlinear solver reports. -/
inductive NonlinearEvent (α : Type) where
  /-- The initial residuals are known. -/
  | started (residualNorm : α)
  /-- An iteration is complete; `alpha` is the length of the step, one for a sweep. -/
  | iterated (iter : Nat) (residualNorm alpha : α) (state : Array α)

instance {α : Type} : Progress (NonlinearEvent α) α where
  iteration
    | .started _ => 0
    | .iterated iter _ _ _ => iter
  residualNorm
    | .started r => r
    | .iterated _ r _ _ => r

/-- Whether a residual norm meets the tolerances, by itself or against the initial one. -/
def meetsTolerances {α : Type} [Scalar α] (atol rtol initialNorm r : α) : Bool :=
  decide (r < atol) || (decide (0 < initialNorm) && decide (r / initialNorm < rtol))

/-- The states that a nonlinear solve works on: the system, the linear solver's memory and the
observer. -/
structure SolveState (μ σ ω : Type) where
  /-- The system. -/
  system : σ
  /-- What the linear solver remembers. -/
  memory : μ
  /-- The observer. -/
  watch : ω

/-- The states of a nonlinear solve with a configured linear solver. -/
abbrev Solving (α σ ω : Type) : Type := SolveState (LinearMemory α) σ ω

/-- A nonlinear solve with a linear solver that remembers `μ`. -/
abbrev SolveWith (α μ σ ω : Type) : Type → Type :=
  EStateM (NonlinearError α) (SolveState μ σ ω)

/-- A nonlinear solve with a configured linear solver. -/
abbrev SolveM (α σ ω : Type) : Type → Type := SolveWith α (LinearMemory α) σ ω

namespace SolveM

variable {α μ σ ω β : Type}

/-- A step on the system. -/
def onSystem (step : EStateM EvalError σ β) : SolveWith α μ σ ω β := fun s =>
  match step s.system with
  | .ok b t => .ok b { s with system := t }
  | .error e t => .error (.eval e) { s with system := t }

/-- A step of the linear solver on the Jacobian of the system. -/
def onMemory (sys : NonlinearSystem α σ)
    (step : Operator α → EStateM LinearError μ β) : SolveWith α μ σ ω β := fun s =>
  match step (sys.operator s.system) s.memory with
  | .ok b m => .ok b { s with memory := m }
  | .error e m => .error (.linear e) { s with memory := m }

/-- Shows an event to the observer and tells whether it wants to stop. -/
def report (observer : Observer (NonlinearEvent α) ω) (e : NonlinearEvent α) :
    SolveWith α μ σ ω Bool := fun s =>
  let (stop, w) := observer.stops e s.watch
  .ok stop { s with watch := w }

/-- The present unknowns. -/
def unknowns (sys : NonlinearSystem α σ) : SolveWith α μ σ ω (Array α) := fun s =>
  .ok (sys.state s.system) s

end SolveM

end Mdao
