import Mdao.Scalar

/-!
# Choosing a linear solver

A `LinearConfig` names a linear solver and its settings. GMRES may be preconditioned by any other
solver, so a configuration is a chain of GMRES settings that ends in a solver of another kind or in
GMRES without a preconditioner. `validate` reports the first setting that makes no sense.
-/

namespace Mdao

/-- Why settings of a linear solver make no sense. -/
inductive LinearConfigError where
  | atol
  | rtol
  | restart
  deriving DecidableEq, Repr

/-- What is wrong with settings of a linear solver. -/
def LinearConfigError.message : LinearConfigError → String
  | .atol => "atol must be finite and non-negative"
  | .rtol => "rtol must be finite and non-negative"
  | .restart => "restart must be at least 1"

/-- Settings of restarted GMRES. -/
structure GmresSettings (α : Type) where
  /-- The greatest number of inner iterations over all cycles. -/
  maxiter : Nat
  /-- The absolute tolerance. -/
  atol : α
  /-- The tolerance relative to the right-hand side. -/
  rtol : α
  /-- The number of inner iterations in one cycle. -/
  restart : Nat
  /-- Whether a solve starts from the last solution in the same mode. -/
  useCachedGuess : Bool
  deriving BEq

/-- Settings of the solvers that sweep over diagonal blocks. -/
structure SweepSettings (α : Type) where
  /-- The greatest number of sweeps. -/
  maxiter : Nat
  /-- The absolute tolerance. -/
  atol : α
  /-- The tolerance relative to the initial residual. -/
  rtol : α
  /-- Whether a solve starts from the last solution in the same mode. -/
  useCachedGuess : Bool
  deriving BEq

/-- A linear solver with its settings. -/
inductive LinearConfig (α : Type) where
  /-- Dense factorization. -/
  | direct
  /-- GMRES without a preconditioner. -/
  | gmres (settings : GmresSettings α)
  /-- GMRES preconditioned by another solver. -/
  | preconditioned (settings : GmresSettings α) (nested : LinearConfig α)
  /-- Sweeps in which a block sees the latest values of the others. -/
  | blockGaussSeidel (settings : SweepSettings α)
  /-- Sweeps in which a block sees the values at the start of the sweep. -/
  | blockJacobi (settings : SweepSettings α)
  /-- One Gauss-Seidel sweep from zero. -/
  | runOnce
  deriving BEq

section

variable {α : Type} [Scalar α]

/-- Restarts after 20 of at most 1000 iterations. -/
def GmresSettings.default : GmresSettings α := ⟨1000, 1e-12, 1e-10, 20, true⟩

/-- At most ten sweeps. -/
def SweepSettings.default : SweepSettings α := ⟨10, 1e-10, 1e-10, true⟩

/-- Whether a tolerance is a finite number that is not negative. -/
def isTolerance (x : α) : Bool := Scalar.isFinite x && !decide (x < 0)

/-- Checks a pair of tolerances. -/
def checkTolerances (atol rtol : α) : Except LinearConfigError Unit :=
  if !isTolerance atol then .error .atol
  else if !isTolerance rtol then .error .rtol
  else .ok ()

/-- Checks tolerances and the length of a cycle. -/
def GmresSettings.validate (s : GmresSettings α) : Except LinearConfigError Unit :=
  match checkTolerances s.atol s.rtol with
  | .error e => .error e
  | .ok _ => if s.restart = 0 then .error .restart else .ok ()

/-- Checks tolerances. -/
def SweepSettings.validate (s : SweepSettings α) : Except LinearConfigError Unit :=
  checkTolerances s.atol s.rtol

/-- Checks the settings of a solver and then those of its preconditioner. -/
def LinearConfig.validate : LinearConfig α → Except LinearConfigError Unit
  | .direct => .ok ()
  | .gmres s => s.validate
  | .preconditioned s nested =>
    match s.validate with
    | .error e => .error e
    | .ok _ => nested.validate
  | .blockGaussSeidel s => s.validate
  | .blockJacobi s => s.validate
  | .runOnce => .ok ()

/-- The same solver with another preconditioner; only GMRES takes one. -/
def LinearConfig.withPreconditioner : LinearConfig α → LinearConfig α → LinearConfig α
  | .gmres s, nested => .preconditioned s nested
  | .preconditioned s _, nested => .preconditioned s nested
  | c, _ => c

end

end Mdao
