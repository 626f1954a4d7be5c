import Mdao.Decimal
import Mdao.Model.Error

/-!
# Options of a model

Which solvers converge which blocks, how total derivatives are computed, and whether the declared
structure of derivatives is checked. `SolverOptions.validate` reports the first option that makes no
sense: first the solvers of the root, then those of the blocks in order of their names, then the
options for totals, and last the tolerance of the check.
-/

namespace Mdao

/-- The solvers of one block. -/
structure BlockOptions (α : Type) where
  /-- The nonlinear solver. -/
  nonlinear : NonlinearConfig α
  /-- The linear solver. -/
  linear : LinearConfig α
  /-- Whether the Jacobian is kept as a matrix. -/
  assembleJac : Bool
  deriving BEq

/-- How total derivatives are computed. -/
structure TotalsOptions (α : Type) where
  /-- The solver for the linear systems of the whole model. -/
  linear : LinearConfig α
  /-- How the sparsity is found and used. -/
  coloring : ColoringSettings α
  /-- The file that keeps the coloring. -/
  coloringFile : Option String
  deriving BEq

/-- All options of a model. -/
structure SolverOptions (α : Type) where
  /-- Solvers that converge the whole model as one block. -/
  root : Option (BlockOptions α)
  /-- The solvers of blocks, each under the name of one of its units, in order of the names. -/
  blocks : List (String × BlockOptions α)
  /-- How total derivatives are computed. -/
  totals : TotalsOptions α
  /-- The tolerance of the check of declared derivatives, where it is made. -/
  strictPartials : Option α
  deriving BEq

variable {α : Type} [Scalar α]

namespace BlockOptions

/-- A single sweep. -/
def default : BlockOptions α := ⟨.runOnce, .direct, true⟩

/-- Newton's method with direct linear solves. -/
def newton : BlockOptions α := ⟨.newton .default, .direct, true⟩

/-- Checks the nonlinear solver and then the linear one. -/
def validate (o : BlockOptions α) : Except (ModelError α) Unit :=
  match o.nonlinear.validate with
  | .error e => .error (.nonlinearConfig e)
  | .ok _ =>
    match o.linear.validate with
    | .error e => .error (.linearConfig e)
    | .ok _ => .ok ()

end BlockOptions

/-- Direct solves and a coloring in memory. -/
def TotalsOptions.default : TotalsOptions α := ⟨.direct, .default, none⟩

namespace SolverOptions

/-- No solvers named. -/
def default : SolverOptions α := ⟨none, [], .default, none⟩

/-- A value put under a name into a list in order of names, in the place of the one of that
name. -/
def insertNamed {β : Type} (name : String) (x : β) : List (String × β) → List (String × β)
  | [] => [(name, x)]
  | (other, y) :: rest =>
    if name < other then (name, x) :: (other, y) :: rest
    else if name = other then (name, x) :: rest
    else (other, y) :: insertNamed name x rest

/-- The options with other solvers for the block of a unit. -/
def withBlock (o : SolverOptions α) (unit : String) (b : BlockOptions α) : SolverOptions α :=
  { o with blocks := insertNamed unit b o.blocks }

/-- The options with solvers for the whole model as one block. -/
def withRoot (o : SolverOptions α) (b : BlockOptions α) : SolverOptions α :=
  { o with root := some b }

/-- Checks the solvers of blocks in order. -/
def validateBlocks : List (String × BlockOptions α) → Except (ModelError α) Unit
  | [] => .ok ()
  | (_, b) :: rest =>
    match b.validate with
    | .error e => .error e
    | .ok _ => validateBlocks rest

/-- Checks the options for totals. -/
def validateTotals (o : TotalsOptions α) : Except (ModelError α) Unit :=
  match o.linear.validate with
  | .error e => .error (.linearConfig e)
  | .ok _ =>
    match o.coloring.validate with
    | .error e => .error (.coloring (.invalidConfig e))
    | .ok _ => .ok ()

/-- Checks the tolerance of the check of declared derivatives. -/
def validateStrict [Shown α] : Option α → Except (ModelError α) Unit
  | none => .ok ()
  | some tol =>
    if Scalar.isFinite tol && !decide (tol < 0) then .ok ()
    else
      let shown := Shown.shown tol
      .error (.setup s!"strict_partials must be finite and non-negative, got {shown}")

/-- Checks all options. -/
def validate [Shown α] (o : SolverOptions α) : Except (ModelError α) Unit := do
  match o.root with
  | some root => root.validate
  | none => pure ()
  validateBlocks o.blocks
  validateTotals o.totals
  validateStrict o.strictPartials

end SolverOptions

end Mdao
