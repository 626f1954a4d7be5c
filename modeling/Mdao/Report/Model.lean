import Mdao.Model.Check
import Mdao.Model.Listing
import Mdao.Nonlinear.Basic
import Mdao.Report.Number

/-!
# Models in reports

Histories of residual norms and the outcomes of solves; the blocks of a graph, runs, listings, totals
and checks of derivatives.
-/

namespace Mdao.Report

/-! ### Solves -/

/-- A history with its entries and what follows from them. -/
def history (h : History Float) : Datum :=
  let r := Rounding.norm
  .table
    [("entries", .list (h.entries.map fun e => .list [.ofNat e.1, r.write e.2])),
      ("solves", .ofNat h.solves), ("norms", .ofNat h.norms.length),
      ("last", .ofOption r.write h.last?), ("monotone", .truth h.isMonotone)]

/-- The outcome of a linear solve. -/
def linearSolution (r : Rounding) (s : LinearSolution Float) : Datum :=
  .table
    [("status", .text s.status.label), ("converged", .truth (s.status == .converged)),
      ("x", r.vector s.x), ("iters", .ofNat s.iters),
      ("residual_norm", Rounding.norm.write s.residualNorm)]

/-- The outcome of a nonlinear solve. -/
def solution (s : Solution Float) : Datum :=
  let r := Rounding.norm
  .table
    [("status", .text s.status.label), ("converged", .truth s.isConverged),
      ("iters", .ofNat s.iters), ("initial_norm", r.write s.initialNorm),
      ("residual_norm", r.write s.residualNorm)]

/-! ### Models -/

/-- Blocks in execution order. -/
def blocks (bs : List Block) : Datum :=
  .list (bs.map fun b => .table [("coupled", .truth b.isCoupled), ("units", .ofTexts b.units)])

/-- One block of a run. -/
def blockRun (b : BlockReport Float) : Datum :=
  .table [("name", .text b.name), ("solver", .text b.solver), ("solution", solution b.solution)]

/-- A run with its history; `asked` is the name of a block that is looked for. -/
def run (r : RunReport Float) (h : History Float) (asked : Option String) : Datum :=
  .table
    [("converged", .truth r.isConverged), ("blocks", .list (r.blocks.map blockRun)),
      ("has_block", .ofOption (fun name => .truth (r.block? name).isSome) asked),
      ("history", history h)]

/-- The values of all variables in order. -/
def values (r : Rounding) (s : Store Float) : Datum :=
  .list (s.ids.map fun i =>
    .list [.text (s.nameOf i), r.vector (s.valueOf i), .truth (s.isIndependent i)])

/-- Outputs with the norms of their residuals. -/
def residuals (es : List (ResidualEntry Float)) : Datum :=
  .list (es.map fun e => .list [.text e.name, Rounding.norm.write e.norm])

/-- A listing of variables. -/
def listing (r : Rounding) (vs : List (ListedVariable Float)) : Datum :=
  .list (vs.map fun v => .table
    [("name", .text v.name), ("value", r.vector v.value),
      ("units", .ofOption Datum.text v.units), ("tags", .ofTexts v.tags),
      ("residual_norm", .ofOption Rounding.norm.write v.residualNorm)])

/-- A block of a matrix by rows. -/
def denseBlock (r : Rounding) (b : DenseBlock Float) : Datum :=
  r.rows b.rows

/-- The totals of one pair of names, as they are found by these names. -/
def totalsBlock (r : Rounding) (t : Totals Float) (b : String × String × DenseBlock Float) :
    Datum :=
  .table
    [("of", .text b.1), ("wrt", .text b.2.1), ("dim", .ofNats [b.2.2.shape.1, b.2.2.shape.2]),
      ("found", .truth (t.get? b.1 b.2.1).isSome),
      ("value", .ofOption r.write (t.value? b.1 b.2.1))]

/-- Totals as a matrix and block by block; `missing` tells that an unknown pair is not found. -/
def totals (r : Rounding) (t : Totals Float) : Datum :=
  .table
    [("matrix", r.rows t.matrixRows), ("blocks", .list (t.blocks.map (totalsBlock r t))),
      ("solves", .ofNat t.solves), ("missing", .truth (t.get? "no.such" "no.such").isNone)]

/-- The entries of a check of derivatives. -/
def checkFields (r : Rounding) (c : DerivativeCheck Float) : List (String × Datum) :=
  [("of", .text c.quantity), ("wrt", .text c.input), ("analytic", denseBlock r c.analytic),
    ("approx", denseBlock .approximate c.approx),
    ("abs_error", Rounding.error.write c.absError),
    ("rel_error", Rounding.error.write c.relError)]

/-- Checks of totals. -/
def totalChecks (r : Rounding) (cs : List (DerivativeCheck Float)) : Datum :=
  .list (cs.map fun c => .table (checkFields r c))

/-- Checks of partial derivatives. -/
def partialChecks (r : Rounding) (cs : List (PartialCheck Float)) : Datum :=
  .list (cs.map fun c => .table (("unit", .text c.owner) :: checkFields r c.check))

end Mdao.Report
