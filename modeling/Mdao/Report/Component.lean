import Mdao.Component.Linearization
import Mdao.Discipline.Data
import Mdao.Jacobian.Assembled
import Mdao.Report.Number

/-!
# Units in reports

A unit with what it declares, its partial derivatives block by block, and its Jacobian.
-/

namespace Mdao.Report

/-- A span as a pair. -/
def span (s : Span) : Datum := .ofNats [s.start, s.stop]

/-- A variable of differentiation by its side and position. -/
def wrt : Wrt → Datum
  | .input p => .list [.text "input", .ofNat p]
  | .output p => .list [.text "output", .ofNat p]

/-- A column by its side and index. -/
def column : Column → Datum
  | .input i => .list [.text "input", .ofNat i]
  | .output i => .list [.text "output", .ofNat i]

/-- How the values of a block are rounded. -/
def blockRounding (r : Rounding) (b : PartialBlock Float) : Rounding :=
  if b.method.isApproximated then .approximate else r

/-- A block of partial derivatives. -/
def partialBlock (r : Rounding) (b : PartialBlock Float) : Datum :=
  let r := blockRounding r b
  .table
    [("of", .text b.outputName), ("wrt", .text b.wrtName), ("wrt_pos", wrt b.wrt),
      ("shape", .ofNats [b.shape.1, b.shape.2]), ("constant", .truth b.constant),
      ("method", b.method.toDatum Rounding.setting),
      ("entries", .list (b.entries.map fun e =>
        .list [.ofNat e.1, .ofNat e.2.1, r.write e.2.2])),
      ("dense", r.vector b.toDense)]

/-- All blocks of partial derivatives of a unit. -/
def partialBlocks (r : Rounding) (c : Component Float) : Datum :=
  .list (c.partials.blocks.toList.map (partialBlock r))

/-- The block of a pair of variables, with the answers to whether places are declared. -/
def partialPair (r : Rounding) (c : Component Float) (output wrt : String)
    (places : List (Nat × Nat)) : Datum :=
  let found := c.partials.find? output wrt
  let contains (place : Nat × Nat) : Datum :=
    .ofOption (fun b => .truth (PartialBlock.contains b place.1 place.2)) found
  .table
    [("declared", .truth found.isSome),
      ("values", .ofOption (fun b => (blockRounding r b).vector b.values) found),
      ("contains", .list (places.map contains))]

/-- The entries of a unit's Jacobian. -/
def entries (r : Rounding) (c : Component Float) : Datum :=
  .list (c.entries.map fun e => .list [.ofNat e.row, column e.column, r.write e.value])

/-- The default values of variables. -/
def defaults (vs : List (Variable Float)) : Datum :=
  .list (vs.map fun v => Rounding.settled.vector v.value)

/-- What a unit declares. -/
def component (c : Component Float) : Datum :=
  let caps := c.capabilities
  .table
    [("name", .text c.name), ("has_kind", .truth true), ("implicit", .truth c.isImplicit),
      ("analytic", .truth c.hasAnalyticPartials),
      ("caps", .list [.truth caps.solveNonlinear, .truth caps.solveLinear,
        .truth caps.applyLinear, .truth caps.complexStep]),
      ("inputs", .ofTexts c.inputs.names), ("outputs", .ofTexts c.outputs.names),
      ("sizes", .ofNats [c.inputs.size, c.outputs.size]),
      ("defaults", .list [defaults c.discipline.inputs, defaults c.discipline.outputs]),
      ("partials", .ofNat c.partials.blocks.size),
      ("no_partials", .truth c.partials.blocks.isEmpty)]

/-- A variable, with its form as data. -/
def declaredVariable (v : Variable Float) : Datum :=
  let r := Rounding.settled
  .table
    [("name", .text v.name), ("dims", .ofNats v.shape), ("size", .ofNat v.size),
      ("units", .ofOption Datum.text v.units), ("default", r.vector v.value),
      ("tags", .ofTexts v.tags),
      ("bounds", .list [.ofOption r.write v.lowerBound, .ofOption r.write v.upperBound]),
      ("json", v.toDatum Rounding.setting)]

/-- A Jacobian with its pattern and its matrix. -/
def jacobian (r : Rounding) (j : Jacobian Float) : Datum :=
  let op := j.operator
  .table
    [("dim", .ofNat op.dim), ("range", span j.range),
      ("pattern", .list (j.pattern.map fun p => .ofNats [p.1, p.2])),
      ("blocks", .ofNat op.blocks.length),
      ("assembled", .ofOption (fun m => .ofNat (SparseMatrix.entries m).length) op.assembled),
      ("matrix", r.rows (j.matrix.toRows op.dim))]

end Mdao.Report
