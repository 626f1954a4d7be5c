import Mdao.Coloring.Text
import Mdao.Report.Number

/-!
# Patterns and colorings in reports

The counts and groups of a coloring, the entries and the density of a pattern.
-/

namespace Mdao.Report

/-- A pattern with its entries by rows and by columns. -/
def pattern (p : Pattern) : Datum :=
  .table
    [("shape", .ofNats [p.nrows, p.ncols]), ("nnz", .ofNat p.nnz),
      ("density", Rounding.settled.write (p.density : Float)),
      ("entries", .list (p.entries.map fun e => .ofNats [e.1, e.2])),
      ("columns", .list (p.columns.toList.map Datum.ofNats))]

/-- A coloring with its groups and its counts. -/
def coloring (c : Coloring) : Datum :=
  .table
    [("fwd", .list (c.fwd.map Datum.ofNats)), ("rev", .list (c.rev.map Datum.ofNats)),
      ("recovery", .text c.recovery.label), ("total", .ofNat c.solves),
      ("naive", .ofNat c.naiveSolves), ("text", .text c.summary),
      ("signed", .truth c.signature.isSome)]

end Mdao.Report
