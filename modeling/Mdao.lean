import Mdao.Coloring.Basic
import Mdao.Coloring.Cache
import Mdao.Coloring.Conflicts
import Mdao.Coloring.Pattern
import Mdao.Coloring.Recover
import Mdao.Coloring.Settings
import Mdao.Coloring.Signature
import Mdao.Coloring.Text
import Mdao.Complex
import Mdao.Component
import Mdao.Component.Approximation
import Mdao.Component.Linearization
import Mdao.Count
import Mdao.Decimal
import Mdao.Discipline
import Mdao.Discipline.Data
import Mdao.Error
import Mdao.Example.Models
import Mdao.Example.Sellar
import Mdao.Example.SinCos
import Mdao.Example.Single
import Mdao.Formula
import Mdao.Formula.Data
import Mdao.Formula.Discipline
import Mdao.Formula.System
import Mdao.Graph
import Mdao.Jacobian.Arrangement
import Mdao.Jacobian.Assembled
import Mdao.Jacobian.MatrixFree
import Mdao.Layout
import Mdao.Linear.Basic
import Mdao.Linear.Config
import Mdao.Linear.Direct
import Mdao.Linear.Factors
import Mdao.Linear.Gmres
import Mdao.Linear.Solver
import Mdao.Linear.Sweep
import Mdao.Measure
import Mdao.Measure.Symbol
import Mdao.Mode
import Mdao.Model.Assembly
import Mdao.Model.Basic
import Mdao.Model.Block
import Mdao.Model.Check
import Mdao.Model.Error
import Mdao.Model.Listing
import Mdao.Model.Options
import Mdao.Model.Problem
import Mdao.Model.Settings
import Mdao.Model.Setup
import Mdao.Model.Totals
import Mdao.Nonlinear.Basic
import Mdao.Nonlinear.Config
import Mdao.Nonlinear.GaussSeidel
import Mdao.Nonlinear.LineSearch
import Mdao.Nonlinear.Newton
import Mdao.Nonlinear.Solver
import Mdao.Observer
import Mdao.Operator
import Mdao.Partials
import Mdao.Proofs.Agree
import Mdao.Proofs.Coloring.Cache
import Mdao.Proofs.Coloring.Conflicts
import Mdao.Proofs.Coloring.Places
import Mdao.Proofs.Coloring.Recovery
import Mdao.Proofs.Coloring.Samples
import Mdao.Proofs.Coloring.Shared
import Mdao.Proofs.Coloring.Solves
import Mdao.Proofs.Coloring.Text
import Mdao.Proofs.Component.Afresh
import Mdao.Proofs.Component.ByName
import Mdao.Proofs.Component.Columns
import Mdao.Proofs.Component.Declared
import Mdao.Proofs.Component.Differences
import Mdao.Proofs.Component.Grouped
import Mdao.Proofs.Component.Latest
import Mdao.Proofs.Component.Located
import Mdao.Proofs.Component.Places
import Mdao.Proofs.Component.Products
import Mdao.Proofs.Component.Repeated
import Mdao.Proofs.Component.Strict
import Mdao.Proofs.Exact
import Mdao.Proofs.Graph.Canonical
import Mdao.Proofs.Graph.Order
import Mdao.Proofs.History
import Mdao.Proofs.Jacobian.Assembled
import Mdao.Proofs.Jacobian.MatrixFree
import Mdao.Proofs.Jacobian.Replay
import Mdao.Proofs.Layout.Pushes
import Mdao.Proofs.Linear.Calls
import Mdao.Proofs.Linear.Cold
import Mdao.Proofs.Linear.Exact
import Mdao.Proofs.Linear.Fixed
import Mdao.Proofs.Linear.Restarts
import Mdao.Proofs.Linear.Settled
import Mdao.Proofs.Linear.Sweep
import Mdao.Proofs.Linear.Triangular
import Mdao.Proofs.Measure.Exponents
import Mdao.Proofs.Measure.Joined
import Mdao.Proofs.Model.AffineBlocks
import Mdao.Proofs.Model.Aged
import Mdao.Proofs.Model.Approximated
import Mdao.Proofs.Model.Assembled
import Mdao.Proofs.Model.Blocks
import Mdao.Proofs.Model.Built
import Mdao.Proofs.Model.Checked
import Mdao.Proofs.Model.Detection
import Mdao.Proofs.Model.Determined
import Mdao.Proofs.Model.Differences
import Mdao.Proofs.Model.Frame
import Mdao.Proofs.Model.Groups
import Mdao.Proofs.Model.History
import Mdao.Proofs.Model.Indistinct
import Mdao.Proofs.Model.Jacobian
import Mdao.Proofs.Model.Layout
import Mdao.Proofs.Model.Ledger
import Mdao.Proofs.Model.NewtonBlocks
import Mdao.Proofs.Model.Parts
import Mdao.Proofs.Model.Quantities
import Mdao.Proofs.Model.Reached
import Mdao.Proofs.Model.Regular
import Mdao.Proofs.Model.Reports
import Mdao.Proofs.Model.Residuals
import Mdao.Proofs.Model.Restored
import Mdao.Proofs.Model.RunOnce
import Mdao.Proofs.Model.Sensitivity
import Mdao.Proofs.Model.Settled
import Mdao.Proofs.Model.Setup
import Mdao.Proofs.Model.Slopes
import Mdao.Proofs.Model.Solves
import Mdao.Proofs.Model.Steps
import Mdao.Proofs.Model.Structure
import Mdao.Proofs.Model.StructureWords
import Mdao.Proofs.Model.Totals
import Mdao.Proofs.Model.Use
import Mdao.Proofs.Model.WellFormed
import Mdao.Proofs.Nonlinear.Armijo
import Mdao.Proofs.Nonlinear.Bounds
import Mdao.Proofs.Nonlinear.Diverged
import Mdao.Proofs.Nonlinear.Ends
import Mdao.Proofs.Nonlinear.Feasible
import Mdao.Proofs.Nonlinear.Respects
import Mdao.Proofs.Nonlinear.Stalled
import Mdao.Proofs.Nonlinear.Trace
import Mdao.Proofs.Nonlinear.Truncated
import Mdao.Proofs.Scalar.Order
import Mdao.Proofs.Span
import Mdao.Proofs.Store.Calls
import Mdao.Proofs.Store.Lens
import Mdao.Proofs.Store.Ranges
import Mdao.Proofs.Text.Json
import Mdao.Proofs.Text.ReadBack
import Mdao.Proofs.Text.Wildcard
import Mdao.Proofs.Units
import Mdao.Proofs.Vec
import Mdao.Random
import Mdao.Report.Coloring
import Mdao.Report.Component
import Mdao.Report.Error
import Mdao.Report.Model
import Mdao.Report.Number
import Mdao.Scalar
import Mdao.Scalar.Binary64
import Mdao.Span
import Mdao.Store
import Mdao.Text.Blank
import Mdao.Text.Datum
import Mdao.Text.Json
import Mdao.Text.Reading
import Mdao.Text.Toml
import Mdao.Text.Wildcard
import Mdao.Variable
import Mdao.Vec
