import Mdao.Formula.Data
import Mdao.Nonlinear.Basic

/-!
# Nonlinear systems by formulas

A `FormulaSystem` gives residuals, Jacobian, sweep and guess of unknowns `x` by expressions, in
which the entry `i` of any variable is `x[i]`. Its state counts what it has been asked for.
-/

namespace Mdao

open Formula

/-- A nonlinear system by formulas. -/
structure FormulaSystem (α : Type) where
  /-- The name in errors of the residuals. -/
  name : String
  /-- The residuals. -/
  residuals : List (Expr α)
  /-- The Jacobian by rows. -/
  jacobian : List (List (Expr α))
  /-- The unknowns that a sweep sets one after the other. -/
  sweep : List (Nat × Expr α)
  /-- The unknowns that are set before the first iteration. -/
  guess : List (Nat × Expr α)
  /-- What is checked before residuals and sweeps. -/
  guards : List (Guard α)
  /-- What is checked before the Jacobian is computed. -/
  linearizeGuards : List (Guard α)
  /-- The lower bounds. -/
  lower : Array (Option α)
  /-- The upper bounds. -/
  upper : Array (Option α)

/-- The unknowns, the Jacobian as last computed, and counts. -/
structure FormulaSystem.State (α : Type) where
  /-- The unknowns. -/
  x : Array α
  /-- The Jacobian by rows. -/
  jacobian : List (List α)
  /-- The number of residual evaluations that failed. -/
  failures : Nat
  /-- The number of sweeps. -/
  sweeps : Nat
  /-- The number of times the Jacobian was asked for. -/
  linearized : Nat

namespace FormulaSystem

/-- The state at given unknowns. -/
def State.at {α : Type} (x : Array α) : State α := ⟨x, [], 0, 0, 0⟩

variable {α : Type} [Elementary α]

/-- The entries that expressions read. -/
def entries (x : Array α) (_ : String) (i : Nat) : α := Vec.entry x i

/-- Sets unknowns one after the other, each by an expression that sees the ones before it. -/
def assign (x : Array α) (assignments : List (Nat × Expr α)) : Array α :=
  assignments.foldl (fun x a => x.setIfInBounds a.1 (a.2.eval (entries x))) x

/-- The residuals at the present unknowns. -/
def evaluate (s : FormulaSystem α) : EStateM EvalError (State α) (Array α) := fun t =>
  match checkGuards (entries t.x) s.guards with
  | some e => .error (e.ownedBy s.name) { t with failures := t.failures + 1 }
  | none => .ok (s.residuals.map (Expr.eval (entries t.x))).toArray t

/-- Computes the Jacobian. -/
def linearize (s : FormulaSystem α) : EStateM EvalError (State α) Unit := fun t =>
  let t := { t with linearized := t.linearized + 1 }
  match checkGuards (entries t.x) s.linearizeGuards with
  | some e => .error e t
  | none =>
    .ok () { t with jacobian := s.jacobian.map fun row => row.map (Expr.eval (entries t.x)) }

/-- Sweeps. -/
def sweepOnce (s : FormulaSystem α) : EStateM EvalError (State α) Unit := fun t =>
  let t := { t with sweeps := t.sweeps + 1 }
  match checkGuards (entries t.x) s.guards with
  | some e => .error e t
  | none => .ok () { t with x := assign t.x s.sweep }

/-- The system as solvers see it. -/
def system (s : FormulaSystem α) : NonlinearSystem α (State α) where
  state := State.x
  setState x t := { t with x := x }
  lower := s.lower
  upper := s.upper
  residuals := s.evaluate
  linearize := s.linearize
  sweep := s.sweepOnce
  guess := fun t => .ok () { t with x := assign t.x s.guess }
  operator t := { Operator.ofRows t.jacobian [.upTo t.x.size] with dim := t.x.size }

/-- Reads pairs of an index and an expression. -/
def assignmentsOf (d : Datum) : List (Nat × Expr Float) :=
  d.items.map fun a => ((itemAt a 0).natural, .ofDatum (itemAt a 1))

/-- Reads bounds of `n` unknowns. -/
def boundsOf (d : Datum) (name : String) (n : Nat) (default : Float) : Array (Option Float) :=
  match d.given? name Datum.reals with
  | some bounds => bounds.map some
  | none => Array.replicate n (some default)

/-- Reads a system of `n` unknowns. -/
def ofDatum (name : String) (n : Nat) (d : Datum) : FormulaSystem Float where
  name := name
  residuals := Expr.listOf (d.field "residuals")
  jacobian := Expr.rowsOf (d.field "jacobian")
  sweep := assignmentsOf (d.field "sweep")
  guess := assignmentsOf (d.field "guess")
  guards := Guard.listOf (d.field "guards")
  linearizeGuards := Guard.listOf (d.field "linearize_guards")
  lower := boundsOf d "lower" n (-1.0 / 0.0)
  upper := boundsOf d "upper" n (1.0 / 0.0)

end FormulaSystem

end Mdao
