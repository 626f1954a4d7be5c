import Mdao.Jacobian.MatrixFree
import Mdao.Model.Assembly
import Mdao.Model.Options
import Mdao.Nonlinear.Solver

/-!
# Solver blocks

A `SolverBlock` is a group of units with the solvers that converge it, and what these remember from
one run to the next: the linear solver's memory and the assembled Jacobian. `SolverBlock.system`
presents it to a nonlinear solver: the unknowns are the slots of its units, and nothing else of the
model is written but the inputs and residuals of these units.

Solvers that work block by block see the Jacobian over a range of slots in parts (`Part`): the outputs
of each unit, in execution order, and then each independent input. A unit that solves with its own
diagonal block does so for its part.
-/

namespace Mdao

/-! ### Parts of an operator -/

/-- One diagonal block of an operator: the outputs of a unit, or an independent input. -/
structure Part where
  /-- The indices, relative to the range of the operator. -/
  range : Span
  /-- The unit. -/
  unit : Option Nat
  deriving DecidableEq, Repr

namespace Part

variable {α : Type}

/-- Whether a run of slots has a part in a range: it is not empty and starts there. -/
def covers (range s : Span) : Bool := !s.isEmpty && range.contains s.start

/-- The parts of a range of slots. -/
def partition (l : Arrangement α) (unitIds : List Nat) (range : Span) : List Part :=
  let units := unitIds.filterMap fun u =>
    let outputs := (l.unit u).outputs
    if covers range outputs then some ⟨outputs.relativeTo range.start, some u⟩ else none
  let independents := l.independents.filterMap fun s =>
    if covers range s then some ⟨s.relativeTo range.start, none⟩ else none
  units ++ independents

variable [Scalar α]

/-- The solution with a part's own solver, if it has one. -/
def solve (units : Array (Component α)) (parts : List Part) (k : Nat) (rhs : Array α)
    (mode : Mode) : Option (Except EvalError (Array α)) :=
  match parts[k]? with
  | some ⟨_, some u⟩ => units[u]?.bind fun c => c.linearSolve rhs mode
  | _ => none

/-- The Jacobian over a range of slots with its parts: by the assembled matrix where there is one,
by products of the units otherwise. -/
def operator (l : Arrangement α) (a : Assembly α) (unitIds : List Nat) (range : Span)
    (parts : List Part) (jacobian : Option (Jacobian α)) : Operator α :=
  let whole : Operator α := match jacobian with
    | some j => j.operator
    | none => MatrixFree.operator ⟨l, a.units, unitIds, range, a.store.slots, a.store.inputs⟩
  { whole with blocks := parts.map Part.range, solveBlock := solve a.units parts }

end Part

/-! ### Blocks -/

/-- Units that are converged together. -/
structure SolverBlock (α : Type) where
  /-- The name of the unit, or the names of all units in brackets. -/
  name : String
  /-- The units in execution order. -/
  unitIds : List Nat
  /-- The slots of their outputs. -/
  range : Span
  /-- The diagonal blocks. -/
  parts : List Part
  /-- The lower bounds of the unknowns. -/
  lower : Array (Option α)
  /-- The upper bounds of the unknowns. -/
  upper : Array (Option α)
  /-- The solvers. -/
  options : BlockOptions α
  /-- What the linear solver remembers. -/
  memory : LinearMemory α
  /-- The Jacobian as last assembled. -/
  jacobian : Option (Jacobian α)

/-- What a block changes while it is solved. -/
structure SolverBlock.State (α : Type) where
  /-- The units and values of the model. -/
  assembly : Assembly α
  /-- The Jacobian of the block. -/
  jacobian : Option (Jacobian α)

namespace SolverBlock

variable {α : Type} [Scalar α]

/-- A step on the units and values alone. -/
def State.lift (step : EStateM EvalError (Assembly α) Unit) : EStateM EvalError (State α) Unit :=
  fun s =>
    match step s.assembly with
    | .ok _ a => .ok () { s with assembly := a }
    | .error e a => .error e { s with assembly := a }

/-- The unknowns. -/
def unknowns (b : SolverBlock α) (s : State α) : Array α :=
  Vec.slice s.assembly.store.slots b.range

/-- Replaces the unknowns. -/
def setUnknowns (b : SolverBlock α) (x : Array α) (s : State α) : State α :=
  let store := s.assembly.store
  let slots := Vec.splice store.slots b.range x
  { s with assembly := { s.assembly with store := { store with slots := slots } } }

/-- Evaluates and returns the residuals of the block. -/
def residuals (b : SolverBlock α) (l : Arrangement α) :
    EStateM EvalError (State α) (Array α) := fun s =>
  match Assembly.evaluateAll l b.unitIds s.assembly with
  | .ok _ a => .ok (Vec.slice a.store.residuals b.range) { s with assembly := a }
  | .error e a => .error e { s with assembly := a }

/-- The Jacobian with the present derivatives of the units. -/
def assemble (b : SolverBlock α) (l : Arrangement α) (s : State α) : Jacobian α :=
  match s.jacobian with
  | some j => j.refresh l s.assembly.units
  | none => .build l s.assembly.units b.unitIds b.range

/-- Refreshes the derivatives of the units, and the Jacobian where it is kept. -/
def linearize (b : SolverBlock α) (l : Arrangement α) (strict : Option α) :
    EStateM EvalError (State α) Unit := fun s =>
  match State.lift (Assembly.linearizeAll l strict b.unitIds) s with
  | .error e s => .error e s
  | .ok _ s =>
    if b.options.assembleJac then .ok () { s with jacobian := some (b.assemble l s) }
    else .ok () s

/-- The Jacobian over the block's slots. -/
def operator (b : SolverBlock α) (l : Arrangement α) (s : State α) : Operator α :=
  Part.operator l s.assembly b.unitIds b.range b.parts
    (if b.options.assembleJac then s.jacobian else none)

/-- The block as a nonlinear system. -/
def system (b : SolverBlock α) (l : Arrangement α) (strict : Option α) :
    NonlinearSystem α (State α) where
  state := b.unknowns
  setState := b.setUnknowns
  lower := b.lower
  upper := b.upper
  residuals := b.residuals l
  linearize := b.linearize l strict
  sweep := State.lift (Assembly.solveAll l b.unitIds)
  guess := State.lift (Assembly.guessAll l b.unitIds)
  operator := b.operator l

/-- The names of some units as the name of a block. -/
def nameOf : List String → String
  | [name] => name
  | names => "[" ++ ", ".intercalate names ++ "]"

end SolverBlock

end Mdao
