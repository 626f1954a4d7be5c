import Mdao.Component.Linearization
import Mdao.Jacobian.Arrangement
import Mdao.Store

/-!
# Assemblies

An `Assembly` is the changing part of a model that is run: its units and the values of its
variables. Every step on a unit first transfers the unit's inputs along their routes, so a unit
always sees the latest values, and then reads and writes the unit's own slots alone. A step that
fails leaves behind what it had written.
-/

namespace Mdao

/-- Units and the values of their variables. -/
structure Assembly (α : Type) where
  /-- The units. -/
  units : Array (Component α)
  /-- The values. -/
  store : Store α

namespace Assembly

/-- Runs a step for each item of a list, up to the first failure. -/
def forEach {ε σ β : Type} (step : β → EStateM ε σ Unit) : List β → EStateM ε σ Unit
  | [] => pure ()
  | b :: rest => do
    step b
    forEach step rest

variable {α : Type} [Scalar α]

/-- The value that a route carries. -/
def carried (slots : Array α) (route : Route α) : α :=
  route.scale * Vec.entry slots route.slot + route.offset

/-- Transfers the inputs of a unit. -/
def transfer (p : Placement α) (a : Assembly α) : Assembly α :=
  let inputs := Vec.splice a.store.inputs p.inputs (p.routes.map (carried a.store.slots))
  { a with store := { a.store with inputs := inputs } }

/-- The inputs of a unit. -/
def inputsOf (a : Assembly α) (p : Placement α) : Array α := Vec.slice a.store.inputs p.inputs

/-- The outputs of a unit. -/
def outputsOf (a : Assembly α) (p : Placement α) : Array α := Vec.slice a.store.slots p.outputs

/-- The residuals of a unit. -/
def residualsOf (a : Assembly α) (p : Placement α) : Array α :=
  Vec.slice a.store.residuals p.outputs

/-- The assembly with other residuals of a unit. -/
def withResiduals (a : Assembly α) (p : Placement α) (r : Array α) : Assembly α :=
  { a with store := { a.store with residuals := Vec.splice a.store.residuals p.outputs r } }

/-- The assembly with other outputs of a unit. -/
def withOutputs (a : Assembly α) (p : Placement α) (y : Array α) : Assembly α :=
  { a with store := { a.store with slots := Vec.splice a.store.slots p.outputs y } }

/-- The assembly with another state of a unit. -/
def withUnit (a : Assembly α) (u : Nat) (c : Component α) : Assembly α :=
  { a with units := a.units.setIfInBounds u c }

/-- A step on one unit, after the transfer of its inputs; an unknown unit has nothing to do. -/
def onUnit (l : Arrangement α) (u : Nat)
    (step : Component α → Placement α → EStateM EvalError (Assembly α) Unit) :
    EStateM EvalError (Assembly α) Unit := fun a =>
  match a.units[u]? with
  | some c => step c (l.unit u) (a.transfer (l.unit u))
  | none => .ok () a

/-- Evaluates the residuals of a unit. -/
def evaluate (l : Arrangement α) (u : Nat) : EStateM EvalError (Assembly α) Unit :=
  onUnit l u fun c p a =>
    match c.residuals (a.inputsOf p) (a.outputsOf p) (a.residualsOf p) with
    | .ok _ r => .ok () (a.withResiduals p r)
    | .error e r => .error e (a.withResiduals p r)

/-- Refreshes the derivatives of a unit. -/
def linearize (l : Arrangement α) (strict : Option α) (u : Nat) :
    EStateM EvalError (Assembly α) Unit :=
  onUnit l u fun c p a =>
    match c.linearize (a.inputsOf p) (a.outputsOf p) strict with
    | .ok _ c => .ok () (a.withUnit u c)
    | .error e c => .error e (a.withUnit u c)

/-- Lets a unit determine its own outputs; a unit that cannot is left alone. -/
def solve (l : Arrangement α) (u : Nat) : EStateM EvalError (Assembly α) Unit :=
  onUnit l u fun c p a =>
    match c.solve (a.inputsOf p) (a.outputsOf p) with
    | .ok _ y => .ok () (a.withOutputs p y)
    | .error e y => .error e (a.withOutputs p y)

/-- Lets a unit choose the outputs that a solver starts from, without a new transfer. -/
def guess (l : Arrangement α) (a : Assembly α) (u : Nat) : Assembly α :=
  let p := l.unit u
  match a.units[u]? with
  | some c => a.withOutputs p (c.guess (a.inputsOf p) (a.outputsOf p) (a.residualsOf p))
  | none => a

/-- Whether one of some units is implicit. -/
def hasImplicit (a : Assembly α) (unitIds : List Nat) : Bool :=
  unitIds.any fun u =>
    match a.units[u]? with
    | some c => c.isImplicit
    | none => false

/-- Evaluates the residuals of units one after the other. -/
def evaluateAll (l : Arrangement α) (unitIds : List Nat) : EStateM EvalError (Assembly α) Unit :=
  forEach (evaluate l) unitIds

/-- Refreshes the derivatives of units one after the other. -/
def linearizeAll (l : Arrangement α) (strict : Option α) (unitIds : List Nat) :
    EStateM EvalError (Assembly α) Unit :=
  forEach (linearize l strict) unitIds

/-- Lets units determine their outputs one after the other. -/
def solveAll (l : Arrangement α) (unitIds : List Nat) : EStateM EvalError (Assembly α) Unit :=
  forEach (solve l) unitIds

/-- Lets units choose where a solver starts, in view of the present residuals; without an implicit
unit there is nothing to choose. -/
def guessAll (l : Arrangement α) (unitIds : List Nat) : EStateM EvalError (Assembly α) Unit :=
  fun a =>
    if a.hasImplicit unitIds then
      match evaluateAll l unitIds a with
      | .ok _ a => .ok () (unitIds.foldl (guess l) a)
      | .error e a => .error e a
    else .ok () a

end Assembly

end Mdao
