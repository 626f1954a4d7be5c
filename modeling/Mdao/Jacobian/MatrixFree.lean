import Mdao.Jacobian.Assembled

/-!
# Products without a matrix

The Jacobian over a range of slots can be applied without being assembled: each unit forms its own
product, and the routes carry seeds from slots to inputs and back. `MatrixFree.apply` has the same
meaning as the product with the assembled matrix.
-/

namespace Mdao

/-- The Jacobian of some units over a range of slots, at a point. -/
structure MatrixFree (α : Type) where
  /-- Where everything is. -/
  arrangement : Arrangement α
  /-- All units. -/
  units : Array (Component α)
  /-- The units that contribute. -/
  unitIds : List Nat
  /-- The range of slots. -/
  range : Span
  /-- The slots at the point. -/
  slots : Array α
  /-- The inputs at the point. -/
  inputs : Array α

namespace MatrixFree

variable {α : Type} [Scalar α]

/-- Adds the product with one unit's part of the Jacobian. -/
def addForward (op : MatrixFree α) (x y : Array α) (p : Placement α) (c : Component α) :
    Except EvalError (Array α) := do
  let start := op.range.start
  let own := p.outputs.relativeTo start
  let seed (route : Route α) : α :=
    if op.range.contains route.slot then route.scale * Vec.entry x (route.slot - start) else 0
  let product ← c.applyForward (Vec.slice op.inputs p.inputs) (Vec.slice op.slots p.outputs)
    (p.routes.map seed) (Vec.slice x own) (Vec.zeros p.outputs.size)
  return Vec.scatter y (own.indices.zip product.toList)

/-- Adds the product with the transpose of one unit's part of the Jacobian. -/
def addReverse (op : MatrixFree α) (x y : Array α) (p : Placement α) (c : Component α) :
    Except EvalError (Array α) := do
  let start := op.range.start
  let own := p.outputs.relativeTo start
  let (dInputs, dOutputs) ← c.applyReverse (Vec.slice op.inputs p.inputs)
    (Vec.slice op.slots p.outputs) (Vec.slice x own) (Vec.zeros p.routes.size)
    (Vec.zeros p.outputs.size)
  let y := Vec.scatter y (own.indices.zip dOutputs.toList)
  let fed := (p.routes.toList.zip dInputs.toList).filterMap fun (route, d) =>
    if op.range.contains route.slot then some (route.slot - start, route.scale * d) else none
  return Vec.scatter y fed

/-- Adds the products of units one after the other; a unit without slots in the range adds
nothing. -/
def addUnits (op : MatrixFree α) (mode : Mode) (x y : Array α) :
    List Nat → Except EvalError (Array α)
  | [] => .ok y
  | u :: rest =>
    let p := op.arrangement.unit u
    match op.units[u]? with
    | none => op.addUnits mode x y rest
    | some c =>
      if op.range.contains p.outputs.start then
        let added := match mode with
          | .fwd => op.addForward x y p c
          | .rev => op.addReverse x y p c
        match added with
        | .ok y => op.addUnits mode x y rest
        | .error e => .error e
      else op.addUnits mode x y rest

/-- The product with the Jacobian or its transpose. -/
def apply (op : MatrixFree α) (mode : Mode) (x : Array α) : Except EvalError (Array α) :=
  let start := op.range.start
  let identity := (op.arrangement.independentsIn op.range).map fun s =>
    (s - start, Vec.entry x (s - start))
  op.addUnits mode x (Vec.scatter (Vec.zeros op.range.size) identity) op.unitIds

/-- The Jacobian as an operator. -/
def operator (op : MatrixFree α) : Operator α where
  dim := op.range.size
  apply := op.apply
  assembled := none
  blocks := [.upTo op.range.size]
  solveBlock _ _ _ := none

end MatrixFree

end Mdao
