import Mdao.Component

/-!
# Approximated derivatives

A column of a component's Jacobian is approximated by moving one entry of its inputs or outputs: by
a finite difference of real evaluations, or by the imaginary part of one evaluation at a complex
point. `Component.column` approximates one column on request, `Component.approximate` fills every
declared block that wants it, with each move shared by all blocks of the same variable and method,
and `Component.verify` looks for derivatives outside the declared structure.
-/

namespace Mdao

/-- A column of a component's Jacobian, by a flat index into its inputs or its outputs. -/
inductive Column where
  | input (index : Nat)
  | output (index : Nat)
  deriving DecidableEq, Repr

namespace Component

variable {α : Type} [Scalar α]

/-- The function that is differentiated: the outputs of an explicit component, the residuals of an
implicit one. -/
def raw (c : Component α) (inputs outputs : Array α) : Except EvalError (Array α) :=
  let start : Array α := Vec.zeros c.outputs.size
  let filled := if c.isImplicit then c.residuals inputs outputs start else c.evaluate inputs start
  match filled with
  | .ok _ y => .ok y
  | .error e _ => .error e

/-- The entry of a point that a column belongs to. -/
def entryAt (inputs outputs : Array α) : Column → α
  | .input i => Vec.entry inputs i
  | .output i => Vec.entry outputs i

/-- The function at the point with one entry moved. -/
def rawMoved (c : Component α) (inputs outputs : Array α) (delta : α) :
    Column → Except EvalError (Array α)
  | .input i => c.raw (inputs.modify i (· + delta)) outputs
  | .output i => c.raw inputs (outputs.modify i (· + delta))

/-- A column by finite differences; `base` is the function at the point. -/
def fdColumn (c : Component α) (inputs outputs : Array α) (o : FdOptions α) (base : Array α)
    (k : Column) : Except EvalError (Array α) :=
  let h := o.stepFor (entryAt inputs outputs k)
  match o.form with
  | .forward => do
    let plus ← c.rawMoved inputs outputs h k
    return Array.zipWith (fun p b => (p - b) / h) plus base
  | .backward => do
    let minus ← c.rawMoved inputs outputs (-h) k
    return Array.zipWith (fun b m => (b - m) / h) base minus
  | .central => do
    let plus ← c.rawMoved inputs outputs h k
    let minus ← c.rawMoved inputs outputs (-h) k
    return Array.zipWith (fun p m => (p - m) / (2.0 * h)) plus minus

/-- A column by a complex step. -/
def csColumn (c : Component α) (inputs outputs : Array α) (step : α) (k : Column) :
    Except EvalError (Array α) :=
  let lift (x : Array α) : Array (Complex α) := x.map Complex.ofReal
  let move (x : Array (Complex α)) (i : Nat) := x.modify i fun z => ⟨z.re, step⟩
  let x := match k with
    | .input i => move (lift inputs) i
    | .output _ => lift inputs
  let y := match k with
    | .input _ => lift outputs
    | .output i => move (lift outputs) i
  let start : Array (Complex α) := Vec.zeros c.outputs.size
  let filled := match c.discipline with
    | .explicit d => d.computeComplex ⟨c.inputs, x⟩ ⟨c.outputs, start⟩
    | .implicit d => d.residualsComplex ⟨c.inputs, x⟩ ⟨c.outputs, y⟩ ⟨c.outputs, start⟩
  match c.settle start filled with
  | .ok _ values => .ok (values.map fun z => z.im / step)
  | .error e _ => .error e

/-- One column of the Jacobian by a method; where exact values are asked for, by default finite
differences. -/
def column (c : Component α) (inputs outputs : Array α) (k : Column) (method : Method α) :
    Except EvalError (Array α) :=
  match method with
  | .cs step =>
    if c.capabilities.complexStep then c.csColumn inputs outputs step k
    else .error (.unsupported c.name "complex step")
  | .fd o => do
    let base ← c.raw inputs outputs
    c.fdColumn inputs outputs o base k
  | .exact => do
    let base ← c.raw inputs outputs
    c.fdColumn inputs outputs .default base k

/-- The columns of a variable of differentiation, each with its index in the variable. -/
def columnsOf (c : Component α) : Wrt → List (Nat × Column)
  | .input p => (c.inputs.spanAt p).indices.zipIdx.map fun (i, k) => (k, .input i)
  | .output p => (c.outputs.spanAt p).indices.zipIdx.map fun (i, k) => (k, .output i)

/-- The variables that are moved, with the method, in the order of the blocks and once each. -/
def approximationGroups (c : Component α) : List (Wrt × Method α) :=
  c.partials.blocks.foldl
    (fun groups b =>
      if b.method.isApproximated && !b.constant
          && !groups.any (fun g => g.1 == b.wrt && g.2 == b.method) then
        groups ++ [(b.wrt, b.method)]
      else groups)
    []

/-- Writes a column into every approximated block of its variable and method. -/
def fillColumn (c : Component α) (wrt : Wrt) (method : Method α) (k : Nat) (values : Array α) :
    Component α :=
  { c with partials := ⟨c.partials.blocks.map fun b =>
      if b.wrt == wrt && b.method == method && !b.constant then
        let start := (c.outputs.spanAt b.output).start
        { b with values := b.values.mapIdx fun i v =>
            match b.places[i]? with
            | some (row, col) => if col = k then Vec.entry values (start + row) else v
            | none => v }
      else b⟩ }

/-- Approximates columns one after the other; after a failure the columns before it stay written. -/
def approximateColumns (inputs outputs base : Array α) (c : Component α) :
    List (Wrt × Method α × Nat × Column) → EStateM.Result EvalError (Component α) PUnit
  | [] => .ok ⟨⟩ c
  | (wrt, method, k, col) :: rest =>
    let values := match method with
      | .fd o => c.fdColumn inputs outputs o base col
      | .cs step => c.csColumn inputs outputs step col
      | .exact => .ok #[]
    match values with
    | .ok v => approximateColumns inputs outputs base (c.fillColumn wrt method k v) rest
    | .error e => .error e c

/-- Fills every approximated block. -/
def approximate (c : Component α) (inputs outputs : Array α) :
    EStateM.Result EvalError (Component α) PUnit :=
  let groups := c.approximationGroups
  if groups.isEmpty then .ok ⟨⟩ c
  else
    match c.raw inputs outputs with
    | .error e => .error e c
    | .ok base =>
      approximateColumns inputs outputs base c
        (groups.flatMap fun g => (c.columnsOf g.1).map fun k => (g.1, g.2, k.1, k.2))

/-- The name of the variable of a layout that holds a flat index, and the offset in it. -/
def placeIn (l : Layout) (index : Nat) : Option (String × Nat) :=
  (l.locate index).map fun place => (l.nameAt place.1, place.2)

/-- The variable that a column belongs to, and the offset in it. -/
def placeOf (c : Component α) : Column → Option (String × Nat)
  | .input i => placeIn c.inputs i
  | .output i => placeIn c.outputs i

/-- Whether an entry of the Jacobian, given by flat indices, is declared; an index without a
variable counts as declared. -/
def isDeclared (c : Component α) (row : Nat) (k : Column) : Bool :=
  match c.placeOf k, placeIn c.outputs row with
  | some (wrtName, col), some (name, r) =>
    match c.partials.find? name wrtName with
    | some b => b.contains r col
    | none => false
  | _, _ => true

/-- The error for a derivative that is not declared. -/
def undeclaredAt (c : Component α) (row : Nat) (k : Column) : EvalError :=
  let (wrtName, col) := (c.placeOf k).getD ("", 0)
  let (name, r) := (placeIn c.outputs row).getD ("", 0)
  .undeclaredNonzero c.name name wrtName r col

/-- Checks columns one after the other for derivatives above `tol` that are not declared. -/
def verifyColumns (c : Component α) (inputs outputs base : Array α) (tol : α) :
    List Column → Except EvalError PUnit
  | [] => .ok ⟨⟩
  | k :: rest =>
    match c.fdColumn inputs outputs .default base k with
    | .error e => .error e
    | .ok values =>
      match values.toList.zipIdx.find? fun (v, row) =>
          !decide (Scalar.abs v ≤ tol) && !c.isDeclared row k with
      | some (_, row) => .error (c.undeclaredAt row k)
      | none => c.verifyColumns inputs outputs base tol rest

/-- Checks that no derivative above `tol` lies outside the declared structure, by one forward
difference for each entry; components that only form products are not checked. -/
def verify (c : Component α) (inputs outputs : Array α) (tol : α) : Except EvalError PUnit :=
  if c.capabilities.applyLinear then .ok ⟨⟩
  else do
    let base ← c.raw inputs outputs
    let moved := (List.range c.inputs.size).map Column.input ++
      if c.isImplicit then (List.range c.outputs.size).map Column.output else []
    c.verifyColumns inputs outputs base tol moved

end Component

end Mdao
