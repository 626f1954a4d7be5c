import Mdao.Model.Totals

/-!
# Checking derivatives

Analytic derivatives are compared with numerical ones: the partial derivatives of each unit with
columns approximated at the present point, and totals with differences of whole runs, or with the
totals of a Jacobian whose entries are all approximated. A check of totals gives the values of the
model back as they were.
-/

namespace Mdao

/-- An analytic block of derivatives beside its approximation. -/
structure DerivativeCheck (α : Type) where
  /-- What is differentiated. -/
  quantity : String
  /-- With respect to what. -/
  input : String
  /-- The block as the model has it. -/
  analytic : DenseBlock α
  /-- The block as it is approximated. -/
  approx : DenseBlock α
  /-- The Frobenius norm of the difference. -/
  absError : α
  /-- The norm of the difference relative to the greater norm; zero where both vanish. -/
  relError : α

/-- The check of a partial derivative, with the unit it belongs to. -/
structure PartialCheck (α : Type) where
  /-- The unit. -/
  owner : String
  /-- The comparison. -/
  check : DerivativeCheck α

variable {α : Type} [Scalar α]

/-- Compares two blocks. -/
def DerivativeCheck.compare (quantity input : String) (analytic approx : DenseBlock α) :
    DerivativeCheck α :=
  let absError := Vec.norm (Vec.sub analytic.values approx.values)
  let scale := Scalar.maxNum (Vec.norm analytic.values) (Vec.norm approx.values)
  ⟨quantity, input, analytic, approx, absError, if 0 < scale then absError / scale else 0⟩

/-- The method by which a unit is differentiated: a complex step only where the unit supports it,
and finite differences where exact values are asked for. -/
def Component.supported (c : Component α) : Method α → Method α
  | .cs step => if c.capabilities.complexStep then .cs step else .fdDefault
  | .exact => .fdDefault
  | .fd o => .fd o

/-- Columns of a unit by a method, one after the other. -/
def Component.columns (c : Component α) (inputs outputs : Array α) (method : Method α) :
    List Column → Except EvalError (List (Array α))
  | [] => .ok []
  | k :: rest => do
    let column ← c.column inputs outputs k method
    let others ← c.columns inputs outputs method rest
    return column :: others

/-- Compares one block of a unit's derivatives with its approximation. -/
def Component.checkBlock (c : Component α) (inputs outputs : Array α) (method : Method α)
    (b : PartialBlock α) : Except EvalError (PartialCheck α) := do
  let moved := (List.range b.shape.2).map (c.columnAt b.wrt)
  let columns ← c.columns inputs outputs method moved
  let own := columns.map fun y => Vec.slice y (c.outputs.spanAt b.output)
  let approx : DenseBlock α := ⟨b.shape, Problem.ofColumns b.shape.1 own⟩
  return ⟨c.name, .compare b.outputName b.wrtName ⟨b.shape, b.toDense⟩ approx⟩

/-- Compares blocks one after the other. -/
def Component.checkBlocks (c : Component α) (inputs outputs : Array α) (method : Method α) :
    List (PartialBlock α) → Except EvalError (List (PartialCheck α))
  | [] => .ok []
  | b :: rest => do
    let check ← c.checkBlock inputs outputs method b
    let others ← c.checkBlocks inputs outputs method rest
    return check :: others

/-- Compares every block of a unit that is not itself approximated; a unit that only forms products
has none. -/
def Component.checkPartials (c : Component α) (inputs outputs : Array α) (method : Method α) :
    Except EvalError (List (PartialCheck α)) :=
  if c.capabilities.applyLinear then .ok []
  else
    c.checkBlocks inputs outputs (c.supported method)
      (c.partials.blocks.toList.filter fun b => !b.method.isApproximated)

/-- Linearizes units one after the other and compares their derivatives. -/
def Assembly.checkPartials (l : Arrangement α) (method : Method α) :
    List Nat → EStateM EvalError (Assembly α) (List (PartialCheck α))
  | [] => pure []
  | u :: rest => fun a =>
    match linearize l none u a with
    | .error e a => .error e a
    | .ok _ a =>
      let p := l.unit u
      let checks := match a.units[u]? with
        | some c => c.checkPartials (a.inputsOf p) (a.outputsOf p) method
        | none => .ok []
      match checks with
      | .error e => .error e a
      | .ok checks =>
        match Assembly.checkPartials l method rest a with
        | .ok others a => .ok (checks ++ others) a
        | .error e a => .error e a

namespace Problem

/-- Compares the partial derivatives of all units with approximations at the present point. -/
def checkPartials (method : Method α) :
    EStateM (ModelError α) (Problem α) (List (PartialCheck α)) := fun p =>
  match Assembly.checkPartials p.arrangement method p.order p.assembly with
  | .ok checks a => .ok checks { p with assembly := a }
  | .error e a => .error (.eval e) { p with assembly := a }

/-- The problem with other slots. -/
def withSlots (p : Problem α) (slots : Array α) : Problem α :=
  p.withStore { p.store with slots := slots }

/-- The values of some variables, one after the other. -/
def readAll (p : Problem α) : List String → Except (ModelError α) (Array α)
  | [] => .ok #[]
  | name :: rest => do
    let x ← p.get name
    let others ← p.readAll rest
    return x ++ others

/-- Runs the model from given slots and reads some variables. -/
def runAt (names : List String) (slots : Array α) :
    EStateM (ModelError α) (Problem α) (Array α) := fun p =>
  match run (p.withSlots slots) with
  | .error e p => .error e p
  | .ok _ p =>
    match p.readAll names with
    | .ok x => .ok x p
    | .error e => .error e p

/-- One column of totals by differences of runs; `center` is read at the base point. -/
def differenceColumn (names : List String) (o : FdOptions α) (base center : Array α)
    (slot : Nat) : EStateM (ModelError α) (Problem α) (Array α) :=
  let h := o.stepFor (Vec.entry base slot)
  match o.form with
  | .forward => do
    let plus ← runAt names (base.modify slot (· + h))
    return Array.zipWith (fun p c => (p - c) / h) plus center
  | .backward => do
    let minus ← runAt names (base.modify slot (· + -h))
    return Array.zipWith (fun c m => (c - m) / h) center minus
  | .central => do
    let plus ← runAt names (base.modify slot (· + h))
    let minus ← runAt names (base.modify slot (· + -h))
    return Array.zipWith (fun p m => (p - m) / (2.0 * h)) plus minus

/-- Columns of totals by differences, one after the other. -/
def differenceColumns (names : List String) (o : FdOptions α) (base center : Array α) :
    List Nat → EStateM (ModelError α) (Problem α) (List (Array α))
  | [] => pure []
  | slot :: rest => do
    let column ← differenceColumn names o base center slot
    let others ← differenceColumns names o base center rest
    return column :: others

/-- Totals by differences of runs from a base point. -/
def differences (names : List String) (cols : Quantities α) (o : FdOptions α) (base : Array α) :
    EStateM (ModelError α) (Problem α) (Array α) := do
  let center ← runAt names base
  let columns ← differenceColumns names o base center cols.slots
  return ofColumns center.size columns

/-- Totals by differences of runs. The slots are given back and all residuals evaluated, whatever
the runs did; a failure of that evaluation prevails. -/
def differenceTotals (names : List String) (cols : Quantities α) (o : FdOptions α) :
    EStateM (ModelError α) (Problem α) (Array α) := fun p =>
  let base := p.store.slots
  let restored (result : Except (ModelError α) (Array α)) (p : Problem α) :
      EStateM.Result (ModelError α) (Problem α) (Array α) :=
    match evaluateAll (p.withSlots base), result with
    | .error e p, _ => .error e p
    | .ok _ p, .ok values => .ok values p
    | .ok _ p, .error e => .error e p
  match differences names cols o base p with
  | .ok values p => restored (.ok values) p
  | .error e p => restored (.error e) p

/-- What an approximated column of a unit adds to the Jacobian over all slots. -/
def columnContributions (p : Placement α) (slot : Nat) (factor : α) (column : Array α) :
    List ((Nat × Nat) × α) :=
  column.toList.zipIdx.filterMap fun (v, r) =>
    if v == 0 then none else some ((p.outputs.start + r, slot), factor * v)

/-- The columns of a unit in the Jacobian over all slots, each with its slot and its factor: one for
each input and, of an implicit unit, one for each output. -/
def slotColumns (p : Placement α) (c : Component α) : List (Column × Nat × α) :=
  let sign : α := if c.isImplicit then 1 else -1
  let inputs := p.routes.toList.zipIdx.map fun (route, k) =>
    (Column.input k, route.slot, sign * route.scale)
  let outputs := if c.isImplicit then
      (List.range p.outputs.size).map fun k => (Column.output k, p.outputs.start + k, (1 : α))
    else []
  inputs ++ outputs

/-- What an approximated unit adds to the Jacobian over all slots. -/
def approximateUnit (a : Assembly α) (p : Placement α) (c : Component α) (method : Method α) :
    Except EvalError (List ((Nat × Nat) × α)) := do
  let places := slotColumns p c
  let columns ← c.columns (a.inputsOf p) (a.outputsOf p) (c.supported method)
    (places.map Prod.fst)
  let diagonal : List ((Nat × Nat) × α) :=
    if c.isImplicit then [] else p.outputs.indices.map fun s => ((s, s), 1)
  let derivatives := List.zipWith
    (fun place column => columnContributions p place.2.1 place.2.2 column) places columns
  return diagonal ++ derivatives.flatten

/-- What approximated units add to the Jacobian over all slots, after the transfer of their
inputs. -/
def approximateUnits (l : Arrangement α) (method : Method α) :
    List Nat → EStateM EvalError (Assembly α) (List ((Nat × Nat) × α))
  | [] => pure []
  | u :: rest => fun a =>
    let p := l.unit u
    let a := a.transfer p
    let own := match a.units[u]? with
      | some c => approximateUnit a p c method
      | none => .ok []
    match own with
    | .error e => .error e a
    | .ok own =>
      match approximateUnits l method rest a with
      | .ok others a => .ok (own ++ others) a
      | .error e a => .error e a

/-- The Jacobian over all slots with every derivative approximated. -/
def approximateJacobian (method : Method α) :
    EStateM (ModelError α) (Problem α) (SparseMatrix α) := fun p =>
  let l := p.arrangement
  match approximateUnits l method p.order p.assembly with
  | .error e a => .error (.eval e) { p with assembly := a }
  | .ok cs a =>
    let cs := Jacobian.identityContributions l (.upTo l.size) ++ cs
    .ok (Jacobian.matrixOf l.size cs) { p with assembly := a }

/-- Totals from a Jacobian whose derivatives are all approximated. -/
def approximateTotals (rows cols : Quantities α) (method : Method α) :
    EStateM (ModelError α) (Problem α) (Array α) := fun p =>
  match approximateJacobian method p with
  | .error e p => .error e p
  | .ok matrix p =>
    let op := Operator.ofMatrix p.arrangement.size matrix
    let solved := withLinear do
      LinearConfig.direct.setup op
      solveTotals .direct op rows cols .fwd
    match solved with
    | .ok values => .ok values p
    | .error e => .error e p

/-- Totals by a method: a complex step approximates the derivatives of the units, finite differences
run the whole model. -/
def numericalTotals (names : List String) (rows cols : Quantities α) (method : Method α) :
    EStateM (ModelError α) (Problem α) (Array α) :=
  match method with
  | .cs step => approximateTotals rows cols (.cs step)
  | .fd o => differenceTotals names cols o
  | .exact => differenceTotals names cols .default

/-- Compares totals with numerical ones, block by block. -/
def checkTotals (quantities inputs : List String) (mode : Mode) (method : Method α) :
    EStateM (ModelError α) (Problem α) (List (DerivativeCheck α)) := fun p =>
  match prepareTotals quantities inputs p with
  | .error e p => .error e p
  | .ok (rows, cols) p =>
    match p.totalsAt rows cols mode with
    | .error e => .error e p
    | .ok analytic =>
      match numericalTotals quantities rows cols method p with
      | .error e p => .error e p
      | .ok values p =>
        let approx : Totals α := { analytic with values := values }
        let checks := analytic.blocks.filterMap fun (quantity, input, block) =>
          (approx.get? quantity input).map fun b =>
            DerivativeCheck.compare quantity input block b
        .ok checks p

end Problem

end Mdao
