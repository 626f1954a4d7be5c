import Mdao.Discipline
import Mdao.Formula

/-!
# Disciplines by formulas

A `FormulaDiscipline` describes what a discipline declares and computes by lists of expressions;
`explicit` and `implicit` make disciplines of it. Guards are checked before anything is computed.
-/

namespace Mdao

open Formula

/-- Expressions for the leading entries of a variable. -/
structure Formula.Assignment (α : Type) where
  /-- The variable. -/
  name : String
  /-- One expression for each entry. -/
  values : List (Expr α)

/-- The values of a partial derivative. -/
structure Formula.PartialFormula (α : Type) where
  /-- The output. -/
  output : String
  /-- The variable of differentiation. -/
  wrt : String
  /-- One expression for each declared entry. -/
  values : List (Expr α)

/-- One value of a partial derivative. -/
structure Formula.PokeFormula (α : Type) where
  /-- The output. -/
  output : String
  /-- The variable of differentiation. -/
  wrt : String
  /-- The number of the declared entry. -/
  index : Nat
  /-- The value. -/
  value : Expr α

/-- Outputs to start from where an expression is above a number. -/
structure Formula.GuessRule (α : Type) where
  /-- The expression. -/
  value : Expr α
  /-- The number. -/
  above : α
  /-- The outputs to start from. -/
  assignments : List (Assignment α)

/-- A discipline by formulas. -/
structure FormulaDiscipline (α : Type) where
  /-- The inputs it declares. -/
  inputs : List (Variable α)
  /-- The outputs it declares. -/
  outputs : List (Variable α)
  /-- The partial derivatives it declares. -/
  partials : List (PartialDeclaration α)
  /-- What it provides. -/
  capabilities : Capabilities
  /-- The outputs, or the residuals by the names of the outputs. -/
  compute : List (Assignment α)
  /-- What is checked before computing. -/
  guards : List (Guard α)
  /-- The partial derivatives. -/
  linearize : List (PartialFormula α)
  /-- Single values written after the partial derivatives. -/
  pokes : List (PokeFormula α)
  /-- What is checked before linearizing. -/
  linearizeGuards : List (Guard α)
  /-- Outputs at which the residuals vanish, each seeing the ones before it. -/
  solve : Option (List (Assignment α))
  /-- What is checked before solving. -/
  solveGuards : List (Guard α)
  /-- Outputs to start a solver from. -/
  guess : Option (GuessRule α)
  /-- The matrix that solves the linear system of the diagonal block. -/
  solveLinear : Option (List (List (Expr α)))
  /-- The Jacobian with respect to outputs and then inputs. -/
  applyLinear : Option (List (List (Expr α)))

namespace FormulaDiscipline

section

variable {α β : Type} [FormulaNumber α β]

/-- The entries of one view. -/
def oneView (v : View β) (name : String) (i : Nat) : β := v.entry name i

/-- The entries of two views, the first one preferred. -/
def twoViews (v w : View β) (name : String) (i : Nat) : β :=
  if (v.layout.position? name).isSome then v.entry name i else w.entry name i

/-- Writes the values of an assignment. -/
def assign (entries : String → Nat → β) (target : View β) (a : Assignment α) : View β :=
  a.values.zipIdx.foldl (fun v e => v.setEntry a.name e.2 (e.1.eval entries)) target

/-- Writes the values of assignments, all read from the same entries. -/
def assignAll (entries : String → Nat → β) (target : View β) (as : List (Assignment α)) : View β :=
  as.foldl (assign entries) target

/-- Checks guards and then writes the values of assignments. -/
def guarded [Scalar α] (entries : String → Nat → β) (guards : List (Guard α))
    (as : List (Assignment α)) (target : View β) : Filled β :=
  match checkGuards entries guards with
  | some e => .error e target.data
  | none => .ok ⟨⟩ (assignAll entries target as).data

end

variable {α : Type} [Elementary α]

/-- The values of a matrix of expressions, row by row. -/
def matrixValues (entries : String → Nat → α) (m : List (List (Expr α))) : List (List α) :=
  m.map fun row => row.map (Expr.eval entries)

/-- What a linearization writes and keeps. -/
def linearization (d : FormulaDiscipline α) (entries : String → Nat → α) : Linearization α :=
  match checkGuards entries d.linearizeGuards with
  | some e => ⟨[], some e, none⟩
  | none =>
    let blocks := d.linearize.map fun p =>
      PartialWrite.block p.output p.wrt (p.values.map (Expr.eval entries)).toArray
    let pokes := d.pokes.map fun p =>
      PartialWrite.entry p.output p.wrt p.index (p.value.eval entries)
    let memo := d.solveLinear.map fun m => (matrixValues entries m).flatten.toArray
    ⟨blocks ++ pokes, none, memo⟩

/-- The discipline that computes its outputs. -/
def explicit (d : FormulaDiscipline α) : ExplicitDiscipline α where
  inputs := d.inputs
  outputs := d.outputs
  partials := d.partials
  complexStep := d.capabilities.complexStep
  compute inputs outputs := guarded (oneView inputs) d.guards d.compute outputs
  computeComplex inputs outputs := guarded (oneView inputs) d.guards d.compute outputs
  linearize inputs := d.linearization (oneView inputs)

/-- Writes entries one by one, each read from the inputs and the outputs written before it. -/
def assignInTurn (inputs : View α) (outputs : View α) (as : List (Assignment α)) : View α :=
  as.foldl
    (fun outputs a => a.values.zipIdx.foldl
      (fun v e => v.setEntry a.name e.2 (e.1.eval (twoViews inputs v))) outputs)
    outputs

/-- Outputs at which the residuals vanish. -/
def solveOutputs (d : FormulaDiscipline α) (inputs outputs : View α) : Filled α :=
  match d.solve with
  | none => .error (.unsupported "" "solve_nonlinear") outputs.data
  | some as =>
    match checkGuards (twoViews inputs outputs) d.solveGuards with
    | some e => .error e outputs.data
    | none => .ok ⟨⟩ (assignInTurn inputs outputs as).data

/-- The entries that a guess reads: residuals under the name `r:` and the output, inputs, and
outputs. -/
def guessEntries (inputs outputs residuals : View α) (name : String) (i : Nat) : α :=
  match name.toList with
  | 'r' :: ':' :: rest => residuals.entry (String.ofList rest) i
  | _ => twoViews inputs outputs name i

/-- Outputs to start a solver from. -/
def guessOutputs (d : FormulaDiscipline α) (inputs outputs residuals : View α) : Array α :=
  match d.guess with
  | none => outputs.data
  | some rule =>
    let entries := guessEntries inputs outputs residuals
    if rule.above < rule.value.eval entries then
      (assignAll entries outputs rule.assignments).data
    else outputs.data

/-- The rows of a matrix of `n` columns that was kept as one list. -/
def rowsOf (n : Nat) (memo : Array α) : List (List α) :=
  if memo.isEmpty then []
  else (List.range n).map fun r => (List.range n).map fun c => Vec.entry memo (r * n + c)

/-- The product of the kept matrix with a right-hand side, added to a buffer. -/
def solveKept (d : FormulaDiscipline α) (memo : Array α) (rhs solution : View α) (mode : Mode) :
    Except EvalError (Array α) :=
  match d.solveLinear with
  | none => .error (.unsupported "" "solve_linear")
  | some _ =>
    let m := rowsOf rhs.data.size memo
    .ok (Vec.scatter solution.data (match mode with
      | .fwd => Vec.rowContributions m rhs.data
      | .rev => Vec.columnContributions m rhs.data))

/-- The Jacobian with respect to outputs and then inputs, at a point. -/
def jacobianAt (d : FormulaDiscipline α) (inputs outputs : View α) :
    Except EvalError (List (List α)) :=
  match d.applyLinear with
  | none => .error (.unsupported "" "apply_linear")
  | some m =>
    let entries := twoViews inputs outputs
    match checkGuards entries d.linearizeGuards with
    | some e => .error e
    | none => .ok (matrixValues entries m)

/-- The discipline whose outputs are roots of residuals. -/
def implicit (d : FormulaDiscipline α) : ImplicitDiscipline α where
  inputs := d.inputs
  outputs := d.outputs
  partials := d.partials
  capabilities := d.capabilities
  residuals inputs outputs residuals :=
    guarded (twoViews inputs outputs) d.guards d.compute residuals
  residualsComplex inputs outputs residuals :=
    guarded (twoViews inputs outputs) d.guards d.compute residuals
  linearize inputs outputs := d.linearization (twoViews inputs outputs)
  solve := d.solveOutputs
  guess := d.guessOutputs
  solveLinear := d.solveKept
  applyForward inputs outputs dInputs dOutputs dResiduals := do
    let m ← d.jacobianAt inputs outputs
    return Vec.scatter dResiduals.data (Vec.rowContributions m (dOutputs.data ++ dInputs.data))
  applyReverse inputs outputs dResiduals dInputs dOutputs := do
    let m ← d.jacobianAt inputs outputs
    let sums := Vec.scatter (dOutputs.data ++ dInputs.data)
      (Vec.columnContributions m dResiduals.data)
    return (sums.extract outputs.data.size, sums.extract 0 outputs.data.size)

end FormulaDiscipline

end Mdao
