import Mdao.Discipline.Data
import Mdao.Formula.Discipline

/-!
# Formulas as data

Expressions, guards and whole disciplines read from data. An expression is a number, the name of a
variable for its first entry, `["@", name, index]` for another entry, or a list of an operation or
a function with its arguments; the four operations fold their arguments from the left, and `-` of a
single argument is its negative. What is no expression counts as zero.
-/

namespace Mdao

namespace Formula

/-- An operation or a function of arguments. -/
def Expr.combine (head : String) (args : List (Expr Float)) : Expr Float :=
  match head, args with
  | "sin", [a] => .apply .sin a
  | "cos", [a] => .apply .cos a
  | "exp", [a] => .apply .exp a
  | "sqrt", [a] => .apply .sqrt a
  | "-", [a] => .negate a
  | "+", a :: rest => rest.foldl (.binary .add) a
  | "-", a :: rest => rest.foldl (.binary .sub) a
  | "*", a :: rest => rest.foldl (.binary .mul) a
  | "/", a :: rest => rest.foldl (.binary .div) a
  | _, _ => .number 0.0

mutual

/-- Reads an expression. -/
def Expr.ofDatum : Datum → Expr Float
  | .text name => .entry name 0
  | .list (.text "@" :: place) =>
    match place with
    | [name, i] => .entry name.string i.natural
    | _ => .number 0.0
  | .list (.text head :: args) => .combine head (Expr.ofData args)
  | d => .number d.real

/-- Reads expressions. -/
def Expr.ofData : List Datum → List (Expr Float)
  | [] => []
  | d :: rest => Expr.ofDatum d :: Expr.ofData rest

end

/-- Reads a list of expressions. -/
def Expr.listOf (d : Datum) : List (Expr Float) := Expr.ofData d.items

/-- Reads a matrix of expressions by rows. -/
def Expr.rowsOf (d : Datum) : List (List (Expr Float)) := d.items.map Expr.listOf

/-- Reads a failure; what names none is the lack of support. -/
def Failure.ofDatum (d : Datum) : Failure :=
  match (d.field "kind").string with
  | "analysis" => .analysis (d.field "message").string
  | "fatal" => .fatal (d.field "message").string
  | _ => .unsupported

/-- Reads a guard. -/
def Guard.ofDatum (d : Datum) : Guard Float :=
  ⟨.ofDatum (d.field "value"), (d.field "below").real, .ofDatum d⟩

/-- Reads a list of guards. -/
def Guard.listOf (d : Datum) : List (Guard Float) := d.items.map Guard.ofDatum

/-- The item of a list at a place. -/
def itemAt (d : Datum) (i : Nat) : Datum := d.items.getD i .null

/-- Reads an assignment, a pair of a variable and expressions. -/
def Assignment.ofDatum (d : Datum) : Assignment Float :=
  ⟨(itemAt d 0).string, Expr.listOf (itemAt d 1)⟩

/-- Reads a list of assignments. -/
def Assignment.listOf (d : Datum) : List (Assignment Float) := d.items.map Assignment.ofDatum

/-- Reads the formulas of a partial derivative. -/
def PartialFormula.ofDatum (d : Datum) : PartialFormula Float :=
  ⟨(itemAt d 0).string, (itemAt d 1).string, Expr.listOf (itemAt d 2)⟩

/-- Reads the formula of one value of a partial derivative. -/
def PokeFormula.ofDatum (d : Datum) : PokeFormula Float :=
  ⟨(itemAt d 0).string, (itemAt d 1).string, (itemAt d 2).natural, .ofDatum (itemAt d 3)⟩

/-- Reads a rule for outputs to start from. -/
def GuessRule.ofDatum (d : Datum) : GuessRule Float :=
  ⟨.ofDatum (d.field "value"), (d.field "above").real, Assignment.listOf (d.field "set")⟩

end Formula

open Formula

/-- Reads a discipline by formulas. -/
def FormulaDiscipline.ofDatum (d : Datum) : FormulaDiscipline Float where
  inputs := (d.field "inputs").items.map Variable.ofDatum
  outputs := (d.field "outputs").items.map Variable.ofDatum
  partials := (d.field "partials").items.map PartialDeclaration.ofDatum
  capabilities := .ofDatum (d.field "caps")
  compute := Assignment.listOf (d.field "compute")
  guards := Guard.listOf (d.field "guards")
  linearize := (d.field "linearize").items.map PartialFormula.ofDatum
  pokes := (d.field "poke").items.map PokeFormula.ofDatum
  linearizeGuards := Guard.listOf (d.field "linearize_guards")
  solve := d.given? "solve" Assignment.listOf
  solveGuards := Guard.listOf (d.field "solve_guards")
  guess := d.given? "guess" GuessRule.ofDatum
  solveLinear := d.given? "solve_linear" Expr.rowsOf
  applyLinear := d.given? "apply_linear" Expr.rowsOf

end Mdao
