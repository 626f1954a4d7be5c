import Mdao.Measure.Symbol
import Mdao.Text.Blank

/-!
# Units of measure

A unit expression is a product and quotient of factors, each a known symbol with an optional whole
exponent after `^` or `**`. `Measure.parse` reads one from the left: every factor after `/` divides,
and the zero point of a temperature counts only where the symbol stands alone.
`Measure.conversion` is the affine map between two expressions of the same dimension.
-/

namespace Mdao

/-- Why a unit expression has no meaning, or two of them do not convert. -/
inductive UnitsError where
  /-- A factor names no known symbol. -/
  | unknown (symbol : String)
  /-- A factor is empty or its exponent is no 32 bit number. -/
  | malformed (expression : String)
  /-- The two expressions measure different things. -/
  | incompatible (source target : String)
  deriving DecidableEq, Repr

/-- What a units error says. -/
def UnitsError.message : UnitsError → String
  | .unknown symbol => s!"unknown unit '{symbol}'"
  | .malformed expression => s!"malformed unit expression '{expression}'"
  | .incompatible source target => s!"cannot convert from '{source}' to '{target}'"

/-- The meaning of a unit expression in base units. -/
structure Measure (α : Type) where
  /-- The size of the unit in base units. -/
  scale : α
  /-- The zero point of the unit in base units. -/
  offset : α
  /-- What the unit measures. -/
  dimension : Dimension

/-- The affine map `x ↦ scale · x + offset`. -/
structure Conversion (α : Type) where
  /-- The slope. -/
  scale : α
  /-- The value at zero. -/
  offset : α
  deriving Repr, Inhabited

namespace Conversion

variable {α : Type} [Scalar α]

/-- The converted value. -/
def apply (c : Conversion α) (x : α) : α := c.scale * x + c.offset

/-- The map that changes nothing. -/
def identity : Conversion α := ⟨1, 0⟩

end Conversion

namespace Measure

/-- Whether a factor multiplies or divides. -/
inductive Sign where
  | times
  | over
  deriving DecidableEq, Repr

/-- The exponent that a sign stands for. -/
def Sign.power : Sign → Int32
  | .times => 1
  | .over => -1

/-- Reads each `**` as `^`, from the left. -/
def joinStars : List Char → List Char
  | '*' :: '*' :: rest => '^' :: joinStars rest
  | c :: rest => c :: joinStars rest
  | [] => []

/-- The texts of the factors with their signs; `*` and `/` end a factor and give the next sign. -/
def factors (sign : Sign) : List Char → List (Sign × List Char)
  | [] => [(sign, [])]
  | c :: rest =>
    if c = '*' then (sign, []) :: factors .times rest
    else if c = '/' then (sign, []) :: factors .over rest
    else
      match factors sign rest with
      | (s, text) :: more => (s, c :: text) :: more
      | [] => [(sign, [c])]

/-- The value of a run of decimal digits, if there is at least one and nothing else. -/
def digits? (cs : List Char) : Option Nat :=
  if cs.isEmpty || !cs.all Char.isDigit then none
  else some (cs.foldl (fun n c => 10 * n + (c.toNat - '0'.toNat)) 0)

/-- A whole number with an optional sign, within 32 bits. -/
def exponent? (cs : List Char) : Option Int32 :=
  let value : Option Int := match cs with
    | '+' :: rest => (digits? rest).map Int.ofNat
    | '-' :: rest => (digits? rest).map fun n => -(n : Int)
    | rest => (digits? rest).map Int.ofNat
  match value with
  | some n => if -2147483648 ≤ n ∧ n ≤ 2147483647 then some (Int32.ofInt n) else none
  | none => none

variable {α : Type} [Scalar α]

/-- Reads one factor: a symbol, or a symbol, `^` and an exponent, with blanks around either. -/
def factor (expression : String) (text : List Char) : Except UnitsError (Measure α) :=
  let text := Text.trim text
  if text.isEmpty then .error (.malformed expression)
  else
    let parts : Option (List Char × Int32) := match Text.splitOnce '^' text with
      | some (symbol, power) =>
        (exponent? (Text.trim power)).map fun n => (Text.trim symbol, n)
      | none => some (text, 1)
    match parts with
    | none => .error (.malformed expression)
    | some (symbol, n) =>
      match UnitSymbol.find? (String.ofList symbol) with
      | none => .error (.unknown (String.ofList symbol))
      | some s =>
        .ok ⟨Scalar.powInt s.scale n.toInt, if n = 1 then s.offset else 0, s.dimension.pow n⟩

/-- The product of what has been read with one more factor, whose zero point it takes over. -/
def attach (unit : Measure α) (sign : Sign) (f : Measure α) : Measure α :=
  ⟨unit.scale * Scalar.powInt f.scale sign.power.toInt, f.offset,
    unit.dimension.mul (f.dimension.pow sign.power)⟩

/-- Multiplies the factors up, from the left, and stops at the first bad one. -/
def product (expression : String) (unit : Measure α) :
    List (Sign × List Char) → Except UnitsError (Measure α)
  | [] => .ok unit
  | (sign, text) :: rest =>
    match factor expression text with
    | .ok f => product expression (attach unit sign f) rest
    | .error e => .error e

/-- The measure of a plain number. -/
def one : Measure α := ⟨1, 0, .none⟩

/-- Reads a unit expression. -/
def parse (expression : String) : Except UnitsError (Measure α) :=
  let text := Text.trim expression.toList
  if text.isEmpty then .error (.malformed expression)
  else
    let fs := factors .times (joinStars text)
    match product expression one fs with
    | .ok unit => .ok (if fs.length = 1 then unit else { unit with offset := 0 })
    | .error e => .error e

/-- Whether two units measure the same thing. -/
def isCompatible (a b : Measure α) : Bool := a.dimension == b.dimension

/-- The map from values in the unit `source` to values in the unit `target`. -/
def conversion (source target : String) : Except UnitsError (Conversion α) :=
  match (parse source : Except UnitsError (Measure α)) with
  | .error e => .error e
  | .ok a =>
    match (parse target : Except UnitsError (Measure α)) with
    | .error e => .error e
    | .ok b =>
      if a.isCompatible b then .ok ⟨a.scale / b.scale, (a.offset - b.offset) / b.scale⟩
      else .error (.incompatible source target)

end Measure

end Mdao
