import Mdao.Count
import Mdao.Scalar

/-!
# Variables

A variable of a discipline has a name, a shape, and a default value; units of measure, bounds and
tags are optional. Variables are built from `Variable.named` by setting one attribute after the
other, and setting the shape resets the value.
-/

namespace Mdao

/-- Whether a discipline reads a variable or determines it. -/
inductive VariableKind where
  | input
  | output
  deriving DecidableEq, Repr

/-- A declared variable. -/
structure Variable (α : Type) where
  /-- The name within the discipline. -/
  name : String
  /-- The extent in each direction. -/
  shape : List Nat
  /-- The unit expression of the values. -/
  units : Option String
  /-- The default value, entry by entry. -/
  value : Array α
  /-- The lower bound of every entry. -/
  lower : Option α
  /-- The upper bound of every entry. -/
  upper : Option α
  /-- Labels for listings. -/
  tags : List String

namespace Variable

variable {α : Type} [Scalar α]

/-- A scalar variable of value one. -/
def named (name : String) : Variable α := ⟨name, [1], none, #[1], none, none, []⟩

/-- The number of entries. -/
def size (v : Variable α) : Nat := Count.product v.shape

/-- Sets the shape and makes every entry one. -/
def withShape (v : Variable α) (shape : List Nat) : Variable α :=
  { v with shape := shape, value := Array.replicate (Count.product shape) 1 }

/-- Sets the unit expression. -/
def withUnits (v : Variable α) (units : String) : Variable α := { v with units := some units }

/-- Sets the default value; a single number fills every entry. -/
def withValue (v : Variable α) (value : Array α) : Variable α :=
  match value.toList with
  | [x] => { v with value := Array.replicate v.size x }
  | _ => { v with value := value }

/-- Sets the lower bound. -/
def withLower (v : Variable α) (lower : α) : Variable α := { v with lower := some lower }

/-- Sets the upper bound. -/
def withUpper (v : Variable α) (upper : α) : Variable α := { v with upper := some upper }

/-- Adds a tag. -/
def withTag (v : Variable α) (tag : String) : Variable α := { v with tags := v.tags ++ [tag] }

/-- The lower bound, or the number below all others where none is set. -/
def lowerBound (v : Variable α) : Option α := v.lower <|> Scalar.lowest?

/-- The upper bound, or the number above all others where none is set. -/
def upperBound (v : Variable α) : Option α := v.upper <|> Scalar.highest?

end Variable

end Mdao
