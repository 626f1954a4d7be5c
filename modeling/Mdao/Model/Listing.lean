import Mdao.Model.Problem
import Mdao.Text.Wildcard

/-!
# Listings

The variables of a model with their values, selected by tags and by wildcard patterns over names. A
pattern is held against the path of a variable and against its name within the unit.
-/

namespace Mdao

/-- Which variables a listing shows. -/
structure ListFilter where
  /-- Shows variables with one of these tags; all, where there are none. -/
  tags : List String
  /-- Shows variables that fit one of these patterns; all, where there are none. -/
  includes : List String
  /-- Hides variables that fit one of these patterns. -/
  excludes : List String
  deriving DecidableEq, Repr

namespace ListFilter

/-- The filter that shows everything. -/
def all : ListFilter := ⟨[], [], []⟩

/-- The name of a variable within its unit. -/
def localName (path : List Char) : List Char :=
  if path.contains '.' then (path.dropWhile (· != '.')).drop 1 else path

/-- Whether a pattern fits a path or the name within the unit. -/
def fits (path pattern : String) : Bool :=
  Wildcard.fits pattern.toList path.toList
    || Wildcard.fits pattern.toList (localName path.toList)

/-- Whether a variable is shown. -/
def accepts (f : ListFilter) (path : String) (tags : List String) : Bool :=
  (f.tags.isEmpty || tags.any f.tags.contains)
    && (f.includes.isEmpty || f.includes.any (fits path))
    && !f.excludes.any (fits path)

end ListFilter

/-- A variable in a listing. -/
structure ListedVariable (α : Type) where
  /-- The path. -/
  name : String
  /-- The value. -/
  value : Array α
  /-- The unit expression of the declaration. -/
  units : Option String
  /-- The tags of the declaration. -/
  tags : List String
  /-- The norm of the residuals, of an output. -/
  residualNorm : Option α

namespace Problem

variable {α : Type} [Scalar α]

/-- The listing of a variable. -/
def listed (p : Problem α) (i : Nat) (e : Store.Entry α) : ListedVariable α :=
  { name := e.name
    value := p.store.valueOf i
    units := e.declared.units
    tags := e.declared.tags
    residualNorm := (p.residualEntry i).map ResidualEntry.norm }

/-- The variables of a kind that a filter shows, in the order in which they are laid out. -/
def list (p : Problem α) (kind : VariableKind) (f : ListFilter) : List (ListedVariable α) :=
  p.store.entries.toList.zipIdx.filterMap fun (e, i) =>
    if e.kind == kind && f.accepts e.name e.declared.tags then some (p.listed i e) else none

/-- The inputs that a filter shows. -/
def listInputs (p : Problem α) (f : ListFilter) : List (ListedVariable α) := p.list .input f

/-- The outputs that a filter shows. -/
def listOutputs (p : Problem α) (f : ListFilter) : List (ListedVariable α) := p.list .output f

end Problem

end Mdao
