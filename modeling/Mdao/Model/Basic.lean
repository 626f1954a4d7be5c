import Mdao.Component
import Mdao.Graph
import Mdao.Model.Options
import Mdao.Store

/-!
# Models

A model is a list of units, which are components with unique names, and connections between their
variables. A variable of a model is addressed by its path, the unit and the variable with a point
between. `Model.connect` checks a connection before it makes it: both ends exist, sizes agree, and
the units of measure convert; a failed step leaves the model as it was.
-/

namespace Mdao

/-- A connection seen from its target, with the conversion `input = scale · output + offset`. -/
structure Link (α : Type) where
  /-- Where the value comes from. -/
  source : Source
  /-- The slope of the conversion. -/
  scale : α
  /-- The offset of the conversion. -/
  offset : α

/-- Units and the connections between them. -/
structure Model (α : Type) where
  /-- The units in the order in which they were added. -/
  units : Array (Component α)
  /-- The units, their inputs and the connections. -/
  graph : Graph
  /-- The connection of each target that has one. -/
  links : List (Target × Link α)
  /-- The solvers. -/
  options : SolverOptions α

/-- Splits a path at its first point into the name of a unit and that of a variable, neither of them
empty. -/
def splitPath (path : String) : Except StructureError (String × String) :=
  let cs := path.toList
  let owner := cs.takeWhile (· != '.')
  let name := (cs.dropWhile (· != '.')).drop 1
  if owner.isEmpty || name.isEmpty then .error (.unknownVariable path)
  else .ok (String.ofList owner, String.ofList name)

namespace Model

variable {α : Type} [Scalar α]

/-- The model without units. -/
def empty : Model α := ⟨#[], .empty, [], .default⟩

/-- The position of a unit in a list of units. -/
def positionIn (units : Array (Component α)) (name : String) : Option Nat :=
  units.findIdx? (fun c => c.name == name)

/-- The position of a unit. -/
def position? (m : Model α) (name : String) : Option Nat := positionIn m.units name

/-- The unit of a name. -/
def unit? (m : Model α) (name : String) : Option (Component α) :=
  m.units.find? (fun c => c.name == name)

/-- Whether a name can be that of a unit: it is not empty and has no point. -/
def isUnitName (name : String) : Bool := !name.isEmpty && !name.toList.contains '.'

/-- Adds a unit. -/
def addUnit (m : Model α) (c : Component α) : Except (ModelError α) (Model α) :=
  if (m.position? c.name).isSome then .error (.core (.duplicateUnit c.name))
  else if !isUnitName c.name then .error (.setup s!"invalid unit name '{c.name}'")
  else
    .ok { m with units := m.units.push c, graph := m.graph.addUnit c.name c.inputs.names }

/-- The unit that a path leads to, with the name of the variable. -/
def owner (m : Model α) (path : String) : Except StructureError (Component α × String) := do
  let (unit, name) ← splitPath path
  match m.unit? unit with
  | some c => return (c, name)
  | none => throw (.unknownUnit unit)

/-- The declaration of a name among others. -/
def declared (path name : String) (vs : List (Variable α)) :
    Except StructureError (Variable α) :=
  match vs.find? fun v => v.name == name with
  | some v => .ok v
  | none => .error (.unknownVariable path)

/-- The output that a path leads to. -/
def output (m : Model α) (path : String) : Except StructureError (Source × Variable α) := do
  let (c, name) ← m.owner path
  let v ← declared path name c.discipline.outputs
  return (⟨c.name, name⟩, v)

/-- The input that a path leads to. -/
def input (m : Model α) (path : String) : Except StructureError (Target × Variable α) := do
  let (c, name) ← m.owner path
  let v ← declared path name c.discipline.inputs
  return (⟨c.name, name⟩, v)

/-- The conversion on the way from one variable to another; where one of them has no units of
measure the value is passed on as it is. -/
def conversionBetween (source target : Variable α) : Except StructureError (Conversion α) :=
  match source.units, target.units with
  | some origin, some goal => Store.converter origin goal
  | _, _ => .ok ⟨1, 0⟩

/-- The link that a connection of two variables makes. -/
def makeLink (m : Model α) (source target : String) :
    Except StructureError (Target × Link α) := do
  let (s, given) ← m.output source
  let (t, wanted) ← m.input target
  if given.size = wanted.size then
    let c ← conversionBetween given wanted
    return (t, ⟨s, c.scale, c.offset⟩)
  else throw (.shapeMismatch target wanted.size given.size)

/-- Connects an output to an input, each given by its path. -/
def connect (m : Model α) (source target : String) : Except (ModelError α) (Model α) :=
  let connected : Except StructureError (Model α) := do
    let (t, link) ← m.makeLink source target
    let graph ← m.graph.connect link.source t
    return { m with graph := graph, links := m.links ++ [(t, link)] }
  match connected with
  | .ok m => .ok m
  | .error e => .error (.core e)

/-- The paths of the inputs without a source. -/
def unconnectedInputs (m : Model α) : List String := m.graph.unconnected.map Target.path

/-- The model with other options. -/
def withOptions (m : Model α) (o : SolverOptions α) : Model α := { m with options := o }

end Model

end Mdao
