import Mdao.Model.Problem

/-!
# Setting a model up

`Model.setup` lays a model out and assigns solvers. The blocks are those of the connection graph in
execution order, or the whole model as one block where the options name solvers for the root. Slots
are given to outputs, unit by unit in execution order, so that each block owns one run of slots;
inputs get their places unit by unit; and each unconnected input becomes independent, with slots
after all outputs.

A block without solvers of its own has a single sweep if it is one unit that can determine its own
outputs, and Newton's method with direct linear solves otherwise.
-/

namespace Mdao.Model

variable {α : Type} [Scalar α]

/-- A block before it has slots: its name, its units, and whether they depend on each other. -/
structure Group where
  /-- The name. -/
  name : String
  /-- The units in execution order. -/
  unitIds : List Nat
  /-- Whether the units depend on each other. -/
  coupled : Bool
  deriving Repr

/-- The positions of units. -/
def positions (m : Model α) : List String → Except StructureError (List Nat)
  | [] => .ok []
  | name :: rest =>
    match m.position? name with
    | none => .error (.unknownUnit name)
    | some u =>
      match m.positions rest with
      | .ok us => .ok (u :: us)
      | .error e => .error e

/-- The groups of some blocks. -/
def groupsOf (m : Model α) : List Block → Except StructureError (List Group)
  | [] => .ok []
  | b :: rest => do
    let us ← m.positions b.units
    let others ← m.groupsOf rest
    return ⟨SolverBlock.nameOf b.units, us, b.isCoupled⟩ :: others

/-- The groups of a model in execution order. -/
def groups (m : Model α) : Except StructureError (List Group) := m.groupsOf m.graph.order

/-- The path of a variable. -/
def pathOf (c : Component α) (v : Variable α) : String := s!"{c.name}.{v.name}"

/-- Registers outputs of a unit. -/
def registerOutputs (c : Component α) (s : Store α) :
    List (Variable α) → Except StructureError (Store α)
  | [] => .ok s
  | v :: rest =>
    match s.addOutput (pathOf c v) v with
    | .ok (s, _) => registerOutputs c s rest
    | .error e => .error e

/-- Registers inputs of a unit; gives their ids. -/
def registerInputs (c : Component α) (s : Store α) :
    List (Variable α) → Except StructureError (Store α × List Nat)
  | [] => .ok (s, [])
  | v :: rest =>
    match s.addInput (pathOf c v) v with
    | .error e => .error e
    | .ok (s, i) =>
      match registerInputs c s rest with
      | .ok (s, ids) => .ok (s, i :: ids)
      | .error e => .error e

/-- Registers the outputs of units in order; gives the slots of each. -/
def placeOutputs (m : Model α) (s : Store α) :
    List Nat → Except StructureError (Store α × List (Nat × Span))
  | [] => .ok (s, [])
  | u :: rest =>
    match m.units[u]? with
    | none => m.placeOutputs s rest
    | some c => do
      let next ← registerOutputs c s c.discipline.outputs
      let (last, others) ← m.placeOutputs next rest
      return (last, (u, ⟨s.slots.size, next.slots.size⟩) :: others)

/-- The inputs of one unit in the store. -/
structure PlacedInputs (α : Type) where
  /-- The unit. -/
  owner : Component α
  /-- Their place among all inputs. -/
  range : Span
  /-- Their ids, one for each declared input. -/
  ids : List Nat

/-- Registers the inputs of units in order. -/
def placeInputs (s : Store α) :
    List (Component α) → Except StructureError (Store α × List (PlacedInputs α))
  | [] => .ok (s, [])
  | c :: rest => do
    let (next, ids) ← registerInputs c s c.discipline.inputs
    let (last, others) ← placeInputs next rest
    return (last, ⟨c, ⟨s.inputs.size, next.inputs.size⟩, ids⟩ :: others)

/-- The store with the routes that have been found and the slots that inputs have been given. -/
structure Routing (α : Type) where
  /-- The store. -/
  store : Store α
  /-- The routes of the unit at hand. -/
  routes : List (Route α)
  /-- The slots of independent inputs. -/
  independents : List Span

/-- Routes from consecutive slots. -/
def routesFrom (slots : Span) (scale offset : α) : List (Route α) :=
  slots.indices.map fun slot => ⟨slot, scale, offset⟩

/-- Routes one input: from the source it is connected to, or else from slots of its own. -/
def routeInput (m : Model α) (c : Component α) (r : Routing α) (v : Variable α) (i : Nat) :
    Except (ModelError α) (Routing α) :=
  let target : Target := ⟨c.name, v.name⟩
  match m.links.lookup target with
  | some link =>
    match r.store.id link.source.path with
    | .error e => .error (.core e)
    | .ok source =>
      match r.store.slots? source with
      | some slots =>
        .ok { r with routes := r.routes ++ routesFrom slots link.scale link.offset }
      | none =>
        let path := target.path
        .error (.setup s!"source of '{path}' owns no slots")
  | none =>
    let (store, slots) := r.store.makeIndependent i
    .ok ⟨store, r.routes ++ routesFrom slots 1 0, r.independents ++ [slots]⟩

/-- Routes inputs of a unit in order. -/
def routeInputs (m : Model α) (c : Component α) (r : Routing α) :
    List (Variable α × Nat) → Except (ModelError α) (Routing α)
  | [] => .ok r
  | (v, i) :: rest =>
    match m.routeInput c r v i with
    | .ok r => m.routeInputs c r rest
    | .error e => .error e

/-- A store with the placements of all units and the slots of independent inputs. -/
structure LaidOut (α : Type) where
  /-- The store. -/
  store : Store α
  /-- The placements in the order of the units. -/
  placements : List (Placement α)
  /-- The slots of independent inputs. -/
  independents : List Span

/-- Routes the inputs of units in order. -/
def routeUnits (m : Model α) (outputs : List (Nat × Span)) (s : Store α)
    (independents : List Span) :
    List (PlacedInputs α × Nat) → Except (ModelError α) (LaidOut α)
  | [] => .ok ⟨s, [], independents⟩
  | (p, u) :: rest => do
    let inputs := p.owner.discipline.inputs.zip p.ids
    let r ← m.routeInputs p.owner ⟨s, [], independents⟩ inputs
    let laid ← m.routeUnits outputs r.store r.independents rest
    let own : Placement α := ⟨(outputs.lookup u).getD ⟨0, 0⟩, p.range, r.routes.toArray⟩
    return { laid with placements := own :: laid.placements }

/-- Lays the variables of all units out, the outputs in the given order of units. -/
def layOut (m : Model α) (order : List Nat) : Except (ModelError α) (LaidOut α) :=
  let placed : Except StructureError (List (Nat × Span) × Store α × List (PlacedInputs α)) := do
    let (s, outputs) ← m.placeOutputs .empty order
    let (s, inputs) ← placeInputs s m.units.toList
    return (outputs, s, inputs)
  match placed with
  | .error e => .error (.core e)
  | .ok (outputs, s, inputs) => m.routeUnits outputs s [] inputs.zipIdx

/-- The slots from those of the first of some units to those of the last. -/
def spanOf (l : Arrangement α) (unitIds : List Nat) : Span :=
  match unitIds.head?, unitIds.getLast? with
  | some first, some last => ⟨(l.unit first).outputs.start, (l.unit last).outputs.stop⟩
  | _, _ => ⟨0, 0⟩

/-- Whether a unit determines its own outputs. -/
def solvesItself (c : Component α) : Bool := !c.isImplicit || c.capabilities.solveNonlinear

/-- The solvers of a group that has none of its own. -/
def defaultSolvers (m : Model α) (g : Group) : BlockOptions α :=
  match g.unitIds with
  | [u] =>
    match m.units[u]? with
    | some c => if !g.coupled && solvesItself c then .default else .newton
    | none => .newton
  | _ => .newton

/-- The solvers of a group: those of the root, or those of the first of its units that has some. -/
def solversFor (m : Model α) (g : Group) : BlockOptions α :=
  match m.options.root with
  | some root => root
  | none =>
    let named := g.unitIds.findSome? fun u =>
      m.units[u]?.bind fun c => m.options.blocks.lookup c.name
    named.getD (m.defaultSolvers g)

/-- The bounds of the outputs of some units, one for each entry. -/
def boundsOf (m : Model α) (bound : Variable α → Option α) (unitIds : List Nat) :
    Array (Option α) :=
  (unitIds.flatMap fun u =>
    match m.units[u]? with
    | some c => c.discipline.outputs.flatMap fun v => List.replicate v.size (bound v)
    | none => []).toArray

/-- The solver block of a group. -/
def blockOf (m : Model α) (l : Arrangement α) (g : Group) : SolverBlock α :=
  let range := spanOf l g.unitIds
  { name := g.name
    unitIds := g.unitIds
    range := range
    parts := Part.partition l g.unitIds range
    lower := m.boundsOf Variable.lowerBound g.unitIds
    upper := m.boundsOf Variable.upperBound g.unitIds
    options := m.solversFor g
    memory := .blank
    jacobian := none }

/-- All units as one group. -/
def rootGroup (order : List Nat) : Group := ⟨"root", order, true⟩

/-- Refuses solvers for units that are not there. -/
def checkNamedBlocks (m : Model α) : Except (ModelError α) Unit :=
  match m.options.blocks.find? fun b => (m.position? b.1).isNone with
  | some (name, _) => .error (.setup s!"solver options name unknown unit '{name}'")
  | none => .ok ()

/-- Lays the model out and assigns solvers. -/
def setup [Shown α] (m : Model α) : Except (ModelError α) (Problem α) := do
  m.options.validate
  m.checkNamedBlocks
  let groups ← Problem.ofStructure m.groups
  let order := groups.flatMap Group.unitIds
  let laid ← m.layOut order
  let l : Arrangement α := ⟨laid.store.slots.size, laid.placements.toArray, laid.independents⟩
  let groups := if m.options.root.isSome then [rootGroup order] else groups
  let backed := m.options.totals.coloringFile.isSome
  let p : Problem α :=
    { assembly := ⟨m.units, laid.store⟩
      arrangement := l
      blocks := (groups.map (m.blockOf l)).toArray
      links := m.links
      options := m.options
      order := order
      totalParts := Part.partition l order (.upTo l.size)
      totalJacobian := none
      cache := if backed then .withFile else .inMemory }
  return p

end Mdao.Model
