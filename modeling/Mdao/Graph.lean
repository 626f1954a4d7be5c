import Mdao.Error

/-!
# Connection graphs

A connection leads from an output of one unit to an input of another, or of the same. Each input has
at most one source; an output may feed any number of inputs, and cycles are allowed. Units keep the
order in which they were added.

Units that depend on each other form a coupled block and have to be converged together; all other
units are blocks of their own. `Graph.order` lists the blocks so that each comes after the blocks it
depends on, and among the blocks that are ready the one with the earliest unit comes first.

The computation is over positions of units: `reachable` closes a set of positions under the
connections, `component` collects the units that are reachable from a unit and lead back to it, and
`arrange` picks one ready component after the other.
-/

namespace Mdao

/-- The output end of a connection. -/
structure Source where
  /-- The unit. -/
  owner : String
  /-- Its output. -/
  output : String
  deriving DecidableEq, Repr

/-- The input end of a connection. -/
structure Target where
  /-- The unit. -/
  owner : String
  /-- Its input. -/
  input : String
  deriving DecidableEq, Repr

/-- The full name of an output. -/
def Source.path (s : Source) : String := s!"{s.owner}.{s.output}"

/-- The full name of an input. -/
def Target.path (t : Target) : String := s!"{t.owner}.{t.input}"

/-- A connection from an output to an input. -/
structure Connection where
  /-- Where the value comes from. -/
  source : Source
  /-- Where the value goes. -/
  target : Target
  deriving DecidableEq, Repr

/-- Units, the inputs they declare, and the connections between them. -/
structure Graph where
  /-- The units in the order in which they were added. -/
  units : Array String
  /-- The declared inputs. -/
  inputs : Array Target
  /-- The connections in the order in which they were made. -/
  connections : Array Connection
  deriving Repr

namespace Graph

/-- The graph without units. -/
def empty : Graph := ⟨#[], #[], #[]⟩

/-- The position of a unit. -/
def unit? (g : Graph) (name : String) : Option Nat := g.units.findIdx? (· == name)

/-- Adds a unit unless it is there already. -/
def ensureUnit (g : Graph) (name : String) : Graph :=
  if (g.unit? name).isSome then g else { g with units := g.units.push name }

/-- Adds a unit and the inputs it declares. -/
def addUnit (g : Graph) (name : String) (inputs : List String) : Graph :=
  let g := g.ensureUnit name
  { g with inputs := g.inputs ++ (inputs.map fun i => (⟨name, i⟩ : Target)).toArray }

/-- The source of an input. -/
def sourceOf (g : Graph) (target : Target) : Option Source :=
  (g.connections.find? (fun c => c.target = target)).map Connection.source

/-- Connects an output to an input that has no source yet, and adds units that are missing. -/
def connect (g : Graph) (source : Source) (target : Target) : Except StructureError Graph :=
  match g.sourceOf target with
  | some existing => .error (.duplicateConnection target.path existing.path source.path)
  | none =>
    let g := (g.ensureUnit source.owner).ensureUnit target.owner
    .ok { g with connections := g.connections.push ⟨source, target⟩ }

/-- The declared inputs without a source, in the order of declaration. -/
def unconnected (g : Graph) : List Target :=
  g.inputs.toList.filter fun t => (g.sourceOf t).isNone

/-- The connections that feed a unit. -/
def incoming (g : Graph) (name : String) : List Connection :=
  g.connections.toList.filter fun c => c.target.owner == name

/-- The connections that leave a unit. -/
def outgoing (g : Graph) (name : String) : List Connection :=
  g.connections.toList.filter fun c => c.source.owner == name

end Graph

/-! ### Execution order -/

/-- A unit, or a group of units that depend on each other. -/
inductive Block where
  /-- A unit that is evaluated once what it depends on is done. -/
  | single (name : String)
  /-- Units in a cycle, in the order in which they were added. -/
  | coupled (names : List String)
  deriving DecidableEq, Repr

namespace Block

/-- The units of a block. -/
def units : Block → List String
  | single name => [name]
  | coupled names => names

/-- Whether the units of a block depend on each other. -/
def isCoupled : Block → Bool
  | single _ => false
  | coupled _ => true

end Block

namespace Graph

/-- The connections as pairs of positions. -/
def edges (g : Graph) : List (Nat × Nat) :=
  g.connections.toList.filterMap fun c =>
    match g.unit? c.source.owner, g.unit? c.target.owner with
    | some a, some b => some (a, b)
    | _, _ => none

/-- The positions below `n` that belong to `seen` or have an edge from it. -/
def spread (n : Nat) (edges : List (Nat × Nat)) (seen : List Nat) : List Nat :=
  (List.range n).filter fun v => seen.contains v || edges.any fun e => e.2 == v && seen.contains e.1

/-- The positions that are reached from `seen` by at most `steps` edges; a step that adds nothing is
the last. -/
def reachable (n : Nat) (edges : List (Nat × Nat)) (seen : List Nat) : Nat → List Nat
  | 0 => seen
  | steps + 1 =>
    let next := spread n edges seen
    if next.length = seen.length then next else reachable n edges next steps

/-- For each of `n` positions, the positions that paths from it reach. -/
def reachTable (n : Nat) (edges : List (Nat × Nat)) : Array (List Nat) :=
  ((List.range n).map fun v => reachable n edges [v] n).toArray

/-- Whether paths lead from `a` to `b`, by a table of what is reached. -/
def reaches (table : Array (List Nat)) (a b : Nat) : Bool := (table.getD a []).contains b

/-- The positions that are reached from `v` and lead back to it, in increasing order. -/
def component (n : Nat) (table : Array (List Nat)) (v : Nat) : List Nat :=
  (List.range n).filter fun u => reaches table v u && reaches table u v

/-- The components by their members; each is listed once, by its least member. -/
def components (n : Nat) (table : Array (List Nat)) : List (List Nat) :=
  ((List.range n).map (component n table)).zipIdx.filterMap fun (c, v) =>
    if c.head? = some v then some c else none

/-- Whether everything that leads into a component comes from it or from what is placed. -/
def isReady (edges : List (Nat × Nat)) (placed c : List Nat) : Bool :=
  edges.all fun e => !c.contains e.2 || c.contains e.1 || placed.contains e.1

/-- Places `count` components, each time the first one that is ready. -/
def arrange (edges : List (Nat × Nat)) (placed : List Nat) (waiting : List (List Nat)) :
    Nat → List (List Nat)
  | 0 => []
  | count + 1 =>
    match waiting.find? (isReady edges placed) with
    | none => []
    | some c => c :: arrange edges (placed ++ c) (waiting.erase c) count

/-- A component as a block: coupled if it has several units or one that feeds itself. -/
def blockOf (g : Graph) (edges : List (Nat × Nat)) (c : List Nat) : Block :=
  let names := c.map fun v => g.units.getD v ""
  match c, names with
  | [v], [name] => if edges.contains (v, v) then .coupled [name] else .single name
  | _, names => .coupled names

/-- The blocks in the order in which they can be executed. -/
def order (g : Graph) : List Block :=
  let n := g.units.size
  let edges := g.edges
  let waiting := components n (reachTable n edges)
  (arrange edges [] waiting waiting.length).map (g.blockOf edges)

end Graph

end Mdao
