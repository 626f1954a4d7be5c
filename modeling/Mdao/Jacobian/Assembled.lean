import Mdao.Component.Linearization
import Mdao.Jacobian.Arrangement
import Mdao.Operator

/-!
# The assembled Jacobian

The Jacobian of a model is square over a range of slots: row `i` is the residual of slot `i`, column
`j` the sensitivity to slot `j`. An entry of a unit with respect to its own outputs lies on its own
slots, one with respect to an input on the slot that feeds it, scaled by the unit conversion.
Entries with a row or a column outside the range belong to what is held fixed and are left out.
Slots of independent inputs have identity rows.

`Jacobian.build` fixes the pattern, which depends on declarations and routes alone, and records for
each entry of the units, in the order in which a pass visits them, its position in the pattern.
`Jacobian.refresh` replays such a pass: it adds what it visits at the recorded positions and never
asks for a place again.
-/

namespace Mdao

/-- A sparse Jacobian over a range of slots. -/
structure Jacobian (α : Type) where
  /-- The slots. -/
  range : Span
  /-- The units that contribute. -/
  unitIds : List Nat
  /-- The places that may be nonzero, relative to the range, in order. -/
  pattern : List (Nat × Nat)
  /-- For each entry a pass visits the position of its place in the pattern, unless left out. -/
  positions : List (Option Nat)
  /-- The positions of the ones of independent slots. -/
  identity : List Nat
  /-- The values at the places of the pattern. -/
  values : Array α

namespace Jacobian

variable {α : Type} [Scalar α]

/-- The slot that a column of a unit stands for, and the factor of its derivatives. -/
def slotOf (p : Placement α) : Column → Nat × α
  | .output i => (p.outputs.start + i, 1)
  | .input i =>
    match p.routes[i]? with
    | some route => (route.slot, route.scale)
    | none => (p.outputs.start, 0)

/-- The place of an entry relative to a range, if it lies inside. -/
def placeOf (range : Span) (p : Placement α) (e : Component.Entry α) : Option (Nat × Nat) :=
  let row := p.outputs.start + e.row
  let col := (slotOf p e.column).1
  if range.contains row && range.contains col then some (row - range.start, col - range.start)
  else none

/-- A pass over the entries of a unit: the place and the value of each. -/
def unitVisits (l : Arrangement α) (range : Span) (units : Array (Component α)) (u : Nat) :
    List (Option (Nat × Nat) × α) :=
  let p := l.unit u
  match units[u]? with
  | some c => c.entries.map fun e => (placeOf range p e, e.value * (slotOf p e.column).2)
  | none => []

/-- A pass over the entries of some units. -/
def visits (l : Arrangement α) (units : Array (Component α)) (unitIds : List Nat) (range : Span) :
    List (Option (Nat × Nat) × α) :=
  unitIds.flatMap (unitVisits l range units)

/-- What a unit adds to the Jacobian, each a place and a value. -/
def unitContributions (l : Arrangement α) (range : Span) (units : Array (Component α)) (u : Nat) :
    List ((Nat × Nat) × α) :=
  (unitVisits l range units u).filterMap fun v => v.1.map fun place => (place, v.2)

/-- The ones on the diagonal of independent slots. -/
def identityContributions (l : Arrangement α) (range : Span) : List ((Nat × Nat) × α) :=
  (l.independentsIn range).map fun s => ((s - range.start, s - range.start), 1)

/-- Everything that adds to the Jacobian, in order. -/
def contributions (l : Arrangement α) (units : Array (Component α)) (unitIds : List Nat)
    (range : Span) : List ((Nat × Nat) × α) :=
  identityContributions l range ++ unitIds.flatMap (unitContributions l range units)

/-- The places of contributions in a square of side `n`, row by row and once each. -/
def patternOf (n : Nat) (places : List (Nat × Nat)) : List (Nat × Nat) :=
  (List.range n).flatMap fun r =>
    let cols := places.filterMap fun p => if p.1 = r then some p.2 else none
    ((List.range n).filter cols.contains).map fun c => (r, c)

/-- The sums of the contributions at the places of a pattern. -/
def valuesOf (pattern : List (Nat × Nat)) (cs : List ((Nat × Nat) × α)) : Array α :=
  Vec.scatter (Vec.zeros pattern.length) (cs.map fun c => (pattern.idxOf c.1, c.2))

/-- The matrix in which some contributions are summed up. -/
def matrixOf (n : Nat) (cs : List ((Nat × Nat) × α)) : SparseMatrix α :=
  let pattern := patternOf n (cs.map Prod.fst)
  ⟨List.zipWith (fun p v => (p.1, p.2, v)) pattern (valuesOf pattern cs).toList⟩

/-- What a pass over the units adds, each at the position recorded for it. -/
def replay (positions : List (Option Nat)) (visited : List (Option (Nat × Nat) × α)) :
    List (Nat × α) :=
  (positions.zip visited).filterMap fun (position, _, value) => position.map fun k => (k, value)

/-- The Jacobian with its values computed anew; the pattern and the positions stay. -/
def refresh (j : Jacobian α) (l : Arrangement α) (units : Array (Component α)) : Jacobian α :=
  let ones := j.identity.map fun k => (k, 1)
  let added := ones ++ replay j.positions (visits l units j.unitIds j.range)
  { j with values := Vec.scatter (Vec.zeros j.pattern.length) added }

/-- The Jacobian of some units over a range of slots. -/
def build (l : Arrangement α) (units : Array (Component α)) (unitIds : List Nat) (range : Span) :
    Jacobian α :=
  let places := (contributions l units unitIds range).map Prod.fst
  let pattern := patternOf range.size places
  let positions := (visits l units unitIds range).map fun v => v.1.bind pattern.idxOf?
  let identity := (identityContributions l range).filterMap fun c => pattern.idxOf? c.1
  refresh ⟨range, unitIds, pattern, positions, identity, #[]⟩ l units

/-- The Jacobian as a matrix. -/
def matrix (j : Jacobian α) : SparseMatrix α :=
  ⟨List.zipWith (fun p v => (p.1, p.2, v)) j.pattern j.values.toList⟩

/-- The Jacobian as an operator. -/
def operator (j : Jacobian α) : Operator α := .ofMatrix j.range.size j.matrix

end Jacobian

end Mdao
