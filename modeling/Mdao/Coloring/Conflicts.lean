import Mdao.Coloring.Pattern

/-!
# Greedy graph coloring

Vertices that may not share a color are adjacent. `Conflicts.color` visits vertices by incidence
degree: next is the one with the most colored neighbors, then with the most neighbors, then with
the lowest index. Each gets the least color that none of its neighbors has.
-/

namespace Mdao

/-- A graph by the neighbors of each vertex. -/
structure Conflicts where
  /-- The neighbors of each vertex, in increasing order. -/
  adjacency : Array (List Nat)

/-- A partial coloring on the way. -/
structure Conflicts.Progress where
  /-- The color of each vertex that has one. -/
  colors : Array (Option Nat)
  /-- The number of colored neighbors of each vertex. -/
  incidence : Array Nat
  /-- The vertices of each color, in increasing order. -/
  groups : Array (List Nat)

namespace Conflicts

/-- The graph on `n` vertices without edges. -/
def empty (n : Nat) : Conflicts := ⟨Array.replicate n []⟩

/-- The neighbors of a vertex. -/
def neighbors (g : Conflicts) (v : Nat) : List Nat := g.adjacency.getD v []

/-- The graph with an edge between two vertices, unless they are the same. -/
def addEdge (g : Conflicts) (a b : Nat) : Conflicts :=
  if a = b then g
  else ⟨(g.adjacency.modify a (insertSorted b)).modify b (insertSorted a)⟩

/-- The graph with an edge between any two vertices of a list. -/
def addClique (g : Conflicts) : List Nat → Conflicts
  | [] => g
  | a :: rest => (rest.foldl (fun g b => g.addEdge a b) g).addClique rest

/-- The number of colored neighbors of a vertex. -/
def Progress.incidenceOf (p : Progress) (v : Nat) : Nat := p.incidence.getD v 0

/-- The color of a vertex. -/
def Progress.colorOf (p : Progress) (v : Nat) : Option Nat := p.colors.getD v none

/-- Whether vertex `a` is visited before vertex `b`. -/
def precedes (g : Conflicts) (p : Progress) (a b : Nat) : Bool :=
  if p.incidenceOf a ≠ p.incidenceOf b then p.incidenceOf b < p.incidenceOf a
  else if (g.neighbors a).length ≠ (g.neighbors b).length then
    (g.neighbors b).length < (g.neighbors a).length
  else a < b

/-- The vertex of `v :: pending` that is visited first. -/
def next (g : Conflicts) (p : Progress) (v : Nat) (pending : List Nat) : Nat :=
  pending.foldl (fun best u => if g.precedes p u best then u else best) v

/-- The least number that is not in a list. -/
def leastFree (used : List Nat) : Nat :=
  ((List.range (used.length + 1)).find? fun c => !used.contains c).getD used.length

/-- Gives a vertex the least color that is free. -/
def colorVertex (g : Conflicts) (p : Progress) (v : Nat) : Progress :=
  let around := g.neighbors v
  let color := leastFree (around.filterMap p.colorOf)
  let groups := if color = p.groups.size then p.groups.push [] else p.groups
  ⟨p.colors.setIfInBounds v (some color),
    around.foldl (fun inc u => inc.modify u (· + 1)) p.incidence,
    groups.modify color (insertSorted v)⟩

/-- Colors `count` of the pending vertices. -/
def colorPending (g : Conflicts) : (count : Nat) → Progress → List Nat → Progress
  | count + 1, p, v :: rest =>
    let u := g.next p v rest
    colorPending g count (g.colorVertex p u) ((v :: rest).erase u)
  | _, p, _ => p

/-- The vertices of each color, once all active vertices have one. -/
def color (g : Conflicts) (active : List Nat) : List (List Nat) :=
  let n := g.adjacency.size
  let start : Progress := ⟨Array.replicate n none, Array.replicate n 0, #[]⟩
  (g.colorPending active.length start active).groups.toList

end Conflicts

end Mdao
