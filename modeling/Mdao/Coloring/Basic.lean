import Mdao.Coloring.Conflicts
import Mdao.Coloring.Signature

/-!
# Colorings of sparsity patterns

A coloring groups columns that share a forward product and rows that share a reverse product, so
that a sparse matrix is found from few products. Rows in `revRows` are read from reverse products,
all others from forward products; with recovery by substitution also an entry of a reverse row is
read forward where no other entry of its row shares the color of its column.

`Coloring.partition` colors both sides of a split into forward and reverse rows, `Coloring.compute`
chooses the split.
-/

namespace Mdao

/-- Groups of columns and rows of a pattern that share products. -/
structure Coloring where
  /-- The pattern. -/
  pattern : Pattern
  /-- The groups of columns. -/
  fwd : List (List Nat)
  /-- The groups of rows. -/
  rev : List (List Nat)
  /-- For each row, whether it is read from reverse products. -/
  revRows : List Bool
  /-- How entries are recovered. -/
  recovery : Recovery
  /-- What the coloring was made for. -/
  signature : Option Signature
  deriving DecidableEq, Repr

/-- The number of the group that each of `n` indices belongs to. -/
def groupNumbers (n : Nat) (groups : List (List Nat)) : Array (Option Nat) :=
  groups.zipIdx.foldl
    (fun colors g => g.1.foldl (fun colors i => colors.setIfInBounds i (some g.2)) colors)
    (Array.replicate n none)

namespace Coloring

/-- The color of each column. -/
def fwdColors (c : Coloring) : Array (Option Nat) := groupNumbers c.pattern.ncols c.fwd

/-- The color of each row. -/
def revColors (c : Coloring) : Array (Option Nat) := groupNumbers c.pattern.nrows c.rev

/-- Whether an entry is read from a forward product, given the colors of the columns. -/
def isFwdKnown (pattern : Pattern) (revRows : List Bool) (recovery : Recovery)
    (colors : Array (Option Nat)) (row col : Nat) : Bool :=
  if !revRows.getD row false then true
  else
    match recovery with
    | .direct => false
    | .substitution =>
      match colors.getD col none with
      | none => false
      | some k => ((pattern.row row).filter fun c => colors.getD c none == some k).length == 1

/-- Colors both sides of a split. -/
def partition (pattern : Pattern) (revRows : List Bool) (recovery : Recovery) : Coloring :=
  let fwdRows := (List.range pattern.nrows).filter fun r => !revRows.getD r false
  let fwdConflicts :=
    (fwdRows.map pattern.row).foldl Conflicts.addClique (.empty pattern.ncols)
  let fwd := fwdConflicts.color (sortedSet (fwdRows.flatMap pattern.row))
  let colors := groupNumbers pattern.ncols fwd
  let unknown := pattern.columns.toList.zipIdx.map fun (rows, c) =>
    rows.filter fun r =>
      revRows.getD r false && !isFwdKnown pattern revRows recovery colors r c
  let revConflicts := unknown.foldl Conflicts.addClique (.empty pattern.nrows)
  let rev := revConflicts.color (sortedSet unknown.flatten)
  ⟨pattern, fwd, rev, revRows, recovery, none⟩

/-- The number of products. -/
def solves (c : Coloring) : Nat := c.fwd.length + c.rev.length

/-- Whether one list of truth values comes before another, entry by entry and with false first. -/
def precedesLex : List Bool → List Bool → Bool
  | [], [] => false
  | [], _ :: _ => true
  | _ :: _, [] => false
  | a :: as, b :: bs => if a == b then precedesLex as bs else !a

/-- A split put into an ordered list, unless it is there. -/
def insertSplit (s : List Bool) : List (List Bool) → List (List Bool)
  | [] => [s]
  | t :: rest =>
    if s = t then t :: rest
    else if precedesLex s t then s :: t :: rest
    else t :: insertSplit s rest

/-- The splits that a bidirectional coloring tries: no reverse row, the rows with at least so many
entries, and the rows that touch a column with at most so many entries. -/
def candidates (p : Pattern) : List (List Bool) :=
  let rows := List.range p.nrows
  let rowCounts := rows.map fun r => (p.row r).length
  let colCounts := p.columns.map List.length
  let byRows := (sortedSet rowCounts).map fun t => rowCounts.map fun n => t ≤ n && 0 < n
  let byCols := (sortedSet (colCounts.toList.filter (0 < ·))).map fun t =>
    rows.map fun r => (p.row r).any fun c => colCounts.getD c 0 ≤ t
  (rows.map (fun _ => false) :: byRows ++ byCols).foldl (fun ss s => insertSplit s ss) []

/-- Whether a coloring needs fewer products than another, or as many with fewer reverse ones. -/
def isCheaper (a b : Coloring) : Bool :=
  a.solves < b.solves || (a.solves == b.solves && a.rev.length < b.rev.length)

/-- The cheapest of some colorings, the first of several. -/
def cheapest (c : Coloring) (others : List Coloring) : Coloring :=
  others.foldl (fun best d => if isCheaper d best then d else best) c

/-- The coloring of a split, the better of both recoveries where substitution is allowed. -/
def splitColorings (p : Pattern) (recovery : Recovery) (revRows : List Bool) : List Coloring :=
  match recovery with
  | .direct => [partition p revRows .direct]
  | .substitution => [partition p revRows .substitution, partition p revRows .direct]

/-- The coloring that reads everything from forward products. -/
def forwardOnly (p : Pattern) : Coloring :=
  partition p ((List.range p.nrows).map fun _ => false) .direct

/-- The coloring that reads everything from reverse products. -/
def reverseOnly (p : Pattern) : Coloring :=
  partition p ((List.range p.nrows).map fun r => !(p.row r).isEmpty) .direct

/-- The cheapest coloring over the candidate splits. -/
def bidirectional (p : Pattern) (recovery : Recovery) : Coloring :=
  match (candidates p).flatMap (splitColorings p recovery) with
  | c :: others => cheapest c others
  | [] => partition p ((List.range p.nrows).map fun _ => false) recovery

/-- Colors a pattern as the settings ask. -/
def compute {α : Type} [Scalar α] (p : Pattern) (s : ColoringSettings α) :
    Except ColoringError Coloring :=
  match s.validate with
  | .error e => .error (.invalidConfig e)
  | .ok _ =>
    .ok <| match s.direction with
      | .fwd => forwardOnly p
      | .rev => reverseOnly p
      | .auto =>
        let f := forwardOnly p
        let r := reverseOnly p
        if r.solves < f.solves then r else f
      | .bidirectional => bidirectional p s.recovery

/-- The groups that are seeded together in one direction. -/
def groups (c : Coloring) : Mode → List (List Nat)
  | .fwd => c.fwd
  | .rev => c.rev

/-- The number of products without coloring, in the cheaper direction. -/
def naiveSolves (c : Coloring) : Nat := min c.pattern.nrows c.pattern.ncols

/-- The coloring with a note of what it was made for. -/
def withSignature (c : Coloring) (s : Signature) : Coloring := { c with signature := some s }

/-- Whether the coloring was made for a structure. -/
def isValidFor (c : Coloring) (s : Signature) : Bool := c.signature == some s

end Coloring

end Mdao
