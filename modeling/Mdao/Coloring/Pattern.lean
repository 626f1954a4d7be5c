import Mdao.Coloring.Settings
import Mdao.Count
import Mdao.Vec

/-!
# Sparsity patterns

The nonzero structure of a rectangular matrix: for each row the columns with a nonzero, in
increasing order and once each. A pattern is made from a list of entries, from a dense matrix and a
tolerance, or from sampled matrices (`Pattern.detect`).
-/

namespace Mdao

/-- A number put into an increasing list, unless it is there. -/
def insertSorted (x : Nat) : List Nat → List Nat
  | [] => [x]
  | y :: rest =>
    if x < y then x :: y :: rest
    else if x = y then y :: rest
    else y :: insertSorted x rest

/-- The numbers of a list in increasing order, once each. -/
def sortedSet (xs : List Nat) : List Nat := xs.foldl (fun s x => insertSorted x s) []

/-- Halves a list of at most `fuel + 1` numbers until one is left, and tells whether that is `x`:
the upper half is taken unless its first number exceeds `x`. -/
def bisect (x : Nat) : (fuel : Nat) → List Nat → Bool
  | _, [] => false
  | _, [y] => y == x
  | 0, _ => false
  | fuel + 1, ys =>
    let half := ys.length / 2
    let upper := ys.drop half
    if x < upper.headD 0 then bisect x fuel (ys.take (ys.length - half)) else bisect x fuel upper

/-- Whether bisection finds a number; in an increasing list it finds every number of it. -/
def isFound (x : Nat) (ys : List Nat) : Bool := bisect x ys.length ys

/-- The places of the nonzeros of a matrix. -/
structure Pattern where
  /-- The number of rows. -/
  nrows : Nat
  /-- The number of columns. -/
  ncols : Nat
  /-- For each row the columns with a nonzero. -/
  rows : Array (List Nat)
  deriving DecidableEq, Repr

namespace Pattern

/-- The pattern without entries. -/
def empty (nrows ncols : Nat) : Pattern := ⟨nrows, ncols, Array.replicate nrows []⟩

/-- The pattern with one more entry. -/
def insert (p : Pattern) (row col : Nat) : Pattern :=
  { p with rows := p.rows.modify row (insertSorted col) }

/-- Puts entries into a pattern, up to the first that lies outside. -/
def insertAll (p : Pattern) : List (Nat × Nat) → Except ColoringError Pattern
  | [] => .ok p
  | (row, col) :: rest =>
    if p.nrows ≤ row ∨ p.ncols ≤ col then .error (.outOfBounds row col p.nrows p.ncols)
    else (p.insert row col).insertAll rest

/-- The pattern of a list of entries. -/
def ofEntries (nrows ncols : Nat) (entries : List (Nat × Nat)) : Except ColoringError Pattern :=
  (empty nrows ncols).insertAll entries

/-- The columns of a row. -/
def row (p : Pattern) (r : Nat) : List Nat := p.rows.getD r []

/-- The number of entries. -/
def nnz (p : Pattern) : Nat := p.rows.toList.foldr (fun row n => row.length + n) 0

/-- Whether there is an entry at a place. -/
def contains (p : Pattern) (row col : Nat) : Bool := isFound col (p.row row)

/-- The entries row by row. -/
def entries (p : Pattern) : List (Nat × Nat) :=
  p.rows.toList.zipIdx.flatMap fun (cols, r) => cols.map fun c => (r, c)

/-- The rows of each column. -/
def columns (p : Pattern) : Array (List Nat) :=
  p.entries.foldl (fun cols e => cols.modify e.2 (· ++ [e.1])) (Array.replicate p.ncols [])

/-- The pattern of the transposed matrix. -/
def transpose (p : Pattern) : Pattern := ⟨p.ncols, p.nrows, p.columns⟩

/-- The number of places. -/
def places (p : Pattern) : Nat := Count.mul p.nrows p.ncols

variable {α : Type} [Scalar α]

/-- The share of entries among all places, zero where there are none. -/
def density (p : Pattern) : α :=
  if p.places = 0 then 0 else (p.nnz : α) / (p.places : α)

/-- The places of a dense matrix, given row by row, whose magnitude is above a tolerance. -/
def ofDense (nrows ncols : Nat) (values : Array α) (tol : α) : Except ColoringError Pattern :=
  let places := Count.mul nrows ncols
  if values.size ≠ places then .error (.length places values.size)
  else
    let isNonzero (r c : Nat) : Bool := decide (tol < Scalar.abs (Vec.entry values (r * ncols + c)))
    .ok ⟨nrows, ncols, Vec.tabulate nrows fun r => (List.range ncols).filter (isNonzero r)⟩

/-- Adds the magnitudes of `count` sampled matrices of `n` entries to sums. -/
def sumSamples {ρ : Type} (n : Nat) (sample : EStateM String ρ (Array α)) :
    (count : Nat) → (sums : Array α) → EStateM ColoringError ρ (Array α)
  | 0, sums => pure sums
  | count + 1, sums => fun s =>
    match sample s with
    | .error e s => .error (.sample e) s
    | .ok values s =>
      if values.size ≠ n then .error (.length n values.size) s
      else
        let sums := Array.zipWith (fun a v => a + Scalar.abs v) sums values
        sumSamples n sample count sums s

/-- The places whose mean magnitude over sampled matrices is above the tolerance, so that a value
that vanishes in one sample does not hide an entry. -/
def detect {ρ : Type} (nrows ncols : Nat) (s : ColoringSettings α)
    (sample : EStateM String ρ (Array α)) : EStateM ColoringError ρ Pattern := do
  let count := max s.numFullJacs 1
  let places := Count.mul nrows ncols
  let sums ← sumSamples places sample count (Vec.zeros places)
  let scale : α := 1 / (count : α)
  match ofDense nrows ncols (sums.map (· * scale)) s.tol with
  | .ok p => return p
  | .error e => throw e

end Pattern

end Mdao
