import Mdao.Linear.Basic

/-!
# Factorization of dense matrices

A square matrix is eliminated one row and column at a time: the row with the largest leading entry
is moved to the top, divided by that pivot, and subtracted from the rows below. A `Stage` keeps what
one step needs, so that the same stages solve with the matrix (`Factors.solveStages`) and with its
transpose (`Factors.solveStagesTransposed`), by recursion on the list of stages.

A division is a product with the reciprocal of the pivot, so a pivot whose reciprocal overflows
leaves no finite solution. The unknowns are solved for in groups of at most four: the unknowns of
earlier groups are subtracted from the right-hand side before the division, those of the same group
after it (`Factors.quotient`).
-/

namespace Mdao

/-- One step of an elimination. -/
structure Factors.Stage (α : Type) where
  /-- The row that was exchanged with the first one. -/
  swap : Nat
  /-- The leading entry of that row. -/
  pivot : α
  /-- The rest of the row, divided by the pivot. -/
  row : List α
  /-- The leading entries of the other rows. -/
  col : List α

/-- A factorized square matrix. -/
structure Factors (α : Type) where
  /-- The number of rows. -/
  dim : Nat
  /-- Whether the matrix was recognized as singular by its entries. -/
  singular : Bool
  /-- The steps of the elimination. -/
  stages : List (Factors.Stage α)

namespace Factors

variable {α : Type} [Scalar α]

/-- The index of the entry of the largest magnitude, the first of several, and that magnitude,
in a list whose entries are counted from `i`; `best` is what has been found so far. -/
def largest (best : Nat × α) (i : Nat) : List α → Nat × α
  | [] => best
  | x :: rest => largest (if best.2 < Scalar.abs x then (i, Scalar.abs x) else best) (i + 1) rest

/-- The index of the pivot in a column. -/
def pivotIndex (column : List α) : Nat := (largest (0, 0) 0 column).1

/-- A list with its first entry and the one at `i` exchanged. -/
def exchange {β : Type} (i : Nat) : List β → List β
  | [] => []
  | x :: rest =>
    match i with
    | 0 => x :: rest
    | k + 1 =>
      match rest[k]? with
      | some y => y :: rest.set k x
      | none => x :: rest

/-- A factor and the unknown that it multiplies. -/
abbrev Term (α : Type) : Type := α × α

/-- Products, subtracted from `x` one after the other. -/
def subtractTerms (x : α) (terms : List (Term α)) : α := terms.foldl (fun s t => s - t.1 * t.2) x

/-- The sum of products of corresponding entries, subtracted from `x` one after the other. -/
def subtractProducts (x : α) (a b : List α) : α := subtractTerms x (a.zip b)

/-- `b` less the products, divided by the pivot: each summand is divided on its own. -/
def quotient (pivot b : α) (terms : List (Term α)) : α :=
  let r := 1 / pivot
  match terms.map fun t => -t.1 * r * t.2 with
  | [] => b * r
  | [t] => b * r + t
  | t :: u :: rest => b * r + t + rest.foldl (· + ·) u

/-- `x - c · y`, entry by entry. -/
def subtractScaled (x : List α) (c : α) (y : List α) : List α :=
  List.zipWith (fun a b => a - c * b) x y

/-- Eliminates a matrix given by its rows. -/
def eliminate : (n : Nat) → List (List α) → List (Stage α)
  | 0, _ => []
  | n + 1, rows =>
    let i := pivotIndex (rows.map fun r => r.headD 0)
    match exchange i rows with
    | [] => []
    | top :: below =>
      let pivot := top.headD 0
      let row := top.tail.map (· * (1 / pivot))
      let col := below.map fun r => r.headD 0
      let rest := below.map fun r => subtractScaled r.tail (r.headD 0) row
      ⟨i, pivot, row, col⟩ :: eliminate n rest

/-- The number of unknowns in the first half of a triangular system that is solved in halves. -/
def firstHalf (n : Nat) : Nat :=
  let half := n / 2
  n - if 32 ≤ n then (half + 15) / 16 * 16
    else if 16 ≤ n then (half + 7) / 8 * 8
    else if 8 ≤ n then (half + 3) / 4 * 4
    else half

/-- For each unknown, in the order in which they are solved for, whether a group starts with it:
more than four unknowns are halved. -/
def groupStarts (n : Nat) : List Bool :=
  if n ≤ 4 then (List.range n).map (· == 0)
  else groupStarts (firstHalf n) ++ groupStarts (n - firstHalf n)
termination_by n
decreasing_by
  all_goals
    simp only [firstHalf]
    repeat' split
    all_goals omega

/-- A right-hand side with the products of its group that are still to be subtracted. -/
structure Pending (α : Type) where
  /-- The right-hand side, less the products of earlier groups. -/
  value : α
  /-- The products. -/
  terms : List (Term α)

/-- A right-hand side without products. -/
def Pending.of (b : α) : Pending α := ⟨b, []⟩

/-- Subtracts the products. -/
def Pending.settled (p : Pending α) : Pending α := .of (subtractTerms p.value p.terms)

/-- Notes one more product. -/
def Pending.add (p : Pending α) (c y : α) : Pending α := ⟨p.value, p.terms ++ [(c, y)]⟩

/-- Solves with the matrix; a stage comes with whether a group starts with it. -/
def solveStages : List (Bool × Stage α) → List (Pending α) → List α
  | [], _ => []
  | (starts, s) :: rest, b =>
    match exchange s.swap (if starts then b.map Pending.settled else b) with
    | [] => []
    | top :: below =>
      let y := quotient s.pivot top.value top.terms
      let x := solveStages rest (List.zipWith (fun p c => p.add c y) below s.col)
      subtractProducts y s.row x :: x

/-- A solved unknown, with whether it belongs to the group that is being solved. -/
abbrev Solved (α : Type) : Type := Bool × α

/-- Solves with the transposed matrix, where the last unknowns are the first to be found; a stage
comes with whether a group starts with it. -/
def solveStagesTransposed : List (Bool × Stage α) → List α → List (Solved α)
  | [], _ => []
  | _ :: _, [] => []
  | (starts, s) :: rest, top :: below =>
    let x := solveStagesTransposed rest (List.zipWith (fun v r => v - r * top) below s.row)
    let x := if starts then x.map fun e => (false, e.2) else x
    let products := s.col.zip x
    let terms (grouped : Bool) : List (Term α) :=
      (products.filter fun t => t.2.1 == grouped).map fun t => (t.1, t.2.2)
    let y := quotient s.pivot (subtractTerms top (terms false)) (terms true)
    exchange s.swap ((true, y) :: x)

/-- Whether some row, or some column, holds nothing but zeros. -/
def hasEmptyLine (n : Nat) (rows : List (List α)) : Bool :=
  rows.any (fun r => r.all (· == 0)) ||
    (List.range n).any fun j => rows.all fun r => r.getD j 0 == 0

/-- The largest magnitude of an entry; undefined entries do not count. -/
def magnitude (rows : List (List α)) : α :=
  rows.flatten.foldl (fun m v => Scalar.maxNum m (Scalar.abs v)) 0

/-- Whether one, measured against the rounding errors of the entries, counts as zero. -/
def isOverscaled (n : Nat) (rows : List (List α)) : Bool :=
  0 < n && decide ((1 : α) ≤ 64.0 * (n : α) * Scalar.epsilon * magnitude rows)

/-- Factorizes the square matrix with the given rows. -/
def ofRows (n : Nat) (rows : List (List α)) : Factors α :=
  ⟨n, hasEmptyLine n rows || isOverscaled n rows, eliminate n rows⟩

/-- Whether the matrix counts as singular: by its entries, or for a pivot that is zero. -/
def isSingular (f : Factors α) : Bool := f.singular || f.stages.any fun s => s.pivot == 0

/-- The solution of a linear system with the matrix, or with its transpose in reverse. -/
def solve (f : Factors α) (rhs : Array α) (mode : Mode) : Except LinearError (Array α) :=
  if rhs.size ≠ f.dim then .error (.dimensionMismatch f.dim rhs.size)
  else if f.isSingular then .error .singularJacobian
  else
    let starts := groupStarts f.dim
    let x := match mode with
      | .fwd => solveStages (starts.zip f.stages) (rhs.toList.map Pending.of)
      | .rev => (solveStagesTransposed (starts.reverse.zip f.stages) rhs.toList).map Prod.snd
    if x.all Scalar.isFinite then .ok x.toArray else .error .singularJacobian

end Factors

end Mdao
