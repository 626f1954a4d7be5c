import Mdao.Error
import Mdao.Mode
import Mdao.Vec

/-!
# Linear operators

A solver sees a square linear operator `J` through products `J x` and `Jᵀ x`. An operator may also
give its matrix, splits its indices into consecutive blocks, and may solve some of the diagonal
blocks itself.

* `SparseMatrix` lists entries by place; `SparseMatrix.product` is a scatter over them.
* `Operator.diagonalBlock` is a diagonal block as a dense matrix, read off the matrix or probed with
  unit vectors.
-/

namespace Mdao

/-- The entries of a matrix, each a row, a column and a value. -/
structure SparseMatrix (α : Type) where
  /-- The entries, row by row. -/
  entries : List (Nat × Nat × α)

namespace SparseMatrix

variable {α : Type} [Scalar α]

/-- The contributions of the entries to a product with `x`. -/
def contributions (m : SparseMatrix α) (mode : Mode) (x : Array α) : List (Nat × α) :=
  m.entries.map fun (r, c, v) =>
    match mode with
    | .fwd => (r, v * Vec.entry x c)
    | .rev => (c, v * Vec.entry x r)

/-- The product with the matrix or its transpose, in `dim` dimensions. -/
def product (m : SparseMatrix α) (dim : Nat) (mode : Mode) (x : Array α) : Array α :=
  Vec.scatter (Vec.zeros dim) (m.contributions mode x)

/-- The entries of a dense matrix, given row by row, that are not zero. -/
def ofDense (dim : Nat) (values : Array α) : SparseMatrix α :=
  ⟨(List.range dim).flatMap fun r => (List.range dim).filterMap fun c =>
    let v := Vec.entry values (r * dim + c)
    if v == 0 then none else some (r, c, v)⟩

/-- The rows of the dense matrix in `dim` dimensions; entries at one place add up. -/
def toRows (m : SparseMatrix α) (dim : Nat) : List (List α) :=
  let values := Vec.scatter (Vec.zeros (dim * dim))
    (m.entries.map fun e => (e.1 * dim + e.2.1, e.2.2))
  (List.range dim).map fun i => (List.range dim).map fun j => Vec.entry values (i * dim + j)

end SparseMatrix

/-- A square linear operator as solvers see it. -/
structure Operator (α : Type) where
  /-- The number of rows, and of columns. -/
  dim : Nat
  /-- The product `J x`, or `Jᵀ x` in reverse. -/
  apply : Mode → Array α → Except EvalError (Array α)
  /-- The matrix, where one is kept. -/
  assembled : Option (SparseMatrix α)
  /-- The blocks of indices, in execution order. -/
  blocks : List Span
  /-- The solution of a diagonal block, where the operator has a solver of its own. -/
  solveBlock : (block : Nat) → (rhs : Array α) → Mode → Option (Except EvalError (Array α))

namespace Operator

variable {α : Type} [Scalar α]

/-- The operator of a matrix, with one block and no solvers of its own. -/
def ofMatrix (dim : Nat) (m : SparseMatrix α) : Operator α where
  dim := dim
  apply mode x := .ok (m.product dim mode x)
  assembled := some m
  blocks := [.upTo dim]
  solveBlock _ _ _ := none

/-- The product with a matrix, given by its rows, or with its transpose. -/
def productByRows (rows : List (List α)) (mode : Mode) (x : Array α) : Array α :=
  Vec.scatter (Vec.zeros rows.length)
    (match mode with
    | .fwd => Vec.rowContributions rows x
    | .rev => Vec.columnContributions rows x)

/-- The operator of a dense matrix that solvers see through products alone, with the given
blocks. -/
def ofRows (rows : List (List α)) (blocks : List Span) : Operator α where
  dim := rows.length
  apply mode x := .ok (productByRows rows mode x)
  assembled := none
  blocks := blocks
  solveBlock _ _ _ := none

/-- The operator with its diagonal blocks solved as if each were the single number at its start. -/
def withPivots (op : Operator α) (pivot : Nat → α) : Operator α :=
  { op with
    solveBlock := fun k rhs _ =>
      let p := pivot (op.blocks.getD k ⟨0, 0⟩).start
      if p == 0 then some (.error (.unsupported "" "a zero diagonal"))
      else some (.ok #[Vec.entry rhs 0 / p]) }

/-- What is left of a right-hand side: `rhs - J x`. -/
def residual (op : Operator α) (rhs x : Array α) (mode : Mode) : Except EvalError (Array α) := do
  let y ← op.apply mode x
  return Vec.sub rhs y

/-- The rows `range` of the given columns, each by a product with a unit vector. -/
def probe (op : Operator α) (range : Span) : List Nat → Except EvalError (List (Array α))
  | [] => .ok []
  | c :: rest => do
    let y ← op.apply .fwd (Vec.unit op.dim c)
    let others ← op.probe range rest
    return Vec.slice y range :: others

/-- A matrix given by its columns, row by row. -/
def rowsOfColumns (n : Nat) (columns : List (Array α)) : List (List α) :=
  (List.range n).map fun i => columns.map fun c => Vec.entry c i

/-- The entries of a matrix inside a diagonal block, added up in a dense matrix. -/
def blockOfMatrix (m : SparseMatrix α) (range : Span) : List (List α) :=
  let n := range.size
  let inside := m.entries.filterMap fun (r, c, v) =>
    if range.contains r && range.contains c then
      some ((r - range.start) * n + (c - range.start), v)
    else none
  let values := Vec.scatter (Vec.zeros (n * n)) inside
  (List.range n).map fun i => (List.range n).map fun j => Vec.entry values (i * n + j)

/-- A diagonal block as the rows of a dense matrix. -/
def diagonalBlock (op : Operator α) (range : Span) : Except EvalError (List (List α)) :=
  match op.assembled with
  | some m => .ok (blockOfMatrix m range)
  | none => do
    let columns ← op.probe range range.indices
    return rowsOfColumns range.size columns

end Operator

end Mdao
