import Mdao.Linear.Factors

/-!
# Sweeps over diagonal blocks

A sweep solves the diagonal blocks of an operator one after the other, in the order of the blocks
forward and in the opposite order in reverse. In a Gauss-Seidel sweep a block sees the latest values
of the others, in a Jacobi sweep those at the start. A block is solved by the operator where it
can, and by factors otherwise, which are made when first needed.

`sweep` is one pass; `iterate` repeats passes until the residual is small.
-/

namespace Mdao

/-- A split of the indices into blocks, with the factors made so far. -/
structure Diagonal (α : Type) where
  /-- The blocks. -/
  ranges : List Span
  /-- The factors of blocks, by their numbers. -/
  factors : List (Nat × Factors α)

/-- Which values of other blocks a block sees in a sweep. -/
inductive SweepKind where
  /-- The latest ones. -/
  | gaussSeidel
  /-- Those at the start of the sweep. -/
  | jacobi
  deriving DecidableEq, Repr

namespace Diagonal

variable {α : Type} [Scalar α]

/-- No blocks. -/
def empty : Diagonal α := ⟨[], []⟩

/-- The blocks of an operator, without factors. -/
def ofOperator (op : Operator α) : Diagonal α := ⟨op.blocks, []⟩

/-- The number of indices in all blocks. -/
def size (d : Diagonal α) : Nat := d.ranges.foldr (fun s n => s.size + n) 0

/-- The factors of a block, kept or made now. -/
def factorsOf (d : Diagonal α) (op : Operator α) (i : Nat) (range : Span) :
    Except LinearError (Factors α × Diagonal α) :=
  match d.factors.lookup i with
  | some f => .ok (f, d)
  | none =>
    match op.diagonalBlock range with
    | .error e => .error (.eval e)
    | .ok rows =>
      let f := Factors.ofRows range.size rows
      .ok (f, { d with factors := d.factors ++ [(i, f)] })

/-- Solves with one diagonal block. -/
def solveBlock (op : Operator α) (i : Nat) (range : Span) (rhs : Array α) (mode : Mode) :
    EStateM LinearError (Diagonal α) (Array α) := fun d =>
  match op.solveBlock i rhs mode with
  | some (.ok x) => .ok x d
  | some (.error e) => .error (.eval e) d
  | none =>
    match d.factorsOf op i range with
    | .error e => .error e d
    | .ok (f, d) =>
      match f.solve rhs mode with
      | .ok x => .ok x d
      | .error e => .error e d

/-- What a block has to make up for: the right-hand side less the product with all other blocks. -/
def blockRhs (op : Operator α) (rhs seen : Array α) (range : Span) (mode : Mode) :
    Except LinearError (Array α) :=
  let others := Vec.splice seen range (Vec.zeros range.size)
  match op.apply mode others with
  | .ok coupled => .ok (Vec.sub (Vec.slice rhs range) (Vec.slice coupled range))
  | .error e => .error (.eval e)

/-- Solves the listed blocks one after the other. -/
def visit (kind : SweepKind) (op : Operator α) (rhs start : Array α) (mode : Mode) :
    List (Span × Nat) → Array α → EStateM LinearError (Diagonal α) (Array α)
  | [], x => pure x
  | (range, i) :: rest, x => do
    let seen := match kind with
      | .gaussSeidel => x
      | .jacobi => start
    let b ← match blockRhs op rhs seen range mode with
      | .ok b => pure b
      | .error e => throw e
    let y ← solveBlock op i range b mode
    visit kind op rhs start mode rest (Vec.splice x range y)

/-- The blocks in the order of a sweep, with their numbers. -/
def visitOrder (d : Diagonal α) : Mode → List (Span × Nat)
  | .fwd => d.ranges.zipIdx
  | .rev => d.ranges.zipIdx.reverse

/-- One pass over all blocks; blocks that do not fit the operator are taken from it anew. -/
def sweep (kind : SweepKind) (op : Operator α) (rhs x : Array α) (mode : Mode) :
    EStateM LinearError (Diagonal α) (Array α) := fun d =>
  let d := if d.size = op.dim then d else ofOperator op
  visit kind op rhs x mode (d.visitOrder mode) x d

/-- One Gauss-Seidel pass from zero. -/
def runOnce (op : Operator α) (rhs : Array α) (mode : Mode) :
    EStateM LinearError (Diagonal α) (LinearSolution α) := fun d =>
  match checkDim op rhs with
  | .error e => .error e d
  | .ok _ =>
    match sweep .gaussSeidel op rhs (Vec.zeros op.dim) mode d with
    | .error e d => .error e d
    | .ok x d =>
      match linearResidual op rhs x mode with
      | .error e => .error e d
      | .ok r => .ok ⟨.converged, x, 1, Vec.norm r⟩ d

/-- Whether a residual norm is small, by itself or against the initial one. -/
def isSmall (s : SweepSettings α) (initialNorm r : α) : Bool :=
  decide (r ≤ s.atol) || (decide (0 < initialNorm) && decide (r / initialNorm ≤ s.rtol))

/-- Sweeps at most `fuel` more times from `x`, whose residual norm is not small, after `iters`
sweeps. -/
def repeatSweeps {σ : Type} (kind : SweepKind) (s : SweepSettings α) (op : Operator α)
    (rhs : Array α) (mode : Mode) (observer : Observer (LinearEvent α) σ) (initialNorm : α) :
    (fuel iters : Nat) → (x : Array α) → (residualNorm : α) →
      EStateM LinearError (Diagonal α × σ) (LinearSolution α)
  | 0, iters, x, residualNorm => pure ⟨.maxIters, x, iters, residualNorm⟩
  | fuel + 1, iters, x, _ => fun (d, o) =>
    match sweep kind op rhs x mode d with
    | .error e d => .error e (d, o)
    | .ok x d =>
      match linearResidual op rhs x mode with
      | .error e => .error e (d, o)
      | .ok r =>
        let residualNorm := Vec.norm r
        let iters := iters + 1
        let (stop, o) := observer.stops ⟨iters, iters, residualNorm⟩ o
        if stop then .ok ⟨.stoppedByObserver, x, iters, residualNorm⟩ (d, o)
        else if isSmall s initialNorm residualNorm then
          .ok ⟨.converged, x, iters, residualNorm⟩ (d, o)
        else repeatSweeps kind s op rhs mode observer initialNorm fuel iters x residualNorm (d, o)

/-- Sweeps from a starting guess until the residual is small. -/
def iterate {σ : Type} (kind : SweepKind) (s : SweepSettings α) (op : Operator α)
    (rhs guess : Array α) (mode : Mode) (observer : Observer (LinearEvent α) σ) :
    EStateM LinearError (Diagonal α × σ) (LinearSolution α) := fun state =>
  match linearResidual op rhs guess mode with
  | .error e => .error e state
  | .ok r =>
    let initialNorm := Vec.norm r
    if isSmall s initialNorm initialNorm then .ok ⟨.converged, guess, 0, initialNorm⟩ state
    else repeatSweeps kind s op rhs mode observer initialNorm s.maxiter 0 guess initialNorm state

end Diagonal

end Mdao
