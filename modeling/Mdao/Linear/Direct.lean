import Mdao.Linear.Factors

/-!
# Direct solves

The operator is factorized as a whole once, and the factors serve every right-hand side in both
modes until the next setup. A solution that leaves a large residual is taken as the sign of a
singular matrix.
-/

namespace Mdao.Direct

variable {α : Type} [Scalar α]

/-- The factors of an operator. -/
def factorize (op : Operator α) : Except LinearError (Factors α) :=
  match op.diagonalBlock (.upTo op.dim) with
  | .ok rows => .ok (.ofRows op.dim rows)
  | .error e => .error (.eval e)

/-- Solves with given factors. -/
def solveWith (f : Factors α) (op : Operator α) (rhs : Array α) (mode : Mode) :
    Except LinearError (LinearSolution α) := do
  let x ← f.solve rhs mode
  let r ← linearResidual op rhs x mode
  let residualNorm := Vec.norm r
  if 1e-6 * Scalar.maxNum (Vec.norm rhs) Scalar.minPositive < residualNorm then
    throw .singularJacobian
  return ⟨.converged, x, 1, residualNorm⟩

/-- The factors that a solve uses: those kept, or new ones where none of the right size are. -/
def factorsFor (kept : Option (Factors α)) (op : Operator α) : Except LinearError (Factors α) :=
  match kept with
  | some f => if f.dim = op.dim then .ok f else factorize op
  | none => factorize op

/-- Solves, and keeps the factors that were used. -/
def solve (op : Operator α) (rhs : Array α) (mode : Mode) :
    EStateM LinearError (Option (Factors α)) (LinearSolution α) := fun kept =>
  match checkDim op rhs with
  | .error e => .error e kept
  | .ok _ =>
    match factorsFor kept op with
    | .error e => .error e kept
    | .ok f =>
      match solveWith f op rhs mode with
      | .error e => .error e (some f)
      | .ok s => .ok s (some f)

end Mdao.Direct
