import Mdao.Linear.Basic

/-!
# GMRES

Restarted GMRES with right preconditioning. A cycle builds an orthonormal basis of a Krylov space
together with the least-squares problem for the residual, kept triangular by plane rotations;
`Krylov` is the state of a cycle after some inner iterations. The preconditioner is any function
with a state, so it may differ from call to call.
-/

namespace Mdao

/-- A cycle after some inner iterations. -/
structure Krylov (α : Type) where
  /-- The basis vectors in the order in which they were made. -/
  basis : List (Array α)
  /-- The preconditioned basis vectors that have been multiplied with the operator. -/
  directions : List (Array α)
  /-- The columns of the triangular matrix; column `k` has `k + 1` entries. -/
  columns : List (List α)
  /-- The rotations, each a cosine and a sine. -/
  rotations : List (α × α)
  /-- The rotated right-hand side of the least-squares problem. -/
  targets : List α
  /-- The last entry of that right-hand side, the residual norm of the problem up to sign. -/
  remainder : α

namespace Krylov

variable {α : Type} [Scalar α]

/-- The start of a cycle from a residual. -/
def start (r : Array α) (rNorm : α) : Krylov α :=
  ⟨[r.map (· / rNorm)], [], [], [], [], rNorm⟩

/-- Makes a vector orthogonal to a list of vectors, one after the other; gives the coefficients and
what is left. -/
def orthogonalize (w : Array α) : List (Array α) → List α × Array α
  | [] => ([], w)
  | v :: rest =>
    let h := Vec.dot v w
    let (hs, w) := orthogonalize (Array.zipWith (fun a b => a - h * b) w v) rest
    (h :: hs, w)

/-- Applies rotations to a column: each acts on the entry carried along and the next one. Gives the
finished entries and the one carried out. -/
def rotate (carried : α) : List (α × α) → List α → List α × α
  | (c, s) :: rotations, next :: rest =>
    let (done, out) := rotate (-s * carried + c * next) rotations rest
    ((c * carried + s * next) :: done, out)
  | _, _ => ([], carried)

/-- The rotation that turns `(a, b)` into a multiple of `(1, 0)`. -/
def rotation (a b : α) : α × α :=
  if b == 0 then (1, 0)
  else
    let r := Scalar.hypot a b
    (a / r, b / r)

/-- Takes a new product of the operator with a direction into the cycle; also gives what is left of
the product and its norm. -/
def extend (k : Krylov α) (z w : Array α) : Krylov α × Array α × α :=
  let (h, w) := orthogonalize w k.basis
  let wNorm := Vec.norm w
  let (done, diagonal) := match h with
    | first :: rest => rotate first k.rotations rest
    | [] => ([], 0)
  let (c, s) := rotation diagonal wNorm
  ({ k with
      directions := k.directions ++ [z]
      columns := k.columns ++ [done ++ [c * diagonal + s * wNorm]]
      rotations := k.rotations ++ [(c, s)]
      targets := k.targets ++ [k.remainder * c]
      remainder := -s * k.remainder }, w, wNorm)

/-- The coefficients that solve a triangular system given by its columns, found from the last
column and target back to the first: once a coefficient is known, nothing but the entries of its
column touches the targets before it. -/
def coefficientsFrom (columns : List (List α)) (targets : List α) : Nat → List α → List α
  | 0, found => found
  | i + 1, found =>
    let row := (columns.drop (i + 1)).map fun col => col.getD i 0
    let sum := (row.zip found).foldl (fun s p => s - p.1 * p.2) (targets.getD i 0)
    let diagonal := (columns.getD i []).getD i 0
    let y := if 0 < Scalar.abs diagonal then sum / diagonal else 0
    coefficientsFrom columns targets i (y :: found)

/-- The coefficients of the least-squares solution. -/
def coefficients (k : Krylov α) : List α :=
  coefficientsFrom k.columns k.targets k.columns.length []

/-- The correction of the solution in `n` dimensions. -/
def update (k : Krylov α) (n : Nat) : Array α :=
  (k.coefficients.zip k.directions).foldl
    (fun u p => Array.zipWith (fun a b => a + p.1 * b) u p.2) (Vec.zeros n)

end Krylov

namespace Gmres

variable {α ρ : Type} [Scalar α]

/-- At most `fuel` more inner iterations of a cycle; `v` is the newest basis vector. -/
def arnoldi (precondition : Array α → EStateM LinearError ρ (Array α)) (op : Operator α)
    (mode : Mode) (rNorm tol : α) :
    (fuel : Nat) → (v : Array α) → Krylov α → EStateM LinearError ρ (Krylov α)
  | 0, _, k => pure k
  | fuel + 1, v, k => do
    let z ← precondition v
    let w ← match op.apply mode z with
      | .ok w => pure w
      | .error e => throw (.eval e)
    let (k, w, wNorm) := k.extend z w
    if Scalar.abs k.remainder ≤ tol ∨ wNorm ≤ Scalar.epsilon * rNorm then return k
    let v := w.map (· / wNorm)
    arnoldi precondition op mode rNorm tol fuel v { k with basis := k.basis ++ [v] }

/-- One cycle from the residual `r`, with at most `budget` inner iterations. -/
def cycle (s : GmresSettings α) (precondition : Array α → EStateM LinearError ρ (Array α))
    (op : Operator α) (r : Array α) (rNorm tol : α) (mode : Mode) (budget : Nat) :
    EStateM LinearError ρ (Krylov α) :=
  let m := max (min (min s.restart r.size) budget) 1
  arnoldi precondition op mode rNorm tol m (r.map (· / rNorm)) (.start r rNorm)

/-- Shows the residual of `x` to the observer, and goes on from it unless the solve ends here. -/
def look {σ : Type} (op : Operator α) (rhs : Array α) (mode : Mode)
    (observer : Observer (LinearEvent α) σ) (tol : α) (count iters : Nat) (x : Array α)
    (goOn : Array α → EStateM LinearError (ρ × σ) (LinearSolution α)) :
    EStateM LinearError (ρ × σ) (LinearSolution α) := fun (p, o) =>
  match linearResidual op rhs x mode with
  | .error e => .error e (p, o)
  | .ok r =>
    let rNorm := Vec.norm r
    let (stop, o) := observer.stops ⟨count, iters, rNorm⟩ o
    if stop then .ok ⟨.stoppedByObserver, x, iters, rNorm⟩ (p, o)
    else if rNorm ≤ tol then .ok ⟨.converged, x, iters, rNorm⟩ (p, o)
    else goOn r (p, o)

/-- Cycles until the residual is small or `maxiter` inner iterations are used; `fuel` bounds the
number of cycles. -/
def cycles {σ : Type} (s : GmresSettings α)
    (precondition : Array α → EStateM LinearError ρ (Array α)) (op : Operator α) (rhs : Array α)
    (mode : Mode) (observer : Observer (LinearEvent α) σ) (tol : α) :
    (fuel count iters : Nat) → (x : Array α) →
      EStateM LinearError (ρ × σ) (LinearSolution α)
  | 0, count, iters, x =>
    look op rhs mode observer tol count iters x fun r => pure ⟨.maxIters, x, iters, Vec.norm r⟩
  | fuel + 1, count, iters, x =>
    look op rhs mode observer tol count iters x fun r (p, o) =>
      if s.maxiter ≤ iters then .ok ⟨.maxIters, x, iters, Vec.norm r⟩ (p, o)
      else
        match cycle s precondition op r (Vec.norm r) tol mode (s.maxiter - iters) p with
        | .error e p => .error e (p, o)
        | .ok k p =>
          cycles s precondition op rhs mode observer tol fuel (count + 1)
            (iters + k.columns.length) (Vec.add x (k.update op.dim)) (p, o)

/-- Solves from a starting guess; each cycle uses an inner iteration at least, so there are at most
`maxiter` cycles. -/
def solve {σ : Type} (s : GmresSettings α)
    (precondition : Array α → EStateM LinearError ρ (Array α)) (op : Operator α)
    (rhs guess : Array α) (mode : Mode) (observer : Observer (LinearEvent α) σ) :
    EStateM LinearError (ρ × σ) (LinearSolution α) :=
  let rhsNorm := Vec.norm rhs
  let tol := Scalar.maxNum s.atol (s.rtol * rhsNorm)
  let x := if rhsNorm == 0 then Vec.zeros op.dim else guess
  cycles s precondition op rhs mode observer tol s.maxiter 0 0 x

end Gmres

end Mdao
