import Mdao.Linear.Direct
import Mdao.Linear.Gmres
import Mdao.Linear.Sweep

/-!
# Linear solvers

A linear solver is a configuration together with what it remembers: factors from its last setup and
its last solution in each mode. `LinearMemory` holds one cell for the solver and one for each
preconditioner down the chain. What is remembered survives a failed solve.
-/

namespace Mdao

/-- Something that solves linear systems, and remembers `μ` from one step to the next. -/
structure LinearSolver (α μ : Type) where
  /-- Prepares for solves against the present values of an operator. -/
  setup : Operator α → EStateM LinearError μ Unit
  /-- Solves `J x = rhs`, or `Jᵀ x = rhs` in reverse. -/
  solve : Operator α → Mode → Array α → EStateM LinearError μ (LinearSolution α)

/-- What one solver of a chain remembers. -/
structure LinearMemory.Cell (α : Type) where
  /-- The factors of the whole operator. -/
  factors : Option (Factors α)
  /-- The diagonal blocks. -/
  diagonal : Diagonal α
  /-- The last solution forward. -/
  forward : Option (Array α)
  /-- The last solution in reverse. -/
  reverse : Option (Array α)

/-- What a solver and its preconditioners remember, the solver first. -/
abbrev LinearMemory (α : Type) : Type := List (LinearMemory.Cell α)

namespace LinearMemory

variable {α : Type} [Scalar α]

/-- A cell that remembers nothing. -/
def Cell.blank : Cell α := ⟨none, .empty, none, none⟩

/-- Nothing remembered. -/
def blank : LinearMemory α := []

/-- What the solver itself remembers. -/
def own (m : LinearMemory α) : Cell α := m.headD .blank

/-- What its preconditioner remembers. -/
def preconditioner (m : LinearMemory α) : LinearMemory α := m.tail

/-- The last solution in a mode. -/
def Cell.last (c : Cell α) : Mode → Option (Array α)
  | .fwd => c.forward
  | .rev => c.reverse

/-- Remembers a solution. -/
def Cell.keep (c : Cell α) (mode : Mode) (x : Array α) : Cell α :=
  match mode with
  | .fwd => { c with forward := some x }
  | .rev => { c with reverse := some x }

/-- Where a solve starts: at the last solution in its mode, or at zero. -/
def Cell.guess (c : Cell α) (useCached : Bool) (n : Nat) (mode : Mode) : Array α :=
  match c.last mode with
  | some x => if useCached && x.size == n then x else Vec.zeros n
  | none => Vec.zeros n

end LinearMemory

namespace LinearConfig

variable {α σ : Type} [Scalar α]

open LinearMemory

/-- Prepares for solves against the present values of an operator. -/
def setup (op : Operator α) : LinearConfig α → EStateM LinearError (LinearMemory α) Unit
  | .direct => fun m =>
    match Direct.factorize op with
    | .ok f => .ok () ({ own m with factors := some f } :: preconditioner m)
    | .error e => .error e m
  | .gmres _ => fun m => .ok () m
  | .preconditioned _ config => fun m =>
    match setup op config (preconditioner m) with
    | .ok _ m' => .ok () (own m :: m')
    | .error e m' => .error e (own m :: m')
  | .blockGaussSeidel _ | .blockJacobi _ | .runOnce => fun m =>
    .ok () ({ own m with diagonal := .ofOperator op } :: preconditioner m)

/-- A GMRES solve from what is remembered, with a preconditioner on the rest of the chain. -/
def gmresSolve (s : GmresSettings α)
    (precondition : Array α → EStateM LinearError (LinearMemory α) (Array α)) (op : Operator α)
    (rhs : Array α) (mode : Mode) (observer : Observer (LinearEvent α) σ) :
    EStateM LinearError (LinearMemory α × σ) (LinearSolution α) := fun (m, o) =>
  match checkDim op rhs with
  | .error e => .error e (m, o)
  | .ok _ =>
    let guess := (own m).guess s.useCachedGuess op.dim mode
    match Gmres.solve s precondition op rhs guess mode observer (preconditioner m, o) with
    | .error e (m', o) => .error e (own m :: m', o)
    | .ok solution (m', o) => .ok solution ((own m).keep mode solution.x :: m', o)

/-- A solve by sweeps from what is remembered. -/
def sweepSolve (kind : SweepKind) (s : SweepSettings α) (op : Operator α) (rhs : Array α)
    (mode : Mode) (observer : Observer (LinearEvent α) σ) :
    EStateM LinearError (LinearMemory α × σ) (LinearSolution α) := fun (m, o) =>
  match checkDim op rhs with
  | .error e => .error e (m, o)
  | .ok _ =>
    let guess := (own m).guess s.useCachedGuess op.dim mode
    match Diagonal.iterate kind s op rhs guess mode observer ((own m).diagonal, o) with
    | .error e (d, o) => .error e ({ own m with diagonal := d } :: preconditioner m, o)
    | .ok solution (d, o) =>
      .ok solution ({ own m with diagonal := d }.keep mode solution.x :: preconditioner m, o)

/-- A solve that nobody watches. -/
def unwatched (solve : EStateM LinearError (LinearMemory α × Unit) (LinearSolution α)) :
    EStateM LinearError (LinearMemory α) (LinearSolution α) := fun m =>
  match solve (m, ()) with
  | .ok s (m, _) => .ok s m
  | .error e (m, _) => .error e m

/-- Solves `J x = rhs`, or `Jᵀ x = rhs` in reverse. -/
def solve (op : Operator α) (mode : Mode) :
    LinearConfig α → Array α → EStateM LinearError (LinearMemory α) (LinearSolution α)
  | .direct, rhs => fun m =>
    match Direct.solve op rhs mode (own m).factors with
    | .ok s f => .ok s ({ own m with factors := f } :: preconditioner m)
    | .error e f => .error e ({ own m with factors := f } :: preconditioner m)
  | .gmres s, rhs => unwatched (gmresSolve s pure op rhs mode .silent)
  | .preconditioned s config, rhs =>
    unwatched (gmresSolve s (fun v => do return (← solve op mode config v).x) op rhs mode .silent)
  | .blockGaussSeidel s, rhs => unwatched (sweepSolve .gaussSeidel s op rhs mode .silent)
  | .blockJacobi s, rhs => unwatched (sweepSolve .jacobi s op rhs mode .silent)
  | .runOnce, rhs => fun m =>
    match Diagonal.runOnce op rhs mode (own m).diagonal with
    | .ok s d => .ok s ({ own m with diagonal := d } :: preconditioner m)
    | .error e d => .error e ({ own m with diagonal := d } :: preconditioner m)

/-- The configured solver. -/
def solver (config : LinearConfig α) : LinearSolver α (LinearMemory α) where
  setup op := config.setup op
  solve op mode rhs := config.solve op mode rhs

/-- Solves under the eyes of an observer. GMRES and block Gauss-Seidel report to it, the other
solvers have nothing to report. -/
def solveObserved (op : Operator α) (mode : Mode) (config : LinearConfig α) (rhs : Array α)
    (observer : Observer (LinearEvent α) σ) :
    EStateM LinearError (LinearMemory α × σ) (LinearSolution α) :=
  match config with
  | .gmres s => gmresSolve s pure op rhs mode observer
  | .preconditioned s nested =>
    gmresSolve s (fun v => do return (← solve op mode nested v).x) op rhs mode observer
  | .blockGaussSeidel s => sweepSolve .gaussSeidel s op rhs mode observer
  | config => fun (m, o) =>
    match solve op mode config rhs m with
    | .ok s m => .ok s (m, o)
    | .error e m => .error e (m, o)

end LinearConfig

end Mdao
