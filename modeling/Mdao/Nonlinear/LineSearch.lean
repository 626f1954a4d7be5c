import Mdao.Nonlinear.Basic

/-!
# Searching along a step

A `Path` is the curve of trial points from `x0` along a step, kept within bounds as asked.
`LineSearch.search` walks along it: it takes the full step, or tries shorter and shorter steps until
the residual norm decreases enough. The system is left at the point that was tried last.
-/

namespace Mdao

/-- Trial points along a step, within bounds. -/
structure LineSearch.Path (α : Type) where
  /-- The point from which the step starts. -/
  x0 : Array α
  /-- The step, shortened as a whole where that is asked for. -/
  step : Array α
  /-- The lower bounds. -/
  lower : Array (Option α)
  /-- The upper bounds. -/
  upper : Array (Option α)
  /-- How bounds are enforced, if at all. -/
  enforcement : Option BoundEnforcement
  /-- The unknowns that stay at a bound for every length of the step. -/
  pinned : Array Bool

namespace LineSearch

variable {α σ : Type} [Scalar α]

/-- The bound of an unknown. -/
def boundAt (bounds : Array (Option α)) (i : Nat) : Option α := bounds.getD i none

/-- Whether a number lies above a bound. -/
def above (x : α) : Option α → Bool
  | some b => decide (b < x)
  | none => false

/-- Whether a number lies below a bound. -/
def below (x : α) : Option α → Bool
  | some b => decide (x < b)
  | none => false

/-- A number brought within bounds, the upper one last. -/
def clip (x : α) (lower upper : Option α) : α :=
  let x := match lower with
    | some b => Scalar.maxNum x b
    | none => x
  match upper with
  | some b => Scalar.minNum x b
  | none => x

/-- The share of a step that one unknown allows, if it leaves its bounds on the way. -/
def allowance (x s : α) (lower upper : Option α) : Option α :=
  match upper, lower with
  | some b, _ =>
    if b < x + s ∧ 0 < s then some ((b - x) / s)
    else
      match lower with
      | some a => if x + s < a ∧ s < 0 then some ((a - x) / s) else none
      | none => none
  | none, some a => if x + s < a ∧ s < 0 then some ((a - x) / s) else none
  | none, none => none

/-- The share of a step that keeps every unknown within its bounds. -/
def feasibleFraction (x0 step : Array α) (lower upper : Array (Option α)) : α :=
  let shares := (List.range x0.size).filterMap fun i =>
    allowance (Vec.entry x0 i) (Vec.entry step i) (boundAt lower i) (boundAt upper i)
  Scalar.maxNum (shares.foldl Scalar.minNum 1) 0

/-- The path of a step. -/
def Path.make (x0 step : Array α) (lower upper : Array (Option α))
    (enforcement : Option BoundEnforcement) : Path α :=
  let none := Array.replicate x0.size false
  match enforcement with
  | some .vector =>
    let fraction := feasibleFraction x0 step lower upper
    let step := if fraction < 1 then step.map (· * fraction) else step
    ⟨x0, step, lower, upper, enforcement, none⟩
  | some .wall =>
    let pinned := Vec.tabulate x0.size fun i =>
      let full := Vec.entry x0 i + Vec.entry step i
      above full (boundAt upper i) || below full (boundAt lower i)
    ⟨x0, step, lower, upper, enforcement, pinned⟩
  | _ => ⟨x0, step, lower, upper, enforcement, none⟩

/-- One unknown of a trial point. -/
def Path.entry (p : Path α) (alpha : α) (i : Nat) : α :=
  let x := Vec.entry p.x0 i + alpha * Vec.entry p.step i
  let lower := boundAt p.lower i
  let upper := boundAt p.upper i
  match p.enforcement with
  | none => x
  | some .wall =>
    if p.pinned.getD i false then
      if above (Vec.entry p.x0 i + Vec.entry p.step i) upper then upper.getD x else lower.getD x
    else clip x lower upper
  | some _ => clip x lower upper

/-- The trial point for a length of the step. -/
def Path.point (p : Path α) (alpha : α) : Array α := Vec.tabulate p.x0.size (p.entry alpha)

/-- Moves the system to a trial point and evaluates it there. -/
def trial (sys : NonlinearSystem α σ) (p : Path α) (alpha : α) :
    EStateM EvalError σ (Array α) := fun s =>
  sys.residuals (sys.setState (p.point alpha) s)

/-- Whether the residual norm at a trial point has decreased enough. -/
def isSufficient (s : LineSearchSettings α) (initialNorm alpha : α) (residuals : Array α) : Bool :=
  decide (Vec.norm residuals ≤ (1 - s.c * alpha) * initialNorm)

/-- Tries `more + 1` shorter and shorter steps; the last one is accepted as it is. -/
def backtrack (s : LineSearchSettings α) (sys : NonlinearSystem α σ) (p : Path α)
    (initialNorm : α) : (more : Nat) → (alpha : α) → EStateM EvalError σ (α × Array α)
  | 0, alpha => fun t =>
    match trial sys p alpha t with
    | .ok r t => .ok (alpha, r) t
    | .error e t => .error e t
  | more + 1, alpha => fun t =>
    match trial sys p alpha t with
    | .ok r t =>
      if isSufficient s initialNorm alpha r then .ok (alpha, r) t
      else backtrack s sys p initialNorm more (alpha * s.rho) t
    | .error e t =>
      if s.retryOnAnalysisError && e.isRetryable then
        backtrack s sys p initialNorm more (alpha * s.rho) t
      else .error e t

/-- The bounds that a kind of search enforces. -/
def enforcementOf (s : LineSearchSettings α) : Option BoundEnforcement :=
  match s.kind with
  | .none => none
  | _ => some s.boundEnforcement

/-- Moves the system along a step; gives the length of the step and the residuals at its end. -/
def search (s : LineSearchSettings α) (sys : NonlinearSystem α σ) (x0 step : Array α)
    (initialNorm : α) : EStateM EvalError σ (α × Array α) :=
  let path := Path.make x0 step sys.lower sys.upper (enforcementOf s)
  let trials := match s.kind with
    | .armijo => s.maxiter - 1
    | _ => 0
  backtrack s sys path initialNorm trials s.alpha

end LineSearch

end Mdao
