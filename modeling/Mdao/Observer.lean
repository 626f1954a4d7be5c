import Mdao.Scalar

/-!
# Observers

A solver reports each iteration as an event to an observer, which may ask it to stop. An observer
keeps a state of its own: `History` collects the residual norms it has seen, `StopBelow` and
`StopAfter` decide from one event alone.
-/

namespace Mdao

/-- What an observer can ask of a solver. -/
inductive Action where
  /-- End the solve and keep what has been reached. -/
  | stopEarly
  deriving DecidableEq, Repr

/-- The name of an action. -/
def Action.label : Action → String
  | .stopEarly => "StopEarly"

/-- Something that sees the events of a solver, with a state `σ`. -/
structure Observer (ε σ : Type) where
  /-- What the observer asks for after an event, and its next state. -/
  observe : ε → σ → Option Action × σ

namespace Observer

variable {ε σ : Type}

/-- The observer that never acts. -/
def silent : Observer ε Unit := ⟨fun _ s => (none, s)⟩

/-- The observer that decides from the event alone. -/
def ofDecision (decide : ε → Bool) : Observer ε σ :=
  ⟨fun e s => (if decide e then some .stopEarly else none, s)⟩

/-- Two observers of one state, one after the other; the first that acts prevails. -/
def both (first second : Observer ε σ) : Observer ε σ :=
  ⟨fun e s =>
    let (a, s) := first.observe e s
    let (b, s) := second.observe e s
    (a <|> b, s)⟩

/-- Whether the observer asks to stop, and its next state. -/
def stops (o : Observer ε σ) (e : ε) (s : σ) : Bool × σ :=
  let (a, s) := o.observe e s
  (a == some .stopEarly, s)

end Observer

/-- Events that belong to an iteration and carry a residual norm. Iteration 0 is the start. -/
class Progress (ε : Type) (α : outParam Type) where
  /-- The number of the iteration. -/
  iteration : ε → Nat
  /-- The norm of the residual. -/
  residualNorm : ε → α

/-- Stops once the residual norm is below a tolerance, from some iteration on. -/
structure StopBelow (α : Type) where
  /-- The tolerance. -/
  tol : α
  /-- The first iteration that may stop. -/
  minIters : Nat := 0

/-- Stops at an iteration. -/
structure StopAfter where
  /-- The iteration. -/
  maxIters : Nat

section

variable {ε α σ : Type} [Scalar α] [Progress ε α]

/-- Whether an event lies below the tolerance late enough. -/
def StopBelow.decides (s : StopBelow α) (e : ε) : Bool :=
  s.minIters ≤ Progress.iteration e && decide (Progress.residualNorm e < s.tol)

/-- The rule as an observer. -/
def StopBelow.observer (s : StopBelow α) : Observer ε σ := .ofDecision s.decides

/-- Whether an event has reached the iteration. -/
def StopAfter.decides (s : StopAfter) (e : ε) : Bool := s.maxIters ≤ Progress.iteration e

/-- The rule as an observer. -/
def StopAfter.observer (s : StopAfter) : Observer ε σ := .ofDecision s.decides

end

/-- The residual norms of one or more solves, in the order of arrival. -/
structure History (α : Type) where
  /-- The iteration and the norm of each event. -/
  entries : List (Nat × α)

namespace History

variable {α : Type} [Scalar α]

/-- The history without events. -/
def empty : History α := ⟨[]⟩

/-- The history with one more event. -/
def record {ε : Type} [Progress ε α] (h : History α) (e : ε) : History α :=
  ⟨h.entries ++ [(Progress.iteration e, Progress.residualNorm e)]⟩

/-- The observer that records every event and never acts. -/
def recorder {ε : Type} [Progress ε α] : Observer ε (History α) :=
  ⟨fun e h => (none, h.record e)⟩

/-- The norms in the order of arrival. -/
def norms (h : History α) : List α := h.entries.map Prod.snd

/-- The number of solves, counted by their starts. -/
def solves (h : History α) : Nat := (h.entries.filter fun e => e.1 == 0).length

/-- The last norm. -/
def last? (h : History α) : Option α := h.norms.getLast?

/-- Whether the norm never grew within a solve. -/
def isMonotone (h : History α) : Bool :=
  (h.entries.zip h.entries.tail).all fun (a, b) => b.1 == 0 || decide (b.2 ≤ a.2)

end History

end Mdao
