import Mdao.Coloring.Cache
import Mdao.Model.Basic
import Mdao.Model.Block

/-!
# Problems

A `Problem` is a model laid out and ready to run. Values are read and written by path; outputs may
be written to start a solver from, inputs only where nothing is connected to them.
`Problem.runObserved` converges one block after the other and evaluates all residuals at the end.
-/

namespace Mdao

/-- A model that is ready to run. -/
structure Problem (α : Type) where
  /-- The units and the values of all variables. -/
  assembly : Assembly α
  /-- Where everything is. -/
  arrangement : Arrangement α
  /-- The blocks in execution order. -/
  blocks : Array (SolverBlock α)
  /-- The connections by their targets. -/
  links : List (Target × Link α)
  /-- The options. -/
  options : SolverOptions α
  /-- All units in execution order. -/
  order : List Nat
  /-- The diagonal blocks of the Jacobian over all slots. -/
  totalParts : List Part
  /-- The Jacobian over all slots as last assembled. -/
  totalJacobian : Option (Jacobian α)
  /-- The coloring of the totals. -/
  cache : ColoringCache

/-- How the solve of one block went. -/
structure BlockReport (α : Type) where
  /-- The name of the block. -/
  name : String
  /-- The name of its nonlinear solver. -/
  solver : String
  /-- The outcome. -/
  solution : Solution α

/-- How a run went, block by block in execution order. -/
structure RunReport (α : Type) where
  /-- The reports of the blocks. -/
  blocks : List (BlockReport α)

namespace RunReport

variable {α : Type}

/-- Whether every block converged. -/
def isConverged (r : RunReport α) : Bool := r.blocks.all fun b => b.solution.isConverged

/-- The report of a block. -/
def block? (r : RunReport α) (name : String) : Option (BlockReport α) :=
  r.blocks.find? fun b => b.name == name

end RunReport

/-- An output with the norm of its residuals. -/
structure ResidualEntry (α : Type) where
  /-- The path. -/
  name : String
  /-- The norm. -/
  norm : α

namespace Problem

variable {α : Type} [Scalar α]

/-- The values of all variables. -/
def store (p : Problem α) : Store α := p.assembly.store

/-- The problem with other values. -/
def withStore (p : Problem α) (s : Store α) : Problem α :=
  { p with assembly := { p.assembly with store := s } }

/-- A result about structure as one about a model. -/
def ofStructure {β : Type} : Except StructureError β → Except (ModelError α) β
  | .ok b => .ok b
  | .error e => .error (.core e)

/-- The value of a variable. -/
def get (p : Problem α) (name : String) : Except (ModelError α) (Array α) :=
  ofStructure (p.store.get name)

/-- Refuses variables that are not there to be written: inputs with a source. -/
def checkSettable (p : Problem α) (name : String) : Except StructureError Unit :=
  match p.store.id name with
  | .error e => .error e
  | .ok i =>
    if p.store.isInput i && !p.store.isIndependent i then .error (.notIndependent name)
    else .ok ()

/-- Writes an output or an unconnected input. -/
def set (p : Problem α) (name : String) (value : Array α) :
    Except (ModelError α) (Problem α) :=
  ofStructure do
    p.checkSettable name
    let s ← p.store.set name value
    return p.withStore s

/-- The value of a variable in other units of measure. -/
def getInUnits (p : Problem α) (name units : String) : Except (ModelError α) (Array α) :=
  ofStructure (p.store.getInUnits name units)

/-- Writes an output or an unconnected input, given in other units of measure. -/
def setInUnits (p : Problem α) (name : String) (value : Array α) (units : String) :
    Except (ModelError α) (Problem α) :=
  ofStructure do
    p.checkSettable name
    let s ← p.store.setInUnits name value units
    return p.withStore s

/-- The residuals of an output or an independent input. -/
def residual (p : Problem α) (name : String) : Except (ModelError α) (Array α) :=
  ofStructure (p.store.residual name)

/-- The names of the blocks in execution order. -/
def blockNames (p : Problem α) : List String := p.blocks.toList.map SolverBlock.name

/-- The unit of a name. -/
def unit? (p : Problem α) (name : String) : Option (Component α) :=
  p.assembly.units.find? fun c => c.name == name

/-- A step on units and values, with its failure as one of the model. -/
def onAssembly (step : EStateM EvalError (Assembly α) Unit) :
    EStateM (ModelError α) (Problem α) Unit := fun p =>
  match step p.assembly with
  | .ok _ a => .ok () { p with assembly := a }
  | .error e a => .error (.eval e) { p with assembly := a }

/-- Evaluates the residuals of all units. -/
def evaluateAll : EStateM (ModelError α) (Problem α) Unit := fun p =>
  onAssembly (Assembly.evaluateAll p.arrangement p.order) p

/-- The problem and the observer after the solve of a block. -/
def afterBlock {ω : Type} (p : Problem α) (k : Nat)
    (s : Solving α (SolverBlock.State α) ω) : Problem α × ω :=
  let blocks := p.blocks.modify k fun b =>
    { b with memory := s.memory, jacobian := s.system.jacobian }
  ({ p with assembly := s.system.assembly, blocks := blocks }, s.watch)

/-- Converges one block. -/
def runBlock {ω : Type} (observer : Observer (NonlinearEvent α) ω) (k : Nat)
    (b : SolverBlock α) :
    EStateM (ModelError α) (Problem α × ω) (BlockReport α) := fun (p, w) =>
  let system := b.system p.arrangement p.options.strictPartials
  let start : Solving α (SolverBlock.State α) ω := ⟨⟨p.assembly, b.jacobian⟩, b.memory, w⟩
  match NonlinearConfig.solve b.options.linear system observer b.options.nonlinear start with
  | .ok solution s => .ok ⟨b.name, b.options.nonlinear.label, solution⟩ (p.afterBlock k s)
  | .error e s => .error (.nonlinear b.name e) (p.afterBlock k s)

/-- Converges blocks one after the other. -/
def runBlocks {ω : Type} (observer : Observer (NonlinearEvent α) ω) :
    List (SolverBlock α × Nat) → EStateM (ModelError α) (Problem α × ω) (List (BlockReport α))
  | [] => pure []
  | (b, k) :: rest => do
    let report ← runBlock observer k b
    let others ← runBlocks observer rest
    return report :: others

/-- Converges every block in execution order and evaluates all residuals. A block that does not
converge is reported and is no error, unless its solver is told to make it one. -/
def runObserved {ω : Type} (observer : Observer (NonlinearEvent α) ω) :
    EStateM (ModelError α) (Problem α × ω) (RunReport α) := fun (p, w) =>
  match runBlocks observer p.blocks.toList.zipIdx (p, w) with
  | .error e s => .error e s
  | .ok reports (p, w) =>
    match evaluateAll p with
    | .ok _ p => .ok ⟨reports⟩ (p, w)
    | .error e p => .error e (p, w)

/-- Runs without an observer. -/
def run : EStateM (ModelError α) (Problem α) (RunReport α) := fun p =>
  match runObserved .silent (p, ()) with
  | .ok report (p, _) => .ok report p
  | .error e (p, _) => .error e p

/-- The norm of the residuals of an output. -/
def residualEntry (p : Problem α) (i : Nat) : Option (ResidualEntry α) :=
  if p.store.isInput i then none
  else
    (p.store.slots? i).map fun r =>
      ⟨p.store.nameOf i, Vec.norm (Vec.slice p.store.residuals r)⟩

/-- The outputs whose residual norm exceeds a tolerance, the greatest norm first. -/
def listResiduals (p : Problem α) (tol : α) : List (ResidualEntry α) :=
  let entries := (p.store.ids.filterMap p.residualEntry).filter fun e => decide (tol < e.norm)
  entries.mergeSort fun a b => Scalar.totalLe b.norm a.norm

/-- Refreshes the derivatives of all units and the Jacobian over all slots. -/
def linearizeAll : EStateM (ModelError α) (Problem α) Unit := fun p =>
  let l := p.arrangement
  match onAssembly (Assembly.linearizeAll l p.options.strictPartials p.order) p with
  | .error e p => .error e p
  | .ok _ p =>
    let j := match p.totalJacobian with
      | some j => j.refresh l p.assembly.units
      | none => .build l p.assembly.units p.order (.upTo l.size)
    .ok () { p with totalJacobian := some j }

/-- The Jacobian over all slots. -/
def totalOperator (p : Problem α) : Operator α :=
  Part.operator p.arrangement p.assembly p.order (.upTo p.arrangement.size) p.totalParts
    p.totalJacobian

end Problem

end Mdao
