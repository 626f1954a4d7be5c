import Mdao.Discipline

/-!
# Components

A component is a named discipline with its declarations checked and laid out: `Component.declare`
accepts a discipline or says what is wrong with its declarations. All components are presented in
residual form: an explicit discipline `y = f(x)` has the residuals `y - f(x)`.

* `evaluate`, `residuals`, `solve` and `guess` run the discipline on flat buffers; whatever the
  discipline does, a buffer keeps its length, and an error carries the name of the component.
* `linearSolve` solves with the discipline's own diagonal block, where it offers to.
-/

namespace Mdao

/-- A named discipline with its layout and the values of its partial derivatives. -/
structure Component (α : Type) where
  /-- The name in the model. -/
  name : String
  /-- What the author supplied. -/
  discipline : Discipline α
  /-- Where the inputs are. -/
  inputs : Layout
  /-- Where the outputs, and the residuals, are. -/
  outputs : Layout
  /-- The partial derivatives as last linearized. -/
  partials : Partials α
  /-- The dense Jacobian of a discipline that only forms products, row by row. -/
  probed : Option (Array α)
  /-- What the discipline kept from its last linearization. -/
  memo : Array α

namespace Component

variable {α : Type} [Scalar α]

/-- Lays variables out, after a check of names and of the sizes of default values. -/
def layOut (owner : String) (other : Layout) (l : Layout) :
    List (Variable α) → Except StructureError Layout
  | [] => .ok l
  | v :: rest =>
    let path := s!"{owner}.{v.name}"
    if v.value.size ≠ v.size then .error (.shapeMismatch path v.size v.value.size)
    else if (other.position? v.name).isSome then .error (.duplicateVariable path)
    else
      match l.push? v.name v.size with
      | some l => layOut owner other l rest
      | none => .error (.duplicateVariable path)

/-- Whether the component is implicit. -/
def isImplicit (c : Component α) : Bool := c.discipline.isImplicit

/-- What the component provides beyond its residuals. -/
def capabilities (c : Component α) : Capabilities := c.discipline.capabilities

/-- The places of a declared block of `n` rows and `m` columns. -/
def placesOf (n m : Nat) : Sparsity → Except String (Array (Nat × Nat))
  | .dense => .ok ((List.range n).flatMap fun r => (List.range m).map fun k => (r, k)).toArray
  | .sparse rows cols =>
    if rows.length ≠ cols.length then .error "rows and cols differ in length"
    else if rows.any (n ≤ ·) || cols.any (m ≤ ·) then .error "sparsity index out of bounds"
    else .ok (List.zip rows cols).toArray

/-- The first values of a block of `n` entries. -/
def valuesOf (n : Nat) : Option (Array α) → Except String (Array α)
  | none => .ok (Vec.zeros n)
  | some v =>
    match v.toList with
    | [x] => .ok (Array.replicate n x)
    | _ => if v.size = n then .ok v else .error "constant value has the wrong length"

/-- The name and size of a variable of differentiation. -/
def wrtField (c : Component α) : Wrt → String × Nat
  | .input p => (c.inputs.nameAt p, (c.inputs.spanAt p).size)
  | .output p => (c.outputs.nameAt p, (c.outputs.spanAt p).size)

/-- Stores the block of a declaration for one pair of variables. -/
def declareBlock (c : Component α) (d : PartialDeclaration α) (output : Nat) (wrt : Wrt) :
    Except String (Component α) := do
  let n := (c.outputs.spanAt output).size
  let (wrtName, m) := c.wrtField wrt
  let places ← placesOf n m d.sparsity
  let values ← valuesOf places.size d.constant
  let b : PartialBlock α :=
    { output := output
      wrt := wrt
      outputName := c.outputs.nameAt output
      wrtName := wrtName
      shape := (n, m)
      places := places
      values := values
      method := d.method
      constant := d.constant.isSome
      dense := d.sparsity == .dense }
  return { c with partials := c.partials.insert b }

/-- Stores the blocks of a declaration for several pairs of variables. -/
def declareBlocks (c : Component α) (d : PartialDeclaration α) :
    List (Nat × Wrt) → Except String (Component α)
  | [] => .ok c
  | (output, wrt) :: rest =>
    match c.declareBlock d output wrt with
    | .ok c => c.declareBlocks d rest
    | .error e => .error e

/-- The outputs that a name stands for. -/
def outputsNamed (c : Component α) (name : String) : Except String (List Nat) :=
  if name == "*" then .ok (List.range c.outputs.length)
  else
    match c.outputs.position? name with
    | some p => .ok [p]
    | none => .error "unknown output"

/-- The variables of differentiation that a name stands for. -/
def wrtsNamed (c : Component α) (name : String) : Except String (List Wrt) :=
  if name == "*" then
    .ok ((List.range c.inputs.length).map Wrt.input ++
      if c.isImplicit then (List.range c.outputs.length).map Wrt.output else [])
  else
    match c.inputs.position? name, c.outputs.position? name with
    | some p, _ => .ok [.input p]
    | none, some p =>
      if c.isImplicit then .ok [.output p]
      else .error "explicit units cannot declare partials with respect to outputs"
    | none, none => .error "unknown variable"

/-- Carries out a declaration, or says why it makes no sense. -/
def declarePartial (c : Component α) (d : PartialDeclaration α) :
    Except StructureError (Component α) :=
  if d.method.isComplexStep && !c.capabilities.complexStep then
    .error (.complexStepUnsupported c.name)
  else
    let stored : Except String (Component α) := do
      let outputs ← c.outputsNamed d.output
      let wrts ← c.wrtsNamed d.wrt
      c.declareBlocks d (outputs.flatMap fun o => wrts.map fun w => (o, w))
    match stored with
    | .ok c => .ok c
    | .error reason => .error (.invalidPartial c.name d.output d.wrt reason)

/-- Carries out declarations in order. -/
def declarePartials (c : Component α) :
    List (PartialDeclaration α) → Except StructureError (Component α)
  | [] => .ok c
  | d :: rest =>
    match c.declarePartial d with
    | .ok c => c.declarePartials rest
    | .error e => .error e

/-- The component of a discipline, if its declarations are consistent. -/
def declare (name : String) (d : Discipline α) : Except StructureError (Component α) := do
  let inputs ← layOut name .empty .empty d.inputs
  let outputs ← layOut name inputs .empty d.outputs
  declarePartials ⟨name, d, inputs, outputs, .empty, none, #[]⟩ d.partials

/-- Whether some partial derivative is written by the discipline itself. -/
def hasAnalyticPartials (c : Component α) : Bool :=
  c.partials.blocks.any fun b => !b.method.isApproximated && !b.constant

/-- An outcome on a buffer, in the buffer's length and with the component named in an error. -/
def settle {β : Type} (c : Component α) (buffer : Array β) :
    Filled β → EStateM.Result EvalError (Array β) PUnit
  | .ok _ filled => .ok ⟨⟩ (Vec.overlay buffer filled)
  | .error e filled => .error (e.ownedBy c.name) (Vec.overlay buffer filled)

/-- The outputs of an explicit component at the inputs. -/
def evaluate (c : Component α) (inputs outputs : Array α) : Filled α :=
  match c.discipline with
  | .explicit d => c.settle outputs (d.compute ⟨c.inputs, inputs⟩ ⟨c.outputs, outputs⟩)
  | .implicit _ => .error (.unsupported c.name "explicit evaluation") outputs

/-- The residuals at a point; those of an explicit component are what its outputs are off by. -/
def residuals (c : Component α) (inputs outputs residuals : Array α) : Filled α :=
  match c.discipline with
  | .explicit _ =>
    match c.evaluate inputs (Vec.zeros c.outputs.size) with
    | .ok _ computed => .ok ⟨⟩ (Vec.overlay residuals (Vec.sub outputs computed))
    | .error e _ => .error e residuals
  | .implicit d =>
    c.settle residuals
      (d.residuals ⟨c.inputs, inputs⟩ ⟨c.outputs, outputs⟩ ⟨c.outputs, residuals⟩)

/-- Lets the component determine its own outputs; tells whether it can. -/
def solve (c : Component α) (inputs outputs : Array α) :
    EStateM.Result EvalError (Array α) Bool :=
  match c.discipline with
  | .explicit _ =>
    match c.evaluate inputs outputs with
    | .ok _ y => .ok true y
    | .error e y => .error e y
  | .implicit d =>
    if d.capabilities.solveNonlinear then
      match c.settle outputs (d.solve ⟨c.inputs, inputs⟩ ⟨c.outputs, outputs⟩) with
      | .ok _ y => .ok true y
      | .error e y => .error e y
    else .ok false outputs

/-- The outputs that an implicit component wants a solver to start from. -/
def guess (c : Component α) (inputs outputs residuals : Array α) : Array α :=
  match c.discipline with
  | .explicit _ => outputs
  | .implicit d =>
    Vec.overlay outputs
      (d.guess ⟨c.inputs, inputs⟩ ⟨c.outputs, outputs⟩ ⟨c.outputs, residuals⟩)

/-- The solution of the component's own diagonal block, where it offers one. -/
def linearSolve (c : Component α) (rhs : Array α) (mode : Mode) :
    Option (Except EvalError (Array α)) :=
  match c.discipline with
  | .explicit _ => none
  | .implicit d =>
    if d.capabilities.solveLinear then
      let start : Array α := Vec.zeros c.outputs.size
      match d.solveLinear c.memo ⟨c.outputs, rhs⟩ ⟨c.outputs, start⟩ mode with
      | .ok x => some (.ok (Vec.overlay start x))
      | .error e => some (.error (e.ownedBy c.name))
    else none

end Component

end Mdao
