import Mdao.Component.Approximation

/-!
# Linearized components

`Component.linearize` refreshes all derivatives of a component at a point. After that
`Component.entries` lists its Jacobian in residual form: the places depend on the declarations
alone, never on values. `applyForward` and `applyReverse` form products, through the discipline
where it forms its own and by the entries otherwise.
-/

namespace Mdao

/-- An entry of a component's Jacobian in residual form. -/
structure Component.Entry (α : Type) where
  /-- The flat index of the residual. -/
  row : Nat
  /-- The column. -/
  column : Column
  /-- The derivative. -/
  value : α
  deriving Repr

namespace Component

variable {α : Type} [Scalar α]

/-- The dense Jacobian of a discipline that only forms products: its outputs' columns first, then
its inputs' columns. -/
def probeColumns (c : Component α) (inputs outputs : Array α) :
    List Nat → Except EvalError (List (Array α))
  | [] => .ok []
  | k :: rest => do
    let n := c.outputs.size
    let m := c.inputs.size
    let dOutputs : Array α := if k < n then Vec.unit n k else Vec.zeros n
    let dInputs : Array α := if k < n then Vec.zeros m else Vec.unit m (k - n)
    let start : Array α := Vec.zeros n
    let column ← match c.discipline with
      | .explicit _ => .ok start
      | .implicit d =>
        match d.applyForward ⟨c.inputs, inputs⟩ ⟨c.outputs, outputs⟩ ⟨c.inputs, dInputs⟩
            ⟨c.outputs, dOutputs⟩ ⟨c.outputs, start⟩ with
        | .ok y => .ok (Vec.overlay start y)
        | .error e => .error (e.ownedBy c.name)
    let others ← c.probeColumns inputs outputs rest
    return column :: others

/-- The dense Jacobian row by row, by one product for each column. -/
def probe (c : Component α) (inputs outputs : Array α) : Except EvalError (Array α) := do
  let width := c.outputs.size + c.inputs.size
  let columns ← c.probeColumns inputs outputs (List.range width)
  return ((List.range c.outputs.size).flatMap fun r => columns.map fun k => Vec.entry k r).toArray

/-- Runs the discipline's own linearization and keeps what it wrote up to a failure. -/
def linearizeOwn (c : Component α) (inputs outputs : Array α) :
    EStateM.Result EvalError (Component α) PUnit :=
  let l := match c.discipline with
    | .explicit d => d.linearize ⟨c.inputs, inputs⟩
    | .implicit d => d.linearize ⟨c.inputs, inputs⟩ ⟨c.outputs, outputs⟩
  match c.partials.writeAll l.writes with
  | .error e p => .error (e.ownedBy c.name) { c with partials := p }
  | .ok _ p =>
    match l.failure with
    | some e => .error (e.ownedBy c.name) { c with partials := p }
    | none => .ok ⟨⟩ { c with partials := p, memo := l.memo.getD c.memo }

/-- Probes a component that only forms products. -/
def linearizeProbed (c : Component α) (inputs outputs : Array α) :
    EStateM.Result EvalError (Component α) PUnit :=
  if c.capabilities.applyLinear then
    match c.probe inputs outputs with
    | .ok dense => .ok ⟨⟩ { c with probed := some dense }
    | .error e => .error e c
  else .ok ⟨⟩ c

/-- Refreshes all derivatives at a point: what the discipline writes, what is probed, what is
approximated, and last the check of the declared structure where a tolerance is given. -/
def linearize (c : Component α) (inputs outputs : Array α) (strict : Option α) :
    EStateM.Result EvalError (Component α) PUnit :=
  match c.linearizeOwn inputs outputs with
  | .error e c => .error e c
  | .ok _ c =>
    match c.linearizeProbed inputs outputs with
    | .error e c => .error e c
    | .ok _ c =>
      match c.approximate inputs outputs with
      | .error e c => .error e c
      | .ok _ c =>
        match strict with
        | none => .ok ⟨⟩ c
        | some tol =>
          match c.verify inputs outputs tol with
          | .ok _ => .ok ⟨⟩ c
          | .error e => .error e c

/-- The column of a block's entry. -/
def columnAt (c : Component α) (wrt : Wrt) (col : Nat) : Column :=
  match wrt with
  | .input p => .input ((c.inputs.spanAt p).start + col)
  | .output p => .output ((c.outputs.spanAt p).start + col)

/-- The entries of a block in residual form. -/
def blockEntries (c : Component α) (sign : α) (b : PartialBlock α) : List (Entry α) :=
  let start := (c.outputs.spanAt b.output).start
  b.entries.map fun (row, col, v) => ⟨start + row, c.columnAt b.wrt col, sign * v⟩

/-- The entries of the Jacobian in residual form. -/
def entries (c : Component α) : List (Entry α) :=
  let n := c.outputs.size
  let m := c.inputs.size
  if c.capabilities.applyLinear then
    let value (r k : Nat) : α := match c.probed with
      | some dense => Vec.entry dense (r * (n + m) + k)
      | none => 0
    (List.range n).flatMap fun r =>
      ((List.range n).map fun k => ⟨r, .output k, value r k⟩) ++
        (List.range m).map fun k => ⟨r, .input k, value r (n + k)⟩
  else
    let diagonal : List (Entry α) :=
      if c.isImplicit then [] else (List.range n).map fun i => ⟨i, .output i, 1⟩
    let sign : α := if c.isImplicit then 1 else -1
    diagonal ++ c.partials.blocks.toList.flatMap (c.blockEntries sign)

/-- The product `J · (dInputs, dOutputs)`, added to `dResiduals`. -/
def applyForward (c : Component α) (inputs outputs dInputs dOutputs dResiduals : Array α) :
    Except EvalError (Array α) :=
  let byEntries : Except EvalError (Array α) :=
    .ok (Vec.scatter dResiduals (c.entries.map fun e =>
      (e.row, e.value * entryAt dInputs dOutputs e.column)))
  match c.discipline with
  | .explicit _ => byEntries
  | .implicit d =>
    if d.capabilities.applyLinear then
      match d.applyForward ⟨c.inputs, inputs⟩ ⟨c.outputs, outputs⟩ ⟨c.inputs, dInputs⟩
          ⟨c.outputs, dOutputs⟩ ⟨c.outputs, dResiduals⟩ with
      | .ok y => .ok (Vec.overlay dResiduals y)
      | .error e => .error (e.ownedBy c.name)
    else byEntries

/-- The contributions of entries to the inputs' side of a transposed product. -/
def inputContributions (dResiduals : Array α) (es : List (Entry α)) : List (Nat × α) :=
  es.filterMap fun e => match e.column with
    | .input i => some (i, e.value * Vec.entry dResiduals e.row)
    | .output _ => none

/-- The contributions of entries to the outputs' side of a transposed product. -/
def outputContributions (dResiduals : Array α) (es : List (Entry α)) : List (Nat × α) :=
  es.filterMap fun e => match e.column with
    | .input _ => none
    | .output i => some (i, e.value * Vec.entry dResiduals e.row)

/-- The products `Jᵀ · dResiduals`, added to `dInputs` and `dOutputs`. -/
def applyReverse (c : Component α) (inputs outputs dResiduals dInputs dOutputs : Array α) :
    Except EvalError (Array α × Array α) :=
  let byEntries : Except EvalError (Array α × Array α) :=
    .ok (Vec.scatter dInputs (inputContributions dResiduals c.entries),
      Vec.scatter dOutputs (outputContributions dResiduals c.entries))
  match c.discipline with
  | .explicit _ => byEntries
  | .implicit d =>
    if d.capabilities.applyLinear then
      match d.applyReverse ⟨c.inputs, inputs⟩ ⟨c.outputs, outputs⟩ ⟨c.outputs, dResiduals⟩
          ⟨c.inputs, dInputs⟩ ⟨c.outputs, dOutputs⟩ with
      | .ok (dx, dy) => .ok (Vec.overlay dInputs dx, Vec.overlay dOutputs dy)
      | .error e => .error (e.ownedBy c.name)
    else byEntries

end Component

end Mdao
