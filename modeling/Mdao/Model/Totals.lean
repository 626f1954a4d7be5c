import Mdao.Coloring.Recover
import Mdao.Model.Problem
import Mdao.Random

/-!
# Total derivatives

A total derivative of a quantity with respect to an independent input is an entry of the inverse of
the Jacobian `J` over all slots. Forward, `J x = e` is solved for each independent entry and the
rows of interest are read from `x`; in reverse, `Jᵀ x = e` is solved for each entry of interest and
the independent columns are read. A connected input is a quantity of interest as well: its totals
are those of its source, scaled by the unit conversion.

With a coloring, several right-hand sides share one solve. The pattern of the totals is detected
with random numbers in place of the derivatives, so it reflects the structure alone, and the
coloring is kept until the structure changes.
-/

namespace Mdao

/-- Named quantities resolved to one slot for each entry. -/
structure Quantities (α : Type) where
  /-- The names, each with the numbers of its entries. -/
  names : List (String × Span)
  /-- The slot and the factor of each entry. -/
  entries : List (Nat × α)

namespace Quantities

variable {α : Type} [Scalar α]

/-- No quantities. -/
def empty : Quantities α := ⟨[], []⟩

/-- The number of entries. -/
def length (q : Quantities α) : Nat := q.entries.length

/-- The slots of the entries. -/
def slots (q : Quantities α) : List Nat := q.entries.map Prod.fst

/-- The factors of the entries. -/
def scales (q : Quantities α) : List α := q.entries.map Prod.snd

/-- Appends a quantity. -/
def push (q : Quantities α) (name : String) (slots : Span) (scale : α) : Quantities α :=
  ⟨q.names ++ [(name, ⟨q.length, q.length + slots.size⟩)],
    q.entries ++ slots.indices.map fun s => (s, scale)⟩

/-- The entries of a quantity, the first of its name. -/
def span? (names : List (String × Span)) (name : String) : Option Span := names.lookup name

/-- What the entries read from a vector over all slots, each scaled. -/
def readFrom (q : Quantities α) (x : Array α) : Array α :=
  (q.entries.map fun e => e.2 * Vec.entry x e.1).toArray

end Quantities

/-- A dense matrix of total derivatives, addressed by pairs of names. -/
structure Totals (α : Type) where
  /-- The quantities of interest with their rows. -/
  rows : List (String × Span)
  /-- The independent inputs with their columns. -/
  cols : List (String × Span)
  /-- The shape of the matrix. -/
  shape : Nat × Nat
  /-- The entries row by row. -/
  values : Array α
  /-- The number of linear solves it took. -/
  solves : Nat

/-- A block of a matrix by rows. -/
structure DenseBlock (α : Type) where
  /-- The number of rows and of columns. -/
  shape : Nat × Nat
  /-- The entries row by row. -/
  values : Array α

/-- The rows of a block. -/
def DenseBlock.rows {α : Type} [Scalar α] (b : DenseBlock α) : List (List α) :=
  (List.range b.shape.1).map fun i =>
    (List.range b.shape.2).map fun j => Vec.entry b.values (i * b.shape.2 + j)

namespace Totals

variable {α : Type} [Scalar α]

/-- The entries in some rows and columns. -/
def block (t : Totals α) (rows cols : Span) : DenseBlock α :=
  ⟨(rows.size, cols.size),
    (rows.indices.flatMap fun i => cols.indices.map fun j =>
      Vec.entry t.values (i * t.shape.2 + j)).toArray⟩

/-- The derivatives of one quantity with respect to one input. -/
def get? (t : Totals α) (quantity input : String) : Option (DenseBlock α) :=
  match Quantities.span? t.rows quantity, Quantities.span? t.cols input with
  | some rows, some cols => some (t.block rows cols)
  | _, _ => none

/-- The derivative of one number with respect to another. -/
def value? (t : Totals α) (quantity input : String) : Option α :=
  (t.get? quantity input).bind fun b =>
    if b.shape = (1, 1) then some (Vec.entry b.values 0) else none

/-- The blocks of all pairs in order. -/
def blocks (t : Totals α) : List (String × String × DenseBlock α) :=
  t.rows.flatMap fun r => t.cols.map fun c => (r.1, c.1, t.block r.2 c.2)

/-- The rows of the matrix. -/
def matrixRows (t : Totals α) : List (List α) := DenseBlock.rows ⟨t.shape, t.values⟩

end Totals

namespace Problem

variable {α : Type} [Scalar α]

/-- The slots and the factor of a quantity of interest: its own slots, or those of its source. -/
def quantity (p : Problem α) (name : String) : Except StructureError (Span × α) := do
  let i ← p.store.id name
  match p.store.slots? i with
  | some slots => return (slots, 1)
  | none =>
    let (owner, input) ← splitPath name
    match p.links.lookup ⟨owner, input⟩ with
    | none => throw (.unknownVariable name)
    | some link =>
      let source ← p.store.id link.source.path
      match p.store.slots? source with
      | some slots => return (slots, link.scale)
      | none => throw (.unknownVariable link.source.path)

/-- The slots of an independent input. -/
def independent (p : Problem α) (name : String) : Except StructureError (Span × α) := do
  let i ← p.store.id name
  match p.store.isInput i, p.store.slots? i with
  | true, some slots => return (slots, 1)
  | _, _ => throw (.notIndependent name)

/-- Resolves names one after the other. -/
def resolve (lookup : String → Except StructureError (Span × α)) (q : Quantities α) :
    List String → Except StructureError (Quantities α)
  | [] => .ok q
  | name :: rest =>
    match lookup name with
    | .ok (slots, scale) => resolve lookup (q.push name slots scale) rest
    | .error e => .error e

/-- The quantities of interest of some names. -/
def resolveOf (p : Problem α) (names : List String) : Except StructureError (Quantities α) :=
  resolve p.quantity .empty names

/-- The independent inputs of some names. -/
def resolveWrt (p : Problem α) (names : List String) : Except StructureError (Quantities α) :=
  resolve p.independent .empty names

/-- The solution of one linear system. -/
def solveFor (config : LinearConfig α) (op : Operator α) (mode : Mode) (rhs : Array α) :
    EStateM LinearError (LinearMemory α) (Array α) := do
  let s ← config.solve op mode rhs
  return s.x

/-- Solves several systems one after the other and reads something from each solution. -/
def solveEach (config : LinearConfig α) (op : Operator α) (mode : Mode)
    (read : Array α → Array α) :
    List (Array α) → EStateM LinearError (LinearMemory α) (List (Array α))
  | [] => pure []
  | rhs :: rest => do
    let x ← solveFor config op mode rhs
    let others ← solveEach config op mode read rest
    return read x :: others

/-- A matrix given by its columns, row by row. -/
def ofColumns (nrows : Nat) (columns : List (Array α)) : Array α :=
  ((List.range nrows).flatMap fun i => columns.map fun c => Vec.entry c i).toArray

/-- A matrix given by its rows, row by row. -/
def ofRows (ncols : Nat) (rows : List (Array α)) : Array α :=
  (rows.flatMap fun r => (List.range ncols).map fun j => Vec.entry r j).toArray

/-- The totals by one solve for each column, or for each row in reverse. -/
def solveTotals (config : LinearConfig α) (op : Operator α) (quantities inputs : Quantities α)
    (mode : Mode) : EStateM LinearError (LinearMemory α) (Array α) :=
  match mode with
  | .fwd => do
    let columns ← solveEach config op .fwd quantities.readFrom
      (inputs.slots.map (Vec.unit op.dim))
    return ofColumns quantities.length columns
  | .rev => do
    let solutions ← solveEach config op .rev id (quantities.slots.map (Vec.unit op.dim))
    let rows := List.zipWith
      (fun scale x => (inputs.slots.map fun s => scale * Vec.entry x s).toArray)
      quantities.scales solutions
    return ofRows inputs.length rows

/-- The number of solves in a mode. -/
def solveCount (quantities inputs : Quantities α) : Mode → Nat
  | .fwd => inputs.length
  | .rev => quantities.length

/-- Runs a linear solver from nothing. -/
def withLinear {β : Type} (step : EStateM LinearError (LinearMemory α) β) :
    Except (ModelError α) β :=
  match step .blank with
  | .ok b _ => .ok b
  | .error e _ => .error (.linear e)

/-- Resolves the names, then refreshes all derivatives. -/
def prepareTotals (quantities inputs : List String) :
    EStateM (ModelError α) (Problem α) (Quantities α × Quantities α) := fun p =>
  match p.resolveOf quantities, p.resolveWrt inputs with
  | .error e, _ => .error (.core e) p
  | .ok _, .error e => .error (.core e) p
  | .ok rows, .ok cols =>
    match linearizeAll p with
    | .ok _ p => .ok (rows, cols) p
    | .error e p => .error e p

/-- The totals at the present point from prepared quantities. -/
def totalsAt (p : Problem α) (rows cols : Quantities α) (mode : Mode) :
    Except (ModelError α) (Totals α) := do
  let op := p.totalOperator
  let config := p.options.totals.linear
  let values ← withLinear do
    config.setup op
    solveTotals config op rows cols mode
  return ⟨rows.names, cols.names, (rows.length, cols.length), values, solveCount rows cols mode⟩

/-- Computes the totals of some quantities with respect to some independent inputs, at the present
point. -/
def totals (quantities inputs : List String) (mode : Mode) :
    EStateM (ModelError α) (Problem α) (Totals α) := fun p =>
  match prepareTotals quantities inputs p with
  | .error e p => .error e p
  | .ok (rows, cols) p =>
    match p.totalsAt rows cols mode with
    | .ok t => .ok t p
    | .error e => .error e p

/-- A matrix with random numbers in the places of its entries. -/
def randomized (pattern : List (Nat × Nat)) (r : Random) : SparseMatrix α × Random :=
  let (values, r) := r.listBetween1and2 pattern.length
  (⟨List.zipWith (fun place v => (place.1, place.2, v)) pattern values⟩, r)

/-- One matrix of totals with random numbers for the derivatives. -/
def sampleTotals (j : Jacobian α) (rows cols : Quantities α) :
    EStateM String Random (Array α) := fun r =>
  let (m, r) := randomized j.pattern r
  let op : Operator α := .ofMatrix j.range.size m
  let solved : EStateM LinearError (LinearMemory α) (Array α) := do
    LinearConfig.direct.setup op
    solveTotals .direct op rows cols .fwd
  match solved .blank with
  | .ok values _ => .ok values r
  | .error e _ => .error e.message r

/-- The words that tell the structure of totals: the pattern of the Jacobian, the slots and the bits
of the factors of the quantities, and the slots of the inputs. -/
def structureWords [BitPattern α] (pattern : List (Nat × Nat)) (rows cols : Quantities α) :
    List UInt64 :=
  UInt64.ofNat pattern.length
    :: (pattern.flatMap fun place => [UInt64.ofNat place.1, UInt64.ofNat place.2])
    ++ Fingerprint.indexWords rows.slots
    ++ rows.scales.map BitPattern.toBits
    ++ Fingerprint.indexWords cols.slots

/-- The signature of the structure of totals. -/
def totalsSignature [BitPattern α] (s : ColoringSettings α) (pattern : List (Nat × Nat))
    (rows cols : Quantities α) : Signature :=
  .make (rows.length, cols.length)
    (Fingerprint.start.words (structureWords pattern rows cols)).value s

/-- Detects the pattern of totals and colors it. -/
def computeColoring (s : ColoringSettings α) (j : Jacobian α) (rows cols : Quantities α) :
    Except ColoringError Coloring :=
  match Pattern.detect rows.length cols.length s (sampleTotals j rows cols)
      (Random.seeded s.seed) with
  | .error e _ => .error e
  | .ok pattern _ => Coloring.compute pattern s

/-- The coloring of prepared totals: the one that is kept, or a new one. -/
def coloringAt [BitPattern α] (rows cols : Quantities α) :
    EStateM (ModelError α) (Problem α × ColoringFile) Coloring := fun (p, file) =>
  match p.totalJacobian with
  | none => .error (.setup "total jacobian is not linearized") (p, file)
  | some j =>
    let s := p.options.totals.coloring
    let signature := totalsSignature s j.pattern rows cols
    let compute := fun (_ : Unit) => computeColoring s j rows cols
    match ColoringCache.getOrCompute signature compute (p.cache, file) with
    | .ok answer (cache, file) => .ok answer.coloring ({ p with cache := cache }, file)
    | .error e (cache, file) => .error (.coloring e) ({ p with cache := cache }, file)

/-- The coloring of the totals of some quantities with respect to some independent inputs. -/
def coloring [BitPattern α] (quantities inputs : List String) :
    EStateM (ModelError α) (Problem α × ColoringFile) Coloring := fun (p, file) =>
  match prepareTotals quantities inputs p with
  | .error e p => .error e (p, file)
  | .ok (rows, cols) p => coloringAt rows cols (p, file)

/-- The right-hand side of a group of columns. -/
def columnSeed (dim : Nat) (cols : Quantities α) (group : List Nat) : Array α :=
  Vec.scatter (Vec.zeros dim) (group.map fun j => (cols.slots.getD j 0, 1))

/-- The right-hand side of a group of rows. -/
def rowSeed (dim : Nat) (rows : Quantities α) (group : List Nat) : Array α :=
  Vec.scatter (Vec.zeros dim) (group.map fun i => rows.entries.getD i (0, 0))

/-- The products with the groups of a coloring, forward and in reverse. -/
def groupProducts (config : LinearConfig α) (op : Operator α) (rows cols : Quantities α)
    (c : Coloring) :
    EStateM LinearError (LinearMemory α) (List (Array α) × List (Array α)) := do
  let fwd ← solveEach config op .fwd rows.readFrom (c.fwd.map (columnSeed op.dim cols))
  let readColumns := fun x => (cols.slots.map (Vec.entry x)).toArray
  let rev ← solveEach config op .rev readColumns (c.rev.map (rowSeed op.dim rows))
  return (fwd, rev)

/-- The totals from prepared quantities, with one solve for each group of a coloring. -/
def coloredTotalsAt (p : Problem α) (rows cols : Quantities α) (c : Coloring) :
    Except (ModelError α) (Totals α) := do
  let op := p.totalOperator
  let config := p.options.totals.linear
  let (fwd, rev) ← withLinear do
    config.setup op
    groupProducts config op rows cols c
  match c.recover fwd rev with
  | .ok values =>
    return ⟨rows.names, cols.names, (rows.length, cols.length), values, c.solves⟩
  | .error e => throw (.coloring e)

/-- Computes totals with one solve for each group of a coloring. -/
def totalsColored [BitPattern α] (quantities inputs : List String) :
    EStateM (ModelError α) (Problem α × ColoringFile) (Totals α) := fun (p, file) =>
  match prepareTotals quantities inputs p with
  | .error e p => .error e (p, file)
  | .ok (rows, cols) p =>
    match coloringAt rows cols (p, file) with
    | .error e s => .error e s
    | .ok c (p, file) =>
      match p.coloredTotalsAt rows cols c with
      | .ok t => .ok t (p, file)
      | .error e => .error e (p, file)

end Problem

end Mdao
