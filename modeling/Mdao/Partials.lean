import Mdao.Variable
import Mdao.Error

/-!
# Partial derivatives

A discipline declares which pairs of variables have partial derivatives, where the nonzeros are, and
how their values are obtained. A declaration for a pair becomes one `PartialBlock`; `Partials` holds
the blocks of one unit, and only declared blocks can be written. A later declaration for a pair
replaces the earlier one in its place.
-/

namespace Mdao

/-- The formula of a finite difference. -/
inductive FdForm where
  | forward
  | backward
  | central
  deriving DecidableEq, Repr, Inhabited

/-- Whether a step is used as given or relative to the perturbed entry. -/
inductive StepScale where
  | abs
  | rel
  deriving DecidableEq, Repr, Inhabited

/-- How finite differences are taken. -/
structure FdOptions (α : Type) where
  /-- The formula. -/
  form : FdForm
  /-- The step. -/
  step : α
  /-- How the step is scaled. -/
  scale : StepScale
  deriving BEq

/-- Forward differences with an absolute step of `10⁻⁶`. -/
def FdOptions.default {α : Type} [Scalar α] : FdOptions α := ⟨.forward, 1e-6, .abs⟩

/-- The step for an entry of value `x`; at zero a relative step is used as given. -/
def FdOptions.stepFor {α : Type} [Scalar α] (o : FdOptions α) (x : α) : α :=
  match o.scale with
  | .abs => o.step
  | .rel => if x == 0 then o.step else o.step * Scalar.abs x

/-- How the values of a partial derivative are obtained. -/
inductive Method (α : Type) where
  /-- The discipline writes them. -/
  | exact
  /-- By finite differences. -/
  | fd (options : FdOptions α)
  /-- By a complex step of this length. -/
  | cs (step : α)
  deriving BEq

namespace Method

variable {α : Type} [Scalar α]

/-- Forward differences with default options. -/
def fdDefault : Method α := .fd .default

/-- A complex step of the default length, `10⁻⁴⁰`. -/
def csDefault : Method α := .cs 1e-40

/-- Whether values are approximated. -/
def isApproximated : Method α → Bool
  | .exact => false
  | _ => true

/-- Whether values are taken by a complex step. -/
def isComplexStep : Method α → Bool
  | .cs _ => true
  | _ => false

end Method

/-- Where a block may be nonzero. -/
inductive Sparsity where
  /-- Everywhere, row by row. -/
  | dense
  /-- At the listed rows and columns. -/
  | sparse (rows cols : List Nat)
  deriving DecidableEq, Repr

/-- A declaration of partial derivatives; `*` stands for every variable of its side. -/
structure PartialDeclaration (α : Type) where
  /-- The output, or `*`. -/
  output : String
  /-- The variable of differentiation, or `*`. -/
  wrt : String
  /-- Where the block may be nonzero. -/
  sparsity : Sparsity
  /-- Values fixed by the declaration; a single one counts for every entry. -/
  constant : Option (Array α)
  /-- How values are obtained. -/
  method : Method α

/-- A dense block that the discipline writes. -/
def PartialDeclaration.dense {α : Type} (output wrt : String) : PartialDeclaration α :=
  ⟨output, wrt, .dense, none, .exact⟩

/-- The variable of differentiation, by its position among the inputs or the outputs. -/
inductive Wrt where
  | input (position : Nat)
  | output (position : Nat)
  deriving DecidableEq, Repr

/-- The declared derivatives of one output with respect to one variable. -/
structure PartialBlock (α : Type) where
  /-- The position of the output. -/
  output : Nat
  /-- The variable of differentiation. -/
  wrt : Wrt
  /-- The name of the output. -/
  outputName : String
  /-- The name of the variable of differentiation. -/
  wrtName : String
  /-- The sizes of the two variables. -/
  shape : Nat × Nat
  /-- The places of the entries, each a row and a column. -/
  places : Array (Nat × Nat)
  /-- The values of the entries. -/
  values : Array α
  /-- How values are obtained. -/
  method : Method α
  /-- Whether the declaration fixed the values. -/
  constant : Bool
  /-- Whether every entry is declared. -/
  dense : Bool

namespace PartialBlock

variable {α : Type}

/-- The entries, each a row, a column and a value. -/
def entries (b : PartialBlock α) : List (Nat × Nat × α) :=
  List.zipWith (fun p v => (p.1, p.2, v)) b.places.toList b.values.toList

/-- Whether an entry lies inside the declared structure. -/
def contains (b : PartialBlock α) (row col : Nat) : Bool :=
  b.dense || b.places.contains (row, col)

/-- The block as a dense matrix, row by row; entries at one place add up. -/
def toDense [Scalar α] (b : PartialBlock α) : Array α :=
  b.entries.foldl (fun m e => m.modify (e.1 * b.shape.2 + e.2.1) (· + e.2.2))
    (Array.replicate (b.shape.1 * b.shape.2) 0)

end PartialBlock

/-- The partial derivatives of one unit. -/
structure Partials (α : Type) where
  /-- The blocks in the order of their first declaration. -/
  blocks : Array (PartialBlock α)

/-- What a linearization writes. -/
inductive PartialWrite (α : Type) where
  /-- All values of a block. -/
  | block (output wrt : String) (values : Array α)
  /-- One value of a block, by its place in the list of entries. -/
  | entry (output wrt : String) (index : Nat) (value : α)

/-- The outcome of a discipline's own linearization: blocks to write, in order, and then either a
failure or numbers to keep for later linear solves. -/
structure Linearization (α : Type) where
  /-- What is written. -/
  writes : List (PartialWrite α)
  /-- What went wrong after the writes. -/
  failure : Option EvalError
  /-- What is kept when nothing went wrong; `none` keeps what there is. -/
  memo : Option (Array α)

/-- The linearization that writes nothing. -/
def Linearization.nothing {α : Type} : Linearization α := ⟨[], none, none⟩

namespace Partials

variable {α : Type}

/-- No blocks. -/
def empty : Partials α := ⟨#[]⟩

/-- The position of the block for a pair. -/
def position? (p : Partials α) (output wrt : String) : Option Nat :=
  p.blocks.findIdx? fun b => b.outputName == output && b.wrtName == wrt

/-- The block for a pair. -/
def find? (p : Partials α) (output wrt : String) : Option (PartialBlock α) :=
  (p.position? output wrt).bind fun i => p.blocks[i]?

/-- Puts a block in the place of the one for its pair, or at the end. -/
def insert (p : Partials α) (b : PartialBlock α) : Partials α :=
  match p.position? b.outputName b.wrtName with
  | some i => ⟨p.blocks.setIfInBounds i b⟩
  | none => ⟨p.blocks.push b⟩

/-- Writes the values of a declared block. -/
def set (p : Partials α) (output wrt : String) (values : Array α) :
    Except PartialsError (Partials α) :=
  match p.position? output wrt with
  | none => .error (.undeclared output wrt)
  | some i =>
    let expected := match p.blocks[i]? with
      | some b => b.values.size
      | none => 0
    if values.size ≠ expected then .error (.length output wrt expected values.size)
    else .ok ⟨p.blocks.modify i fun b => { b with values := values }⟩

/-- Writes one value of a declared block. -/
def setEntry (p : Partials α) (output wrt : String) (index : Nat) (value : α) :
    Except PartialsError (Partials α) :=
  match p.position? output wrt with
  | none => .error (.undeclared output wrt)
  | some i =>
    .ok ⟨p.blocks.modify i fun b => { b with values := b.values.setIfInBounds index value }⟩

/-- Carries out one write. -/
def write (p : Partials α) : PartialWrite α → Except PartialsError (Partials α)
  | .block output wrt values => p.set output wrt values
  | .entry output wrt index value => p.setEntry output wrt index value

/-- Carries out writes in order up to the first that fails. -/
def writeAll (p : Partials α) : List (PartialWrite α) → EStateM.Result EvalError (Partials α) Unit
  | [] => .ok () p
  | w :: rest =>
    match p.write w with
    | .ok p => p.writeAll rest
    | .error e => .error (.partials e) p

end Partials

end Mdao
