import Mdao.Scalar
import Mdao.Mode

/-!
# Settings and errors of colorings

Which products a coloring uses, how entries are recovered from them, and how the nonzeros of a
matrix are detected.
-/

namespace Mdao

/-- Which products a coloring may use. -/
inductive Direction where
  /-- Columns are colored, everything is read from forward products. -/
  | fwd
  /-- Rows are colored, everything is read from reverse products. -/
  | rev
  /-- The cheaper of the two. -/
  | auto
  /-- Some rows are read from reverse products, the others from forward products. -/
  | bidirectional
  deriving DecidableEq, Repr

/-- How entries are recovered where both directions see them. -/
inductive Recovery where
  /-- Each entry is read from one product. -/
  | direct
  /-- Known entries may be subtracted from a product. -/
  | substitution
  deriving DecidableEq, Repr

/-- The name of a recovery. -/
def Recovery.label : Recovery → String
  | .direct => "Direct"
  | .substitution => "Substitution"

/-- Settings of detection and coloring. -/
structure ColoringSettings (α : Type) where
  /-- The products that may be used. -/
  direction : Direction
  /-- How entries are recovered. -/
  recovery : Recovery
  /-- The mean magnitude up to which an entry counts as zero. -/
  tol : α
  /-- The number of sampled matrices. -/
  numFullJacs : Nat
  /-- The seed of the sampling. -/
  seed : UInt64
  deriving BEq

/-- Why settings of a coloring make no sense. -/
inductive ColoringConfigError where
  | tolerance
  | samples
  deriving DecidableEq, Repr

/-- What is wrong with settings of a coloring. -/
def ColoringConfigError.message : ColoringConfigError → String
  | .tolerance => "tol must be finite and non-negative"
  | .samples => "num_full_jacs must be at least 1"

/-- Three samples, and the cheaper of both directions. -/
def ColoringSettings.default {α : Type} [Scalar α] : ColoringSettings α :=
  ⟨.auto, .direct, 1e-25, 3, 11⟩

/-- Checks the tolerance and the number of samples. -/
def ColoringSettings.validate {α : Type} [Scalar α] (s : ColoringSettings α) :
    Except ColoringConfigError Unit :=
  if !Scalar.isFinite s.tol || decide (s.tol < 0) then .error .tolerance
  else if s.numFullJacs = 0 then .error .samples
  else .ok ()

/-- Why a coloring could not be had. -/
inductive ColoringError where
  /-- The settings make no sense. -/
  | invalidConfig (cause : ColoringConfigError)
  /-- An entry lies outside the shape of its pattern. -/
  | outOfBounds (row col nrows ncols : Nat)
  /-- A list of values has the wrong length. -/
  | length (expected found : Nat)
  /-- The number of products is wrong. -/
  | products (mode : Mode) (expected found : Nat)
  /-- A matrix could not be sampled. -/
  | sample (cause : String)
  /-- A stored coloring belongs to another structure. -/
  | staleSignature
  /-- A stored coloring cannot be read. -/
  | json
  /-- A coloring cannot be stored. -/
  | io
  deriving DecidableEq, Repr

/-- What an error of colorings says. -/
def ColoringError.message : ColoringError → String
  | .invalidConfig cause => s!"invalid config: {cause.message}"
  | .outOfBounds row col nrows ncols =>
    s!"entry ({row}, {col}) is outside a {nrows}×{ncols} pattern"
  | .length expected found => s!"expected {expected} values, found {found}"
  | .products mode expected found =>
    s!"expected {expected} {mode.label} products, found {found}"
  | .sample cause => s!"sparsity sample failed: {cause}"
  | .staleSignature => "coloring signature does not match the current structure"
  | .json => "coloring json"
  | .io => "coloring file"

end Mdao
