import Mdao.Coloring.Basic
import Mdao.Text.Json
import Mdao.Text.Reading

/-!
# Colorings as text

A coloring is stored as JSON together with what it was made for. `Coloring.toJson` writes all
fields in a fixed order, `Coloring.ofJson` reads them back and refuses a coloring that was made for
another structure.
-/

namespace Mdao

/-- The words for directions. -/
def Direction.words : List (String × Direction) :=
  [("fwd", .fwd), ("rev", .rev), ("auto", .auto), ("bidirectional", .bidirectional)]

/-- The word for a direction. -/
def Direction.word : Direction → String
  | .fwd => "fwd"
  | .rev => "rev"
  | .auto => "auto"
  | .bidirectional => "bidirectional"

/-- The words for recoveries. -/
def Recovery.words : List (String × Recovery) :=
  [("direct", .direct), ("substitution", .substitution)]

/-- The word for a recovery. -/
def Recovery.word : Recovery → String
  | .direct => "direct"
  | .substitution => "substitution"

/-- A word of 64 bits. -/
def Datum.toWord? (d : Datum) : Option UInt64 := d.toNat?.map UInt64.ofNat

namespace Pattern

/-- The pattern as data. -/
def toDatum (p : Pattern) : Datum :=
  .table [("nrows", .ofNat p.nrows), ("ncols", .ofNat p.ncols),
    ("rows", .list (p.rows.toList.map Datum.ofNats))]

/-- Reads a pattern. -/
def ofDatum? (d : Datum) : Option Pattern := do
  let r ← d.record? ["nrows", "ncols", "rows"] false
  let nrows ← (← r.get 0).toNat?
  let ncols ← (← r.get 1).toNat?
  let rows ← (← r.get 2).listOf? (Datum.listOf? Datum.toNat?)
  return ⟨nrows, ncols, rows.toArray⟩

end Pattern

namespace Signature

/-- The signature as data. -/
def toDatum (s : Signature) : Datum :=
  .table [("shape", Datum.ofNats [s.shape.1, s.shape.2]),
    ("structure", .ofNat s.structureHash.toNat),
    ("tol_bits", .ofNat s.tolBits.toNat),
    ("num_full_jacs", .ofNat s.numFullJacs),
    ("seed", .ofNat s.seed.toNat),
    ("direction", .text s.direction.word),
    ("recovery", .text s.recovery.word)]

/-- Reads a pair of whole numbers. -/
def pair? (d : Datum) : Option (Nat × Nat) := do
  match ← d.listOf? Datum.toNat? with
  | [a, b] => some (a, b)
  | _ => none

/-- Reads a signature. -/
def ofDatum? (d : Datum) : Option Signature := do
  let r ← d.record?
    ["shape", "structure", "tol_bits", "num_full_jacs", "seed", "direction", "recovery"] false
  let shape ← pair? (← r.get 0)
  let structureHash ← (← r.get 1).toWord?
  let tolBits ← (← r.get 2).toWord?
  let numFullJacs ← (← r.get 3).toNat?
  let seed ← (← r.get 4).toWord?
  let direction ← Reading.json.word? Direction.words (← r.get 5)
  let recovery ← Reading.json.word? Recovery.words (← r.get 6)
  return ⟨shape, structureHash, tolBits, numFullJacs, seed, direction, recovery⟩

end Signature

namespace Coloring

/-- The coloring as data. -/
def toDatum (c : Coloring) : Datum :=
  .table [("pattern", c.pattern.toDatum),
    ("fwd", .list (c.fwd.map Datum.ofNats)),
    ("rev", .list (c.rev.map Datum.ofNats)),
    ("rev_rows", .list (c.revRows.map Datum.truth)),
    ("recovery", .text c.recovery.word),
    ("signature", match c.signature with
      | some s => s.toDatum
      | none => .null)]

/-- Reads the signature of a coloring, which may be missing where fields have names. -/
def signatureOf? (r : RecordForm) (i : Nat) : Option (Option Signature) :=
  match r, r.get i with
  | _, some d => d.optional? Signature.ofDatum?
  | .byName _, none => some none
  | .byPlace _, none => none

/-- Reads a coloring. -/
def ofDatum? (d : Datum) : Option Coloring := do
  let r ← d.record? ["pattern", "fwd", "rev", "rev_rows", "recovery", "signature"] false
  let pattern ← Pattern.ofDatum? (← r.get 0)
  let fwd ← (← r.get 1).listOf? (Datum.listOf? Datum.toNat?)
  let rev ← (← r.get 2).listOf? (Datum.listOf? Datum.toNat?)
  let revRows ← (← r.get 3).listOf? Datum.toBool?
  let recovery ← Reading.json.word? Recovery.words (← r.get 4)
  let signature ← signatureOf? r 5
  return ⟨pattern, fwd, rev, revRows, recovery, signature⟩

/-- The coloring as JSON. -/
def toJson (c : Coloring) : String := Json.render c.toDatum

/-- Reads a coloring from JSON, if it was made for the given structure. -/
def ofJson (text : String) (expected : Signature) : Except ColoringError Coloring :=
  match (Json.parse? text).bind ofDatum? with
  | none => .error .json
  | some c => if c.isValidFor expected then .ok c else .error .staleSignature

/-- The counts of a coloring in words, the density with three digits after the point. -/
def summary (c : Coloring) : String :=
  let density := (Decimal.fixed 3 (c.pattern.density : Float)).positional
  s!"{c.fwd.length} fwd + {c.rev.length} rev = {c.solves} solves (naive {c.naiveSolves})"
    ++ s!", {c.pattern.nnz} nonzeros, density {density}"

end Coloring

end Mdao
