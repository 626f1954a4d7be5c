import Mdao.Text.Datum

/-!
# Numbers in reports

Numbers in a report are rounded to a few significant digits, and what is small against the accuracy
of its kind is written as zero, so that a report does not hang on the last bits of a computation.
-/

namespace Mdao

/-- How numbers of one kind are rounded. -/
structure Rounding where
  /-- The number of significant digits. -/
  digits : Nat
  /-- Magnitudes below are written as zero. -/
  flushedBelow : Float

namespace Rounding

/-- Values that are not computed by iteration. -/
def settled : Rounding := ⟨12, 0.0⟩

/-- Values that come out of solves. -/
def solved : Rounding := ⟨9, 1e-9⟩

/-- Norms of residuals. -/
def norm : Rounding := ⟨6, 1e-7⟩

/-- Approximated derivatives. -/
def approximate : Rounding := ⟨6, 1e-6⟩

/-- Errors of approximations. -/
def error : Rounding := ⟨3, 1e-5⟩

/-- A number as data; what is not finite is named. -/
def write (r : Rounding) (x : Float) : Datum :=
  if x.isNaN then .text "nan"
  else if x.isInf then .text (if x < 0.0 then "-inf" else "inf")
  else if x == 0.0 || x.abs < r.flushedBelow then .whole 0
  else .decimal (Decimal.significant r.digits x)

/-- A number inside settings, where nothing stands for what is not finite. -/
def setting (x : Float) : Datum :=
  if x.isNaN || x.isInf then .null else settled.write x

/-- A vector as data. -/
def vector (r : Rounding) (x : Array Float) : Datum := .list (x.toList.map r.write)

/-- The rows of a matrix as data. -/
def rows (r : Rounding) (m : List (List Float)) : Datum :=
  .list (m.map fun row => .list (row.map r.write))

end Rounding

end Mdao
