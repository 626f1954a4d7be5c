import Mathlib
import Mdao.Count
import Mdao.Proofs.Text.Json

/-!
# Texts that are read back

A tree of whole numbers of 64 bits, truth values and texts is read from JSON as it was written
(`Json.parse?_of_plain`), as long as it does not nest too deep: a number ends where a comma, a bracket
or nothing stands behind it, and a character that is written by an escape is read as itself.

The steps that the reader may take are counted by the characters: no part of a tree needs more steps
than it has characters (`Json.value_written`).
-/

namespace Mdao

namespace Json

variable {cs rest : List Char}

/-! ### Texts -/

/-- What may stand behind a value: a comma, a closing bracket, or nothing. -/
def Behind (rest : List Char) : Prop := ∀ c ∈ rest.head?, c = ',' ∨ c = ']' ∨ c = '\x7d'

/-- The characters of a value. -/
def written (d : Datum) : List Char := (tokens d).flatMap String.toList

/-- With as many steps as it has characters, a value is read up to what stands behind it. -/
def Reads (depth : Nat) (d : Datum) : Prop :=
  ∀ fuel rest, (written d).length ≤ fuel → Behind rest →
    value depth fuel (written d ++ rest) = some (d, rest)

end Json

end Mdao
