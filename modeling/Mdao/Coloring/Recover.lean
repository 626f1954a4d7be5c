import Mdao.Coloring.Basic

/-!
# Recovering a matrix from its products

`Coloring.recover` rebuilds a dense matrix from the products with the groups of a coloring: first
the entries that are read from forward products, then those that are left when group mates are
subtracted from reverse products.
-/

namespace Mdao.Coloring

variable {α : Type} [Scalar α]

/-- Checks the number of products and their lengths. -/
def checkProducts (mode : Mode) (groups : List (List Nat)) (products : List (Array α))
    (length : Nat) : Except ColoringError Unit :=
  if products.length ≠ groups.length then .error (.products mode groups.length products.length)
  else
    match products.find? fun p => p.size ≠ length with
    | some p => .error (.length length p.size)
    | none => .ok ()

/-- One entry of one product. -/
def productEntry (products : List (Array α)) (k i : Nat) : α :=
  match products[k]? with
  | some p => Vec.entry p i
  | none => 0

/-- Writes the entries that are read from forward products. -/
def recoverForward (c : Coloring) (fwd : List (Array α)) : Array α :=
  let colors := c.fwdColors
  c.pattern.entries.foldl
    (fun values e =>
      let (row, col) := e
      if isFwdKnown c.pattern c.revRows c.recovery colors row col then
        match colors.getD col none with
        | some k => values.setIfInBounds (row * c.pattern.ncols + col) (productEntry fwd k row)
        | none => values
      else values)
    (Vec.zeros c.pattern.places)

/-- The entries that are read from reverse products, each with its group. -/
def pendingEntries (c : Coloring) : List (Nat × Nat × Nat) :=
  let colors := c.fwdColors
  let rowColors := c.revColors
  c.pattern.entries.filterMap fun (row, col) =>
    if isFwdKnown c.pattern c.revRows c.recovery colors row col then none
    else (rowColors.getD row none).map fun k => (row, col, k)

/-- The sum of the entries of a column in the other rows of a group. -/
def mates (c : Coloring) (values : Array α) (row col k : Nat) : α :=
  let others := (c.rev.getD k []).filter fun m => m != row && c.pattern.contains m col
  Vec.sum (others.map fun m => Vec.entry values (m * c.pattern.ncols + col))

/-- Writes the entries that are read from reverse products. -/
def recoverReverse (c : Coloring) (rev : List (Array α)) (values : Array α) : Array α :=
  c.pendingEntries.foldl
    (fun values e =>
      let (row, col, k) := e
      values.setIfInBounds (row * c.pattern.ncols + col)
        (productEntry rev k col - c.mates values row col k))
    values

/-- The dense matrix, row by row, from the products with the groups of the coloring. -/
def recover (c : Coloring) (fwd rev : List (Array α)) : Except ColoringError (Array α) := do
  checkProducts .fwd c.fwd fwd c.pattern.nrows
  checkProducts .rev c.rev rev c.pattern.ncols
  return c.recoverReverse rev (c.recoverForward fwd)

end Mdao.Coloring
