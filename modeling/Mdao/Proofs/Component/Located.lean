import Mdao.Proofs.Component.ByName
import Mdao.Proofs.Component.Places

/-!
# Flat indices and variables

Variables of a declared component tile its buffers (`Component.Tiled`), so that each flat index belongs
to one variable and has one offset in it. A row and a column of the Jacobian therefore belong to
one pair of variables (`Component.Tiled.exists_columnAt`, `Component.Tiled.columnAt_inj`).
-/

namespace Mdao

variable {α : Type}

namespace Component

/-- Variables tile the buffers of the component. -/
structure Tiled (c : Component α) : Prop where
  inputs : c.inputs.Tiled
  outputs : c.outputs.Tiled

theorem IsDeclared.tiled [Scalar α] {name : String} {d : Discipline α} {c : Component α}
    (h : IsDeclared name d c) : c.Tiled := by
  constructor
  · rw [Layout.Tiled, h.fields_inputs, h.size_inputs, List.map_map]
    have htile := Variable.tile_placed 0 d.inputs
    rw [Nat.zero_add] at htile
    exact htile
  · rw [Layout.Tiled, h.fields_outputs, h.size_outputs, List.map_map]
    have htile := Variable.tile_placed 0 d.outputs
    rw [Nat.zero_add] at htile
    exact htile

namespace Tiled

variable {c : Component α} (h : c.Tiled)

include h

/-- Columns of variables are the same only at the same offset of the same variable. -/
theorem columnAt_inj {w w' : Wrt} {k k' : Nat} (hk : k < (c.wrtField w).2)
    (hk' : k' < (c.wrtField w').2) (heq : c.columnAt w k = c.columnAt w' k') : w = w' ∧ k = k' := by
  cases w with
  | input p =>
    cases w' with
    | input p' =>
      obtain ⟨rfl, rfl⟩ := h.inputs.start_add_inj hk hk' (Column.input.inj heq)
      exact ⟨rfl, rfl⟩
    | output p' => cases heq
  | output p =>
    cases w' with
    | input p' => cases heq
    | output p' =>
      obtain ⟨rfl, rfl⟩ := h.outputs.start_add_inj hk hk' (Column.output.inj heq)
      exact ⟨rfl, rfl⟩

/-- Each column is that of an offset in a variable. -/
theorem exists_columnAt {k : Column} (hk : c.HasColumn k) :
    ∃ w i, i < (c.wrtField w).2 ∧ k = c.columnAt w i := by
  cases k with
  | input k =>
    obtain ⟨p, i, hi, rfl⟩ := h.inputs.exists_start_add hk
    exact ⟨.input p, i, hi, rfl⟩
  | output k =>
    obtain ⟨p, i, hi, rfl⟩ := h.outputs.exists_start_add hk
    exact ⟨.output p, i, hi, rfl⟩

/-- The variable of a column is found with the offset in it. -/
theorem placeOf_columnAt {w : Wrt} {k : Nat} (hk : k < (c.wrtField w).2) :
    c.placeOf (c.columnAt w k) = some ((c.wrtField w).1, k) := by
  cases w with
  | input p =>
    show (c.inputs.locate _).map _ = _
    rw [h.inputs.locate_start_add hk]
    rfl
  | output p =>
    show (c.outputs.locate _).map _ = _
    rw [h.outputs.locate_start_add hk]
    rfl

/-- So is the output of a row. -/
theorem placeIn_outputs {o r : Nat} (hr : r < (c.outputs.spanAt o).size) :
    placeIn c.outputs ((c.outputs.spanAt o).start + r) = some (c.outputs.nameAt o, r) := by
  rw [placeIn, h.outputs.locate_start_add hr]
  rfl

/-- Places of blocks are the same only for the same pair of variables. -/
theorem place_inj [Scalar α] (hc : c.Sound) {b b' : PartialBlock α} (hb : b ∈ c.partials.blocks)
    (hb' : b' ∈ c.partials.blocks) {q q' : Nat × Nat} (hq : q ∈ b.places) (hq' : q' ∈ b'.places)
    (hrow : (c.outputs.spanAt b.output).start + q.1 = (c.outputs.spanAt b'.output).start + q'.1)
    (hcol : c.columnAt b.wrt q.2 = c.columnAt b'.wrt q'.2) : b.pair = b'.pair ∧ q = q' := by
  obtain ⟨hlt1, hlt2⟩ := hc.places b hb q hq
  obtain ⟨hlt1', hlt2'⟩ := hc.places b' hb' q' hq'
  obtain ⟨ho, h1⟩ := h.outputs.start_add_inj hlt1 hlt1' hrow
  obtain ⟨hw, h2⟩ := h.columnAt_inj hlt2 hlt2' hcol
  exact ⟨Prod.ext ho hw, Prod.ext h1 h2⟩

end Tiled

end Component

end Mdao
