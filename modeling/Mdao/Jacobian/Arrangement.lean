import Mdao.Span

/-!
# The arrangement of slots

The slots of a model are the outputs of all units followed by the independent inputs. An
`Arrangement` says where each unit's outputs and inputs are, and by which `Route` each single input
gets its value from a slot.
-/

namespace Mdao

/-- Where one input entry reads its value: `input = scale · slot + offset`. -/
structure Route (α : Type) where
  /-- The slot that is read. -/
  slot : Nat
  /-- The slope of the unit conversion. -/
  scale : α
  /-- The offset of the unit conversion; derivatives do not see it. -/
  offset : α

/-- Where one unit lives. -/
structure Placement (α : Type) where
  /-- Its outputs and residuals among the slots. -/
  outputs : Span
  /-- Its inputs among all inputs. -/
  inputs : Span
  /-- One route for each of its input entries, in order. -/
  routes : Array (Route α)

/-- Where all units and independent inputs live. -/
structure Arrangement (α : Type) where
  /-- The number of slots. -/
  size : Nat
  /-- The units. -/
  units : Array (Placement α)
  /-- The slots of the independent inputs. -/
  independents : List Span

namespace Arrangement

variable {α : Type}

/-- The arrangement without slots. -/
def empty : Arrangement α := ⟨0, #[], []⟩

/-- The place of a unit; an unknown one has no slots. -/
def unit (l : Arrangement α) (u : Nat) : Placement α :=
  l.units.getD u ⟨⟨0, 0⟩, ⟨0, 0⟩, #[]⟩

/-- Whether a slot belongs to an independent input. -/
def isIndependent (l : Arrangement α) (slot : Nat) : Bool :=
  l.independents.any fun s => s.contains slot

/-- The slots of independent inputs that lie in a range. -/
def independentsIn (l : Arrangement α) (range : Span) : List Nat :=
  (l.independents.flatMap Span.indices).filter range.contains

end Arrangement

end Mdao
