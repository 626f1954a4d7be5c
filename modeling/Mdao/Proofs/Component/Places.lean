import Mdao.Proofs.Component.Declared

/-!
# Where components declare entries

A component that only forms products may have an entry anywhere; any other declares its entries by
blocks, and an explicit one has the diagonal of its outputs as well. `Component.HasPlace` says so of
the declarations alone. The entries of a sound component are at these places (`Sound.mem_places`),
which lie inside its buffers (`Sound.hasPlace_inside`), and no linearization moves them
(`Sound.hasPlace_alike`).
-/

namespace Mdao

namespace Component

variable {α : Type} [Scalar α] {c c' : Component α} {r : Nat} {k : Column}

/-- A column of a component: one of its inputs or of its outputs. -/
def HasColumn (c : Component α) : Column → Prop
  | .input i => i < c.inputs.size
  | .output i => i < c.outputs.size

/-- **Where a component declares an entry.** -/
inductive HasPlace (c : Component α) : Nat → Column → Prop where
  /-- Anywhere, if the component only forms products. -/
  | product {r : Nat} {k : Column} (happly : c.capabilities.applyLinear = true)
      (hr : r < c.outputs.size) (hk : c.HasColumn k) : HasPlace c r k
  /-- On the diagonal of an explicit component. -/
  | diagonal {r : Nat} (happly : c.capabilities.applyLinear = false)
      (hexplicit : c.isImplicit = false) (hr : r < c.outputs.size) : HasPlace c r (.output r)
  /-- At the places of a declared block. -/
  | block {b : PartialBlock α} {q : Nat × Nat} (happly : c.capabilities.applyLinear = false)
      (hb : b ∈ c.partials.blocks) (hq : q ∈ b.places) :
      HasPlace c ((c.outputs.spanAt b.output).start + q.1) (c.columnAt b.wrt q.2)

/-- The entries of a block with a value for each place are at its places. -/
theorem mem_places_blockEntries {sign : α} {b : PartialBlock α}
    (hvalues : b.values.size = b.places.size) :
    (r, k) ∈ (c.blockEntries sign b).map Entry.place ↔
      ∃ q ∈ b.places, r = (c.outputs.spanAt b.output).start + q.1 ∧ k = c.columnAt b.wrt q.2 := by
  rw [map_place_blockEntries, hvalues, ← Array.length_toList, List.take_length]
  simp only [List.mem_map, Array.mem_toList_iff, Prod.mk.injEq]
  exact exists_congr fun q => and_congr_right fun _ => and_congr eq_comm eq_comm

/-- A component that only forms products has entries everywhere. -/
theorem mem_places_of_products (happly : c.capabilities.applyLinear = true) :
    (r, k) ∈ c.entries.map Entry.place ↔ r < c.outputs.size ∧ c.HasColumn k := by
  simp only [entries, happly, if_true, List.map_flatMap, List.map_append, List.map_map,
    List.mem_flatMap, List.mem_append, List.mem_map, List.mem_range, Function.comp_apply,
    Entry.place, Prod.mk.injEq]
  cases k <;> simp [HasColumn]

/-- Any other has those of its blocks, and the diagonal if it is explicit. -/
theorem Sound.mem_places_of_blocks (hc : c.Sound) (happly : c.capabilities.applyLinear = false) :
    (r, k) ∈ c.entries.map Entry.place ↔
      (c.isImplicit = false ∧ r < c.outputs.size ∧ k = .output r) ∨
        ∃ b ∈ c.partials.blocks, ∃ q ∈ b.places,
          r = (c.outputs.spanAt b.output).start + q.1 ∧ k = c.columnAt b.wrt q.2 := by
  have hblocks : ∀ sign : α, (r, k) ∈
      (c.partials.blocks.toList.flatMap (c.blockEntries sign)).map Entry.place ↔
        ∃ b ∈ c.partials.blocks, ∃ q ∈ b.places,
          r = (c.outputs.spanAt b.output).start + q.1 ∧ k = c.columnAt b.wrt q.2 := by
    intro sign
    simp only [List.map_flatMap, List.mem_flatMap, Array.mem_toList_iff]
    exact exists_congr fun b => and_congr_right fun hb => mem_places_blockEntries (hc.values b hb)
  have hdiagonal : (r, k) ∈ ((List.range c.outputs.size).map fun i =>
      (⟨i, .output i, 1⟩ : Entry α)).map Entry.place ↔ r < c.outputs.size ∧ k = .output r := by
    simp only [List.map_map, List.mem_map, List.mem_range, Function.comp_apply, Entry.place,
      Prod.mk.injEq]
    exact ⟨fun ⟨i, hi, hir, hik⟩ => ⟨hir ▸ hi, hir ▸ hik.symm⟩,
      fun ⟨hr, hk⟩ => ⟨r, hr, rfl, hk.symm⟩⟩
  cases himplicit : c.isImplicit with
  | true =>
    simp only [entries, happly, himplicit, Bool.false_eq_true, if_false, if_true,
      List.nil_append, hblocks, Bool.true_eq_false, false_and, false_or]
  | false =>
    simp only [entries, happly, himplicit, Bool.false_eq_true, if_false, List.map_append,
      List.mem_append, hblocks, hdiagonal, true_and]

/-- **The entries of a sound component are where it declares them.** -/
theorem Sound.mem_places (hc : c.Sound) :
    (r, k) ∈ c.entries.map Entry.place ↔ c.HasPlace r k := by
  cases happly : c.capabilities.applyLinear with
  | true =>
    refine (mem_places_of_products happly).trans ⟨fun h => .product happly h.1 h.2, fun h => ?_⟩
    cases h with
    | product _ hr hk => exact ⟨hr, hk⟩
    | diagonal h => simp [happly] at h
    | block h => simp [happly] at h
  | false =>
    refine (hc.mem_places_of_blocks happly).trans ⟨?_, fun h => ?_⟩
    · rintro (⟨hexplicit, hr, rfl⟩ | ⟨b, hb, q, hq, rfl, rfl⟩)
      · exact .diagonal happly hexplicit hr
      · exact .block happly hb hq
    · cases h with
      | product h => simp [happly] at h
      | diagonal _ hexplicit hr => exact .inl ⟨hexplicit, hr, rfl⟩
      | block _ hb hq => exact .inr ⟨_, hb, _, hq, rfl, rfl⟩

omit [Scalar α] in
/-- An offset in a variable is a column. -/
theorem Sound.hasColumn_columnAt (hc : c.Sound) {wrt : Wrt} {i : Nat}
    (hi : i < (c.wrtField wrt).2) : c.HasColumn (c.columnAt wrt i) := by
  cases wrt with
  | input p => exact hc.inputs_bounded.start_add_lt hi
  | output p => exact hc.outputs_bounded.start_add_lt hi

omit [Scalar α] in
/-- The places of a sound component lie inside its buffers. -/
theorem Sound.hasPlace_inside (hc : c.Sound) (h : c.HasPlace r k) :
    r < c.outputs.size ∧ c.HasColumn k := by
  cases h with
  | product _ hr hk => exact ⟨hr, hk⟩
  | diagonal _ _ hr => exact ⟨hr, hr⟩
  | @block b q _ hb hq =>
    obtain ⟨hrow, hcol⟩ := hc.places b hb q hq
    exact ⟨hc.outputs_bounded.start_add_lt hrow, hc.hasColumn_columnAt hcol⟩

/-- **No linearization moves a place.** -/
theorem Sound.hasPlace_alike (hc : c.Sound) (h : c.Alike c') : c'.HasPlace r k ↔ c.HasPlace r k := by
  rw [← (hc.alike h).mem_places, ← hc.mem_places, h.places]

end Component

end Mdao
