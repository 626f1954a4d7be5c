import Mdao.Proofs.Component.Computes
import Mdao.Proofs.Model.Blocks
import Mdao.Proofs.Model.Transfer
import Mdao.Proofs.Model.WellFormed

/-!
# What the solve of a block leaves alone

The solve of a block writes the inputs and the residuals of its units, and slots of its own range
(`Assembly.Changed.entry_slots`). In execution order no earlier block reads or holds any of these
(`IsSetUp.pairwise_upstream`), so an earlier block keeps its values (`Upstream.sameValues`). If these
are up to date, as they are after an evaluation, they stay so (`UpToDate.later`), and evaluating the
block once more gives the same residuals (`UpToDate.sameValues`).
-/

namespace Mdao

open Vec

variable {α : Type} [Scalar α]

/-! ### Entries that are not written -/

namespace Assembly

variable {l : Arrangement α} {us : List Nat} {spans : List Span} {a b : Assembly α} {k : Nat}

theorem Changed.entry_slots (h : Changed l us spans a b) (hk : ∀ s ∈ spans, k ∉ s) :
    entry b.store.slots k = entry a.store.slots k := by
  induction h with
  | refl a => rfl
  | trans _ _ ih ih' => exact ih'.trans ih
  | transfer _ a => rfl
  | residuals _ a r => rfl
  | slots hs a y => exact entry_splice_of_notMem (hk _ hs)
  | linearized => rfl

theorem Changed.entry_inputs (h : Changed l us spans a b) (hk : ∀ u ∈ us, k ∉ (l.unit u).inputs) :
    entry b.store.inputs k = entry a.store.inputs k := by
  induction h with
  | refl a => rfl
  | trans _ _ ih ih' => exact ih'.trans ih
  | transfer hu a => exact entry_splice_of_notMem (hk _ hu)
  | residuals _ a r => rfl
  | slots _ a y => rfl
  | linearized => rfl

theorem Changed.entry_residuals (h : Changed l us spans a b)
    (hk : ∀ u ∈ us, k ∉ (l.unit u).outputs) :
    entry b.store.residuals k = entry a.store.residuals k := by
  induction h with
  | refl a => rfl
  | trans _ _ ih ih' => exact ih'.trans ih
  | transfer _ a => rfl
  | residuals hu a r => exact entry_splice_of_notMem (hk _ hu)
  | slots _ a y => rfl
  | linearized => rfl

end Assembly

/-! ### Blocks that come later -/

namespace SolverBlock

open Assembly

variable {l : Arrangement α} {b later : SolverBlock α} {a a' : Assembly α}

/-- Two states in which a block has the same inputs, outputs and residuals. -/
structure SameValues (b : SolverBlock α) (l : Arrangement α) (a a' : Assembly α) : Prop where
  inputs : ∀ u ∈ b.unitIds, a'.inputsOf (l.unit u) = a.inputsOf (l.unit u)
  outputs : slice a'.store.slots b.range = slice a.store.slots b.range
  residuals : slice a'.store.residuals b.range = slice a.store.residuals b.range

/-- The values of a block are up to date: the inputs of its units are what they receive, and the
residuals are those that an evaluation has given. -/
structure UpToDate (b : SolverBlock α) (l : Arrangement α) (a : Assembly α) : Prop where
  inputs : ∀ u ∈ b.unitIds, a.inputsOf (l.unit u) = received l u a.store.slots
  residuals : ∀ u ∈ b.unitIds, ∀ c, a.units[u]? = some c → ∃ r, r.size = c.outputs.size ∧
    c.residuals (a.inputsOf (l.unit u)) (a.outputsOf (l.unit u)) r =
      .ok ⟨⟩ (a.residualsOf (l.unit u))

/-- A block reads and holds nothing that the solve of another one writes. -/
structure Upstream (l : Arrangement α) (b later : SolverBlock α) : Prop where
  range : ∀ k ∈ b.range, k ∉ later.range
  routes : ∀ u ∈ b.unitIds, ∀ route ∈ (l.unit u).routes, route.slot ∉ later.range
  apart : ∀ u ∈ b.unitIds, ∀ w ∈ later.unitIds, Apart l u w

omit [Scalar α] in
/-- The slots that the solve of a block writes are those of its range. -/
theorem mem_range_of_spans (hfits : Model.FitsBlock l b) {s : Span} (hs : s ∈ b.spans l) {k : Nat}
    (hk : k ∈ s) : k ∈ b.range := by
  rcases List.mem_cons.1 hs with rfl | hs
  · exact hk
  · obtain ⟨hstart, -, hstop⟩ := hfits.units.bounds hs
    exact ⟨hstart.trans hk.1, hk.2.trans_le hstop⟩

omit [Scalar α] in
/-- The outputs of a unit lie in the range of its block. -/
theorem mem_range_of_outputs (hfits : Model.FitsBlock l b) {u : Nat} (hu : u ∈ b.unitIds) {k : Nat}
    (hk : k ∈ (l.unit u).outputs) : k ∈ b.range :=
  mem_range_of_spans hfits (List.mem_cons_of_mem _ (List.mem_map.2 ⟨u, hu, rfl⟩)) hk

omit [Scalar α] in
/-- A slot of a block is an output of one of its units. -/
theorem exists_unit_of_mem_range (hfits : Model.FitsBlock l b) {k : Nat} (hk : k ∈ b.range) :
    ∃ u ∈ b.unitIds, k ∈ (l.unit u).outputs := by
  obtain ⟨s, hs, hks⟩ := hfits.units.cover hk.1 hk.2
  obtain ⟨u, hu, rfl⟩ := List.mem_map.1 hs
  exact ⟨u, hu, hks⟩

/-- Vectors that agree on each unit of a block agree on the block. -/
theorem slice_range_congr (hfits : Model.FitsBlock l b) {x y : Array α}
    (h : ∀ u ∈ b.unitIds, slice x (l.unit u).outputs = slice y (l.unit u).outputs) :
    slice x b.range = slice y b.range := by
  refine slice_congr fun k hk => ?_
  obtain ⟨u, hu, hku⟩ := exists_unit_of_mem_range hfits hk
  have hentry := congrArg (fun z => entry z (k - (l.unit u).outputs.start)) (h u hu)
  simpa only [entry_slice, if_pos (Span.sub_start_lt hku), Span.start_add_sub hku] using hentry

/-- **The solve of a block writes slots of its range alone.** -/
theorem entry_slots_of_changed (hfits : Model.FitsBlock l b)
    (h : Changed l b.unitIds (b.spans l) a a') {k : Nat} (hk : k ∉ b.range) :
    entry a'.store.slots k = entry a.store.slots k :=
  h.entry_slots fun _ hs hks => hk (mem_range_of_spans hfits hs hks)

namespace Upstream

variable (h : Upstream l b later) (hfits : Model.FitsBlock l later)
  (hchanged : Changed l later.unitIds (later.spans l) a a')

include h hfits hchanged

/-- What the units of an earlier block receive does not change. -/
theorem received_eq {u : Nat} (hu : u ∈ b.unitIds) :
    received l u a'.store.slots = received l u a.store.slots :=
  received_congr fun route hroute =>
    entry_slots_of_changed hfits hchanged (h.routes u hu route hroute)

/-- **The solve of a later block leaves the values of an earlier one alone.** -/
theorem sameValues : b.SameValues l a a' where
  inputs u hu := slice_congr fun _ hk =>
    hchanged.entry_inputs fun w hw => (h.apart u hu w hw).inputs _ hk
  outputs := slice_congr fun k hk => entry_slots_of_changed hfits hchanged (h.range k hk)
  residuals := slice_congr fun _ hk => hchanged.entry_residuals fun _ hw hkw =>
    h.range _ hk (mem_range_of_outputs hfits hw hkw)

end Upstream

namespace SameValues

theorem refl (b : SolverBlock α) (l : Arrangement α) (a : Assembly α) : b.SameValues l a a :=
  ⟨fun _ _ => rfl, rfl, rfl⟩

theorem trans {c : Assembly α} (h : b.SameValues l a a') (h' : b.SameValues l a' c) :
    b.SameValues l a c :=
  ⟨fun u hu => (h'.inputs u hu).trans (h.inputs u hu), h'.outputs.trans h.outputs,
    h'.residuals.trans h.residuals⟩

/-- A unit of a block has the entries of the block. -/
theorem slice_unit (hfits : Model.FitsBlock l b) {x y : Array α}
    (h : slice x b.range = slice y b.range) {u : Nat} (hu : u ∈ b.unitIds) :
    slice x (l.unit u).outputs = slice y (l.unit u).outputs := by
  refine slice_congr fun k hk => ?_
  have hkb := mem_range_of_outputs hfits hu hk
  have hentry := congrArg (fun z => entry z (k - b.range.start)) h
  simpa only [entry_slice, if_pos (Span.sub_start_lt hkb), Span.start_add_sub hkb] using hentry

end SameValues

namespace UpToDate

/-- What has been evaluated is up to date. -/
theorem of_evaluated (hunits : ∀ u ∈ b.unitIds, u < a.units.size)
    (h : Evaluated l b.unitIds a a') : b.UpToDate l a' := by
  have hinputs : ∀ u ∈ b.unitIds, a'.inputsOf (l.unit u) = received l u a'.store.slots :=
    fun u hu => by rw [h.inputs u hu (hunits u hu), h.slots]
  refine ⟨hinputs, fun u hu c hc => ?_⟩
  have heval := h.residuals u hu c (h.units ▸ hc)
  rw [hinputs u hu, outputsOf, h.slots]
  exact heval

/-- **What is up to date stays so** while a later block is solved. -/
theorem while_later (hdate : b.UpToDate l a) (h : Upstream l b later) (hfits : Model.FitsBlock l later)
    (hb : Model.FitsBlock l b) (hchanged : Changed l later.unitIds (later.spans l) a a') :
    b.UpToDate l a' := by
  have hsame := h.sameValues hfits hchanged
  refine ⟨fun u hu => ?_, fun u hu c' hc' => ?_⟩
  · rw [hsame.inputs u hu, hdate.inputs u hu, h.received_eq hfits hchanged hu]
  · obtain ⟨c, hc, halike⟩ := hchanged.follows.units.exists_alike hc'
    have houtputs : a'.outputsOf (l.unit u) = a.outputsOf (l.unit u) :=
      SameValues.slice_unit hb hsame.outputs hu
    have hresiduals : a'.residualsOf (l.unit u) = a.residualsOf (l.unit u) :=
      SameValues.slice_unit hb hsame.residuals hu
    rw [halike.residuals, halike.outputs, hsame.inputs u hu, houtputs, hresiduals]
    exact hdate.residuals u hu c hc

/-- **Evaluating what is up to date changes nothing.** -/
theorem sameValues (hdate : b.UpToDate l a) (hb : Model.FitsBlock l b) {us : List Nat}
    (hus : ∀ u ∈ b.unitIds, u ∈ us)
    (hhosts : ∀ u ∈ b.unitIds, ∃ c, a.units[u]? = some c ∧ a.Hosts (l.unit u) c ∧
      c.WritesResiduals) (h : Evaluated l us a a') : b.SameValues l a a' := by
  refine ⟨fun u hu => ?_, by rw [h.slots], slice_range_congr hb fun u hu => ?_⟩
  · obtain ⟨c, hc, -⟩ := hhosts u hu
    rw [h.inputs u (hus u hu) (Array.getElem?_eq_some_iff.1 hc).1, hdate.inputs u hu]
  · obtain ⟨c, hc, hplace, hwrites⟩ := hhosts u hu
    obtain ⟨r, hr, heval⟩ := h.residuals u (hus u hu) c hc
    obtain ⟨r', hr', hold⟩ := hdate.residuals u hu c hc
    rw [hdate.inputs u hu] at hold
    have hy : (a.outputsOf (l.unit u)).size = c.outputs.size := by
      rw [outputsOf, size_slice, hplace.fits.size_outputs]
    exact hwrites.again (hplace.size_received a.store.slots) hy hr' hold hr heval

end UpToDate

end SolverBlock

/-! ### Blocks in execution order -/

namespace Model

open Assembly

variable [Shown α] {m : Model α} {p : Problem α}

/-- The units of a block are in the execution order, once each. -/
theorem IsSetUp.unitIds_sublist (hm : m.Sound) (h : IsSetUp m p) {b : SolverBlock α}
    (hb : b ∈ p.blocks) : b.unitIds.Sublist p.order := by
  have hmem : b.unitIds ∈ p.blocks.toList.map SolverBlock.unitIds :=
    List.mem_map.2 ⟨b, Array.mem_toList_iff.2 hb, rfl⟩
  rw [h.unitIds_blocks hm] at hmem
  rw [h.order]
  split_ifs at hmem
  · exact List.mem_singleton.1 hmem ▸ .refl _
  · exact List.sublist_flatten_of_mem hmem

omit [Shown α] in
/-- The slots of independent inputs belong to no block. -/
theorem IsSetUp.notMem_range (h : IsSetUp m p) {b : SolverBlock α}
    (hfits : FitsBlock p.arrangement b) (hb : b.unitIds.Sublist p.order) {r : Span}
    (hr : r ∈ p.arrangement.independents) {k : Nat} (hk : k ∈ r) : k ∉ b.range := by
  intro hkb
  obtain ⟨u, hu, hku⟩ := SolverBlock.exists_unit_of_mem_range hfits hkb
  exact ((slot_cases h.laid).1 r hr k hk).2 u (hb.subset hu) hku

/-- **Blocks are upstream of those that are solved later**: they are fed by earlier blocks only. -/
theorem IsSetUp.pairwise_upstream (hm : m.Sound) (h : IsSetUp m p) :
    p.blocks.toList.Pairwise (SolverBlock.Upstream p.arrangement) := by
  obtain ⟨mid, hunits, hindependents⟩ := h.laid.tiles
  have hranges := (h.tile_blocks hm hunits).1.pairwise
  have hids : (p.blocks.toList.map SolverBlock.unitIds).Pairwise fun c d =>
      ∀ v ∈ c, v ∉ d ∧ ∀ a, (a, v) ∈ m.graph.edges → a ∉ d := by
    rw [h.unitIds_blocks hm]
    split_ifs
    · exact List.pairwise_singleton _ _
    · exact hm.isExecutionOrder.pairwise
  have hmem : ∀ b ∈ p.blocks.toList, ∀ u ∈ b.unitIds, u ∈ p.order := fun b hb u hu =>
    (h.unitIds_sublist hm (Array.mem_toList_iff.1 hb)).subset hu
  refine ((List.pairwise_map.1 hranges).and (List.pairwise_map.1 hids)).imp_of_mem ?_
  rintro b later hb hlater ⟨hrange, hid⟩
  have hfits := h.fitsBlock hm (Array.mem_toList_iff.1 hlater)
  have hlt : ∀ b ∈ p.blocks.toList, ∀ u ∈ b.unitIds, u < m.units.size := fun b hb u hu =>
    List.mem_range.1 ((h.perm hm).mem_iff.1 (hmem b hb u hu))
  refine ⟨fun k hk hk' => ?_, fun u hu route hroute hslot => ?_, fun u hu w hw => ?_⟩
  · exact absurd hk.2 (not_lt.2 (hrange.trans hk'.1))
  · have hu' := Array.getElem?_eq_getElem (hlt b hb u hu)
    rcases source_of_route hm h.laid hu' hroute with ⟨a, ha, hka⟩ | ⟨r, hr, hkr⟩
    · obtain ⟨w, hw, hkw⟩ := SolverBlock.exists_unit_of_mem_range hfits hslot
      -- the unit at the source feeds the block, so it is not in a later one
      have halt : a < m.units.size := by
        have hsize : m.graph.units.size = m.units.size := by rw [hm.graph, Array.size_map]
        exact hsize ▸ (Graph.bounded_edges m.graph _ ha).1
      by_cases haw : a = w
      · exact (hid u hu).2 a ha (haw ▸ hw)
      · exact (h.apart hm halt (hlt later hlater w hw) haw).outputs _ hka hkw
    · exact h.notMem_range hfits (h.unitIds_sublist hm (Array.mem_toList_iff.1 hlater)) hr hkr hslot
  · exact h.apart hm (hlt b hb u hu) (hlt later hlater w hw) fun heq =>
      (hid u hu).1 (heq ▸ hw)

end Model

end Mdao
