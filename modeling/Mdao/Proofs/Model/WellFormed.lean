import Mdao.Proofs.Model.Jacobian
import Mdao.Proofs.Model.Parts
import Mdao.Proofs.Model.Setup

/-!
# Well-formed problems

`Model.WellFormed` is what everything that runs on a problem relies on: who owns which slot, that
blocks and parts tile what they are blocks and parts of, and that each entry of an input is routed
from the right slot. Every model that calls lead to, failed ones included, is set up, and the problem
is well formed (`setup_after`).
-/

namespace Mdao

namespace Model

open Store

variable {α : Type} [Scalar α] {m : Model α} {p : Problem α}

/-! ### What a well-formed problem is -/

/-- What slots belong to: the outputs of a unit, or an independent input. -/
inductive Owner where
  /-- The unit at a position. -/
  | unit (u : Nat)
  /-- The independent input at a position. -/
  | independent (i : Nat)
  deriving DecidableEq

/-- The slots of an owner. -/
def Owner.run (l : Arrangement α) : Owner → Span
  | .unit u => (l.unit u).outputs
  | .independent i => l.independents.getD i ⟨0, 0⟩

/-- All units in execution order, and then all independent inputs. -/
def owners (p : Problem α) : List Owner :=
  p.order.map .unit ++ (List.range p.arrangement.independents.length).map .independent

/-- A block has the outputs of its units, parts that tile them, and bounds for each of them. -/
structure FitsBlock (l : Arrangement α) (b : SolverBlock α) : Prop where
  units : Span.Tile b.range.start (b.unitIds.map fun u => (l.unit u).outputs) b.range.stop
  parts : Span.Tile 0 (b.parts.map Part.range) b.range.size
  lower : b.lower.size = b.range.size
  upper : b.upper.size = b.range.size

/-- The entries of an input are routed one by one from consecutive slots. -/
def RoutedFrom (p : Problem α) (u : Nat) (c : Component α) (v : Variable α) (first : Nat)
    (scale offset : α) : Prop :=
  ∃ place, c.inputs.span? v.name = some place ∧ place.size = v.size ∧
    ∀ k < v.size, (p.arrangement.unit u).routes[place.start + k]? =
      some ⟨first + k, scale, offset⟩

/-- **What holds of a problem that is set up**, with `mid` slots for outputs. -/
structure WellFormed (m : Model α) (p : Problem α) (mid : Nat) : Prop where
  /-- All units are there, in the execution order. -/
  order : p.order.Perm (List.range m.units.size)
  /-- Every slot belongs to one unit or to one independent input. -/
  owned : ∀ k < p.arrangement.size, ∃! o, o ∈ owners p ∧ k ∈ o.run p.arrangement
  inside : ∀ o ∈ owners p, ∀ k ∈ o.run p.arrangement, k < p.arrangement.size
  /-- Outputs come before independent inputs. -/
  outputs : ∀ u < m.units.size, ∀ k ∈ (p.arrangement.unit u).outputs, k < mid
  independents : ∀ r ∈ p.arrangement.independents, ∀ k ∈ r, mid ≤ k
  /-- The blocks are those of the graph, or all of them as one for the solvers of the root. -/
  names : (p.blocks.toList.map fun b => b.unitIds.map fun u => m.graph.units.getD u "") =
    if m.options.root.isSome then [m.graph.order.flatMap Block.units]
    else m.graph.order.map Block.units
  /-- The runs of the blocks follow one another over all outputs. -/
  blocks : Span.Tile 0 (p.blocks.toList.map SolverBlock.range) mid
  block : ∀ b ∈ p.blocks, FitsBlock p.arrangement b
  /-- The parts of the totals follow one another over all slots. -/
  parts : Span.Tile 0 (p.totalParts.map Part.range) p.arrangement.size
  /-- Each unit has a route for each scalar input, and it leads to a slot. -/
  routes : ∀ u c, m.units[u]? = some c → (p.arrangement.unit u).routes.size = c.inputs.size ∧
    ∀ route ∈ (p.arrangement.unit u).routes, route.slot < p.arrangement.size
  /-- A connected input is routed from its source with the conversion of the connection. -/
  connected : ∀ u c, m.units[u]? = some c → ∀ v ∈ c.discipline.inputs, ∀ link,
    m.links.lookup ⟨c.name, v.name⟩ = some link → ∃ w giver given source,
      m.units[w]? = some giver ∧ given ∈ giver.discipline.outputs ∧
        link.source = ⟨giver.name, given.name⟩ ∧ giver.outputs.span? given.name = some source ∧
        source.size = v.size ∧ RoutedFrom p u c v
          (source.start + (p.arrangement.unit w).outputs.start) link.scale link.offset
  /-- Any other input is routed from slots of its own. -/
  unconnected : ∀ u c, m.units[u]? = some c → ∀ v ∈ c.discipline.inputs,
    m.links.lookup ⟨c.name, v.name⟩ = none → ∃ own ∈ p.arrangement.independents,
      p.store.slotsOf (pathOf c v) = some own ∧ own.size = v.size ∧
        RoutedFrom p u c v own.start 1 0
  /-- The independent inputs are the unconnected ones, in their order. -/
  inOrder : m.unconnectedInputs.map p.store.slotsOf = p.arrangement.independents.map some
  isIndependent : ∀ path i, p.store.id path = .ok i →
    (p.store.isIndependent i = true ↔ path ∈ m.unconnectedInputs)

/-! ### Owners -/

omit [Scalar α] in
theorem map_run_owners (p : Problem α) : (owners p).map (Owner.run p.arrangement) =
    (p.order.map fun u => (p.arrangement.unit u).outputs) ++ p.arrangement.independents := by
  rw [owners, List.map_append, List.map_map, List.map_map]
  refine congrArg₂ (· ++ ·) rfl (List.ext_getElem (by simp) fun i hi hi' => ?_)
  simp [Owner.run, List.getElem?_eq_getElem hi']

theorem IsSetUp.tile_owners [Shown α] (h : IsSetUp m p) :
    Span.Tile 0 ((owners p).map (Owner.run p.arrangement)) p.arrangement.size := by
  obtain ⟨mid, hunits, hindependents⟩ := h.laid.tiles
  rw [map_run_owners]
  exact hunits.append hindependents

/-- **Every slot has exactly one owner.** -/
theorem IsSetUp.existsUnique_owner [Shown α] (h : IsSetUp m p) {k : Nat}
    (hk : k < p.arrangement.size) : ∃! o, o ∈ owners p ∧ k ∈ o.run p.arrangement := by
  obtain ⟨r, hr, hkr⟩ := h.tile_owners.cover (Nat.zero_le k) hk
  obtain ⟨o, ho, rfl⟩ := List.mem_map.1 hr
  exact ⟨o, ⟨ho, hkr⟩, fun o' ⟨ho', hkr'⟩ => h.tile_owners.eq_of_mem ho' ho hkr' hkr⟩

/-! ### Blocks -/

/-- The units of the blocks, block by block. -/
theorem IsSetUp.unitIds_blocks [Shown α] (hm : m.Sound) (h : IsSetUp m p) :
    p.blocks.toList.map SolverBlock.unitIds =
      if m.options.root.isSome then [m.placedUnits.flatten] else m.placedUnits := by
  obtain ⟨gs, hgs, hblocks⟩ := h.blocks
  obtain ⟨gs', hgs', hids, -⟩ := hm.groups_eq
  obtain rfl : gs' = gs := Except.ok.inj (hgs'.symm.trans hgs)
  rw [hblocks, List.map_map]
  split_ifs with hroot
  · rw [← h.order]
    rfl
  · exact hids

theorem IsSetUp.eq_blockOf [Shown α] (h : IsSetUp m p) {b : SolverBlock α} (hb : b ∈ p.blocks) :
    ∃ g, b = m.blockOf p.arrangement g := by
  obtain ⟨gs, -, hblocks⟩ := h.blocks
  have hmem : b ∈ p.blocks.toList := by simpa using hb
  rw [hblocks] at hmem
  obtain ⟨g, -, rfl⟩ := List.mem_map.1 hmem
  exact ⟨g, rfl⟩

/-- **The runs of the blocks follow one another**, and each is that of its units' outputs. -/
theorem IsSetUp.tile_blocks [Shown α] (hm : m.Sound) (h : IsSetUp m p) {mid : Nat}
    (hmid : Span.Tile 0 (p.order.map fun u => (p.arrangement.unit u).outputs) mid) :
    Span.Tile 0 (p.blocks.toList.map SolverBlock.range) mid ∧ ∀ b ∈ p.blocks,
      Span.Tile b.range.start (b.unitIds.map fun u => (p.arrangement.unit u).outputs)
        b.range.stop := by
  have hranges : p.blocks.toList.map SolverBlock.range =
      (p.blocks.toList.map SolverBlock.unitIds).map (spanOf p.arrangement) := by
    rw [List.map_map]
    refine List.map_congr_left fun b hb => ?_
    obtain ⟨g, rfl⟩ := h.eq_blockOf (by simpa using hb)
    rfl
  have hgroups : ∃ gs, p.blocks.toList.map SolverBlock.unitIds = gs ∧
      Span.Tile 0 (gs.map (spanOf p.arrangement)) mid ∧ ∀ g ∈ gs,
        Span.Tile (spanOf p.arrangement g).start
          (g.map fun u => (p.arrangement.unit u).outputs) (spanOf p.arrangement g).stop := by
    refine ⟨_, h.unitIds_blocks hm, ?_⟩
    split_ifs
    · rw [← h.order]
      -- the whole model is one group, and it may be empty
      cases horder : p.order with
      | nil =>
        rw [horder] at hmid
        exact ⟨⟨rfl, le_rfl, hmid⟩, fun g hg => by
          obtain rfl := List.mem_singleton.1 hg
          exact rfl⟩
      | cons u us =>
        rw [horder] at hmid
        have hflat : Span.Tile 0
            ([u :: us].flatten.map fun u => (p.arrangement.unit u).outputs) mid := by
          simpa using hmid
        exact tile_spanOf (by simp) hflat
    · rw [h.order] at hmid
      exact tile_spanOf hm.isExecutionOrder.nonempty hmid
  obtain ⟨gs, hids, htile, hall⟩ := hgroups
  refine ⟨by rw [hranges, hids]; exact htile, fun b hb => ?_⟩
  obtain ⟨g, rfl⟩ := h.eq_blockOf hb
  refine hall g.unitIds ?_
  rw [← hids]
  exact List.mem_map.2 ⟨_, by simpa using hb, rfl⟩

/-- **Each block fits its units.** -/
theorem IsSetUp.fitsBlock [Shown α] (hm : m.Sound) (h : IsSetUp m p) {b : SolverBlock α}
    (hb : b ∈ p.blocks) : FitsBlock p.arrangement b := by
  obtain ⟨mid, hunits, hindependents⟩ := h.laid.tiles
  obtain ⟨htile, hall⟩ := h.tile_blocks hm hunits
  have hbounds := htile.bounds (s := b.range) (List.mem_map.2 ⟨b, by simpa using hb, rfl⟩)
  have hlt : ∀ u ∈ b.unitIds, u < m.units.size := by
    intro u hu
    have hmem : b.unitIds ∈ p.blocks.toList.map SolverBlock.unitIds :=
      List.mem_map.2 ⟨b, by simpa using hb, rfl⟩
    have huflat : u ∈ m.placedUnits.flatten := by
      rw [h.unitIds_blocks hm] at hmem
      split_ifs at hmem
      · exact List.mem_singleton.1 hmem ▸ hu
      · exact List.mem_flatten_of_mem hmem hu
    exact List.mem_range.1 (hm.isExecutionOrder.perm.mem_iff.1 huflat)
  have hblock := hall b hb
  obtain ⟨g, rfl⟩ := h.eq_blockOf hb
  refine ⟨hblock, Part.tile_partition hblock fun s hs => ?_,
    size_boundsOf h.laid hm _ hlt hblock, size_boundsOf h.laid hm _ hlt hblock⟩
  exact hbounds.2.2.trans (hindependents.bounds hs).1

/-- The blocks are those of the graph, or all of them as one. -/
theorem IsSetUp.names_blocks [Shown α] (hm : m.Sound) (h : IsSetUp m p) :
    (p.blocks.toList.map fun b => b.unitIds.map fun u => m.graph.units.getD u "") =
      if m.options.root.isSome then [m.graph.order.flatMap Block.units]
      else m.graph.order.map Block.units := by
  have hunits : m.graph.order.map Block.units =
      m.placedUnits.map fun c => c.map fun u => m.graph.units.getD u "" := by
    rw [hm.graph_order, List.map_map]
    exact List.map_congr_left fun c _ => Graph.units_blockOf _ _ _
  have hids : (p.blocks.toList.map fun b => b.unitIds.map fun u => m.graph.units.getD u "") =
      (p.blocks.toList.map SolverBlock.unitIds).map fun c =>
        c.map fun u => m.graph.units.getD u "" := by
    rw [List.map_map]
    rfl
  rw [hids, h.unitIds_blocks hm, List.flatMap_def, hunits]
  split_ifs
  · rw [List.map_singleton, List.map_flatten]
  · rfl

/-! ### Inputs -/

omit [Scalar α] in
/-- **The inputs without a source** are those without a link, unit by unit. -/
theorem Sound.unconnectedInputs_eq (hm : m.Sound) :
    m.unconnectedInputs = m.independentPaths m.units.toList := by
  rw [unconnectedInputs, Graph.unconnected, hm.inputs, List.filter_flatMap, List.map_flatMap,
    independentPaths]
  refine List.flatMap_congr fun c hc => ?_
  have hdeclared := hm.declared c (by simpa using hc)
  rw [targetsOf, hdeclared.names_inputs, List.map_map, List.filter_map, List.map_map]
  refine congrArg₂ List.map rfl (List.filter_congr fun v _ => ?_)
  simp only [Function.comp_apply, hm.sourceOf_eq, Option.isNone_map]

/-- An input is routed from the slots that it is fed from. -/
theorem IsSetUp.routedFrom [Shown α] (hm : m.Sound) (h : IsSetUp m p) {u : Nat}
    {c : Component α} {v : Variable α} {source : Span} (hu : m.units[u]? = some c)
    (hv : v ∈ c.discipline.inputs) (hsource : p.store.slotsOf (m.feedOf c v).1 = some source) :
    RoutedFrom p u c v source.start (m.feedOf c v).2.1 (m.feedOf c v).2.2 := by
  obtain ⟨place, hplace⟩ := Variable.exists_placed 0 hv
  have hc := hm.declared c (Array.mem_of_getElem? hu)
  exact ⟨place, hc.span?_input hplace, Variable.size_placed hplace, fun k hk =>
    h.laid.getElem?_routes hu hplace hsource hk⟩

theorem IsSetUp.connected [Shown α] (hm : m.Sound) (h : IsSetUp m p) {u : Nat} {c : Component α}
    {v : Variable α} (hu : m.units[u]? = some c) (hv : v ∈ c.discipline.inputs) {link : Link α}
    (hlink : m.links.lookup ⟨c.name, v.name⟩ = some link) :
    ∃ w giver given source, m.units[w]? = some giver ∧ given ∈ giver.discipline.outputs ∧
      link.source = ⟨giver.name, given.name⟩ ∧ giver.outputs.span? given.name = some source ∧
      source.size = v.size ∧ RoutedFrom p u c v
        (source.start + (p.arrangement.unit w).outputs.start) link.scale link.offset := by
  obtain ⟨giver, given, taker, taken, hconn⟩ := hm.links _ _ (mem_of_lookup hlink)
  obtain ⟨w, hw⟩ := Array.getElem?_of_mem hconn.giver_mem
  obtain ⟨source, hsource⟩ := Variable.exists_placed 0 hconn.given_mem
  have hfeed : m.feedOf c v = (link.source.path, link.scale, link.offset) := by
    simp only [feedOf, hlink]
  have hslots : p.store.slotsOf (m.feedOf c v).1 =
      some ⟨source.start + (p.arrangement.unit w).outputs.start,
        source.stop + (p.arrangement.unit w).outputs.start⟩ := by
    rw [hfeed, hconn.source]
    exact h.laid.slotsOf_output hw hsource
  obtain ⟨r, hr, hsize⟩ := h.laid.fed c (Array.mem_of_getElem? hu) v hv
  rw [hslots] at hr
  have hsourceSize : source.size = v.size := by
    rw [← hsize, ← Option.some.inj hr, Span.size, Span.size, Nat.add_sub_add_right]
  have hrouted := h.routedFrom hm hu hv hslots
  rw [hfeed] at hrouted
  exact ⟨w, giver, given, source, hw, hconn.given_mem, hconn.source,
    (hm.declared giver hconn.giver_mem).span?_output hsource, hsourceSize, hrouted⟩

theorem IsSetUp.unconnected [Shown α] (hm : m.Sound) (h : IsSetUp m p) {u : Nat}
    {c : Component α} {v : Variable α} (hu : m.units[u]? = some c)
    (hv : v ∈ c.discipline.inputs) (hlink : m.links.lookup ⟨c.name, v.name⟩ = none) :
    ∃ own ∈ p.arrangement.independents, p.store.slotsOf (pathOf c v) = some own ∧
      own.size = v.size ∧ RoutedFrom p u c v own.start 1 0 := by
  have hc := Array.mem_of_getElem? hu
  have hfeed : m.feedOf c v = (pathOf c v, 1, 0) := by simp only [feedOf, hlink]
  obtain ⟨i, e, he, hholds⟩ := h.laid.inputs c hc v hv
  obtain ⟨own, hmem, hown⟩ := hholds.independent hlink
  have hslots : p.store.slotsOf (pathOf c v) = some own := by
    rw [← hholds.name, slotsOf_name h.laid.sound.names he, hown]
  obtain ⟨r, hr, hsize⟩ := h.laid.fed c hc v hv
  have hrouted := h.routedFrom hm hu hv hr
  rw [hfeed, hslots] at hr
  obtain rfl := Option.some.inj hr
  rw [hfeed] at hrouted
  exact ⟨own, hmem, hslots, hsize, hrouted⟩

/-- **An input is independent if nothing is connected to it**, and only then. -/
theorem IsSetUp.isIndependent_iff [Shown α] (hm : m.Sound) (h : IsSetUp m p) {path : String}
    {i : Nat} (hi : p.store.id path = .ok i) :
    p.store.isIndependent i = true ↔ path ∈ m.unconnectedInputs := by
  obtain ⟨e, he, rfl⟩ := entry_of_id hi
  have hkind : ∀ {j : Nat} {e' : Entry α}, p.store.entries[j]? = some e' → e'.name = e.name →
      e' = e := fun hj hname =>
    eq_of_key_eq h.laid.sound.names (Array.mem_of_getElem? hj) (Array.mem_of_getElem? he) hname
  have hindependent : p.store.isIndependent i = true ↔
      e.kind = .input ∧ e.slots?.isSome = true := by
    simp [Store.isIndependent, Store.isInput, Store.slots?, he]
  rw [hindependent, hm.unconnectedInputs_eq, independentPaths, List.mem_flatMap]
  constructor
  · rintro ⟨hinput, hslots⟩
    -- the variable is among the inputs of the units, as outputs are no inputs
    have hname : e.name ∈ p.store.names :=
      List.mem_map.2 ⟨e, by simpa using Array.mem_of_getElem? he, rfl⟩
    rw [h.laid.names, List.mem_append] at hname
    rcases hname with hname | hname
    · obtain ⟨u, -, c, hu, v, hv, hpath⟩ := mem_outputPaths hname
      obtain ⟨j, e', r, he', hholds, -⟩ := h.laid.exists_output hm hu hv
      obtain rfl := hkind he' (hholds.name.trans hpath)
      rw [hholds.kind] at hinput
      cases hinput
    · obtain ⟨c, hc, hname⟩ := List.mem_flatMap.1 hname
      obtain ⟨v, hv, hpath⟩ := List.mem_map.1 hname
      obtain ⟨j, e', he', hholds⟩ := h.laid.inputs c (by simpa using hc) v hv
      obtain rfl := hkind he' (hholds.name.trans hpath)
      refine ⟨c, hc, List.mem_map.2 ⟨v, List.mem_filter.2 ⟨hv, ?_⟩, hpath⟩⟩
      cases hlink : m.links.lookup ⟨c.name, v.name⟩ with
      | none => rfl
      | some link =>
        rw [hholds.connected link hlink] at hslots
        cases hslots
  · rintro ⟨c, hc, hpath⟩
    obtain ⟨v, hv, hpath⟩ := List.mem_map.1 hpath
    obtain ⟨hv, hlink⟩ := List.mem_filter.1 hv
    obtain ⟨j, e', he', hholds⟩ := h.laid.inputs c (by simpa using hc) v hv
    obtain rfl := hkind he' (hholds.name.trans hpath)
    obtain ⟨r, -, hr⟩ := hholds.independent (by simpa using hlink)
    exact ⟨hholds.kind, by rw [hr]; rfl⟩

/-! ### The result -/

/-- **A problem that is set up is well formed.** -/
theorem IsSetUp.wellFormed [Shown α] (hm : m.Sound) (h : IsSetUp m p) :
    ∃ mid, WellFormed m p mid := by
  obtain ⟨mid, hunits, hindependents⟩ := h.laid.tiles
  have hmem : ∀ u < m.units.size, u ∈ p.order := fun u hu =>
    (h.perm hm).mem_iff.2 (List.mem_range.2 hu)
  refine ⟨mid, {
    order := h.perm hm
    owned := fun k hk => h.existsUnique_owner hk
    inside := fun o ho k hk => hk.2.trans_le
      (h.tile_owners.bounds (List.mem_map.2 ⟨o, ho, rfl⟩)).2.2
    outputs := fun u hu k hk => hk.2.trans_le
      (hunits.bounds (List.mem_map.2 ⟨u, hmem u hu, rfl⟩)).2.2
    independents := fun r hr k hk => (hindependents.bounds hr).1.trans hk.1
    names := h.names_blocks hm
    blocks := (h.tile_blocks hm hunits).1
    block := fun b hb => h.fitsBlock hm hb
    parts := ?_
    routes := fun u c hu => ⟨h.laid.size_routes hm hu, fun route hroute => ?_⟩
    connected := fun u c hu v hv link hlink => h.connected hm hu hv hlink
    unconnected := fun u c hu v hv hlink => h.unconnected hm hu hv hlink
    inOrder := by rw [hm.unconnectedInputs_eq, h.laid.independents]
    isIndependent := fun path i hi => h.isIndependent_iff hm hi }⟩
  · rw [h.parts]
    exact Part.tile_partition_all hunits hindependents
  · rcases h.laid.routed hu hroute with ⟨t, link, -, -, i, e, r, he, -, hr, hslot⟩ | ⟨r, hr, hslot⟩
    · exact hslot.2.trans_le (h.laid.stop_le he hr)
    · exact hslot.2.trans_le (hindependents.bounds hr).2.2

omit [Scalar α] in
theorem checkNamedBlocks_eq_ok (h : ∀ b ∈ m.options.blocks, ∃ c ∈ m.units, c.name = b.1) :
    m.checkNamedBlocks = .ok () := by
  have hnone : m.options.blocks.find? (fun b => (m.position? b.1).isNone) = none := by
    refine List.find?_eq_none.2 fun b hb => ?_
    obtain ⟨c, hc, hname⟩ := h b hb
    rw [Option.isNone_iff_eq_none, ← ne_eq, Option.ne_none_iff_isSome, position?, positionIn,
      Array.findIdx?_isSome, Array.any_eq_true']
    exact ⟨c, hc, by simpa using hname⟩
  rw [checkNamedBlocks, hnone]

/-- **Setting up always gives a well-formed problem**, whatever calls have built the model, failed
ones included, and for all options that make sense and name units that are there. -/
theorem setup_after [Shown α] {calls : List (Call α)} (hcalls : ∀ call ∈ calls, call.Admissible)
    {o : SolverOptions α} (hvalid : o.validate = .ok ())
    (hnamed : ∀ b ∈ o.blocks, ∃ c ∈ (after calls).units, c.name = b.1) :
    ∃ p mid, ((after calls).withOptions o).setup = .ok p ∧
      WellFormed ((after calls).withOptions o) p mid := by
  have hm := (sound_after hcalls).withOptions o
  obtain ⟨p, hp, h⟩ := setup_eq_ok hm hvalid (checkNamedBlocks_eq_ok hnamed)
  obtain ⟨mid, hwell⟩ := h.wellFormed hm
  exact ⟨p, mid, hp, hwell⟩

end Model

/-! ### A chain of units -/

namespace Doubling

/-- A variable without entries. -/
def hollow (name : String) : Variable ℚ := (Variable.named name).withShape [0]

/-- Takes what the doubling unit gives, and has an input and an output without entries. -/
def taker : ExplicitDiscipline ℚ :=
  { (ExplicitDiscipline.blank : ExplicitDiscipline ℚ) with
    inputs := [hollow "none", Variable.named "y", Variable.named "free"]
    outputs := [hollow "nothing"] }

/-- Two units and a connection; the last three calls fail, as a name is taken, another is no name of
a unit, and an input has a source. -/
def chainCalls : List (Model.Call ℚ) :=
  [.declare "taker" (.explicit taker), .declare "double" (.explicit discipline),
    .connect "double.y" "taker.y", .declare "double" (.explicit taker),
    .declare "dou.ble" (.explicit taker), .connect "double.y" "taker.y"]

/-- Newton's method for one of the units. -/
def chainOptions : SolverOptions ℚ := SolverOptions.default.withBlock "taker" .newton

theorem setup_after_chain : (∀ call ∈ chainCalls, call.Admissible) ∧
    chainOptions.validate = .ok () ∧
    (∀ b ∈ chainOptions.blocks, ∃ c ∈ (Model.after chainCalls).units, c.name = b.1) ∧
    ∃ p mid, ((Model.after chainCalls).withOptions chainOptions).setup = .ok p ∧
      Model.WellFormed ((Model.after chainCalls).withOptions chainOptions) p mid := by
  have hdiscipline : (Discipline.explicit discipline).Addressable :=
    ⟨by with_unfolding_all decide, by with_unfolding_all decide⟩
  have htaker : (Discipline.explicit taker).Addressable :=
    ⟨by with_unfolding_all decide, by with_unfolding_all decide⟩
  have hcalls : ∀ call ∈ chainCalls, call.Admissible := by
    intro call hcall
    simp only [chainCalls, List.mem_cons, List.not_mem_nil, or_false] at hcall
    rcases hcall with rfl | rfl | rfl | rfl | rfl | rfl
    exacts [htaker, hdiscipline, trivial, htaker, htaker, trivial]
  have hvalid : chainOptions.validate = .ok () := eq_ok_of_isOk () (by with_unfolding_all decide)
  have hnamed : ∀ b ∈ chainOptions.blocks, ∃ c ∈ (Model.after chainCalls).units, c.name = b.1 := by
    intro b hb
    obtain rfl := List.mem_singleton.1 hb
    have hany : (Model.after chainCalls).units.any (fun c => c.name == "taker") = true := by
      with_unfolding_all decide
    obtain ⟨c, hc, hname⟩ := Array.any_eq_true'.1 hany
    exact ⟨c, hc, by simpa using hname⟩
  exact ⟨hcalls, hvalid, hnamed, Model.setup_after hcalls hvalid hnamed⟩

end Doubling

end Mdao
