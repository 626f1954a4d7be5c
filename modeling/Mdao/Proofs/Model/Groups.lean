import Mathlib
import Mdao.Model.Setup
import Mdao.Proofs.Graph.Order
import Mdao.Proofs.Model.Built

/-!
# The groups of a model

The blocks of the connection graph name units, and the groups of a model are the positions of these
units. As names differ, `Model.groups` gives back the components of the graph in the order in which
they are placed (`Sound.groups_eq`); a group that is not coupled is a single unit that does not feed
itself. Every link between two units is an edge between their positions (`Sound.edge_of_link`).
-/

namespace Mdao

namespace Graph

/-- Every edge of a graph leads from one of its units to another. -/
theorem bounded_edges (g : Graph) : Bounded g.units.size g.edges := by
  intro e he
  obtain ⟨c, -, hc⟩ := List.mem_filterMap.1 he
  cases ha : g.unit? c.source.owner with
  | none => simp [ha] at hc
  | some a =>
    cases hb : g.unit? c.target.owner with
    | none => simp [ha, hb] at hc
    | some b =>
      simp only [ha, hb, Option.some.injEq] at hc
      subst hc
      exact ⟨(Array.findIdx?_eq_some_iff_getElem.1 ha).1, (Array.findIdx?_eq_some_iff_getElem.1 hb).1⟩

theorem edge_of_connection {g : Graph} {c : Connection} (hc : c ∈ g.connections) {a b : Nat}
    (ha : g.unit? c.source.owner = some a) (hb : g.unit? c.target.owner = some b) :
    (a, b) ∈ g.edges :=
  List.mem_filterMap.2 ⟨c, by simpa using hc, by simp only [ha, hb]⟩

/-- The names in a block are those of the component's members. -/
theorem units_blockOf (g : Graph) (edges : List (Nat × Nat)) (c : List Nat) :
    (g.blockOf edges c).units = c.map fun v => g.units.getD v "" := by
  unfold blockOf
  simp only
  split
  · rename_i v name hname
    split_ifs <;> exact hname.symm
  · rfl

/-- A block that is not coupled is a single unit without an edge to itself. -/
theorem eq_singleton_of_not_coupled {g : Graph} {edges : List (Nat × Nat)} {c : List Nat}
    (h : (g.blockOf edges c).isCoupled = false) : ∃ v, c = [v] ∧ (v, v) ∉ edges := by
  unfold blockOf at h
  simp only at h
  split at h
  · rename_i v name hname
    split_ifs at h with hself
    · cases h
    · exact ⟨v, rfl, by simpa using hself⟩
  · cases h

end Graph

namespace Model

variable {α : Type} [Scalar α] {m : Model α}

omit [Scalar α] in
/-- A unit is found by its name. -/
theorem Sound.position?_name (hm : m.Sound) {u : Nat} {c : Component α}
    (h : m.units[u]? = some c) : m.position? c.name = some u :=
  findIdx?_of_nodup hm.names h

omit [Scalar α] in
/-- A unit of the model is a unit of the graph, at the same place. -/
theorem Sound.unit?_name (hm : m.Sound) {u : Nat} {c : Component α} (h : m.units[u]? = some c) :
    m.graph.unit? c.name = some u := by
  have hgraph : m.graph.units[u]? = some c.name := by
    rw [hm.graph, Array.getElem?_map, h]
    rfl
  have hnodup : (m.graph.units.toList.map id).Nodup := by
    rw [hm.graph, Array.toList_map, List.map_map]
    exact hm.names
  exact findIdx?_of_nodup hnodup hgraph

omit [Scalar α] in
/-- **A link between two units is an edge between their positions.** -/
theorem Sound.edge_of_link (hm : m.Sound) {t : Target} {link : Link α} (hl : (t, link) ∈ m.links)
    {a b : Nat} {giver taker : Component α} (ha : m.units[a]? = some giver)
    (hb : m.units[b]? = some taker) (hsource : link.source.owner = giver.name)
    (htarget : t.owner = taker.name) : (a, b) ∈ m.graph.edges := by
  refine Graph.edge_of_connection (hm.connection_of_link hl) ?_ ?_
  · rw [hsource]
    exact hm.unit?_name ha
  · rw [htarget]
    exact hm.unit?_name hb

omit [Scalar α] in
/-- Positions are found again by the names of their units. -/
theorem Sound.positions_eq (hm : m.Sound) {c : List Nat} (hc : ∀ v ∈ c, v < m.units.size) :
    m.positions (c.map fun v => m.graph.units.getD v "") = .ok c := by
  induction c with
  | nil => rfl
  | cons v c ih =>
    have hv : v < m.units.size := hc v List.mem_cons_self
    have hname : m.graph.units.getD v "" = m.units[v].name := by
      simp [hm.graph, hv]
    have hfound := hm.position?_name (Array.getElem?_eq_getElem hv)
    rw [List.map_cons, positions, hname, hfound, ih fun w hw => hc w (List.mem_cons_of_mem _ hw)]

/-- The order in which the components of the graph are placed. -/
def placedUnits (m : Model α) : List (List Nat) :=
  Graph.placedComponents m.units.size m.graph.edges

omit [Scalar α] in
/-- The components of the graph are placed completely and in order. -/
theorem Sound.isExecutionOrder (hm : m.Sound) :
    Graph.IsExecutionOrder m.units.size m.graph.edges m.placedUnits := by
  have hsize : m.graph.units.size = m.units.size := by rw [hm.graph, Array.size_map]
  have := Graph.isExecutionOrder (Graph.bounded_edges m.graph)
  rwa [hsize] at this

omit [Scalar α] in
theorem Sound.groupsOf_eq (hm : m.Sound) {cs : List (List Nat)}
    (hcs : ∀ c ∈ cs, ∀ v ∈ c, v < m.units.size) :
    ∃ gs, m.groupsOf (cs.map (m.graph.blockOf m.graph.edges)) = .ok gs ∧
      gs.map Group.unitIds = cs ∧
      ∀ g ∈ gs, g.coupled = false → ∃ v, g.unitIds = [v] ∧ (v, v) ∉ m.graph.edges := by
  induction cs with
  | nil => exact ⟨[], rfl, rfl, by simp⟩
  | cons c cs ih =>
    obtain ⟨gs, hgs, hids, hsingle⟩ := ih fun d hd => hcs d (List.mem_cons_of_mem _ hd)
    have hc := hm.positions_eq (hcs c List.mem_cons_self)
    refine ⟨⟨SolverBlock.nameOf (m.graph.blockOf m.graph.edges c).units, c,
      (m.graph.blockOf m.graph.edges c).isCoupled⟩ :: gs, ?_, by rw [List.map_cons, hids], ?_⟩
    · rw [List.map_cons, groupsOf, Graph.units_blockOf, hc, hgs]
      rfl
    · intro g hg hcoupled
      rcases List.mem_cons.1 hg with rfl | hg
      · exact Graph.eq_singleton_of_not_coupled hcoupled
      · exact hsingle g hg hcoupled

omit [Scalar α] in
/-- A group is coupled when its block is. -/
theorem map_coupled_groupsOf {bs : List Block} {gs : List Group} (h : m.groupsOf bs = .ok gs) :
    gs.map Group.coupled = bs.map Block.isCoupled := by
  induction bs generalizing gs with
  | nil =>
    cases h
    rfl
  | cons b bs ih =>
    obtain ⟨us, -, h⟩ := bind_eq_ok.1 h
    obtain ⟨others, hothers, h⟩ := bind_eq_ok.1 h
    cases h
    rw [List.map_cons, List.map_cons, ih hothers]

omit [Scalar α] in
/-- The blocks of the graph are those of its components, as they are placed. -/
theorem Sound.graph_order (hm : m.Sound) :
    m.graph.order = m.placedUnits.map (m.graph.blockOf m.graph.edges) := by
  have hsize : m.graph.units.size = m.units.size := by rw [hm.graph, Array.size_map]
  rw [placedUnits, ← hsize]
  rfl

omit [Scalar α] in
/-- **The groups of a model are the components of its graph**, in the order in which they are
placed. -/
theorem Sound.groups_eq (hm : m.Sound) : ∃ gs, m.groups = .ok gs ∧
    gs.map Group.unitIds = m.placedUnits ∧
    ∀ g ∈ gs, g.coupled = false → ∃ v, g.unitIds = [v] ∧ (v, v) ∉ m.graph.edges := by
  rw [groups, hm.graph_order]
  refine hm.groupsOf_eq fun c hc v hv => ?_
  exact List.mem_range.1 (hm.isExecutionOrder.perm.mem_iff.1 (List.mem_flatten_of_mem hc hv))

end Model

end Mdao
