import Mdao.Proofs.Model.Groups

/-!
# The canonical order of blocks

Whatever calls a graph has been built by, its units are distinct and its connections lead between
them (`sound_after`). The execution order lists the classes of units that lead to each other, each
after what feeds it, and at each place the block with the earliest unit among those that could be
there (`Sound.isCanonical_order`). There is only one such list (`IsCanonical.unique`), so the order
is settled by the units and the set of connections (`order_after`).
-/

namespace Mdao.Graph

variable {n : Nat} {edges : List (Nat × Nat)}

/-! ### The first of the components that are ready -/

/-- Each component that is placed is the first in its list of those that could be placed then. -/
theorem arrange_first {R : List Nat → List Nat → Prop} {placed : List Nat}
    {waiting : List (List Nat)} {count : Nat} (hsorted : waiting.Pairwise R)
    {pre post : List (List Nat)} {c : List Nat}
    (h : arrange edges placed waiting count = pre ++ c :: post) {d : List Nat} (hd : d ∈ waiting)
    (hpre : d ∉ pre) (hready : isReady edges (placed ++ pre.flatten) d = true) :
    c = d ∨ R c d := by
  induction count generalizing placed waiting pre with
  | zero => simp [arrange] at h
  | succ count ih =>
    unfold arrange at h
    cases hfind : waiting.find? (isReady edges placed) with
    | none => simp [hfind] at h
    | some e =>
      simp only [hfind] at h
      cases pre with
      | nil =>
        obtain ⟨rfl, -⟩ := List.cons.inj h
        obtain ⟨-, before, after, rfl, hbefore⟩ := List.find?_eq_some_iff_append.1 hfind
        rw [List.flatten_nil, List.append_nil] at hready
        rcases List.mem_append.1 hd with hd | hd
        · simpa [hready] using hbefore d hd
        · rcases List.mem_cons.1 hd with rfl | hd
          · exact .inl rfl
          · exact .inr (List.rel_of_pairwise_cons (List.pairwise_append.1 hsorted).2.1 hd)
      | cons e' pre =>
        obtain ⟨rfl, hrest⟩ := List.cons.inj h
        rw [List.mem_cons, not_or] at hpre
        obtain ⟨hne, hpre⟩ := hpre
        refine ih (hsorted.sublist List.erase_sublist) hrest ((List.mem_erase_of_ne hne).2 hd)
          hpre ?_
        rwa [List.append_assoc, ← List.flatten_cons]

/-- The least member of one component is less than that of another. -/
def HeadBefore (c d : List Nat) : Prop := ∃ a b, c.head? = some a ∧ d.head? = some b ∧ a < b

/-- The components are listed by their least members. -/
theorem pairwise_components (n : Nat) (edges : List (Nat × Nat)) :
    (components n (reachTable n edges)).Pairwise HeadBefore := by
  have hindices : (((List.range n).map (component n (reachTable n edges))).zipIdx).Pairwise
      fun p q => p.2 < q.2 := by
    rw [← List.pairwise_map, List.zipIdx_map_snd]
    exact List.pairwise_lt_range'
  refine List.pairwise_filterMap.2 (hindices.imp ?_)
  rintro ⟨c, v⟩ ⟨d, w⟩ hlt c' hc d' hd
  simp only [Option.ite_none_right_eq_some, Option.some.injEq] at hc hd
  obtain ⟨hv, rfl⟩ := hc
  obtain ⟨hw, rfl⟩ := hd
  exact ⟨v, w, hv, hw, hlt⟩

theorem pairwise_component (n : Nat) (table : Array (List Nat)) (v : Nat) :
    (component n table v).Pairwise (· < ·) := List.pairwise_lt_range.filter _

theorem head_le {c : List Nat} (hc : c.Pairwise (· < ·)) {a v : Nat} (ha : c.head? = some a)
    (hv : v ∈ c) : a ≤ v := by
  cases c with
  | nil => cases hv
  | cons b c =>
    obtain rfl : b = a := by simpa using ha
    rcases List.mem_cons.1 hv with rfl | hv
    · exact le_rfl
    · exact (List.rel_of_pairwise_cons hc hv).le

/-! ### Graphs that are built by calls -/

/-- A call that builds a graph. -/
inductive Call where
  /-- Adds a unit with its inputs. -/
  | addUnit (name : String) (inputs : List String)
  /-- Connects an output to an input. -/
  | connect (source : Source) (target : Target)

/-- The graph after a call; a call that fails leaves it as it was. -/
def perform (g : Graph) : Call → Graph
  | .addUnit name inputs => g.addUnit name inputs
  | .connect source target =>
    match g.connect source target with
    | .ok g' => g'
    | .error _ => g

/-- The graph after some calls. -/
def after (calls : List Call) : Graph := calls.foldl perform .empty

/-- **What holds of every graph that is built.** -/
structure Sound (g : Graph) : Prop where
  /-- Each unit is there once. -/
  nodup : g.units.toList.Nodup
  /-- Connections lead between units. -/
  owners : ∀ c ∈ g.connections, c.source.owner ∈ g.units ∧ c.target.owner ∈ g.units

variable {g g' : Graph}

theorem mem_ensureUnit (g : Graph) (name : String) {u : String} :
    u ∈ (g.ensureUnit name).units ↔ u ∈ g.units ∨ u = name := by
  unfold ensureUnit
  split_ifs with h
  · refine ⟨.inl, ?_⟩
    rintro (hu | rfl)
    · exact hu
    · rw [unit?, Array.findIdx?_isSome, Array.any_eq_true'] at h
      obtain ⟨u', hu', heq⟩ := h
      exact eq_of_beq heq ▸ hu'
  · exact Array.mem_push

theorem connections_ensureUnit (g : Graph) (name : String) :
    (g.ensureUnit name).connections = g.connections := by
  unfold ensureUnit
  split_ifs <;> rfl

theorem Sound.ensureUnit (hg : g.Sound) (name : String) : (g.ensureUnit name).Sound := by
  refine ⟨?_, fun c hc => ?_⟩
  · unfold Graph.ensureUnit
    split_ifs with h
    · exact hg.nodup
    · have hfresh : name ∉ g.units.toList := by
        intro hmem
        refine h ?_
        rw [unit?, Array.findIdx?_isSome, Array.any_eq_true']
        exact ⟨name, by simpa using hmem, beq_self_eq_true name⟩
      rw [Array.toList_push, ← List.concat_eq_append]
      exact hg.nodup.concat hfresh
  · rw [connections_ensureUnit] at hc
    simp only [mem_ensureUnit]
    exact ⟨.inl (hg.owners c hc).1, .inl (hg.owners c hc).2⟩

theorem Sound.connect (hg : g.Sound) {source : Source} {target : Target}
    (h : g.connect source target = .ok g') : g'.Sound := by
  obtain ⟨-, rfl⟩ := eq_of_connect h
  have hg' := (hg.ensureUnit source.owner).ensureUnit target.owner
  refine ⟨hg'.nodup, fun c hc => ?_⟩
  rcases Array.mem_push.1 hc with hc | rfl
  · exact hg'.owners c hc
  · exact ⟨(mem_ensureUnit _ _).2 (.inl ((mem_ensureUnit _ _).2 (.inr rfl))),
      (mem_ensureUnit _ _).2 (.inr rfl)⟩

/-- One call keeps a graph sound. -/
theorem Sound.perform (hg : g.Sound) (call : Call) : (g.perform call).Sound := by
  cases call with
  | addUnit name inputs => exact ⟨(hg.ensureUnit name).nodup, (hg.ensureUnit name).owners⟩
  | connect source target =>
    unfold Graph.perform
    dsimp only
    cases h : g.connect source target with
    | ok g' => exact hg.connect h
    | error e => exact hg

/-- **Every graph that is built is sound.** -/
theorem sound_after (calls : List Call) : (after calls).Sound := by
  have hfold : ∀ g : Graph, g.Sound → (calls.foldl Graph.perform g).Sound := by
    induction calls with
    | nil => exact fun g hg => hg
    | cons call calls ih => exact fun g hg => ih _ (hg.perform call)
  exact hfold _ ⟨by simp [Graph.empty], by simp [Graph.empty]⟩

/-! ### Names and positions -/

/-- A connection leads from one unit to another. -/
def Feeds (g : Graph) (u v : String) : Prop :=
  ∃ c ∈ g.connections, c.source.owner = u ∧ c.target.owner = v

/-- Connections lead, one after the other, from one unit to another. -/
def Leads (g : Graph) : String → String → Prop := Relation.ReflTransGen g.Feeds

theorem Sound.unit?_eq_some (hg : g.Sound) {name : String} {i : Nat} :
    g.unit? name = some i ↔ g.units[i]? = some name := by
  constructor
  · intro h
    obtain ⟨x, hx, hq⟩ := getElem?_of_findIdx? h
    rwa [eq_of_beq hq] at hx
  · intro h
    have hnodup : (g.units.toList.map id).Nodup := by
      rw [List.map_id]
      exact hg.nodup
    exact findIdx?_of_nodup hnodup h

theorem Sound.mem_edges (hg : g.Sound) {a b : Nat} : (a, b) ∈ g.edges ↔
    ∃ u v, g.units[a]? = some u ∧ g.units[b]? = some v ∧ g.Feeds u v := by
  constructor
  · intro h
    obtain ⟨c, hc, heq⟩ := List.mem_filterMap.1 h
    cases ha : g.unit? c.source.owner with
    | none => simp [ha] at heq
    | some a' =>
      cases hb : g.unit? c.target.owner with
      | none => simp [ha, hb] at heq
      | some b' =>
        simp only [ha, hb, Option.some.injEq, Prod.mk.injEq] at heq
        obtain ⟨rfl, rfl⟩ := heq
        exact ⟨_, _, hg.unit?_eq_some.1 ha, hg.unit?_eq_some.1 hb, c, by simpa using hc, rfl, rfl⟩
  · rintro ⟨u, v, hu, hv, c, hc, rfl, rfl⟩
    exact edge_of_connection hc (hg.unit?_eq_some.2 hu) (hg.unit?_eq_some.2 hv)

/-- **Paths between positions are those between units.** -/
theorem Sound.path_iff (hg : g.Sound) {a b : Nat} {u v : String} (ha : g.units[a]? = some u)
    (hb : g.units[b]? = some v) : Path g.edges a b ↔ g.Leads u v := by
  constructor
  · intro h
    induction h generalizing v with
    | refl =>
      obtain rfl := Option.some.inj (ha.symm.trans hb)
      exact .refl
    | tail _ hstep ih =>
      obtain ⟨w, v', hw, hv', hfeeds⟩ := hg.mem_edges.1 hstep
      obtain rfl := Option.some.inj (hv'.symm.trans hb)
      exact (ih hw).tail hfeeds
  · intro h
    induction h generalizing b with
    | refl =>
      obtain rfl := Option.some.inj ((hg.unit?_eq_some.2 ha).symm.trans (hg.unit?_eq_some.2 hb))
      exact .refl
    | @tail w v _ hstep ih =>
      obtain ⟨c, hc, rfl, rfl⟩ := hstep
      obtain ⟨k, hk⟩ := Array.getElem?_of_mem (hg.owners c hc).1
      exact (ih hk).tail (hg.mem_edges.2 ⟨_, _, hk, hb, c, hc, rfl, rfl⟩)

/-! ### The canonical list of blocks -/

/-- Everything that feeds a block is in it or in a block that is placed. -/
def FedBy (g : Graph) (placed : List Block) (b : Block) : Prop :=
  ∀ u v, g.Feeds u v → v ∈ b.units → u ∈ b.units ∨ ∃ d ∈ placed, u ∈ d.units

/-- A unit was added no later than another. -/
def Precedes (g : Graph) (u v : String) : Prop :=
  ∃ i j : Nat, g.units[i]? = some u ∧ g.units[j]? = some v ∧ i ≤ j

/-- **What the canonical order of blocks is.** -/
structure IsCanonical (g : Graph) (blocks : List Block) : Prop where
  /-- No unit is in two places. -/
  distinct : (blocks.flatMap Block.units).Nodup
  /-- The blocks have all units, and nothing else. -/
  complete : ∀ u, u ∈ blocks.flatMap Block.units ↔ u ∈ g.units
  /-- Units share a block when each leads to the other. -/
  joined : ∀ u ∈ g.units, ∀ v ∈ g.units,
    (∃ b ∈ blocks, u ∈ b.units ∧ v ∈ b.units) ↔ g.Leads u v ∧ g.Leads v u
  /-- A block is coupled when it has several units or one that feeds itself. -/
  coupled : ∀ b ∈ blocks, b.isCoupled = true ↔ 1 < b.units.length ∨ ∃ u ∈ b.units, g.Feeds u u
  /-- In a block the units are in the order in which they were added. -/
  inserted : ∀ b ∈ blocks, b.units.Sublist g.units.toList
  /-- A block is fed by itself and by blocks before it. -/
  forward : ∀ pre b post, blocks = pre ++ b :: post → g.FedBy pre b
  /-- Of the blocks that could be placed next, the one with the earliest unit is. -/
  earliest : ∀ pre b post, blocks = pre ++ b :: post → ∀ d ∈ b :: post, g.FedBy pre d →
    ∀ v ∈ d.units, ∃ u ∈ b.units, g.Precedes u v

/-- The names of some positions. -/
theorem mem_units_blockOf {c : List Nat} (hc : ∀ v ∈ c, v < g.units.size) {name : String} :
    name ∈ (g.blockOf g.edges c).units ↔ ∃ v ∈ c, g.units[v]? = some name := by
  rw [units_blockOf, List.mem_map]
  refine exists_congr fun v => and_congr_right fun hv => ?_
  rw [Array.getElem?_eq_getElem (hc v hv), Option.some.injEq]
  simp [hc v hv]

/-- A block is coupled when it has several units or one with an edge to itself. -/
theorem isCoupled_blockOf {c : List Nat} (hc : c ≠ []) :
    (g.blockOf edges c).isCoupled = true ↔ 1 < c.length ∨ ∃ v ∈ c, (v, v) ∈ edges := by
  unfold blockOf
  match c with
  | [v] =>
    by_cases hself : (v, v) ∈ edges
    · simp [hself, Block.isCoupled]
    · simp [hself, Block.isCoupled]
  | _ :: _ :: _ => simp [Block.isCoupled]

/-- What has been placed feeds a component when it is ready. -/
theorem Sound.fedBy_iff (hg : g.Sound) {cs : List (List Nat)} {c : List Nat}
    (hcs : ∀ d ∈ cs, ∀ v ∈ d, v < g.units.size) (hc : ∀ v ∈ c, v < g.units.size) :
    g.FedBy (cs.map (g.blockOf g.edges)) (g.blockOf g.edges c) ↔
      isReady g.edges cs.flatten c = true := by
  rw [isReady_iff]
  constructor
  · intro h a b hab hb
    obtain ⟨u, v, hu, hv, hfeeds⟩ := hg.mem_edges.1 hab
    have hsame : ∀ k, g.units[k]? = some u → k = a := fun k hk =>
      Option.some.inj ((hg.unit?_eq_some.2 hk).symm.trans (hg.unit?_eq_some.2 hu))
    rcases h u v hfeeds ((mem_units_blockOf hc).2 ⟨b, hb, hv⟩) with hown | ⟨block, hblock, hud⟩
    · obtain ⟨k, hk, hku⟩ := (mem_units_blockOf hc).1 hown
      exact .inl (hsame k hku ▸ hk)
    · obtain ⟨d, hd, rfl⟩ := List.mem_map.1 hblock
      obtain ⟨k, hk, hku⟩ := (mem_units_blockOf (hcs d hd)).1 hud
      exact .inr (List.mem_flatten.2 ⟨d, hd, hsame k hku ▸ hk⟩)
  · intro h u v hfeeds hv
    obtain ⟨b, hb, hbv⟩ := (mem_units_blockOf hc).1 hv
    obtain ⟨e, he, rfl, rfl⟩ := hfeeds
    obtain ⟨a, ha⟩ := Array.getElem?_of_mem (hg.owners e he).1
    rcases h a b (hg.mem_edges.2 ⟨_, _, ha, hbv, e, he, rfl, rfl⟩) hb with hown | hplaced
    · exact .inl ((mem_units_blockOf hc).2 ⟨a, hown, ha⟩)
    · obtain ⟨d, hd, had⟩ := List.mem_flatten.1 hplaced
      exact .inr ⟨_, List.mem_map.2 ⟨d, hd, rfl⟩, (mem_units_blockOf (hcs d hd)).2 ⟨a, had, ha⟩⟩

/-! ### The execution order is canonical -/

/-- The components that are placed are all of them. -/
theorem mem_placedComponents (hedges : Bounded n edges) {c : List Nat} :
    c ∈ placedComponents n edges ↔ c ∈ components n (reachTable n edges) :=
  (arrange_spec hedges (fun _ h => h) (fun _ h => .inl h) rfl).1.mem_iff

theorem nodup_placedComponents (hedges : Bounded n edges) : (placedComponents n edges).Nodup :=
  (arrange_spec hedges (fun _ h => h) (fun _ h => .inl h) rfl).1.nodup_iff.2
    (nodup_components n edges)

/-- The components of a graph in execution order. -/
def placed (g : Graph) : List (List Nat) := placedComponents g.units.size g.edges

theorem lt_of_mem_placed {c : List Nat} (hc : c ∈ g.placed) {v : Nat} (hv : v ∈ c) :
    v < g.units.size :=
  (component_of_mem (bounded_edges g) ((mem_placedComponents (bounded_edges g)).1 hc) hv).1

/-- A place in the order of blocks is one in the order of components. -/
theorem split_order {pre post : List Block} {b : Block} (h : g.order = pre ++ b :: post) :
    ∃ cpre c cpost, g.placed = cpre ++ c :: cpost ∧ pre = cpre.map (g.blockOf g.edges) ∧
      b = g.blockOf g.edges c ∧ post = cpost.map (g.blockOf g.edges) := by
  have horder : g.placed.map (g.blockOf g.edges) = pre ++ b :: post := h
  obtain ⟨cpre, rest, hplaced, rfl, hrest⟩ := List.map_eq_append_iff.1 horder
  obtain ⟨c, cpost, rfl, rfl, rfl⟩ := List.map_eq_cons_iff.1 hrest
  exact ⟨cpre, c, cpost, hplaced, rfl, rfl, rfl⟩

theorem map_range_units (g : Graph) :
    (List.range g.units.size).map (fun v => g.units.getD v "") = g.units.toList := by
  refine List.ext_getElem (by simp) fun i h1 h2 => ?_
  have hi : i < g.units.size := by simpa using h2
  simp [hi]

/-- All units, in the order of their blocks. -/
theorem units_order_perm (g : Graph) : (g.order.flatMap Block.units).Perm g.units.toList := by
  have hnames : g.order.flatMap Block.units =
      g.placed.flatten.map fun v => g.units.getD v "" := by
    show (g.placed.map (g.blockOf g.edges)).flatMap Block.units = _
    rw [List.flatMap_map, List.map_flatten, List.flatMap_def]
    exact congrArg List.flatten (List.map_congr_left fun c _ => units_blockOf g g.edges c)
  rw [hnames, ← map_range_units]
  exact (isExecutionOrder (bounded_edges g)).perm.map _

theorem Sound.index_unique (hg : g.Sound) {i j : Nat} {u : String} (hi : g.units[i]? = some u)
    (hj : g.units[j]? = some u) : i = j :=
  Option.some.inj ((hg.unit?_eq_some.2 hi).symm.trans (hg.unit?_eq_some.2 hj))

/-- Units share a block when each leads to the other. -/
theorem Sound.joined_order (hg : g.Sound) {u v : String} (hu : u ∈ g.units) (hv : v ∈ g.units) :
    (∃ b ∈ g.order, u ∈ b.units ∧ v ∈ b.units) ↔ g.Leads u v ∧ g.Leads v u := by
  have hedges := bounded_edges g
  obtain ⟨i, hi⟩ := Array.getElem?_of_mem hu
  obtain ⟨j, hj⟩ := Array.getElem?_of_mem hv
  have hlt : i < g.units.size := (Array.getElem?_eq_some_iff.1 hi).1
  rw [← hg.path_iff hi hj, ← hg.path_iff hj hi]
  constructor
  · rintro ⟨b, hb, hub, hvb⟩
    obtain ⟨c, hc, rfl⟩ := List.mem_map.1 hb
    obtain ⟨i', hi', hiu⟩ := (mem_units_blockOf fun w => lt_of_mem_placed hc).1 hub
    obtain ⟨j', hj', hjv⟩ := (mem_units_blockOf fun w => lt_of_mem_placed hc).1 hvb
    obtain rfl := hg.index_unique hiu hi
    obtain rfl := hg.index_unique hjv hj
    have hclass := component_of_mem hedges ((mem_placedComponents hedges).1 hc) hi'
    rw [hclass.2] at hj'
    exact (mem_component hedges hlt j').1 hj'
  · intro hjoined
    have hc : component g.units.size (reachTable g.units.size g.edges) i ∈ g.placed :=
      (mem_placedComponents hedges).2 (component_mem hedges hlt)
    refine ⟨_, List.mem_map.2 ⟨_, hc, rfl⟩, ?_, ?_⟩
    · exact (mem_units_blockOf fun w => lt_of_mem_placed hc).2
        ⟨i, self_mem_component hedges hlt, hi⟩
    · exact (mem_units_blockOf fun w => lt_of_mem_placed hc).2
        ⟨j, (mem_component hedges hlt j).2 hjoined, hj⟩

/-- A block is coupled when it has several units or one that feeds itself. -/
theorem Sound.coupled_order (hg : g.Sound) {b : Block} (hb : b ∈ g.order) :
    b.isCoupled = true ↔ 1 < b.units.length ∨ ∃ u ∈ b.units, g.Feeds u u := by
  obtain ⟨c, hc, rfl⟩ := List.mem_map.1 hb
  have hlength : (g.blockOf g.edges c).units.length = c.length := by
    rw [units_blockOf, List.length_map]
  rw [isCoupled_blockOf ((isExecutionOrder (bounded_edges g)).nonempty c hc), hlength]
  refine or_congr_right ⟨?_, ?_⟩
  · rintro ⟨v, hv, hself⟩
    obtain ⟨u, u', hu, hu', hfeeds⟩ := hg.mem_edges.1 hself
    obtain rfl := Option.some.inj (hu.symm.trans hu')
    exact ⟨u, (mem_units_blockOf fun w => lt_of_mem_placed hc).2 ⟨v, hv, hu⟩, hfeeds⟩
  · rintro ⟨u, hu, hfeeds⟩
    obtain ⟨v, hv, hvu⟩ := (mem_units_blockOf fun w => lt_of_mem_placed hc).1 hu
    exact ⟨v, hv, hg.mem_edges.2 ⟨u, u, hvu, hvu, hfeeds⟩⟩

/-- The units of a block are in the order in which they were added. -/
theorem sublist_units_order {b : Block} (hb : b ∈ g.order) : b.units.Sublist g.units.toList := by
  obtain ⟨c, hc, rfl⟩ := List.mem_map.1 hb
  obtain ⟨v, -, rfl, -⟩ := mem_components.1 ((mem_placedComponents (bounded_edges g)).1 hc)
  rw [units_blockOf, ← map_range_units]
  exact List.filter_sublist.map _

/-- A component at some place, and what was placed before it. -/
theorem Sound.fedBy_split (hg : g.Sound) {cpre cpost : List (List Nat)} {c : List Nat}
    (hplaced : g.placed = cpre ++ c :: cpost) {d : List Nat} (hd : d ∈ c :: cpost) :
    g.FedBy (cpre.map (g.blockOf g.edges)) (g.blockOf g.edges d) ↔
      isReady g.edges cpre.flatten d = true := by
  have hmem : ∀ e ∈ cpre ++ c :: cpost, ∀ v ∈ e, v < g.units.size := fun e he v hv =>
    lt_of_mem_placed (hplaced ▸ he) hv
  exact hg.fedBy_iff (fun e he => hmem e (List.mem_append_left _ he))
    (hmem d (List.mem_append_right _ hd))

/-- Of the blocks that could be placed next, the one with the earliest unit is. -/
theorem Sound.earliest_order (hg : g.Sound) {pre post : List Block} {b d : Block}
    (h : g.order = pre ++ b :: post) (hd : d ∈ b :: post) (hfed : g.FedBy pre d) {v : String}
    (hv : v ∈ d.units) : ∃ u ∈ b.units, g.Precedes u v := by
  have hedges := bounded_edges g
  obtain ⟨cpre, c, cpost, hplaced, rfl, rfl, rfl⟩ := split_order h
  rw [← List.map_cons, List.mem_map] at hd
  obtain ⟨e, he, rfl⟩ := hd
  have heMem : e ∈ g.placed := by
    rw [hplaced]
    exact List.mem_append_right _ he
  have hcMem : c ∈ g.placed := by
    rw [hplaced]
    exact List.mem_append_right _ List.mem_cons_self
  have hpre : e ∉ cpre := by
    have hnodup : g.placed.Nodup := nodup_placedComponents hedges
    rw [hplaced, List.nodup_append] at hnodup
    exact fun hpre => hnodup.2.2 e hpre e he rfl
  have hfirst := arrange_first (pairwise_components g.units.size g.edges) hplaced
    ((mem_placedComponents hedges).1 heMem) hpre ((hg.fedBy_split hplaced he).1 hfed)
  obtain ⟨j, hj, hjv⟩ := (mem_units_blockOf fun w => lt_of_mem_placed heMem).1 hv
  -- the least member of the component that is placed
  obtain ⟨a, ha, hle⟩ : ∃ a ∈ c, a ≤ j := by
    rcases hfirst with rfl | ⟨a, a', ha, ha', hlt⟩
    · exact ⟨j, hj, le_rfl⟩
    · refine ⟨a, List.mem_of_mem_head? ha, hlt.le.trans (head_le ?_ ha' hj)⟩
      obtain ⟨w, -, rfl, -⟩ := mem_components.1 ((mem_placedComponents hedges).1 heMem)
      exact pairwise_component _ _ _
  have haUnit := Array.getElem?_eq_getElem (lt_of_mem_placed hcMem ha)
  exact ⟨_, (mem_units_blockOf fun w => lt_of_mem_placed hcMem).2 ⟨a, ha, haUnit⟩,
    a, j, haUnit, hjv, hle⟩

/-- **The execution order is the canonical one.** -/
theorem Sound.isCanonical_order (hg : g.Sound) : g.IsCanonical g.order where
  distinct := (units_order_perm g).nodup_iff.2 hg.nodup
  complete u := (units_order_perm g).mem_iff.trans Array.mem_toList_iff
  joined u hu v hv := hg.joined_order hu hv
  coupled b hb := hg.coupled_order hb
  inserted b hb := sublist_units_order hb
  forward pre b post h := by
    obtain ⟨cpre, c, cpost, hplaced, rfl, rfl, -⟩ := split_order h
    refine (hg.fedBy_split hplaced List.mem_cons_self).2 (isReady_iff.2 ?_)
    exact (isExecutionOrder (bounded_edges g)).respects cpre c cpost hplaced
  earliest pre b post h d hd hfed v hv := hg.earliest_order h hd hfed hv

/-! ### There is one canonical order -/

/-- A sublist without repetitions is found again by its members. -/
theorem eq_filter_of_sublist {l l' : List String} (h : l'.Sublist l) (hl : l.Nodup) :
    l' = l.filter (· ∈ l') := by
  induction h with
  | slnil => rfl
  | @cons l' l a hsub ih =>
    rw [List.nodup_cons] at hl
    have ha : a ∉ l' := fun hmem => hl.1 (hsub.subset hmem)
    rw [List.filter_cons, if_neg (by simpa using ha)]
    exact ih hl.2
  | @cons_cons l' l a hsub ih =>
    rw [List.nodup_cons] at hl
    rw [List.filter_cons, if_pos (by simp)]
    refine congrArg (a :: ·) ((ih hl.2).trans (List.filter_congr fun u hu => ?_))
    have hne : u ≠ a := fun h => hl.1 (h ▸ hu)
    simp [hne]

/-- Blocks with the same units are the same when both are coupled or neither is. -/
theorem block_ext {b d : Block} (hunits : b.units = d.units)
    (hcoupled : b.isCoupled = d.isCoupled) : b = d := by
  cases b <;> cases d <;> simp_all [Block.units, Block.isCoupled]

variable {bs bs' : List Block}

theorem IsCanonical.exists_unit (h : g.IsCanonical bs) {b : Block} (hb : b ∈ bs) :
    ∃ u, u ∈ b.units := by
  cases b with
  | single name => exact ⟨name, List.mem_singleton.2 rfl⟩
  | coupled names =>
    rcases (h.coupled _ hb).1 rfl with hmany | ⟨u, hu, -⟩
    · exact List.exists_mem_of_length_pos (by omega)
    · exact ⟨u, hu⟩

theorem IsCanonical.mem_units (h : g.IsCanonical bs) {b : Block} (hb : b ∈ bs) {u : String}
    (hu : u ∈ b.units) : u ∈ g.units :=
  (h.complete u).1 (List.mem_flatMap.2 ⟨b, hb, hu⟩)

/-- Units of one canonical list share a block of any other. -/
theorem IsCanonical.mem_of_mem (h : g.IsCanonical bs) (h' : g.IsCanonical bs') {b b' : Block}
    (hb : b ∈ bs) (hb' : b' ∈ bs') {u v : String} (hu : u ∈ b.units) (hu' : u ∈ b'.units)
    (hv : v ∈ b.units) : v ∈ b'.units := by
  have huUnit := h.mem_units hb hu
  have hvUnit := h.mem_units hb hv
  obtain ⟨d, hd, hud, hvd⟩ := (h'.joined u huUnit v hvUnit).2
    ((h.joined u huUnit v hvUnit).1 ⟨b, hb, hu, hv⟩)
  obtain rfl : d = b' := by
    by_contra hne
    have : Std.Symm (Function.onFun List.Disjoint Block.units) := ⟨fun _ _ h => h.symm⟩
    exact (List.nodup_flatMap.1 h'.distinct).2.forall hd hb' hne hud hu'
  exact hvd

/-- Blocks of canonical lists that share a unit are the same. -/
theorem IsCanonical.eq_of_mem (hg : g.Sound) (h : g.IsCanonical bs) (h' : g.IsCanonical bs')
    {b b' : Block} (hb : b ∈ bs) (hb' : b' ∈ bs') {u : String} (hu : u ∈ b.units)
    (hu' : u ∈ b'.units) : b = b' := by
  have hmem : ∀ v, v ∈ b.units ↔ v ∈ b'.units := fun v =>
    ⟨h.mem_of_mem h' hb hb' hu hu', h'.mem_of_mem h hb' hb hu' hu⟩
  have hunits : b.units = b'.units := by
    rw [eq_filter_of_sublist (h.inserted b hb) hg.nodup,
      eq_filter_of_sublist (h'.inserted b' hb') hg.nodup]
    exact List.filter_congr fun v _ => by rw [decide_eq_decide]; exact hmem v
  refine block_ext hunits (Bool.eq_iff_iff.2 ?_)
  rw [h.coupled b hb, h'.coupled b' hb', hunits]

/-- What comes after the same blocks in one canonical list does so in the other. -/
theorem IsCanonical.mem_rest (hg : g.Sound) {pre rest rest' : List Block}
    (h : g.IsCanonical (pre ++ rest)) (h' : g.IsCanonical (pre ++ rest')) {b : Block}
    (hb : b ∈ rest') : b ∈ rest := by
  have hbMem : b ∈ pre ++ rest' := List.mem_append_right _ hb
  obtain ⟨u, hu⟩ := h'.exists_unit hbMem
  obtain ⟨d, hd, hud⟩ := List.mem_flatMap.1 ((h.complete u).2 (h'.mem_units hbMem hu))
  obtain rfl := h.eq_of_mem hg h' hd hbMem hud hu
  rcases List.mem_append.1 hd with hpre | hrest
  · have hdistinct := h'.distinct
    rw [List.flatMap_append, List.nodup_append] at hdistinct
    exact absurd rfl (hdistinct.2.2 u (List.mem_flatMap.2 ⟨d, hpre, hu⟩) u
      (List.mem_flatMap.2 ⟨d, hb, hu⟩))
  · exact hrest

/-- Canonical lists that begin with the same blocks go on with the same block. -/
theorem IsCanonical.next_eq (hg : g.Sound) {pre rest rest' : List Block} {b b' : Block}
    (h : g.IsCanonical (pre ++ b :: rest)) (h' : g.IsCanonical (pre ++ b' :: rest')) : b = b' := by
  have hb : b ∈ pre ++ b :: rest := List.mem_append_right _ List.mem_cons_self
  have hb' : b' ∈ pre ++ b' :: rest' := List.mem_append_right _ List.mem_cons_self
  have hearlier : ∀ v ∈ b'.units, ∃ u ∈ b.units, g.Precedes u v :=
    h.earliest pre b rest rfl b' (h.mem_rest hg h' List.mem_cons_self) (h'.forward pre b' rest' rfl)
  have hearlier' : ∀ v ∈ b.units, ∃ u ∈ b'.units, g.Precedes u v :=
    h'.earliest pre b' rest' rfl b (h'.mem_rest hg h List.mem_cons_self) (h.forward pre b rest rfl)
  -- the earliest unit of `b` is also one of `b'`
  have hex : ∃ i : Nat, ∃ u ∈ b.units, g.units[i]? = some u := by
    obtain ⟨u, hu⟩ := h.exists_unit hb
    obtain ⟨i, hi⟩ := Array.getElem?_of_mem (h.mem_units hb hu)
    exact ⟨i, u, hu, hi⟩
  classical
  obtain ⟨u, hu, hi⟩ := Nat.find_spec hex
  obtain ⟨u', hu', i', j, hi', hj, hle⟩ := hearlier' u hu
  obtain ⟨u'', hu'', i'', j', hi'', hj', hle'⟩ := hearlier u' hu'
  have hmin := Nat.find_min' hex ⟨u'', hu'', hi''⟩
  obtain rfl := hg.index_unique hj hi
  obtain rfl := hg.index_unique hj' hi'
  have hsame : j' = Nat.find hex := by omega
  rw [hsame, hi] at hi'
  obtain rfl := Option.some.inj hi'
  exact h.eq_of_mem hg h' hb hb' hu hu'

/-- **There is only one canonical order.** -/
theorem IsCanonical.unique (hg : g.Sound) (h : g.IsCanonical bs) (h' : g.IsCanonical bs') :
    bs = bs' := by
  have hrest : ∀ pre rest rest', g.IsCanonical (pre ++ rest) → g.IsCanonical (pre ++ rest') →
      rest = rest' := by
    intro pre rest
    induction rest generalizing pre with
    | nil =>
      intro rest' h h'
      cases rest' with
      | nil => rfl
      | cons b' rest' => cases h.mem_rest hg h' List.mem_cons_self
    | cons b rest ih =>
      intro rest' h h'
      cases rest' with
      | nil => cases h'.mem_rest hg h List.mem_cons_self
      | cons b' rest' =>
        obtain rfl := h.next_eq hg h'
        rw [List.append_cons] at h h'
        rw [ih _ _ h h']
  exact hrest [] bs bs' h h'

/-- What is canonical depends on the units and the set of connections only. -/
theorem IsCanonical.congr (h : g.IsCanonical bs) (hunits : g'.units = g.units)
    (hconnections : ∀ c, c ∈ g'.connections ↔ c ∈ g.connections) : g'.IsCanonical bs := by
  have hfeeds : g'.Feeds = g.Feeds := by
    funext u v
    simp only [Feeds, hconnections]
  have hleads : g'.Leads = g.Leads := by rw [Leads, hfeeds, Leads]
  have hfed : g'.FedBy = g.FedBy := by
    funext placed b
    rw [FedBy, hfeeds, FedBy]
  have hprecedes : g'.Precedes = g.Precedes := by
    funext u v
    rw [Precedes, hunits, Precedes]
  refine ⟨h.distinct, ?_, ?_, ?_, ?_, ?_, ?_⟩
  · rw [hunits]
    exact h.complete
  · rw [hunits, hleads]
    exact h.joined
  · rw [hfeeds]
    exact h.coupled
  · rw [hunits]
    exact h.inserted
  · rw [hfed]
    exact h.forward
  · rw [hfed, hprecedes]
    exact h.earliest

end Mdao.Graph
