import Mdao.Proofs.Graph.Canonical
import Mdao.Proofs.Model.FeedForward
import Mdao.Proofs.Model.Quantities
import Mdao.Proofs.Model.Totals

/-!
# What a run without coupled blocks computes

By the names of variables, a run of a model without coupled blocks solves a system of equations:
outputs are what their unit computes from its inputs, connected inputs are their source, converted,
and independent inputs are what they were (`Model.Solves`). The equations have one solution
(`Solves.unique`) and say nothing of the order in which units and connections were added, nor of what
the outputs were before (`Problem.run_feedForward`).
-/

namespace Mdao

open Vec

variable {α : Type}

namespace Model

/-! ### The same model, put together in another order -/

/-- The same units and the same connections, added in any order. -/
structure Rearranges (m m' : Model α) : Prop where
  units : m'.units.toList.Perm m.units.toList
  connections : ∀ c, c ∈ m'.graph.connections ↔ c ∈ m.graph.connections

variable [Scalar α] {m m' : Model α}

omit [Scalar α] in
theorem Rearranges.symm (h : m.Rearranges m') : m'.Rearranges m :=
  ⟨h.units.symm, fun c => (h.connections c).symm⟩

omit [Scalar α] in
theorem Rearranges.mem_units (h : m.Rearranges m') {c : Component α} :
    c ∈ m'.units ↔ c ∈ m.units := by
  rw [← Array.mem_toList_iff, h.units.mem_iff, Array.mem_toList_iff]

omit [Scalar α] in
/-- The graph of a model has each unit once, and connections lead between units. -/
theorem Sound.sound_graph (hm : m.Sound) : m.graph.Sound := by
  refine ⟨?_, fun c hc => ?_⟩
  · rw [hm.graph, Array.toList_map]
    exact hm.names
  · rw [← Array.mem_toList_iff, hm.connections] at hc
    obtain ⟨⟨t, link⟩, hl, rfl⟩ := List.mem_map.1 hc
    obtain ⟨giver, given, taker, taken, hconn⟩ := hm.links t link hl
    rw [hm.graph]
    refine ⟨Array.mem_map.2 ⟨giver, hconn.giver_mem, ?_⟩,
      Array.mem_map.2 ⟨taker, hconn.taker_mem, ?_⟩⟩
    · simp [connectionOf, hconn.source]
    · simp [connectionOf, hconn.target]

omit [Scalar α] in
/-- A model has no coupled block when no two units lead to each other and none feeds itself. -/
theorem Sound.feedForward_iff (hm : m.Sound) : m.FeedForward ↔
    (∀ u ∈ m.graph.units, ∀ v ∈ m.graph.units, m.graph.Leads u v → m.graph.Leads v u → u = v) ∧
      ∀ u ∈ m.graph.units, ¬ m.graph.Feeds u u := by
  have hcanonical := hm.sound_graph.isCanonical_order
  have hblock : ∀ u ∈ m.graph.units, ∃ b ∈ m.graph.order, u ∈ b.units := fun u hu =>
    List.mem_flatMap.1 ((hcanonical.complete u).2 hu)
  constructor
  · refine fun hff => ⟨fun u hu v hv huv hvu => ?_, fun u hu hself => ?_⟩
    · obtain ⟨b, hb, hub, hvb⟩ := (hcanonical.joined u hu v hv).2 ⟨huv, hvu⟩
      have hlength : ¬ 1 < b.units.length := fun hlt =>
        absurd ((hcanonical.coupled b hb).2 (.inl hlt)) (by rw [hff b hb]; exact Bool.false_ne_true)
      have hone : b.units.length ≤ 1 := not_lt.1 hlength
      match hbu : b.units with
      | [] => simp [hbu] at hub
      | [w] =>
        rw [hbu, List.mem_singleton] at hub hvb
        rw [hub, hvb]
      | _ :: _ :: _ => simp [hbu] at hone
    · obtain ⟨b, hb, hub⟩ := hblock u hu
      have := (hcanonical.coupled b hb).2 (.inr ⟨u, hub, hself⟩)
      rw [hff b hb] at this
      cases this
  · rintro ⟨hapart, hself⟩ b hb
    by_contra hne
    have hmem : ∀ u ∈ b.units, u ∈ m.graph.units := fun u hu =>
      (hcanonical.complete u).1 (List.mem_flatMap.2 ⟨b, hb, hu⟩)
    rcases (hcanonical.coupled b hb).1 (by simpa using hne) with hlt | ⟨u, hu, hfeeds⟩
    · have hnodup : b.units.Nodup := (List.nodup_flatMap.1 hcanonical.distinct).1 b hb
      match hbu : b.units with
      | [] => simp [hbu] at hlt
      | [w] => simp [hbu] at hlt
      | u :: v :: us =>
        have hu : u ∈ b.units := by simp [hbu]
        have hv : v ∈ b.units := by simp [hbu]
        obtain ⟨huv, hvu⟩ := (hcanonical.joined u (hmem u hu) v (hmem v hv)).1 ⟨b, hb, hu, hv⟩
        rw [hbu, List.nodup_cons] at hnodup
        exact hnodup.1 (hapart u (hmem u hu) v (hmem v hv) huv hvu ▸ List.mem_cons_self)
    · exact hself u (hmem u hu) hfeeds

omit [Scalar α] in
/-- Whether a model has coupled blocks does not depend on the order in which it was built. -/
theorem Rearranges.feedForward (h : m.Rearranges m') (hm : m.Sound) (hm' : m'.Sound)
    (hff : m.FeedForward) : m'.FeedForward := by
  have hunits : ∀ u, u ∈ m'.graph.units → u ∈ m.graph.units := fun u hu => by
    rw [hm'.graph] at hu
    rw [hm.graph]
    obtain ⟨c, hc, rfl⟩ := Array.mem_map.1 hu
    exact Array.mem_map.2 ⟨c, h.mem_units.1 hc, rfl⟩
  have hfeeds : m'.graph.Feeds = m.graph.Feeds := by
    funext u v
    exact propext (exists_congr fun c => and_congr_left fun _ => h.connections c)
  have hleads : m'.graph.Leads = m.graph.Leads := by
    rw [Graph.Leads, hfeeds, Graph.Leads]
  rw [hm'.feedForward_iff, hleads, hfeeds]
  obtain ⟨hapart, hself⟩ := hm.feedForward_iff.1 hff
  exact ⟨fun u hu v hv => hapart u (hunits u hu) v (hunits v hv), fun u hu => hself u (hunits u hu)⟩

/-- The links of a model follow from its units and connections. -/
theorem Rearranges.mem_links (h : m.Rearranges m') (hm : m.Built) (hm' : m'.Built) {t : Target}
    {link : Link α} (hl : (t, link) ∈ m.links) : (t, link) ∈ m'.links := by
  have hconnection := (h.connections _).2 (hm.sound.connection_of_link hl)
  rw [← Array.mem_toList_iff, hm'.sound.connections] at hconnection
  obtain ⟨⟨t', link'⟩, hl', heq⟩ := List.mem_map.1 hconnection
  obtain ⟨hsource, rfl⟩ := Connection.mk.inj heq
  -- both are between the same variables, so the conversion is the same
  obtain ⟨giver, given, taker, taken, hconn, hconversion⟩ := hm.conversion hl
  obtain ⟨giver', given', taker', taken', hconn', hconversion'⟩ := hm'.conversion hl'
  have hsame : ∀ {c c' : Component α}, c ∈ m.units → c' ∈ m'.units → c.name = c'.name → c = c' :=
    fun hc hc' => eq_of_key_eq hm.sound.names hc (h.mem_units.1 hc')
  have hsources := hconn.source.symm.trans (hsource.symm.trans hconn'.source)
  obtain ⟨hgiver, hgiven⟩ := Source.mk.inj hsources
  obtain ⟨htaker, htaken⟩ := Target.mk.inj (hconn.target.symm.trans hconn'.target)
  obtain rfl := hsame hconn.giver_mem hconn'.giver_mem hgiver
  obtain rfl := hsame hconn.taker_mem hconn'.taker_mem htaker
  obtain rfl : given = given' := List.inj_on_of_nodup_map
    (hm.sound.declared _ hconn.giver_mem).nodup_outputs hconn.given_mem hconn'.given_mem hgiven
  obtain rfl : taken = taken' := List.inj_on_of_nodup_map
    (hm.sound.declared _ hconn.taker_mem).nodup_inputs hconn.taken_mem hconn'.taken_mem htaken
  rw [hconversion] at hconversion'
  obtain ⟨hscale, hoffset⟩ := Conversion.mk.inj (Except.ok.inj hconversion')
  have hlink : link' = link := by
    cases link'
    cases link
    simp only at hsource hscale hoffset
    rw [hsource, hscale, hoffset]
  exact hlink ▸ hl'

theorem Rearranges.lookup (h : m.Rearranges m') (hm : m.Built) (hm' : m'.Built) (t : Target) :
    m'.links.lookup t = m.links.lookup t := by
  cases hlookup : m.links.lookup t with
  | some link =>
    exact lookup_of_mem hm'.sound.targets (h.mem_links hm hm' (mem_of_lookup hlookup))
  | none =>
    rw [List.lookup_eq_none_iff] at hlookup ⊢
    exact fun link hl => hlookup link (h.symm.mem_links hm' hm hl)

omit [Scalar α] in
theorem Rearranges.isQuantity (h : m.Rearranges m') {name : String} (hq : m.IsQuantity name) :
    m'.IsQuantity name := by
  obtain ⟨c, hc, v, hv, rfl⟩ := hq
  exact ⟨c, h.mem_units.2 hc, v, hv, rfl⟩

/-! ### The equations of a model, by name -/

/-- **The equations of a model**: `value` solves them where the units compute `f` and the independent
inputs are given. -/
structure Solves (m : Model α) (f : String → Array α → Array α)
    (given value : String → Option (Array α)) : Prop where
  /-- Outputs are what their unit computes from its inputs. -/
  unit : ∀ c ∈ m.units, ∃ x : Array α, x.size = c.inputs.size ∧
    (∀ v ∈ c.discipline.inputs, value (pathOf c v) = View.get? ⟨c.inputs, x⟩ v.name) ∧
      ∀ v ∈ c.discipline.outputs, value (pathOf c v) = View.get? ⟨c.outputs, f c.name x⟩ v.name
  /-- Connected inputs are their source, converted. -/
  connected : ∀ c ∈ m.units, ∀ v ∈ c.discipline.inputs, ∀ link,
    m.links.lookup ⟨c.name, v.name⟩ = some link →
      value (pathOf c v) = (value link.source.path).map fun y =>
        y.map fun s => link.scale * s + link.offset
  /-- Independent inputs are given. -/
  independent : ∀ c ∈ m.units, ∀ v ∈ c.discipline.inputs,
    m.links.lookup ⟨c.name, v.name⟩ = none → value (pathOf c v) = given (pathOf c v)

variable {f : String → Array α → Array α} {given value value' : String → Option (Array α)}

/-- What a discipline sees of an input. -/
theorem Sound.get?_input (hm : m.Sound) {c : Component α} (hc : c ∈ m.units) {v : Variable α}
    {place : Span} (hv : (v, place) ∈ Variable.placed 0 c.discipline.inputs) (x : Array α) :
    View.get? ⟨c.inputs, x⟩ v.name = some (slice x place) := by
  rw [View.get?, (hm.declared c hc).span?_input hv, Option.map_some]

theorem Sound.get?_output (hm : m.Sound) {c : Component α} (hc : c ∈ m.units) {v : Variable α}
    {place : Span} (hv : (v, place) ∈ Variable.placed 0 c.discipline.outputs) (y : Array α) :
    View.get? ⟨c.outputs, y⟩ v.name = some (slice y place) := by
  rw [View.get?, (hm.declared c hc).span?_output hv, Option.map_some]

/-- The inputs of a unit are told by the values of the single variables. -/
theorem Sound.inputs_eq (hm : m.Sound) {c : Component α} (hc : c ∈ m.units) {x x' : Array α}
    (hx : x.size = c.inputs.size) (hx' : x'.size = c.inputs.size)
    (h : ∀ v ∈ c.discipline.inputs,
      View.get? ⟨c.inputs, x⟩ v.name = View.get? ⟨c.inputs, x'⟩ v.name) : x = x' := by
  refine ext_entry (hx.trans hx'.symm) fun k hk => ?_
  have htile := Variable.tile_placed 0 c.discipline.inputs
  rw [Nat.zero_add, ← (hm.declared c hc).size_inputs] at htile
  obtain ⟨place, hplace, hmem⟩ := htile.cover (Nat.zero_le k) (hx ▸ hk)
  obtain ⟨⟨v, place⟩, hv, rfl⟩ := List.mem_map.1 hplace
  have hget := h v (Variable.mem_of_placed hv)
  rw [hm.get?_input hc hv, hm.get?_input hc hv] at hget
  have hsize : place.size = place.stop - place.start := rfl
  have hindex : place.start + (k - place.start) = k := Nat.add_sub_cancel' hmem.1
  have hentry := congrArg (entry · (k - place.start)) (Option.some.inj hget)
  have hstop : k < place.stop := hmem.2
  have hlt : k - place.start < place.size := by omega
  simpa only [entry_slice, if_pos hlt, hindex] using hentry

/-- Two solutions agree on an input if they agree on what it is fed from. -/
theorem Solves.input_eq (h : m.Solves f given value) (h' : m.Solves f given value')
    {c : Component α} (hc : c ∈ m.units) {v : Variable α} (hv : v ∈ c.discipline.inputs)
    (hsource : ∀ link, m.links.lookup ⟨c.name, v.name⟩ = some link →
      value link.source.path = value' link.source.path) :
    value (pathOf c v) = value' (pathOf c v) := by
  cases hlink : m.links.lookup ⟨c.name, v.name⟩ with
  | none => rw [h.independent c hc v hv hlink, h'.independent c hc v hv hlink]
  | some link =>
    rw [h.connected c hc v hv link hlink, h'.connected c hc v hv link hlink, hsource link hlink]

/-- Two solutions agree on the outputs of a unit if they agree on its inputs. -/
theorem Solves.output_eq (hm : m.Sound) (h : m.Solves f given value)
    (h' : m.Solves f given value') {c : Component α} (hc : c ∈ m.units)
    (hinputs : ∀ v ∈ c.discipline.inputs, value (pathOf c v) = value' (pathOf c v))
    {v : Variable α} (hv : v ∈ c.discipline.outputs) :
    value (pathOf c v) = value' (pathOf c v) := by
  obtain ⟨x, hx, hin, hout⟩ := h.unit c hc
  obtain ⟨x', hx', hin', hout'⟩ := h'.unit c hc
  obtain rfl : x = x' := hm.inputs_eq hc hx hx' fun w hw => by
    rw [← hin w hw, ← hin' w hw]
    exact hinputs w hw
  rw [hout v hv, hout' v hv]

/-- **The equations have one solution** where there are no coupled blocks: it is found unit by unit,
in execution order. -/
theorem Solves.unique (hm : m.Sound) (hff : m.FeedForward) (h : m.Solves f given value)
    (h' : m.Solves f given value') {name : String} (hname : m.IsQuantity name) :
    value name = value' name := by
  have hunits : ∀ done post, m.placedUnits.flatten = done ++ post → ∀ u ∈ done, ∀ c,
      m.units[u]? = some c → ∀ v, v ∈ c.discipline.outputs ∨ v ∈ c.discipline.inputs →
        value (pathOf c v) = value' (pathOf c v) := by
    intro done
    induction done using List.reverseRecOn with
    | nil => simp
    | append_singleton done u ih =>
      intro post horder w hw c hc v hv
      rw [List.append_assoc, List.singleton_append] at horder
      rcases List.mem_append.1 hw with hw | hw
      · exact ih _ horder w hw c hc v hv
      obtain rfl := List.mem_singleton.1 hw
      have hmem := Array.mem_of_getElem? hc
      -- the unit that feeds an input stands before
      have hinputs : ∀ v ∈ c.discipline.inputs, value (pathOf c v) = value' (pathOf c v) := by
        refine fun v hv => h.input_eq h' hmem hv fun link hlink => ?_
        obtain ⟨giver, given, taker, taken, hconn⟩ := hm.links _ _ (mem_of_lookup hlink)
        obtain ⟨a, ha⟩ := Array.getElem?_of_mem hconn.giver_mem
        have hedge := hm.edge_of_link (mem_of_lookup hlink) ha hc (by rw [hconn.source]) rfl
        have hpath : link.source.path = pathOf giver given := by
          rw [hconn.source]
          rfl
        rw [hpath]
        exact ih _ horder a (hm.fed_before hff horder hedge) giver ha given (.inl hconn.given_mem)
      rcases hv with hv | hv
      · exact h.output_eq hm h' hmem hinputs hv
      · exact hinputs v hv
  obtain ⟨c, hc, v, hv, rfl⟩ := hname
  obtain ⟨u, hu⟩ := Array.getElem?_of_mem hc
  have hmem : u ∈ m.placedUnits.flatten := hm.isExecutionOrder.perm.mem_iff.2
    (List.mem_range.2 (Array.getElem?_eq_some_iff.1 hu).1)
  exact hunits _ [] (List.append_nil _).symm u hmem c hu v hv

theorem Solves.congr {given' : String → Option (Array α)} (h : m.Solves f given value)
    (hgiven : ∀ name, m.IsIndependent name → given name = given' name) :
    m.Solves f given' value :=
  ⟨h.unit, h.connected, fun c hc v hv hlink =>
    (h.independent c hc v hv hlink).trans (hgiven _ ⟨c, hc, v, hv, hlink, rfl⟩)⟩

/-- A solution gives every variable a value. -/
theorem Solves.exists_value (hm : m.Sound) (h : m.Solves f given value) {name : String}
    (hname : m.IsQuantity name) : ∃ y, value name = some y := by
  obtain ⟨c, hc, v, hv, rfl⟩ := hname
  obtain ⟨x, -, hin, hout⟩ := h.unit c hc
  rcases hv with hv | hv
  · obtain ⟨place, hplace⟩ := Variable.exists_placed 0 hv
    exact ⟨_, (hout v hv).trans (hm.get?_output hc hplace _)⟩
  · obtain ⟨place, hplace⟩ := Variable.exists_placed 0 hv
    exact ⟨_, (hin v hv).trans (hm.get?_input hc hplace _)⟩

/-- The equations say nothing of the order in which a model was built. -/
theorem Rearranges.solves (h : m.Rearranges m') (hm : m.Built) (hm' : m'.Built)
    (hs : m'.Solves f given value) : m.Solves f given value where
  unit c hc := hs.unit c (h.mem_units.2 hc)
  connected c hc v hv link hlink :=
    hs.connected c (h.mem_units.2 hc) v hv link ((h.lookup hm hm' _).trans hlink)
  independent c hc v hv hlink :=
    hs.independent c (h.mem_units.2 hc) v hv ((h.lookup hm hm' _).trans hlink)

end Model

/-! ### Running -/

namespace Problem

open Assembly Model

variable [ExactScalar α] {m m' : Model α} {start p : Problem α} {base : Array α}
  {f : String → Array α → Array α}

omit [ExactScalar α] in
theorem get_eq_ok [Scalar α] {name : String} {y : Array α} (h : p.store.get name = .ok y) :
    p.get name = .ok y := by
  rw [Problem.get, h]
  rfl

omit [ExactScalar α] in
/-- A name that is not one of a variable is unknown. -/
theorem get_of_not_isQuantity [Scalar α] (h : IsSetUp m start)
    (hp : start.assembly.Follows p.assembly) {name : String} (hname : ¬ m.IsQuantity name) :
    p.get name = .error (.core (.unknownVariable name)) := by
  have hunknown : name ∉ p.store.names := by
    intro hmem
    have hnames : p.store.names = start.store.names := by
      rw [Store.names, Store.names]
      exact congrArg (fun es : Array (Store.Entry α) => es.toList.map Store.Entry.name) hp.entries
    rw [hnames, h.laid.names, List.mem_append] at hmem
    refine hname ?_
    rcases hmem with hmem | hmem
    · obtain ⟨u, -, c, hc, v, hv, hpath⟩ := mem_outputPaths hmem
      exact ⟨c, Array.mem_of_getElem? hc, v, .inl hv, hpath.symm⟩
    · obtain ⟨c, hc, hmem⟩ := List.mem_flatMap.1 hmem
      obtain ⟨v, hv, hpath⟩ := List.mem_map.1 hmem
      exact ⟨c, by simpa using hc, v, .inr hv, hpath.symm⟩
  rw [Problem.get, Store.get_of_unknown hunknown]
  rfl

/-- **A model that has been passed solves its equations**, and the independent inputs have kept what
they were. -/
theorem solves_of_passed (hm : m.Sound) (h : IsSetUp m start)
    (hp : Passed m f start base start.order p.assembly)
    (hreceived : ∀ u < m.units.size, p.assembly.inputsOf (start.arrangement.unit u) =
      received start.arrangement u p.store.slots) :
    m.Solves f p.store.held (fun name => (p.get name).toOption) := by
  have hvalue : ∀ {name : String} {y : Array α}, p.store.get name = .ok y →
      (p.get name).toOption = some y := fun hy => by
    rw [get_eq_ok hy]
    rfl
  have hunit : ∀ c ∈ m.units, ∃ u, m.units[u]? = some c ∧
      p.assembly.inputsOf (start.arrangement.unit u) =
        received start.arrangement u p.store.slots := fun c hc => by
    obtain ⟨u, hu⟩ := Array.getElem?_of_mem hc
    exact ⟨u, hu, hreceived u (Array.getElem?_eq_some_iff.1 hu).1⟩
  refine ⟨fun c hc => ?_, fun c hc v hv link hlink => ?_, fun c hc v hv hlink => ?_⟩
  · obtain ⟨u, hu, hin⟩ := hunit c hc
    have hmem : u ∈ start.order := (h.perm hm).mem_iff.2
      (List.mem_range.2 (Array.getElem?_eq_some_iff.1 hu).1)
    have hout : p.assembly.outputsOf (start.arrangement.unit u) =
        f c.name (p.assembly.inputsOf (start.arrangement.unit u)) := by
      rw [hin]
      exact hp.settled u hmem c hu
    obtain ⟨c', -, halike, hhosts⟩ := h.hosts hm hp.follows hu
    refine ⟨p.assembly.inputsOf (start.arrangement.unit u), ?_, fun v hv => ?_, fun v hv => ?_⟩
    · rw [hin, hhosts.size_received, halike.inputs]
    · obtain ⟨place, hplace⟩ := Variable.exists_placed 0 hv
      rw [hm.get?_input hc hplace]
      exact hvalue (h.get_input hm hp.follows hu hplace)
    · obtain ⟨place, hplace⟩ := Variable.exists_placed 0 hv
      rw [hm.get?_output hc hplace, ← hout]
      exact hvalue (h.get_output hm hp.follows hu hplace)
  · obtain ⟨u, hu, hin⟩ := hunit c hc
    obtain ⟨y, hy, hget⟩ := h.get_connected hm hp.follows hu hv hlink hin
    rw [hvalue hy]
    exact hvalue hget
  · obtain ⟨u, hu, hin⟩ := hunit c hc
    obtain ⟨y, hy, hget⟩ := h.get_independent hm hp.follows hu hv hlink hin
    exact (hvalue hget).trans hy.symm

/-- The slots of independent inputs hold what they held before. -/
theorem held_of_passed (h : IsSetUp m start) (hp : start.assembly.Follows p.assembly)
    {q : Problem α} (hq : Passed m f start p.store.slots start.order q.assembly) {name : String}
    (hname : m.IsIndependent name) : q.store.held name = p.store.held name := by
  obtain ⟨c, hc, v, hv, hlink, rfl⟩ := hname
  obtain ⟨i, e, he, hholds⟩ := h.laid.inputs c hc v hv
  obtain ⟨own, hmem, hown⟩ := hholds.independent hlink
  have hslots : start.store.slotsOf (pathOf c v) = some own := by
    rw [← hholds.name, Store.slotsOf_name h.laid.sound.names he, hown]
  have hheld : ∀ {r : Problem α}, start.assembly.Follows r.assembly →
      r.store.held (pathOf c v) = some (slice r.store.slots own) := fun {r} hr => by
    have hsame : r.store.slotsOf = start.store.slotsOf := Store.slotsOf_congr hr.entries
    rw [Store.held, hsame, hslots, Option.map_some]
  rw [hheld hp, hheld hq.follows]
  exact congrArg some (slice_congr fun k hk => hq.kept own hmem k hk)

/-- What a run of a model without coupled blocks does: each block is swept once and has converged,
the values solve the equations of the model, and the independent inputs are what they were. -/
structure RunsExactly (m : Model α) (f : String → Array α → Array α) (names : List String)
    (p : Problem α) (report : RunReport α) (q : Problem α) : Prop where
  run : Problem.run p = .ok report q
  blocks : report.blocks = names.map exactReport
  solves : m.Solves f p.store.held (fun name => (q.get name).toOption)
  held : ∀ name, m.IsIndependent name → q.store.held name = p.store.held name

/-- One pass from a problem that has been used in any way, and from any slots. -/
theorem runsExactly_of_follows (hm : m.Sound) (h : IsSetUp m start)
    (hoptions : m.options = .default) (hff : m.FeedForward)
    (hf : ∀ c ∈ m.units, c.Computes (f c.name)) (hp : start.Follows p) :
    ∃ report q, RunsExactly m f start.blockNames p report q ∧
      start.assembly.Follows q.assembly := by
  obtain ⟨q, hq, -, hpassed, hreceived⟩ := run_of_follows .silent () hm h hoptions hff hf hp
  have hheld : ∀ name, m.IsIndependent name → q.store.held name = p.store.held name :=
    fun name hname => held_of_passed h hp.assembly hpassed hname
  have hsolves := solves_of_passed hm h hpassed hreceived
  refine ⟨⟨start.blockNames.map exactReport⟩, q, ⟨by simp only [Problem.run, hq], rfl,
    ⟨hsolves.unit, hsolves.connected, fun c hc v hv hlink => ?_⟩, hheld⟩, hpassed.follows⟩
  exact (hsolves.independent c hc v hv hlink).trans (hheld _ ⟨c, hc, v, hv, hlink, rfl⟩)

/-- Default options make sense. -/
theorem validate_default [Shown α] :
    (SolverOptions.default : SolverOptions α).validate = .ok () := by
  have htol : ¬ ((Scalar.toOfScientific.ofScientific 1 true 25 : α) < 0) := by
    rw [ExactScalar.ofScientific_eq]
    norm_num
  have htotals : SolverOptions.validateTotals (TotalsOptions.default : TotalsOptions α) = .ok () := by
    simp [SolverOptions.validateTotals, TotalsOptions.default, LinearConfig.validate,
      ColoringSettings.validate, ColoringSettings.default, ExactScalar.isFinite_eq, htol]
  exact bind_eq_ok.2 ⟨(), rfl, bind_eq_ok.2 ⟨(), htotals, rfl⟩⟩

/-- A model with default options can be set up. -/
theorem setup_of_default [Shown α] (hm : m.Sound) (hoptions : m.options = .default) :
    ∃ start, m.setup = .ok start ∧ IsSetUp m start := by
  refine setup_eq_ok hm ?_ ?_
  · rw [hoptions]
    exact validate_default
  · rw [checkNamedBlocks, hoptions]
    rfl

/-- **A model without coupled blocks is solved exactly in one pass**: under default options, with
explicit units that compute functions of their inputs, from whatever state the problem is in and any
values in its slots. And whichever way the same units and connections were put together, and whatever
the outputs were before, the same independent inputs give every variable the same value. -/
theorem run_feedForward [BitPattern α] [Shown α] (hm : m.Built) (hoptions : m.options = .default)
    (hff : m.FeedForward) (hf : ∀ c ∈ m.units, c.Computes (f c.name)) :
    ∃ start, m.setup = .ok start ∧ ∀ p, start.Reached p → ∀ slots,
      slots.size = p.store.slots.size → ∃ report q,
        RunsExactly m f start.blockNames (p.withSlots slots) report q ∧
        ∀ m' : Model α, m'.Built → m'.options = .default → m.Rearranges m' →
          ∃ start', m'.setup = .ok start' ∧ ∀ p', start'.Reached p' → ∀ slots',
            slots'.size = p'.store.slots.size →
            (∀ name, m.IsIndependent name → (p'.withSlots slots').store.held name =
              (p.withSlots slots).store.held name) →
            ∃ report' q', RunsExactly m' f start'.blockNames (p'.withSlots slots') report' q' ∧
              ∀ name, q'.get name = q.get name := by
  obtain ⟨start, hstart, h⟩ := setup_of_default hm.sound hoptions
  refine ⟨start, hstart, fun p hp slots hslots => ?_⟩
  have hfollows : start.Follows (p.withSlots slots) :=
    .trans _ _ _ hp.follows (.withSlots p hslots)
  obtain ⟨report, q, hrun, hq⟩ :=
    runsExactly_of_follows hm.sound h hoptions hff hf hfollows
  refine ⟨report, q, hrun, fun m' hm' hoptions' hsame => ?_⟩
  obtain ⟨start', hstart', h'⟩ := setup_of_default hm'.sound hoptions'
  refine ⟨start', hstart', fun p' hp' slots' hslots' hgiven => ?_⟩
  have hfollows' : start'.Follows (p'.withSlots slots') :=
    .trans _ _ _ hp'.follows (.withSlots p' hslots')
  obtain ⟨report', q', hrun', hq'⟩ := runsExactly_of_follows hm'.sound h' hoptions'
    (hsame.feedForward hm.sound hm'.sound hff) (fun c hc => hf c (hsame.mem_units.1 hc)) hfollows'
  refine ⟨report', q', hrun', fun name => ?_⟩
  by_cases hname : m.IsQuantity name
  · have hsolves := (hsame.solves hm hm' hrun'.solves).congr hgiven
    obtain ⟨y, hy⟩ := hrun.solves.exists_value hm.sound hname
    have hy' := (hrun.solves.unique hm.sound hff hsolves hname).symm.trans hy
    rw [eq_ok_of_toOption hy, eq_ok_of_toOption hy']
  · rw [get_of_not_isQuantity h hq hname,
      get_of_not_isQuantity h' hq' fun hname' => hname (hsame.symm.isQuantity hname')]

end Problem

/-! ### Two units in a row -/

namespace Doubling

/-- A second unit that doubles. -/
def second : Component ℚ := okOr component (Component.declare "second" (.explicit discipline))

theorem declare_second : Component.declare "second" (.explicit discipline) = .ok second :=
  eq_ok_of_isOk _ (by with_unfolding_all decide)

theorem isDeclared_second : Component.IsDeclared "second" (.explicit discipline) second :=
  Component.isDeclared_of_declare declare_second
    ⟨by with_unfolding_all decide, by with_unfolding_all decide⟩

/-- Both units. -/
def twoUnits : Model ℚ := okOr .empty (model.addUnit second)

theorem addUnit_second : model.addUnit second = .ok twoUnits :=
  eq_ok_of_isOk _ (by with_unfolding_all decide)

/-- One after the other. -/
def chain : Model ℚ := okOr .empty (twoUnits.connect "double.y" "second.x")

theorem connect_chain : twoUnits.connect "double.y" "second.x" = .ok chain :=
  eq_ok_of_isOk _ (by with_unfolding_all decide)

theorem built_chain : chain.Built :=
  .connect (.addUnit built ⟨by with_unfolding_all decide, by with_unfolding_all decide⟩ declare_second
    addUnit_second) connect_chain

theorem units_chain : chain.units = #[component, second] := by
  obtain ⟨_, _, _, _, _, _, hjoins⟩ := Model.joins_of_connect connect_chain
  rw [hjoins.result]
  show twoUnits.units = _
  rw [Model.units_addUnit addUnit_second, units_model]
  rfl

theorem options_chain : chain.options = .default := by
  obtain ⟨_, _, _, _, _, _, hjoins⟩ := Model.joins_of_connect connect_chain
  rw [hjoins.result]
  show twoUnits.options = _
  rw [Model.options_addUnit addUnit_second, Model.options_addUnit addUnit_eq]
  rfl

theorem feedForward_chain : chain.FeedForward := by
  have htest : chain.graph.order.all (fun b => !b.isCoupled) = true := by with_unfolding_all decide
  intro b hb
  simpa using List.all_eq_true.1 htest b hb

/-- Twice the input. -/
def double (x : Array ℚ) : Array ℚ := #[2 * Vec.entry x 0]

/-- The layout of a single variable. -/
def single (name : String) : Layout := ⟨#[⟨name, ⟨0, 1⟩⟩], 1⟩

/-- The doubling discipline doubles. -/
theorem computes_double {c : Component ℚ} (hd : c.discipline = .explicit discipline)
    (hin : c.inputs = single "x") (hout : c.outputs = single "y") : c.Computes double := by
  refine ⟨discipline, hd, fun x y hx hy => ?_⟩
  rw [hin, hout] at *
  have hspan : ∀ name : String, (single name).span? name = some ⟨0, 1⟩ := fun name => by
    simp [single, Layout.span?, Layout.position?, Layout.spanAt, Layout.fieldAt]
  obtain ⟨b, rfl⟩ : ∃ b, y = #[b] := Array.size_eq_one_iff.1 hy
  refine ⟨rfl, ?_⟩
  show EStateM.Result.ok _ _ = _
  simp [View.setEntry, View.value, View.entry, hspan, double, Span.size]

/-- Both units of the chain double. -/
theorem computes_chain : ∀ c ∈ chain.units, c.Computes double := by
  intro c hc
  rw [units_chain] at hc
  rcases List.mem_cons.1 (Array.mem_toList_iff.2 hc) with rfl | hc
  · exact computes_double isDeclared.discipline (by with_unfolding_all decide)
      (by with_unfolding_all decide)
  · obtain rfl := List.mem_singleton.1 hc
    exact computes_double isDeclared_second.discipline (by with_unfolding_all decide)
      (by with_unfolding_all decide)

theorem run_chain : chain.Built ∧ chain.options = .default ∧ chain.FeedForward ∧
    (∀ c ∈ chain.units, c.Computes double) ∧
    ∃ start, chain.setup = .ok start ∧ ∃ report q,
      Problem.RunsExactly chain (fun _ => double) start.blockNames (start.withSlots #[5, 7, 3])
        report q := by
  obtain ⟨start, hstart, hrun⟩ := Problem.run_feedForward (f := fun _ => double) built_chain
    options_chain feedForward_chain computes_chain
  have hsize : start.store.slots.size = 3 := by
    have htest : (okOr problem chain.setup).store.slots.size = 3 := by decide +kernel
    rwa [hstart] at htest
  obtain ⟨report, q, hexact, -⟩ := hrun start .start #[5, 7, 3] hsize.symm
  exact ⟨built_chain, options_chain, feedForward_chain, computes_chain, start, hstart, report, q,
    hexact⟩

end Doubling

end Mdao
