import Mathlib
import Mdao.Model.Basic
import Mdao.Proofs.Component.Declared

/-!
# Models that are built step by step

`Model.Built` holds of the models that adding units, connecting variables and choosing options lead
to. `Built.sound` is the invariant of these steps: units are declared components with different
names, the graph has the same units, inputs and connections, and each link leads from an output to
an input of the same size that has no other. All of this but the first holds whatever the units
declare (`Model.Recorded`), and links have the conversions of what they connect
(`Model.Converted`). `Model.after` is the model that a list of calls leads to, failed ones included,
and it is sound as well (`sound_after`).
-/

namespace Mdao

/-- An input is connected that had no source, and both units are in the graph then. -/
theorem Graph.eq_of_connect {g g' : Graph} {source : Source} {target : Target}
    (h : g.connect source target = .ok g') : g.sourceOf target = none ∧
      g' = { (g.ensureUnit source.owner).ensureUnit target.owner with
        connections := ((g.ensureUnit source.owner).ensureUnit target.owner).connections.push
          ⟨source, target⟩ } := by
  unfold Graph.connect at h
  cases hsource : g.sourceOf target with
  | some existing =>
    simp only [hsource] at h
    cases h
  | none =>
    simp only [hsource] at h
    exact ⟨rfl, (Except.ok.inj h).symm⟩

namespace Model

variable {α : Type} [Scalar α]

/-- A link leads from an output of a unit to an input of a unit, of the same size. -/
structure Connects (units : Array (Component α)) (t : Target) (link : Link α)
    (giver : Component α) (given : Variable α) (taker : Component α) (taken : Variable α) :
    Prop where
  giver_mem : giver ∈ units
  given_mem : given ∈ giver.discipline.outputs
  taker_mem : taker ∈ units
  taken_mem : taken ∈ taker.discipline.inputs
  source : link.source = ⟨giver.name, given.name⟩
  target : t = ⟨taker.name, taken.name⟩
  size : given.size = taken.size
  /-- Both names can be told apart in the path of the target. -/
  split : splitPath t.path = .ok (t.owner, t.input)

/-- The inputs of a unit as targets of connections. -/
def targetsOf (c : Component α) : List Target := c.inputs.names.map fun name => ⟨c.name, name⟩

/-- A link as a connection of the graph. -/
def connectionOf (link : Target × Link α) : Connection := ⟨link.2.source, link.1⟩

/-- **What holds of every model that is built.** -/
structure Sound (m : Model α) : Prop where
  /-- Every unit is the component of a discipline. -/
  declared : ∀ c ∈ m.units, Component.IsDeclared c.name c.discipline c
  /-- Names of units differ. -/
  names : (m.units.toList.map Component.name).Nodup
  /-- Names of units have no point. -/
  pointless : ∀ c ∈ m.units, '.' ∉ c.name.toList
  /-- The graph has the same units. -/
  graph : m.graph.units = m.units.map Component.name
  /-- The graph has the same inputs. -/
  inputs : m.graph.inputs.toList = m.units.toList.flatMap targetsOf
  /-- Links connect variables. -/
  links : ∀ t link, (t, link) ∈ m.links →
    ∃ giver given taker taken, Connects m.units t link giver given taker taken
  /-- Each input has at most one link. -/
  targets : (m.links.map Prod.fst).Nodup
  /-- The graph has the same connections. -/
  connections : m.graph.connections.toList = m.links.map connectionOf

/-- What holds of a model whatever its units declare: their names differ, and the graph and the links
say the same. -/
structure Recorded (m : Model α) : Prop where
  /-- Names of units differ. -/
  names : (m.units.toList.map Component.name).Nodup
  /-- Names of units have no point. -/
  pointless : ∀ c ∈ m.units, '.' ∉ c.name.toList
  /-- The graph has the same units. -/
  graph : m.graph.units = m.units.map Component.name
  /-- The graph has the same inputs. -/
  inputs : m.graph.inputs.toList = m.units.toList.flatMap targetsOf
  /-- Links connect variables. -/
  links : ∀ t link, (t, link) ∈ m.links →
    ∃ giver given taker taken, Connects m.units t link giver given taker taken
  /-- Each input has at most one link. -/
  targets : (m.links.map Prod.fst).Nodup
  /-- The graph has the same connections. -/
  connections : m.graph.connections.toList = m.links.map connectionOf

/-- Every link has the conversion between the variables that it connects. -/
def Converted (m : Model α) : Prop :=
  ∀ t link, (t, link) ∈ m.links → ∃ giver given taker taken,
    Connects m.units t link giver given taker taken ∧
      conversionBetween given taken = .ok ⟨link.scale, link.offset⟩

/-- The models that can be built. -/
inductive Built : Model α → Prop where
  | empty : Built .empty
  | addUnit {m m' : Model α} {name : String} {d : Discipline α} {c : Component α} :
    Built m → d.Addressable → Component.declare name d = .ok c → m.addUnit c = .ok m' → Built m'
  | connect {m m' : Model α} {source target : String} :
    Built m → m.connect source target = .ok m' → Built m'
  | withOptions {m : Model α} (o : SolverOptions α) : Built m → Built (m.withOptions o)

theorem recorded_empty : (Model.empty : Model α).Recorded := by
  refine ⟨?_, fun c hc => ?_, ?_, ?_, fun t link h => ?_, ?_, ?_⟩
  · simp [Model.empty]
  · simp [Model.empty] at hc
  · simp [Model.empty, Graph.empty]
  · simp [Model.empty, Graph.empty]
  · cases h
  · simp [Model.empty]
  · simp [Model.empty, Graph.empty]

theorem converted_empty : (Model.empty : Model α).Converted := fun _ _ h => nomatch h

variable {m m' : Model α}

omit [Scalar α] in
theorem Sound.recorded (hm : m.Sound) : m.Recorded :=
  ⟨hm.names, hm.pointless, hm.graph, hm.inputs, hm.links, hm.targets, hm.connections⟩

omit [Scalar α] in
theorem Recorded.sound (hm : m.Recorded)
    (h : ∀ c ∈ m.units, Component.IsDeclared c.name c.discipline c) : m.Sound :=
  ⟨h, hm.names, hm.pointless, hm.graph, hm.inputs, hm.links, hm.targets, hm.connections⟩

theorem sound_empty : (Model.empty : Model α).Sound :=
  recorded_empty.sound fun c hc => by simp [Model.empty] at hc

omit [Scalar α] in
theorem Sound.withOptions (hm : m.Sound) (o : SolverOptions α) : (m.withOptions o).Sound :=
  ⟨hm.declared, hm.names, hm.pointless, hm.graph, hm.inputs, hm.links, hm.targets, hm.connections⟩

omit [Scalar α] in
theorem Sound.connection_of_link (hm : m.Sound) {t : Target} {link : Link α}
    (h : (t, link) ∈ m.links) : ⟨link.source, t⟩ ∈ m.graph.connections := by
  rw [← Array.mem_toList_iff, hm.connections]
  exact List.mem_map.2 ⟨_, h, rfl⟩

omit [Scalar α] in
/-- The source of an input is that of its link. -/
theorem Recorded.sourceOf_eq (hm : m.Recorded) (t : Target) :
    m.graph.sourceOf t = (m.links.lookup t).map Link.source := by
  rw [Graph.sourceOf, ← Array.find?_toList, hm.connections]
  induction m.links with
  | nil => rfl
  | cons link links ih =>
    obtain ⟨t', link⟩ := link
    rw [List.map_cons, List.find?_cons, List.lookup_cons]
    by_cases h : t' = t
    · simp [connectionOf, h]
    · have hne : (t == t') = false := by simpa using fun h' : t = t' => h h'.symm
      simpa [connectionOf, h, hne] using ih

omit [Scalar α] in
theorem Sound.sourceOf_eq (hm : m.Sound) (t : Target) :
    m.graph.sourceOf t = (m.links.lookup t).map Link.source := hm.recorded.sourceOf_eq t

omit [Scalar α] in
/-- A connection stays one when units are added. -/
theorem Connects.mono {units units' : Array (Component α)} {t : Target} {link : Link α}
    {giver taker : Component α} {given taken : Variable α}
    (h : Connects units t link giver given taker taken) (hsub : ∀ c ∈ units, c ∈ units') :
    Connects units' t link giver given taker taken :=
  { h with giver_mem := hsub _ h.giver_mem, taker_mem := hsub _ h.taker_mem }

omit [Scalar α] in
theorem units_addUnit {c : Component α} (h : m.addUnit c = .ok m') :
    m'.units = m.units.push c := by
  unfold Model.addUnit at h
  split_ifs at h
  cases h
  rfl

omit [Scalar α] in
theorem links_addUnit {c : Component α} (h : m.addUnit c = .ok m') : m'.links = m.links := by
  unfold Model.addUnit at h
  split_ifs at h
  cases h
  rfl

omit [Scalar α] in
theorem options_addUnit {c : Component α} (h : m.addUnit c = .ok m') : m'.options = m.options := by
  unfold Model.addUnit at h
  split_ifs at h
  cases h
  rfl

omit [Scalar α] in
theorem Recorded.addUnit (hm : m.Recorded) {c : Component α} (h : m.addUnit c = .ok m') :
    m'.Recorded := by
  unfold Model.addUnit at h
  split_ifs at h with hname hvalid
  cases h
  have hfresh : c.name ∉ m.units.toList.map Component.name := by
    intro hmem
    obtain ⟨c', hc', heq⟩ := List.mem_map.1 hmem
    refine hname ?_
    rw [position?, positionIn, Array.findIdx?_isSome, Array.any_eq_true']
    exact ⟨c', by simpa using hc', by simp [heq]⟩
  have hmono : ∀ c' ∈ m.units, c' ∈ m.units.push c := fun c' hc' => Array.mem_push_of_mem _ hc'
  refine ⟨?_, fun c' hc' => ?_, ?_, ?_, fun t link hl => ?_, hm.targets, ?_⟩
  · rw [Array.toList_push, List.map_append, List.map_singleton, ← List.concat_eq_append]
    exact hm.names.concat hfresh
  · rcases Array.mem_push.1 hc' with hc' | rfl
    · exact hm.pointless c' hc'
    · simp only [isUnitName, Bool.not_and, Bool.not_not, Bool.or_eq_true, not_or] at hvalid
      simpa using hvalid.2
  · have hnone : (m.graph.unit? c.name).isSome = false := by
      rw [Graph.unit?, hm.graph, Array.findIdx?_isSome, Array.any_eq_false']
      intro x hx
      obtain ⟨c', hc', rfl⟩ := Array.mem_map.1 hx
      have : c'.name ≠ c.name := fun heq =>
        hfresh (List.mem_map.2 ⟨c', by simpa using hc', heq⟩)
      simpa using this
    simp [Graph.addUnit, Graph.ensureUnit, hnone, hm.graph]
  · have hinputs : (m.graph.addUnit c.name c.inputs.names).inputs =
        m.graph.inputs ++ (targetsOf c).toArray := by
      simp only [Graph.addUnit, Graph.ensureUnit]
      split_ifs <;> rfl
    rw [hinputs, Array.toList_append, hm.inputs, Array.toList_push, List.flatMap_append,
      List.flatMap_singleton]
  · obtain ⟨giver, given, taker, taken, hconn⟩ := hm.links t link hl
    exact ⟨giver, given, taker, taken, hconn.mono hmono⟩
  · have hconn : (m.graph.addUnit c.name c.inputs.names).connections = m.graph.connections := by
      simp only [Graph.addUnit, Graph.ensureUnit]
      split_ifs <;> rfl
    rw [hconn]
    exact hm.connections

omit [Scalar α] in
theorem Sound.addUnit (hm : m.Sound) {c : Component α}
    (hc : Component.IsDeclared c.name c.discipline c) (h : m.addUnit c = .ok m') : m'.Sound := by
  refine (hm.recorded.addUnit h).sound fun c' hc' => ?_
  rw [units_addUnit h] at hc'
  rcases Array.mem_push.1 hc' with hc' | rfl
  · exact hm.declared c' hc'
  · exact hc

theorem Converted.addUnit (hm : m.Converted) {c : Component α} (h : m.addUnit c = .ok m') :
    m'.Converted := by
  intro t link hl
  rw [links_addUnit h] at hl
  obtain ⟨giver, given, taker, taken, hconn, hconversion⟩ := hm t link hl
  rw [units_addUnit h]
  exact ⟨giver, given, taker, taken, hconn.mono fun c hc => Array.mem_push_of_mem _ hc, hconversion⟩

omit [Scalar α] in
theorem owner_eq_ok {path name : String} {c : Component α} (h : m.owner path = .ok (c, name)) :
    splitPath path = .ok (c.name, name) ∧ c ∈ m.units := by
  obtain ⟨⟨unit, name'⟩, hsplit, h⟩ := bind_eq_ok.1 h
  simp only at h
  cases hunit : m.unit? unit with
  | none =>
    rw [hunit] at h
    cases h
  | some c' =>
    rw [hunit] at h
    cases h
    have hname : c.name = unit := by simpa using Array.find?_some hunit
    exact ⟨by rw [hsplit, hname], Array.mem_of_find?_eq_some hunit⟩

omit [Scalar α] in
theorem declared_eq_ok {path name : String} {vs : List (Variable α)} {v : Variable α}
    (h : declared path name vs = .ok v) : v ∈ vs ∧ v.name = name := by
  unfold declared at h
  split at h
  · rename_i v' hfind
    cases h
    exact ⟨List.mem_of_find?_eq_some hfind, by simpa using List.find?_some hfind⟩
  · cases h

/-- The parts of a path make it up. -/
theorem path_of_splitPath {path owner name : String} (h : splitPath path = .ok (owner, name)) :
    (⟨owner, name⟩ : Target).path = path := by
  unfold splitPath at h
  simp only at h
  split_ifs at h with hempty
  cases h
  have htail : (path.toList.dropWhile (· != '.')).drop 1 ≠ [] := by
    intro hnil
    exact hempty (by simp only [hnil, List.isEmpty_nil, Bool.or_true])
  have hdot : path.toList.dropWhile (· != '.') =
      '.' :: (path.toList.dropWhile (· != '.')).drop 1 := by
    cases hdrop : path.toList.dropWhile (· != '.') with
    | nil => simp [hdrop] at htail
    | cons x rest =>
      have hx := List.head_dropWhile_not (· != '.') (by simp [hdrop] : path.toList.dropWhile _ ≠ [])
      simp only [hdrop, List.head_cons, bne_eq_false_iff_eq] at hx
      rw [hx]
      rfl
  apply String.ext
  have hjoin := List.takeWhile_append_dropWhile (p := (· != '.')) (l := path.toList)
  rw [hdot] at hjoin
  simpa [Target.path, toString] using hjoin

/-- What connecting an output to an input does. -/
structure Joins (m m' : Model α) (giver : Component α) (given : Variable α) (taker : Component α)
    (taken : Variable α) (c : Conversion α) (graph : Graph) : Prop where
  giver_mem : giver ∈ m.units
  given_mem : given ∈ giver.discipline.outputs
  taker_mem : taker ∈ m.units
  taken_mem : taken ∈ taker.discipline.inputs
  size : given.size = taken.size
  split : splitPath (⟨taker.name, taken.name⟩ : Target).path = .ok (taker.name, taken.name)
  conversion : conversionBetween given taken = .ok c
  connected : m.graph.connect ⟨giver.name, given.name⟩ ⟨taker.name, taken.name⟩ = .ok graph
  result : m' = { m with
    graph := graph
    links := m.links ++
      [(⟨taker.name, taken.name⟩, ⟨⟨giver.name, given.name⟩, c.scale, c.offset⟩)] }

theorem joins_of_connect {source target : String} (h : m.connect source target = .ok m') :
    ∃ giver given taker taken c graph, Joins m m' giver given taker taken c graph := by
  unfold Model.connect at h
  simp only at h
  split at h
  · rename_i m1 hconnected
    cases h
    obtain ⟨⟨t, link⟩, hlink, hconnected⟩ := bind_eq_ok.1 hconnected
    obtain ⟨graph, hgraph, hconnected⟩ := bind_eq_ok.1 hconnected
    cases hconnected
    -- the two ends
    obtain ⟨⟨s, given⟩, houtput, hlink⟩ := bind_eq_ok.1 hlink
    obtain ⟨⟨giver, name⟩, hgiver, houtput⟩ := bind_eq_ok.1 houtput
    obtain ⟨given', hgiven, houtput⟩ := bind_eq_ok.1 houtput
    cases houtput
    obtain ⟨⟨t', wanted⟩, hinput, hlink⟩ := bind_eq_ok.1 hlink
    obtain ⟨⟨taker, name'⟩, htaker, hinput⟩ := bind_eq_ok.1 hinput
    obtain ⟨wanted', htaken, hinput⟩ := bind_eq_ok.1 hinput
    cases hinput
    simp only at hlink
    split_ifs at hlink with hsize
    · obtain ⟨conversion, hconversion, hlink⟩ := bind_eq_ok.1 hlink
      cases hlink
      obtain ⟨-, hgiverMem⟩ := owner_eq_ok hgiver
      obtain ⟨hsplit, htakerMem⟩ := owner_eq_ok htaker
      obtain ⟨hgivenMem, rfl⟩ := declared_eq_ok hgiven
      obtain ⟨htakenMem, rfl⟩ := declared_eq_ok htaken
      exact ⟨giver, given, taker, wanted, conversion, graph, hgiverMem, hgivenMem, htakerMem,
        htakenMem, hsize, by rw [path_of_splitPath hsplit, hsplit], hconversion, hgraph, rfl⟩
  · cases h

/-- The new link connects the two variables. -/
theorem Joins.connects {giver taker : Component α} {given taken : Variable α} {c : Conversion α}
    {graph : Graph} (h : Joins m m' giver given taker taken c graph) :
    Connects m.units ⟨taker.name, taken.name⟩ ⟨⟨giver.name, given.name⟩, c.scale, c.offset⟩ giver
      given taker taken :=
  ⟨h.giver_mem, h.given_mem, h.taker_mem, h.taken_mem, rfl, rfl, h.size, h.split⟩

theorem Recorded.connect (hm : m.Recorded) {source target : String}
    (h : m.connect source target = .ok m') : m'.Recorded := by
  obtain ⟨giver, given, taker, taken, c, graph, hjoins⟩ := joins_of_connect h
  obtain rfl := hjoins.result
  -- both units are in the graph already
  have hensure : ∀ c ∈ m.units, m.graph.ensureUnit c.name = m.graph := by
    intro c hc
    have hmem : (m.graph.unit? c.name).isSome = true := by
      rw [Graph.unit?, hm.graph, Array.findIdx?_isSome, Array.any_eq_true']
      exact ⟨c.name, Array.mem_map.2 ⟨c, hc, rfl⟩, beq_self_eq_true _⟩
    rw [Graph.ensureUnit, if_pos hmem]
  obtain ⟨hnone, rfl⟩ := Graph.eq_of_connect hjoins.connected
  rw [hensure giver hjoins.giver_mem, hensure taker hjoins.taker_mem]
  refine ⟨hm.names, hm.pointless, hm.graph, hm.inputs, fun t link hl => ?_, ?_, ?_⟩
  · rcases List.mem_append.1 hl with hl | hl
    · exact hm.links t link hl
    · cases List.mem_singleton.1 hl
      exact ⟨giver, given, taker, taken, hjoins.connects⟩
  · have hfresh : (⟨taker.name, taken.name⟩ : Target) ∉ m.links.map Prod.fst := by
      rw [hm.sourceOf_eq, Option.map_eq_none_iff, List.lookup_eq_none_iff] at hnone
      intro hmem
      obtain ⟨link, hl, heq⟩ := List.mem_map.1 hmem
      simpa [heq] using hnone link hl
    rw [List.map_append, List.map_singleton, ← List.concat_eq_append]
    exact hm.targets.concat hfresh
  · rw [Array.toList_push, hm.connections, List.map_append]
    rfl

theorem Sound.connect (hm : m.Sound) {source target : String}
    (h : m.connect source target = .ok m') : m'.Sound := by
  refine (hm.recorded.connect h).sound ?_
  obtain ⟨_, _, _, _, _, _, hjoins⟩ := joins_of_connect h
  obtain rfl := hjoins.result
  exact hm.declared

theorem Converted.connect (hm : m.Converted) {source target : String}
    (h : m.connect source target = .ok m') : m'.Converted := by
  obtain ⟨giver, given, taker, taken, c, graph, hjoins⟩ := joins_of_connect h
  obtain rfl := hjoins.result
  intro t link hl
  rcases List.mem_append.1 hl with hl | hl
  · exact hm t link hl
  · cases List.mem_singleton.1 hl
    exact ⟨giver, given, taker, taken, hjoins.connects, hjoins.conversion⟩

/-- **Every model that is built is sound.** -/
theorem Built.sound (h : m.Built) : m.Sound := by
  induction h with
  | empty => exact sound_empty
  | addUnit _ hd hdeclare hadd ih =>
    exact ih.addUnit (Component.isDeclared_of_declare hdeclare hd).self hadd
  | connect _ hconnect ih => exact ih.connect hconnect
  | withOptions o _ ih => exact ih.withOptions o

theorem Built.converted (h : m.Built) : m.Converted := by
  induction h with
  | empty => exact converted_empty
  | addUnit _ _ _ hadd ih => exact ih.addUnit hadd
  | connect _ hconnect ih => exact ih.connect hconnect
  | withOptions o _ ih => exact ih

/-- **The conversion of a link** is the one between the variables that it connects. -/
theorem Built.conversion (h : m.Built) {t : Target} {link : Link α} (hl : (t, link) ∈ m.links) :
    ∃ giver given taker taken, Connects m.units t link giver given taker taken ∧
      conversionBetween given taken = .ok ⟨link.scale, link.offset⟩ := h.converted t link hl

/-- Explicit units of a built model have derivatives with respect to their inputs only. -/
theorem Built.readsInputs (h : m.Built) : ∀ c ∈ m.units, c.ReadsInputs := by
  induction h with
  | empty =>
    intro c hc
    simp [Model.empty] at hc
  | addUnit _ _ hdeclare hadd ih =>
    intro c hc
    rw [units_addUnit hadd] at hc
    rcases Array.mem_push.1 hc with hc | rfl
    · exact ih c hc
    · exact Component.readsInputs_of_declare hdeclare
  | connect _ hconnect ih =>
    obtain ⟨_, _, _, _, _, _, hjoins⟩ := joins_of_connect hconnect
    rw [hjoins.result]
    exact ih
  | withOptions o _ ih => exact ih

/-! ### Calls, those that fail included -/

/-- A call that builds a model. -/
inductive Call (α : Type) where
  /-- Adds a unit. -/
  | addUnit (c : Component α)
  /-- Adds a discipline under a name. -/
  | declare (name : String) (d : Discipline α)
  /-- Connects an output to an input. -/
  | connect (source target : String)

/-- The model that a call leaves behind; a call that fails changes nothing. -/
def perform (m : Model α) : Call α → Model α
  | .addUnit c => (m.addUnit c).toOption.getD m
  | .declare name d =>
    ((Component.declare name d).toOption.bind fun c => (m.addUnit c).toOption).getD m
  | .connect source target => (m.connect source target).toOption.getD m

/-- The model after some calls. -/
def after (calls : List (Call α)) : Model α := calls.foldl perform .empty

/-- The model that a call gives, or why it fails. -/
def attempt (m : Model α) : Call α → Except (ModelError α) (Model α)
  | .addUnit c => m.addUnit c
  | .declare name d =>
    match Component.declare name d with
    | .ok c => m.addUnit c
    | .error e => .error (.core e)
  | .connect source target => m.connect source target

theorem perform_eq_attempt (m : Model α) (call : Call α) :
    m.perform call = (m.attempt call).toOption.getD m := by
  cases call with
  | addUnit c => rfl
  | declare name d =>
    dsimp only [perform, attempt]
    cases Component.declare name d <;> rfl
  | connect source target => rfl

/-- A discipline is added when it can be declared and its component can be added. -/
theorem attempt_declare {name : String} {d : Discipline α} :
    m.attempt (.declare name d) = .ok m' ↔
      ∃ c, Component.declare name d = .ok c ∧ m.addUnit c = .ok m' := by
  dsimp only [attempt]
  cases Component.declare name d with
  | ok c => simp
  | error e => simp

/-- A call that succeeds adds a unit or connects two variables. -/
theorem step_of_attempt {call : Call α} (h : m.attempt call = .ok m') :
    (∃ c, m.addUnit c = .ok m') ∨ ∃ source target, m.connect source target = .ok m' := by
  cases call with
  | addUnit c => exact .inl ⟨c, h⟩
  | declare name d =>
    obtain ⟨c, -, hc⟩ := attempt_declare.1 h
    exact .inl ⟨c, hc⟩
  | connect source target => exact .inr ⟨source, target, h⟩

theorem after_append (calls : List (Call α)) (call : Call α) :
    after (calls ++ [call]) = (after calls).perform call := by
  rw [after, List.foldl_append]
  rfl

/-- **What calls that succeed keep holds after all calls**, failed ones included. -/
theorem after_induction {P : Model α → Prop} {calls : List (Call α)} (hempty : P .empty)
    (hstep : ∀ m m', ∀ call ∈ calls, P m → m.attempt call = .ok m' → P m') : P (after calls) := by
  induction calls using List.reverseRecOn with
  | nil => exact hempty
  | append_singleton calls call ih =>
    have hbefore : P (after calls) := ih fun m m' c hc =>
      hstep m m' c (List.mem_append_left _ hc)
    rw [after_append, perform_eq_attempt]
    cases hcall : (after calls).attempt call with
    | error e => exact hbefore
    | ok m' => exact hstep _ _ call (by simp) hbefore hcall

theorem Recorded.attempt (hm : m.Recorded) {call : Call α} (h : m.attempt call = .ok m') :
    m'.Recorded := by
  rcases step_of_attempt h with ⟨c, h⟩ | ⟨source, target, h⟩
  · exact hm.addUnit h
  · exact hm.connect h

theorem Converted.attempt (hm : m.Converted) {call : Call α} (h : m.attempt call = .ok m') :
    m'.Converted := by
  rcases step_of_attempt h with ⟨c, h⟩ | ⟨source, target, h⟩
  · exact hm.addUnit h
  · exact hm.connect h

theorem recorded_after (calls : List (Call α)) : (after calls).Recorded :=
  after_induction recorded_empty fun _ _ _ _ hm h => hm.attempt h

theorem converted_after (calls : List (Call α)) : (after calls).Converted :=
  after_induction converted_empty fun _ _ _ _ hm h => hm.attempt h

/-- What a call is given: disciplines that can be counted, and units that come from such. -/
def Call.Admissible : Call α → Prop
  | .addUnit c => ∃ d c', d.Addressable ∧ Component.declare c.name d = .ok c' ∧ c'.Alike c
  | .declare _ d => d.Addressable
  | .connect _ _ => True

theorem eq_ok_of_toOption {ε β : Type} {x : Except ε β} {b : β} (h : x.toOption = some b) :
    x = .ok b := by
  cases x with
  | ok b' => exact congrArg Except.ok (Option.some.inj h)
  | error e => cases h

/-- **A call that succeeds keeps a model sound.** -/
theorem Sound.attempt (hm : m.Sound) {call : Call α} (hcall : call.Admissible)
    (h : m.attempt call = .ok m') : m'.Sound := by
  cases call with
  | addUnit c =>
    obtain ⟨d, c', hd, hdeclare, halike⟩ := hcall
    have hc := (Component.isDeclared_of_declare hdeclare hd).alike halike
    exact hm.addUnit hc.self h
  | declare name d =>
    obtain ⟨c, hdeclare, hadd⟩ := attempt_declare.1 h
    exact hm.addUnit (Component.isDeclared_of_declare hdeclare hcall).self hadd
  | connect source target => exact hm.connect h

/-- **Every model that calls lead to is sound.** -/
theorem sound_after {calls : List (Call α)} (h : ∀ call ∈ calls, call.Admissible) :
    (after calls).Sound :=
  after_induction sound_empty fun _ _ call hcall hm => hm.attempt (h call hcall)

end Model

end Mdao
