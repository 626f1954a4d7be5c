import Mdao.Proofs.Graph.Canonical
import Mdao.Proofs.Model.WellFormed

/-!
# What is written down while a model is built

A model in the making is kept in several records that are written one after the other: the units and
an index of their names, the graph with its nodes, its edges between nodes, its registered inputs and
its sources, and the links. A `Ledger` has each of them by itself, and the calls that build a model
write to them in the order of the program, so that a call that failed halfway would leave its traces.

A ledger keeps a model when its records are those of the model (`Ledger.Keeps`). Every call does to
the ledger what it does to the model, and one that fails leaves it as it was (`Keeps.perform`). So
the records agree after all calls, failed ones included (`Ledger.agrees_run`).
-/

namespace Mdao

/-- An edge between two nodes, with the connection that it stands for. -/
structure Edge where
  /-- The node of the source. -/
  source : Nat
  /-- The node of the target. -/
  target : Nat
  /-- The connection. -/
  weight : Connection
  deriving DecidableEq

/-- The records of a model in the making. -/
structure Ledger (α : Type) where
  /-- The units. -/
  units : Array (Component α)
  /-- The positions of the units by name. -/
  index : String → Option Nat
  /-- The nodes of the graph. -/
  nodes : Array String
  /-- The positions of the nodes by name. -/
  nodeOf : String → Option Nat
  /-- The edges of the graph. -/
  edges : Array Edge
  /-- The inputs that are registered with the graph. -/
  inputs : Array Target
  /-- The sources that the graph has for inputs. -/
  sources : Target → Option Source
  /-- The links. -/
  links : Target → Option (Link α)

/-- A step that writes to a ledger and may fail. -/
abbrev Writing (α β : Type) : Type := EStateM (ModelError α) (Ledger α) β

namespace Ledger

open Model (Call Connects Recorded Converted targetsOf isUnitName positionIn)

variable {α : Type} [Scalar α]

/-! ### Writing -/

/-- The ledger of no units. -/
def empty : Ledger α :=
  ⟨#[], fun _ => none, #[], fun _ => none, #[], #[], fun _ => none, fun _ => none⟩

/-- A check that writes nothing. -/
def check {β : Type} : Except StructureError β → Writing α β
  | .ok b => pure b
  | .error e => throw (.core e)

/-- The node of a unit, which is added if there is none. -/
def ensureNode (name : String) : Writing α Nat := do
  match (← get).nodeOf name with
  | some i => return i
  | none =>
    let i := (← get).nodes.size
    modify fun l => { l with nodes := l.nodes.push name }
    modify fun l => { l with nodeOf := Function.update l.nodeOf name (some i) }
    return i

/-- Adds a unit. -/
def addUnit (c : Component α) : Writing α Unit := do
  if ((← get).index c.name).isSome then throw (.core (.duplicateUnit c.name))
  else if !isUnitName c.name then throw (.setup s!"invalid unit name '{c.name}'")
  else
    let _ ← ensureNode c.name
    modify fun l => { l with inputs := l.inputs ++ (targetsOf c).toArray }
    modify fun l => { l with index := Function.update l.index c.name (some l.units.size) }
    modify fun l => { l with units := l.units.push c }

/-- The unit that a path leads to, with the name of the variable. -/
def owner (l : Ledger α) (path : String) : Except StructureError (Component α × String) := do
  let (unit, name) ← splitPath path
  match (l.index unit).bind fun i => l.units[i]? with
  | some c => return (c, name)
  | none => throw (.unknownUnit unit)

/-- The output that a path leads to. -/
def output (l : Ledger α) (path : String) : Except StructureError (Source × Variable α) := do
  let (c, name) ← l.owner path
  let v ← Model.declared path name c.discipline.outputs
  return (⟨c.name, name⟩, v)

/-- The input that a path leads to. -/
def input (l : Ledger α) (path : String) : Except StructureError (Target × Variable α) := do
  let (c, name) ← l.owner path
  let v ← Model.declared path name c.discipline.inputs
  return (⟨c.name, name⟩, v)

/-- Adds a connection to the graph. -/
def addConnection (source : Source) (target : Target) : Writing α Unit := do
  match (← get).sources target with
  | some existing => throw (.core (.duplicateConnection target.path existing.path source.path))
  | none =>
    let i ← ensureNode source.owner
    let j ← ensureNode target.owner
    modify fun l => { l with sources := Function.update l.sources target (some source) }
    modify fun l => { l with edges := l.edges.push ⟨i, j, ⟨source, target⟩⟩ }

/-- Connects an output to an input, each given by its path. -/
def connect (source target : String) : Writing α Unit := do
  let (s, given) ← check ((← get).output source)
  let (t, wanted) ← check ((← get).input target)
  if given.size = wanted.size then
    let c ← check (Model.conversionBetween given wanted)
    addConnection s t
    modify fun l => { l with links := Function.update l.links t (some ⟨s, c.scale, c.offset⟩) }
  else throw (.core (.shapeMismatch target wanted.size given.size))

/-- Carries out a call. -/
def perform : Call α → Writing α Unit
  | .addUnit c => addUnit c
  | .declare name d => do addUnit (← check (Component.declare name d))
  | .connect source target => connect source target

/-- The ledger that calls leave behind; calls go on after one that failed, with what it has left. -/
def run (calls : List (Call α)) : Ledger α :=
  calls.foldl (fun l call => stateAfter (perform call l)) empty

/-! ### The records of a model -/

/-- The records of a ledger are those of a model. -/
structure Keeps (l : Ledger α) (m : Model α) : Prop where
  units : l.units = m.units
  index : l.index = m.position?
  nodes : l.nodes = m.graph.units
  nodeOf : l.nodeOf = m.graph.unit?
  edges : l.edges.map Edge.weight = m.graph.connections
  /-- An edge leads from the node of its source to that of its target. -/
  ends : ∀ e ∈ l.edges, l.nodeOf e.weight.source.owner = some e.source ∧
    l.nodeOf e.weight.target.owner = some e.target
  inputs : l.inputs = m.graph.inputs
  sources : l.sources = m.graph.sourceOf
  links : l.links = fun t => m.links.lookup t

variable {l : Ledger α} {m m' : Model α}

theorem keeps_empty : (empty : Ledger α).Keeps .empty where
  units := rfl
  index := by
    funext name
    simp [empty, Model.empty, Model.position?, positionIn]
  nodes := rfl
  nodeOf := by
    funext name
    simp [empty, Model.empty, Graph.empty, Graph.unit?]
  edges := by simp [empty, Model.empty, Graph.empty]
  ends := fun e he => by simp [empty] at he
  inputs := rfl
  sources := by
    funext t
    simp [empty, Model.empty, Graph.empty, Graph.sourceOf]
  links := rfl

omit [Scalar α] in
theorem get_bind {β : Type} (next : Ledger α → Writing α β) (l : Ledger α) :
    (get >>= next) l = next l l := rfl

omit [Scalar α] in
theorem ensureNode_of_some {name : String} {i : Nat} (h : l.nodeOf name = some i) :
    ensureNode name l = .ok i l := by
  unfold ensureNode
  rw [get_bind, h]
  rfl

omit [Scalar α] in
theorem ensureNode_of_none {name : String} (h : l.nodeOf name = none) :
    ensureNode name l = .ok l.nodes.size { l with
      nodes := l.nodes.push name
      nodeOf := Function.update l.nodeOf name (some l.nodes.size) } := by
  unfold ensureNode
  rw [get_bind, h]
  rfl

omit [Scalar α] in
/-- **Asking for a node** adds the unit to the graph if need be, and keeps all other nodes. -/
theorem Keeps.ensureNode (hk : l.Keeps m) (name : String) :
    ∃ i l', ensureNode name l = .ok i l' ∧
      l'.Keeps { m with graph := m.graph.ensureUnit name } ∧ l'.nodeOf name = some i ∧
      ∀ n j, l.nodeOf n = some j → l'.nodeOf n = some j := by
  cases hnode : l.nodeOf name with
  | some i =>
    have hgraph : m.graph.ensureUnit name = m.graph := by
      rw [Graph.ensureUnit, ← hk.nodeOf, hnode]
      rfl
    refine ⟨i, l, ensureNode_of_some hnode, ?_, hnode, fun _ _ h => h⟩
    rw [hgraph]
    exact hk
  | none =>
    have hfresh : m.graph.unit? name = none := by rw [← hk.nodeOf, hnode]
    have hgraph : m.graph.ensureUnit name = { m.graph with units := m.graph.units.push name } := by
      rw [Graph.ensureUnit, hfresh]
      rfl
    have hkept : ∀ n j, l.nodeOf n = some j →
        Function.update l.nodeOf name (some l.nodes.size) n = some j := by
      intro n j h
      have hne : n ≠ name := by
        rintro rfl
        rw [hnode] at h
        cases h
      rw [Function.update_of_ne hne, h]
    refine ⟨_, _, ensureNode_of_none hnode, ?_, Function.update_self .., hkept⟩
    rw [hgraph]
    exact { hk with
      nodes := by rw [hk.nodes]
      nodeOf := by
        rw [hk.nodeOf, hk.nodes]
        exact (findIdx?_push_of_fresh id hfresh).symm
      ends := fun e he => ⟨hkept _ _ (hk.ends e he).1, hkept _ _ (hk.ends e he).2⟩ }

/-! ### Calls -/

omit [Scalar α] in
/-- **Adding a unit to a ledger** adds it to the model, or fails as it does there and writes
nothing. -/
theorem Keeps.addUnit (hk : l.Keeps m) (c : Component α) :
    match m.addUnit c with
    | .ok m' => ∃ l', addUnit c l = .ok () l' ∧ l'.Keeps m'
    | .error e => addUnit c l = .error e l := by
  unfold Model.addUnit Ledger.addUnit
  rw [get_bind, hk.index]
  split_ifs with hname hvalid
  · rfl
  · rfl
  · obtain ⟨i, l', hl', hk', -, -⟩ := hk.ensureNode c.name
    have hfresh : m.position? c.name = none := by simpa using hname
    refine ⟨{ l' with
      inputs := l'.inputs ++ (targetsOf c).toArray
      index := Function.update l'.index c.name (some l'.units.size)
      units := l'.units.push c }, bind_of_ok _ hl',
      { hk' with units := ?_, index := ?_, inputs := ?_ }⟩
    · rw [hk'.units]
    · rw [hk'.index, hk'.units]
      exact (findIdx?_push_of_fresh Component.name hfresh).symm
    · rw [hk'.inputs]
      rfl

omit [Scalar α] in
theorem Keeps.owner_eq (hk : l.Keeps m) (path : String) : l.owner path = m.owner path := by
  unfold Ledger.owner Model.owner
  simp only [hk.index, hk.units, Model.unit?, Array.find?_eq_bind_findIdx?_getElem?]
  rfl

omit [Scalar α] in
theorem Keeps.output_eq (hk : l.Keeps m) (path : String) : l.output path = m.output path := by
  unfold Ledger.output Model.output
  rw [hk.owner_eq]

omit [Scalar α] in
theorem Keeps.input_eq (hk : l.Keeps m) (path : String) : l.input path = m.input path := by
  unfold Ledger.input Model.input
  rw [hk.owner_eq]

omit [Scalar α] in
/-- **Adding a connection to a ledger** adds it to the graph, or fails as it does there and writes
nothing. -/
theorem Keeps.addConnection (hk : l.Keeps m) (source : Source) (target : Target) :
    match m.graph.connect source target with
    | .ok g => ∃ l', addConnection source target l = .ok () l' ∧ l'.Keeps { m with graph := g }
    | .error e => addConnection source target l = .error (.core e) l := by
  unfold Graph.connect Ledger.addConnection
  rw [get_bind, hk.sources]
  cases hsource : m.graph.sourceOf target with
  | some existing => rfl
  | none =>
    obtain ⟨i, l1, hl1, hk1, hi, -⟩ := hk.ensureNode source.owner
    obtain ⟨j, l2, hl2, hk2, hj, hkept⟩ := hk1.ensureNode target.owner
    refine ⟨{ l2 with
      sources := Function.update l2.sources target (some source)
      edges := l2.edges.push ⟨i, j, ⟨source, target⟩⟩ }, ?_, { hk2 with
        edges := ?_, ends := fun e he => ?_, sources := ?_ }⟩
    · exact (bind_of_ok _ hl1).trans (bind_of_ok _ hl2)
    · rw [Array.map_push, hk2.edges]
    · rcases Array.mem_push.1 he with he | rfl
      · exact hk2.ends e he
      · exact ⟨hkept _ _ hi, hj⟩
    · rw [hk2.sources]
      funext t
      have hnone : m.graph.connections.find? (fun c => c.target = target) = none :=
        Option.map_eq_none_iff.1 hsource
      simp only [Function.update_apply, Graph.sourceOf, Array.find?_push,
        Graph.connections_ensureUnit]
      by_cases h : t = target
      · subst h
        simp [hnone]
      · simp [h, Ne.symm h]

/-- To connect two variables the link is made as in the model, and written to the graph and to the
links. -/
theorem Keeps.connect_eq (hk : l.Keeps m) (source target : String) :
    connect source target l = (check (m.makeLink source target) >>= fun made => do
      Ledger.addConnection made.2.source made.1
      modify fun l => { l with links := Function.update l.links made.1 (some made.2) }) l := by
  unfold Ledger.connect Model.makeLink
  rw [get_bind, hk.output_eq]
  cases m.output source with
  | error e => rfl
  | ok giver =>
    show (check (l.input target) >>= _) l = _
    rw [hk.input_eq]
    cases m.input target with
    | error e => rfl
    | ok taker =>
      show (if giver.2.size = taker.2.size then _ else _ : Writing α Unit) l =
        (check (if giver.2.size = taker.2.size then _ else _) >>= _) l
      split_ifs
      · cases Model.conversionBetween giver.2 taker.2 <;> rfl
      · rfl

/-- **Connecting two variables in a ledger** connects them in the model, or fails as it does there
and writes nothing. -/
theorem Keeps.connect (hk : l.Keeps m) (hm : m.Recorded) (source target : String) :
    match m.connect source target with
    | .ok m' => ∃ l', connect source target l = .ok () l' ∧ l'.Keeps m'
    | .error e => connect source target l = .error e l := by
  rw [hk.connect_eq]
  cases hlink : m.makeLink source target with
  | error e =>
    have hmodel : m.connect source target = .error (.core e) := by
      simp only [Model.connect, hlink, bind, Except.bind]
    rw [hmodel]
    rfl
  | ok made =>
    obtain ⟨t, link⟩ := made
    have hadd := hk.addConnection link.source t
    cases hconnect : m.graph.connect link.source t with
    | error e =>
      have hmodel : m.connect source target = .error (.core e) := by
        simp only [Model.connect, hlink, hconnect, bind, Except.bind]
      rw [hconnect] at hadd
      rw [hmodel]
      exact (bind_of_ok _ rfl).trans (bind_of_error _ hadd)
    | ok g =>
      have hmodel : m.connect source target =
          .ok { m with graph := g, links := m.links ++ [(t, link)] } := by
        simp only [Model.connect, hlink, hconnect, bind, Except.bind, pure, Except.pure]
      rw [hconnect] at hadd
      rw [hmodel]
      obtain ⟨l', hl', hk'⟩ := hadd
      refine ⟨{ l' with links := Function.update l'.links t (some link) },
        (bind_of_ok _ rfl).trans (bind_of_ok _ hl'), { hk' with links := ?_ }⟩
      have hfresh : m.links.lookup t = none := by
        rw [← Option.map_eq_none_iff, ← hm.sourceOf_eq]
        exact (Graph.eq_of_connect hconnect).1
      rw [hk'.links]
      funext t'
      show Function.update (fun t => List.lookup t m.links) t (some link) t' =
        List.lookup t' (m.links ++ [(t, link)])
      rw [List.lookup_append]
      by_cases h : t' = t
      · subst h
        simp [hfresh]
      · simp [h, beq_false_of_ne h, List.lookup]

/-- **A call does to a ledger what it does to the model**, and one that fails writes nothing. -/
theorem Keeps.perform (hk : l.Keeps m) (hm : m.Recorded) (call : Call α) :
    match m.attempt call with
    | .ok m' => ∃ l', perform call l = .ok () l' ∧ l'.Keeps m'
    | .error e => perform call l = .error e l := by
  cases call with
  | addUnit c => exact hk.addUnit c
  | declare name d =>
    dsimp only [Model.attempt, Ledger.perform]
    cases Component.declare name d with
    | error e => rfl
    | ok c => exact hk.addUnit c
  | connect source target => exact hk.connect hm source target

theorem run_append (calls : List (Call α)) (call : Call α) :
    run (calls ++ [call]) = stateAfter (perform call (run calls)) := by
  rw [run, List.foldl_append]
  rfl

/-- **After all calls a ledger keeps the model** that the calls lead to. -/
theorem keeps_run (calls : List (Call α)) : (run calls).Keeps (Model.after calls) := by
  induction calls using List.reverseRecOn with
  | nil => exact keeps_empty
  | append_singleton calls call ih =>
    have hperform := ih.perform (Model.recorded_after calls) call
    rw [run_append, Model.after_append, Model.perform_eq_attempt]
    cases hcall : (Model.after calls).attempt call with
    | ok m' =>
      simp only [hcall] at hperform
      obtain ⟨l', hl', hk'⟩ := hperform
      rw [hl']
      exact hk'
    | error e =>
      simp only [hcall] at hperform
      rw [hperform]
      exact ih

/-! ### Agreement -/

/-- **The records of a ledger agree.** -/
structure Agrees (l : Ledger α) : Prop where
  /-- Each node of the graph is the unit at its position. -/
  nodes : l.nodes = l.units.map Component.name
  /-- The index has each unit by its name, and nothing else. -/
  index : ∀ name i, l.index name = some i ↔ ∃ c, l.units[i]? = some c ∧ c.name = name
  /-- The graph has the same index. -/
  nodeOf : l.nodeOf = l.index
  /-- The inputs of all units are registered. -/
  inputs : l.inputs.toList = l.units.toList.flatMap targetsOf
  /-- The graph and the links have the same sources for the same targets. -/
  sources : ∀ t, l.sources t = (l.links t).map Link.source
  /-- A target with a source has one edge, from the unit of the source to its own. -/
  edge : ∀ t s, l.sources t = some s → ∃ i j, l.nodeOf s.owner = some i ∧
    l.nodeOf t.owner = some j ∧
    l.edges.toList.filter (fun e => e.weight.target = t) = [⟨i, j, ⟨s, t⟩⟩]
  /-- A target without a source has no edge. -/
  noEdge : ∀ t, l.sources t = none → ∀ e ∈ l.edges, e.weight.target ≠ t
  /-- A link leads from an output to an input of the same size, with the conversion between them. -/
  links : ∀ t link, l.links t = some link → ∃ giver given taker taken,
    Connects l.units t link giver given taker taken ∧
      Model.conversionBetween given taken = .ok ⟨link.scale, link.offset⟩

/-- Where keys differ, an element is the only one with its key. -/
theorem filter_key_eq {β κ : Type} [DecidableEq κ] (key : β → κ) {xs : List β}
    (h : (xs.map key).Nodup) {x : β} (hx : x ∈ xs) : xs.filter (fun y => key y = key x) = [x] := by
  induction xs with
  | nil => cases hx
  | cons y xs ih =>
    obtain ⟨hy, hxs⟩ := List.nodup_cons.1 h
    rcases List.mem_cons.1 hx with rfl | hx
    · have hnone : xs.filter (fun y => key y = key x) = [] :=
        List.filter_eq_nil_iff.2 fun z hz => by
          simpa using fun hkey : key z = key x => hy (List.mem_map.2 ⟨z, hz, hkey⟩)
      rw [List.filter_cons_of_pos (by simp), hnone]
    · have hne : key y ≠ key x := fun hkey => hy (List.mem_map.2 ⟨x, hx, hkey.symm⟩)
      rw [List.filter_cons_of_neg (by simpa using hne), ih hxs hx]

omit [Scalar α] in
theorem Keeps.index_iff (hk : l.Keeps m) (hm : m.Recorded) (name : String) (i : Nat) :
    l.index name = some i ↔ ∃ c, l.units[i]? = some c ∧ c.name = name := by
  rw [hk.index, hk.units]
  constructor
  · intro h
    obtain ⟨c, hc, hname⟩ := getElem?_of_findIdx? h
    exact ⟨c, hc, eq_of_beq hname⟩
  · rintro ⟨c, hc, rfl⟩
    exact findIdx?_of_nodup hm.names hc

omit [Scalar α] in
theorem Keeps.nodeOf_eq_index (hk : l.Keeps m) (hm : m.Recorded) : l.nodeOf = l.index := by
  rw [hk.nodeOf, hk.index]
  funext name
  rw [Graph.unit?, hm.graph, Array.findIdx?_map]
  rfl

omit [Scalar α] in
/-- The targets of edges are those of links, one by one. -/
theorem Keeps.nodup_targets (hk : l.Keeps m) (hm : m.Recorded) :
    (l.edges.toList.map fun e => e.weight.target).Nodup := by
  have htargets : l.edges.toList.map (fun e => e.weight.target) = m.links.map Prod.fst := by
    have hconnections := hm.connections
    rw [← hk.edges, Array.toList_map] at hconnections
    have := congrArg (List.map Connection.target) hconnections
    rwa [List.map_map, List.map_map] at this
  rw [htargets]
  exact hm.targets

omit [Scalar α] in
/-- A source of the graph stands on an edge. -/
theorem Keeps.sources_eq_some (hk : l.Keeps m) {t : Target} {s : Source} (h : l.sources t = some s) :
    ∃ e ∈ l.edges, e.weight = ⟨s, t⟩ := by
  rw [hk.sources] at h
  obtain ⟨c, hc, rfl⟩ := Option.map_eq_some_iff.1 h
  have hmem := Array.mem_of_find?_eq_some hc
  have htarget : c.target = t := by simpa using Array.find?_some hc
  rw [← hk.edges] at hmem
  obtain ⟨e, he, rfl⟩ := Array.mem_map.1 hmem
  exact ⟨e, he, by rw [← htarget]⟩

omit [Scalar α] in
/-- **A target with a source has exactly one edge**, from the node of the source's unit. -/
theorem Keeps.edge (hk : l.Keeps m) (hm : m.Recorded) {t : Target} {s : Source}
    (h : l.sources t = some s) : ∃ i j, l.nodeOf s.owner = some i ∧ l.nodeOf t.owner = some j ∧
      l.edges.toList.filter (fun e => e.weight.target = t) = [⟨i, j, ⟨s, t⟩⟩] := by
  obtain ⟨⟨i, j, c⟩, he, rfl⟩ := hk.sources_eq_some h
  obtain ⟨hi, hj⟩ := hk.ends _ he
  exact ⟨i, j, hi, hj, filter_key_eq _ (hk.nodup_targets hm) (Array.mem_toList_iff.2 he)⟩

omit [Scalar α] in
theorem Keeps.noEdge (hk : l.Keeps m) {t : Target} (h : l.sources t = none) {e : Edge}
    (he : e ∈ l.edges) : e.weight.target ≠ t := by
  rw [hk.sources] at h
  have hmem : e.weight ∈ m.graph.connections := by
    rw [← hk.edges]
    exact Array.mem_map.2 ⟨e, he, rfl⟩
  simpa using Array.find?_eq_none.1 (Option.map_eq_none_iff.1 h) _ hmem

/-- **The records of a ledger agree where it keeps a model.** -/
theorem Keeps.agrees (hk : l.Keeps m) (hm : m.Recorded) (hc : m.Converted) : l.Agrees where
  nodes := by rw [hk.nodes, hm.graph, hk.units]
  index := hk.index_iff hm
  nodeOf := hk.nodeOf_eq_index hm
  inputs := by rw [hk.inputs, hm.inputs, hk.units]
  sources t := by rw [hk.sources, hm.sourceOf_eq, hk.links]
  edge _ _ h := hk.edge hm h
  noEdge _ h _ he := hk.noEdge h he
  links t link h := by
    rw [hk.links] at h
    rw [hk.units]
    exact hc t link (Model.mem_of_lookup h)

/-- **Building a model is atomic, and its records agree.** After all calls, failed ones included,
the records of the ledger agree, and they are those of the model; whatever call comes next, if it
fails the ledger is what it was. -/
theorem agrees_run (calls : List (Call α)) :
    (run calls).Agrees ∧ (run calls).Keeps (Model.after calls) ∧
      ∀ call e l', perform call (run calls) = .error e l' → l' = run calls := by
  have hk := keeps_run calls
  have hm := Model.recorded_after calls
  refine ⟨hk.agrees hm (Model.converted_after calls), hk, fun call e l' h => ?_⟩
  have hperform := hk.perform hm call
  cases hcall : (Model.after calls).attempt call with
  | ok m' =>
    simp only [hcall] at hperform
    obtain ⟨l'', hl'', -⟩ := hperform
    rw [hl''] at h
    cases h
  | error e' =>
    simp only [hcall] at hperform
    rw [hperform] at h
    cases h
    rfl

end Ledger

namespace Doubling

/-- The one input of the chain that has a source. -/
def fed : Target := ⟨"taker", "y"⟩

/-- After the calls of the chain, three of which fail, a second source for the input is refused and
the ledger is what it was: the only edge of the input comes from the unit that doubles. -/
theorem ledger_of_chain :
    (∃ e, Ledger.perform (.connect "double.y" "taker.y") (Ledger.run chainCalls) =
      .error e (Ledger.run chainCalls)) ∧
    (Ledger.run chainCalls).edges.toList.filter (fun e => e.weight.target = fed) =
      [⟨1, 0, ⟨⟨"double", "y"⟩, fed⟩⟩] := by
  obtain ⟨hagrees, -, hatomic⟩ := Ledger.agrees_run chainCalls
  have hfails : isResult (Ledger.perform (.connect "double.y" "taker.y") (Ledger.run chainCalls)) =
      false := by with_unfolding_all decide
  constructor
  · cases hcall : Ledger.perform (.connect "double.y" "taker.y") (Ledger.run chainCalls) with
    | ok u l' =>
      rw [hcall] at hfails
      cases hfails
    | error e l' =>
      obtain rfl := hatomic _ e l' hcall
      exact ⟨e, rfl⟩
  · have hsource : (Ledger.run chainCalls).sources fed = some ⟨"double", "y"⟩ := by
      with_unfolding_all decide
    have hgiver : (Ledger.run chainCalls).nodeOf "double" = some 1 := by with_unfolding_all decide
    have htaker : (Ledger.run chainCalls).nodeOf "taker" = some 0 := by with_unfolding_all decide
    obtain ⟨i, j, hi, hj, hedge⟩ := hagrees.edge fed _ hsource
    obtain rfl := Option.some.inj (hgiver.symm.trans hi)
    obtain rfl := Option.some.inj (htaker.symm.trans hj)
    exact hedge

end Doubling

end Mdao
