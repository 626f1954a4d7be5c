import Mdao.Proofs.Jacobian.MatrixFree
import Mdao.Proofs.Model.Groups
import Mdao.Proofs.Store

/-!
# How a model is laid out

`Model.layOut` registers the outputs of all units, then the inputs, and then routes the inputs one
after the other. No two variables have one path (`Sound.nodup_paths`), so each of the three passes
succeeds; it has one theorem about a step and one about all steps:

* outputs take consecutive runs of slots, one run for each unit (`placeOutputs_spec`);
* inputs are registered under fresh ids and take consecutive places (`placeInputs_spec`);
* a connected input is routed from the slots of its source, entry by entry, and any other gets slots
  of its own behind all others (`routeInput_spec`, `routeUnits_spec`).

`Model.Laid` collects what holds at the end.
-/

namespace Mdao.Model

open Store

variable {α : Type} [Scalar α] {m : Model α} {s s' : Store α}

/-! ### Paths -/

omit [Scalar α] in
theorem toList_pathOf (c : Component α) (v : Variable α) :
    (pathOf c v).toList = c.name.toList ++ '.' :: v.name.toList := by
  simp [pathOf, toString]

/-- Where a mark is in neither beginning, it tells them from what follows. -/
theorem append_cons_inj {β : Type} {x : β} {a a' b b' : List β} (ha : x ∉ a) (ha' : x ∉ a')
    (h : a ++ x :: b = a' ++ x :: b') : a = a' ∧ b = b' := by
  induction a generalizing a' with
  | nil =>
    cases a' with
    | nil => exact ⟨rfl, (List.cons.inj h).2⟩
    | cons y a' =>
      obtain ⟨rfl, -⟩ := List.cons.inj h
      exact absurd List.mem_cons_self ha'
  | cons y a ih =>
    cases a' with
    | nil =>
      obtain ⟨rfl, -⟩ := List.cons.inj h
      exact absurd List.mem_cons_self ha
    | cons y' a' =>
      obtain ⟨rfl, hrest⟩ := List.cons.inj h
      obtain ⟨rfl, rfl⟩ := ih (fun hx => ha (List.mem_cons_of_mem _ hx))
        (fun hx => ha' (List.mem_cons_of_mem _ hx)) hrest
      exact ⟨rfl, rfl⟩

omit [Scalar α] in
/-- **A path tells the unit and the variable** where names of units have no point. -/
theorem pathOf_inj {c c' : Component α} {v v' : Variable α} (hc : '.' ∉ c.name.toList)
    (hc' : '.' ∉ c'.name.toList) (h : pathOf c v = pathOf c' v') :
    c.name = c'.name ∧ v.name = v'.name := by
  have hlists := congrArg String.toList h
  rw [toList_pathOf, toList_pathOf] at hlists
  obtain ⟨h1, h2⟩ := append_cons_inj hc hc' hlists
  exact ⟨String.ext h1, String.ext h2⟩

omit [Scalar α] in
theorem nodup_map_pathOf {c : Component α} {vs : List (Variable α)} (hc : '.' ∉ c.name.toList)
    (hvs : (vs.map Variable.name).Nodup) : (vs.map (pathOf c)).Nodup :=
  List.pairwise_map.2 ((List.pairwise_map.1 hvs).imp fun hne heq => hne (pathOf_inj hc hc heq).2)

/-- The paths of the outputs of some units. -/
def outputPaths (m : Model α) (us : List Nat) : List String :=
  us.flatMap fun u => (m.units[u]?.toList).flatMap fun c => c.discipline.outputs.map (pathOf c)

/-- The paths of the inputs of some units. -/
def inputPaths (cs : List (Component α)) : List String :=
  cs.flatMap fun c => c.discipline.inputs.map (pathOf c)

omit [Scalar α] in
theorem mem_outputPaths {us : List Nat} {path : String} (h : path ∈ m.outputPaths us) :
    ∃ u ∈ us, ∃ c, m.units[u]? = some c ∧ ∃ v ∈ c.discipline.outputs, pathOf c v = path := by
  obtain ⟨u, hu, h⟩ := List.mem_flatMap.1 h
  obtain ⟨c, hc, h⟩ := List.mem_flatMap.1 h
  obtain ⟨v, hv, rfl⟩ := List.mem_map.1 h
  exact ⟨u, hu, c, by simpa using hc, v, hv, rfl⟩

omit [Scalar α] in
/-- **The unit at a position is told by its paths**, and so are its variables up to their names. -/
theorem Sound.eq_of_pathOf (hm : m.Sound) {u u' : Nat} {c c' : Component α} {v v' : Variable α}
    (hu : m.units[u]? = some c) (hu' : m.units[u']? = some c') (h : pathOf c v = pathOf c' v') :
    u = u' ∧ c = c' ∧ v.name = v'.name := by
  have hc := Array.mem_of_getElem? hu
  have hc' := Array.mem_of_getElem? hu'
  obtain ⟨hname, hv⟩ := pathOf_inj (hm.pointless c hc) (hm.pointless c' hc') h
  obtain rfl := eq_of_key_eq hm.names hc hc' hname
  have hposition := hm.position?_name hu
  rw [hm.position?_name hu'] at hposition
  exact ⟨(Option.some.inj hposition).symm, rfl, hv⟩

omit [Scalar α] in
theorem Sound.nodup_outputPaths (hm : m.Sound) {order : List Nat} (horder : order.Nodup) :
    (m.outputPaths order).Nodup := by
  refine List.nodup_flatMap.2 ⟨fun u hu => ?_, horder.imp fun {u u'} hne => ?_⟩
  · cases hc : m.units[u]? with
    | none => simp
    | some c =>
      have hmem := Array.mem_of_getElem? hc
      simpa using nodup_map_pathOf (hm.pointless c hmem) (hm.declared c hmem).nodup_outputs
  · rw [Function.onFun, List.disjoint_left]
    intro path h h'
    have hpath : path ∈ m.outputPaths [u] := by simpa [outputPaths] using h
    have hpath' : path ∈ m.outputPaths [u'] := by simpa [outputPaths] using h'
    obtain ⟨w, hw, c, hc, v, -, rfl⟩ := mem_outputPaths hpath
    obtain ⟨w', hw', c', hc', v', -, heq⟩ := mem_outputPaths hpath'
    rw [List.mem_singleton] at hw hw'
    exact hne (hw ▸ hw' ▸ (hm.eq_of_pathOf hc hc' heq.symm).1)

omit [Scalar α] in
theorem Sound.nodup_inputPaths (hm : m.Sound) : (inputPaths m.units.toList).Nodup := by
  refine List.nodup_flatMap.2 ⟨fun c hc => ?_, ?_⟩
  · have hmem : c ∈ m.units := by simpa using hc
    exact nodup_map_pathOf (hm.pointless c hmem) (hm.declared c hmem).nodup_inputs
  · refine (List.pairwise_map.1 hm.names).imp_of_mem fun {c c'} hc hc' hne => ?_
    rw [Function.onFun, List.disjoint_left]
    intro path h h'
    obtain ⟨v, -, rfl⟩ := List.mem_map.1 h
    obtain ⟨v', -, heq⟩ := List.mem_map.1 h'
    exact hne (pathOf_inj (hm.pointless c (by simpa using hc))
      (hm.pointless c' (by simpa using hc')) heq.symm).1

omit [Scalar α] in
/-- **No two variables of a model have one path.** -/
theorem Sound.nodup_paths (hm : m.Sound) {order : List Nat} (horder : order.Nodup) :
    (m.outputPaths order ++ inputPaths m.units.toList).Nodup := by
  refine List.nodup_append.2 ⟨hm.nodup_outputPaths horder, hm.nodup_inputPaths,
    fun path hout path' hin heq => ?_⟩
  obtain ⟨u, -, c, hc, v, hv, rfl⟩ := mem_outputPaths hout
  obtain ⟨c', hc', hin⟩ := List.mem_flatMap.1 hin
  obtain ⟨v', hv', rfl⟩ := List.mem_map.1 hin
  obtain ⟨u', hu'⟩ := Array.getElem?_of_mem (Array.mem_toList_iff.1 hc')
  obtain ⟨-, rfl, hname⟩ := hm.eq_of_pathOf hc hu' heq
  refine (hm.declared c (Array.mem_of_getElem? hc)).disjoint v hv ?_
  rw [hname]
  exact List.mem_map.2 ⟨v', hv', rfl⟩

/-! ### Outputs -/

/-- An entry of the store is an output of a unit, with these slots. -/
structure HoldsOutput (c : Component α) (v : Variable α) (r : Span) (e : Entry α) : Prop where
  name : e.name = pathOf c v
  kind : e.kind = .output
  declared : e.declared = v
  slots : e.slots? = some r

/-- The outputs of a unit have slots one after the other. -/
def OutputsAt (s : Store α) (c : Component α) (start : Nat) : Prop :=
  ∀ v r, (v, r) ∈ Variable.placed start c.discipline.outputs →
    ∃ (i : Nat) (e : Entry α), s.entries[i]? = some e ∧ HoldsOutput c v r e

omit [Scalar α] in
theorem HoldsOutput.becomes {c : Component α} {v : Variable α} {r : Span} {e e' : Entry α}
    (h : HoldsOutput c v r e) (hb : e.Becomes e') : HoldsOutput c v r e' :=
  ⟨hb.name.trans h.name, hb.kind.trans h.kind, hb.declared.trans h.declared, hb.slots r h.slots⟩

omit [Scalar α] in
theorem OutputsAt.grows {c : Component α} {start : Nat} (h : OutputsAt s c start)
    (hg : s.Grows s') : OutputsAt s' c start := by
  intro v r hv
  obtain ⟨i, e, he, hout⟩ := h v r hv
  obtain ⟨e', he', hb⟩ := hg.entries i e he
  exact ⟨i, e', he', hout.becomes hb⟩

/-- What registering outputs of a unit does: they take consecutive slots. -/
structure RegistersOutputs (c : Component α) (vs : List (Variable α)) (s s' : Store α) :
    Prop where
  registers : s.Registers s' (vs.map (pathOf c))
  inputs : s'.inputs = s.inputs
  size : s'.slots.size = s.slots.size + (vs.map Variable.size).sum
  holds : ∀ v r, (v, r) ∈ Variable.placed s.slots.size vs →
    ∃ (i : Nat) (e : Entry α), s'.entries[i]? = some e ∧ HoldsOutput c v r e

/-- Registering outputs of a unit gives them consecutive slots. -/
theorem registerOutputs_spec {c : Component α} {vs : List (Variable α)} (hs : s.Sound)
    (hfresh : (s.names ++ vs.map (pathOf c)).Nodup) (hv : ∀ v ∈ vs, v.value.size = v.size) :
    ∃ s', registerOutputs c s vs = .ok s' ∧ RegistersOutputs c vs s s' := by
  induction vs generalizing s with
  | nil => exact ⟨s, rfl, .nil hs, rfl, rfl, by simp [Variable.placed]⟩
  | cons v vs ih =>
    have hname : pathOf c v ∉ s.names := fun hmem =>
      (List.nodup_append.1 hfresh).2.2 _ hmem _ List.mem_cons_self rfl
    obtain ⟨s1, hadd, hreg1, hentries, hinputs1, hsize1⟩ :=
      addOutput_spec hs hname (hv v List.mem_cons_self)
    obtain ⟨s', hrest, h⟩ := ih hreg1.sound (by rw [hreg1.names, List.append_assoc]; exact hfresh)
      fun w hw => hv w (List.mem_cons_of_mem _ hw)
    refine ⟨s', by simp only [registerOutputs, hadd, hrest], hreg1.trans h.registers,
      h.inputs.trans hinputs1, ?_, fun w r hw => ?_⟩
    · rw [h.size, hsize1, List.map_cons, List.sum_cons, Nat.add_assoc]
    · rcases List.mem_cons.1 hw with heq | hw
      · cases heq
        have hnew : s1.entries[s.entries.size]? = some (s.outputEntry (pathOf c v) v) := by
          rw [hentries, Array.getElem?_push_size]
        obtain ⟨e', he', hb⟩ := h.registers.grows.entries _ _ hnew
        have hout : HoldsOutput c v ⟨s.slots.size, s.slots.size + v.size⟩
          (s.outputEntry (pathOf c v) v) := ⟨rfl, rfl, rfl, rfl⟩
        exact ⟨_, e', he', hout.becomes hb⟩
      · rw [← hsize1] at hw
        exact h.holds w r hw

/-- What registering the outputs of units does. -/
structure PlacesOutputs (m : Model α) (us : List Nat) (s s' : Store α)
    (outs : List (Nat × Span)) : Prop where
  registers : s.Registers s' (m.outputPaths us)
  inputs : s'.inputs = s.inputs
  units : outs.map Prod.fst = us
  /-- Each unit has one run, and the runs follow one another. -/
  tile : Span.Tile s.slots.size (outs.map Prod.snd) s'.slots.size
  holds : ∀ u span, (u, span) ∈ outs → ∀ c, m.units[u]? = some c →
    OutputsAt s' c span.start ∧ span.stop = span.start + c.outputs.size

/-- **Outputs take consecutive runs of slots, unit by unit in the given order.** -/
theorem placeOutputs_spec (hm : m.Sound) {us : List Nat} (hs : s.Sound)
    (hus : ∀ u ∈ us, u < m.units.size) (hfresh : (s.names ++ m.outputPaths us).Nodup) :
    ∃ s' outs, m.placeOutputs s us = .ok (s', outs) ∧ PlacesOutputs m us s s' outs := by
  induction us generalizing s with
  | nil => exact ⟨s, [], rfl, .nil hs, rfl, rfl, rfl, by simp⟩
  | cons u us ih =>
    have hu := hus u List.mem_cons_self
    have hget := Array.getElem?_eq_getElem hu
    have hc := hm.declared _ (Array.getElem_mem hu)
    have hpaths : m.outputPaths (u :: us) =
        m.units[u].discipline.outputs.map (pathOf m.units[u]) ++ m.outputPaths us := by
      simp [outputPaths, hget]
    rw [hpaths, ← List.append_assoc] at hfresh
    obtain ⟨s1, hregister, h1⟩ :=
      registerOutputs_spec hs (List.nodup_append.1 hfresh).1 hc.value_outputs
    obtain ⟨s', others, hrest, h⟩ := ih h1.registers.sound
      (fun w hw => hus w (List.mem_cons_of_mem _ hw)) (by rw [h1.registers.names]; exact hfresh)
    refine ⟨s', (u, ⟨s.slots.size, s1.slots.size⟩) :: others, ?_,
      hpaths ▸ h1.registers.trans h.registers, h.inputs.trans h1.inputs, by rw [List.map_cons, h.units],
      ⟨rfl, h1.registers.grows.slots, h.tile⟩, fun w span hw c hcw => ?_⟩
    · unfold placeOutputs
      simp only [hget]
      exact bind_eq_ok.2 ⟨s1, hregister, bind_eq_ok.2 ⟨_, hrest, rfl⟩⟩
    · rcases List.mem_cons.1 hw with heq | hw
      · cases heq
        rw [hget] at hcw
        cases hcw
        exact ⟨OutputsAt.grows h1.holds h.registers.grows, by rw [hc.size_outputs]; exact h1.size⟩
      · exact h.holds w span hw c hcw

/-! ### Inputs -/

/-- An entry of the store is an input of a unit that has no slots yet. -/
structure Waits (c : Component α) (v : Variable α) (e : Entry α) : Prop where
  name : e.name = pathOf c v
  kind : e.kind = .input
  declared : e.declared = v
  slots : e.slots? = none

/-- The inputs of a unit have places one after the other. -/
def InputsAt (s : Store α) (c : Component α) (start : Nat) : Prop :=
  ∀ v r, (v, r) ∈ Variable.placed start c.discipline.inputs → s.placeOf (pathOf c v) = some r

/-- Variables stay exactly as they are. -/
def Keeps (s s' : Store α) : Prop :=
  ∀ (i : Nat) (e : Entry α), s.entries[i]? = some e → s'.entries[i]? = some e

omit [Scalar α] in
theorem InputsAt.grows {c : Component α} {start : Nat} (h : InputsAt s c start)
    (hg : s.Grows s') (hs' : s'.Sound) : InputsAt s' c start :=
  fun v r hv => hg.placeOf hs'.names (h v r hv)

omit [Scalar α] in
theorem keeps_push {e : Entry α} (h : s'.entries = s.entries.push e) : Keeps s s' := by
  intro i e' he'
  obtain ⟨hlt, -⟩ := Array.getElem?_eq_some_iff.1 he'
  rw [h, Array.getElem?_push, if_neg (by omega)]
  exact he'

/-- What registering inputs of a unit does: they take the next ids and consecutive places, and no
slots. -/
structure RegistersInputs (c : Component α) (vs : List (Variable α)) (s s' : Store α)
    (given : List Nat) : Prop where
  registers : s.Registers s' (vs.map (pathOf c))
  keeps : Keeps s s'
  slots : s'.slots = s.slots
  ids : given = List.range' s.entries.size vs.length
  count : s'.entries.size = s.entries.size + vs.length
  size : s'.inputs.size = s.inputs.size + (vs.map Variable.size).sum
  waits : ∀ v i, (v, i) ∈ vs.zip given → ∃ e, s'.entries[i]? = some e ∧ Waits c v e
  places : ∀ v r, (v, r) ∈ Variable.placed s.inputs.size vs → s'.placeOf (pathOf c v) = some r

omit [Scalar α] in
/-- Registering inputs of a unit gives them the next ids and consecutive places. -/
theorem registerInputs_spec {c : Component α} {vs : List (Variable α)} (hs : s.Sound)
    (hfresh : (s.names ++ vs.map (pathOf c)).Nodup) (hv : ∀ v ∈ vs, v.value.size = v.size) :
    ∃ s' ids, registerInputs c s vs = .ok (s', ids) ∧ RegistersInputs c vs s s' ids := by
  induction vs generalizing s with
  | nil =>
    exact ⟨s, [], rfl, .nil hs, fun _ _ he => he, rfl, rfl, rfl, rfl, by simp,
      by simp [Variable.placed]⟩
  | cons v vs ih =>
    have hname : pathOf c v ∉ s.names := fun hmem =>
      (List.nodup_append.1 hfresh).2.2 _ hmem _ List.mem_cons_self rfl
    obtain ⟨s1, hadd, hreg1, hentries, hslots1, hsize1⟩ :=
      addInput_spec hs hname (hv v List.mem_cons_self)
    obtain ⟨s', ids, hrest, h⟩ := ih hreg1.sound
      (by rw [hreg1.names, List.append_assoc]; exact hfresh)
      fun w hw => hv w (List.mem_cons_of_mem _ hw)
    have hcount1 : s1.entries.size = s.entries.size + 1 := by rw [hentries, Array.size_push]
    have hnew : s1.entries[s.entries.size]? = some (s.inputEntry (pathOf c v) v) := by
      rw [hentries, Array.getElem?_push_size]
    refine ⟨s', s.entries.size :: ids, by simp only [registerInputs, hadd, hrest],
      hreg1.trans h.registers, fun i e he => h.keeps i e (keeps_push hentries i e he),
      h.slots.trans hslots1, ?_, ?_, ?_, fun w i hw => ?_, fun w r hw => ?_⟩
    · rw [h.ids, hcount1, List.length_cons, List.range'_succ]
    · rw [h.count, hcount1, List.length_cons]
      omega
    · rw [h.size, hsize1, List.map_cons, List.sum_cons, Nat.add_assoc]
    · rw [List.zip_cons_cons] at hw
      rcases List.mem_cons.1 hw with heq | hw
      · cases heq
        exact ⟨_, h.keeps _ _ hnew, rfl, rfl, rfl, rfl⟩
      · exact h.waits w i hw
    · rcases List.mem_cons.1 hw with heq | hw
      · cases heq
        exact placeOf_name h.registers.sound.names (h.keeps _ _ hnew)
      · rw [← hsize1] at hw
        exact h.places w r hw

/-- The inputs of one unit wait for their routes under the ids that were given. -/
structure PlacedInputs.Waiting (s : Store α) (p : PlacedInputs α) : Prop where
  length : p.ids.length = p.owner.discipline.inputs.length
  waits : ∀ v i, (v, i) ∈ p.owner.discipline.inputs.zip p.ids →
    ∃ e, s.entries[i]? = some e ∧ Waits p.owner v e

/-- The inputs of one unit are in the places that were given. -/
structure PlacedInputs.InPlace (s : Store α) (p : PlacedInputs α) : Prop where
  at_start : InputsAt s p.owner p.range.start
  stop : p.range.stop = p.range.start + (p.owner.discipline.inputs.map Variable.size).sum

/-- What registering the inputs of units does. -/
structure PlacesInputs (cs : List (Component α)) (s s' : Store α) (ps : List (PlacedInputs α)) :
    Prop where
  registers : s.Registers s' (inputPaths cs)
  keeps : Keeps s s'
  slots : s'.slots = s.slots
  owners : ps.map PlacedInputs.owner = cs
  ids : ∃ count, ps.flatMap PlacedInputs.ids = List.range' s.entries.size count
  waiting : ∀ p ∈ ps, p.Waiting s'
  /-- Each unit has one run, and the runs follow one another. -/
  tile : Span.Tile s.inputs.size (ps.map PlacedInputs.range) s'.inputs.size
  inPlace : ∀ p ∈ ps, p.InPlace s'

omit [Scalar α] in
/-- **All inputs are registered under fresh ids, in consecutive places, and have no slots.** -/
theorem placeInputs_spec (cs : List (Component α)) (hs : s.Sound)
    (hfresh : (s.names ++ inputPaths cs).Nodup)
    (hv : ∀ c ∈ cs, ∀ v ∈ c.discipline.inputs, v.value.size = v.size) :
    ∃ s' ps, placeInputs s cs = .ok (s', ps) ∧ PlacesInputs cs s s' ps := by
  induction cs generalizing s with
  | nil =>
    exact ⟨s, [], rfl, .nil hs, fun _ _ he => he, rfl, rfl, ⟨0, rfl⟩, by simp, rfl, by simp⟩
  | cons c cs ih =>
    have hpaths : inputPaths (c :: cs) = c.discipline.inputs.map (pathOf c) ++ inputPaths cs := rfl
    rw [hpaths, ← List.append_assoc] at hfresh
    obtain ⟨s1, ids, hregister, h1⟩ := registerInputs_spec hs (List.nodup_append.1 hfresh).1
      (hv c List.mem_cons_self)
    obtain ⟨s', others, hrest, h⟩ := ih h1.registers.sound
      (by rw [h1.registers.names]; exact hfresh) fun d hd => hv d (List.mem_cons_of_mem _ hd)
    obtain ⟨count, hcount⟩ := h.ids
    refine ⟨s', ⟨c, ⟨s.inputs.size, s1.inputs.size⟩, ids⟩ :: others,
      bind_eq_ok.2 ⟨_, hregister, bind_eq_ok.2 ⟨_, hrest, rfl⟩⟩,
      hpaths ▸ h1.registers.trans h.registers, fun i e he => h.keeps i e (h1.keeps i e he),
      h.slots.trans h1.slots, by rw [List.map_cons, h.owners],
      ⟨c.discipline.inputs.length + count, ?_⟩, fun p hp => ?_,
      ⟨rfl, ?_, h.tile⟩, fun p hp => ?_⟩
    · rw [List.flatMap_cons, hcount, h1.ids, h1.count, List.range'_append_1]
    · rcases List.mem_cons.1 hp with rfl | hp
      · refine ⟨by simp [h1.ids], fun v i hv => ?_⟩
        obtain ⟨e, he, hw⟩ := h1.waits v i hv
        exact ⟨e, h.keeps i e he, hw⟩
      · exact h.waiting p hp
    · dsimp only
      rw [h1.size]
      exact Nat.le_add_right _ _
    · rcases List.mem_cons.1 hp with rfl | hp
      · exact ⟨InputsAt.grows h1.places h.registers.grows h.registers.sound, h1.size⟩
      · exact h.inPlace p hp

/-! ### Routes -/

/-- What an input is fed from: the path of a variable with slots, and the conversion on the way. -/
def feedOf (m : Model α) (c : Component α) (v : Variable α) : String × α × α :=
  match m.links.lookup ⟨c.name, v.name⟩ with
  | some link => (link.source.path, link.scale, link.offset)
  | none => (pathOf c v, 1, 0)

/-- The routes of an input, entry by entry from the slots it is fed from. -/
def routesOf (m : Model α) (s : Store α) (c : Component α) (v : Variable α) : List (Route α) :=
  routesFrom ((s.slotsOf (m.feedOf c v).1).getD ⟨0, 0⟩) (m.feedOf c v).2.1 (m.feedOf c v).2.2

/-- An input is fed from as many slots as it has entries. -/
def IsFed (m : Model α) (s : Store α) (c : Component α) (v : Variable α) : Prop :=
  ∃ r, s.slotsOf (m.feedOf c v).1 = some r ∧ r.size = v.size

theorem IsFed.grows {c : Component α} {v : Variable α} (h : m.IsFed s c v) (hg : s.Grows s')
    (hs' : s'.Sound) : m.IsFed s' c v ∧ m.routesOf s' c v = m.routesOf s c v := by
  obtain ⟨r, hr, hsize⟩ := h
  have hr' := hg.slotsOf hs'.names hr
  exact ⟨⟨r, hr', hsize⟩, by simp only [routesOf, hr, hr']⟩

omit [Scalar α] in
@[simp] theorem length_routesFrom (slots : Span) (scale offset : α) :
    (routesFrom slots scale offset).length = slots.size := by
  simp [routesFrom]

theorem IsFed.length_routesOf {c : Component α} {v : Variable α} (h : m.IsFed s c v) :
    (m.routesOf s c v).length = v.size := by
  obtain ⟨r, hr, hsize⟩ := h
  rw [routesOf, hr, length_routesFrom]
  exact hsize

/-- The paths of the inputs of units that nothing is connected to. -/
def independentPaths (m : Model α) (cs : List (Component α)) : List String :=
  cs.flatMap fun c => (c.discipline.inputs.filter fun v =>
    (m.links.lookup ⟨c.name, v.name⟩).isNone).map (pathOf c)

omit [Scalar α] in
theorem independentPaths_cons {c : Component α} {cs : List (Component α)} :
    m.independentPaths (c :: cs) = m.independentPaths [c] ++ m.independentPaths cs := by
  simp [independentPaths]

/-- An entry of the store is an input of a unit: an independent one has slots of its own, a
connected one has none. -/
structure HoldsInput (m : Model α) (independents : List Span) (c : Component α) (v : Variable α)
    (e : Entry α) : Prop where
  name : e.name = pathOf c v
  kind : e.kind = .input
  declared : e.declared = v
  independent : m.links.lookup ⟨c.name, v.name⟩ = none → ∃ r ∈ independents, e.slots? = some r
  connected : ∀ link, m.links.lookup ⟨c.name, v.name⟩ = some link → e.slots? = none

/-- What routing some inputs of a unit does. -/
structure Routes (m : Model α) (c : Component α) (inputs : List (Variable α × Nat))
    (r r' : Routing α) : Prop where
  sound : r'.store.Sound
  grows : r.store.Grows r'.store
  names : r'.store.names = r.store.names
  buffer : r'.store.inputs = r.store.inputs
  /-- No other variable changes. -/
  others : ∀ j, j ∉ inputs.map Prod.snd → r'.store.entries[j]? = r.store.entries[j]?
  /-- Each input is routed from what it is fed from. -/
  routes : r'.routes = r.routes ++ inputs.flatMap fun p => m.routesOf r'.store c p.1
  fed : ∀ p ∈ inputs, m.IsFed r'.store c p.1
  /-- Independent inputs get consecutive slots behind all others. -/
  independents : ∃ new, r'.independents = r.independents ++ new ∧
    Span.Tile r.store.slots.size new r'.store.slots.size ∧
    new.map some = ((inputs.map Prod.fst).filter fun v =>
      (m.links.lookup ⟨c.name, v.name⟩).isNone).map fun v => r'.store.slotsOf (pathOf c v)
  /-- Each input is independent or connected. -/
  inputs : ∀ v i, (v, i) ∈ inputs → ∃ e, r'.store.entries[i]? = some e ∧
    HoldsInput m r'.independents c v e

theorem Routes.nil {c : Component α} {r : Routing α} (hs : r.store.Sound) : Routes m c [] r r :=
  ⟨hs, .refl _, rfl, rfl, fun _ _ => rfl, by simp, by simp, ⟨[], by simp, rfl, rfl⟩, by simp⟩

omit [Scalar α] in
theorem HoldsInput.mono {independents independents' : List Span} {c : Component α}
    {v : Variable α} {e : Entry α} (h : HoldsInput m independents c v e)
    (hsub : ∀ r ∈ independents, r ∈ independents') : HoldsInput m independents' c v e := by
  refine { h with independent := fun hl => ?_ }
  obtain ⟨r, hr, hslots⟩ := h.independent hl
  exact ⟨r, hsub r hr, hslots⟩

omit [Scalar α] in
/-- Slots that were found stay what they are. -/
theorem map_slotsOf_grows (paths : List String) {new : List Span}
    (h : new.map some = paths.map s.slotsOf) (hg : s.Grows s') (hs' : s'.Sound) :
    new.map some = paths.map s'.slotsOf := by
  rw [h]
  refine List.map_congr_left fun path hpath => ?_
  have hmem : s.slotsOf path ∈ new.map some := h ▸ List.mem_map.2 ⟨path, hpath, rfl⟩
  obtain ⟨r, -, hr⟩ := List.mem_map.1 hmem
  rw [← hr, hg.slotsOf hs'.names hr.symm]

/-- Inputs of different ids are routed one after the other. -/
theorem Routes.cons {c : Component α} {v : Variable α} {i : Nat}
    {inputs : List (Variable α × Nat)} {r r1 r' : Routing α} (h : Routes m c [(v, i)] r r1)
    (h' : Routes m c inputs r1 r') (hi : i ∉ inputs.map Prod.snd) :
    Routes m c ((v, i) :: inputs) r r' := by
  obtain ⟨ind1, hind1, htile1, hslots1⟩ := h.independents
  obtain ⟨ind2, hind2, htile2, hslots2⟩ := h'.independents
  obtain ⟨hfed, hroutes⟩ := (h.fed (v, i) List.mem_cons_self).grows h'.grows h'.sound
  have hsub : ∀ s ∈ r1.independents, s ∈ r'.independents := fun s hs => by
    rw [hind2]
    exact List.mem_append_left _ hs
  refine ⟨h'.sound, h.grows.trans h'.grows, h'.names.trans h.names, h'.buffer.trans h.buffer,
    fun j hj => ?_, ?_,
    fun p hp => ?_, ⟨ind1 ++ ind2, ?_, htile1.append htile2, ?_⟩, fun w k hw => ?_⟩
  · rw [List.map_cons, List.mem_cons, not_or] at hj
    rw [h'.others j hj.2]
    exact h.others j (by simpa using hj.1)
  · rw [h'.routes, h.routes, List.flatMap_cons, List.flatMap_cons, List.flatMap_nil,
      List.append_nil, hroutes, List.append_assoc]
  · rcases List.mem_cons.1 hp with rfl | hp
    · exact hfed
    · exact h'.fed p hp
  · rw [hind2, hind1, List.append_assoc]
  · have hfirst := map_slotsOf_grows ((([(v, i)].map Prod.fst).filter fun v =>
      (m.links.lookup ⟨c.name, v.name⟩).isNone).map (pathOf c))
      (by rw [hslots1, List.map_map]; rfl) h'.grows h'.sound
    rw [List.map_append, hfirst, hslots2, List.map_map, ← List.singleton_append (l := inputs),
      List.map_append, List.filter_append, List.map_append]
    rfl
  · rcases List.mem_cons.1 hw with heq | hw
    · cases heq
      obtain ⟨e, he, hholds⟩ := h.inputs v i List.mem_cons_self
      exact ⟨e, by rw [h'.others i hi, he], hholds.mono hsub⟩
    · exact h'.inputs w k hw

omit [Scalar α] in
theorem mem_of_lookup {t : Target} {link : Link α} (h : m.links.lookup t = some link) :
    (t, link) ∈ m.links := by
  obtain ⟨l1, l2, heq, -⟩ := List.lookup_eq_some_iff.1 h
  rw [heq]
  exact List.mem_append_right _ List.mem_cons_self

/-- All outputs are in the store. -/
def OutputsKnown (m : Model α) (s : Store α) : Prop := ∀ c ∈ m.units, ∃ start, OutputsAt s c start

omit [Scalar α] in
/-- The source of a connected input is registered with as many slots as the input has entries. -/
theorem Sound.source_spec (hm : m.Sound) (hs : s.Sound) (hout : OutputsKnown m s)
    {c : Component α} {v : Variable α} (hc : c ∈ m.units) (hv : v ∈ c.discipline.inputs)
    {link : Link α} (hlink : m.links.lookup ⟨c.name, v.name⟩ = some link) :
    ∃ i e r, s.id link.source.path = .ok i ∧ s.entries[i]? = some e ∧
      e.name = link.source.path ∧ e.slots? = some r ∧ r.size = v.size := by
  obtain ⟨giver, given, taker, taken, hconn⟩ := hm.links _ _ (mem_of_lookup hlink)
  obtain ⟨htakerName, htakenName⟩ := Target.mk.inj hconn.target
  obtain rfl : c = taker := eq_of_key_eq hm.names hc hconn.taker_mem htakerName
  have htaken : v = taken :=
    List.inj_on_of_nodup_map (hm.declared c hc).nodup_inputs hv hconn.taken_mem htakenName
  obtain ⟨start, hstart⟩ := hout giver hconn.giver_mem
  obtain ⟨r, hr⟩ := Variable.exists_placed start hconn.given_mem
  obtain ⟨i, e, he, hholds⟩ := hstart given r hr
  have hname : e.name = link.source.path := by
    rw [hholds.name, hconn.source]
    rfl
  refine ⟨i, e, r, id_eq_ok.2 ?_, he, hname, hholds.slots, ?_⟩
  · rw [← hname]
    exact find?_name hs.names he
  · rw [Variable.size_placed hr, hconn.size, htaken]

/-- A connected input is routed from its source, and the store stays what it is. -/
theorem routeInput_connected (hm : m.Sound) {c : Component α} {v : Variable α} {i : Nat}
    {r : Routing α} {e : Entry α} {link : Link α} (hc : c ∈ m.units)
    (hv : v ∈ c.discipline.inputs) (hs : r.store.Sound) (hout : OutputsKnown m r.store)
    (he : r.store.entries[i]? = some e) (hw : Waits c v e)
    (hlink : m.links.lookup ⟨c.name, v.name⟩ = some link) :
    ∃ r', m.routeInput c r v i = .ok r' ∧ Routes m c [(v, i)] r r' := by
  obtain ⟨source, es, slots, hid, hes, hname, hslots, hsize⟩ := hm.source_spec hs hout hc hv hlink
  have hslots? : r.store.slots? source = some slots := by
    rw [slots?, hes]
    exact hslots
  have hfeed : m.feedOf c v = (link.source.path, link.scale, link.offset) := by
    simp only [feedOf, hlink]
  have hsource : r.store.slotsOf link.source.path = some slots := by
    rw [← hname, slotsOf_name hs.names hes, hslots]
  refine ⟨{ r with routes := r.routes ++ routesFrom slots link.scale link.offset },
    by simp only [routeInput, hlink, hid, hslots?], hs, .refl _, rfl, rfl, fun _ _ => rfl, ?_,
    fun p hp => ?_, ⟨[], by simp, rfl, by simp [hlink]⟩, fun w k hw' => ?_⟩
  · simp only [List.flatMap_singleton, routesOf, hfeed, hsource, Option.getD_some]
  · obtain rfl := List.mem_singleton.1 hp
    exact ⟨slots, by rw [hfeed]; exact hsource, hsize⟩
  · cases List.mem_singleton.1 hw'
    refine ⟨e, he, hw.name, hw.kind, hw.declared, fun hnone => ?_, fun _ _ => hw.slots⟩
    rw [hlink] at hnone
    cases hnone

/-- An input that nothing is connected to is given slots behind all others, and is routed from
these. -/
theorem routeInput_independent {c : Component α} {v : Variable α} {i : Nat} {r : Routing α}
    {e : Entry α} (hs : r.store.Sound) (he : r.store.entries[i]? = some e) (hw : Waits c v e)
    (hlink : m.links.lookup ⟨c.name, v.name⟩ = none) :
    ∃ r', m.routeInput c r v i = .ok r' ∧ Routes m c [(v, i)] r r' := by
  obtain ⟨place, hplace, -, -, hsize⟩ := hs.inputs e (Array.mem_of_getElem? he) hw.kind
  have hsound := hs.withSlots he hsize
  have hentry : (r.store.withSlots i place).entries[i]? = some
      (e.placedAt ⟨r.store.slots.size, r.store.slots.size + place.size⟩) := by
    rw [getElem?_withSlots, if_pos rfl, he]
    rfl
  have hown : (r.store.withSlots i place).slotsOf (pathOf c v) =
      some ⟨r.store.slots.size, r.store.slots.size + place.size⟩ := by
    have := slotsOf_name hsound.names hentry
    rwa [show (e.placedAt _).name = pathOf c v from hw.name] at this
  have hfeed : m.feedOf c v = (pathOf c v, 1, 0) := by simp only [feedOf, hlink]
  refine ⟨⟨r.store.withSlots i place,
      r.routes ++ routesFrom ⟨r.store.slots.size, r.store.slots.size + place.size⟩ 1 0,
      r.independents ++ [⟨r.store.slots.size, r.store.slots.size + place.size⟩]⟩,
    by simp only [routeInput, hlink, makeIndependent_eq he hw.slots hplace], hsound,
    grows_withSlots he hw.slots, names_withSlots _ _ _, rfl, fun j hj => ?_, ?_, fun p hp => ?_,
    ⟨[_], rfl, ⟨rfl, Nat.le_add_right _ _, ?_⟩, by simp [hlink, hown]⟩, fun w k hw' => ?_⟩
  · rw [getElem?_withSlots, if_neg (fun hij => hj (by simp [hij]))]
  · simp only [List.flatMap_singleton, routesOf, hfeed, hown, Option.getD_some]
  · obtain rfl := List.mem_singleton.1 hp
    refine ⟨_, by rw [hfeed]; exact hown, ?_⟩
    rw [Span.size, Nat.add_sub_cancel_left, hsize, hw.declared]
  · rw [size_slots_withSlots]
    rfl
  · cases List.mem_singleton.1 hw'
    refine ⟨_, hentry, hw.name, hw.kind, hw.declared, fun _ =>
      ⟨_, List.mem_append_right _ (List.mem_singleton.2 rfl), rfl⟩, fun link hlink' => ?_⟩
    rw [hlink] at hlink'
    cases hlink'

/-- **Routing one input**: a connected one from its source, any other from slots of its own. -/
theorem routeInput_spec (hm : m.Sound) {c : Component α} {v : Variable α} {i : Nat}
    {r : Routing α} {e : Entry α} (hc : c ∈ m.units) (hv : v ∈ c.discipline.inputs)
    (hs : r.store.Sound) (hout : OutputsKnown m r.store) (he : r.store.entries[i]? = some e)
    (hw : Waits c v e) : ∃ r', m.routeInput c r v i = .ok r' ∧ Routes m c [(v, i)] r r' := by
  cases hlink : m.links.lookup ⟨c.name, v.name⟩ with
  | some link => exact routeInput_connected hm hc hv hs hout he hw hlink
  | none => exact routeInput_independent hs he hw hlink

omit [Scalar α] in
theorem OutputsKnown.grows (h : OutputsKnown m s) (hg : s.Grows s') : OutputsKnown m s' := by
  intro c hc
  obtain ⟨start, hstart⟩ := h c hc
  exact ⟨start, hstart.grows hg⟩

/-- Routing the inputs of a unit one after the other. -/
theorem routeInputs_spec (hm : m.Sound) {c : Component α} {inputs : List (Variable α × Nat)}
    {r : Routing α} (hc : c ∈ m.units) (hv : ∀ p ∈ inputs, p.1 ∈ c.discipline.inputs)
    (hs : r.store.Sound) (hout : OutputsKnown m r.store)
    (hw : ∀ v i, (v, i) ∈ inputs → ∃ e, r.store.entries[i]? = some e ∧ Waits c v e)
    (hids : (inputs.map Prod.snd).Nodup) :
    ∃ r', m.routeInputs c r inputs = .ok r' ∧ Routes m c inputs r r' := by
  induction inputs generalizing r with
  | nil => exact ⟨r, rfl, .nil hs⟩
  | cons p inputs ih =>
    obtain ⟨v, i⟩ := p
    rw [List.map_cons, List.nodup_cons] at hids
    obtain ⟨e, he, hwait⟩ := hw v i List.mem_cons_self
    obtain ⟨r1, hr1, hstep⟩ := routeInput_spec hm hc (hv _ List.mem_cons_self) hs hout he hwait
    obtain ⟨r', hr', hrest⟩ := ih (fun p hp => hv p (List.mem_cons_of_mem _ hp)) hstep.sound
      (hout.grows hstep.grows) (fun w j hj => by
        obtain ⟨ew, hew, hwait'⟩ := hw w j (List.mem_cons_of_mem _ hj)
        refine ⟨ew, ?_, hwait'⟩
        rw [hstep.others j fun hji => ?_, hew]
        obtain rfl : j = i := by simpa using hji
        exact hids.1 (List.mem_map.2 ⟨_, hj, rfl⟩)) hids.2
    exact ⟨r', by simp only [routeInputs, hr1, hr'], hstep.cons hrest hids.1⟩

/-! ### All units -/

/-- What the placement of a unit is once its inputs are routed. -/
structure PlacedUnit (m : Model α) (outputs : List (Nat × Span)) (s : Store α) (u : Nat)
    (placed : PlacedInputs α) (p : Placement α) : Prop where
  outputs : p.outputs = (outputs.lookup u).getD ⟨0, 0⟩
  inputs : p.inputs = placed.range
  routes : p.routes.toList = placed.owner.discipline.inputs.flatMap (m.routesOf s placed.owner)

/-- What routing the inputs of some units does. -/
structure RoutesUnits (m : Model α) (outputs : List (Nat × Span)) (s : Store α)
    (independents : List Span) (ps : List (PlacedInputs α × Nat)) (laid : LaidOut α) : Prop where
  sound : laid.store.Sound
  grows : s.Grows laid.store
  names : laid.store.names = s.names
  buffer : laid.store.inputs = s.inputs
  others : ∀ j, j ∉ ps.flatMap (fun p => p.1.ids) → laid.store.entries[j]? = s.entries[j]?
  independents : ∃ new, laid.independents = independents ++ new ∧
    Span.Tile s.slots.size new laid.store.slots.size ∧
    new.map some = (m.independentPaths (ps.map fun p => p.1.owner)).map laid.store.slotsOf
  placements : List.Forall₂ (fun p placement => PlacedUnit m outputs laid.store p.2 p.1 placement)
    ps laid.placements
  fed : ∀ p ∈ ps, ∀ v ∈ p.1.owner.discipline.inputs, m.IsFed laid.store p.1.owner v
  inputs : ∀ p ∈ ps, ∀ v ∈ p.1.owner.discipline.inputs, ∃ (i : Nat) (e : Entry α),
    laid.store.entries[i]? = some e ∧ HoldsInput m laid.independents p.1.owner v e

omit [Scalar α] in
/-- Inputs wait under their ids as long as the entries of these stay what they are. -/
theorem PlacedInputs.Waiting.of_entries {p : PlacedInputs α} (h : p.Waiting s)
    (hkept : ∀ i ∈ p.ids, s'.entries[i]? = s.entries[i]?) : p.Waiting s' := by
  refine ⟨h.length, fun v i hv => ?_⟩
  obtain ⟨e, he, hw⟩ := h.waits v i hv
  exact ⟨e, (hkept i (List.of_mem_zip hv).2).trans he, hw⟩

/-- Routing the inputs of one unit under the ids that they wait under. -/
theorem PlacedInputs.Waiting.routeInputs {p : PlacedInputs α} (h : p.Waiting s) (hm : m.Sound)
    (hs : s.Sound) (hout : OutputsKnown m s) (hc : p.owner ∈ m.units) (hids : p.ids.Nodup)
    (independents : List Span) :
    ∃ r, m.routeInputs p.owner ⟨s, [], independents⟩ (p.owner.discipline.inputs.zip p.ids) =
        .ok r ∧
      Routes m p.owner (p.owner.discipline.inputs.zip p.ids) ⟨s, [], independents⟩ r := by
  refine routeInputs_spec hm hc (fun q hq => (List.of_mem_zip hq).1) hs hout h.waits ?_
  rw [List.map_snd_zip (le_of_eq h.length)]
  exact hids

/-- **The inputs of one unit are routed before those of the others**, under different ids. -/
theorem RoutesUnits.cons {outputs : List (Nat × Span)} {independents : List Span}
    {p : PlacedInputs α} {u : Nat} {ps : List (PlacedInputs α × Nat)} {r : Routing α}
    {laid : LaidOut α} (h' : RoutesUnits m outputs r.store r.independents ps laid)
    (hp : p.Waiting s)
    (h : Routes m p.owner (p.owner.discipline.inputs.zip p.ids) ⟨s, [], independents⟩ r)
    (hids : ∀ i ∈ p.ids, i ∉ ps.flatMap fun q => q.1.ids) :
    RoutesUnits m outputs s independents ((p, u) :: ps) { laid with placements :=
      ⟨(outputs.lookup u).getD ⟨0, 0⟩, p.range, r.routes.toArray⟩ :: laid.placements } := by
  have hfst : (p.owner.discipline.inputs.zip p.ids).map Prod.fst = p.owner.discipline.inputs :=
    List.map_fst_zip (le_of_eq hp.length.symm)
  have hsnd : (p.owner.discipline.inputs.zip p.ids).map Prod.snd = p.ids :=
    List.map_snd_zip (le_of_eq hp.length)
  have hpair : ∀ v ∈ p.owner.discipline.inputs, ∃ i,
      (v, i) ∈ p.owner.discipline.inputs.zip p.ids := fun v hv => by
    obtain ⟨⟨w, i⟩, hwi, rfl⟩ := List.mem_map.1 (hfst ▸ hv : v ∈ List.map Prod.fst _)
    exact ⟨i, hwi⟩
  obtain ⟨ind1, hind1, htile1, hslots1⟩ := h.independents
  obtain ⟨ind2, hind2, htile2, hslots2⟩ := h'.independents
  have hsub : ∀ t ∈ r.independents, t ∈ laid.independents := fun t ht => by
    rw [hind2]
    exact List.mem_append_left _ ht
  -- what the first unit is fed from is there at the end as well
  have hfed : ∀ v ∈ p.owner.discipline.inputs, m.IsFed laid.store p.owner v ∧
      m.routesOf laid.store p.owner v = m.routesOf r.store p.owner v := by
    intro v hv
    obtain ⟨i, hi⟩ := hpair v hv
    exact (h.fed _ hi).grows h'.grows h'.sound
  refine ⟨h'.sound, h.grows.trans h'.grows, h'.names.trans h.names, h'.buffer.trans h.buffer,
    fun j hj => ?_, ⟨ind1 ++ ind2, ?_, htile1.append htile2, ?_⟩, .cons ⟨rfl, rfl, ?_⟩ h'.placements,
    fun q hq v hv => ?_, fun q hq v hv => ?_⟩
  · rw [List.flatMap_cons, List.mem_append, not_or] at hj
    exact (h'.others j hj.2).trans (h.others j (by rw [hsnd]; exact hj.1))
  · rw [← List.append_assoc, ← hind1]
    exact hind2
  · have hfirst := map_slotsOf_grows (m.independentPaths [p.owner])
      (by rw [hslots1, hfst]; simp [independentPaths]) h'.grows h'.sound
    have hcons : m.independentPaths (p.owner :: ps.map fun q => q.1.owner) = _ :=
      independentPaths_cons
    rw [List.map_append, hfirst, hslots2, ← List.map_append, ← hcons]
    rfl
  · have hflat : (p.owner.discipline.inputs.zip p.ids).flatMap
        (fun q => m.routesOf r.store p.owner q.1) =
        p.owner.discipline.inputs.flatMap (m.routesOf r.store p.owner) := by
      rw [← List.flatMap_map (f := Prod.fst) (g := m.routesOf r.store p.owner), hfst]
    rw [h.routes, List.nil_append, hflat]
    exact List.flatMap_congr fun v hv => (hfed v hv).2.symm
  · rcases List.mem_cons.1 hq with rfl | hq
    · exact (hfed v hv).1
    · exact h'.fed q hq v hv
  · rcases List.mem_cons.1 hq with rfl | hq
    · obtain ⟨i, hi⟩ := hpair v hv
      obtain ⟨e, he, hholds⟩ := h.inputs v i hi
      exact ⟨i, e, (h'.others i (hids i (List.of_mem_zip hi).2)).trans he, hholds.mono hsub⟩
    · exact h'.inputs q hq v hv

/-- **Routing the inputs of all units**, one unit after the other. -/
theorem routeUnits_spec (hm : m.Sound) (outputs : List (Nat × Span)) (independents : List Span)
    {ps : List (PlacedInputs α × Nat)} (hs : s.Sound)
    (hout : OutputsKnown m s) (howner : ∀ p ∈ ps, p.1.owner ∈ m.units)
    (hwait : ∀ p ∈ ps, p.1.Waiting s) (hids : (ps.flatMap fun p => p.1.ids).Nodup) :
    ∃ laid, m.routeUnits outputs s independents ps = .ok laid ∧
      RoutesUnits m outputs s independents ps laid := by
  induction ps generalizing s independents with
  | nil =>
    exact ⟨_, rfl, hs, .refl _, rfl, rfl, fun _ _ => rfl, ⟨[], by simp, rfl, rfl⟩, .nil, by simp,
      by simp⟩
  | cons p ps ih =>
    obtain ⟨p, u⟩ := p
    rw [List.flatMap_cons, List.nodup_append] at hids
    obtain ⟨hidsHead, hidsTail, hdisjoint⟩ := hids
    have hp : p.Waiting s := hwait _ List.mem_cons_self
    have hapart : ∀ i ∈ p.ids, i ∉ ps.flatMap fun q => q.1.ids := fun i hi hi' =>
      hdisjoint i hi i hi' rfl
    obtain ⟨r, hr, hstep⟩ :=
      hp.routeInputs hm hs hout (howner _ List.mem_cons_self) hidsHead independents
    -- the units behind have other ids, so their inputs wait as before
    have hlater : ∀ q ∈ ps, q.1.Waiting r.store := fun q hq =>
      (hwait q (List.mem_cons_of_mem _ hq)).of_entries fun i hi => hstep.others i fun hi' => by
        rw [List.map_snd_zip (le_of_eq hp.length)] at hi'
        exact hapart i hi' (List.mem_flatMap.2 ⟨q, hq, hi⟩)
    obtain ⟨rest, hrest, hroutes⟩ := ih r.independents hstep.sound (hout.grows hstep.grows)
      (fun q hq => howner q (List.mem_cons_of_mem _ hq)) hlater hidsTail
    exact ⟨_, bind_eq_ok.2 ⟨r, hr, bind_eq_ok.2 ⟨rest, hrest, rfl⟩⟩,
      hroutes.cons hp hstep hapart⟩

/-- **What holds of a model that is laid out**, its outputs in the given order of units. -/
structure Laid (m : Model α) (order : List Nat) (s : Store α) (l : Arrangement α) : Prop where
  sound : s.Sound
  /-- The variables are the outputs of the units and then their inputs. -/
  names : s.names = m.outputPaths order ++ inputPaths m.units.toList
  size : l.size = s.slots.size
  /-- The outputs of a unit have its run of slots. -/
  outputs : ∀ u c, m.units[u]? = some c →
    OutputsAt s c (l.unit u).outputs.start ∧
      (l.unit u).outputs.stop = (l.unit u).outputs.start + c.outputs.size
  /-- The inputs of a unit have its run of places. -/
  places : ∀ u c, m.units[u]? = some c →
    InputsAt s c (l.unit u).inputs.start ∧
      (l.unit u).inputs.stop = (l.unit u).inputs.start + c.inputs.size
  /-- The inputs of a unit are routed from what they are fed from. -/
  routes : ∀ u c, m.units[u]? = some c →
    (l.unit u).routes.toList = c.discipline.inputs.flatMap (m.routesOf s c)
  fed : ∀ c ∈ m.units, ∀ v ∈ c.discipline.inputs, m.IsFed s c v
  /-- Each input is connected or independent. -/
  inputs : ∀ c ∈ m.units, ∀ v ∈ c.discipline.inputs, ∃ (i : Nat) (e : Entry α),
    s.entries[i]? = some e ∧ HoldsInput m l.independents c v e
  /-- Each input that nothing is connected to has slots of its own, in order. -/
  independents : l.independents.map some = (m.independentPaths m.units.toList).map s.slotsOf
  /-- The runs of the units follow one another in order, and after them the independent inputs. -/
  tiles : ∃ mid, Span.Tile 0 (order.map fun u => (l.unit u).outputs) mid ∧
    Span.Tile mid l.independents l.size
  /-- The places of the units follow one another. -/
  inputTiles : Span.Tile 0 ((List.range m.units.size).map fun u => (l.unit u).inputs) s.inputs.size

section Laid

variable {order : List Nat} {l : Arrangement α}

theorem Laid.id_eq (h : Laid m order s l) {i : Nat} {e : Store.Entry α}
    (he : s.entries[i]? = some e) : s.id e.name = .ok i :=
  Store.id_eq_ok.2 (find?_name h.sound.names he)

theorem Laid.stop_le (h : Laid m order s l) {i : Nat} {e : Store.Entry α} {r : Span}
    (he : s.entries[i]? = some e) (hr : e.slots? = some r) : r.stop ≤ l.size := by
  rw [h.size]
  exact (h.sound.slots e (Array.mem_of_getElem? he) r hr).2.1

/-- Each independent slot belongs to one independent input. -/
theorem Laid.nodup_independents (h : Laid m order s l) :
    (l.independents.flatMap Span.indices).Nodup := by
  obtain ⟨mid, -, hindependents⟩ := h.tiles
  rw [hindependents.indices]
  exact List.nodup_range'

/-- An output of a unit is in the unit's run of slots. -/
theorem Laid.exists_output (h : Laid m order s l) (hm : m.Sound) {u : Nat} {c : Component α}
    {v : Variable α} (hu : m.units[u]? = some c) (hv : v ∈ c.discipline.outputs) :
    ∃ (i : Nat) (e : Entry α) (r : Span), s.entries[i]? = some e ∧ HoldsOutput c v r e ∧
      (l.unit u).outputs.start ≤ r.start ∧ r.stop ≤ (l.unit u).outputs.stop := by
  obtain ⟨hat, hstop⟩ := h.outputs u c hu
  obtain ⟨r, hr⟩ := Variable.exists_placed (l.unit u).outputs.start hv
  obtain ⟨i, e, he, hholds⟩ := hat v r hr
  obtain ⟨h1, h2, h3⟩ := Variable.bounds_placed hr
  have hc := hm.declared c (Array.mem_of_getElem? hu)
  exact ⟨i, e, r, he, hholds, h1, by rw [hstop, hc.size_outputs]; exact h3⟩

/-- A unit has one route for each entry of its inputs. -/
theorem Laid.size_routes (h : Laid m order s l) (hm : m.Sound) {u : Nat} {c : Component α}
    (hu : m.units[u]? = some c) : (l.unit u).routes.size = c.inputs.size := by
  have hc := Array.mem_of_getElem? hu
  rw [← Array.length_toList, h.routes u c hu, List.length_flatMap, (hm.declared c hc).size_inputs]
  exact congrArg List.sum (List.map_congr_left fun v hv => (h.fed c hc v hv).length_routesOf)

theorem Laid.fits (h : Laid m order s l) (hm : m.Sound) {u : Nat} {c : Component α}
    (hu : m.units[u]? = some c) : (l.unit u).Fits c :=
  ⟨by rw [Span.size, (h.outputs u c hu).2, Nat.add_sub_cancel_left], h.size_routes hm hu⟩

omit [Scalar α] in
theorem getElem?_routesFrom {slots : Span} {scale offset : α} {k : Nat} (hk : k < slots.size) :
    (routesFrom slots scale offset)[k]? = some ⟨slots.start + k, scale, offset⟩ := by
  simp [routesFrom, Span.indices, hk]

/-- **Each entry of an input is routed from the same entry of what the input is fed from.** -/
theorem Laid.getElem?_routes (h : Laid m order s l) {u : Nat} {c : Component α}
    {v : Variable α} {place source : Span} (hu : m.units[u]? = some c)
    (hv : (v, place) ∈ Variable.placed 0 c.discipline.inputs)
    (hsource : s.slotsOf (m.feedOf c v).1 = some source) {k : Nat} (hk : k < v.size) :
    (l.unit u).routes[place.start + k]? =
      some ⟨source.start + k, (m.feedOf c v).2.1, (m.feedOf c v).2.2⟩ := by
  have hc := Array.mem_of_getElem? hu
  have hfed := h.fed c hc
  have hentry := Variable.getElem?_flatMap_placed (f := m.routesOf s c)
    (fun w hw => (hfed w hw).length_routesOf) hv hk
  obtain ⟨r, hr, hsize⟩ := hfed v (Variable.mem_of_placed hv)
  obtain rfl : source = r := Option.some.inj (hsource.symm.trans hr)
  rw [Nat.sub_zero] at hentry
  rw [← Array.getElem?_toList, h.routes u c hu, hentry, routesOf, hr, Option.getD_some]
  exact getElem?_routesFrom (hsize ▸ hk)

/-- The slots of an output are found by its path. -/
theorem Laid.slotsOf_output (h : Laid m order s l) {u : Nat} {c : Component α}
    {v : Variable α} {place : Span} (hu : m.units[u]? = some c)
    (hv : (v, place) ∈ Variable.placed 0 c.discipline.outputs) :
    s.slotsOf (pathOf c v) = some ⟨place.start + (l.unit u).outputs.start,
      place.stop + (l.unit u).outputs.start⟩ := by
  have hplaced := Variable.placed_add 0 (l.unit u).outputs.start c.discipline.outputs
  rw [Nat.zero_add] at hplaced
  obtain ⟨i, e, he, hholds⟩ := (h.outputs u c hu).1 v _
    (by rw [hplaced]; exact List.mem_map.2 ⟨_, hv, rfl⟩)
  rw [← hholds.name, slotsOf_name h.sound.names he, hholds.slots]

/-- An output has no place among the inputs. -/
theorem Laid.placeOf_output (h : Laid m order s l) (hm : m.Sound) {u : Nat} {c : Component α}
    {v : Variable α} (hu : m.units[u]? = some c) (hv : v ∈ c.discipline.outputs) :
    s.placeOf (pathOf c v) = none := by
  obtain ⟨i, e, r, he, hholds, -⟩ := h.exists_output hm hu hv
  rw [← hholds.name, placeOf_name h.sound.names he]
  exact h.sound.outputs e (Array.mem_of_getElem? he) hholds.kind

/-- The place of an input is found by its path. -/
theorem Laid.placeOf_input (h : Laid m order s l) {u : Nat} {c : Component α}
    {v : Variable α} {place : Span} (hu : m.units[u]? = some c)
    (hv : (v, place) ∈ Variable.placed 0 c.discipline.inputs) :
    s.placeOf (pathOf c v) = some ⟨place.start + (l.unit u).inputs.start,
      place.stop + (l.unit u).inputs.start⟩ := by
  have hplaced := Variable.placed_add 0 (l.unit u).inputs.start c.discipline.inputs
  rw [Nat.zero_add] at hplaced
  exact (h.places u c hu).1 v _ (by rw [hplaced]; exact List.mem_map.2 ⟨_, hv, rfl⟩)

/-- Where a route of a unit may lead: to an output that one of its inputs is connected to, or to an
independent input. -/
def Routed (m : Model α) (s : Store α) (independents : List Span) (c : Component α)
    (slot : Nat) : Prop :=
  (∃ t link, (t, link) ∈ m.links ∧ t.owner = c.name ∧ ∃ (i : Nat) (e : Entry α) (r : Span),
    s.entries[i]? = some e ∧ e.name = link.source.path ∧ e.slots? = some r ∧ slot ∈ r) ∨
  ∃ r ∈ independents, slot ∈ r

omit [Scalar α] in
theorem mem_routesFrom {slots : Span} {scale offset : α} {route : Route α}
    (h : route ∈ routesFrom slots scale offset) : route.slot ∈ slots := by
  obtain ⟨slot, hslot, rfl⟩ := List.mem_map.1 h
  exact Span.mem_indices.1 hslot

/-- Routes lead to sources and independent inputs. -/
theorem Laid.routed (h : Laid m order s l) {u : Nat} {c : Component α}
    (hu : m.units[u]? = some c) {route : Route α} (hroute : route ∈ (l.unit u).routes) :
    Routed m s l.independents c route.slot := by
  have hc := Array.mem_of_getElem? hu
  rw [← Array.mem_toList_iff, h.routes u c hu] at hroute
  obtain ⟨v, hv, hroute⟩ := List.mem_flatMap.1 hroute
  obtain ⟨r, hr, -⟩ := h.fed c hc v hv
  have hslot : route.slot ∈ r := by
    rw [routesOf, hr] at hroute
    exact mem_routesFrom hroute
  cases hlink : m.links.lookup ⟨c.name, v.name⟩ with
  | some link =>
    have hfeed : (m.feedOf c v).1 = link.source.path := by simp only [feedOf, hlink]
    obtain ⟨i, e, he, hname, hslots⟩ := entry_of_slotsOf hr
    exact .inl ⟨_, link, mem_of_lookup hlink, rfl, i, e, r, he, hname.trans hfeed, hslots, hslot⟩
  | none =>
    have hfeed : (m.feedOf c v).1 = pathOf c v := by simp only [feedOf, hlink]
    obtain ⟨i, e, he, hholds⟩ := h.inputs c hc v hv
    obtain ⟨r', hmem, hr'⟩ := hholds.independent hlink
    rw [hfeed, ← hholds.name, slotsOf_name h.sound.names he, hr'] at hr
    cases hr
    exact .inr ⟨r, hmem, hslot⟩

end Laid

/-- Where keys differ, a pair is found by its key. -/
theorem lookup_of_mem {β γ : Type} [BEq β] [LawfulBEq β] {ps : List (β × γ)} {k : β} {b : γ}
    (hnodup : (ps.map Prod.fst).Nodup) (h : (k, b) ∈ ps) : ps.lookup k = some b := by
  obtain ⟨l1, l2, rfl⟩ := List.append_of_mem h
  refine List.lookup_eq_some_iff.2 ⟨l1, l2, rfl, fun q hq => ?_⟩
  rw [List.map_append, List.map_cons, List.nodup_append] at hnodup
  have hne := hnodup.2.2 q.1 (List.mem_map.2 ⟨q, hq, rfl⟩) k List.mem_cons_self
  exact bne_iff_ne.2 (Ne.symm hne)

/-- The placements of all units, in the order of the units. -/
theorem RoutesUnits.placed {outputs : List (Nat × Span)} {independents : List Span}
    {ps : List (PlacedInputs α)} {laid : LaidOut α}
    (h : RoutesUnits m outputs s independents ps.zipIdx laid) {u : Nat} {p : PlacedInputs α}
    (hu : ps[u]? = some p) : ∃ placement, laid.placements[u]? = some placement ∧
      PlacedUnit m outputs laid.store u p placement := by
  have hzip : ps.zipIdx[u]? = some (p, u) := by
    rw [List.getElem?_zipIdx, hu]
    simp
  have hlength := h.placements.length_eq
  obtain ⟨hlt, hget⟩ := List.getElem?_eq_some_iff.1 hzip
  refine ⟨laid.placements[u], List.getElem?_eq_getElem _, ?_⟩
  have := h.placements.get hlt (hlength ▸ hlt)
  simpa [hget] using this

/-! ### The three passes -/

/-- What the three passes of laying a model out leave: outputs are placed, then inputs, and then inputs
are routed. -/
structure Passes (m : Model α) (order : List Nat) (s1 s2 : Store α) (outs : List (Nat × Span))
    (ins : List (PlacedInputs α)) (laid : LaidOut α) : Prop where
  perm : order.Perm (List.range m.units.size)
  outputs : PlacesOutputs m order .empty s1 outs
  inputs : PlacesInputs m.units.toList s1 s2 ins
  routes : RoutesUnits m outs s2 [] ins.zipIdx laid

section Passes

variable {order : List Nat} {s1 s2 : Store α} {outs : List (Nat × Span)}
  {ins : List (PlacedInputs α)} {laid : LaidOut α}

omit [Scalar α] in
theorem PlacesOutputs.nodup (h : PlacesOutputs m order s s1 outs)
    (horder : order.Perm (List.range m.units.size)) : (outs.map Prod.fst).Nodup := by
  rw [h.units]
  exact horder.nodup_iff.2 List.nodup_range

omit [Scalar α] in
/-- The run of a unit is found by its position. -/
theorem PlacesOutputs.run (h : PlacesOutputs m order s s1 outs)
    (horder : order.Perm (List.range m.units.size)) {u : Nat} {c : Component α}
    (hu : m.units[u]? = some c) : ∃ span, outs.lookup u = some span ∧
      OutputsAt s1 c span.start ∧ span.stop = span.start + c.outputs.size := by
  have hmem : u ∈ outs.map Prod.fst := by
    rw [h.units, horder.mem_iff, List.mem_range]
    exact (Array.getElem?_eq_some_iff.1 hu).1
  obtain ⟨⟨u', span⟩, hq, rfl⟩ := List.mem_map.1 hmem
  exact ⟨span, lookup_of_mem (h.nodup horder) hq, h.holds u' span hq c hu⟩

omit [Scalar α] in
/-- Inputs are placed for each unit in its turn. -/
theorem PlacesInputs.owner (h : PlacesInputs m.units.toList s1 s2 ins) {u : Nat} {c : Component α}
    (hu : m.units[u]? = some c) : ∃ p, ins[u]? = some p ∧ p.owner = c := by
  have hc : (ins.map PlacedInputs.owner)[u]? = some c := by
    rw [h.owners, Array.getElem?_toList]
    exact hu
  rwa [List.getElem?_map, Option.map_eq_some_iff] at hc

omit [Scalar α] in
theorem PlacesInputs.owner_mem (h : PlacesInputs m.units.toList s1 s2 ins) {p : PlacedInputs α}
    (hp : p ∈ ins) : p.owner ∈ m.units := by
  have howner : p.owner ∈ ins.map PlacedInputs.owner := List.mem_map.2 ⟨p, hp, rfl⟩
  rw [h.owners] at howner
  simpa using howner

omit [Scalar α] in
/-- No id is given twice. -/
theorem PlacesInputs.nodup_ids {cs : List (Component α)} (h : PlacesInputs cs s1 s2 ins) :
    (ins.zipIdx.flatMap fun p => p.1.ids).Nodup := by
  have hflat : ins.zipIdx.flatMap (fun p => p.1.ids) = ins.flatMap PlacedInputs.ids := by
    rw [← List.flatMap_map (f := Prod.fst) (g := PlacedInputs.ids), List.zipIdx_map_fst]
  obtain ⟨count, hids⟩ := h.ids
  rw [hflat, hids]
  exact List.nodup_range'

/-- **The three passes succeed.** -/
theorem exists_passes (hm : m.Sound) (horder : order.Perm (List.range m.units.size)) :
    ∃ s1 s2 outs ins laid, m.layOut order = .ok laid ∧ Passes m order s1 s2 outs ins laid := by
  have hpaths := hm.nodup_paths (horder.nodup_iff.2 List.nodup_range)
  obtain ⟨s1, outs, hout, h1⟩ := placeOutputs_spec hm (s := .empty) Store.sound_empty
    (fun u hu => List.mem_range.1 (horder.mem_iff.1 hu))
    (by simpa [Store.names, Store.empty] using (List.nodup_append.1 hpaths).1)
  have hnames1 : s1.names = m.outputPaths order := by
    simpa [Store.names, Store.empty] using h1.registers.names
  obtain ⟨s2, ins, hin, h2⟩ := placeInputs_spec m.units.toList h1.registers.sound
    (by rw [hnames1]; exact hpaths)
    fun c hc v hv => (hm.declared c (by simpa using hc)).value_inputs v hv
  have hknown : OutputsKnown m s2 := by
    intro c hc
    obtain ⟨u, hu⟩ := Array.getElem?_of_mem hc
    obtain ⟨span, -, hat, -⟩ := h1.run horder hu
    exact ⟨span.start, hat.grows h2.registers.grows⟩
  obtain ⟨laid, hlaid, hroute⟩ := routeUnits_spec hm outs [] h2.registers.sound
    hknown (fun p hp => h2.owner_mem (List.fst_mem_of_mem_zipIdx hp))
    (fun p hp => h2.waiting p.1 (List.fst_mem_of_mem_zipIdx hp)) h2.nodup_ids
  refine ⟨s1, s2, outs, ins, laid, ?_, horder, h1, h2, hroute⟩
  simp only [layOut, hout, bind, Except.bind, hin, pure, Except.pure, hlaid]

/-- The arrangement that is read off a layout. -/
def LaidOut.arrangement (laid : LaidOut α) : Arrangement α :=
  ⟨laid.store.slots.size, laid.placements.toArray, laid.independents⟩

namespace Passes

variable (h : Passes m order s1 s2 outs ins laid)

include h

/-- The placement of a unit comes from the places of its inputs. -/
theorem placed {u : Nat} {c : Component α} (hu : m.units[u]? = some c) :
    ∃ p, ins[u]? = some p ∧ p.owner = c ∧ PlacedUnit m outs laid.store u p (laid.arrangement.unit u) := by
  obtain ⟨p, hp, howns⟩ := h.inputs.owner hu
  obtain ⟨placement, hplacement, hplaced⟩ := h.routes.placed hp
  refine ⟨p, hp, howns, ?_⟩
  simpa [LaidOut.arrangement, Arrangement.unit, hplacement] using hplaced

/-- The outputs of a unit have its run of slots. -/
theorem outputsAt {u : Nat} {c : Component α} (hu : m.units[u]? = some c) :
    OutputsAt laid.store c (laid.arrangement.unit u).outputs.start ∧
      (laid.arrangement.unit u).outputs.stop =
        (laid.arrangement.unit u).outputs.start + c.outputs.size := by
  obtain ⟨p, -, -, hplaced⟩ := h.placed hu
  obtain ⟨span, hlookup, hat, hstop⟩ := h.outputs.run h.perm hu
  rw [hplaced.outputs, hlookup]
  exact ⟨hat.grows (h.inputs.registers.grows.trans h.routes.grows), hstop⟩

/-- The inputs of a unit have its run of places. -/
theorem inputsAt (hm : m.Sound) {u : Nat} {c : Component α} (hu : m.units[u]? = some c) :
    InputsAt laid.store c (laid.arrangement.unit u).inputs.start ∧
      (laid.arrangement.unit u).inputs.stop =
        (laid.arrangement.unit u).inputs.start + c.inputs.size := by
  obtain ⟨p, hp, rfl, hplaced⟩ := h.placed hu
  obtain ⟨hat, hstop⟩ := h.inputs.inPlace p (List.mem_of_getElem? hp)
  rw [hplaced.inputs, (hm.declared _ (Array.mem_of_getElem? hu)).size_inputs]
  exact ⟨hat.grows h.routes.grows h.routes.sound, hstop⟩

/-- The runs of the units follow one another in order. -/
theorem tile_outputs :
    Span.Tile 0 (order.map fun u => (laid.arrangement.unit u).outputs) s1.slots.size := by
  have hmap : (order.map fun u => (laid.arrangement.unit u).outputs) = outs.map Prod.snd := by
    rw [← h.outputs.units, List.map_map]
    refine List.map_congr_left fun q hq => ?_
    have hmem : q.1 ∈ order := h.outputs.units ▸ List.mem_map.2 ⟨q, hq, rfl⟩
    have hlt : q.1 < m.units.size := List.mem_range.1 (h.perm.mem_iff.1 hmem)
    obtain ⟨p, -, -, hplaced⟩ := h.placed (Array.getElem?_eq_getElem hlt)
    show (laid.arrangement.unit q.1).outputs = q.2
    rw [hplaced.outputs, lookup_of_mem (h.outputs.nodup h.perm) hq]
    rfl
  rw [hmap]
  exact h.outputs.tile

/-- The places of the units follow one another. -/
theorem tile_inputs : Span.Tile 0
    ((List.range m.units.size).map fun u => (laid.arrangement.unit u).inputs)
      laid.store.inputs.size := by
  have hmap : ((List.range m.units.size).map fun u => (laid.arrangement.unit u).inputs) =
      ins.map PlacedInputs.range := by
    have hlength : ins.length = m.units.size := by
      rw [← Array.length_toList, ← h.inputs.owners, List.length_map]
    refine List.ext_getElem (by simp [hlength]) fun u hu _ => ?_
    have hlt : u < m.units.size := by simpa using hu
    obtain ⟨p, hp, -, hplaced⟩ := h.placed (Array.getElem?_eq_getElem hlt)
    rw [List.getElem_map, List.getElem_map, List.getElem_range, hplaced.inputs]
    rw [List.getElem?_eq_getElem (by omega)] at hp
    rw [Option.some.inj hp]
  have htile := h.inputs.tile
  rw [h.outputs.inputs] at htile
  rw [hmap, h.routes.buffer]
  exact htile

/-- The independent inputs come after all outputs, in order. -/
theorem independents : Span.Tile s1.slots.size laid.independents laid.store.slots.size ∧
    laid.independents.map some = (m.independentPaths m.units.toList).map laid.store.slotsOf := by
  obtain ⟨new, hnew, htile, hslots⟩ := h.routes.independents
  rw [List.nil_append] at hnew
  have howners : (ins.zipIdx.map fun p => p.1.owner) = m.units.toList := by
    rw [← h.inputs.owners, ← List.zipIdx_map_fst 0 ins, List.map_map, List.zipIdx_map_fst]
    rfl
  rw [hnew, ← howners, ← h.inputs.slots]
  exact ⟨htile, hslots⟩

end Passes

/-- **Laying out a model.** -/
theorem layOut_spec (hm : m.Sound) (horder : order.Perm (List.range m.units.size)) :
    ∃ laid, m.layOut order = .ok laid ∧ Laid m order laid.store
      ⟨laid.store.slots.size, laid.placements.toArray, laid.independents⟩ := by
  obtain ⟨s1, s2, outs, ins, laid, hlaid, h⟩ := exists_passes hm horder
  have hnames : s1.names = m.outputPaths order := by
    simpa [Store.names, Store.empty] using h.outputs.registers.names
  have hturn : ∀ c ∈ m.units, ∃ u p, (p, u) ∈ ins.zipIdx ∧ p.owner = c := fun c hc => by
    obtain ⟨u, hu⟩ := Array.getElem?_of_mem hc
    obtain ⟨p, hp, howns⟩ := h.inputs.owner hu
    exact ⟨u, p, List.mem_zipIdx_iff_getElem?.2 hp, howns⟩
  refine ⟨laid, hlaid, h.routes.sound, ?_, rfl, fun u c => h.outputsAt, fun u c => h.inputsAt hm,
    fun u c hu => ?_, fun c hc v hv => ?_, fun c hc v hv => ?_, h.independents.2,
    ⟨s1.slots.size, h.tile_outputs, h.independents.1⟩, h.tile_inputs⟩
  · rw [h.routes.names, h.inputs.registers.names, hnames]
  · obtain ⟨p, -, rfl, hplaced⟩ := h.placed hu
    exact hplaced.routes
  · obtain ⟨u, p, hp, rfl⟩ := hturn c hc
    exact h.routes.fed (p, u) hp v hv
  · obtain ⟨u, p, hp, rfl⟩ := hturn c hc
    exact h.routes.inputs (p, u) hp v hv

end Passes

end Mdao.Model
