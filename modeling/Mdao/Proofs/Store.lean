import Mathlib
import Mdao.Store
import Mdao.Proofs.Layout
import Mdao.Proofs.Span
import Mdao.Proofs.Step
import Mdao.Proofs.Vec

/-!
# The variable store while a model is laid out

A store is sound when names differ and each variable's runs of slots and inputs lie inside the buffers
and have the declared size (`Store.Sound`). Registering a variable of a new name keeps this and all
variables that are there (`Store.Registers`); giving an input slots of its own changes this one
variable and appends to the slots (`Store.makeIndependent_eq`). `Store.Grows` is what such steps have
in common. `Store.slotsOf` and `Store.placeOf` find the runs of a variable by its name. Writing values
changes neither variables nor the lengths of buffers (`Store.SameShape`).
-/

namespace Mdao

namespace Store

variable {α : Type}

/-- The same variable, which may have got slots. -/
structure Entry.Becomes (e e' : Entry α) : Prop where
  name : e'.name = e.name
  kind : e'.kind = e.kind
  declared : e'.declared = e.declared
  inputs : e'.inputs? = e.inputs?
  slots : ∀ r, e.slots? = some r → e'.slots? = some r

theorem Entry.Becomes.refl (e : Entry α) : e.Becomes e := ⟨rfl, rfl, rfl, rfl, fun _ h => h⟩

theorem Entry.Becomes.trans {e e' e'' : Entry α} (h : e.Becomes e') (h' : e'.Becomes e'') :
    e.Becomes e'' :=
  ⟨h'.name.trans h.name, h'.kind.trans h.kind, h'.declared.trans h.declared,
    h'.inputs.trans h.inputs, fun r hr => h'.slots r (h.slots r hr)⟩

/-- Variables stay, at their ids and in their slots, and the slots are added to. -/
structure Grows (s s' : Store α) : Prop where
  entries : ∀ (i : Nat) (e : Entry α), s.entries[i]? = some e →
    ∃ e', s'.entries[i]? = some e' ∧ e.Becomes e'
  slots : s.slots.size ≤ s'.slots.size

theorem Grows.refl (s : Store α) : s.Grows s := ⟨fun _ e h => ⟨e, h, .refl e⟩, le_rfl⟩

theorem Grows.trans {s s' s'' : Store α} (h : s.Grows s') (h' : s'.Grows s'') : s.Grows s'' := by
  refine ⟨fun i e he => ?_, h.slots.trans h'.slots⟩
  obtain ⟨e', he', hb⟩ := h.entries i e he
  obtain ⟨e'', he'', hb'⟩ := h'.entries i e' he'
  exact ⟨e'', he'', hb.trans hb'⟩

/-- The names of all variables. -/
def names (s : Store α) : List String := s.entries.toList.map Entry.name

/-- The slots of the variable of a name. -/
def slotsOf (s : Store α) (name : String) : Option Span :=
  (s.find? name).bind fun i => s.entries[i]?.bind Entry.slots?

/-- The place of the variable of a name among the inputs. -/
def placeOf (s : Store α) (name : String) : Option Span :=
  (s.find? name).bind fun i => s.entries[i]?.bind Entry.inputs?

variable {s s' : Store α} {name : String} {i : Nat} {e : Entry α}

/-- A variable is found by its name. -/
theorem find?_name (hs : s.names.Nodup) (he : s.entries[i]? = some e) : s.find? e.name = some i :=
  findIdx?_of_nodup hs he

theorem slotsOf_name (hs : s.names.Nodup) (he : s.entries[i]? = some e) :
    s.slotsOf e.name = e.slots? := by
  rw [slotsOf, find?_name hs he, Option.bind_some, he, Option.bind_some]

theorem placeOf_name (hs : s.names.Nodup) (he : s.entries[i]? = some e) :
    s.placeOf e.name = e.inputs? := by
  rw [placeOf, find?_name hs he, Option.bind_some, he, Option.bind_some]

/-- Where a variable is depends on the variables alone, not on values. -/
theorem slotsOf_congr (h : s'.entries = s.entries) : s'.slotsOf = s.slotsOf := by
  funext name
  simp only [slotsOf, find?, h]

theorem placeOf_congr (h : s'.entries = s.entries) : s'.placeOf = s.placeOf := by
  funext name
  simp only [placeOf, find?, h]

/-- A variable that is found has an entry. -/
theorem entry_of_find? (h : s.find? name = some i) :
    ∃ e, s.entries[i]? = some e ∧ e.name = name := by
  obtain ⟨e, he, hname⟩ := getElem?_of_findIdx? h
  exact ⟨e, he, by simpa using hname⟩

theorem entry_of_slotsOf {r : Span} (h : s.slotsOf name = some r) :
    ∃ (i : Nat) (e : Entry α), s.entries[i]? = some e ∧ e.name = name ∧ e.slots? = some r := by
  obtain ⟨i, hi, h⟩ := Option.bind_eq_some_iff.1 h
  obtain ⟨e, he, hname⟩ := entry_of_find? hi
  rw [he] at h
  exact ⟨i, e, he, hname, h⟩

theorem entry_of_placeOf {r : Span} (h : s.placeOf name = some r) :
    ∃ (i : Nat) (e : Entry α), s.entries[i]? = some e ∧ e.name = name ∧ e.inputs? = some r := by
  obtain ⟨i, hi, h⟩ := Option.bind_eq_some_iff.1 h
  obtain ⟨e, he, hname⟩ := entry_of_find? hi
  rw [he] at h
  exact ⟨i, e, he, hname, h⟩

/-- A variable keeps its slots while a store grows. -/
theorem Grows.slotsOf (hg : s.Grows s') (hs' : s'.names.Nodup) {r : Span}
    (h : s.slotsOf name = some r) : s'.slotsOf name = some r := by
  obtain ⟨i, e, he, rfl, hr⟩ := entry_of_slotsOf h
  obtain ⟨e', he', hb⟩ := hg.entries i e he
  rw [← hb.name, slotsOf_name hs' he']
  exact hb.slots r hr

/-- A variable keeps its place among the inputs while a store grows. -/
theorem Grows.placeOf (hg : s.Grows s') (hs' : s'.names.Nodup) {r : Span}
    (h : s.placeOf name = some r) : s'.placeOf name = some r := by
  obtain ⟨i, e, he, rfl, hr⟩ := entry_of_placeOf h
  obtain ⟨e', he', hb⟩ := hg.entries i e he
  rw [← hb.name, placeOf_name hs' he', hb.inputs]
  exact hr

theorem id_eq_ok : s.id name = .ok i ↔ s.find? name = some i := by
  unfold id
  cases s.find? name <;> simp

/-- A variable that is found has the name that was asked for. -/
theorem entry_of_id (h : s.id name = .ok i) : ∃ e, s.entries[i]? = some e ∧ e.name = name :=
  entry_of_find? (id_eq_ok.1 h)

/-- **What holds of a store while a model is laid out.** -/
structure Sound (s : Store α) : Prop where
  /-- Names differ. -/
  names : s.names.Nodup
  /-- Slots lie inside the buffer and are as many as declared. -/
  slots : ∀ e ∈ s.entries, ∀ r, e.slots? = some r →
    r.start ≤ r.stop ∧ r.stop ≤ s.slots.size ∧ r.size = e.declared.size
  /-- Inputs have places inside the buffer, as many as declared. -/
  inputs : ∀ e ∈ s.entries, e.kind = .input → ∃ r, e.inputs? = some r ∧
    r.start ≤ r.stop ∧ r.stop ≤ s.inputs.size ∧ r.size = e.declared.size
  /-- Outputs have no place among the inputs. -/
  outputs : ∀ e ∈ s.entries, e.kind = .output → e.inputs? = none
  /-- There is one residual for each slot. -/
  residuals : s.residuals.size = s.slots.size

theorem sound_empty : (empty : Store α).Sound := by
  refine ⟨by simp [empty, names], fun e he => ?_, fun e he => ?_, fun e he => ?_, rfl⟩
  all_goals simp [empty] at he

/-! ### Registering a variable -/

/-- A variable of a new name is registered under the next id. -/
theorem register_eq (h : e.name ∉ s.names) :
    s.register e = .ok ({ s with entries := s.entries.push e }, s.entries.size) := by
  have hnone : s.find? e.name = none := by
    rw [find?, Array.findIdx?_eq_none_iff]
    intro e' he'
    have : e'.name ≠ e.name := fun heq => h (List.mem_map.2 ⟨e', by simpa using he', heq⟩)
    simpa using this
  simp only [register, hnone]

theorem names_push : ({ s with entries := s.entries.push e } : Store α).names = s.names ++ [e.name] := by
  simp [names]

/-- Appending an entry keeps the others at their ids. -/
theorem grows_push (hentries : s'.entries = s.entries.push e)
    (hslots : s.slots.size ≤ s'.slots.size) : s.Grows s' := by
  refine ⟨fun i e' he' => ⟨e', ?_, .refl e'⟩, hslots⟩
  obtain ⟨hlt, -⟩ := Array.getElem?_eq_some_iff.1 he'
  rw [hentries, Array.getElem?_push, if_neg (by omega)]
  exact he'

/-- What registering variables does: they come last, in order. -/
structure Registers (s s' : Store α) (paths : List String) : Prop where
  sound : s'.Sound
  grows : s.Grows s'
  names : s'.names = s.names ++ paths

theorem Registers.nil (hs : s.Sound) : s.Registers s [] :=
  ⟨hs, .refl s, (List.append_nil _).symm⟩

theorem Registers.trans {s'' : Store α} {ps qs : List String} (h : s.Registers s' ps)
    (h' : s'.Registers s'' qs) : s.Registers s'' (ps ++ qs) :=
  ⟨h'.sound, h.grows.trans h'.grows, by rw [h'.names, h.names, List.append_assoc]⟩

variable [Scalar α] {v : Variable α}

/-- The entry of a new output. -/
def outputEntry (s : Store α) (name : String) (v : Variable α) : Entry α :=
  ⟨name, .output, v, none, some ⟨s.slots.size, s.slots.size + v.size⟩⟩

/-- The entry of a new input. -/
def inputEntry (s : Store α) (name : String) (v : Variable α) : Entry α :=
  ⟨name, .input, v, some ⟨s.inputs.size, s.inputs.size + v.size⟩, none⟩

omit [Scalar α] in
theorem nodup_names_push (hs : s.names.Nodup) (hname : e.name ∉ s.names) :
    (s.names ++ [e.name]).Nodup := by
  rw [← List.concat_eq_append]
  exact hs.concat hname

/-- **Registering an output** of a new name. -/
theorem addOutput_spec (hs : s.Sound) (hname : name ∉ s.names) (hv : v.value.size = v.size) :
    ∃ s', s.addOutput name v = .ok (s', s.entries.size) ∧ s.Registers s' [name] ∧
      s'.entries = s.entries.push (s.outputEntry name v) ∧ s'.inputs = s.inputs ∧
      s'.slots.size = s.slots.size + v.size := by
  have hregister := register_eq (e := s.outputEntry name v) hname
  have hsize : (s.slots ++ v.value).size = s.slots.size + v.size := by
    rw [Array.size_append, hv]
  refine ⟨{ s with
    entries := s.entries.push (s.outputEntry name v)
    slots := s.slots ++ v.value
    residuals := padTo s.residuals (s.slots ++ v.value).size }, ?_, ⟨⟨?_, fun e he r hr => ?_,
      fun e he hkind => ?_, fun e he hkind => ?_, ?_⟩, grows_push rfl ?_, ?_⟩, rfl, rfl, hsize⟩
  · unfold addOutput
    simp only [outputEntry] at hregister
    simp only [hregister, outputEntry]
  · exact names_push ▸ nodup_names_push hs.names hname
  · rcases Array.mem_push.1 he with he | rfl
    · obtain ⟨h1, h2, h3⟩ := hs.slots e he r hr
      exact ⟨h1, by dsimp only; omega, h3⟩
    · cases hr
      exact ⟨by simp, by simp [hsize], by simp [Span.size, outputEntry]⟩
  · rcases Array.mem_push.1 he with he | rfl
    · exact hs.inputs e he hkind
    · cases hkind
  · rcases Array.mem_push.1 he with he | rfl
    · exact hs.outputs e he hkind
    · rfl
  · simp only [padTo, Array.size_append, Vec.size_zeros, hs.residuals]
    omega
  · dsimp only
    omega
  · exact names_push

omit [Scalar α] in
/-- **Registering an input** of a new name. -/
theorem addInput_spec (hs : s.Sound) (hname : name ∉ s.names) (hv : v.value.size = v.size) :
    ∃ s', s.addInput name v = .ok (s', s.entries.size) ∧ s.Registers s' [name] ∧
      s'.entries = s.entries.push (s.inputEntry name v) ∧ s'.slots = s.slots ∧
      s'.inputs.size = s.inputs.size + v.size := by
  have hregister := register_eq (e := s.inputEntry name v) hname
  have hsize : (s.inputs ++ v.value).size = s.inputs.size + v.size := by
    rw [Array.size_append, hv]
  refine ⟨{ s with
    entries := s.entries.push (s.inputEntry name v)
    inputs := s.inputs ++ v.value }, ?_, ⟨⟨?_, fun e he r hr => ?_, fun e he hkind => ?_,
      fun e he hkind => ?_, hs.residuals⟩, grows_push rfl le_rfl, ?_⟩, rfl, rfl, hsize⟩
  · unfold addInput
    simp only [inputEntry] at hregister
    simp only [hregister, inputEntry]
  · exact names_push ▸ nodup_names_push hs.names hname
  · rcases Array.mem_push.1 he with he | rfl
    · exact hs.slots e he r hr
    · cases hr
  · rcases Array.mem_push.1 he with he | rfl
    · obtain ⟨r, hr, h1, h2, h3⟩ := hs.inputs e he hkind
      exact ⟨r, hr, h1, by dsimp only; omega, h3⟩
    · exact ⟨_, rfl, by simp, by simp [hsize], by simp [Span.size, inputEntry]⟩
  · rcases Array.mem_push.1 he with he | rfl
    · exact hs.outputs e he hkind
    · cases hkind
  · exact names_push

/-! ### Independent inputs -/

/-- The entry of a variable that has been given slots. -/
def Entry.placedAt (range : Span) (e : Entry α) : Entry α := { e with slots? := some range }

/-- The store in which a variable has been given new slots behind all others. -/
def withSlots (s : Store α) (i : Nat) (source : Span) : Store α :=
  let slots := s.slots ++ Vec.slice s.inputs source
  { s with
    slots := slots
    residuals := padTo s.residuals slots.size
    entries := s.entries.modify i (Entry.placedAt ⟨s.slots.size, s.slots.size + source.size⟩) }

theorem makeIndependent_eq {source : Span} (hi : s.entries[i]? = some e)
    (hslots : e.slots? = none) (hsource : e.inputs? = some source) :
    s.makeIndependent i =
      (s.withSlots i source, ⟨s.slots.size, s.slots.size + source.size⟩) := by
  have hnone : s.slots? i = none := by
    rw [slots?, hi]
    exact hslots
  have hplace : (s.inputs? i).getD ⟨0, 0⟩ = source := by
    rw [inputs?, hi]
    simp [hsource]
  simp only [makeIndependent, hnone, hplace]
  rfl

theorem size_slots_withSlots (s : Store α) (i : Nat) (source : Span) :
    (s.withSlots i source).slots.size = s.slots.size + source.size := by
  simp only [withSlots, Array.size_append, Vec.size_slice]

theorem getElem?_withSlots (s : Store α) (i j : Nat) (source : Span) :
    (s.withSlots i source).entries[j]? = if i = j then
      s.entries[j]?.map (Entry.placedAt ⟨s.slots.size, s.slots.size + source.size⟩)
    else s.entries[j]? := Array.getElem?_modify

theorem names_withSlots (s : Store α) (i : Nat) (source : Span) :
    (s.withSlots i source).names = s.names := by
  refine List.ext_getElem? fun j => ?_
  simp only [names, List.getElem?_map, Array.getElem?_toList, getElem?_withSlots]
  split_ifs
  · rw [Option.map_map]
    rfl
  · rfl

theorem Sound.withSlots (hs : s.Sound) {source : Span} (hi : s.entries[i]? = some e)
    (hsize : source.size = e.declared.size) : (s.withSlots i source).Sound := by
  refine ⟨by rw [names_withSlots]; exact hs.names, fun e' he' r hr => ?_, fun e' he' hkind => ?_,
    fun e' he' hkind => ?_, ?_⟩
  rotate_right
  · have hslots := size_slots_withSlots s i source
    simp only [Store.withSlots] at hslots ⊢
    simp only [padTo, Array.size_append, Vec.size_zeros, hs.residuals] at hslots ⊢
    omega
  all_goals
    obtain ⟨j, hj⟩ := Array.getElem?_of_mem he'
    rw [getElem?_withSlots] at hj
    split_ifs at hj with hij
  · rw [size_slots_withSlots]
    rw [← hij, hi] at hj
    cases hj
    cases hr
    exact ⟨Nat.le_add_right _ _, le_rfl, (Nat.add_sub_cancel_left _ _).trans hsize⟩
  · rw [size_slots_withSlots]
    obtain ⟨h1, h2, h3⟩ := hs.slots e' (Array.mem_of_getElem? hj) r hr
    exact ⟨h1, h2.trans (Nat.le_add_right _ _), h3⟩
  · rw [← hij, hi] at hj
    cases hj
    exact hs.inputs e (Array.mem_of_getElem? hi) hkind
  · exact hs.inputs e' (Array.mem_of_getElem? hj) hkind
  · rw [← hij, hi] at hj
    cases hj
    exact hs.outputs e (Array.mem_of_getElem? hi) hkind
  · exact hs.outputs e' (Array.mem_of_getElem? hj) hkind

theorem grows_withSlots {source : Span} (hi : s.entries[i]? = some e)
    (hslots : e.slots? = none) : s.Grows (s.withSlots i source) := by
  refine ⟨fun j e' he' => ?_, by rw [size_slots_withSlots]; exact Nat.le_add_right _ _⟩
  rw [getElem?_withSlots]
  split_ifs with hij
  · rw [← hij, hi] at he'
    cases he'
    rw [← hij, hi]
    refine ⟨_, rfl, rfl, rfl, rfl, rfl, fun r hr => ?_⟩
    rw [hslots] at hr
    cases hr
  · exact ⟨e', he', .refl e'⟩

/-! ### Stores that differ in values -/

/-- The same variables, in buffers of the same lengths. -/
structure SameShape (s t : Store α) : Prop where
  entries : t.entries = s.entries
  slots : t.slots.size = s.slots.size
  residuals : t.residuals.size = s.residuals.size
  inputs : t.inputs.size = s.inputs.size

omit [Scalar α] in
theorem SameShape.refl (s : Store α) : s.SameShape s := ⟨rfl, rfl, rfl, rfl⟩

omit [Scalar α] in
theorem SameShape.trans {s t u : Store α} (h : s.SameShape t) (h' : t.SameShape u) :
    s.SameShape u :=
  ⟨h'.entries.trans h.entries, h'.slots.trans h.slots, h'.residuals.trans h.residuals,
    h'.inputs.trans h.inputs⟩

omit [Scalar α] in
theorem SameShape.symm {s t : Store α} (h : s.SameShape t) : t.SameShape s :=
  ⟨h.entries.symm, h.slots.symm, h.residuals.symm, h.inputs.symm⟩

/-- Writing a value keeps the variables and the residuals. -/
theorem sameShape_setById {value : Array α} (h : s.setById i value = .ok s') :
    s.SameShape s' ∧ s'.residuals = s.residuals := by
  unfold setById at h
  dsimp only at h
  split_ifs at h
  cases h
  refine ⟨⟨rfl, ?_, rfl, ?_⟩, rfl⟩
  · dsimp only
    cases s.slots? i <;> simp
  · dsimp only
    cases s.inputs? i <;> simp

/-! ### Values by name -/

/-- What the slots of a variable hold. -/
def held (s : Store α) (name : String) : Option (Array α) := (s.slotsOf name).map (Vec.slice s.slots)

/-- An input has the value that was transferred. -/
theorem get_of_placeOf {r : Span} (h : s.placeOf name = some r) :
    s.get name = .ok (Vec.slice s.inputs r) := by
  obtain ⟨i, hi, hr⟩ := Option.bind_eq_some_iff.1 h
  have hplace : s.inputs? i = some r := hr
  rw [get, id_eq_ok.2 hi]
  simp only [valueOf, hplace]

/-- A variable without a place among the inputs has the value in its slots. -/
theorem get_of_slotsOf {r : Span} (hplace : s.placeOf name = none) (h : s.slotsOf name = some r) :
    s.get name = .ok (Vec.slice s.slots r) := by
  obtain ⟨i, hi, hr⟩ := Option.bind_eq_some_iff.1 h
  rw [placeOf, hi, Option.bind_some] at hplace
  have hnone : s.inputs? i = none := hplace
  have hslots : s.slots? i = some r := hr
  rw [get, id_eq_ok.2 hi]
  simp only [valueOf, hnone, hslots]

/-- A variable with slots has the residuals of these. -/
theorem residual_of_slotsOf {r : Span} (h : s.slotsOf name = some r) :
    s.residual name = .ok (Vec.slice s.residuals r) := by
  obtain ⟨i, hi, hr⟩ := Option.bind_eq_some_iff.1 h
  have hslots : s.slots? i = some r := hr
  refine bind_eq_ok.2 ⟨i, id_eq_ok.2 hi, ?_⟩
  simp only [hslots]
  rfl

theorem get_of_unknown (h : name ∉ s.names) : s.get name = .error (.unknownVariable name) := by
  have hnone : s.find? name = none := by
    by_contra hsome
    obtain ⟨i, hi⟩ := Option.ne_none_iff_exists'.1 hsome
    obtain ⟨e, he, rfl⟩ := entry_of_find? hi
    exact h (List.mem_map.2 ⟨e, by simpa using Array.mem_of_getElem? he, rfl⟩)
  simp only [get, id, hnone]

end Store

end Mdao
