import Mdao.Proofs.Component.Declared

/-!
# Variables and blocks by names

Variables of a component differ in their names (`Component.named_of_declare`), and blocks of partial
derivatives are found by the names of their two variables (`Partials.Keyed.find?`). A declaration
covers the pairs of variables whose names it gives, where `*` stands for all of them; those are the
pairs it is carried out for (`Component.Named.mem_outputsNamed`, `Component.Named.mem_wrtsNamed`).
-/

namespace Mdao

variable {α : Type}

/-! ### Blocks by names -/

/-- The names by which a block is found. -/
def PartialBlock.key (b : PartialBlock α) : String × String := (b.outputName, b.wrtName)

/-- The pair of variables of a block. -/
def PartialBlock.pair (b : PartialBlock α) : Nat × Wrt := (b.output, b.wrt)

namespace Partials

variable {p : Partials α} {b b' : PartialBlock α}

/-- No two blocks have the same names. -/
def Keyed (p : Partials α) : Prop := (p.blocks.toList.map PartialBlock.key).Nodup

theorem keyed_empty : (empty : Partials α).Keyed := List.nodup_nil

theorem position?_eq_none {output wrt : String} :
    p.position? output wrt = none ↔ ∀ b ∈ p.blocks, b.key ≠ (output, wrt) := by
  simp [position?, PartialBlock.key, Array.findIdx?_eq_none_iff]

/-- A position that is found is that of a block of the names. -/
theorem exists_of_position? {output wrt : String} {i : Nat} (h : p.position? output wrt = some i) :
    ∃ b, p.blocks[i]? = some b ∧ b.key = (output, wrt) := by
  obtain ⟨b, hb, hkey⟩ := getElem?_of_findIdx? h
  refine ⟨b, hb, ?_⟩
  simpa [PartialBlock.key] using hkey

/-- **Writes stop at the first that fails**, and those before it stay. -/
theorem writeAll_eq_error {p p' : Partials α} {ws : List (PartialWrite α)} {e : EvalError}
    (h : p.writeAll ws = .error e p') :
    ∃ done w rest cause, ws = done ++ w :: rest ∧ p.writeAll done = .ok () p' ∧
      p'.write w = .error cause ∧ e = .partials cause := by
  induction ws generalizing p with
  | nil => cases h
  | cons w ws ih =>
    unfold writeAll at h
    cases hw : p.write w with
    | error cause =>
      rw [hw] at h
      cases h
      exact ⟨[], w, ws, cause, rfl, rfl, hw, rfl⟩
    | ok q =>
      rw [hw] at h
      obtain ⟨done, w', rest, cause, rfl, hdone, hw', he⟩ := ih h
      refine ⟨w :: done, w', rest, cause, rfl, ?_, hw', he⟩
      rw [writeAll, hw]
      exact hdone

namespace Keyed

/-- Blocks of the same names are in the same place. -/
theorem eq_of_key (h : p.Keyed) {i j : Nat} (hi : p.blocks[i]? = some b)
    (hj : p.blocks[j]? = some b') (hkey : b.key = b'.key) : i = j := by
  have hlt : i < (p.blocks.toList.map PartialBlock.key).length := by
    simpa using (Array.getElem?_eq_some_iff.1 hi).1
  exact (List.getElem?_inj hlt h).1 (by simp [hi, hj, hkey])

/-- A block is found by its names. -/
theorem find? (h : p.Keyed) (hb : b ∈ p.blocks) : p.find? b.outputName b.wrtName = some b := by
  obtain ⟨i, hi⟩ := Array.getElem?_of_mem hb
  cases hposition : p.position? b.outputName b.wrtName with
  | none => exact absurd rfl (position?_eq_none.1 hposition b hb)
  | some j =>
    obtain ⟨b', hj, hkey⟩ := exists_of_position? hposition
    obtain rfl : j = i := h.eq_of_key hj hi hkey
    rw [Partials.find?, hposition]
    exact hi

/-- What is found by names is the block of these names. -/
theorem find?_eq_some (h : p.Keyed) {output wrt : String} :
    p.find? output wrt = some b ↔ b ∈ p.blocks ∧ b.key = (output, wrt) := by
  constructor
  · intro hfound
    obtain ⟨i, hi, hb⟩ := Option.bind_eq_some_iff.1 hfound
    obtain ⟨b', hb', hkey⟩ := exists_of_position? hi
    obtain rfl := Option.some.inj (hb.symm.trans hb')
    exact ⟨Array.mem_of_getElem? hb, hkey⟩
  · rintro ⟨hb, hkey⟩
    obtain ⟨rfl, rfl⟩ := Prod.mk.inj hkey
    exact h.find? hb

/-- A block put among others replaces the one of its names. -/
theorem mem_insert_iff (h : p.Keyed) :
    b' ∈ (p.insert b).blocks ↔ b' = b ∨ b' ∈ p.blocks ∧ b'.key ≠ b.key := by
  unfold Partials.insert
  cases hposition : p.position? b.outputName b.wrtName with
  | none =>
    have hnew := position?_eq_none.1 hposition
    rw [Array.mem_push, or_comm]
    exact or_congr_right ⟨fun hb' => ⟨hb', hnew b' hb'⟩, And.left⟩
  | some i =>
    obtain ⟨old, hold, hkey⟩ := exists_of_position? hposition
    obtain ⟨hi, -⟩ := Array.getElem?_eq_some_iff.1 hold
    simp only [Array.mem_iff_getElem?, Array.getElem?_setIfInBounds]
    constructor
    · rintro ⟨j, hj⟩
      split_ifs at hj with hij
      · exact .inl (Option.some.inj hj).symm
      · refine .inr ⟨⟨j, hj⟩, fun hsame => hij ?_⟩
        exact h.eq_of_key hold hj (hkey.trans hsame.symm)
    · rintro (rfl | ⟨⟨j, hj⟩, hne⟩)
      · exact ⟨i, by rw [if_pos rfl, if_pos hi]⟩
      · refine ⟨j, ?_⟩
        rw [if_neg fun hij => hne ?_]
        · exact hj
        · subst hij
          rw [← Option.some.inj (hold.symm.trans hj)]
          exact hkey

theorem insert (h : p.Keyed) (b : PartialBlock α) : (p.insert b).Keyed := by
  unfold Partials.insert
  cases hposition : p.position? b.outputName b.wrtName with
  | none =>
    have hnew := position?_eq_none.1 hposition
    simp only [Keyed, Array.toList_push, List.map_append, List.map_cons, List.map_nil]
    rw [← List.concat_eq_append]
    refine List.Nodup.concat (fun hmem => ?_) h
    obtain ⟨b', hb', hkey⟩ := List.mem_map.1 hmem
    exact hnew b' (Array.mem_toList_iff.1 hb') hkey
  | some i =>
    -- the list of names stays as it is
    obtain ⟨old, hold, hkey⟩ := exists_of_position? hposition
    have hnames : (p.blocks.setIfInBounds i b).toList.map PartialBlock.key =
        p.blocks.toList.map PartialBlock.key := by
      refine List.ext_getElem? fun j => ?_
      simp only [List.getElem?_map, Array.getElem?_toList, Array.getElem?_setIfInBounds]
      by_cases hij : i = j
      · subst hij
        obtain ⟨hi, -⟩ := Array.getElem?_eq_some_iff.1 hold
        rw [if_pos rfl, if_pos hi, hold, Option.map_some, Option.map_some, hkey]
        rfl
      · rw [if_neg hij]
    unfold Keyed
    rw [hnames]
    exact h

end Keyed

end Partials

namespace Component

/-- Variables of a component differ in their names. -/
structure Named (c : Component α) : Prop where
  inputs : c.inputs.names.Nodup
  outputs : c.outputs.names.Nodup
  disjoint : ∀ name ∈ c.outputs.names, name ∉ c.inputs.names

/-- A variable of differentiation of a component: an input, or an output of an implicit one. -/
def HasWrt (c : Component α) : Wrt → Prop
  | .input i => i < c.inputs.length
  | .output i => c.isImplicit = true ∧ i < c.outputs.length

/-- A pair of an output and a variable of differentiation. -/
def HasPair (c : Component α) (pair : Nat × Wrt) : Prop :=
  pair.1 < c.outputs.length ∧ c.HasWrt pair.2

/-- The names of a pair. -/
def keyOf (c : Component α) (pair : Nat × Wrt) : String × String :=
  (c.outputs.nameAt pair.1, (c.wrtField pair.2).1)

/-- **A declaration covers a pair** when it gives its names, or `*` in the place of one. -/
def Covers (c : Component α) (d : PartialDeclaration α) (pair : Nat × Wrt) : Prop :=
  c.HasPair pair ∧ (d.output = "*" ∨ d.output = (c.keyOf pair).1) ∧
    (d.wrt = "*" ∨ d.wrt = (c.keyOf pair).2)

section Names

variable {c c' : Component α} {name : String}

/-- Variables of differentiation of one name are the same. -/
theorem Named.eq_of_wrt (h : c.Named) {w w' : Wrt} (hw : c.HasWrt w) (hw' : c.HasWrt w')
    (heq : (c.wrtField w).1 = (c.wrtField w').1) : w = w' := by
  cases w with
  | input i =>
    cases w' with
    | input j => rw [Layout.eq_of_nameAt h.inputs hw hw' heq]
    | output j =>
      have hmem : c.outputs.nameAt j ∈ c.inputs.names := by
        rw [← show c.inputs.nameAt i = c.outputs.nameAt j from heq]
        exact Layout.nameAt_mem hw
      exact absurd hmem (h.disjoint _ (Layout.nameAt_mem hw'.2))
  | output i =>
    cases w' with
    | input j =>
      have hmem : c.outputs.nameAt i ∈ c.inputs.names := by
        rw [show c.outputs.nameAt i = c.inputs.nameAt j from heq]
        exact Layout.nameAt_mem hw'
      exact absurd hmem (h.disjoint _ (Layout.nameAt_mem hw.2))
    | output j => rw [Layout.eq_of_nameAt h.outputs hw.2 hw'.2 heq]

/-- Pairs of the same names are the same. -/
theorem Named.eq_of_keyOf (h : c.Named) {p q : Nat × Wrt} (hp : c.HasPair p) (hq : c.HasPair q)
    (heq : c.keyOf p = c.keyOf q) : p = q := by
  obtain ⟨hout, hwrt⟩ := Prod.mk.inj heq
  exact Prod.ext (Layout.eq_of_nameAt h.outputs hp.1 hq.1 hout) (h.eq_of_wrt hp.2 hq.2 hwrt)

/-- The outputs that a name stands for. -/
theorem Named.mem_outputsNamed (h : c.Named) {os : List Nat} (hos : c.outputsNamed name = .ok os)
    {o : Nat} : o ∈ os ↔ o < c.outputs.length ∧ (name = "*" ∨ name = c.outputs.nameAt o) := by
  unfold outputsNamed at hos
  split_ifs at hos with hall
  · cases hos
    rw [List.mem_range, beq_iff_eq.1 hall]
    exact ⟨fun ho => ⟨ho, .inl rfl⟩, And.left⟩
  · have hne : name ≠ "*" := fun heq => hall (beq_iff_eq.2 heq)
    cases hposition : c.outputs.position? name with
    | none => simp [hposition] at hos
    | some i =>
      simp only [hposition] at hos
      cases hos
      rw [Layout.position?_eq_some h.outputs] at hposition
      obtain ⟨hi, rfl⟩ := hposition
      rw [List.mem_singleton]
      constructor
      · rintro rfl
        exact ⟨hi, .inr rfl⟩
      · rintro ⟨ho, hall | heq⟩
        · exact absurd hall hne
        · exact Layout.eq_of_nameAt h.outputs ho hi heq.symm

/-- The variables of differentiation that a name stands for. -/
theorem Named.mem_wrtsNamed (h : c.Named) {ws : List Wrt} (hws : c.wrtsNamed name = .ok ws)
    {w : Wrt} : w ∈ ws ↔ c.HasWrt w ∧ (name = "*" ∨ name = (c.wrtField w).1) := by
  unfold wrtsNamed at hws
  by_cases hall : (name == "*") = true
  · rw [if_pos hall] at hws
    cases hws
    rw [beq_iff_eq.1 hall]
    simp only [true_or, and_true, List.mem_append, List.mem_map, List.mem_range]
    cases himplicit : c.isImplicit <;> cases w <;> simp [HasWrt, himplicit]
  · rw [if_neg hall] at hws
    have hne : name ≠ "*" := fun heq => hall (beq_iff_eq.2 heq)
    -- the one variable of the name, once it is known to be one of the component
    have hone : ∀ v : Wrt, c.HasWrt v → (c.wrtField v).1 = name →
        (w ∈ [v] ↔ c.HasWrt w ∧ (name = "*" ∨ name = (c.wrtField w).1)) := by
      intro v hv hname
      rw [List.mem_singleton]
      constructor
      · rintro rfl
        exact ⟨hv, .inr hname.symm⟩
      · rintro ⟨hw, hstar | heq⟩
        · exact absurd hstar hne
        · exact h.eq_of_wrt hw hv (heq.symm.trans hname.symm)
    cases hin : c.inputs.position? name with
    | some i =>
      simp only [hin] at hws
      cases hws
      obtain ⟨hi, hname⟩ := (Layout.position?_eq_some h.inputs).1 hin
      exact hone (.input i) hi hname
    | none =>
      cases hout : c.outputs.position? name with
      | none => simp [hin, hout] at hws
      | some i =>
        simp only [hin, hout] at hws
        split_ifs at hws with himplicit
        cases hws
        obtain ⟨hi, hname⟩ := (Layout.position?_eq_some h.outputs).1 hout
        exact hone (.output i) ⟨himplicit, hi⟩ hname

end Names

/-! ### Components with the same variables -/

/-- Components with the same variables. -/
structure SameVariables (c c' : Component α) : Prop where
  discipline : c'.discipline = c.discipline
  inputs : c'.inputs = c.inputs
  outputs : c'.outputs = c.outputs

section Same

variable {c c' : Component α} {d : PartialDeclaration α}

theorem Declares.sameVariables [Scalar α] (h : c.Declares c') : c.SameVariables c' :=
  ⟨h.discipline, h.inputs, h.outputs⟩

theorem Alike.sameVariables [Scalar α] (h : c.Alike c') : c.SameVariables c' :=
  ⟨h.discipline, h.inputs, h.outputs⟩

namespace SameVariables

variable (h : c.SameVariables c')

include h

theorem symm : c'.SameVariables c := ⟨h.discipline.symm, h.inputs.symm, h.outputs.symm⟩

theorem isImplicit : c'.isImplicit = c.isImplicit := by
  rw [Component.isImplicit, h.discipline, Component.isImplicit]

theorem wrtField (w : Wrt) : c'.wrtField w = c.wrtField w := by
  cases w <;> simp only [Component.wrtField, h.inputs, h.outputs]

theorem columnAt (w : Wrt) (k : Nat) : c'.columnAt w k = c.columnAt w k := by
  cases w <;> simp only [Component.columnAt, h.inputs, h.outputs]

theorem keyOf (p : Nat × Wrt) : c'.keyOf p = c.keyOf p := by
  rw [Component.keyOf, h.outputs, h.wrtField, Component.keyOf]

theorem hasWrt (w : Wrt) : c'.HasWrt w ↔ c.HasWrt w := by
  cases w <;> simp only [HasWrt, h.inputs, h.outputs, h.isImplicit]

theorem hasPair (p : Nat × Wrt) : c'.HasPair p ↔ c.HasPair p := by
  rw [HasPair, h.outputs, h.hasWrt, HasPair]

theorem covers (p : Nat × Wrt) : c'.Covers d p ↔ c.Covers d p := by
  rw [Covers, h.hasPair, h.keyOf, Covers]

theorem named (hc : c.Named) : c'.Named := by
  refine ⟨?_, ?_, ?_⟩
  · rw [h.inputs]
    exact hc.inputs
  · rw [h.outputs]
    exact hc.outputs
  · rw [h.inputs, h.outputs]
    exact hc.disjoint

end SameVariables

/-- Names of variables of a declared component differ. -/
theorem named_of_declare [Scalar α] {name : String} {d : Discipline α}
    (h : declare name d = .ok c) : c.Named := by
  obtain ⟨inputs, hinputs, h⟩ := bind_eq_ok.1 h
  obtain ⟨outputs, houtputs, h⟩ := bind_eq_ok.1 h
  have hi := laysOut hinputs
  have ho := laysOut houtputs
  have hnil : Layout.empty.names = [] := rfl
  refine (declares_partials h).sameVariables.named ⟨hi.nodup List.nodup_nil,
    ho.nodup List.nodup_nil, fun name hname => ?_⟩
  have hnames : outputs.names = d.outputs.map Variable.name := by
    rw [ho.names, hnil, List.nil_append]
  change name ∈ outputs.names at hname
  rw [hnames] at hname
  obtain ⟨v, hv, rfl⟩ := List.mem_map.1 hname
  exact ho.fresh v hv

end Same

end Component

end Mdao
