import Mathlib
import Mdao.Proofs.Measure.Conversion
import Mdao.Proofs.Store

/-!
# Units of stored variables

A stored variable (`Store.Stored`) is registered under its name and its values lie inside the buffers,
as every variable's of a sound store do (`Store.Sound.stored`). Its values may be written in one unit
and read in another. **What is read is what was written, converted from the one unit to the other**,
whatever unit the variable is declared in (`Store.getInUnits_setInUnits`): the declared unit is passed
through, there and back, and conversions compose.
-/

namespace Mdao

namespace Store

open Vec

section

variable {α : Type}

/-- A run inside a buffer, as long as a variable is declared to be. -/
structure Inside (buffer : Array α) (v : Variable α) (r : Span) : Prop where
  size : r.size = v.size
  le : r.stop ≤ buffer.size

/-- A variable under its name, with its values inside the buffers. -/
structure Stored (s : Store α) (i : ℕ) (e : Entry α) : Prop where
  found : s.find? e.name = some i
  entry : s.entries[i]? = some e
  placed : e.inputs? ≠ none ∨ e.slots? ≠ none
  inputs : ∀ r, e.inputs? = some r → Inside s.inputs e.declared r
  slots : ∀ r, e.slots? = some r → Inside s.slots e.declared r

/-- Every variable of a sound store that has a place is stored. -/
theorem Sound.stored {s : Store α} (hs : s.Sound) {i : ℕ} {e : Entry α}
    (he : s.entries[i]? = some e) (hplaced : e.inputs? ≠ none ∨ e.slots? ≠ none) :
    s.Stored i e := by
  have hmem := Array.mem_of_getElem? he
  refine ⟨find?_name hs.names he, he, hplaced, fun r hr => ?_, fun r hr => ?_⟩
  · cases hkind : e.kind with
    | input =>
      obtain ⟨r', hr', -, hle, hsize⟩ := hs.inputs e hmem hkind
      obtain rfl : r = r' := Option.some.inj (hr.symm.trans hr')
      exact ⟨hsize, hle⟩
    | output =>
      rw [hs.outputs e hmem hkind] at hr
      cases hr
  · obtain ⟨-, hle, hsize⟩ := hs.slots e hmem r hr
    exact ⟨hsize, hle⟩

end

section

variable {α : Type} [Scalar α] {s : Store α} {i : ℕ} {e : Entry α} {x : Array α}

/-- An input has its transferred value. -/
theorem valueOf_of_inputs {r : Span} (h : s.inputs? i = some r) :
    s.valueOf i = slice s.inputs r := by
  rw [valueOf, h]

/-- What is no input has the value in its slots. -/
theorem valueOf_of_slots {r : Span} (h : s.inputs? i = none) (h' : s.slots? i = some r) :
    s.valueOf i = slice s.slots r := by
  rw [valueOf, h, h']

/-- **A value that has been written is read**, and no variable is declared in another way. -/
theorem Stored.setById_spec (hs : s.Stored i e) (hx : x.size = e.declared.size) :
    ∃ s', s.setById i x = .ok s' ∧ s'.valueOf i = x ∧ s'.entries = s.entries := by
  have hinputs : s.inputs? i = e.inputs? := by rw [inputs?, hs.entry, Option.bind_some]
  have hslots : s.slots? i = e.slots? := by rw [slots?, hs.entry, Option.bind_some]
  have hsize : s.sizeOf i = e.declared.size := by simp only [sizeOf, hs.entry]
  refine ⟨{ s with
      inputs := (e.inputs?.map fun r => splice s.inputs r x).getD s.inputs
      slots := (e.slots?.map fun r => splice s.slots r x).getD s.slots }, ?_, ?_, rfl⟩
  · rw [setById, hsize, if_neg (not_not.2 hx), hinputs, hslots]
    cases e.inputs? <;> cases e.slots? <;> rfl
  · have hwritten : ∀ {buffer : Array α} {r : Span}, Inside buffer e.declared r →
        slice (splice buffer r x) r = x :=
      fun h => slice_splice_self (hx.trans h.size.symm) h.le
    cases hi : e.inputs? with
    | some r =>
      rw [valueOf_of_inputs (r := r)]
      · exact hwritten (hs.inputs r hi)
      · exact hinputs.trans hi
    | none =>
      cases ho : e.slots? with
      | some r =>
        rw [valueOf_of_slots (r := r)]
        · exact hwritten (hs.slots r ho)
        · exact hinputs.trans hi
        · exact hslots.trans ho
      | none => exact absurd hs.placed (by simp [hi, ho])

theorem converter_eq_ok {origin target : String} {k : Conversion α}
    (h : Measure.conversion origin target = .ok k) : converter origin target = .ok k := by
  simp only [converter, h]

omit [Scalar α] in
theorem declaredUnits_eq_ok (he : s.entries[i]? = some e) {d : String}
    (hd : e.declared.units = some d) (u : String) : s.declaredUnits i u = .ok d := by
  simp only [declaredUnits, he, Option.bind_some, hd]

/-- Writing in a unit writes the converted value. -/
theorem setInUnits_of_setById (hfound : s.find? e.name = some i) (he : s.entries[i]? = some e)
    {d u : String} (hd : e.declared.units = some d) {k : Conversion α}
    (hk : Measure.conversion u d = .ok k) {s' : Store α}
    (hset : s.setById i (x.map k.apply) = .ok s') : s.setInUnits e.name x u = .ok s' :=
  bind_eq_ok.2 ⟨i, id_eq_ok.2 hfound, bind_eq_ok.2 ⟨d, declaredUnits_eq_ok he hd u,
    bind_eq_ok.2 ⟨k, converter_eq_ok hk, hset⟩⟩⟩

/-- Reading in a unit converts the value. -/
theorem getInUnits_of_valueOf (hfound : s.find? e.name = some i) (he : s.entries[i]? = some e)
    {d w : String} (hd : e.declared.units = some d) {l : Conversion α}
    (hl : Measure.conversion d w = .ok l) (hx : s.valueOf i = x) :
    s.getInUnits e.name w = .ok (x.map l.apply) :=
  bind_eq_ok.2 ⟨i, id_eq_ok.2 hfound, bind_eq_ok.2 ⟨d, declaredUnits_eq_ok he hd w,
    bind_eq_ok.2 ⟨l, converter_eq_ok hl, by rw [hx]; rfl⟩⟩⟩

end

section

variable {α β : Type} [Scalar α] [ExactScalar β]

/-- **A value that is written in one unit and read in another has been converted from the one to the
other**, whatever unit the variable is declared in. -/
theorem getInUnits_setInUnits {s : Store β} {i : ℕ} {e : Entry β} (hs : s.Stored i e)
    {d u w : String} (hd : e.declared.units = some d) {k l : Conversion β}
    (hk : Measure.conversion u d = .ok k) (hl : Measure.conversion d w = .ok l) {x : Array β}
    (hx : x.size = e.declared.size) :
    ∃ s' j, s.setInUnits e.name x u = .ok s' ∧ Measure.conversion u w = .ok j ∧
      s'.getInUnits e.name w = .ok (x.map j.apply) := by
  obtain ⟨s', hset, hvalue, hentries⟩ := hs.setById_spec (x := x.map k.apply) (by simpa using hx)
  obtain ⟨j, hj, happly⟩ := Measure.conversion_through hk hl
  have hfound : s'.find? e.name = some i := by
    rw [find?, hentries]
    exact hs.found
  have hentry : s'.entries[i]? = some e := by
    rw [hentries]
    exact hs.entry
  have hmap : (x.map k.apply).map l.apply = x.map j.apply := by
    rw [Array.map_map]
    exact congrArg (Array.map · x) (funext fun y => (happly y).symm)
  exact ⟨s', j, setInUnits_of_setById hs.found hs.entry hd hk hset, hj,
    hmap ▸ getInUnits_of_valueOf hfound hentry hd hl hvalue⟩

/-- **Conversions between units, and stored values in them.** Units convert when they are written by the
rules and measure the same; without rounding a unit converts to itself by the identity, back by the
inverse, and through a unit between like from end to end; and what is written to a variable in one
unit is read in another as converted from the one to the other. -/
theorem conversions_spec :
    (∀ a b : String, Measure.ExponentsFit α a → Measure.ExponentsFit α b →
      ((∃ k : Conversion α, Measure.conversion a b = .ok k) ↔
        ∃ ts us : List (Measure.Sign × Measure.Factor α), Measure.Writes a ts ∧ Measure.Writes b us ∧
          Measure.exponents ts = Measure.exponents us)) ∧
    (∀ (a : String) (m : Measure β), Measure.parse a = .ok m →
      ∃ k : Conversion β, Measure.conversion a a = .ok k ∧ ∀ x, k.apply x = x) ∧
    (∀ (a b : String) (k : Conversion β), Measure.conversion a b = .ok k →
      ∃ k' : Conversion β, Measure.conversion b a = .ok k' ∧
        (∀ x, k'.apply (k.apply x) = x) ∧ ∀ x, k.apply (k'.apply x) = x) ∧
    (∀ (a b c : String) (k l : Conversion β), Measure.conversion a b = .ok k →
      Measure.conversion b c = .ok l →
        ∃ j : Conversion β, Measure.conversion a c = .ok j ∧ ∀ x, j.apply x = l.apply (k.apply x)) ∧
    (∀ (s : Store β) (i : ℕ) (e : Entry β) (d u w : String) (k l : Conversion β) (x : Array β),
      s.Stored i e → e.declared.units = some d → Measure.conversion u d = .ok k →
      Measure.conversion d w = .ok l → x.size = e.declared.size →
        ∃ s' j, s.setInUnits e.name x u = .ok s' ∧ Measure.conversion u w = .ok j ∧
          s'.getInUnits e.name w = .ok (x.map j.apply)) :=
  ⟨fun _ _ => Measure.exists_conversion_iff,
    fun _ _ h => ⟨_, Measure.conversion_self h, Conversion.apply_identity⟩,
    fun _ _ _ => Measure.conversion_back, fun _ _ _ _ _ => Measure.conversion_through,
    fun _ _ _ _ _ _ _ _ _ hs hd hk hl hx => getInUnits_setInUnits hs hd hk hl hx⟩

deriving instance DecidableEq for Conversion

/-- A variable in kelvin. -/
def thermometer : Variable ℚ := (Variable.named "t").withUnits "K"

/-- Water that boils at 100 °C boils at 212 °F. -/
theorem boiling_point : ∃ s s' : Store ℚ, empty.addOutput "t" thermometer = .ok (s, 0) ∧
    s.setInUnits "t" #[100] "degC" = .ok s' ∧ s'.getInUnits "t" "degF" = .ok #[212] := by
  obtain ⟨s, hadd, hregisters, hentries, -, -⟩ :=
    addOutput_spec (v := thermometer) sound_empty (show "t" ∉ empty.names by simp [names, empty]) rfl
  have hstored : s.Stored 0 (empty.outputEntry "t" thermometer) :=
    hregisters.sound.stored (by rw [hentries]; rfl) (.inr (by simp [outputEntry]))
  have hends : Measure.conversion "degC" "degF" = .ok (⟨9 / 5, 32⟩ : Conversion ℚ) := by
    decide +kernel
  have hin : Measure.conversion "degC" "K" = .ok (⟨1, 27315 / 100⟩ : Conversion ℚ) := by
    decide +kernel
  have hout : Measure.conversion "K" "degF" = .ok (⟨9 / 5, -45967 / 100⟩ : Conversion ℚ) := by
    decide +kernel
  obtain ⟨s', j, hset, hj, hget⟩ := (conversions_spec (α := ℚ)).2.2.2.2 s 0 _ "K" "degC" "degF" _ _
    #[100] hstored rfl hin hout rfl
  obtain rfl := Except.ok.inj (hends.symm.trans hj)
  exact ⟨s, s', hadd, hset, hget.trans (by decide +kernel)⟩

end

end Store

end Mdao
