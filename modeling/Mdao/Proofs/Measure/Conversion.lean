import Mathlib
import Mdao.Proofs.Measure.Meaning

/-!
# Conversions between units

A conversion is the affine map between two units of the same dimension. No unit has the size zero
(`Measure.size_ne_zero`), so without rounding conversions are maps that can be undone: from a unit to
itself nothing changes (`Measure.conversion_self`), the way back is the inverse
(`Measure.conversion_back`), and a conversion through a unit between is the one from end to end
(`Measure.conversion_through`). Zero points take part in this like sizes do.
-/

namespace Mdao

/-! ### Sizes of symbols -/

namespace UnitSymbol

variable {α : Type} [ExactScalar α]

/-- The sizes of the symbols are rational numbers. -/
theorem map_scale_all : (all : List (UnitSymbol α)).map UnitSymbol.scale =
    (all : List (UnitSymbol ℚ)).map fun s => (s.scale : α) := by
  simp only [all, pi, List.map_cons, List.map_nil, ExactScalar.ofScientific_eq (α := α), Rat.cast_div]

/-- No symbol has the size zero. -/
theorem scale_ne_zero {s : UnitSymbol α} (hs : s ∈ all) : s.scale ≠ 0 := by
  have hrational : ∀ t ∈ (all : List (UnitSymbol ℚ)), t.scale ≠ 0 := by decide +kernel
  have hmem := List.mem_map_of_mem (f := UnitSymbol.scale) hs
  rw [map_scale_all] at hmem
  obtain ⟨t, ht, heq⟩ := List.mem_map.1 hmem
  rw [← heq]
  exact Rat.cast_ne_zero.2 (hrational t ht)

end UnitSymbol

theorem Conversion.apply_identity {α : Type} [ExactScalar α] (x : α) :
    (identity : Conversion α).apply x = x := by
  simp [apply, identity]

namespace Measure

section

variable {α : Type} [Scalar α] {a b : String}

/-- **Two units convert when both can be read and have the same dimension.** -/
theorem conversion_eq_ok_iff {k : Conversion α} : conversion a b = .ok k ↔
    ∃ m m' : Measure α, parse a = .ok m ∧ parse b = .ok m' ∧ m.dimension = m'.dimension ∧
      k = ⟨m.scale / m'.scale, (m.offset - m'.offset) / m'.scale⟩ := by
  unfold conversion
  cases (parse a : Except UnitsError (Measure α)) with
  | error e => simp
  | ok m =>
    cases (parse b : Except UnitsError (Measure α)) with
    | error e => simp
    | ok m' =>
      by_cases h : m.dimension = m'.dimension
      · simp [isCompatible, h, eq_comm]
      · simp [isCompatible, h]

/-- Whole exponents that fit a word are the same as soon as the words are. -/
theorem dimension_eq_iff {ts us : List (Sign × Factor α)} (hts : ∀ i, FitsWord (exponents ts i))
    (hus : ∀ i, FitsWord (exponents us i)) :
    (meaning ts).dimension = (meaning us).dimension ↔ exponents ts = exponents us := by
  constructor
  · intro h
    rw [← Dimension.exponents_wrap hts, ← Dimension.exponents_wrap hus]
    exact congrArg Dimension.exponents h
  · exact fun h => congrArg Dimension.wrap h

variable (α) in
/-- The exponents of an expression fit a word of 32 bits. -/
def ExponentsFit (a : String) : Prop :=
  ∀ ts : List (Sign × Factor α), Writes a ts → ∀ i, FitsWord (exponents ts i)

/-- **Two units convert when both are written by the rules and have the same exponents.** -/
theorem exists_conversion_iff (ha : ExponentsFit α a) (hb : ExponentsFit α b) :
    (∃ k : Conversion α, conversion a b = .ok k) ↔
      ∃ ts us : List (Sign × Factor α), Writes a ts ∧ Writes b us ∧ exponents ts = exponents us := by
  constructor
  · rintro ⟨k, hk⟩
    obtain ⟨m, m', hm, hm', hdimension, -⟩ := conversion_eq_ok_iff.1 hk
    obtain ⟨ts, hts, rfl⟩ := parse_eq_ok_iff.1 hm
    obtain ⟨us, hus, rfl⟩ := parse_eq_ok_iff.1 hm'
    exact ⟨ts, us, hts, hus, (dimension_eq_iff (ha ts hts) (hb us hus)).1 hdimension⟩
  · rintro ⟨ts, us, hts, hus, h⟩
    exact ⟨_, conversion_eq_ok_iff.2 ⟨_, _, hts.parse_eq, hus.parse_eq,
      (dimension_eq_iff (ha ts hts) (hb us hus)).2 h, rfl⟩⟩

end

section

variable {α : Type} [ExactScalar α] {a b c : String}

/-- **No unit has the size zero.** -/
theorem size_ne_zero (terms : List (Sign × Factor α)) : size terms ≠ 0 := by
  rw [size_eq]
  refine List.prod_ne_zero fun hzero => ?_
  obtain ⟨t, -, ht⟩ := List.mem_map.1 hzero
  exact zpow_ne_zero _ (UnitSymbol.scale_ne_zero t.2.known) ht

theorem scale_ne_zero {m : Measure α} (h : parse a = .ok m) : m.scale ≠ 0 := by
  obtain ⟨terms, -, rfl⟩ := parse_eq_ok_iff.1 h
  exact size_ne_zero terms

/-- Nothing changes from a unit to itself. -/
theorem conversion_self {m : Measure α} (h : parse a = .ok m) :
    conversion a a = .ok (Conversion.identity : Conversion α) := by
  refine conversion_eq_ok_iff.2 ⟨m, m, h, h, rfl, ?_⟩
  rw [div_self (scale_ne_zero h), sub_self, zero_div]
  rfl

/-- Two conversions one after the other are the one from end to end. -/
theorem conversion_through {k l : Conversion α} (hk : conversion a b = .ok k)
    (hl : conversion b c = .ok l) : ∃ j : Conversion α, conversion a c = .ok j ∧
      ∀ x, j.apply x = l.apply (k.apply x) := by
  obtain ⟨m, m', hm, hm', hdimension, rfl⟩ := conversion_eq_ok_iff.1 hk
  obtain ⟨m₁, m'', hm₁, hm'', hdimension', rfl⟩ := conversion_eq_ok_iff.1 hl
  obtain rfl : m' = m₁ := Except.ok.inj (hm'.symm.trans hm₁)
  refine ⟨_, conversion_eq_ok_iff.2 ⟨m, m'', hm, hm'', hdimension.trans hdimension', rfl⟩,
    fun x => ?_⟩
  have hmid := scale_ne_zero hm'
  have hend := scale_ne_zero hm''
  simp only [Conversion.apply]
  field_simp
  ring

/-- The way back undoes a conversion. -/
theorem conversion_back {k : Conversion α} (hk : conversion a b = .ok k) :
    ∃ k' : Conversion α, conversion b a = .ok k' ∧
      (∀ x, k'.apply (k.apply x) = x) ∧ ∀ x, k.apply (k'.apply x) = x := by
  obtain ⟨m, m', hm, hm', hdimension, -⟩ := conversion_eq_ok_iff.1 hk
  have hback : conversion b a = .ok _ := conversion_eq_ok_iff.2 ⟨m', m, hm', hm, hdimension.symm, rfl⟩
  refine ⟨_, hback, fun x => ?_, fun x => ?_⟩
  · obtain ⟨j, hj, happly⟩ := conversion_through hk hback
    rw [← happly, Except.ok.inj (hj.symm.trans (conversion_self hm)), Conversion.apply_identity]
  · obtain ⟨j, hj, happly⟩ := conversion_through hback hk
    rw [← happly, Except.ok.inj (hj.symm.trans (conversion_self hm')), Conversion.apply_identity]

end

end Measure

end Mdao
