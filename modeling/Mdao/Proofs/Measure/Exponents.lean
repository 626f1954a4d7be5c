import Mathlib
import Mdao.Proofs.Measure.Conversion
import Mdao.Proofs.Measure.Joined

/-!
# Exponents in words of 32 bits

The exponents of an expression are whole numbers, and its dimension keeps them in words of 32 bits.
A word keeps a number up to multiples of 2³², so whatever the expression, and however far its products
and sums go beyond a word in between, **each kept exponent is the one number of a word that is
congruent to the sum** (`Dimension.keeps_wrap`). It is the sum itself exactly if this fits a word, for
which it is enough that the powers of all factors add up to 715827882 at most
(`Measure.fitsWord_exponents`), a third of the largest word, since no symbol has an exponent beyond
three.

**Two expressions are compatible exactly if their exponents are congruent** (`Measure.dimensions_kept`).
Beyond words this is less than to measure the same: lengths to the power 2³² are taken for plain numbers.
-/

namespace Mdao

/-! ### Words -/

namespace Dimension

/-- A word keeps a number up to multiples of 2³². -/
theorem toInt_ofInt_modEq (n : ℤ) : (Int32.ofInt n).toInt ≡ n [ZMOD 4294967296] := by
  rw [Int32.toInt_ofInt]
  exact Int.bmod_emod

theorem fitsWord_toInt (w : Int32) : FitsWord w.toInt :=
  ⟨w.le_toInt, Int.le_of_lt_add_one w.toInt_lt⟩

/-- Numbers that fit a word are equal as soon as they are congruent. -/
theorem eq_of_modEq {m n : ℤ} (hm : FitsWord m) (hn : FitsWord n)
    (h : m ≡ n [ZMOD 4294967296]) : m = n := by
  obtain ⟨hm, hm'⟩ := hm
  obtain ⟨hn, hn'⟩ := hn
  have hmod : m % 4294967296 = n % 4294967296 := h
  omega

/-- **How a dimension keeps whole exponents.** -/
structure Keeps (d : Dimension) (v : Fin 6 → ℤ) : Prop where
  /-- They fit a word, -/
  fits : ∀ i, FitsWord (d.exponents i)
  /-- they are congruent to the whole exponents, -/
  modEq : ∀ i, d.exponents i ≡ v i [ZMOD 4294967296]
  /-- and they are the same if these fit a word. -/
  exact_iff : d.exponents = v ↔ ∀ i, FitsWord (v i)

theorem keeps_wrap (v : Fin 6 → ℤ) : (wrap v).Keeps v where
  fits i := by fin_cases i <;> exact fitsWord_toInt _
  modEq i := by fin_cases i <;> exact toInt_ofInt_modEq _
  exact_iff := by
    refine ⟨fun h i => ?_, exponents_wrap⟩
    rw [← h]
    fin_cases i <;> exact fitsWord_toInt _

/-- Exponents that are kept alike are congruent, and only these are. -/
theorem wrap_eq_wrap_iff {v w : Fin 6 → ℤ} :
    wrap v = wrap w ↔ ∀ i, v i ≡ w i [ZMOD 4294967296] := by
  constructor
  · intro h i
    exact ((keeps_wrap v).modEq i).symm.trans (h ▸ (keeps_wrap w).modEq i)
  · intro h
    have heq : (wrap v).exponents = (wrap w).exponents := funext fun i =>
      eq_of_modEq ((keeps_wrap v).fits i) ((keeps_wrap w).fits i)
        (((keeps_wrap v).modEq i).trans ((h i).trans ((keeps_wrap w).modEq i).symm))
    rw [← wrap_exponents (wrap v), heq, wrap_exponents]

end Dimension

namespace Measure

variable {α : Type} [Scalar α]

/-! ### How large exponents are -/

/-- No symbol has an exponent beyond three. -/
theorem abs_exponents_le {s : UnitSymbol α} (hs : s ∈ UnitSymbol.all) (i : Fin 6) :
    |s.dimension.exponents i| ≤ 3 := by
  have hall : ∀ d ∈ (UnitSymbol.all : List (UnitSymbol α)).map UnitSymbol.dimension,
      ∀ i, |d.exponents i| ≤ 3 := by
    simp only [UnitSymbol.all, List.map_cons, List.map_nil]
    decide
  exact hall _ (List.mem_map_of_mem hs) i

/-- The powers of all factors, whatever their signs. -/
def powers (terms : List (Sign × Factor α)) : ℤ := (terms.map fun t => |t.2.power|).sum

theorem exponents_cons (t : Sign × Factor α) (terms : List (Sign × Factor α)) :
    exponents (t :: terms) =
      t.1.signed t.2.power • t.2.symbol.dimension.exponents + exponents terms := by
  rw [exponents, List.map_cons, List.sum_cons]
  rfl

theorem abs_signed (sign : Sign) (n : ℤ) : |sign.signed n| = |n| := by
  obtain _ | _ := sign
  · rfl
  · exact abs_neg n

/-- Each factor adds three times its power at most. -/
theorem abs_exponents_le_powers (terms : List (Sign × Factor α)) (i : Fin 6) :
    |exponents terms i| ≤ 3 * powers terms := by
  induction terms with
  | nil => simp [exponents, powers]
  | cons t terms ih =>
    have hcons : powers (t :: terms) = |t.2.power| + powers terms := by
      rw [powers, List.map_cons, List.sum_cons]
      rfl
    have hsymbol := abs_exponents_le t.2.known i
    calc |exponents (t :: terms) i|
        = |t.1.signed t.2.power * t.2.symbol.dimension.exponents i + exponents terms i| := by
          rw [exponents_cons]
          rfl
      _ ≤ |t.1.signed t.2.power * t.2.symbol.dimension.exponents i| + |exponents terms i| :=
          abs_add_le _ _
      _ = |t.2.power| * |t.2.symbol.dimension.exponents i| + |exponents terms i| := by
          rw [abs_mul, abs_signed]
      _ ≤ |t.2.power| * 3 + 3 * powers terms :=
          add_le_add (mul_le_mul_of_nonneg_left hsymbol (abs_nonneg _)) ih
      _ = 3 * powers (t :: terms) := by rw [hcons]; ring

/-- **Powers that add up to a third of a word keep the exponents inside it.** -/
theorem fitsWord_exponents {terms : List (Sign × Factor α)} (h : powers terms ≤ 715827882)
    (i : Fin 6) : FitsWord (exponents terms i) := by
  have hbound := abs_le.1 (abs_exponents_le_powers terms i)
  exact ⟨by omega, by omega⟩

/-! ### What is kept -/

/-- **Exponents are kept up to multiples of 2³².** What is read from an expression keeps the exponents
of the factors that are written there: congruent, and the same exactly if they fit a word. Two
expressions are compatible exactly if their exponents are congruent, which is to say equal where they
fit a word, as they do where the powers of the factors are not too large. -/
theorem dimensions_kept {a b : String} {m m' : Measure α} (ha : parse a = .ok m)
    (hb : parse b = .ok m') :
    (∃ ts : List (Sign × Factor α), Writes a ts) ∧ (∃ us : List (Sign × Factor α), Writes b us) ∧
    ∀ ts us : List (Sign × Factor α), Writes a ts → Writes b us →
      m.dimension.Keeps (exponents ts) ∧ m'.dimension.Keeps (exponents us) ∧
      (m.isCompatible m' = true ↔ ∀ i, exponents ts i ≡ exponents us i [ZMOD 4294967296]) ∧
      ((∀ i, FitsWord (exponents ts i)) → (∀ i, FitsWord (exponents us i)) →
        (m.isCompatible m' = true ↔ exponents ts = exponents us)) ∧
      (powers ts ≤ 715827882 → ∀ i, FitsWord (exponents ts i)) := by
  obtain ⟨ts, hts, -⟩ := parse_eq_ok_iff.1 ha
  obtain ⟨us, hus, -⟩ := parse_eq_ok_iff.1 hb
  refine ⟨⟨ts, hts⟩, ⟨us, hus⟩, fun ts us hts hus => ?_⟩
  obtain rfl : m = meaning ts := Except.ok.inj (ha.symm.trans hts.parse_eq)
  obtain rfl : m' = meaning us := Except.ok.inj (hb.symm.trans hus.parse_eq)
  have hcompatible : (meaning ts).isCompatible (meaning us) = true ↔
      (meaning ts).dimension = (meaning us).dimension := beq_iff_eq
  refine ⟨Dimension.keeps_wrap _, Dimension.keeps_wrap _, ?_, fun hfits hfits' => ?_,
    fitsWord_exponents⟩
  · rw [hcompatible]
    exact Dimension.wrap_eq_wrap_iff
  · rw [hcompatible]
    exact dimension_eq_iff hfits hfits'

/-- A newton has the exponents of what it is composed of, up to multiples of 2³². -/
theorem newton_composed : ∃ ts us : List (Sign × Factor ℚ), Writes "kg*m/s**2" ts ∧ Writes "N" us ∧
    ∀ i, exponents ts i ≡ exponents us i [ZMOD 4294967296] := by
  have hcomposed : (parse "kg*m/s**2" : Except UnitsError (Measure ℚ)) =
      .ok ⟨1, 0, { length := 1, mass := 1, time := -2 }⟩ := by decide +kernel
  have hnewton : (parse "N" : Except UnitsError (Measure ℚ)) =
      .ok ⟨1, 0, { length := 1, mass := 1, time := -2 }⟩ := by decide +kernel
  obtain ⟨⟨ts, hts⟩, ⟨us, hus⟩, hkept⟩ := dimensions_kept hcomposed hnewton
  exact ⟨ts, us, hts, hus, (hkept ts us hts hus).2.2.1.1 rfl⟩

/-! ### Beyond words -/

namespace Wrapped

/-- The metre. -/
def metre : UnitSymbol ℚ := ⟨"m", 1.0, 0.0, { length := 1 }⟩

/-- What has no dimension. -/
def unitless : UnitSymbol ℚ := ⟨"unitless", 1.0, 0.0, .none⟩

theorem metre_known : metre ∈ UnitSymbol.all :=
  List.mem_of_getElem? (show UnitSymbol.all[2]? = some metre from rfl)

theorem unitless_known : unitless ∈ UnitSymbol.all :=
  List.mem_of_getElem? (show UnitSymbol.all[0]? = some unitless from rfl)

/-- A power of the metre, times what stands before it. -/
def metreTo (n : ℤ) (fits : FitsWord n) : Sign × Factor ℚ := (.times, ⟨metre, n, metre_known, fits⟩)

/-- Metres to the powers 2³¹ - 1, 2³¹ - 1 and 2. -/
def metres : List (Sign × Factor ℚ) :=
  [metreTo 2147483647 (by simp [FitsWord]), metreTo 2147483647 (by simp [FitsWord]),
    metreTo 2 (by simp [FitsWord])]

/-- No dimension, once. -/
def plain : List (Sign × Factor ℚ) :=
  [(.times, ⟨unitless, 1, unitless_known, by simp [FitsWord]⟩)]

/-- A power is written with its numeral. -/
theorem written_metreTo {n : ℕ} (fits : FitsWord n) {digits : List Char}
    (h : digits? digits = some n) : (metreTo n fits).2.Written ('m' :: '^' :: digits) := by
  have hname : metre.name.toList = ['m'] := rfl
  have hnumeral : Numeral digits n := .bare (digits?_eq_some_iff.1 h)
  exact .power (f := (metreTo n fits).2) (hname ▸ Text.Padded.refl ['m']) (.refl digits) hnumeral

/-- The power 2³² of a length is no plain number, and it is read as one. -/
theorem compatible_unitless :
    Writes "m^2147483647*m^2147483647*m^2" metres ∧ Writes "unitless" plain ∧
      exponents metres 0 = 4294967296 ∧ exponents plain 0 = 0 ∧
      (parse "m^2147483647*m^2147483647*m^2" : Except UnitsError (Measure ℚ)) = parse "unitless" := by
  refine ⟨⟨_, pieces_iff.2 rfl, ?_⟩, ⟨_, pieces_iff.2 rfl, ?_⟩, by decide, by decide,
    by decide +kernel⟩
  · exact .cons ⟨rfl, written_metreTo _ (by decide)⟩ (.cons ⟨rfl, written_metreTo _ (by decide)⟩
      (.cons ⟨rfl, written_metreTo _ (by decide)⟩ .nil))
  · exact .cons ⟨rfl, .alone rfl (Text.Padded.refl _)⟩ .nil

end Wrapped

end Measure

end Mdao
