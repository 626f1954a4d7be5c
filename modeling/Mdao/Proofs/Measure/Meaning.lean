import Mathlib
import Mdao.Proofs.Exact
import Mdao.Proofs.Measure.Written

/-!
# What unit expressions mean

A text writes the factors that its pieces write, each with the sign of the mark before it
(`Measure.Writes`). Their meaning is a product of powers and a sum of exponents, and the zero point of
a symbol that stands alone (`Measure.meaning`).

**Reading a unit expression gives the meaning of what is written there**, and fails with the first
defect where nothing is (`Measure.parse_eq_ok_iff`, `Measure.parse_eq_error_iff`). Dimension exponents
are kept in words of 32 bits, so they are the sums of the grammar as long as these fit
(`Dimension.exponents_wrap`).
-/

namespace Mdao

/-! ### Whole exponents of a dimension -/

namespace Dimension

/-- The exponents as whole numbers. -/
def exponents (d : Dimension) : Fin 6 → ℤ :=
  ![d.length.toInt, d.mass.toInt, d.time.toInt, d.temperature.toInt, d.angle.toInt, d.current.toInt]

/-- Whole exponents, kept in words of 32 bits. -/
def wrap (v : Fin 6 → ℤ) : Dimension :=
  ⟨.ofInt (v 0), .ofInt (v 1), .ofInt (v 2), .ofInt (v 3), .ofInt (v 4), .ofInt (v 5)⟩

@[simp] theorem wrap_exponents (d : Dimension) : wrap d.exponents = d := by
  simp [wrap, exponents]

/-- **Exponents that fit a word are kept as they are.** -/
theorem exponents_wrap {v : Fin 6 → ℤ} (h : ∀ i, FitsWord (v i)) : (wrap v).exponents = v := by
  have hword : ∀ i, (Int32.ofInt (v i)).toInt = v i := fun i =>
    Int32.toInt_ofInt_of_le (h i).1 (by have := (h i).2; omega)
  funext i
  fin_cases i <;> exact hword _

@[simp] theorem wrap_zero : wrap 0 = none := rfl

theorem wrap_add (v w : Fin 6 → ℤ) : wrap (v + w) = (wrap v).mul (wrap w) := by
  simp [wrap, mul, Int32.ofInt_add]

theorem wrap_smul (n : ℤ) (v : Fin 6 → ℤ) : wrap (n • v) = (wrap v).pow (.ofInt n) := by
  simp [wrap, pow, Int32.ofInt_mul, Int32.mul_comm]

end Dimension

/-! ### Powers without rounding -/

namespace Scalar

variable {α : Type} [ExactScalar α]

/-- Repeated squaring forms the power. -/
theorem powNat_eq (acc x : α) (n : ℕ) : powNat acc x n = acc * x ^ n := by
  induction n using Nat.strong_induction_on generalizing acc x with
  | _ n ih =>
    rw [powNat]
    have hsquare : ∀ k : ℕ, (x * x) ^ k = x ^ (2 * k) := fun k => by rw [← pow_two, ← pow_mul]
    have hsplit := Nat.div_add_mod n 2
    split_ifs with hzero hodd hhalf hhalf
    · rw [hzero, pow_zero, mul_one]
    · rw [show n = 1 by omega, pow_one]
    · rw [ih _ (by omega), hsquare, mul_assoc, ← pow_succ']
      congr 2
      omega
    · omega
    · rw [ih _ (by omega), hsquare]
      congr 2
      omega

theorem powInt_eq (x : α) (n : ℤ) : powInt x n = x ^ n := by
  unfold powInt
  rw [powNat_eq, one_mul]
  split_ifs with h
  · obtain ⟨k, rfl⟩ := Int.exists_eq_neg_ofNat h.le
    rw [Int.natAbs_neg, Int.natAbs_natCast, zpow_neg, zpow_natCast, one_div]
  · obtain ⟨k, rfl⟩ := Int.eq_ofNat_of_zero_le (not_lt.1 h)
    rw [Int.natAbs_natCast, zpow_natCast]

end Scalar

namespace Measure

/-! ### What is written -/

/-- The exponent with the sign of the mark before it. -/
def Sign.signed : Sign → ℤ → ℤ
  | .times, n => n
  | .over, n => -n

section

variable {α : Type} [Scalar α]

/-- An expression writes factors with signs: its pieces write them, one after the other. -/
def Writes (expression : String) (terms : List (Sign × Factor α)) : Prop :=
  ∃ pieces, Pieces expression pieces ∧
    List.Forall₂ (fun p t => p.1 = t.1 ∧ t.2.Written p.2) pieces terms

/-- The leftmost piece of an expression that is no factor. -/
def FirstDefect (α : Type) [Scalar α] (expression : String) (e : UnitsError) : Prop :=
  ∃ good bad rest, Pieces expression (good ++ bad :: rest) ∧
    (∀ p ∈ good, ∃ f : Factor α, f.Written p.2) ∧ Defect α expression bad.2 e

/-- The exponents of the base dimensions: for each factor its exponent, with its sign, times those of
the symbol. -/
def exponents (terms : List (Sign × Factor α)) : Fin 6 → ℤ :=
  (terms.map fun t => t.1.signed t.2.power • t.2.symbol.dimension.exponents).sum

/-- The zero point of a symbol that stands alone and has the exponent one. -/
def zeroPoint : List (Sign × Factor α) → α
  | [t] => if t.2.power = 1 then t.2.symbol.offset else 0
  | _ => 0

/-- Factors multiplied up as they are read. -/
def attachAll (unit : Measure α) (terms : List (Sign × Factor α)) : Measure α :=
  terms.foldl (fun u t => attach u t.1 t.2.measure) unit

/-- Written factors are read one after the other. -/
theorem product_written {pieces : List (Sign × List Char)} {terms : List (Sign × Factor α)}
    (h : List.Forall₂ (fun p t => p.1 = t.1 ∧ t.2.Written p.2) pieces terms) (expression : String)
    (unit : Measure α) : product expression unit pieces = .ok (attachAll unit terms) := by
  induction h generalizing unit with
  | nil => rfl
  | @cons p t _ _ hpt _ ih =>
    obtain ⟨sign, text⟩ := p
    obtain ⟨rfl, hwritten⟩ := hpt
    rw [product, hwritten.factor_eq]
    exact ih _

/-- Reading stops at the first defect. -/
theorem product_defect {good : List (Sign × List Char)}
    (hgood : ∀ p ∈ good, ∃ f : Factor α, f.Written p.2) {expression : String}
    {bad : Sign × List Char} {e : UnitsError} (hbad : Defect α expression bad.2 e)
    (rest : List (Sign × List Char)) (unit : Measure α) :
    product expression unit (good ++ bad :: rest) = .error e := by
  induction good generalizing unit with
  | nil =>
    obtain ⟨sign, text⟩ := bad
    rw [List.nil_append, product, hbad.factor_eq]
  | cons p good ih =>
    obtain ⟨sign, text⟩ := p
    obtain ⟨f, hf⟩ := hgood _ List.mem_cons_self
    rw [List.cons_append, product, hf.factor_eq]
    exact ih (fun q hq => hgood q (List.mem_cons_of_mem _ hq)) _

/-- Pieces all write factors, or one of them is the first that does not. -/
theorem all_written_or_defect (expression : String) (pieces : List (Sign × List Char)) :
    (∃ terms : List (Sign × Factor α),
      List.Forall₂ (fun p t => p.1 = t.1 ∧ t.2.Written p.2) pieces terms) ∨
    ∃ good bad rest e, pieces = good ++ bad :: rest ∧
      (∀ p ∈ good, ∃ f : Factor α, f.Written p.2) ∧ Defect α expression bad.2 e := by
  induction pieces with
  | nil => exact .inl ⟨[], .nil⟩
  | cons p pieces ih =>
    rcases written_or_defect (α := α) expression p.2 with ⟨f, hf⟩ | ⟨e, he⟩
    · rcases ih with ⟨terms, hterms⟩ | ⟨good, bad, rest, e, rfl, hgood, hbad⟩
      · exact .inl ⟨(p.1, f) :: terms, .cons ⟨rfl, hf⟩ hterms⟩
      · exact .inr ⟨p :: good, bad, rest, e, rfl, List.forall_mem_cons.2 ⟨⟨f, hf⟩, hgood⟩, hbad⟩
    · exact .inr ⟨[], p, pieces, e, rfl, by simp, he⟩

/-- An expression writes factors, or it has a first defect. -/
theorem writes_or_defect (expression : String) :
    (∃ terms : List (Sign × Factor α), Writes expression terms) ∨
      ∃ e, FirstDefect α expression e := by
  have hpieces : Pieces expression (factors .times (joinStars (Text.trim expression.toList))) :=
    pieces_iff.2 rfl
  rcases all_written_or_defect (α := α) expression
      (factors .times (joinStars (Text.trim expression.toList))) with
    ⟨terms, hterms⟩ | ⟨good, bad, rest, e, hsplit, hgood, hbad⟩
  · exact .inl ⟨terms, _, hpieces, hterms⟩
  · exact .inr ⟨e, good, bad, rest, hsplit ▸ hpieces, hgood, hbad⟩

/-! ### What it means -/

/-- The size in base units: from the left, each symbol's to its exponent, as its sign says. -/
def size (terms : List (Sign × Factor α)) : α :=
  terms.foldl (fun x t =>
    x * Scalar.powInt (Scalar.powInt t.2.symbol.scale t.2.power) t.1.power.toInt) 1

/-- What factors with signs mean. -/
def meaning (terms : List (Sign × Factor α)) : Measure α :=
  ⟨size terms, zeroPoint terms, .wrap (exponents terms)⟩

theorem attach_dimension {unit : Measure α} {v : Fin 6 → ℤ} (h : unit.dimension = .wrap v)
    (sign : Sign) (f : Factor α) : (attach unit sign f.measure).dimension =
      .wrap (v + sign.signed f.power • f.symbol.dimension.exponents) := by
  have hpower : .ofInt (sign.signed f.power) = Int32.ofInt f.power * sign.power := by
    obtain _ | _ := sign
    · exact (Int32.mul_one _).symm
    · rw [Sign.signed, Sign.power, Int32.ofInt_neg, Int32.mul_neg, Int32.mul_one]
  rw [Dimension.wrap_add, Dimension.wrap_smul, Dimension.wrap_exponents, hpower, ← h]
  simp [attach, Factor.measure, Dimension.pow, Int32.mul_assoc]

theorem attachAll_scale (unit : Measure α) (terms : List (Sign × Factor α)) :
    (attachAll unit terms).scale = terms.foldl (fun x t =>
      x * Scalar.powInt (Scalar.powInt t.2.symbol.scale t.2.power) t.1.power.toInt) unit.scale := by
  induction terms generalizing unit with
  | nil => rfl
  | cons t terms ih => exact ih _

theorem attachAll_dimension {unit : Measure α} {v : Fin 6 → ℤ} (h : unit.dimension = .wrap v)
    (terms : List (Sign × Factor α)) :
    (attachAll unit terms).dimension = .wrap (v + exponents terms) := by
  induction terms generalizing unit v with
  | nil => simpa [attachAll, exponents] using h
  | cons t terms ih =>
    have hcons : exponents (t :: terms) =
        t.1.signed t.2.power • t.2.symbol.dimension.exponents + exponents terms := by
      simp [exponents]
    rw [hcons, ← add_assoc]
    exact ih (attach_dimension h t.1 t.2)

/-- The factors of an expression are multiplied up to their meaning. -/
theorem attachAll_eq_meaning (terms : List (Sign × Factor α)) :
    (if terms.length = 1 then attachAll one terms else { attachAll one terms with offset := 0 }) =
      meaning terms := by
  have hscale : (attachAll one terms).scale = size terms := attachAll_scale one terms
  have hdimension : (attachAll one terms).dimension = .wrap (exponents terms) := by
    simpa using attachAll_dimension (show (one : Measure α).dimension = .wrap 0 from rfl) terms
  split_ifs with h
  · obtain ⟨t, rfl⟩ := List.length_eq_one_iff.1 h
    have hoffset : (attachAll one [t]).offset = zeroPoint [t] := rfl
    rw [meaning, ← hscale, ← hdimension, ← hoffset]
  · have hzero : zeroPoint terms = 0 := by
      unfold zeroPoint
      split
      · exact absurd rfl h
      · rfl
    rw [meaning, ← hscale, ← hdimension, hzero]

/-- A blank text is no special case: its single piece is empty. -/
theorem parse_eq {expression : String} {pieces : List (Sign × List Char)}
    (h : Pieces expression pieces) : (parse expression : Except UnitsError (Measure α)) =
      (product expression one pieces).map fun unit : Measure α =>
        if pieces.length = 1 then unit else { unit with offset := 0 } := by
  have hpieces := pieces_iff.1 h
  unfold parse
  -- reading refuses a blank text at once, and its empty piece would be refused with the same error
  by_cases hempty : Text.trim expression.toList = []
  · rw [hempty] at hpieces
    subst hpieces
    have hbad : (factor expression [] : Except UnitsError (Measure α)) =
        .error (.malformed expression) :=
      (Defect.empty (by simp [Text.Blanks])).factor_eq
    simp [hempty, joinStars, factors, product, hbad, Except.map]
  · have hne : (Text.trim expression.toList).isEmpty = false := by simpa using hempty
    simp only [hne, hpieces, Bool.false_eq_true, if_false]
    cases product expression (one : Measure α) pieces <;> rfl

/-- What is written is read as what it means. -/
theorem Writes.parse_eq {expression : String} {terms : List (Sign × Factor α)}
    (h : Writes expression terms) : parse expression = .ok (meaning terms) := by
  obtain ⟨pieces, hpieces, hterms⟩ := h
  rw [Measure.parse_eq hpieces, product_written hterms, hterms.length_eq]
  exact congrArg _ (attachAll_eq_meaning terms)

/-- The first defect is found. -/
theorem FirstDefect.parse_eq {expression : String} {e : UnitsError}
    (h : FirstDefect α expression e) :
    (parse expression : Except UnitsError (Measure α)) = .error e := by
  obtain ⟨good, bad, rest, hpieces, hgood, hbad⟩ := h
  rw [Measure.parse_eq hpieces, product_defect hgood hbad]
  rfl

/-- **An expression is read as the meaning of what it writes**, and only then. -/
theorem parse_eq_ok_iff {expression : String} {m : Measure α} :
    parse expression = .ok m ↔
      ∃ terms : List (Sign × Factor α), Writes expression terms ∧ m = meaning terms := by
  constructor
  · intro h
    rcases writes_or_defect (α := α) expression with ⟨terms, hterms⟩ | ⟨e, he⟩
    · exact ⟨terms, hterms, Except.ok.inj (h.symm.trans hterms.parse_eq)⟩
    · rw [he.parse_eq] at h
      cases h
  · rintro ⟨terms, hterms, rfl⟩
    exact hterms.parse_eq

/-- **Reading fails with the first defect**, and only with it. -/
theorem parse_eq_error_iff {expression : String} {e : UnitsError} :
    (parse expression : Except UnitsError (Measure α)) = .error e ↔ FirstDefect α expression e := by
  constructor
  · intro h
    rcases writes_or_defect (α := α) expression with ⟨terms, hterms⟩ | ⟨e', he⟩
    · rw [hterms.parse_eq] at h
      cases h
    · rw [he.parse_eq] at h
      rwa [← Except.error.inj h]
  · exact FirstDefect.parse_eq

end

/-! ### Sizes without rounding -/

section

variable {α : Type} [ExactScalar α]

/-- **Without rounding the size is the product of powers.** -/
theorem size_eq (terms : List (Sign × Factor α)) :
    size terms = (terms.map fun t => t.2.symbol.scale ^ t.1.signed t.2.power).prod := by
  have hterm : ∀ t : Sign × Factor α,
      Scalar.powInt (Scalar.powInt t.2.symbol.scale t.2.power) t.1.power.toInt =
        t.2.symbol.scale ^ t.1.signed t.2.power := by
    rintro ⟨sign, f⟩
    rw [Scalar.powInt_eq, Scalar.powInt_eq]
    obtain _ | _ := sign
    · exact zpow_one _
    · exact (zpow_neg_one _).trans (zpow_neg _ _).symm
  rw [size, List.prod_eq_foldl, List.foldl_map]
  simp only [hterm]

end

end Measure

end Mdao
