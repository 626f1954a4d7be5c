import Mathlib
import Mdao.Scalar.Binary64

/-!
# Comparing doubles

A double is undefined, infinite, a zero, or a finite number with a sign (`view`), and these cases
decide its comparisons, quotients and roots. Undefined numbers apart, the comparisons are those of a
linear order (`le_trans`, `le_of_not_lt`). A quotient of numbers that are not finite is undefined,
and so never below anything, but a finite number over an infinite one is zero, and so below every
positive number (`div_lt_iff`).
-/

namespace Mdao.Binary64

open Float.Model
open UnpackedFloat (Sign)

/-- A double by cases. -/
abbrev view (x : Float) : UnpackedFloat := x.toModel.unpack

variable {x y : Float}

/-! ### Order -/

theorem lt_iff : x < y ↔ (view x).compare (view y) = some .lt := by
  show decide (x.toModel < y.toModel) = true ↔ _
  rw [decide_eq_true_iff]
  show ((view x).compare (view y) == some .lt) = true ↔ _
  exact beq_iff_eq

theorem le_iff : x ≤ y ↔ ∃ o, (view x).compare (view y) = some o ∧ o.isLE = true := by
  show decide (x.toModel ≤ y.toModel) = true ↔ _
  rw [decide_eq_true_iff]
  show Option.any (fun o => o.isLE) ((view x).compare (view y)) = true ↔ _
  exact Option.any_eq_true _ _

theorem isNaN_iff : x.isNaN = true ↔ view x = .notANumber := by
  show (view x).isNaN = true ↔ _
  rcases view x with s | _ | s | _ <;> simp [UnpackedFloat.isNaN]

/-- Mantissas decide between equal exponents, in both directions. -/
theorem swap_compare_then (e₁ e₂ : ℤ) (m₁ m₂ : ℕ) :
    ((compare e₁ e₂).then (compare m₁ m₂)).swap = (compare e₂ e₁).then (compare m₂ m₁) := by
  rw [Ordering.swap_then, ← Std.OrientedCmp.eq_swap (a := e₂),
    ← Std.OrientedCmp.eq_swap (a := m₂)]

theorem compare_swap (a b : UnpackedFloat) : b.compare a = (a.compare b).map Ordering.swap := by
  rcases a with (_ | _) | _ | (_ | _) | ⟨_ | _, m₁, e₁, _⟩ <;>
    rcases b with (_ | _) | _ | (_ | _) | ⟨_ | _, m₂, e₂, _⟩ <;>
      first
        | rfl
        | exact congrArg some (swap_compare_then ..).symm
        | exact congrArg some (by rw [Ordering.swap_swap, swap_compare_then])

/-- Numbers are comparable unless one of them is undefined. -/
theorem compare_eq_none {a b : UnpackedFloat} :
    a.compare b = none ↔ a = .notANumber ∨ b = .notANumber := by
  rcases a with (_ | _) | _ | (_ | _) | ⟨_ | _, m₁, e₁, _⟩ <;>
    rcases b with (_ | _) | _ | (_ | _) | ⟨_ | _, m₂, e₂, _⟩ <;>
      simp [UnpackedFloat.compare]

theorem isNaN_of_le (h : x ≤ y) : x.isNaN = false ∧ y.isNaN = false := by
  obtain ⟨o, ho, -⟩ := le_iff.1 h
  have hne : (view x).compare (view y) ≠ none := ho ▸ nofun
  rw [Ne, compare_eq_none, not_or, ← isNaN_iff, ← isNaN_iff] at hne
  exact ⟨Bool.eq_false_iff.2 hne.1, Bool.eq_false_iff.2 hne.2⟩

/-- **Of two numbers one is at most the other**, unless one is undefined. -/
theorem le_of_not_lt (hx : x.isNaN = false) (hy : y.isNaN = false) (h : ¬x < y) : y ≤ x := by
  have hne : (view x).compare (view y) ≠ none := by
    rw [Ne, compare_eq_none, not_or, ← isNaN_iff, ← isNaN_iff]
    exact ⟨Bool.eq_false_iff.1 hx, Bool.eq_false_iff.1 hy⟩
  obtain ⟨o, ho⟩ := Option.ne_none_iff_exists'.1 hne
  refine le_iff.2 ⟨o.swap, by rw [compare_swap, ho]; rfl, ?_⟩
  rw [lt_iff, ho, Option.some_inj] at h
  cases o with
  | lt => exact absurd rfl h
  | eq => rfl
  | gt => rfl

/-- The place of a number in the order of all of them: farther from zero with the exponent, and then
with the mantissa. -/
def place : UnpackedFloat → ℤ ×ₗ ℤ ×ₗ ℤ
  | .infinity .negative => toLex (-2, toLex (0, 0))
  | .finite .negative m e _ => toLex (-1, toLex (-e, -m))
  | .zero _ | .notANumber => toLex (0, toLex (0, 0))
  | .finite .positive m e _ => toLex (1, toLex (e, m))
  | .infinity .positive => toLex (2, toLex (0, 0))

theorem isLE_compare_then (e₁ e₂ : ℤ) (m₁ m₂ : ℕ) :
    ((compare e₁ e₂).then (compare m₁ m₂)).isLE = true ↔ e₁ < e₂ ∨ e₁ = e₂ ∧ m₁ ≤ m₂ := by
  rcases lt_trichotomy e₁ e₂ with h | h | h
  · simp [compare_lt_iff_lt.2 h, h]
  · simp [h, Nat.isLE_compare]
  · simp [compare_gt_iff_gt.2 h, h.not_gt, h.ne']

/-- Numbers compare as their places do. -/
theorem compare_iff_place {a b : UnpackedFloat} (ha : a ≠ .notANumber) (hb : b ≠ .notANumber) :
    (∃ o, a.compare b = some o ∧ o.isLE = true) ↔ place a ≤ place b := by
  rcases a with (_ | _) | _ | _ | ⟨_ | _, m₁, e₁, _⟩
  case notANumber => exact absurd rfl ha
  all_goals
    rcases b with (_ | _) | _ | _ | ⟨_ | _, m₂, e₂, _⟩
    case notANumber => exact absurd rfl hb
    all_goals
      simp [UnpackedFloat.compare, place, Prod.Lex.toLex_le_toLex, isLE_compare_then,
        swap_compare_then]
  -- left are signs against signs, and negative numbers with their exponents the other way round
  case finite.negative.finite.negative => rw [eq_comm]
  all_goals decide

theorem le_trans {z : Float} (hxy : x ≤ y) (hyz : y ≤ z) : x ≤ z := by
  have hview : ∀ {w : Float}, w.isNaN = false → view w ≠ .notANumber :=
    fun hw h => absurd (isNaN_iff.2 h) (Bool.eq_false_iff.1 hw)
  have hx := hview (isNaN_of_le hxy).1
  have hy := hview (isNaN_of_le hxy).2
  have hz := hview (isNaN_of_le hyz).2
  rw [le_iff, compare_iff_place] at hxy hyz ⊢ <;> try assumption
  exact hxy.trans hyz

theorem lt_iff_le_not_le : x < y ↔ x ≤ y ∧ ¬y ≤ x := by
  rw [lt_iff, le_iff, le_iff, compare_swap (view x)]
  cases (view x).compare (view y) with
  | none => simp
  | some o => cases o <;> simp

theorem not_lt_self (x : Float) : ¬x < x := by
  intro h
  have hswap := compare_swap (view x) (view x)
  rw [lt_iff.1 h] at hswap
  cases hswap

/-! ### Numbers that are not finite -/

theorem isFinite_eq_false : x.isFinite = false ↔ view x = .notANumber ∨ ∃ s, view x = .infinity s := by
  show (view x).isFinite = false ↔ _
  rcases view x with s | _ | s | _ <;> simp [UnpackedFloat.isFinite]

theorem isNaN_of_isFinite (h : x.isFinite = true) : x.isNaN = false := by
  rw [Bool.eq_false_iff, Ne, isNaN_iff]
  intro hview
  rw [isFinite_eq_false.2 (.inl hview)] at h
  cases h

/-- A positive number is not read back as minus infinity. -/
theorem unpack_packComponents_ne {spec : Format} (e : BitVec spec.exponentBits)
    (m : BitVec spec.mantissaBitsWithoutImplicit) :
    UnpackedFloat.unpack spec (UnpackedFloat.packComponents spec .positive e m) ≠
      .infinity .negative := by
  unfold UnpackedFloat.unpack
  simp only [UnpackedFloat.unpackSign_packComponents, Sign.ofBitVec_toBitVec]
  split_ifs <;> simp

theorem unpack_pack_ne {spec : Format} {m : ℕ} {e : ℤ} {h : 0 < m} :
    UnpackedFloat.unpack spec (UnpackedFloat.pack spec (.finite .positive m e h)) ≠
      .infinity .negative := by
  simp only [UnpackedFloat.pack]
  split_ifs
  · exact unpack_packComponents_ne _ _
  · exact unpack_packComponents_ne _ _
  · exact unpack_packComponents_ne _ _

/-- **No root is minus infinity.** -/
theorem view_sqrt_ne (x : Float) : view x.sqrt ≠ .infinity .negative := by
  show UnpackedFloat.unpack _ (UnpackedFloat.pack _ (UnpackedFloat.sqrt _ (view x))) ≠ _
  rcases view x with (_ | _) | _ | s | ⟨_ | _, m, e, h⟩
  · exact ne_of_eq_of_ne UnpackedFloat.unpack_packedNaN nofun
  · exact unpack_packComponents_ne _ _
  · exact ne_of_eq_of_ne UnpackedFloat.unpack_packedNaN nofun
  · exact ne_of_eq_of_ne UnpackedFloat.unpack_packedZero nofun
  · exact ne_of_eq_of_ne UnpackedFloat.unpack_packedNaN nofun
  · simp only [UnpackedFloat.sqrt, UnpackedFloat.roundWithAccuracy]
    split_ifs
    · exact ne_of_eq_of_ne UnpackedFloat.unpack_packedZero nofun
    · exact unpack_pack_ne

/-- Infinity and undefined numbers are not below anything. -/
theorem not_lt_of_not_isFinite (hx : view x ≠ .infinity .negative) (h : x.isFinite = false) :
    ¬x < y := by
  rw [lt_iff]
  rcases isFinite_eq_false.1 h with hview | ⟨_ | _, hview⟩
  · rw [hview]
    exact nofun
  · exact absurd hview hx
  · rw [hview]
    rcases view y with (_ | _) | _ | s | _ <;> exact nofun

theorem view_div (x y : Float) : view (x / y) = UnpackedFloat.unpack .binary64
    (UnpackedFloat.pack .binary64 (UnpackedFloat.div .binary64 (view x) (view y))) := rfl

/-- The quotient of numbers that are not finite is undefined. -/
theorem not_div_lt {b : Float} (hx : x.isFinite = false) (hy : y.isFinite = false) :
    ¬x / y < b := by
  have hview : view (x / y) = .notANumber := by
    rw [view_div]
    rcases isFinite_eq_false.1 hx with hx | ⟨s, hx⟩ <;>
      rcases isFinite_eq_false.1 hy with hy | ⟨t, hy⟩ <;>
        rw [hx, hy] <;> exact UnpackedFloat.unpack_packedNaN
  rw [lt_iff, hview]
  exact nofun

theorem view_zero : view 0 = .zero .positive := UnpackedFloat.unpack_packedZero

/-- A positive number that is not finite is infinite. -/
theorem zero_lt_iff (h : x.isFinite = false) : 0 < x ↔ view x = .infinity .positive := by
  rw [lt_iff, view_zero]
  rcases isFinite_eq_false.1 h with hview | ⟨_ | _, hview⟩ <;> rw [hview] <;>
    simp [UnpackedFloat.compare]

/-- Zeros of both signs are below the same numbers. -/
theorem compare_zero (s t : Sign) (a : UnpackedFloat) :
    (UnpackedFloat.zero s).compare a = (UnpackedFloat.zero t).compare a := by
  rcases a with (_ | _) | _ | _ | ⟨_ | _, _⟩ <;> rfl

/-- **A finite number over an infinite one** is below every positive number. -/
theorem div_lt_iff {b : Float} (hx : x.isFinite = true) (hy : view y = .infinity .positive) :
    x / y < b ↔ 0 < b := by
  have hview : ∃ s, view (x / y) = .zero s := by
    rw [view_div, hy]
    change (view x).isFinite = true at hx
    revert hx
    rcases view x with s | _ | s | ⟨s, m, e, h⟩
    · exact nofun
    · exact nofun
    · exact fun _ => ⟨_, UnpackedFloat.unpack_packedZero⟩
    · exact fun _ => ⟨_, UnpackedFloat.unpack_packedZero⟩
  obtain ⟨s, hview⟩ := hview
  rw [lt_iff, lt_iff, hview, view_zero, compare_zero s .positive]

end Mdao.Binary64
