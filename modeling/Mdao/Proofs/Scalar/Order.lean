import Mathlib
import Mdao.Proofs.Exact
import Mdao.Proofs.Scalar.Binary64

/-!
# Scalars in order

Bounds make sense for scalars whose comparisons are those of a linear order, undefined numbers apart
(`OrderedScalar`). Exact numbers are such scalars, and so are doubles. Of two numbers that are not
undefined, `Scalar.maxNum` and `Scalar.minNum` choose the larger and the smaller one. Where
comparisons are chained, scalars have to be in a linear order (`LinearScalar`), as both are.

Lists are sorted by an order in which undefined numbers and both zeros have a place, too
(`Scalar.totalLe`). A scalar is ranked if this is a total order that agrees with the comparison of
positive numbers (`RankedScalar`). Exact numbers are ranked by their order. **Doubles are ranked by
their bits**: a positive double is an exponent and a fraction behind it, so its bits are counted in the
order of its place (`Binary64.place_of_pos`, `Binary64.le_iff_toBits`).
-/

namespace Mdao

/-- Comparisons are those of a linear order, except that undefined numbers compare with nothing. -/
class OrderedScalar (α : Type) [Scalar α] : Prop where
  /-- Numbers that compare are not undefined. -/
  isUndefined_of_le : ∀ x y : α, x ≤ y →
    Scalar.isUndefined x = false ∧ Scalar.isUndefined y = false
  /-- No number is below itself. -/
  not_lt_self : ∀ x : α, ¬x < x
  /-- Of two numbers one is at most the other. -/
  le_of_not_lt : ∀ x y : α, Scalar.isUndefined x = false → Scalar.isUndefined y = false →
    ¬x < y → y ≤ x

instance {α : Type} [ExactScalar α] : OrderedScalar α where
  isUndefined_of_le _ _ _ := ⟨ExactScalar.isUndefined_eq _, ExactScalar.isUndefined_eq _⟩
  not_lt_self := lt_irrefl
  le_of_not_lt _ _ _ _ := le_of_not_gt

instance : OrderedScalar Float where
  isUndefined_of_le _ _ := Binary64.isNaN_of_le
  not_lt_self := Binary64.not_lt_self
  le_of_not_lt _ _ := Binary64.le_of_not_lt

/-- Proper numbers are in a linear order. -/
class LinearScalar (α : Type) [Scalar α] : Prop extends OrderedScalar α where
  /-- Proper numbers are not undefined. -/
  isUndefined_of_isFinite : ∀ x : α, Scalar.isFinite x = true → Scalar.isUndefined x = false
  /-- Comparisons can be chained. -/
  le_trans : ∀ x y z : α, x ≤ y → y ≤ z → x ≤ z
  /-- A number is below another one if it is at most that one, and not the other way round. -/
  lt_iff_le_not_le : ∀ x y : α, x < y ↔ x ≤ y ∧ ¬y ≤ x

instance {α : Type} [ExactScalar α] : LinearScalar α where
  isUndefined_of_isFinite _ _ := ExactScalar.isUndefined_eq _
  le_trans _ _ _ := le_trans
  lt_iff_le_not_le _ _ := lt_iff_le_not_ge

instance : LinearScalar Float where
  isUndefined_of_isFinite _ := Binary64.isNaN_of_isFinite
  le_trans _ _ _ := Binary64.le_trans
  lt_iff_le_not_le _ _ := Binary64.lt_iff_le_not_le

namespace Scalar

variable {α : Type} [Scalar α] [OrderedScalar α] {x b : α}

theorem le_self (h : isUndefined x = false) : x ≤ x :=
  OrderedScalar.le_of_not_lt x x h h (OrderedScalar.not_lt_self x)

theorem le_maxNum (hb : isUndefined b = false) : b ≤ maxNum x b := by
  unfold maxNum
  split_ifs with hx hlt
  · exact le_self hb
  · exact le_self hb
  · exact OrderedScalar.le_of_not_lt x b (Bool.eq_false_iff.2 hx) hb hlt

theorem minNum_le (hb : isUndefined b = false) : minNum x b ≤ b := by
  unfold minNum
  split_ifs with hx hlt
  · exact le_self hb
  · exact le_self hb
  · exact OrderedScalar.le_of_not_lt b x hb (Bool.eq_false_iff.2 hx) hlt

omit [OrderedScalar α] in
/-- What is at most two numbers is at most the smaller one. -/
theorem le_minNum {a : α} (hx : a ≤ x) (hb : a ≤ b) : a ≤ minNum x b := by
  unfold minNum
  split_ifs
  · exact hb
  · exact hb
  · exact hx

/-- Of exact numbers, the larger one is their maximum. -/
theorem maxNum_eq_max {β : Type} [ExactScalar β] (x y : β) : maxNum x y = max x y := by
  unfold maxNum
  rw [ExactScalar.isUndefined_eq, if_neg Bool.false_ne_true]
  split_ifs with h
  · exact (max_eq_right h.le).symm
  · exact (max_eq_left (not_lt.1 h)).symm

end Scalar

/-! ### The total order -/

/-- The total order agrees with the comparison of positive numbers. -/
class RankedScalar (α : Type) [Scalar α] : Prop extends LinearScalar α where
  /-- The total order is transitive, -/
  totalLe_trans : ∀ x y z : α, Scalar.totalLe x y = true → Scalar.totalLe y z = true →
    Scalar.totalLe x z = true
  /-- and total, -/
  totalLe_total : ∀ x y : α, (Scalar.totalLe x y || Scalar.totalLe y x) = true
  /-- and positive numbers are where they are compared to be. -/
  totalLe_iff : ∀ x y : α, 0 < x → 0 < y → (Scalar.totalLe x y = true ↔ x ≤ y)

namespace Binary64

open Float.Model
open UnpackedFloat (Sign)

variable {x y : Float}

/-! ### Bits -/

section Bits
variable (b : BitVec Format.binary64.numBits)

theorem unpackExponent_toNat :
    (UnpackedFloat.unpackExponent b).toNat = b.toNat / 2 ^ 52 % 2 ^ 11 := by
  simp [UnpackedFloat.unpackExponent, BitVec.extractLsb_toNat, Nat.shiftRight_eq_div_pow]

theorem unpackMantissa_toNat : (UnpackedFloat.unpackMantissa b).toNat = b.toNat % 2 ^ 52 := by
  simp [UnpackedFloat.unpackMantissa, BitVec.extractLsb_toNat]

theorem unpackSign_toNat : (UnpackedFloat.unpackSign b).toNat = b.toNat / 2 ^ 63 % 2 := by
  simp [UnpackedFloat.unpackSign, BitVec.extractLsb_toNat, Nat.shiftRight_eq_div_pow]

end Bits

/-- **The bits of a positive number are an exponent and a fraction**, and these are its place. -/
theorem place_of_pos {b : BitVec Format.binary64.numBits} (h : (UnpackedFloat.zero .positive).compare
    (UnpackedFloat.unpack Format.binary64 b) = some .lt) :
    ∃ E F : ℕ, b.toNat = E * 2 ^ 52 + F ∧ F < 2 ^ 52 ∧
      (E = 2047 ∧ F = 0 ∧ place (UnpackedFloat.unpack Format.binary64 b) = toLex (2, toLex (0, 0)) ∨
        E = 0 ∧ place (UnpackedFloat.unpack Format.binary64 b) = toLex (1, toLex (-1074, (F : ℤ))) ∨
        0 < E ∧ E < 2047 ∧ place (UnpackedFloat.unpack Format.binary64 b) =
          toLex (1, toLex ((E : ℤ) - 1075, 2 ^ 52 + (F : ℤ)))) := by
  have hE := unpackExponent_toNat b
  have hF := unpackMantissa_toNat b
  have hS := unpackSign_toNat b
  have hlt : b.toNat < 2 ^ 64 := b.isLt
  have hsign : UnpackedFloat.unpackSign b = 0#1 := by
    by_contra hne
    have hneg : Sign.ofBitVec (UnpackedFloat.unpackSign b) = .negative := by
      simp [Sign.ofBitVec, hne]
    revert h
    unfold UnpackedFloat.unpack
    simp only [hneg]
    split_ifs <;> simp [UnpackedFloat.compare]
  have hpos : Sign.ofBitVec (UnpackedFloat.unpackSign b) = .positive := by
    simp [Sign.ofBitVec, hsign]
  rw [hsign] at hS
  have hE' : (UnpackedFloat.unpackExponent b).toNat < 2 ^ 11 := (UnpackedFloat.unpackExponent b).isLt
  have hF' : (UnpackedFloat.unpackMantissa b).toNat < 2 ^ 52 := (UnpackedFloat.unpackMantissa b).isLt
  unfold UnpackedFloat.unpack at h ⊢
  simp only [hpos] at h ⊢
  refine ⟨(UnpackedFloat.unpackExponent b).toNat, (UnpackedFloat.unpackMantissa b).toNat, ?_, hF', ?_⟩
  · rw [hE, hF]
    simp at hS
    omega
  · split_ifs at h ⊢ with h1 h2 h3 h4
    · exact .inl ⟨by rw [h1]; rfl, by rw [h2]; rfl, rfl⟩
    · simp [UnpackedFloat.compare] at h
    · simp [UnpackedFloat.compare] at h
    · exact .inr (.inl ⟨by rw [h3]; rfl, by rw [h3]; rfl⟩)
    · have hmax : (UnpackedFloat.unpackExponent b).toNat ≠ 2047 := fun h => h1 (BitVec.eq_of_toNat_eq h)
      have hzero : (UnpackedFloat.unpackExponent b).toNat ≠ 0 := fun h => h3 (BitVec.eq_of_toNat_eq h)
      have hmantissa : (1#1 ++ UnpackedFloat.unpackMantissa b).toNat =
          2 ^ 52 + (UnpackedFloat.unpackMantissa b).toNat := by
        rw [BitVec.toNat_append]
        exact (Nat.shiftLeft_add_eq_or_of_lt hF' 1).symm
      refine .inr (.inr ⟨by omega, by omega, ?_⟩)
      rw [place, hmantissa]
      push_cast
      rfl

/-- Positive numbers compare as their bits do. -/
theorem le_iff_toBits (hx : 0 < x) (hy : 0 < y) : x ≤ y ↔ x.toBits.toNat ≤ y.toBits.toNat := by
  rw [lt_iff, view_zero] at hx hy
  have hne : ∀ {a : UnpackedFloat}, (UnpackedFloat.zero .positive).compare a = some .lt →
      a ≠ .notANumber := by
    rintro a ha rfl
    cases ha
  rw [le_iff, compare_iff_place (hne hx) (hne hy)]
  obtain ⟨E, F, hbits, hF, hcases⟩ := place_of_pos hx
  obtain ⟨E', F', hbits', hF', hcases'⟩ := place_of_pos hy
  have h1 : x.toBits.toNat = E * 2 ^ 52 + F := hbits
  have h2 : y.toBits.toNat = E' * 2 ^ 52 + F' := hbits'
  rw [h1, h2]
  rcases hcases with ⟨hE, hF0, hp⟩ | ⟨hE, hp⟩ | ⟨hE, hE2, hp⟩ <;>
    rcases hcases' with ⟨hE', hF0', hp'⟩ | ⟨hE', hp'⟩ | ⟨hE', hE2', hp'⟩ <;>
      · show place (UnpackedFloat.unpack _ _) ≤ place (UnpackedFloat.unpack _ _) ↔ _
        rw [hp, hp']
        simp only [Prod.Lex.toLex_le_toLex, true_and]
        omega

/-- A positive number has no sign, so it is ranked by its bits. -/
theorem rank_of_pos (hx : 0 < x) : rank x = x.toBits.toNat := by
  rw [lt_iff, view_zero] at hx
  obtain ⟨E, F, hbits, hF, hcases⟩ := place_of_pos hx
  have hE : E ≤ 2047 := by omega
  have hlt : x.toBits.toNat < Nat.pow 2 63 := by
    have heq : x.toBits.toNat = E * 2 ^ 52 + F := hbits
    rw [heq]
    norm_num
    omega
  rw [rank, if_pos hlt]

end Binary64

instance : RankedScalar Float where
  totalLe_trans x y z hxy hyz := by
    have hxy : Binary64.rank x ≤ Binary64.rank y := of_decide_eq_true hxy
    exact decide_eq_true (hxy.trans (of_decide_eq_true hyz))
  totalLe_total x y := by
    rw [Bool.or_eq_true]
    exact (le_total (Binary64.rank x) (Binary64.rank y)).imp decide_eq_true decide_eq_true
  totalLe_iff x y hx hy := by
    show decide (Binary64.rank x ≤ Binary64.rank y) = true ↔ _
    rw [decide_eq_true_iff, Binary64.rank_of_pos hx, Binary64.rank_of_pos hy, Nat.cast_le,
      Binary64.le_iff_toBits hx hy]

instance : RankedScalar ℚ where
  totalLe_trans x y z hxy hyz := by
    have hxy : x ≤ y := of_decide_eq_true hxy
    exact decide_eq_true (hxy.trans (of_decide_eq_true hyz))
  totalLe_total x y := by
    rw [Bool.or_eq_true]
    exact (le_total x y).imp decide_eq_true decide_eq_true
  totalLe_iff _ _ _ _ := decide_eq_true_iff

end Mdao
