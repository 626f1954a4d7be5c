import Mdao.Proofs.Nonlinear.Bounds

/-!
# The longest feasible step

From a point within the bounds, one unknown allows every share of a step up to its allowance, or the
whole step when it has none (`between_iff_allowance`). So the feasible shares are those up to the
smallest allowance, and a path that shortens the step as a whole takes the greatest of them
(`isGreatest_feasibleFraction`). No point of such a path has to be clipped.

A path that keeps each unknown within its bounds by itself ends, at the full step, at the nearest
number between them (`Path.entry_one`), whether the unknown is clipped or stays at its bound.
-/

namespace Mdao

open Vec

variable {α : Type} [ExactScalar α]

namespace Scalar

/-- Of exact numbers, the smaller one is their minimum. -/
theorem minNum_eq_min (x y : α) : minNum x y = min x y := by
  unfold minNum
  rw [ExactScalar.isUndefined_eq, if_neg Bool.false_ne_true]
  split_ifs with h
  · exact (min_eq_right h.le).symm
  · exact (min_eq_left (not_lt.1 h)).symm

end Scalar

namespace LineSearch

/-! ### One unknown -/

variable {lower upper : Option α} {x s : α}

/-- Some number lies between the bounds. -/
theorem Between.ordered (h : Between lower upper x) : Ordered lower upper where
  lower_defined _ _ := ExactScalar.isUndefined_eq _
  upper_defined _ _ := ExactScalar.isUndefined_eq _
  le a b ha hb := (h.lower_le a ha).trans (h.le_upper b hb)

/-- What lies between the bounds is not clipped. -/
theorem Between.clip_eq (h : Between lower upper x) : clip x lower upper = x := by
  have hlower : ∀ a, lower = some a → max x a = x := fun a ha => max_eq_left (h.lower_le a ha)
  have hupper : ∀ b, upper = some b → min x b = x := fun b hb => min_eq_left (h.le_upper b hb)
  cases lower <;> cases upper <;>
    simp_all [clip, Scalar.maxNum_eq_max, Scalar.minNum_eq_min]

/-- A number is the nearest to another one among those between the bounds. -/
structure Nearest (lower upper : Option α) (x y : α) : Prop where
  between : Between lower upper y
  le : ∀ z, Between lower upper z → |x - y| ≤ |x - z|

/-- A number between the bounds is the nearest to itself. -/
theorem Between.nearest (h : Between lower upper x) : Nearest lower upper x x where
  between := h
  le z _ := by simp

/-- From above the upper bound, it is the nearest number. -/
theorem Ordered.nearest_upper {b : α} (h : Ordered lower upper) (hb : upper = some b) (hx : b ≤ x) :
    Nearest lower upper x b where
  between := h.between_upper hb
  le z hz := by
    rw [abs_of_nonneg (sub_nonneg.2 hx)]
    exact (sub_le_sub_left (hz.le_upper b hb) x).trans (le_abs_self _)

/-- From below the lower bound, it is the nearest number. -/
theorem Ordered.nearest_lower {a : α} (h : Ordered lower upper) (ha : lower = some a) (hx : x ≤ a) :
    Nearest lower upper x a where
  between := h.between_lower ha
  le z hz := by
    rw [abs_sub_comm, abs_of_nonneg (sub_nonneg.2 hx), abs_sub_comm]
    exact (sub_le_sub_right (hz.lower_le a ha) x).trans (le_abs_self _)

/-- **A clipped number is the nearest one between the bounds.** -/
theorem Ordered.nearest_clip (h : Ordered lower upper) (x : α) :
    Nearest lower upper x (clip x lower upper) := by
  by_cases hbetween : Between lower upper x
  · rw [hbetween.clip_eq]
    exact hbetween.nearest
  · by_cases hlower : ∃ a, lower = some a ∧ x < a
    · obtain ⟨a, rfl, hxa⟩ := hlower
      have hclip : clip x (some a) upper = a := by
        cases upper with
        | none => exact (Scalar.maxNum_eq_max x a).trans (max_eq_right hxa.le)
        | some b =>
          rw [clip, Scalar.maxNum_eq_max, max_eq_right hxa.le]
          exact (Scalar.minNum_eq_min a b).trans (min_eq_left (h.le a b rfl rfl))
      rw [hclip]
      exact h.nearest_lower rfl hxa.le
    · have hlower' : ∀ a, lower = some a → a ≤ x := fun a ha =>
        not_lt.1 fun hxa => hlower ⟨a, ha, hxa⟩
      obtain ⟨b, rfl, hbx⟩ : ∃ b, upper = some b ∧ b < x := by
        by_contra hupper
        exact hbetween ⟨hlower', fun b hb => not_lt.1 fun hbx => hupper ⟨b, hb, hbx⟩⟩
      have hclip : clip x lower (some b) = b := by
        cases lower with
        | none => exact (Scalar.minNum_eq_min x b).trans (min_eq_right hbx.le)
        | some a =>
          rw [clip, Scalar.maxNum_eq_max, max_eq_left (hlower' a rfl)]
          exact (Scalar.minNum_eq_min x b).trans (min_eq_right hbx.le)
      rw [hclip]
      exact h.nearest_upper rfl hbx.le

/-! ### What an unknown allows -/

/-- An unknown has an allowance when the full step leaves its bounds, on the side of the step. -/
theorem allowance_cases (x s : α) (lower upper : Option α) :
    (∃ b, upper = some b ∧ b < x + s ∧ 0 < s ∧ allowance x s lower upper = some ((b - x) / s)) ∨
    (∃ a, lower = some a ∧ x + s < a ∧ s < 0 ∧ allowance x s lower upper = some ((a - x) / s)) ∨
    (allowance x s lower upper = none ∧ (∀ b, upper = some b → 0 < s → x + s ≤ b) ∧
      ∀ a, lower = some a → s < 0 → a ≤ x + s) := by
  cases upper with
  | none =>
    cases lower with
    | none => exact .inr (.inr ⟨rfl, by simp, by simp⟩)
    | some a =>
      by_cases ha : x + s < a ∧ s < 0
      · exact .inr (.inl ⟨a, rfl, ha.1, ha.2, if_pos ha⟩)
      · refine .inr (.inr ⟨if_neg ha, by simp, ?_⟩)
        rintro _ ⟨⟩ hs
        exact not_lt.1 fun hlt => ha ⟨hlt, hs⟩
  | some b =>
    by_cases hb : b < x + s ∧ 0 < s
    · exact .inl ⟨b, rfl, hb.1, hb.2, if_pos hb⟩
    · have hupper : ∀ b', some b = some b' → 0 < s → x + s ≤ b' := by
        rintro _ ⟨⟩ hs
        exact not_lt.1 fun hlt => hb ⟨hlt, hs⟩
      cases lower with
      | none => exact .inr (.inr ⟨if_neg hb, hupper, by simp⟩)
      | some a =>
        by_cases ha : x + s < a ∧ s < 0
        · exact .inr (.inl ⟨a, rfl, ha.1, ha.2, (if_neg hb).trans (if_pos ha)⟩)
        · refine .inr (.inr ⟨(if_neg hb).trans (if_neg ha), hupper, ?_⟩)
          rintro _ ⟨⟩ hs
          exact not_lt.1 fun hlt => ha ⟨hlt, hs⟩

/-- No allowance is negative. -/
theorem Between.allowance_nonneg (hx : Between lower upper x) {v : α}
    (h : allowance x s lower upper = some v) : 0 ≤ v := by
  rcases allowance_cases x s lower upper with ⟨b, hb, -, hs, heq⟩ | ⟨a, ha, -, hs, heq⟩ | ⟨heq, -⟩
  · obtain rfl := Option.some.inj (heq.symm.trans h)
    exact div_nonneg (sub_nonneg.2 (hx.le_upper b hb)) hs.le
  · obtain rfl := Option.some.inj (heq.symm.trans h)
    exact div_nonneg_of_nonpos (sub_nonpos.2 (hx.lower_le a ha)) hs.le
  · cases heq.symm.trans h

/-- **From between its bounds, an unknown allows every share of the step up to its allowance**, and
all of it where it has none. -/
theorem Between.between_iff_allowance (hx : Between lower upper x) {f : α} (hf : 0 ≤ f)
    (hf1 : f ≤ 1) :
    Between lower upper (x + f * s) ↔ ∀ v, allowance x s lower upper = some v → f ≤ v := by
  rcases allowance_cases x s lower upper with
    ⟨b, hb, -, hs, heq⟩ | ⟨a, ha, -, hs, heq⟩ | ⟨heq, hupper, hlower⟩
  · have hforward : x ≤ x + f * s := le_add_of_nonneg_right (mul_nonneg hf hs.le)
    have hshare : f ≤ (b - x) / s ↔ x + f * s ≤ b := by
      rw [le_div_iff₀ hs, le_sub_iff_add_le']
    simp only [heq, Option.some.injEq, forall_eq', hshare]
    refine ⟨fun h => h.le_upper b hb, fun h => ⟨fun a ha => (hx.lower_le a ha).trans hforward, ?_⟩⟩
    rintro b' hb'
    obtain rfl := Option.some.inj (hb.symm.trans hb')
    exact h
  · have hbackward : x + f * s ≤ x :=
      add_le_of_nonpos_right (mul_nonpos_of_nonneg_of_nonpos hf hs.le)
    have hshare : f ≤ (a - x) / s ↔ a ≤ x + f * s := by
      rw [le_div_iff_of_neg hs, sub_le_iff_le_add']
    simp only [heq, Option.some.injEq, forall_eq', hshare]
    refine ⟨fun h => h.lower_le a ha, fun h => ⟨?_, fun b hb => hbackward.trans (hx.le_upper b hb)⟩⟩
    rintro a' ha'
    obtain rfl := Option.some.inj (ha.symm.trans ha')
    exact h
  · -- the whole step stays between the bounds, and so does what lies on the way
    refine iff_of_true ⟨fun a ha => ?_, fun b hb => ?_⟩ fun v hv => by cases heq.symm.trans hv
    · rcases le_or_gt 0 s with hs | hs
      · exact (hx.lower_le a ha).trans (le_add_of_nonneg_right (mul_nonneg hf hs))
      · exact (hlower a ha hs).trans (add_le_add_right (le_mul_of_le_one_left hs.le hf1) x)
    · rcases le_or_gt s 0 with hs | hs
      · exact (add_le_of_nonpos_right (mul_nonpos_of_nonneg_of_nonpos hf hs)).trans
          (hx.le_upper b hb)
      · exact (add_le_add_right (mul_le_of_le_one_left hs.le hf1) x).trans (hupper b hb hs)

/-! ### All unknowns -/

/-- The least of some numbers and of one more. -/
theorem le_foldl_minNum_iff {f m : α} {vs : List α} :
    f ≤ vs.foldl Scalar.minNum m ↔ f ≤ m ∧ ∀ v ∈ vs, f ≤ v := by
  induction vs generalizing m with
  | nil => simp
  | cons v vs ih =>
    rw [List.foldl_cons, ih, Scalar.minNum_eq_min, le_min_iff, List.forall_mem_cons, and_assoc]

variable {x0 step : Array α} {lowers uppers : Array (Option α)}

/-- A share of a step, from none to all of it, that keeps every unknown between its bounds. -/
structure Feasible (x0 step : Array α) (lowers uppers : Array (Option α)) (f : α) : Prop where
  nonneg : 0 ≤ f
  le_one : f ≤ 1
  between : ∀ i < x0.size,
    Between (boundAt lowers i) (boundAt uppers i) (entry x0 i + f * entry step i)

/-- Every unknown starts between its bounds. -/
def StartsWithin (x0 : Array α) (lowers uppers : Array (Option α)) : Prop :=
  ∀ i < x0.size, Between (boundAt lowers i) (boundAt uppers i) (entry x0 i)

/-- **The feasible shares are those up to the computed one.** -/
theorem feasible_iff (hx0 : StartsWithin x0 lowers uppers) {f : α} :
    Feasible x0 step lowers uppers f ↔ 0 ≤ f ∧ f ≤ feasibleFraction x0 step lowers uppers := by
  have hmem : ∀ v, v ∈ (List.range x0.size).filterMap (fun i => allowance (entry x0 i)
      (entry step i) (boundAt lowers i) (boundAt uppers i)) ↔ ∃ i < x0.size,
        allowance (entry x0 i) (entry step i) (boundAt lowers i) (boundAt uppers i) = some v := by
    simp
  have hnonneg : (0 : α) ≤ ((List.range x0.size).filterMap fun i => allowance (entry x0 i)
      (entry step i) (boundAt lowers i) (boundAt uppers i)).foldl Scalar.minNum 1 := by
    refine le_foldl_minNum_iff.2 ⟨zero_le_one, fun v hv => ?_⟩
    obtain ⟨i, hi, hv⟩ := (hmem v).1 hv
    exact (hx0 i hi).allowance_nonneg hv
  rw [feasibleFraction, Scalar.maxNum_eq_max, max_eq_left hnonneg, le_foldl_minNum_iff]
  constructor
  · refine fun h => ⟨h.nonneg, h.le_one, fun v hv => ?_⟩
    obtain ⟨i, hi, hv⟩ := (hmem v).1 hv
    exact ((hx0 i hi).between_iff_allowance h.nonneg h.le_one).1 (h.between i hi) v hv
  · refine fun ⟨hf, hf1, hall⟩ => ⟨hf, hf1, fun i hi => ?_⟩
    exact ((hx0 i hi).between_iff_allowance hf hf1).2 fun v hv => hall v ((hmem v).2 ⟨i, hi, hv⟩)

/-- **The computed share is the greatest feasible one.** -/
theorem isGreatest_feasibleFraction (step : Array α) (hx0 : StartsWithin x0 lowers uppers) :
    IsGreatest {f | Feasible x0 step lowers uppers f}
      (feasibleFraction x0 step lowers uppers) := by
  have hnonneg : 0 ≤ feasibleFraction x0 step lowers uppers := by
    rw [feasibleFraction, Scalar.maxNum_eq_max]
    exact le_max_right _ _
  exact ⟨(feasible_iff hx0).2 ⟨hnonneg, le_rfl⟩, fun f hf => ((feasible_iff hx0).1 hf).2⟩

/-! ### Paths -/

namespace Path

/-- **A path that shortens the step as a whole keeps its direction**: no entry of a trial point is
clipped. -/
theorem entry_vector (hx0 : StartsWithin x0 lowers uppers) {alpha : α} (halpha : 0 ≤ alpha)
    (halpha1 : alpha ≤ 1) {i : Nat} (hi : i < x0.size) :
    (make x0 step lowers uppers (some .vector)).entry alpha i =
      Vec.entry x0 i + alpha * feasibleFraction x0 step lowers uppers * Vec.entry step i := by
  have hfeasible : Feasible x0 step lowers uppers (feasibleFraction x0 step lowers uppers) :=
    (isGreatest_feasibleFraction step hx0).1
  have hshortened : Vec.entry (if feasibleFraction x0 step lowers uppers < 1 then
      step.map (· * feasibleFraction x0 step lowers uppers) else step) i =
        Vec.entry step i * feasibleFraction x0 step lowers uppers := by
    split_ifs with hless
    · exact entry_map_mul _ _ _
    · rw [le_antisymm hfeasible.le_one (not_lt.1 hless), mul_one]
  have hshare : Feasible x0 step lowers uppers (alpha * feasibleFraction x0 step lowers uppers) :=
    (feasible_iff hx0).2 ⟨mul_nonneg halpha hfeasible.nonneg,
      mul_le_of_le_one_left hfeasible.nonneg halpha1⟩
  show clip (Vec.entry x0 i + alpha * Vec.entry (if feasibleFraction x0 step lowers uppers < 1 then
    step.map (· * feasibleFraction x0 step lowers uppers) else step) i) (boundAt lowers i)
      (boundAt uppers i) = _
  rw [hshortened, mul_comm (Vec.entry step i), ← mul_assoc]
  exact (hshare.between i hi).clip_eq

/-- **At the full step, unknowns that are kept within their bounds one by one are clipped**, also
those that stay at a bound for every length of the step. -/
theorem entry_one {e : BoundEnforcement} (he : e ≠ .vector) {i : Nat}
    (h : Ordered (boundAt lowers i) (boundAt uppers i)) :
    Nearest (boundAt lowers i) (boundAt uppers i) (Vec.entry x0 i + Vec.entry step i)
      ((make x0 step lowers uppers (some e)).entry 1 i) := by
  cases e with
  | vector => exact absurd rfl he
  | scalar =>
    show Nearest _ _ _ (clip (Vec.entry x0 i + 1 * Vec.entry step i) (boundAt lowers i)
      (boundAt uppers i))
    rw [one_mul]
    exact h.nearest_clip _
  | wall =>
    show Nearest _ _ _ (if Array.getD _ i false then if above _ (boundAt uppers i) then
      (boundAt uppers i).getD _ else (boundAt lowers i).getD _ else
        clip (Vec.entry x0 i + 1 * Vec.entry step i) (boundAt lowers i) (boundAt uppers i))
    split_ifs with hpinned habove
    · cases hb : boundAt uppers i with
      | none =>
        rw [hb] at habove
        cases habove
      | some b =>
        rw [hb] at habove h
        exact h.nearest_upper rfl (of_decide_eq_true habove).le
    · have hout : (above (Vec.entry x0 i + Vec.entry step i) (boundAt uppers i) ||
          below (Vec.entry x0 i + Vec.entry step i) (boundAt lowers i)) = true :=
        getD_tabulate hpinned
      have hbelow := (Bool.or_eq_true_iff.1 hout).resolve_left habove
      cases ha : boundAt lowers i with
      | none =>
        rw [ha] at hbelow
        cases hbelow
      | some a =>
        rw [ha] at hbelow h
        exact h.nearest_lower rfl (of_decide_eq_true hbelow).le
    · rw [one_mul]
      exact h.nearest_clip _

theorem x0_make (x0 step : Array α) (lowers uppers : Array (Option α)) (e : BoundEnforcement) :
    (make x0 step lowers uppers (some e)).x0 = x0 := by
  cases e <;> rfl

/-- **The longest feasible step.** From a point within the bounds, a path that shortens the step as
a whole is the straight line along the greatest feasible share of the step. At the full step, the
other policies bring each unknown to the nearest number between its bounds. -/
theorem point_spec (step : Array α) (hx0 : StartsWithin x0 lowers uppers) :
    (∃ f, IsGreatest {f | Feasible x0 step lowers uppers f} f ∧ ∀ alpha, 0 < alpha → alpha ≤ 1 →
      (make x0 step lowers uppers (some .vector)).point alpha =
        tabulate x0.size fun i => Vec.entry x0 i + alpha * f * Vec.entry step i) ∧
    ∀ e : BoundEnforcement, e ≠ .vector →
      ((make x0 step lowers uppers (some e)).point 1).size = x0.size ∧ ∀ i < x0.size,
        Nearest (boundAt lowers i) (boundAt uppers i) (Vec.entry x0 i + Vec.entry step i)
          (Vec.entry ((make x0 step lowers uppers (some e)).point 1) i) := by
  refine ⟨⟨_, isGreatest_feasibleFraction step hx0, fun alpha halpha halpha1 => ?_⟩, fun e he => ?_⟩
  · refine ext_entry (by rw [point, size_tabulate, size_tabulate, x0_make]) fun i hi => ?_
    have hi' : i < x0.size := by rwa [point, size_tabulate, x0_make] at hi
    rw [point, entry_tabulate, entry_tabulate, x0_make, if_pos hi', if_pos hi',
      entry_vector hx0 halpha.le halpha1 hi']
  · refine ⟨by rw [point, size_tabulate, x0_make], fun i hi => ?_⟩
    rw [point, entry_tabulate, x0_make, if_pos hi]
    exact entry_one he (hx0 i hi).ordered

/-- Two unknowns, one with an upper and one with a lower bound: half of the step is feasible. -/
theorem point_of_half : StartsWithin #[1, 2] (#[none, some 1] : Array (Option ℚ)) #[some 3, none] ∧
    (∃ f, IsGreatest {f | Feasible #[1, 2] #[4, -2] #[none, some (1 : ℚ)] #[some 3, none] f} f ∧
      f = 1 / 2 ∧ (make #[1, 2] #[4, -2] #[none, some (1 : ℚ)] #[some 3, none]
        (some .vector)).point (1 / 2) = #[2, 3 / 2]) ∧
    ∀ i < 2, Nearest (boundAt #[none, some (1 : ℚ)] i) (boundAt #[some 3, none] i)
      (Vec.entry #[1, 2] i + Vec.entry #[4, -2] i)
      (Vec.entry ((make #[1, 2] #[4, -2] #[none, some 1] #[some 3, none] (some .wall)).point 1)
        i) := by
  have hwithin : StartsWithin #[1, 2] (#[none, some 1] : Array (Option ℚ)) #[some 3, none] := by
    rintro (_ | _ | i) hi
    · exact ⟨by simp [boundAt], by simp [boundAt, Vec.entry]⟩
    · exact ⟨by simp [boundAt, Vec.entry], by simp [boundAt]⟩
    · exact absurd hi (by simp)
  obtain ⟨⟨f, hf, hpoint⟩, hnearest⟩ := point_spec #[4, -2] hwithin
  have hhalf : f = 1 / 2 := hf.unique (by
    have hcomputed := isGreatest_feasibleFraction #[4, -2] hwithin
    rwa [show feasibleFraction #[1, 2] #[4, -2] #[none, some (1 : ℚ)] #[some 3, none] = 1 / 2 by
      decide +kernel] at hcomputed)
  refine ⟨hwithin, ⟨f, hf, hhalf, ?_⟩, (hnearest .wall (by decide)).2⟩
  rw [hpoint (1 / 2) (by norm_num) (by norm_num), hhalf]
  decide +kernel

end Path

end LineSearch

end Mdao
