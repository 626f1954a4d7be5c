import Mathlib
import Mdao.Proofs.Component.Afresh
import Mdao.Proofs.Component.Computes
import Mdao.Proofs.Component.Places
import Mdao.Proofs.Exact

/-!
# Finite differences of affine components

A component is affine when the function that is differentiated, its outputs or its residuals,
changes by given slopes between any two points (`Component.ChangesBy`). A difference of it over any
step other than zero is exact, in every form (`ChangesBy.fdColumn_eq`). The residuals of a component
change by slopes as well, and those of an explicit component have ones on the diagonal and the slopes
of its outputs with a minus sign (`Component.ResidualsChangeBy`).
-/

namespace Mdao

open Vec

variable {α : Type} [ExactScalar α]

/-! ### Steps -/

/-- The step of default finite differences is not zero. -/
theorem FdOptions.default_step_ne_zero : (FdOptions.default : FdOptions α).step ≠ 0 := by
  show (Scalar.toOfScientific.ofScientific 1 true 6 : α) ≠ 0
  rw [ExactScalar.ofScientific_eq]
  norm_num

/-- The two of central differences is written with a decimal point. -/
theorem two_eq : (Scalar.toOfScientific.ofScientific 20 true 1 : α) = 2 := by
  rw [ExactScalar.ofScientific_eq]
  norm_num

/-- A step that is not zero does not become zero at any entry, absolute or relative. -/
theorem FdOptions.stepFor_ne_zero {o : FdOptions α} (ho : o.step ≠ 0) (x : α) :
    o.stepFor x ≠ 0 := by
  unfold stepFor
  split
  · exact ho
  · split
    · exact ho
    · rename_i hx
      rw [ExactScalar.abs_eq]
      exact mul_ne_zero ho (abs_ne_zero.2 fun hzero => hx (beq_iff_eq.2 hzero))

/-! ### Differences of vectors -/

/-- Two vectors combined entry by entry. -/
theorem zipWith_eq_tabulate {n : Nat} {x y : Array α} (hx : x.size = n) (hy : y.size = n)
    {g : α → α → α} {v : Nat → α} (h : ∀ i < n, g (entry x i) (entry y i) = v i) :
    Array.zipWith g x y = tabulate n v := by
  refine ext_entry (by simp [hx, hy]) fun i hi => ?_
  have hlt : i < n := by simpa [hx, hy] using hi
  rw [entry_zipWith _ _ _ _ (hx ▸ hlt) (hy ▸ hlt), entry_tabulate, if_pos hlt, h i hlt]

/-- A weighted change of one entry. -/
theorem sum_mul_modify {n k : Nat} {x : Array α} (hx : x.size = n) (hk : k < n) (w : Nat → α)
    (d : α) : ∑ j ∈ Finset.range n, w j * (entry (x.modify k (· + d)) j - entry x j) = w k * d := by
  rw [Finset.sum_eq_single_of_mem k (Finset.mem_range.2 hk) fun j hj hne => ?_]
  · rw [entry_modify_add x k d k (hx ▸ hk), if_pos rfl, add_sub_cancel_left]
  · rw [entry_modify_add x k d j (hx ▸ Finset.mem_range.1 hj), if_neg hne.symm, add_zero, sub_self,
      mul_zero]

namespace Component

variable {c c' : Component α} {x y base : Array α} {J : Nat → Column → α}

/-! ### Slopes -/

/-- What slopes in a row make of the difference of two points. -/
def slopeSum (c : Component α) (J : Nat → Column → α) (i : Nat) (x y x' y' : Array α) : α :=
  ∑ k ∈ Finset.range c.inputs.size, J i (.input k) * (entry x' k - entry x k) +
    ∑ k ∈ Finset.range c.outputs.size, J i (.output k) * (entry y' k - entry y k)

/-- **The function that is differentiated is affine**: it changes by the slopes, which are its
derivatives everywhere. -/
def ChangesBy (c : Component α) (J : Nat → Column → α) : Prop :=
  ∀ x y x' y' : Array α, x.size = c.inputs.size → y.size = c.outputs.size →
    x'.size = c.inputs.size → y'.size = c.outputs.size →
      ∃ b b', c.raw x y = .ok b ∧ c.raw x' y' = .ok b' ∧
        ∀ i < c.outputs.size, entry b' i - entry b i = c.slopeSum J i x y x' y'

/-- **The residuals are affine**: they change by the slopes, which are their Jacobian everywhere. -/
def ResidualsChangeBy (c : Component α) (K : Nat → Column → α) : Prop :=
  ∀ x y x' y' : Array α, x.size = c.inputs.size → y.size = c.outputs.size →
    x'.size = c.inputs.size → y'.size = c.outputs.size →
      ∃ r r', c.residuals x y (zeros c.outputs.size) = .ok ⟨⟩ r ∧
        c.residuals x' y' (zeros c.outputs.size) = .ok ⟨⟩ r' ∧
        ∀ i < c.outputs.size, entry r' i - entry r i = c.slopeSum K i x y x' y'

/-- The slopes of what is differentiated, from those of the residuals. -/
def rawSlopes (c : Component α) (K : Nat → Column → α) (i : Nat) (k : Column) : α :=
  if c.isImplicit then K i k
  else
    match k with
    | .input _ => -K i k
    | .output _ => 0

theorem Alike.slopeSum (h : c.Alike c') (i : Nat) (x y x' y' : Array α) :
    c'.slopeSum J i x y x' y' = c.slopeSum J i x y x' y' := by
  rw [Component.slopeSum, h.inputs, h.outputs, Component.slopeSum]

/-- One input moved. -/
theorem slopeSum_input {k : Nat} (hx : x.size = c.inputs.size) (hk : k < c.inputs.size) (d : α)
    (i : Nat) : c.slopeSum J i x y (x.modify k (· + d)) y = J i (.input k) * d := by
  simp only [slopeSum, sub_self, mul_zero, Finset.sum_const_zero, add_zero]
  exact sum_mul_modify hx hk (fun k => J i (.input k)) d

/-- One output moved. -/
theorem slopeSum_output {k : Nat} (hy : y.size = c.outputs.size) (hk : k < c.outputs.size) (d : α)
    (i : Nat) : c.slopeSum J i x y x (y.modify k (· + d)) = J i (.output k) * d := by
  simp only [slopeSum, sub_self, mul_zero, Finset.sum_const_zero, zero_add]
  exact sum_mul_modify hy hk (fun k => J i (.output k)) d

namespace ChangesBy

theorem alike (h : c.ChangesBy J) (halike : c.Alike c') : c'.ChangesBy J := by
  intro x y x' y' hx hy hx' hy'
  rw [halike.inputs] at hx hx'
  rw [halike.outputs] at hy hy'
  obtain ⟨b, b', hb, hb', hchange⟩ := h x y x' y' hx hy hx' hy'
  refine ⟨b, b', ?_, ?_, ?_⟩
  · rw [halike.raw]
    exact hb
  · rw [halike.raw]
    exact hb'
  · rw [halike.outputs]
    intro i hi
    rw [halike.slopeSum]
    exact hchange i hi

variable (h : c.ChangesBy J) (hx : x.size = c.inputs.size) (hy : y.size = c.outputs.size)

include h hx hy

theorem exists_raw : ∃ b, c.raw x y = .ok b := by
  obtain ⟨b, -, hb, -⟩ := h x y x y hx hy hx hy
  exact ⟨b, hb⟩

/-- With one entry moved, what is computed moves by a column of the slopes. -/
theorem rawMoved_eq (hbase : c.raw x y = .ok base) {k : Column} (hk : c.HasColumn k) (d : α) :
    ∃ b, c.rawMoved x y d k = .ok b ∧ b.size = c.outputs.size ∧
      ∀ i < c.outputs.size, entry b i = entry base i + J i k * d := by
  cases k with
  | input k =>
    obtain ⟨b, b', hb, hb', hchange⟩ := h x y (x.modify k (· + d)) y hx hy (by simpa using hx) hy
    obtain rfl : b = base := Except.ok.inj (hb.symm.trans hbase)
    refine ⟨b', hb', size_raw hb', fun i hi => ?_⟩
    rw [← sub_eq_iff_eq_add', hchange i hi, slopeSum_input hx hk]
  | output k =>
    obtain ⟨b, b', hb, hb', hchange⟩ := h x y x (y.modify k (· + d)) hx hy hx (by simpa using hy)
    obtain rfl : b = base := Except.ok.inj (hb.symm.trans hbase)
    refine ⟨b', hb', size_raw hb', fun i hi => ?_⟩
    rw [← sub_eq_iff_eq_add', hchange i hi, slopeSum_output hy hk]

/-- **A finite difference is exact**, in every form and over every step but zero. -/
theorem fdColumn_eq (hbase : c.raw x y = .ok base) {k : Column} (hk : c.HasColumn k)
    {o : FdOptions α} (ho : o.step ≠ 0) :
    c.fdColumn x y o base k = .ok (tabulate c.outputs.size fun i => J i k) := by
  have hstep : o.stepFor (entryAt x y k) ≠ 0 := FdOptions.stepFor_ne_zero ho _
  have hsize := size_raw hbase
  unfold fdColumn
  generalize o.stepFor (entryAt x y k) = d at hstep
  obtain ⟨plus, hplus, hplusSize, hplusEntry⟩ := rawMoved_eq h hx hy hbase hk d
  obtain ⟨minus, hminus, hminusSize, hminusEntry⟩ := rawMoved_eq h hx hy hbase hk (-d)
  simp only [hplus, hminus]
  split
  · refine congrArg Except.ok (zipWith_eq_tabulate hplusSize hsize fun i hi => ?_)
    rw [hplusEntry i hi]
    field_simp
    ring
  · refine congrArg Except.ok (zipWith_eq_tabulate hsize hminusSize fun i hi => ?_)
    rw [hminusEntry i hi]
    field_simp
    ring
  · refine congrArg Except.ok (zipWith_eq_tabulate hplusSize hminusSize fun i hi => ?_)
    rw [hplusEntry i hi, hminusEntry i hi, two_eq]
    field_simp
    ring

end ChangesBy

/-! ### Slopes of residuals -/

section Residuals

variable {K : Nat → Column → α}

/-- The residuals of an explicit component are what its outputs are off by. -/
theorem residuals_of_explicit (hexplicit : c.isImplicit = false) (hy : y.size = c.outputs.size)
    {r : Array α} (hr : c.residuals x y (zeros c.outputs.size) = .ok ⟨⟩ r) :
    ∃ b, c.raw x y = .ok b ∧ r = sub y b := by
  unfold residuals at hr
  split at hr
  · split at hr
    · rename_i b hb
      cases hr
      have hsize : b.size = c.outputs.size := (size_evaluate hb).trans (size_zeros _)
      refine ⟨b, ?_, overlay_of_size ?_⟩
      · simp only [raw, hexplicit, Bool.false_eq_true, if_false, hb]
      · rw [size_sub (hy.trans hsize.symm), hsize, size_zeros]
    · cases hr
  · rename_i d hd
    rw [isImplicit, hd] at hexplicit
    cases hexplicit

/-- The residuals of an implicit component are what is differentiated. -/
theorem raw_of_implicit (himplicit : c.isImplicit = true) {r : Array α}
    (hr : c.residuals x y (zeros c.outputs.size) = .ok ⟨⟩ r) : c.raw x y = .ok r := by
  simp only [raw, himplicit, if_true, hr]

/-- What an explicit component computes does not depend on its outputs. -/
theorem raw_eq_of_explicit (hexplicit : c.isImplicit = false) (x y y' : Array α) :
    c.raw x y = c.raw x y' := by
  simp only [raw, hexplicit, Bool.false_eq_true, if_false]

namespace ResidualsChangeBy

/-- **What is differentiated is affine where the residuals are.** -/
theorem changesBy (h : c.ResidualsChangeBy K) : c.ChangesBy (c.rawSlopes K) := by
  intro x y x' y' hx hy hx' hy'
  cases himplicit : c.isImplicit with
  | true =>
    obtain ⟨r, r', hr, hr', hchange⟩ := h x y x' y' hx hy hx' hy'
    refine ⟨r, r', raw_of_implicit himplicit hr, raw_of_implicit himplicit hr', fun i hi => ?_⟩
    simp only [slopeSum, rawSlopes, himplicit, if_true]
    exact hchange i hi
  | false =>
    -- the outputs stay, so that the residuals change by what is computed alone
    obtain ⟨r, r', hr, hr', hchange⟩ := h x y x' y hx hy hx' hy
    obtain ⟨b, hb, rfl⟩ := residuals_of_explicit himplicit hy hr
    obtain ⟨b', hb', rfl⟩ := residuals_of_explicit himplicit hy hr'
    refine ⟨b, b', hb, (raw_eq_of_explicit himplicit x' y' y).trans hb', fun i hi => ?_⟩
    have hi' := hchange i hi
    rw [entry_sub (hy.trans (size_raw hb).symm), entry_sub (hy.trans (size_raw hb').symm)] at hi'
    simp only [slopeSum, sub_self, mul_zero, Finset.sum_const_zero, add_zero] at hi'
    simp only [slopeSum, rawSlopes, himplicit, Bool.false_eq_true, if_false, zero_mul,
      Finset.sum_const_zero, add_zero, neg_mul, Finset.sum_neg_distrib, ← hi']
    ring

/-- The residual of an output of an explicit component has slope one in that output and none in
another. -/
theorem slope_output (h : c.ResidualsChangeBy K) (hexplicit : c.isImplicit = false) {i k : Nat}
    (hi : i < c.outputs.size) (hk : k < c.outputs.size) :
    K i (.output k) = if i = k then 1 else 0 := by
  have hx : (zeros c.inputs.size : Array α).size = c.inputs.size := size_zeros _
  have hy : (zeros c.outputs.size : Array α).size = c.outputs.size := size_zeros _
  have hy' : ((zeros c.outputs.size : Array α).modify k (· + 1)).size = c.outputs.size := by
    rw [Array.size_modify, hy]
  obtain ⟨r, r', hr, hr', hchange⟩ := h _ _ _ _ hx hy hx hy'
  obtain ⟨b, hb, rfl⟩ := residuals_of_explicit hexplicit hy hr
  obtain ⟨b', hb', rfl⟩ := residuals_of_explicit hexplicit hy' hr'
  obtain rfl : b' = b :=
    Except.ok.inj ((hb'.symm.trans (raw_eq_of_explicit hexplicit _ _ _)).trans hb)
  have hi' := hchange i hi
  rw [slopeSum_output hy hk, mul_one, entry_sub (hy.trans (size_raw hb).symm),
    entry_sub (hy'.trans (size_raw hb).symm), entry_modify_add _ _ _ _ (hi.trans_eq hy.symm),
    entry_zeros] at hi'
  rw [← hi']
  split_ifs with h1 h2 h2
  · ring
  · exact absurd h1.symm h2
  · exact absurd h2.symm h1
  · ring

end ResidualsChangeBy

end Residuals

end Component

/-! ### A component that triples -/

namespace Tripling

/-- `y = 3 x`, with given declarations. -/
def discipline (ps : List (PartialDeclaration ℚ)) : Discipline ℚ :=
  .explicit { (ExplicitDiscipline.blank : ExplicitDiscipline ℚ) with
    inputs := [Variable.named "x"]
    outputs := [Variable.named "y"]
    partials := ps
    compute := fun inputs outputs =>
      .ok ⟨⟩ (outputs.setEntry "y" 0 (3 * inputs.value "x")).data }

/-- Its component. -/
def component (ps : List (PartialDeclaration ℚ)) : Component ℚ :=
  (Component.declare "triple" (discipline ps)).toOption.getD
    ⟨"", discipline ps, .empty, .empty, .empty, none, #[]⟩

theorem declare_eq {ps : List (PartialDeclaration ℚ)}
    (h : (Component.declare "triple" (discipline ps)).isOk = true) :
    Component.declare "triple" (discipline ps) = .ok (component ps) :=
  eq_ok_getD _ h

theorem addressable (ps : List (PartialDeclaration ℚ)) : (discipline ps).Addressable := by
  have hone : ∀ name : String,
      ([(Variable.named name : Variable ℚ)].map Variable.size).sum < Count.modulus := fun name => by
    simp [Variable.size, Variable.named, Count.product, Count.mul, Count.modulus]
  exact ⟨hone "x", hone "y"⟩

/-- The layout of a single variable. -/
def single (name : String) : Layout := ⟨#[⟨name, ⟨0, 1⟩⟩], 1⟩

/-- The slopes of the residual `y - 3 x`. -/
def slopes : Nat → Column → ℚ
  | _, .input _ => -3
  | _, .output _ => 1

theorem residualsChangeBy {c : Component ℚ} {ps : List (PartialDeclaration ℚ)}
    (hd : c.discipline = discipline ps) (hin : c.inputs = single "x")
    (hout : c.outputs = single "y") : c.ResidualsChangeBy slopes := by
  have hspan : ∀ name : String, (single name).span? name = some ⟨0, 1⟩ := fun name => by
    simp [single, Layout.span?, Layout.position?, Layout.spanAt, Layout.fieldAt]
  have hresidual : ∀ a b : ℚ, c.residuals #[a] #[b] (zeros c.outputs.size) =
      .ok ⟨⟩ #[b - 3 * a] := by
    intro a b
    have hzeros : zeros (single "y").size = (#[0] : Array ℚ) := rfl
    simp [Component.residuals, Component.evaluate, Component.settle, hd, hin, hout, discipline,
      View.setEntry, View.value, View.entry, hspan, Span.size, hzeros, overlay_of_size, Vec.sub,
      entry]
  intro x y x' y' hx hy hx' hy'
  rw [hin] at hx hx'
  rw [hout] at hy hy'
  obtain ⟨a, rfl⟩ := Array.size_eq_one_iff.1 hx
  obtain ⟨b, rfl⟩ := Array.size_eq_one_iff.1 hy
  obtain ⟨a', rfl⟩ := Array.size_eq_one_iff.1 hx'
  obtain ⟨b', rfl⟩ := Array.size_eq_one_iff.1 hy'
  refine ⟨_, _, hresidual a b, hresidual a' b', fun i hi => ?_⟩
  rw [hout] at hi
  obtain rfl : i = 0 := Nat.lt_one_iff.1 hi
  simp [Component.slopeSum, hin, hout, single, slopes, entry]
  ring

end Tripling

end Mdao
