import Mathlib
import Mdao.Model.Check
import Mdao.Proofs.Component.Affine
import Mdao.Proofs.Component.Differences

/-!
# Approximated columns of affine components

An explicit component is affine with given slopes when its outputs change by the slopes and its outputs
at complex points have imaginary parts that follow the slopes as well (`Component.AffineWith`). A
difference of such a component over any step other than zero is exact, and so is a complex step: each
column is that of the slopes, by every method that a check may ask for (`AffineWith.columns_eq`).
Apart from that, the derivatives that the component has after a linearization may be the slopes
(`Component.LinearizesTo`).
-/

namespace Mdao

open Vec

variable {α : Type} [ExactScalar α]

/-- The methods with a step other than zero, where they have one. -/
def Method.StepNeZero : Method α → Prop
  | .exact => True
  | .fd o => o.step ≠ 0
  | .cs step => step ≠ 0

/-! ### Slopes of an explicit component -/

namespace Component

/-- The derivatives that a component has are given slopes. -/
def HasSlopes (c : Component α) (A : Nat → Nat → α) : Prop :=
  ∀ dx : Array α, dx.size = c.inputs.size → ∀ i < c.outputs.size,
    c.differential dx (zeros c.outputs.size) i =
      ∑ k ∈ Finset.range c.inputs.size, A i k * entry dx k

/-- A column of slopes. -/
def slopeColumn (c : Component α) (A : Nat → Nat → α) (k : Nat) : Array α :=
  tabulate c.outputs.size fun i => A i k

/-- **The derivatives of a component cover every dependence**: however often it has been linearized
before, linearizing it anywhere succeeds, and its derivatives are the slopes then. -/
def LinearizesTo (c : Component α) (A : Nat → Nat → α) : Prop :=
  ∀ before, c.Aged before → ∀ x y : Array α, x.size = c.inputs.size → y.size = c.outputs.size →
    ∃ after, before.linearize x y none = .ok ⟨⟩ after ∧ after.HasSlopes A

/-- Where nothing of earlier linearizations is left, it is enough to linearize the component as it is
declared. -/
theorem LinearizesAfresh.linearizesTo {c : Component α} {A : Nat → Nat → α}
    (h : c.LinearizesAfresh) (hslopes : ∀ x y : Array α, x.size = c.inputs.size →
      y.size = c.outputs.size → ∃ after, c.linearize x y none = .ok ⟨⟩ after ∧ after.HasSlopes A) :
    c.LinearizesTo A := by
  intro before hbefore x y hx hy
  obtain ⟨after, hafter, hhas⟩ := hslopes x y hx hy
  have hagrees := h.agrees (.refl c) hbefore hx hy none
  rw [hafter] at hagrees
  generalize before.linearize x y none = r at hagrees ⊢
  cases hagrees with
  | ok _ heq => exact ⟨after, by rw [heq], hhas⟩

/-- **An explicit component that is affine with given slopes.** -/
structure AffineWith (c : Component α) (f : Array α → Array α) (A : Nat → Nat → α) : Prop where
  /-- It computes a function. -/
  computes : c.Computes f
  /-- The function changes by the slopes. -/
  change : ∀ x x' : Array α, x.size = c.inputs.size → x'.size = c.inputs.size →
    ∀ i < c.outputs.size, entry (f x') i - entry (f x) i =
      ∑ k ∈ Finset.range c.inputs.size, A i k * (entry x' k - entry x k)
  /-- Where it can be evaluated at complex points, the imaginary parts of its outputs follow the
  slopes. -/
  complex : ∀ d, c.discipline = .explicit d → d.complexStep = true →
    ∀ z y : Array (Complex α), z.size = c.inputs.size → y.size = c.outputs.size →
      ∃ w, d.computeComplex ⟨c.inputs, z⟩ ⟨c.outputs, y⟩ = .ok ⟨⟩ w ∧ w.size = c.outputs.size ∧
        ∀ i < c.outputs.size, (entry w i).im =
          ∑ k ∈ Finset.range c.inputs.size, A i k * (entry z k).im

namespace AffineWith

variable {c c' : Component α} {f : Array α → Array α} {A : Nat → Nat → α}

theorem alike (h : c.AffineWith f A) (halike : c.Alike c') : c'.AffineWith f A where
  computes := h.computes.alike halike
  change := by
    rw [halike.inputs, halike.outputs]
    exact h.change
  complex := by
    rw [halike.inputs, halike.outputs, halike.discipline]
    exact h.complex

/-- After a linearization it is affine with exact derivatives. -/
theorem isAffine (h : c.AffineWith f A) (hslopes : c.HasSlopes A) (inputs outputs : Array α) :
    c.IsAffine inputs outputs := by
  refine .explicit f h.computes fun x x' hx hx' i hi => ?_
  rw [h.change x x' hx hx' i hi, hslopes _ ((size_sub (hx'.trans hx.symm)).trans hx) i hi]
  exact Finset.sum_congr rfl fun k _ => by rw [entry_sub (hx'.trans hx.symm)]

/-! ### Columns -/

variable {inputs outputs : Array α} {k : Nat}

theorem raw_eq (h : c.AffineWith f A) (hin : inputs.size = c.inputs.size) :
    c.raw inputs outputs = .ok (f inputs) := by
  simp only [raw, h.computes.isImplicit, Bool.false_eq_true, if_false,
    h.computes.evaluate_eq hin (size_zeros _)]

/-- What is differentiated changes by the slopes. -/
theorem changesBy (h : c.AffineWith f A) :
    c.ChangesBy fun i k => match k with
      | .input k => A i k
      | .output _ => 0 := by
  intro x y x' y' hx _ hx' _
  refine ⟨f x, f x', h.raw_eq hx, h.raw_eq hx', fun i hi => ?_⟩
  simp only [slopeSum, zero_mul, Finset.sum_const_zero, add_zero]
  exact h.change x x' hx hx' i hi

/-- **A finite difference is exact**, in every form. -/
theorem fdColumn_eq (h : c.AffineWith f A) (hin : inputs.size = c.inputs.size)
    (hk : k < c.inputs.size) {o : FdOptions α} (ho : o.step ≠ 0) :
    c.fdColumn inputs outputs o (f inputs) (.input k) = .ok (slopeColumn c A k) := by
  have hexplicit := h.computes.isImplicit
  have hmoved : ∀ d : α, c.rawMoved inputs outputs d (.input k) =
      c.rawMoved inputs (zeros c.outputs.size) d (.input k) := fun d =>
    raw_eq_of_explicit hexplicit _ _ _
  have hfd : c.fdColumn inputs outputs o (f inputs) (.input k) =
      c.fdColumn inputs (zeros c.outputs.size) o (f inputs) (.input k) := by
    simp only [fdColumn, entryAt, hmoved]
  rw [hfd]
  exact h.changesBy.fdColumn_eq hin (size_zeros _) (h.raw_eq hin) (k := .input k) hk ho

/-- **A complex step is exact.** -/
theorem csColumn_eq (h : c.AffineWith f A) (hcomplex : c.capabilities.complexStep = true)
    (hin : inputs.size = c.inputs.size) (hk : k < c.inputs.size) {step : α} (hstep : step ≠ 0) :
    c.csColumn inputs outputs step (.input k) = .ok (slopeColumn c A k) := by
  obtain ⟨d, hd, -⟩ := h.computes
  have hstep' : d.complexStep = true := by
    simpa [capabilities, hd, Discipline.capabilities] using hcomplex
  obtain ⟨z, hz⟩ : ∃ z : Array (Complex α),
      (inputs.map Complex.ofReal).modify k (fun z => ⟨z.re, step⟩) = z := ⟨_, rfl⟩
  have hsize : z.size = c.inputs.size := by
    rw [← hz]
    simpa using hin
  have him : ∀ j < c.inputs.size, (entry z j).im = if k = j then step else 0 := by
    intro j hj
    rw [entry_eq_getElem (hsize ▸ hj)]
    subst hz
    rw [Array.getElem_modify]
    split_ifs
    · rfl
    · rw [Array.getElem_map]
      rfl
  obtain ⟨w, hw, hwsize, hwim⟩ := h.complex d hd hstep' z (zeros c.outputs.size) hsize (size_zeros _)
  simp only [csColumn, hd, hz, hw, settle]
  rw [overlay_of_size (by rw [hwsize, size_zeros])]
  refine congrArg Except.ok (ext_entry (by simp [slopeColumn, hwsize]) fun i hi => ?_)
  have hlt : i < c.outputs.size := by simpa [hwsize] using hi
  have hentry : entry (w.map fun z => z.im / step) i = (entry w i).im / step := by
    rw [entry_eq_getElem (by simpa using hi), Array.getElem_map, ← entry_eq_getElem]
  rw [hentry, hwim i hlt, slopeColumn, entry_tabulate, if_pos hlt,
    Finset.sum_eq_single_of_mem k (Finset.mem_range.2 hk) fun j hj hne => ?_]
  · rw [him k hk, if_pos rfl, mul_div_assoc, div_self hstep, mul_one]
  · rw [him j (Finset.mem_range.1 hj), if_neg hne.symm, mul_zero]

/-- **By every method a check differentiates a component with, its columns are those of the
slopes**: a complex step where it is supported, and finite differences in its place. -/
theorem column_eq (h : c.AffineWith f A) (hin : inputs.size = c.inputs.size)
    (hk : k < c.inputs.size) {method : Method α} (hmethod : method.StepNeZero) :
    c.column inputs outputs (.input k) (c.supported method) = .ok (slopeColumn c A k) := by
  have hfd : ∀ o : FdOptions α, o.step ≠ 0 →
      c.column inputs outputs (.input k) (.fd o) = .ok (slopeColumn c A k) := fun o ho => by
    simp only [column, h.raw_eq hin]
    exact h.fdColumn_eq hin hk ho
  cases method with
  | exact => exact hfd .default FdOptions.default_step_ne_zero
  | fd o => exact hfd o hmethod
  | cs step =>
    unfold supported
    dsimp only
    split_ifs with hcomplex
    · simp only [column, hcomplex, if_true]
      exact h.csColumn_eq hcomplex hin hk hmethod
    · exact hfd .default FdOptions.default_step_ne_zero

/-- Several columns, each of an input. -/
theorem columns_eq (h : c.AffineWith f A) (hin : inputs.size = c.inputs.size)
    {method : Method α} (hmethod : method.StepNeZero) {ks : List Nat}
    (hks : ∀ k ∈ ks, k < c.inputs.size) :
    c.columns inputs outputs (c.supported method) (ks.map Column.input) =
      .ok (ks.map (slopeColumn c A)) := by
  induction ks with
  | nil => rfl
  | cons k ks ih =>
    rw [List.map_cons, columns, h.column_eq hin (hks k List.mem_cons_self) hmethod,
      ih fun j hj => hks j (List.mem_cons_of_mem _ hj)]
    rfl

end AffineWith

end Component

end Mdao
