import Mathlib
import Mdao.Component
import Mdao.Proofs.Component.Declared
import Mdao.Proofs.Vec

/-!
# What components compute

The functions of a discipline get buffers with whatever these held before. An explicit component
computes a function when its outputs are that function of its inputs all the same
(`Component.Computes`), and then its residuals are what its outputs are off by. An implicit one has
residuals that are a function when they depend on its inputs and outputs alone
(`Component.HasResiduals`). A component that writes every entry of its residuals gives the same
ones whatever a buffer held (`Component.WritesResiduals`), and every explicit component does so.
-/

namespace Mdao

open Vec

variable {α : Type}

/-- A unit computes a function of its inputs alone, whatever its outputs were before. -/
def Component.Computes (c : Component α) (f : Array α → Array α) : Prop :=
  ∃ d, c.discipline = .explicit d ∧ ∀ x y, x.size = c.inputs.size → y.size = c.outputs.size →
    (f x).size = c.outputs.size ∧ d.compute ⟨c.inputs, x⟩ ⟨c.outputs, y⟩ = .ok ⟨⟩ (f x)

/-- The residuals of a unit are a function of its inputs and outputs alone, whatever they were
before. -/
def Component.HasResiduals (c : Component α) (R : Array α → Array α → Array α) : Prop :=
  ∃ d, c.discipline = .implicit d ∧ ∀ x y r, x.size = c.inputs.size → y.size = c.outputs.size →
    r.size = c.outputs.size → (R x y).size = c.outputs.size ∧
      d.residuals ⟨c.inputs, x⟩ ⟨c.outputs, y⟩ ⟨c.outputs, r⟩ = .ok ⟨⟩ (R x y)

namespace Component

/-! ### The sizes of what is computed -/

section Sizes

variable {c : Component α} {x y b : Array α}

/-- The size of a buffer is kept. -/
theorem size_settle {β : Type} {buffer z : Array β} {filled : Filled β}
    (h : c.settle buffer filled = .ok ⟨⟩ z) : z.size = buffer.size := by
  cases filled with
  | ok b w =>
    cases h
    exact Vec.size_overlay _ _
  | error e w => cases h

theorem size_evaluate {z : Array α} (h : c.evaluate x y = .ok ⟨⟩ z) : z.size = y.size := by
  unfold evaluate at h
  split at h
  · exact size_settle h
  · cases h

theorem size_residuals [Scalar α] {r z : Array α} (h : c.residuals x y r = .ok ⟨⟩ z) : z.size = r.size := by
  unfold residuals at h
  split at h
  · split at h
    · cases h
      exact Vec.size_overlay _ _
    · cases h
  · exact size_settle h

theorem size_raw [Scalar α] (h : c.raw x y = .ok b) : b.size = c.outputs.size := by
  unfold raw at h
  dsimp only at h
  split at h
  · rename_i z hz
    cases h
    split_ifs at hz
    · exact (size_residuals hz).trans Array.size_replicate
    · exact (size_evaluate hz).trans Array.size_replicate
  · cases h

theorem size_rawMoved [Scalar α] {delta : α} {k : Column} (h : c.rawMoved x y delta k = .ok b) :
    b.size = c.outputs.size := by
  cases k with
  | input i => exact size_raw h
  | output i => exact size_raw h

end Sizes

section Alike

variable [Scalar α] {c c' : Component α}

/-- Components that differ in their derivatives alone have the same residuals. -/
theorem Alike.residuals (h : c.Alike c') : c'.residuals = c.residuals := by
  obtain ⟨hname, hdiscipline, hinputs, houtputs, -⟩ := h
  cases c
  cases c'
  cases hname
  cases hdiscipline
  cases hinputs
  cases houtputs
  rfl

end Alike

section Computes

variable {c c' : Component α} {f : Array α → Array α} {x y r : Array α}

theorem Computes.isImplicit (hf : c.Computes f) : c.isImplicit = false := by
  obtain ⟨d, hd, -⟩ := hf
  simp [Component.isImplicit, hd, Discipline.isImplicit]

theorem Computes.alike [Scalar α] (hf : c.Computes f) (h : c.Alike c') : c'.Computes f := by
  obtain ⟨d, hd, hcompute⟩ := hf
  refine ⟨d, h.discipline.trans hd, ?_⟩
  rw [h.inputs, h.outputs]
  exact hcompute

theorem Computes.evaluate_eq (hf : c.Computes f) (hx : x.size = c.inputs.size)
    (hy : y.size = c.outputs.size) : c.evaluate x y = .ok ⟨⟩ (f x) := by
  obtain ⟨d, hd, hcompute⟩ := hf
  obtain ⟨hsize, heq⟩ := hcompute x y hx hy
  simp only [Component.evaluate, hd, heq, settle]
  rw [overlay_of_size (hsize.trans hy.symm)]

theorem Computes.size [Zero α] (hf : c.Computes f) (hx : x.size = c.inputs.size) :
    (f x).size = c.outputs.size := by
  obtain ⟨d, -, hcompute⟩ := hf
  exact (hcompute x (zeros c.outputs.size) hx (size_zeros _)).1

/-- Solving the unit gives its outputs. -/
theorem Computes.solve_eq (hf : c.Computes f) (hx : x.size = c.inputs.size)
    (hy : y.size = c.outputs.size) : c.solve x y = .ok true (f x) := by
  have heval := hf.evaluate_eq hx hy
  obtain ⟨d, hd, -⟩ := hf
  simp only [Component.solve, hd, heval]

/-- The residuals of the unit are what its outputs are off by. -/
theorem Computes.residuals_eq [Scalar α] (hf : c.Computes f) (hx : x.size = c.inputs.size)
    (hy : y.size = c.outputs.size) (hr : r.size = c.outputs.size) :
    c.residuals x y r = .ok ⟨⟩ (Vec.sub y (f x)) := by
  have heval := hf.evaluate_eq hx (size_zeros c.outputs.size)
  have hsize := hf.size hx
  obtain ⟨d, hd, -⟩ := hf
  simp only [Component.residuals, hd, heval]
  rw [overlay_of_size]
  simp [Vec.sub, hy, hsize, hr]

end Computes

section HasResiduals

variable {c : Component α} {R : Array α → Array α → Array α} {x y r : Array α}

theorem HasResiduals.isImplicit (hR : c.HasResiduals R) : c.isImplicit = true := by
  obtain ⟨d, hd, -⟩ := hR
  simp [Component.isImplicit, hd, Discipline.isImplicit]

theorem HasResiduals.residuals_eq [Scalar α] (hR : c.HasResiduals R) (hx : x.size = c.inputs.size)
    (hy : y.size = c.outputs.size) (hr : r.size = c.outputs.size) :
    c.residuals x y r = .ok ⟨⟩ (R x y) := by
  obtain ⟨d, hd, hresiduals⟩ := hR
  obtain ⟨hsize, heq⟩ := hresiduals x y r hx hy hr
  simp only [Component.residuals, hd, heq, settle]
  rw [overlay_of_size (hsize.trans hr.symm)]

end HasResiduals

/-! ### What is overwritten -/

section WritesResiduals

variable [Scalar α]

/-- The residuals do not depend on what was there before. -/
def WritesResiduals (c : Component α) : Prop :=
  ∀ x y r r', x.size = c.inputs.size → y.size = c.outputs.size → r.size = c.outputs.size →
    r'.size = c.outputs.size → outcome (c.residuals x y r) = outcome (c.residuals x y r')

variable {c c' : Component α}

theorem WritesResiduals.alike (hc : c.WritesResiduals) (h : c.Alike c') : c'.WritesResiduals := by
  unfold WritesResiduals
  rw [h.residuals, h.inputs, h.outputs]
  exact hc

/-- **An explicit component writes all its residuals**: they are what its outputs are off by. -/
theorem writesResiduals_of_explicit {d : ExplicitDiscipline α}
    (hd : c.discipline = .explicit d) : c.WritesResiduals := by
  intro x y r r' _ hy hr hr'
  simp only [residuals, evaluate, hd]
  cases d.compute ⟨c.inputs, x⟩ ⟨c.outputs, zeros c.outputs.size⟩ with
  | error e filled => rfl
  | ok _ filled =>
    have hsize : (Vec.sub y (overlay (zeros c.outputs.size) filled)).size = c.outputs.size := by
      simp [Vec.sub, hy]
    simp only [settle]
    rw [overlay_of_size (hsize.trans hr.symm), overlay_of_size (hsize.trans hr'.symm)]

/-- Residuals that have been written are written again as they are. -/
theorem WritesResiduals.again (hc : c.WritesResiduals) {x y r r' : Array α}
    (hx : x.size = c.inputs.size) (hy : y.size = c.outputs.size) (hr : r.size = c.outputs.size)
    (h : c.residuals x y r = .ok ⟨⟩ r') {s s' : Array α} (hs : s.size = c.outputs.size)
    (h' : c.residuals x y s = .ok ⟨⟩ s') : s' = r' := by
  have heq := hc x y s r hx hy hs hr
  rw [h, h'] at heq
  exact (Prod.mk.inj (Except.ok.inj heq)).2

end WritesResiduals

end Component

end Mdao
