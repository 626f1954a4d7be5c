import Mathlib
import Mdao.Linear.Solver
import Mdao.Proofs.Jacobian.Assembled
import Mdao.Proofs.Step

/-!
# Exact solutions of linear systems

An operator whose products are those with a square matrix and its transpose has at most one vector
with a given product when the matrix is nonsingular (`eq_solution`). The entries of this vector are
sums over the inverse matrix, so a solution for a right-hand side with several contributions is the
sum of the solutions for each of them (`entry_solution`).

A linear solver is exact for an operator when it can be set up and each of its solves ends with a
vector that has the right-hand side as its product (`LinearConfig.SolvesExactly`).
-/

namespace Mdao

open Vec Matrix

variable {α : Type} [ExactScalar α] {n : Nat}

/-- The matrix that an operator multiplies with in a mode. -/
def Mode.along (J : Matrix (Fin n) (Fin n) α) : Mode → Matrix (Fin n) (Fin n) α
  | .fwd => J
  | .rev => Jᵀ

/-- The products of an operator are those with a matrix, and in reverse with its transpose. -/
structure Operator.IsMatrix (op : Operator α) (J : Matrix (Fin n) (Fin n) α) : Prop where
  dim : op.dim = n
  apply : ∀ mode x, ∃ y, op.apply mode x = .ok y ∧ y.size = n ∧
    toFun n y = mode.along J *ᵥ toFun n x

/-- An operator that forms the products of a sparse matrix. -/
theorem Operator.isMatrix_of_product {op : Operator α} {m : SparseMatrix α} (hdim : op.dim = n)
    (happly : ∀ mode x, op.apply mode x = .ok (m.product n mode x))
    (hm : ∀ e ∈ m.entries, e.1 < n ∧ e.2.1 < n) : op.IsMatrix (m.toMatrix n) := by
  refine ⟨hdim, fun mode x => ⟨_, happly mode x, m.size_product n mode x, ?_⟩⟩
  cases mode with
  | fwd => exact SparseMatrix.toFun_product_fwd hm x
  | rev => exact SparseMatrix.toFun_product_rev hm x

/-- The exact solution of `J x = b`, or of `Jᵀ x = b` in reverse. -/
noncomputable def solution (J : Matrix (Fin n) (Fin n) α) (mode : Mode) (b : Array α) : Array α :=
  ofFun ((mode.along J)⁻¹ *ᵥ toFun n b)

/-- An entry of the inverse, with row and column exchanged in reverse. -/
noncomputable def inverseAt (J : Matrix (Fin n) (Fin n) α) (mode : Mode) (i k : Nat) : α :=
  match mode with
  | .fwd => coeff J⁻¹ i k
  | .rev => coeff J⁻¹ k i

variable {J : Matrix (Fin n) (Fin n) α}

@[simp] theorem size_solution (mode : Mode) (b : Array α) : (solution J mode b).size = n :=
  size_ofFun _

/-- **A vector whose product is the right-hand side is the solution.** -/
theorem eq_solution {op : Operator α} (hop : op.IsMatrix J) (hJ : J.det ≠ 0) {mode : Mode}
    {x b : Array α} (hx : x.size = n) (h : op.apply mode x = .ok b) : x = solution J mode b := by
  obtain ⟨y, hy, -, hproduct⟩ := hop.apply mode x
  obtain rfl : y = b := Except.ok.inj (hy.symm.trans h)
  have hdet : IsUnit (mode.along J).det := by
    cases mode with
    | fwd => exact isUnit_iff_ne_zero.2 hJ
    | rev => exact isUnit_iff_ne_zero.2 (by rwa [Mode.along, Matrix.det_transpose])
  refine eq_ofFun hx ?_
  rw [hproduct, Matrix.mulVec_mulVec, Matrix.nonsing_inv_mul _ hdet, Matrix.one_mulVec]

theorem coeff_along_inv (J : Matrix (Fin n) (Fin n) α) (mode : Mode) (i k : Nat) :
    coeff (mode.along J)⁻¹ i k = inverseAt J mode i k := by
  cases mode with
  | fwd => rfl
  | rev => rw [Mode.along, ← Matrix.transpose_nonsing_inv, coeff_transpose]; rfl

theorem coeff_of_le {M : Matrix (Fin n) (Fin n) α} {i k : Nat} (h : n ≤ k) : coeff M i k = 0 :=
  dif_neg fun hik => by omega

/-- **The solution for a sum of contributions** is the sum of the solutions for each. -/
theorem entry_solution (mode : Mode) (cs : List (Nat × α)) {i : Nat} (hi : i < n) :
    entry (solution J mode (scatter (zeros n) cs)) i =
      (cs.map fun c => inverseAt J mode i c.1 * c.2).sum := by
  have hrow : entry (solution J mode (scatter (zeros n) cs)) i =
      ∑ k ∈ Finset.range n, coeff (mode.along J)⁻¹ i k * entry (scatter (zeros n) cs) k := by
    rw [solution, ofFun, entry_ofFn _ hi]
    exact mulVec_toFun _ _ ⟨i, hi⟩
  rw [hrow, sum_mul_scatter]
  refine congrArg List.sum (List.map_congr_left fun c _ => ?_)
  rw [coeff_along_inv]
  split_ifs with hc
  · rfl
  · rw [← coeff_along_inv, coeff_of_le (by omega), zero_mul]

theorem unit_eq_scatter (n k : Nat) : (unit n k : Array α) = scatter (zeros n) [(k, 1)] := by
  refine ext_entry (by simp) fun i hi => ?_
  have hin : i < n := by simpa using hi
  rw [entry_scatter _ _ _ (by simpa using hin), entry_unit, entry_zeros, zero_add, added_cons,
    added_nil, add_zero]
  simp only [hin, and_true]

theorem entry_solution_unit (mode : Mode) (k : Nat) {i : Nat} (hi : i < n) :
    entry (solution J mode (unit n k)) i = inverseAt J mode i k := by
  rw [unit_eq_scatter, entry_solution mode _ hi]
  simp

/-- Solves that are exact from any memory that is ready: each ends with a vector that has the
right-hand side as its product. -/
def LinearConfig.SolvesFrom (config : LinearConfig α) (op : Operator α)
    (Ready : LinearMemory α → Prop) : Prop :=
  ∀ m, Ready m → ∀ mode rhs, rhs.size = op.dim →
    ∃ s m', config.solve op mode rhs m = .ok s m' ∧ Ready m' ∧ s.x.size = op.dim ∧
      op.apply mode s.x = .ok rhs

/-- **A linear solver that returns exact solutions**, as often as it is asked once it has been set
up. -/
def LinearConfig.SolvesExactly (config : LinearConfig α) (op : Operator α) : Prop :=
  ∃ Ready : LinearMemory α → Prop,
    (∃ m, config.setup op .blank = .ok () m ∧ Ready m) ∧ config.SolvesFrom op Ready

/-! ### Direct solves -/

theorem norm_nonneg (x : Array α) : 0 ≤ Vec.norm x := ExactScalar.sqrt_nonneg _

theorem norm_eq_zero {x : Array α} (h : ∀ k < x.size, entry x k = 0) : Vec.norm x = 0 := by
  have hsquares : x.toList.map (fun v => v * v) = List.replicate x.size 0 := by
    refine List.ext_getElem (by simp) fun k h1 h2 => ?_
    have hk : k < x.size := by simpa using h2
    have hzero : x[k] = 0 := by
      rw [← entry_eq_getElem hk]
      exact h k hk
    simp [hzero]
  rw [Vec.norm, sum_eq, hsquares, List.sum_replicate, nsmul_zero, ExactScalar.sqrt_zero]

theorem norm_sub_self (x : Array α) : Vec.norm (Vec.sub x x) = 0 :=
  norm_eq_zero fun k _ => by rw [entry_sub rfl, sub_self]

namespace Direct

/-- The norm above which a residual is taken as the sign of a singular matrix. -/
def tolerance {β : Type} [Scalar β] (rhs : Array β) : β :=
  1e-6 * Scalar.maxNum (Vec.norm rhs) Scalar.minPositive

theorem tolerance_nonneg (rhs : Array α) : 0 ≤ tolerance rhs := by
  refine mul_nonneg ?_ ?_
  · have hrat : (0 : ℚ) ≤ OfScientific.ofScientific 1 true 6 := by norm_num
    exact le_of_le_of_eq (Rat.cast_nonneg.2 hrat) (ExactScalar.ofScientific_eq 1 true 6).symm
  · unfold Scalar.maxNum
    rw [ExactScalar.isUndefined_eq, if_neg Bool.false_ne_true]
    split_ifs
    · unfold Scalar.minPositive
      exact div_nonneg zero_le_one (Nat.cast_nonneg _)
    · exact norm_nonneg rhs

/-- What the factors solve exactly passes the check of the residual. -/
theorem solveWith_eq {f : Factors α} {op : Operator α} {rhs x : Array α} {mode : Mode}
    (hx : f.solve rhs mode = .ok x) (happly : op.apply mode x = .ok rhs) :
    solveWith f op rhs mode = .ok ⟨.converged, x, 1, 0⟩ := by
  have hresidual : linearResidual op rhs x mode = .ok (Vec.sub rhs rhs) := by
    have : op.residual rhs x mode = .ok (Vec.sub rhs rhs) := bind_eq_ok.2 ⟨rhs, happly, rfl⟩
    rw [linearResidual, this]
  refine bind_eq_ok.2 ⟨x, hx, bind_eq_ok.2 ⟨_, hresidual, ?_⟩⟩
  simp only [norm_sub_self]
  exact if_neg (not_lt.2 (tolerance_nonneg rhs))

/-- What is solved exactly by factors is solved exactly by a memory that has them. -/
theorem solvesFrom {op : Operator α} {f : Factors α} (hdim : f.dim = op.dim)
    (h : ∀ mode rhs, rhs.size = op.dim →
      ∃ x, f.solve rhs mode = .ok x ∧ x.size = op.dim ∧ op.apply mode x = .ok rhs) :
    LinearConfig.direct.SolvesFrom op fun m => (LinearMemory.own m).factors = some f := by
  intro m hm mode rhs hrhs
  obtain ⟨x, hx, hsize, happly⟩ := h mode rhs hrhs
  refine ⟨⟨.converged, x, 1, 0⟩,
    { LinearMemory.own m with factors := some f } :: LinearMemory.preconditioner m, ?_, rfl,
    hsize, happly⟩
  have hsolve : Direct.solve op rhs mode (some f) = .ok ⟨.converged, x, 1, 0⟩ (some f) := by
    simp only [Direct.solve, checkDim, hrhs, if_true, factorsFor, hdim, solveWith_eq hx happly]
  simp only [LinearConfig.solve, hm, hsolve]

/-- A setup remembers the factors, and whatever else was there. -/
theorem setup_eq {op : Operator α} {f : Factors α} (hf : factorize op = .ok f)
    (m : LinearMemory α) : LinearConfig.direct.setup op m = .ok ()
      ({ LinearMemory.own m with factors := some f } :: LinearMemory.preconditioner m) := by
  simp only [LinearConfig.setup, hf]

/-- **Direct solves are exact where the factors are.** -/
theorem solvesExactly {op : Operator α} {f : Factors α} (hf : factorize op = .ok f)
    (hdim : f.dim = op.dim) (h : ∀ mode rhs, rhs.size = op.dim →
      ∃ x, f.solve rhs mode = .ok x ∧ x.size = op.dim ∧ op.apply mode x = .ok rhs) :
    LinearConfig.direct.SolvesExactly op :=
  ⟨fun m => (LinearMemory.own m).factors = some f, ⟨_, setup_eq hf .blank, rfl⟩,
    solvesFrom hdim h⟩

end Direct

end Mdao
