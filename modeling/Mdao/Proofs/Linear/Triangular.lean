import Mdao.Proofs.Linear.Regular
import Mdao.Proofs.Linear.Sweep

/-!
# Sweeps over block triangular operators

A step of a Gauss-Seidel sweep makes the equations of its block hold, whatever is in the other
blocks, and changes nothing where they hold already (`BlockSolution.holds`,
`BlockSolution.splice_eq`). An equation that has no coefficients in the blocks that are visited later
still holds when they have been visited. So

* blocks none of which has coefficients in a later one are solved by one pass (`visit_solves`);
* what is solved already is left alone (`visit_solved`).

Forward, the blocks of a block triangular operator are visited from the first to the last, in reverse
from the last to the first, and either way no block has coefficients in a later one. One sweep from
zero solves such an operator (`LinearConfig.runOnce_solves`).
-/

namespace Mdao

open Vec Matrix

variable {α : Type} [ExactScalar α] {n : Nat} {J : Matrix (Fin n) (Fin n) α} {op : Operator α}

/-- What holds of runs in order holds of them with their numbers. -/
theorem Span.pairwise_zipIdx {R : Span → Span → Prop} {ss : List Span} (h : ss.Pairwise R)
    (i : Nat) : (ss.zipIdx i).Pairwise fun b c => R b.1 c.1 := by
  rwa [← List.zipIdx_map_fst i ss, List.pairwise_map] at h

/-! ### Factors of a diagonal block -/

/-- The diagonal block of a matrix, with row and column exchanged in reverse. -/
theorem blockAt_along (J : Matrix (Fin n) (Fin n) α) (range : Span) (mode : Mode) :
    blockAt (mode.along J) range = mode.along (blockAt J range) := by
  cases mode with
  | fwd => rfl
  | rev =>
    ext i k
    exact coeff_transpose J _ _

/-- The diagonal block of a sparse matrix has the rows of that of the matrix. -/
theorem Operator.blockOfMatrix_eq_rowsOf (m : SparseMatrix α) {range : Span}
    (hrange : range.stop ≤ n) :
    blockOfMatrix m range = Factors.rowsOf (blockAt (m.toMatrix n) range) := by
  rw [Jacobian.blockOfMatrix_eq]
  refine List.ext_getElem (by simp [Factors.rowsOf]) fun i h1 h2 =>
    List.ext_getElem (by simp [Factors.rowsOf]) fun k h3 h4 => ?_
  have hi : range.start + i < n :=
    (Span.start_add_mem (by simpa using h1)).2.trans_le hrange
  have hk : range.start + k < n :=
    (Span.start_add_mem (by simpa using h3)).2.trans_le hrange
  simp [Factors.rowsOf, blockAt, coeff, hi, hk, SparseMatrix.toMatrix]

/-- A solution of a diagonal block, in the place of the block, has the right-hand side there. -/
theorem Operator.slice_apply_splice (hop : op.IsMatrix J) {range : Span} (hrange : range.stop ≤ n)
    {mode : Mode} {y b : Array α} (hy : y.size = range.size) (hb : b.size = range.size)
    (hproduct : mode.along (blockAt J range) *ᵥ toFun range.size y = toFun range.size b) :
    ∃ z, op.apply mode (splice (zeros op.dim) range y) = .ok z ∧ slice z range = b := by
  obtain ⟨z, hz, -⟩ := hop.apply mode (splice (zeros op.dim) range y)
  have hslice := toFun_slice_apply hop hrange hy hz
  rw [blockAt_along, hproduct] at hslice
  exact ⟨z, hz, (eq_ofFun (size_slice z range) hslice).trans (eq_ofFun hb rfl).symm⟩

/-- **A diagonal block that is left to factors is solved exactly** unless they count as singular. -/
theorem Operator.solvesBlock_of_factors (hop : op.IsMatrix J) {i : Nat} {range : Span}
    (hrange : range.stop ≤ n) (hown : ∀ b mode, op.solveBlock i b mode = none)
    (hblock : op.diagonalBlock range = .ok (Factors.rowsOf (blockAt J range)))
    (hregular : (Factors.ofRows range.size (Factors.rowsOf (blockAt J range))).isSingular = false) :
    op.SolvesBlock i range := by
  intro mode b hb
  obtain ⟨y, hy, hsize, hproduct⟩ := Factors.solve_ofRows hregular mode hb
  refine ⟨y, ?_, hsize, slice_apply_splice hop hrange hsize hb hproduct⟩
  simp only [solveDiagonal, hown, hblock, hy]

namespace Diagonal

variable {rhs start x : Array α} {mode : Mode} {d : Diagonal α}

/-! ### The equations of a block -/

/-- **The equation of a row holds**: its product with a vector is the right-hand side. -/
def Holds (A : Matrix (Fin n) (Fin n) α) (rhs x : Array α) (i : Nat) : Prop :=
  ∑ k ∈ Finset.range n, coeff A i k * entry x k = entry rhs i

/-- An equation holds as before when nothing changes where it has coefficients. -/
theorem Holds.congr {A : Matrix (Fin n) (Fin n) α} {y : Array α} {i : Nat} (h : Holds A rhs x i)
    (hsame : ∀ k < n, coeff A i k ≠ 0 → entry y k = entry x k) : Holds A rhs y i := by
  refine Eq.trans (Finset.sum_congr rfl fun k hk => ?_) h
  by_cases hzero : coeff A i k = 0
  · rw [hzero, zero_mul, zero_mul]
  · rw [hsame k (Finset.mem_range.1 hk) hzero]

/-- Where all equations hold, the product is the right-hand side, and only there. -/
theorem forall_holds_iff (hop : op.IsMatrix J) (hrhs : rhs.size = n) :
    (∀ i < n, Holds (mode.along J) rhs x i) ↔ op.apply mode x = .ok rhs := by
  obtain ⟨w, hw, hsize, hentry⟩ := hop.entry_apply mode x
  rw [hw]
  constructor
  · refine fun h => congrArg Except.ok (ext_entry (hsize.trans hrhs.symm) fun i hi => ?_)
    rw [hentry i (hsize ▸ hi)]
    exact h i (hsize ▸ hi)
  · intro h i hi
    obtain rfl := Except.ok.inj h
    exact (hentry i hi).symm

/-- The product of a row is that of the diagonal block and what the other blocks add to it. -/
theorem sum_row_eq {A : Matrix (Fin n) (Fin n) α} {range : Span} (hrange : range.stop ≤ n)
    (x : Array α) (i : Fin range.size) :
    ∑ k ∈ Finset.range n, coeff A (range.start + i) k * entry x k =
      (blockAt A range *ᵥ toFun range.size (slice x range)) i +
        ∑ k ∈ Finset.range n, coeff A (range.start + i) k * if k ∈ range then 0 else entry x k := by
  rw [blockAt_mulVec_slice hrange, ← Finset.sum_add_distrib]
  refine Finset.sum_congr rfl fun k _ => ?_
  by_cases hk : k ∈ range
  · rw [if_pos hk, if_pos hk, mul_zero, add_zero]
  · rw [if_neg hk, if_neg hk, zero_add]

/-- The solution of a diagonal block for what the other blocks leave of the right-hand side. -/
structure BlockSolution (A : Matrix (Fin n) (Fin n) α) (rhs x : Array α) (range : Span)
    (y : Array α) : Prop where
  size : y.size = range.size
  product : ∀ i : Fin range.size, (blockAt A range *ᵥ toFun range.size y) i =
    entry rhs (range.start + i) - ∑ k ∈ Finset.range n,
      coeff A (range.start + i) k * if k ∈ range then 0 else entry x k

/-- A step of a sweep finds this solution. -/
theorem exists_blockSolution (hop : op.IsMatrix J) {block : Span × Nat} (hblock : op.Solves block)
    (rhs : Array α) (mode : Mode) (hx : x.size = n) (hd : d.Of op) :
    ∃ b y d', blockRhs op rhs x block.1 mode = .ok b ∧
      solveBlock op block.2 block.1 b mode d = .ok y d' ∧ d'.Of op ∧
      BlockSolution (mode.along J) rhs x block.1 y := by
  have hinside : block.1.stop ≤ n := hop.dim ▸ hblock.inside
  obtain ⟨b, hb, hsize, hentry⟩ := blockRhs_spec hop hx rhs block.1 mode
  obtain ⟨y, hy, hysize, hproduct⟩ := hblock.solution hop hsize mode
  obtain ⟨d', hsolve, hd'⟩ := hd.solveBlock hblock.listed hy
  refine ⟨b, y, d', hb, hsolve, hd', hysize, fun i => ?_⟩
  rw [hproduct]
  exact hentry i i.2 ((Span.start_add_mem i.2).2.trans_le hinside)

variable {A : Matrix (Fin n) (Fin n) α} {range : Span} {y : Array α}

/-- **With the solution of a block its equations hold.** -/
theorem BlockSolution.holds (h : BlockSolution A rhs x range y) (hrange : range.stop ≤ n)
    (hx : x.size = n) {i : Nat} (hi : i ∈ range) : Holds A rhs (splice x range y) i := by
  have hrow := sum_row_eq (A := A) hrange (splice x range y) ⟨_, Span.sub_start_lt hi⟩
  have hothers : ∀ k ∈ Finset.range n, coeff A (range.start + (i - range.start)) k *
      (if k ∈ range then 0 else entry (splice x range y) k) =
        coeff A (range.start + (i - range.start)) k * if k ∈ range then 0 else entry x k := by
    intro k _
    by_cases hk : k ∈ range
    · rw [if_pos hk, if_pos hk]
    · rw [if_neg hk, if_neg hk, entry_splice_of_notMem hk]
  rw [slice_splice_self h.size (hx.symm ▸ hrange), h.product, Finset.sum_congr rfl hothers,
    sub_add_cancel] at hrow
  simpa only [Holds, Span.start_add_sub hi] using hrow

/-- **Where the equations of a block hold already, its solution is what is there.** -/
theorem BlockSolution.splice_eq (h : BlockSolution A rhs x range y) (hrange : range.stop ≤ n)
    (hregular : IsUnit (blockAt A range)) (hholds : ∀ i ∈ range, Holds A rhs x i) :
    splice x range y = x := by
  have hsame : toFun range.size y = toFun range.size (slice x range) := by
    refine Matrix.mulVec_injective_iff_isUnit.2 hregular (funext fun i => ?_)
    rw [h.product i, ← hholds _ (Span.start_add_mem i.2), sum_row_eq hrange, add_sub_cancel_right]
  refine ext_entry (size_splice x range y) fun k _ => ?_
  rw [entry_splice]
  split_ifs with hk
  · have hlt := Span.sub_start_lt hk.1
    have hentry : entry y (k - range.start) = entry (slice x range) (k - range.start) :=
      congrFun hsame ⟨_, hlt⟩
    rw [hentry, entry_slice, if_pos hlt, Span.start_add_sub hk.1]
  · rfl

/-! ### Passes over blocks -/

/-- No block has coefficients in one that is visited after it. -/
def Triangular (A : Matrix (Fin n) (Fin n) α) (bs : List (Span × Nat)) : Prop :=
  bs.Pairwise fun b c => ∀ i ∈ b.1, ∀ k ∈ c.1, coeff A i k = 0

/-- **A pass solves blocks none of which has coefficients in a later one**, from any vector, and
leaves the other entries alone. -/
theorem visit_solves (hop : op.IsMatrix J) (rhs start : Array α) (mode : Mode)
    {bs : List (Span × Nat)} (hbs : ∀ b ∈ bs, op.Solves b)
    (htriangular : Triangular (mode.along J) bs) (hx : x.size = n) (hd : d.Of op) :
    ∃ x' d', visit .gaussSeidel op rhs start mode bs x d = .ok x' d' ∧ d'.Of op ∧ x'.size = n ∧
      (∀ k, (∀ b ∈ bs, k ∉ b.1) → entry x' k = entry x k) ∧
      ∀ b ∈ bs, ∀ i ∈ b.1, Holds (mode.along J) rhs x' i := by
  induction bs generalizing x d with
  | nil => exact ⟨x, d, rfl, hd, hx, fun _ _ => rfl, by simp⟩
  | cons block bs ih =>
    have hblock := hbs block List.mem_cons_self
    have hinside : block.1.stop ≤ n := hop.dim ▸ hblock.inside
    obtain ⟨hlater, htriangular⟩ := List.pairwise_cons.1 htriangular
    obtain ⟨b, y, d1, hb, hsolve, hd1, hy⟩ := exists_blockSolution hop hblock rhs mode hx hd
    obtain ⟨x', d', hrest, hd', hx', hkeep, hholds⟩ :=
      ih (fun c hc => hbs c (List.mem_cons_of_mem _ hc)) htriangular
        ((size_splice x block.1 y).trans hx) hd1
    refine ⟨x', d', (visit_cons hb hsolve).trans hrest, hd', hx', fun k hk => ?_,
      List.forall_mem_cons.2 ⟨fun i hi => ?_, hholds⟩⟩
    · rw [hkeep k fun c hc => hk c (List.mem_cons_of_mem _ hc),
        entry_splice_of_notMem (hk block List.mem_cons_self)]
    · -- later steps change entries for which the row has no coefficients
      refine (hy.holds hinside hx hi).congr fun k _ hne => hkeep k fun c hc hk => ?_
      exact hne (hlater c hc i hi k hk)

/-- **A pass leaves alone what is solved already.** -/
theorem visit_solved (hop : op.IsMatrix J) (start : Array α)
    {bs : List (Span × Nat)} (hbs : ∀ b ∈ bs, op.Solves b) (hx : x.size = n) (hd : d.Of op)
    (hholds : ∀ b ∈ bs, ∀ i ∈ b.1, Holds (mode.along J) rhs x i) :
    ∃ d', visit .gaussSeidel op rhs start mode bs x d = .ok x d' ∧ d'.Of op := by
  induction bs generalizing d with
  | nil => exact ⟨d, rfl, hd⟩
  | cons block bs ih =>
    have hblock := hbs block List.mem_cons_self
    obtain ⟨b, y, d1, hb, hsolve, hd1, hy⟩ := exists_blockSolution hop hblock rhs mode hx hd
    have hsplice : splice x block.1 y = x := hy.splice_eq (hop.dim ▸ hblock.inside)
      (hblock.isUnit hop mode) (hholds block List.mem_cons_self)
    obtain ⟨d', hrest, hd'⟩ := ih (fun c hc => hbs c (List.mem_cons_of_mem _ hc)) hd1
      fun c hc => hholds c (List.mem_cons_of_mem _ hc)
    refine ⟨d', (visit_cons hb hsolve).trans ?_, hd'⟩
    rw [hsplice]
    exact hrest

end Diagonal

/-! ### Block triangular operators -/

/-- **A block triangular operator**: its blocks follow one another over all indices, no row has
coefficients behind its block, and every diagonal block is solved exactly, in both modes, by the
operator or by factors. -/
structure Operator.IsBlockTriangular (op : Operator α) (J : Matrix (Fin n) (Fin n) α) : Prop where
  matrix : op.IsMatrix J
  tile : Span.Tile 0 op.blocks n
  above : ∀ range ∈ op.blocks, ∀ i ∈ range, ∀ k, range.stop ≤ k → coeff J i k = 0
  solves : ∀ block ∈ op.blocks.zipIdx, op.SolvesBlock block.2 block.1

namespace Operator.IsBlockTriangular

variable (h : op.IsBlockTriangular J)

include h

theorem solves_block {block : Span × Nat} (hblock : block ∈ op.blocks.zipIdx) : op.Solves block where
  listed := List.mem_zipIdx_iff_getElem?.1 hblock
  inside := h.matrix.dim ▸ (h.tile.bounds (List.fst_mem_of_mem_zipIdx hblock)).2.2
  exact := h.solves block hblock

/-- In the order of the blocks, rows have no coefficients in later blocks. -/
theorem triangular_fwd : Diagonal.Triangular J op.blocks.zipIdx := by
  refine (Span.pairwise_zipIdx h.tile.pairwise 0).imp_of_mem fun {b c} hb _ hbc i hi k hk => ?_
  exact h.above b.1 (List.fst_mem_of_mem_zipIdx hb) i hi k (hbc.trans hk.1)

/-- In the opposite order, columns have none. -/
theorem triangular_rev : Diagonal.Triangular Jᵀ op.blocks.zipIdx.reverse := by
  have hpairwise := Span.pairwise_zipIdx h.tile.pairwise 0
  refine List.pairwise_reverse.2 (hpairwise.imp_of_mem fun {b c} hb _ hbc i hi k hk => ?_)
  rw [coeff_transpose]
  exact h.above b.1 (List.fst_mem_of_mem_zipIdx hb) k hk i (hbc.trans hi.1)

/-- **One sweep solves a block triangular operator**, from any vector. -/
theorem sweep_solves {rhs x : Array α} (hrhs : rhs.size = n) (hx : x.size = n) (mode : Mode)
    {d : Diagonal α} (hd : d.Of op) :
    ∃ x' d', Diagonal.sweep .gaussSeidel op rhs x mode d = .ok x' d' ∧ d'.Of op ∧
      op.apply mode x' = .ok rhs := by
  refine Diagonal.sweep_of_visit (P := fun x' => op.apply mode x' = .ok rhs) hd fun d hd => ?_
  have hvisit : ∀ bs : List (Span × Nat), (∀ b, b ∈ bs ↔ b ∈ op.blocks.zipIdx) →
      Diagonal.Triangular (mode.along J) bs →
      ∃ x' d', Diagonal.visit .gaussSeidel op rhs x mode bs x d = .ok x' d' ∧ d'.Of op ∧
        op.apply mode x' = .ok rhs := by
    intro bs hbs htriangular
    obtain ⟨x', d', hvisit, hd', -, -, hholds⟩ := Diagonal.visit_solves h.matrix rhs x mode
      (fun b hb => h.solves_block ((hbs b).1 hb)) htriangular hx hd
    refine ⟨x', d', hvisit, hd', (Diagonal.forall_holds_iff h.matrix hrhs).1 fun i hi => ?_⟩
    obtain ⟨block, hblock, hib⟩ :=
      Diagonal.exists_mem_zipIdx (i := 0) (h.tile.cover (Nat.zero_le i) hi)
    exact hholds block ((hbs block).2 hblock) i hib
  cases mode with
  | fwd => exact hvisit _ (fun _ => Iff.rfl) h.triangular_fwd
  | rev => exact hvisit _ (fun _ => List.mem_reverse) h.triangular_rev

end Operator.IsBlockTriangular

/-- **A single sweep from zero solves a block triangular operator**: once it has been set up, from
whatever was remembered, every solve ends with a vector that has the right-hand side as its product,
and with residual norm zero; and it can be asked again. -/
theorem LinearConfig.runOnce_solves (h : op.IsBlockTriangular J) :
    (∀ m : LinearMemory α, ∃ m', LinearConfig.runOnce.setup op m = .ok () m' ∧
      (LinearMemory.own m').diagonal.Of op) ∧
    ∀ m : LinearMemory α, (LinearMemory.own m).diagonal.Of op → ∀ mode rhs, rhs.size = n →
      ∃ x m', LinearConfig.runOnce.solve op mode rhs m = .ok ⟨.converged, x, 1, 0⟩ m' ∧
        (LinearMemory.own m').diagonal.Of op ∧ op.apply mode x = .ok rhs := by
  refine ⟨fun m => ⟨_, rfl, Diagonal.of_ofOperator op⟩, fun m hm mode rhs hrhs => ?_⟩
  obtain ⟨x, d, hsweep, hd, happly⟩ := h.sweep_solves hrhs (size_zeros n) mode hm
  have hrun := Diagonal.runOnce_of_sweep h.matrix.dim hrhs hsweep
    (Diagonal.linearResidual_of_apply happly)
  rw [norm_sub_self] at hrun
  refine ⟨x, { LinearMemory.own m with diagonal := d } :: LinearMemory.preconditioner m, ?_, hd,
    happly⟩
  simp only [LinearConfig.solve, hrun]

/-! ### Two blocks, one with a solver of its own -/

namespace Staircase

/-- A block of one row above one of two rows. -/
def matrix : SparseMatrix ℚ := ⟨[(0, 0, 2), (1, 0, 1), (1, 1, 1), (1, 2, 2), (2, 0, 3), (2, 1, 1),
  (2, 2, 1)]⟩

/-- The operator halves what is asked of its first block, and leaves the second to factors. -/
def operator : Operator ℚ :=
  { Operator.ofMatrix 3 matrix with
    blocks := [⟨0, 1⟩, ⟨1, 3⟩]
    solveBlock := fun i rhs _ => if i = 0 then some (.ok #[entry rhs 0 / 2]) else none }

theorem isMatrix : operator.IsMatrix (matrix.toMatrix 3) :=
  Operator.isMatrix_of_product rfl (fun _ _ => rfl) (by decide +kernel)

/-- The first block is solved by the operator. -/
theorem solves_first : operator.SolvesBlock 0 ⟨0, 1⟩ := by
  intro mode b hb
  obtain ⟨v, rfl⟩ := Array.size_eq_one_iff.1 hb
  refine ⟨#[v / 2], rfl, rfl, Operator.slice_apply_splice isMatrix (by decide) rfl rfl ?_⟩
  have hblock : blockAt (matrix.toMatrix 3) ⟨0, 1⟩ = fun _ _ : Fin 1 => 2 := by
    funext (i : Fin 1) (k : Fin 1)
    rw [Subsingleton.elim i 0, Subsingleton.elim k 0]
    simp [blockAt, coeff, SparseMatrix.toMatrix, matrix]
  have hproduct : 2 * (v / 2) = v := mul_div_cancel₀ v two_ne_zero
  rw [hblock]
  funext (i : Fin 1)
  rw [Subsingleton.elim i 0]
  have hsum := Fin.sum_univ_one fun _ => 2 * (v / 2)
  cases mode with
  | fwd => exact hsum.trans hproduct
  | rev => exact hsum.trans hproduct

/-- The second block is solved by factors. -/
theorem solves_second : operator.SolvesBlock 1 ⟨1, 3⟩ := by
  have hinside : (⟨1, 3⟩ : Span).stop ≤ 3 := le_rfl
  have hrows := Operator.blockOfMatrix_eq_rowsOf matrix hinside
  refine Operator.solvesBlock_of_factors isMatrix hinside (fun _ _ => rfl)
    (congrArg Except.ok hrows) ?_
  rw [← hrows]
  decide +kernel

theorem isBlockTriangular : operator.IsBlockTriangular (matrix.toMatrix 3) where
  matrix := isMatrix
  tile := by simp [Span.Tile, operator]
  above := by
    intro range hrange i hi k hk
    rcases List.mem_pair.1 hrange with rfl | rfl
    · obtain rfl : i = 0 := Nat.lt_one_iff.1 hi.2
      by_cases hlt : k < 3
      · obtain rfl | rfl : k = 1 ∨ k = 2 := by
          change 1 ≤ k at hk
          omega
        all_goals simp [coeff, SparseMatrix.toMatrix, matrix]
      · exact coeff_of_le (not_lt.1 hlt)
    · exact coeff_of_le hk
  solves := by
    intro block hblock
    rcases List.mem_pair.1 hblock with rfl | rfl
    exacts [solves_first, solves_second]

/-- The two blocks by one sweep, in both modes. -/
theorem runOnce_staircase : operator.IsBlockTriangular (matrix.toMatrix 3) ∧
    ∃ m, LinearConfig.runOnce.setup operator .blank = .ok () m ∧
      ∀ mode, ∃ x m', LinearConfig.runOnce.solve operator mode #[2, 4, 5] m =
        .ok ⟨.converged, x, 1, 0⟩ m' ∧ operator.apply mode x = .ok #[2, 4, 5] := by
  obtain ⟨hsetup, hsolve⟩ := LinearConfig.runOnce_solves isBlockTriangular
  obtain ⟨m, hm, hready⟩ := hsetup .blank
  refine ⟨isBlockTriangular, m, hm, fun mode => ?_⟩
  obtain ⟨x, m', hx, -, happly⟩ := hsolve m hready mode #[2, 4, 5] rfl
  exact ⟨x, m', hx, happly⟩

end Staircase

end Mdao
