import Mdao.Proofs.Linear.Exact
import Mdao.Proofs.Span

/-!
# Sweeps over diagonal blocks

A step of a sweep solves one diagonal block for what the other blocks leave of the right-hand side,
and writes the solution over the block (`visit_step`), so indices outside the blocks keep their
entries (`visit_frame`). From this follows what a Gauss-Seidel sweep does to blocks of two kinds:

* where nothing is asked for and the solution is zero so far, it stays zero (`visit_zero`);
* blocks in which the matrix has rows of the identity take over the right-hand side
  (`visit_identity`).
-/

namespace Mdao

open Vec Matrix

section

variable {α : Type} [Scalar α] {op : Operator α}

/-- The solution with a diagonal block: by the operator where it can, and by factors otherwise. -/
def Operator.solveDiagonal (op : Operator α) (i : Nat) (range : Span) (rhs : Array α)
    (mode : Mode) : Except LinearError (Array α) :=
  match op.solveBlock i rhs mode with
  | some (.ok x) => .ok x
  | some (.error e) => .error (.eval e)
  | none =>
    match op.diagonalBlock range with
    | .ok rows => (Factors.ofRows range.size rows).solve rhs mode
    | .error e => .error (.eval e)

/-- What a block sees of the others: the latest values, or those at the start. -/
def SweepKind.seen {β : Type} : SweepKind → (start x : Array β) → Array β
  | .gaussSeidel, _, x => x
  | .jacobi, start, _ => start

namespace Diagonal

/-- The blocks are those of an operator, and what factors are kept are those of its blocks. -/
structure Of (op : Operator α) (d : Diagonal α) : Prop where
  ranges : d.ranges = op.blocks
  factors : ∀ i f, d.factors.lookup i = some f → ∀ range, op.blocks[i]? = some range →
    ∃ rows, op.diagonalBlock range = .ok rows ∧ f = .ofRows range.size rows

theorem of_ofOperator (op : Operator α) : (ofOperator op).Of op :=
  ⟨rfl, fun i f h => by cases h⟩

/-- The factors that a block is given are its own. -/
theorem Of.factorsOf {d : Diagonal α} (hd : d.Of op) {i : Nat} {range : Span}
    (hi : op.blocks[i]? = some range) {rows : List (List α)}
    (hrows : op.diagonalBlock range = .ok rows) :
    ∃ d', d.factorsOf op i range = .ok (.ofRows range.size rows, d') ∧ d'.Of op := by
  unfold Diagonal.factorsOf
  cases hf : d.factors.lookup i with
  | some f =>
    obtain ⟨rows', hrows', rfl⟩ := hd.factors i f hf range hi
    obtain rfl : rows' = rows := Except.ok.inj (hrows'.symm.trans hrows)
    exact ⟨d, rfl, hd⟩
  | none =>
    refine ⟨{ d with factors := d.factors ++ [(i, .ofRows range.size rows)] }, ?_, hd.ranges,
      fun j f hj range' hj' => ?_⟩
    · simp only [hrows]
    · rw [List.lookup_append] at hj
      cases hkept : d.factors.lookup j with
      | some g =>
        rw [hkept, Option.some_or] at hj
        cases hj
        exact hd.factors j f hkept range' hj'
      | none =>
        rw [hkept, Option.none_or] at hj
        by_cases hij : j = i
        · subst hij
          obtain rfl : range = range' := Option.some.inj (hi.symm.trans hj')
          refine ⟨rows, hrows, ?_⟩
          simpa [List.lookup] using hj.symm
        · have : (j == i) = false := beq_eq_false_iff_ne.2 hij
          simp [List.lookup, this] at hj

/-- Kept factors do not change the solution of a block. -/
theorem Of.solveBlock {d : Diagonal α} (hd : d.Of op) {i : Nat} {range : Span}
    (hi : op.blocks[i]? = some range) {rhs y : Array α} {mode : Mode}
    (h : op.solveDiagonal i range rhs mode = .ok y) :
    ∃ d', Diagonal.solveBlock op i range rhs mode d = .ok y d' ∧ d'.Of op := by
  unfold Operator.solveDiagonal at h
  unfold Diagonal.solveBlock
  cases hown : op.solveBlock i rhs mode with
  | some result =>
    rw [hown] at h
    cases result with
    | ok x =>
      cases h
      exact ⟨d, rfl, hd⟩
    | error e => cases h
  | none =>
    rw [hown] at h
    cases hrows : op.diagonalBlock range with
    | error e =>
      simp only [hrows] at h
      cases h
    | ok rows =>
      simp only [hrows] at h
      obtain ⟨d', hd', hof⟩ := hd.factorsOf hi hrows
      exact ⟨d', by simp only [hd', h], hof⟩

variable {rhs start : Array α} {mode : Mode}

/-- **A step of a sweep.** -/
theorem visit_step {kind : SweepKind} {range : Span} {i : Nat} {rest : List (Span × Nat)}
    {x b y : Array α} {d d' : Diagonal α}
    (hb : blockRhs op rhs (kind.seen start x) range mode = .ok b)
    (hy : solveBlock op i range b mode d = .ok y d') :
    visit kind op rhs start mode ((range, i) :: rest) x d =
      visit kind op rhs start mode rest (splice x range y) d' := by
  cases kind
  all_goals
    rw [SweepKind.seen] at hb
    rw [visit]
    simp only [hb]
    exact (bind_of_ok _ rfl).trans (bind_of_ok _ hy)

/-- A step of a Gauss-Seidel sweep. -/
theorem visit_cons {range : Span} {i : Nat} {rest : List (Span × Nat)} {x b y : Array α}
    {d d' : Diagonal α} (hb : blockRhs op rhs x range mode = .ok b)
    (hy : solveBlock op i range b mode d = .ok y d') :
    visit .gaussSeidel op rhs start mode ((range, i) :: rest) x d =
      visit .gaussSeidel op rhs start mode rest (splice x range y) d' :=
  visit_step hb hy

/-- A sweep over some blocks and then others. -/
theorem visit_append {kind : SweepKind} (bs cs : List (Span × Nat)) (x : Array α) :
    visit kind op rhs start mode (bs ++ cs) x =
      visit kind op rhs start mode bs x >>= visit kind op rhs start mode cs := by
  induction bs generalizing x with
  | nil => rw [List.nil_append, visit, pure_bind]
  | cons block bs ih =>
    obtain ⟨range, i⟩ := block
    simp only [List.cons_append, visit, ih]
    split
    · simp only [bind_assoc]
    · rfl

end Diagonal

end

section

variable {α : Type} [ExactScalar α] {n : Nat} {J : Matrix (Fin n) (Fin n) α} {op : Operator α}

/-! ### Diagonal blocks -/

/-- An entry of a product is a sum over a row of the matrix. -/
theorem Operator.IsMatrix.entry_apply (hop : op.IsMatrix J) (mode : Mode) (x : Array α) :
    ∃ w, op.apply mode x = .ok w ∧ w.size = n ∧ ∀ i < n,
      entry w i = ∑ k ∈ Finset.range n, coeff (mode.along J) i k * entry x k := by
  obtain ⟨w, hw, hsize, hproduct⟩ := hop.apply mode x
  refine ⟨w, hw, hsize, fun i hi => ?_⟩
  exact (congrFun hproduct ⟨i, hi⟩).trans (mulVec_toFun _ x ⟨i, hi⟩)

/-- A diagonal block of a matrix. -/
def blockAt (J : Matrix (Fin n) (Fin n) α) (range : Span) :
    Matrix (Fin range.size) (Fin range.size) α :=
  fun i k => coeff J (range.start + i) (range.start + k)

/-- A sum over the indices of a span that lies below `n`. -/
theorem sum_span {range : Span} (hrange : range.stop ≤ n) (f : Nat → α) :
    ∑ k ∈ Finset.range n, (if k ∈ range then f k else 0) =
      ∑ k ∈ Finset.range range.size, f (range.start + k) := by
  rw [← Finset.sum_filter, Span.size, ← Finset.sum_Ico_eq_sum_range]
  refine Finset.sum_congr (Finset.ext fun k => ?_) fun _ _ => rfl
  rw [Finset.mem_filter, Finset.mem_range, Finset.mem_Ico]
  exact ⟨fun h => h.2, fun h => ⟨h.2.trans_le hrange, h⟩⟩

/-- The product of a diagonal block with a part of a vector. -/
theorem blockAt_mulVec_slice {J : Matrix (Fin n) (Fin n) α} {range : Span} (hrange : range.stop ≤ n)
    (x : Array α) (i : Fin range.size) :
    (blockAt J range *ᵥ toFun range.size (slice x range)) i = ∑ k ∈ Finset.range n,
      if k ∈ range then coeff J (range.start + i) k * entry x k else 0 := by
  rw [mulVec_toFun, sum_span hrange]
  refine Finset.sum_congr rfl fun k hk => ?_
  have hk' := Finset.mem_range.1 hk
  rw [entry_slice, if_pos hk']
  exact congrArg (· * entry x (range.start + k)) (coeff_fin (blockAt J range) i ⟨k, hk'⟩)

/-- The product with a vector that is zero outside a span is, inside it, the product with the
diagonal block. -/
theorem toFun_slice_apply (hop : op.IsMatrix J) {range : Span} (hrange : range.stop ≤ n)
    {mode : Mode} {y z : Array α} (hy : y.size = range.size)
    (hz : op.apply mode (splice (zeros op.dim) range y) = .ok z) :
    toFun range.size (slice z range) =
      blockAt (mode.along J) range *ᵥ toFun range.size y := by
  obtain ⟨w, hw, hsize, hentry⟩ := hop.entry_apply mode (splice (zeros op.dim) range y)
  obtain rfl : w = z := Except.ok.inj (hw.symm.trans hz)
  funext i
  have hi : range.start + i < n := (Span.start_add_mem i.2).2.trans_le hrange
  have hterm : ∀ k ∈ Finset.range n,
      coeff (mode.along J) (range.start + i) k * entry (splice (zeros op.dim) range y) k =
        if k ∈ range then
          coeff (mode.along J) (range.start + i) k * entry y (k - range.start) else 0 := by
    intro k hk
    have hk' : k < n := Finset.mem_range.1 hk
    rw [entry_splice, size_zeros, hop.dim, entry_zeros]
    by_cases hin : k ∈ range
    · rw [if_pos ⟨hin, hy.symm ▸ Span.sub_start_lt hin, hk'⟩, if_pos hin]
    · rw [if_neg fun h => hin h.1, if_neg hin, mul_zero]
  rw [mulVec_toFun]
  show entry (slice w range) i = _
  rw [entry_slice, if_pos i.2, hentry _ hi, Finset.sum_congr rfl hterm, sum_span hrange]
  refine Finset.sum_congr rfl fun k hk => ?_
  rw [Nat.add_sub_cancel_left]
  exact congrArg (· * entry y k)
    (coeff_fin (blockAt (mode.along J) range) i ⟨k, Finset.mem_range.1 hk⟩).symm

/-- **A diagonal block is solved exactly**: each right-hand side has a solution, and the operator
gives the right-hand side back on the block. -/
def Operator.SolvesBlock (op : Operator α) (i : Nat) (range : Span) : Prop :=
  ∀ mode b, b.size = range.size → ∃ y, op.solveDiagonal i range b mode = .ok y ∧
    y.size = range.size ∧ ∃ z, op.apply mode (splice (zeros op.dim) range y) = .ok z ∧
      slice z range = b

/-- A block of an operator that is solved exactly. -/
structure Operator.Solves (op : Operator α) (block : Span × Nat) : Prop where
  listed : op.blocks[block.2]? = some block.1
  inside : block.1.stop ≤ op.dim
  exact : op.SolvesBlock block.2 block.1

theorem Operator.Solves.solution {block : Span × Nat} (h : op.Solves block)
    (hop : op.IsMatrix J) {b : Array α} (hb : b.size = block.1.size) (mode : Mode) :
    ∃ y, op.solveDiagonal block.2 block.1 b mode = .ok y ∧ y.size = block.1.size ∧
      blockAt (mode.along J) block.1 *ᵥ toFun block.1.size y = toFun block.1.size b := by
  obtain ⟨y, hy, hsize, z, hz, rfl⟩ := h.exact mode b hb
  exact ⟨y, hy, hsize, (toFun_slice_apply hop (hop.dim ▸ h.inside) hsize hz).symm⟩

/-- A block that is solved exactly is nonsingular. -/
theorem Operator.Solves.isUnit {block : Span × Nat} (h : op.Solves block) (hop : op.IsMatrix J)
    (mode : Mode) : IsUnit (blockAt (mode.along J) block.1) := by
  refine Matrix.mulVec_surjective_iff_isUnit.1 fun f => ?_
  obtain ⟨y, -, -, hproduct⟩ := h.solution hop (size_ofFun f) mode
  exact ⟨_, by rw [hproduct, toFun_ofFun]⟩

/-! ### What a block is asked for -/

namespace Diagonal

variable {rhs start x : Array α} {mode : Mode} {d : Diagonal α}

/-- What other blocks leave of the right-hand side. -/
theorem blockRhs_spec (hop : op.IsMatrix J) (hx : x.size = n) (rhs : Array α) (range : Span)
    (mode : Mode) : ∃ b, blockRhs op rhs x range mode = .ok b ∧ b.size = range.size ∧
      ∀ i < range.size, range.start + i < n → entry b i = entry rhs (range.start + i) -
        ∑ k ∈ Finset.range n, coeff (mode.along J) (range.start + i) k *
          if k ∈ range then 0 else entry x k := by
  obtain ⟨w, hw, -, hentry⟩ := hop.entry_apply mode (splice x range (zeros range.size))
  refine ⟨Vec.sub (slice rhs range) (slice w range), ?_, ?_, fun i hi hin => ?_⟩
  · simp only [blockRhs, hw]
  · simp [Vec.sub]
  · rw [Vec.sub, entry_zipWith _ _ _ _ (by simpa using hi) (by simpa using hi), entry_slice,
      entry_slice, if_pos hi, if_pos hi, hentry _ hin]
    congr 1
    refine Finset.sum_congr rfl fun k hk => congrArg _ ?_
    have hk' : k < n := Finset.mem_range.1 hk
    rw [entry_splice, size_zeros, hx, entry_zeros]
    by_cases hmem : k ∈ range
    · rw [if_pos ⟨hmem, Span.sub_start_lt hmem, hk'⟩, if_pos hmem]
    · rw [if_neg fun h => hmem h.1, if_neg hmem]

/-- A block that does not depend on what has been found elsewhere is asked for the right-hand
side. -/
theorem blockRhs_eq_slice (hop : op.IsMatrix J) (hx : x.size = n) {range : Span}
    (hrange : range.stop ≤ n) (h : ∀ s ∈ range, ∀ k, k ∉ range → entry x k ≠ 0 →
      coeff (mode.along J) s k = 0) :
    blockRhs op rhs x range mode = .ok (slice rhs range) := by
  obtain ⟨b, hb, hsize, hentry⟩ := blockRhs_spec hop hx rhs range mode
  rw [hb]
  refine congrArg Except.ok (ext_entry (by simpa using hsize) fun i hi => ?_)
  have hi' : i < range.size := hsize ▸ hi
  have hmem : range.start + i ∈ range := Span.start_add_mem hi'
  rw [hentry i hi' (hmem.2.trans_le hrange), entry_slice, if_pos hi', Finset.sum_eq_zero, sub_zero]
  intro k _
  by_cases hk : k ∈ range
  · rw [if_pos hk, mul_zero]
  · rw [if_neg hk]
    by_cases hzero : entry x k = 0
    · rw [hzero, mul_zero]
    · rw [h _ hmem k hk hzero, zero_mul]

/-! ### Sweeps -/

omit [ExactScalar α] in
theorem size_seen (kind : SweepKind) (hstart : start.size = n) (hx : x.size = n) :
    (kind.seen start x).size = n := by
  cases kind
  exacts [hx, hstart]

/-- **Indices outside the blocks keep their entries.** -/
theorem visit_frame {kind : SweepKind} (hop : op.IsMatrix J) (rhs : Array α)
    (hstart : start.size = n) (mode : Mode) {bs : List (Span × Nat)} (hbs : ∀ b ∈ bs, op.Solves b)
    (hx : x.size = n) (hd : d.Of op) :
    ∃ x' d', visit kind op rhs start mode bs x d = .ok x' d' ∧ d'.Of op ∧ x'.size = n ∧
      ∀ k, (∀ b ∈ bs, k ∉ b.1) → entry x' k = entry x k := by
  induction bs generalizing x d with
  | nil => exact ⟨x, d, rfl, hd, hx, fun _ _ => rfl⟩
  | cons block bs ih =>
    have hblock := hbs block List.mem_cons_self
    obtain ⟨b, hb, hsize, -⟩ := blockRhs_spec hop (size_seen kind hstart hx) rhs block.1 mode
    obtain ⟨y, hy, -⟩ := hblock.solution hop hsize mode
    obtain ⟨d1, hy1, hd1⟩ := hd.solveBlock hblock.listed hy
    obtain ⟨x', d', hrest, hd', hx', hkeep⟩ := ih (fun c hc => hbs c (List.mem_cons_of_mem _ hc))
      ((size_splice x block.1 y).trans hx) hd1
    refine ⟨x', d', (visit_step hb hy1).trans hrest, hd', hx', fun k hk => ?_⟩
    rw [hkeep k fun c hc => hk c (List.mem_cons_of_mem _ hc), entry_splice,
      if_neg fun h => hk block List.mem_cons_self h.1]

/-- **Where nothing is asked for, the solution stays zero.** -/
theorem visit_zero (hop : op.IsMatrix J) (start : Array α) (mode : Mode)
    {bs : List (Span × Nat)} (hbs : ∀ b ∈ bs, op.Solves b)
    (hrhs : ∀ b ∈ bs, ∀ k ∈ b.1, entry rhs k = 0) (hd : d.Of op) :
    ∃ d', visit .gaussSeidel op rhs start mode bs (zeros n) d = .ok (zeros n) d' ∧ d'.Of op := by
  induction bs generalizing d with
  | nil => exact ⟨d, rfl, hd⟩
  | cons block bs ih =>
    have hblock := hbs block List.mem_cons_self
    have hinside : block.1.stop ≤ n := hop.dim ▸ hblock.inside
    have hb : blockRhs op rhs (zeros n) block.1 mode = .ok (slice rhs block.1) :=
      blockRhs_eq_slice hop (size_zeros n) hinside fun s _ k _ hk => absurd (entry_zeros n k) hk
    obtain ⟨y, hy, hsize, hproduct⟩ := hblock.solution hop (size_slice rhs block.1) mode
    have hzero : toFun block.1.size y = 0 := by
      refine Matrix.mulVec_injective_iff_isUnit.2 (hblock.isUnit hop mode) ?_
      rw [hproduct, Matrix.mulVec_zero]
      funext i
      show entry (slice rhs block.1) i = 0
      rw [entry_slice, if_pos i.2, hrhs block List.mem_cons_self _ (Span.start_add_mem i.2)]
    have hsplice : splice (zeros n) block.1 y = zeros n := by
      refine ext_entry (by simp) fun k _ => ?_
      rw [entry_splice, entry_zeros]
      split_ifs with h
      · exact congrFun hzero ⟨k - block.1.start, hsize ▸ h.2.1⟩
      · rfl
    obtain ⟨d1, hy1, hd1⟩ := hd.solveBlock hblock.listed hy
    obtain ⟨d', hrest, hd'⟩ := ih (fun c hc => hbs c (List.mem_cons_of_mem _ hc))
      (fun c hc => hrhs c (List.mem_cons_of_mem _ hc)) hd1
    refine ⟨d', (visit_cons hb hy1).trans ?_, hd'⟩
    rw [hsplice]
    exact hrest

/-- A row of a matrix is that of the identity. -/
def IsIdentityRow (J : Matrix (Fin n) (Fin n) α) (i : Nat) : Prop :=
  ∀ k < n, coeff J i k = if i = k then 1 else 0

/-- Between rows of the identity, both directions see the identity. -/
theorem IsIdentityRow.along {i k : Nat} (hi : IsIdentityRow J i) (hk : IsIdentityRow J k)
    (hin : i < n) (hkn : k < n) (mode : Mode) :
    coeff (mode.along J) i k = if i = k then 1 else 0 := by
  cases mode with
  | fwd => exact hi k hkn
  | rev =>
    rw [Mode.along, coeff_transpose, hk i hin]
    simp only [eq_comm]

/-- A block with rows of the identity is the identity. -/
theorem blockAt_eq_one {range : Span} (hrange : range.stop ≤ n)
    (hrows : ∀ k ∈ range, IsIdentityRow J k) (mode : Mode) :
    blockAt (mode.along J) range = 1 := by
  ext i k
  have hi := Span.start_add_mem i.2
  have hk := Span.start_add_mem k.2
  rw [blockAt, (hrows _ hi).along (hrows _ hk) (hi.2.trans_le hrange) (hk.2.trans_le hrange),
    Matrix.one_apply]
  simp only [Nat.add_left_cancel_iff, Fin.ext_iff]

/-- **One block with rows of the identity takes over the right-hand side**, when only rows of the
identity have been found before it. -/
theorem takes_over (hop : op.IsMatrix J) {block : Span × Nat}
    (hblock : op.Solves block) (rhs : Array α) (mode : Mode)
    (hrows : ∀ k ∈ block.1, IsIdentityRow J k) (hx : x.size = n)
    (hsupport : ∀ k, entry x k ≠ 0 → IsIdentityRow J k) :
    ∃ b y, blockRhs op rhs x block.1 mode = .ok b ∧
      op.solveDiagonal block.2 block.1 b mode = .ok y ∧
      ∀ k, entry (splice x block.1 y) k = if k ∈ block.1 then entry rhs k else entry x k := by
  have hinside : block.1.stop ≤ n := hop.dim ▸ hblock.inside
  have hb : blockRhs op rhs x block.1 mode = .ok (slice rhs block.1) := by
    refine blockRhs_eq_slice hop hx hinside fun s hs k hk hne => ?_
    have hkn : k < n := by
      by_contra hkn
      exact hne (entry_of_size_le (by omega))
    rw [(hrows s hs).along (hsupport k hne) (hs.2.trans_le hinside) hkn, if_neg]
    rintro rfl
    exact hk hs
  obtain ⟨y, hy, hsize, hproduct⟩ := hblock.solution hop (size_slice rhs block.1) mode
  rw [blockAt_eq_one hinside hrows, Matrix.one_mulVec] at hproduct
  refine ⟨_, y, hb, hy, fun k => ?_⟩
  rw [entry_splice]
  by_cases hk : k ∈ block.1
  · have hlt := Span.sub_start_lt hk
    have hentry : entry y (k - block.1.start) = entry (slice rhs block.1) (k - block.1.start) :=
      congrFun hproduct ⟨_, hlt⟩
    rw [if_pos ⟨hk, hsize.symm ▸ hlt, hx.symm ▸ hk.2.trans_le hinside⟩, if_pos hk, hentry,
      entry_slice, if_pos hlt, Span.start_add_sub hk]
  · rw [if_neg fun h => hk h.1, if_neg hk]

/-- **Blocks with rows of the identity take over the right-hand side**, also in reverse as long as
nothing has been found in other rows. -/
theorem visit_identity (hop : op.IsMatrix J) (rhs start : Array α) (mode : Mode)
    {bs : List (Span × Nat)} (hbs : ∀ b ∈ bs, op.Solves b)
    (hrows : ∀ b ∈ bs, ∀ k ∈ b.1, IsIdentityRow J k) (hx : x.size = n)
    (hsupport : ∀ k, entry x k ≠ 0 → IsIdentityRow J k) (hd : d.Of op) :
    ∃ x' d', visit .gaussSeidel op rhs start mode bs x d = .ok x' d' ∧ d'.Of op ∧ x'.size = n ∧
      ∀ k, entry x' k = if ∃ b ∈ bs, k ∈ b.1 then entry rhs k else entry x k := by
  induction bs generalizing x d with
  | nil => exact ⟨x, d, rfl, hd, hx, by simp⟩
  | cons block bs ih =>
    have hblock := hbs block List.mem_cons_self
    have hrow := hrows block List.mem_cons_self
    obtain ⟨b, y, hb, hy, hsplice⟩ := takes_over hop hblock rhs mode hrow hx hsupport
    obtain ⟨d1, hy1, hd1⟩ := hd.solveBlock hblock.listed hy
    -- what has been found is still in rows of the identity
    have hsupport1 : ∀ k, entry (splice x block.1 y) k ≠ 0 → IsIdentityRow J k := by
      intro k hk
      rw [hsplice] at hk
      split_ifs at hk with hin
      · exact hrow k hin
      · exact hsupport k hk
    obtain ⟨x', d', hrest, hd', hx', hentry⟩ :=
      ih (fun c hc => hbs c (List.mem_cons_of_mem _ hc))
        (fun c hc => hrows c (List.mem_cons_of_mem _ hc)) ((size_splice x block.1 y).trans hx)
        hsupport1 hd1
    refine ⟨x', d', (visit_cons hb hy1).trans hrest, hd', hx', fun k => ?_⟩
    rw [hentry, hsplice]
    simp only [List.mem_cons, exists_eq_or_imp]
    by_cases h1 : ∃ b ∈ bs, k ∈ b.1
    · rw [if_pos h1, if_pos (.inr h1)]
    · rw [if_neg h1]
      by_cases h2 : k ∈ block.1
      · rw [if_pos h2, if_pos (.inl h2)]
      · rw [if_neg h2, if_neg (not_or.2 ⟨h2, h1⟩)]

/-! ### One sweep from zero -/

/-- The blocks of an operator are solved exactly, and the last of them have rows of the identity. -/
structure EndsInIdentity (op : Operator α) (J : Matrix (Fin n) (Fin n) α) (first last : List Span) :
    Prop where
  blocks : op.blocks = first ++ last
  solves : ∀ block ∈ op.blocks.zipIdx, op.Solves block
  identity : ∀ s ∈ last, ∀ k ∈ s, IsIdentityRow J k
  apart : ∀ s ∈ last, ∀ k ∈ s, ∀ u ∈ first, k ∉ u

variable {first last : List Span}

/-- A sweep with what an earlier one left behind passes over the blocks of the operator. -/
theorem sweep_of_visit {kind : SweepKind} {x : Array α} (hd : d.Of op) {P : Array α → Prop}
    (h : ∀ d, d.Of op → ∃ x' d', visit kind op rhs x mode
      ((ofOperator op).visitOrder mode) x d = .ok x' d' ∧ d'.Of op ∧ P x') :
    ∃ x' d', sweep kind op rhs x mode d = .ok x' d' ∧ d'.Of op ∧ P x' := by
  have hfit : (if d.size = op.dim then d else ofOperator op).Of op := by
    split_ifs
    · exact hd
    · exact of_ofOperator op
  obtain ⟨x', d', hvisit, hd', hx'⟩ := h _ hfit
  have horder : ∀ d0 : Diagonal α, d0.Of op →
      d0.visitOrder mode = (ofOperator op).visitOrder mode := by
    intro d0 hd0
    cases mode <;> simp only [visitOrder, hd0.ranges, ofOperator]
  refine ⟨x', d', ?_, hd', hx'⟩
  show visit kind op rhs x mode
    ((if d.size = op.dim then d else ofOperator op).visitOrder mode) x
    (if d.size = op.dim then d else ofOperator op) = _
  rw [horder _ hfit]
  exact hvisit

/-- A run from zero ends as its sweep does, with the norm of what is left. -/
theorem runOnce_of_sweep (hdim : op.dim = n) (hrhs : rhs.size = n) {x r : Array α}
    {d' : Diagonal α} (hsweep : sweep .gaussSeidel op rhs (zeros n) mode d = .ok x d')
    (hresidual : linearResidual op rhs x mode = .ok r) :
    runOnce op rhs mode d = .ok ⟨.converged, x, 1, Vec.norm r⟩ d' := by
  simp only [runOnce, checkDim, hdim, hrhs, if_true, hsweep, hresidual]

theorem linearResidual_of_apply {x w : Array α} (h : op.apply mode x = .ok w) :
    linearResidual op rhs x mode = .ok (Vec.sub rhs w) := by
  have hresidual : op.residual rhs x mode = .ok (Vec.sub rhs w) := bind_eq_ok.2 ⟨w, h, rfl⟩
  rw [linearResidual, hresidual]

/-- A run from zero ends as its pass over the blocks does. -/
theorem runOnce_of_visit (hop : op.IsMatrix J) (hrhs : rhs.size = n) (hd : d.Of op)
    {P : Array α → Prop} (h : ∀ d, d.Of op → ∃ x d',
      visit .gaussSeidel op rhs (zeros n) mode ((ofOperator op).visitOrder mode) (zeros n) d =
        .ok x d' ∧ d'.Of op ∧ P x) :
    ∃ s d', runOnce op rhs mode d = .ok s d' ∧ d'.Of op ∧ P s.x := by
  obtain ⟨x, d', hsweep, hd', hx⟩ := sweep_of_visit hd h
  obtain ⟨w, hw, -⟩ := hop.apply mode x
  exact ⟨⟨.converged, x, 1, Vec.norm (Vec.sub rhs w)⟩, d',
    runOnce_of_sweep hop.dim hrhs hsweep (linearResidual_of_apply hw), hd', hx⟩

/-- The two kinds of blocks, with their numbers. -/
theorem EndsInIdentity.zipIdx (h : EndsInIdentity op J first last) :
    op.blocks.zipIdx = first.zipIdx ++ last.zipIdx first.length ∧
      (∀ block ∈ first.zipIdx, op.Solves block ∧ block.1 ∈ first) ∧
      ∀ block ∈ last.zipIdx first.length, op.Solves block ∧ block.1 ∈ last := by
  have hsplit : op.blocks.zipIdx = first.zipIdx ++ last.zipIdx first.length := by
    rw [h.blocks, List.zipIdx_append, Nat.zero_add]
  refine ⟨hsplit, fun block hb => ⟨h.solves block ?_, List.fst_mem_of_mem_zipIdx hb⟩,
    fun block hb => ⟨h.solves block ?_, List.fst_mem_of_mem_zipIdx hb⟩⟩
  · rw [hsplit]
    exact List.mem_append_left _ hb
  · rw [hsplit]
    exact List.mem_append_right _ hb

theorem exists_mem_zipIdx {spans : List Span} {i k : Nat} (h : ∃ s ∈ spans, k ∈ s) :
    ∃ block ∈ spans.zipIdx i, k ∈ block.1 := by
  obtain ⟨s, hs, hk⟩ := h
  obtain ⟨j, hj⟩ := List.getElem?_of_mem hs
  exact ⟨(s, i + j), List.mk_add_mem_zipIdx_iff_getElem?.2 hj, hk⟩

/-- **Forward, a right-hand side in the last blocks is its own solution.** The first blocks are
solved before anything has been found, and nothing is asked of them. -/
theorem runOnce_fwd (hop : op.IsMatrix J) (h : EndsInIdentity op J first last) (hd : d.Of op)
    (hrhs : rhs.size = n) (hlast : ∀ k, entry rhs k ≠ 0 → ∃ s ∈ last, k ∈ s) :
    ∃ s d', runOnce op rhs .fwd d = .ok s d' ∧ d'.Of op ∧ s.x = rhs := by
  obtain ⟨hsplit, hfirst, hlast'⟩ := h.zipIdx
  refine runOnce_of_visit (P := fun x => x = rhs) hop hrhs hd fun d hd => ?_
  have hzero : ∀ b ∈ first.zipIdx, ∀ k ∈ b.1, entry rhs k = 0 := by
    intro b hb k hk
    by_contra hne
    obtain ⟨s, hs, hks⟩ := hlast k hne
    exact h.apart s hs k hks b.1 (hfirst b hb).2 hk
  obtain ⟨d1, h1, hd1⟩ := visit_zero hop (zeros n) .fwd (fun b hb => (hfirst b hb).1) hzero hd
  obtain ⟨x, d2, h2, hd2, hx, hentry⟩ := visit_identity hop rhs (zeros n) .fwd
    (fun b hb => (hlast' b hb).1)
    (fun b hb k hk => h.identity _ (hlast' b hb).2 k hk) (size_zeros n)
    (fun k hk => absurd (entry_zeros n k) hk) hd1
  refine ⟨x, d2, ?_, hd2, ext_entry (hx.trans hrhs.symm) fun k _ => ?_⟩
  · show visit _ _ _ _ _ op.blocks.zipIdx _ _ = _
    rw [hsplit, visit_append, bind_of_ok _ h1, h2]
  · rw [hentry, entry_zeros]
    split_ifs with hk
    · rfl
    · by_contra hne
      exact hk (exists_mem_zipIdx (hlast k fun hk0 => hne hk0.symm))

/-- **In reverse, the solution has the entries of the right-hand side in the last blocks**: they are
solved before anything else has been found, and not again. -/
theorem runOnce_rev (hop : op.IsMatrix J) (h : EndsInIdentity op J first last) (hd : d.Of op)
    (hrhs : rhs.size = n) :
    ∃ s d', runOnce op rhs .rev d = .ok s d' ∧ d'.Of op ∧
      ∀ k, (∃ s ∈ last, k ∈ s) → entry s.x k = entry rhs k := by
  obtain ⟨hsplit, hfirst, hlast⟩ := h.zipIdx
  refine runOnce_of_visit (P := fun x => ∀ k, (∃ s ∈ last, k ∈ s) → entry x k = entry rhs k)
    hop hrhs hd fun d hd => ?_
  have hfirst' : ∀ b ∈ first.zipIdx.reverse, op.Solves b ∧ b.1 ∈ first :=
    fun b hb => hfirst b (List.mem_reverse.1 hb)
  have hlast' : ∀ b ∈ (last.zipIdx first.length).reverse, op.Solves b ∧ b.1 ∈ last :=
    fun b hb => hlast b (List.mem_reverse.1 hb)
  obtain ⟨x1, d1, h1, hd1, hx1, hentry⟩ := visit_identity hop rhs (zeros n) .rev
    (fun b hb => (hlast' b hb).1) (fun b hb k hk => h.identity _ (hlast' b hb).2 k hk)
    (size_zeros n) (fun k hk => absurd (entry_zeros n k) hk) hd
  obtain ⟨x, d2, h2, hd2, -, hkeep⟩ := visit_frame hop rhs (size_zeros n) .rev
    (fun b hb => (hfirst' b hb).1) hx1 hd1
  refine ⟨x, d2, ?_, hd2, fun k hk => ?_⟩
  · show visit _ _ _ _ _ op.blocks.zipIdx.reverse _ _ = _
    rw [hsplit, List.reverse_append, visit_append, bind_of_ok _ h1, h2]
  · obtain ⟨block, hblock, hkb⟩ := exists_mem_zipIdx (i := first.length) hk
    obtain ⟨s, hs, hks⟩ := hk
    rw [hkeep k fun b hb hin => h.apart s hs k hks b.1 (hfirst' b hb).2 hin, hentry,
      if_pos ⟨block, List.mem_reverse.2 hblock, hkb⟩]

end Diagonal

end

end Mdao
