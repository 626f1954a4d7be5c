import Mdao.Proofs.Linear.Triangular

/-!
# Sweeps that settle

Where the blocks that depend on nothing but themselves stand last, one sweep cannot solve an
operator: the first blocks are solved before the values they need are there. The first sweep settles
the blocks that are visited second (`Settling.visit_prepares`), and the second sweep, which finds them settled,
the others (`Settling.visit_settles`). In reverse the two kinds of blocks change places: what is
visited first then is the last blocks, whose transposed rows reach all others, and the first blocks,
whose transposed rows stay among themselves, come second.

So two sweeps from any vector solve an operator whose first blocks are fed by earlier ones and by
last blocks with rows of the identity (`FedByIdentity.sweeps_solve`), and an iteration of sweeps
converges in no more than two (`LinearConfig.gaussSeidel_converges`).

The blocks of the identity are solved by factors unless there are `2 ^ 46` rows or more
(`Factors.isSingular_one_iff`).
-/

namespace Mdao

open Vec Matrix

variable {α : Type} [ExactScalar α] {n : Nat} {J : Matrix (Fin n) (Fin n) α} {op : Operator α}

/-! ### Blocks of the identity -/

/-- **The factors of an identity matrix count as singular** from `2 ^ 46` rows on, where one,
measured against the rounding errors, counts as zero. -/
theorem Factors.isSingular_one_iff :
    (ofRows n (rowsOf (1 : Matrix (Fin n) (Fin n) α))).isSingular = true ↔ 2 ^ 46 ≤ n := by
  have hbound : (1 : α) ≤ 64 * (n : α) * Scalar.epsilon ↔ 2 ^ 46 ≤ n := by
    have hepsilon : 64 * (n : α) * Scalar.epsilon = (n : α) / (2 ^ 46 : Nat) := by
      rw [Scalar.epsilon]
      push_cast
      ring
    rw [hepsilon, le_div_iff₀ (by positivity), one_mul, Nat.cast_le]
  rw [isSingular_iff, isOverscaled_iff, ← hbound, Matrix.det_one, or_iff_right one_ne_zero]
  constructor
  · rintro ⟨i, k, h⟩
    rw [Matrix.one_apply] at h
    split_ifs at h
    · simpa using h
    · rw [abs_zero, mul_zero] at h
      exact absurd h (not_le.2 one_pos)
  · intro h
    have hpos : 0 < n := by
      by_contra hzero
      obtain rfl := Nat.eq_zero_of_not_pos hzero
      simp at h
      exact absurd h (not_le.2 one_pos)
    exact ⟨⟨0, hpos⟩, ⟨0, hpos⟩, by simpa using h⟩

/-- A diagonal block with rows of the identity that is left to factors is solved exactly. -/
theorem Operator.solvesBlock_of_identity (hop : op.IsMatrix J) {i : Nat} {range : Span}
    (hrange : range.stop ≤ n) (hown : ∀ b mode, op.solveBlock i b mode = none)
    (hblock : op.diagonalBlock range = .ok (Factors.rowsOf (blockAt J range)))
    (hrows : ∀ k ∈ range, Diagonal.IsIdentityRow J k) (hsize : range.size < 2 ^ 46) :
    op.SolvesBlock i range := by
  refine solvesBlock_of_factors hop hrange hown hblock (Bool.eq_false_iff.2 fun hsingular => ?_)
  rw [show blockAt J range = 1 from Diagonal.blockAt_eq_one hrange hrows .fwd,
    Factors.isSingular_one_iff] at hsingular
  exact absurd hsingular (not_le.2 hsize)

namespace Diagonal

variable {rhs start x : Array α} {mode : Mode} {d : Diagonal α}

/-! ### Two passes -/

/-- A pass over blocks in two runs: in each run no block has coefficients in a later one, and the
blocks of the second run have none in those of the first. -/
structure Settling (A : Matrix (Fin n) (Fin n) α) (first second : List (Span × Nat)) : Prop where
  early : Triangular A first
  late : Triangular A second
  apart : ∀ c ∈ second, ∀ i ∈ c.1, ∀ b ∈ first, ∀ k ∈ b.1, coeff A i k = 0

namespace Settling

variable {first second : List (Span × Nat)}

/-- **A pass settles the second run**, from any vector. -/
theorem visit_prepares (h : Settling (mode.along J) first second) (hop : op.IsMatrix J)
    (rhs start : Array α) (hsolves : ∀ b ∈ first ++ second, op.Solves b) (hx : x.size = n)
    (hd : d.Of op) :
    ∃ x' d', visit .gaussSeidel op rhs start mode (first ++ second) x d = .ok x' d' ∧ d'.Of op ∧
      x'.size = n ∧ ∀ c ∈ second, ∀ i ∈ c.1, Holds (mode.along J) rhs x' i := by
  obtain ⟨x1, d1, h1, hd1, hx1, -, -⟩ := visit_solves hop rhs start mode
    (fun b hb => hsolves b (List.mem_append_left _ hb)) h.early hx hd
  obtain ⟨x2, d2, h2, hd2, hx2, -, hholds⟩ := visit_solves hop rhs start mode
    (fun b hb => hsolves b (List.mem_append_right _ hb)) h.late hx1 hd1
  refine ⟨x2, d2, ?_, hd2, hx2, hholds⟩
  rw [visit_append, bind_of_ok _ h1, h2]

/-- **Once the second run is settled, a pass settles the first** and leaves the second alone. -/
theorem visit_settles (h : Settling (mode.along J) first second) (hop : op.IsMatrix J)
    (start : Array α) (hsolves : ∀ b ∈ first ++ second, op.Solves b) (hx : x.size = n) (hd : d.Of op)
    (hholds : ∀ c ∈ second, ∀ i ∈ c.1, Holds (mode.along J) rhs x i) :
    ∃ x' d', visit .gaussSeidel op rhs start mode (first ++ second) x d = .ok x' d' ∧ d'.Of op ∧
      x'.size = n ∧ ∀ b ∈ first ++ second, ∀ i ∈ b.1, Holds (mode.along J) rhs x' i := by
  obtain ⟨x1, d1, h1, hd1, hx1, hkeep, hfirst⟩ := visit_solves hop rhs start mode
    (fun b hb => hsolves b (List.mem_append_left _ hb)) h.early hx hd
  -- the rows of the second run do not see what the first pass has changed
  have hsecond : ∀ c ∈ second, ∀ i ∈ c.1, Holds (mode.along J) rhs x1 i := fun c hc i hi =>
    (hholds c hc i hi).congr fun k _ hne => hkeep k fun b hb hk => hne (h.apart c hc i hi b hb k hk)
  obtain ⟨d2, h2, hd2⟩ := visit_solved hop start
    (fun b hb => hsolves b (List.mem_append_right _ hb)) hx1 hd1 hsecond
  refine ⟨x1, d2, ?_, hd2, hx1, List.forall_mem_append.2 ⟨hfirst, hsecond⟩⟩
  rw [visit_append, bind_of_ok _ h1, h2]

end Settling

/-! ### Blocks fed by rows of the identity -/

/-- The blocks follow one another over all indices; the first are fed by earlier ones and by the last,
which have rows of the identity. -/
structure FedByIdentity (op : Operator α) (J : Matrix (Fin n) (Fin n) α) (first last : List Span) :
    Prop extends EndsInIdentity op J first last where
  matrix : op.IsMatrix J
  tile : Span.Tile 0 op.blocks n
  fed : first.Pairwise fun r s => ∀ i ∈ r, ∀ k ∈ s, coeff J i k = 0

namespace FedByIdentity

variable {first last : List Span}

/-- Between different rows of the identity there are no coefficients. -/
theorem identity_eq_zero (h : FedByIdentity op J first last) {s : Span} (hs : s ∈ last) {i k : Nat}
    (hi : i ∈ s) (hk : k < n) (hne : i ≠ k) : coeff J i k = 0 := by
  rw [h.identity s hs i hi k hk, if_neg hne]

theorem lt_of_mem (h : FedByIdentity op J first last) {s : Span} (hs : s ∈ first ++ last) {k : Nat}
    (hk : k ∈ s) : k < n :=
  hk.2.trans_le (h.tile.bounds (h.blocks.symm ▸ hs)).2.2

/-- The runs of a sweep in a mode. -/
theorem settling (h : FedByIdentity op J first last) (mode : Mode) :
    ∃ one two, (ofOperator op).visitOrder mode = one ++ two ∧
      Settling (mode.along J) one two := by
  obtain ⟨hsplit, hfirst, hlast⟩ := h.zipIdx
  have htile := h.tile.pairwise
  rw [h.blocks] at htile
  have hlastTile := Span.pairwise_zipIdx (List.pairwise_append.1 htile).2.1 first.length
  have hfed := Span.pairwise_zipIdx h.fed 0
  have hless : ∀ {s : Span}, s ∈ last → ∀ {k}, k ∈ s → k < n := fun hs _ hk =>
    h.lt_of_mem (List.mem_append_right _ hs) hk
  cases mode with
  | fwd =>
    refine ⟨_, _, hsplit, hfed, hlastTile.imp_of_mem ?_, ?_⟩
    · intro b c hb hc hbc i hi k hk
      exact h.identity_eq_zero (hlast b hb).2 hi (hless (hlast c hc).2 hk)
        ((hi.2.trans_le hbc).trans_le hk.1).ne
    · intro c hc i hi b hb k hk
      refine h.identity_eq_zero (hlast c hc).2 hi
        (h.lt_of_mem (List.mem_append_left _ (hfirst b hb).2) hk) ?_
      rintro rfl
      exact h.apart _ (hlast c hc).2 _ hi _ (hfirst b hb).2 hk
  | rev =>
    refine ⟨(last.zipIdx first.length).reverse, first.zipIdx.reverse, ?_,
      List.pairwise_reverse.2 (hlastTile.imp_of_mem ?_),
      List.pairwise_reverse.2 (hfed.imp ?_), ?_⟩
    · show op.blocks.zipIdx.reverse = _
      rw [hsplit, List.reverse_append]
    · intro b c hb hc hbc i hi k hk
      rw [Mode.along, coeff_transpose]
      exact h.identity_eq_zero (hlast b hb).2 hk (hless (hlast c hc).2 hi)
        ((hk.2.trans_le hbc).trans_le hi.1).ne
    · intro b c hbc i hi k hk
      rw [Mode.along, coeff_transpose]
      exact hbc k hk i hi
    · intro c hc i hi b hb k hk
      rw [Mode.along, coeff_transpose]
      have hc := (hfirst c (List.mem_reverse.1 hc)).2
      have hb := (hlast b (List.mem_reverse.1 hb)).2
      refine h.identity_eq_zero hb hk (h.lt_of_mem (List.mem_append_left _ hc) hi) ?_
      rintro rfl
      exact h.apart _ hb _ hk _ hc hi

/-- **Two sweeps solve such an operator**, from any vector. -/
theorem sweeps_solve (h : FedByIdentity op J first last) (hrhs : rhs.size = n) (hx : x.size = n)
    (mode : Mode) (hd : d.Of op) :
    ∃ x1 d1 x2 d2, sweep .gaussSeidel op rhs x mode d = .ok x1 d1 ∧ d1.Of op ∧
      sweep .gaussSeidel op rhs x1 mode d1 = .ok x2 d2 ∧ d2.Of op ∧ x2.size = n ∧
      op.apply mode x2 = .ok rhs := by
  obtain ⟨one, two, horder, hsettling⟩ := h.settling mode
  have hmem : ∀ b, b ∈ one ++ two ↔ b ∈ op.blocks.zipIdx := by
    intro b
    rw [← horder]
    cases mode
    · exact Iff.rfl
    · exact List.mem_reverse
  have hsolves : ∀ b ∈ one ++ two, op.Solves b := fun b hb => h.solves b ((hmem b).1 hb)
  obtain ⟨x1, d1, h1, hd1, hx1, hholds⟩ : ∃ x1 d1,
      sweep .gaussSeidel op rhs x mode d = .ok x1 d1 ∧ d1.Of op ∧ x1.size = n ∧
        ∀ c ∈ two, ∀ i ∈ c.1, Holds (mode.along J) rhs x1 i :=
    sweep_of_visit hd fun d hd => by
      rw [horder]
      exact hsettling.visit_prepares h.matrix rhs x hsolves hx hd
  obtain ⟨x2, d2, h2, hd2, hx2, hall⟩ : ∃ x2 d2,
      sweep .gaussSeidel op rhs x1 mode d1 = .ok x2 d2 ∧ d2.Of op ∧ x2.size = n ∧
        ∀ b ∈ one ++ two, ∀ i ∈ b.1, Holds (mode.along J) rhs x2 i :=
    sweep_of_visit hd1 fun d hd => by
      rw [horder]
      exact hsettling.visit_settles h.matrix x1 hsolves hx1 hd hholds
  refine ⟨x1, d1, x2, d2, h1, hd1, h2, hd2, hx2, (forall_holds_iff h.matrix hrhs).1 fun i hi => ?_⟩
  obtain ⟨block, hblock, hib⟩ := exists_mem_zipIdx (i := 0) (h.tile.cover (Nat.zero_le i) hi)
  exact hall block ((hmem block).2 hblock) i hib

end FedByIdentity

/-! ### Iterations -/

variable {σ : Type} {kind : SweepKind} {s : SweepSettings α}
  {observer : Observer (LinearEvent α) σ}

/-- One more sweep under an observer that does not stop. -/
theorem repeatSweeps_succ (hwatch : ∀ e o, (observer.stops e o).1 = false) {x' r : Array α}
    {d' : Diagonal α} (hsweep : sweep kind op rhs x mode d = .ok x' d')
    (hresidual : linearResidual op rhs x' mode = .ok r) (initialNorm v : α) (fuel iters : Nat)
    (o : σ) :
    ∃ o', repeatSweeps kind s op rhs mode observer initialNorm (fuel + 1) iters x v (d, o) =
      if isSmall s initialNorm (Vec.norm r) then
        .ok ⟨.converged, x', iters + 1, Vec.norm r⟩ (d', o')
      else repeatSweeps kind s op rhs mode observer initialNorm fuel (iters + 1) x' (Vec.norm r)
        (d', o') := by
  refine ⟨(observer.stops ⟨iters + 1, iters + 1, Vec.norm r⟩ o).2, ?_⟩
  simp only [repeatSweeps, hsweep, hresidual, hwatch, Bool.false_eq_true, if_false]

/-- The residual of an exact solution is small. -/
theorem isSmall_zero (hatol : 0 ≤ s.atol) (initialNorm : α) : isSmall s initialNorm 0 = true := by
  rw [isSmall, decide_eq_true hatol, Bool.true_or]

/-- **An iteration that two sweeps bring to an exact solution converges** after no more of them. -/
theorem iterate_of_exact (hop : op.IsMatrix J) (hatol : 0 ≤ s.atol) (hmaxiter : 2 ≤ s.maxiter)
    (hwatch : ∀ e o, (observer.stops e o).1 = false) {x1 x2 : Array α} {d1 d2 : Diagonal α}
    (hd : d.Of op) (hfirst : sweep kind op rhs x mode d = .ok x1 d1) (hd1 : d1.Of op)
    (hsecond : sweep kind op rhs x1 mode d1 = .ok x2 d2) (hd2 : d2.Of op)
    (hexact : op.apply mode x2 = .ok rhs) (o : σ) :
    ∃ sol d' o', iterate kind s op rhs x mode observer (d, o) = .ok sol (d', o') ∧ d'.Of op ∧
      sol.status = .converged ∧ sol.iters ≤ 2 := by
  have hresidual : ∀ y, ∃ r, linearResidual op rhs y mode = .ok r := fun y => by
    obtain ⟨w, hw, -⟩ := hop.apply mode y
    exact ⟨_, linearResidual_of_apply hw⟩
  obtain ⟨r, hr⟩ := hresidual x
  obtain ⟨r1, hr1⟩ := hresidual x1
  have hr2 : linearResidual op rhs x2 mode = .ok (Vec.sub rhs rhs) := linearResidual_of_apply hexact
  obtain ⟨fuel, hfuel⟩ := Nat.exists_eq_add_of_le hmaxiter
  have hfuel : s.maxiter = fuel + 1 + 1 := by omega
  simp only [iterate, hr, hfuel]
  split_ifs with hsmall
  · exact ⟨_, d, o, rfl, hd, rfl, Nat.zero_le 2⟩
  · obtain ⟨o1, h1⟩ := repeatSweeps_succ (s := s) hwatch hfirst hr1 (Vec.norm r) (Vec.norm r)
      (fuel + 1) 0 o
    rw [h1]
    split_ifs with hsmall1
    · exact ⟨_, d1, o1, rfl, hd1, rfl, one_le_two⟩
    · obtain ⟨o2, h2⟩ := repeatSweeps_succ (s := s) hwatch hsecond hr2 (Vec.norm r) (Vec.norm r1)
        fuel 1 o1
      rw [h2, norm_sub_self, if_pos (isSmall_zero hatol _)]
      exact ⟨_, d2, o2, rfl, hd2, rfl, le_rfl⟩

end Diagonal

/-- A starting guess has the size of the operator, whatever is remembered. -/
theorem LinearMemory.Cell.size_guess (c : LinearMemory.Cell α) (useCached : Bool) (n : Nat)
    (mode : Mode) : (c.guess useCached n mode).size = n := by
  unfold LinearMemory.Cell.guess
  split
  · split_ifs with h
    · exact beq_iff_eq.1 (Bool.and_eq_true_iff.1 h).2
    · exact size_zeros n
  · exact size_zeros n

open Diagonal in
/-- **Solves by sweeps converge in two** where last blocks with rows of the identity feed the others:
from any starting guess, and again when asked again. -/
theorem LinearConfig.gaussSeidel_converges {first last : List Span}
    (h : FedByIdentity op J first last) {s : SweepSettings α} (hatol : 0 ≤ s.atol)
    (hmaxiter : 2 ≤ s.maxiter) {m : LinearMemory α} (hm : (LinearMemory.own m).diagonal.Of op)
    (mode : Mode) {rhs : Array α} (hrhs : rhs.size = n) :
    ∃ sol m', (LinearConfig.blockGaussSeidel s).solve op mode rhs m = .ok sol m' ∧
      (LinearMemory.own m').diagonal.Of op ∧ sol.status = .converged ∧ sol.iters ≤ 2 := by
  have hguess : ((LinearMemory.own m).guess s.useCachedGuess op.dim mode).size = n :=
    (LinearMemory.Cell.size_guess _ _ _ _).trans h.matrix.dim
  obtain ⟨x1, d1, x2, d2, h1, hd1, h2, hd2, -, hexact⟩ := h.sweeps_solve hrhs hguess mode hm
  have hwatch : ∀ e o, ((.silent : Observer (LinearEvent α) Unit).stops e o).1 = false :=
    fun _ _ => rfl
  obtain ⟨sol, d', o, hiterate, hd', hstatus, hiters⟩ :=
    iterate_of_exact h.matrix hatol hmaxiter hwatch hm h1 hd1 h2 hd2 hexact ()
  refine ⟨sol, { LinearMemory.own m with diagonal := d' }.keep mode sol.x ::
    LinearMemory.preconditioner m, ?_, ?_, hstatus, hiters⟩
  · rw [h.matrix.dim] at hiterate
    simp only [LinearConfig.solve, unwatched, sweepSolve, checkDim, h.matrix.dim, hrhs, if_true,
      hiterate]
  · cases mode <;> exact hd'

end Mdao
