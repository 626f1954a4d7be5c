import Mdao.Proofs.Model.Jacobian
import Mdao.Proofs.Model.Quantities
import Mdao.Proofs.Model.Reached

/-!
# Forward, reverse and colored totals

Whatever has been done with a problem before, its totals are entries of the inverse of its Jacobian
over all slots, each scaled by the factor of its quantity: forward, in reverse, and with every
coloring whose pattern has all nonzero totals (`Problem.totals_agree`). The linear solver may be any
that returns exact solutions; the Jacobian is the one that the units have after their derivatives
have been refreshed at the present point (`Problem.totalMatrix`).
-/

namespace Mdao

namespace Problem

open Vec Matrix Model

variable {α : Type} [ExactScalar α]

/-- **The Jacobian over all slots**, at the derivatives that the units have. -/
def totalMatrix (p : Problem α) : Matrix (Fin p.arrangement.size) (Fin p.arrangement.size) α :=
  (Jacobian.build p.arrangement p.assembly.units p.order
    (.upTo p.arrangement.size)).matrix.toMatrix p.arrangement.size

/-- Once the Jacobian is assembled, the operator is that of its matrix. -/
theorem totalOperator_eq {p : Problem α} {j : Jacobian α} (h : p.totalJacobian = some j) :
    p.totalOperator = { j.operator with
      blocks := p.totalParts.map Part.range
      solveBlock := Part.solve p.assembly.units p.totalParts } := by
  rw [totalOperator, h]
  rfl

theorem isMatrix_totalOperator {p : Problem α} (h : p.totalJacobian = some
    (.build p.arrangement p.assembly.units p.order (.upTo p.arrangement.size))) :
    p.totalOperator.IsMatrix p.totalMatrix := by
  rw [totalOperator_eq h]
  exact Operator.isMatrix_of_product rfl (fun mode x => rfl) fun e he => Jacobian.entries_lt he

variable [Shown α] {m : Model α} {start : Problem α}

omit [Shown α] in
/-- A problem that is set up has no Jacobian and no coloring yet. -/
theorem start_invariant (h : IsSetUp m start) : start.JacobianIsBuilt ∧ start.cache.Sound := by
  refine ⟨fun j hj => ?_, fun k hk => ?_⟩
  · rw [h.jacobian] at hj
    cases hj
  · rw [h.cache] at hk
    cases hk

omit [Shown α] in
/-- Wherever a problem has been brought, the variables of the model are its quantities. -/
theorem resolve_of_follows (hm : m.Sound) (hstart : IsSetUp m start) {p : Problem α}
    (hp : start.Follows p) {quantities inputs : List String}
    (hof : ∀ name ∈ quantities, m.IsQuantity name)
    (hwrt : ∀ name ∈ inputs, m.IsIndependent name) :
    ∃ rows cols, p.resolveOf quantities = .ok rows ∧ p.resolveWrt inputs = .ok cols ∧
      rows.Within p.arrangement.size ∧ cols.Within p.arrangement.size := by
  obtain ⟨rows, hrows, hrowsWithin⟩ := resolve_spec (q := .empty) (P := (· < start.arrangement.size))
    (fun name hname => by
      obtain ⟨r, scale, hr, hstop⟩ := quantity_spec hm hstart.laid hstart.links (hof name hname)
      exact ⟨r, scale, hr, fun k hk => hk.2.trans_le hstop⟩) (by simp [Quantities.empty])
  obtain ⟨cols, hcols, hcolsWithin⟩ := resolve_spec (q := .empty) (P := (· < start.arrangement.size))
    (fun name hname => by
      obtain ⟨r, -, hr, hstop⟩ := independent_spec hstart.laid (hwrt name hname)
      exact ⟨r, 1, hr, fun k hk => hk.2.trans_le hstop⟩) (by simp [Quantities.empty])
  refine ⟨rows, cols, ?_, ?_, ?_, ?_⟩
  · rw [resolveOf_congr hp.assembly.entries hp.links]
    exact hrows
  · rw [resolveWrt_congr hp.assembly.entries]
    exact hcols
  · rw [hp.arrangement]
    exact hrowsWithin
  · rw [hp.arrangement]
    exact hcolsWithin

/-- **Forward, reverse and colored totals are the same matrix**, with the entry of the inverse
Jacobian at the slots of a quantity and an input, scaled by the factor of the quantity. -/
theorem totals_agree [BitPattern α] (hm : m.Built) (hsetup : m.setup = .ok start) {p q : Problem α}
    (hp : start.Reached p) {quantities inputs : List String}
    (hof : ∀ name ∈ quantities, m.IsQuantity name)
    (hwrt : ∀ name ∈ inputs, m.IsIndependent name) (hlinearize : linearizeAll p = .ok () q)
    (hJ : q.totalMatrix.det ≠ 0)
    (hsolve : q.options.totals.linear.SolvesExactly q.totalOperator) :
    ∃ rows cols, p.resolveOf quantities = .ok rows ∧ p.resolveWrt inputs = .ok cols ∧
      rows.Within q.arrangement.size ∧ cols.Within q.arrangement.size ∧
      totals quantities inputs .fwd p = .ok ⟨rows.names, cols.names, (rows.length, cols.length),
        rowMajor rows.length cols.length (totalAt q.totalMatrix rows cols), cols.length⟩ q ∧
      totals quantities inputs .rev p = .ok ⟨rows.names, cols.names, (rows.length, cols.length),
        rowMajor rows.length cols.length (totalAt q.totalMatrix rows cols), rows.length⟩ q ∧
      ∀ file, file.Trusted → ∀ c s, coloring quantities inputs (p, file) = .ok c s →
        rows.length * cols.length < Count.modulus →
        (∀ i < rows.length, ∀ j < cols.length, totalAt q.totalMatrix rows cols i j ≠ 0 →
          j ∈ c.pattern.row i) →
        totalsColored quantities inputs (p, file) = .ok ⟨rows.names, cols.names,
          (rows.length, cols.length),
          rowMajor rows.length cols.length (totalAt q.totalMatrix rows cols),
          c.fwd.length + c.rev.length⟩ s := by
  have hstart := setup_spec hm.sound hsetup
  have hfollows := hp.follows
  obtain ⟨hjacobian, hcache⟩ := start_invariant hstart
  obtain ⟨rows, cols, hrows, hcols, hrowsWithin, hcolsWithin⟩ :=
    resolve_of_follows hm.sound hstart hfollows hof hwrt
  have hq : p.Follows q := by
    have := follows_linearizeAll p
    rwa [hlinearize] at this
  have hop : q.totalOperator.IsMatrix q.totalMatrix := isMatrix_totalOperator
    ((linearizeAll_spec p).2 () q hlinearize (hfollows.jacobian hjacobian))
  rw [← hq.arrangement] at hrowsWithin hcolsWithin
  have hprepare : prepareTotals quantities inputs p = .ok (rows, cols) q := by
    simp only [prepareTotals, hrows, hcols, hlinearize]
  have htotals : ∀ mode, totals quantities inputs mode p = .ok ⟨rows.names, cols.names,
      (rows.length, cols.length), exactTotals q.totalMatrix rows cols,
      solveCount rows cols mode⟩ q := by
    intro mode
    simp only [totals, hprepare, totalsAt_eq hop hJ hsolve hrowsWithin hcolsWithin mode]
  refine ⟨rows, cols, hrows, hcols, hrowsWithin, hcolsWithin, htotals .fwd, htotals .rev,
    fun file hfile c s hcoloring hfit hnonzero => ?_⟩
  obtain ⟨q', file'⟩ := s
  simp only [coloring, hprepare] at hcoloring
  obtain ⟨⟨cache, rfl⟩, hsound, hnrows, hncols⟩ := (coloringAt_spec q hfile rows cols).2 c q' file'
    hcoloring (hq.cache (hfollows.cache hcache))
  have hcovers : Coloring.Covers c.pattern (totalAt q.totalMatrix rows cols) := by
    intro i j h
    have hj : j < cols.length := by
      by_contra hj
      exact h (if_neg hj)
    have hi : i < rows.length := by
      by_contra hi
      refine h ?_
      have hnone : rows.entries.getD i (0, 0) = (0, 0) :=
        List.getD_eq_default _ _ (not_lt.1 hi)
      rw [totalAt_of_lt hj, hnone, zero_mul]
    exact hnonzero i hi j hj h
  simp only [totalsColored, hprepare, hcoloring]
  rw [coloredTotalsAt_eq (p := { q with cache := cache }) hop hJ hsolve hrowsWithin hcolsWithin
    hfit hsound.separates hnrows hncols hcovers]
  rfl

end Problem

/-! ### The totals of a model of one unit -/

/-- A rational number is hashed by its numerator and its denominator. -/
instance : BitPattern ℚ :=
  ⟨fun x => UInt64.ofInt x.num + UInt64.ofNat x.den, fun b => (b.toNat : ℚ)⟩

namespace Doubling

open Problem

/-- The Jacobian of `y = 2 x` over both slots. -/
def jacobian : SparseMatrix ℚ := ⟨[(0, 0, 1), (0, 1, -2), (1, 1, 1)]⟩

theorem det_jacobian {n : Nat} (hn : n = 2) : (jacobian.toMatrix n).det ≠ 0 := by
  subst hn
  rw [Matrix.det_fin_two]
  simp [SparseMatrix.toMatrix, jacobian]

/-- Its factors. -/
def factors : Factors ℚ := ⟨2, false, [⟨0, 1, [-2], [0]⟩, ⟨0, 1, [], []⟩]⟩

theorem factors_eq : Factors.ofRows 2 (Operator.blockOfMatrix jacobian (.upTo 2)) = factors := by
  have hrows : Operator.blockOfMatrix jacobian (.upTo 2) = [[1, -2], [0, 1]] := by
    with_unfolding_all decide
  have hregular : (Factors.hasEmptyLine 2 [[1, -2], [0, (1 : ℚ)]] ||
      Factors.isOverscaled 2 [[1, -2], [0, (1 : ℚ)]]) = false := by with_unfolding_all decide
  have hfirst : Factors.pivotIndex [1, (0 : ℚ)] = 0 := by with_unfolding_all decide
  have hsecond : Factors.pivotIndex [(1 : ℚ)] = 0 := by with_unfolding_all decide
  rw [hrows, Factors.ofRows, hregular, factors]
  simp [Factors.eliminate, hfirst, hsecond, Factors.exchange, Factors.subtractScaled]

theorem solve_factors_fwd (a b : ℚ) : factors.solve #[a, b] .fwd = .ok #[a + 2 * b, b] := by
  have hregular : factors.isSingular = false := by with_unfolding_all decide
  have hgroups : Factors.groupStarts factors.dim = [true, false] := by with_unfolding_all decide
  rw [Factors.solve, hregular, hgroups]
  simp [factors, Factors.solveStages, Factors.exchange, Factors.quotient, Factors.subtractProducts,
    Factors.subtractTerms, Factors.Pending.settled, Factors.Pending.of, Factors.Pending.add,
    Scalar.isFinite]

theorem solve_factors_rev (a b : ℚ) : factors.solve #[a, b] .rev = .ok #[a, b + 2 * a] := by
  have hregular : factors.isSingular = false := by with_unfolding_all decide
  have hgroups : Factors.groupStarts factors.dim = [true, false] := by with_unfolding_all decide
  rw [Factors.solve, hregular, hgroups]
  simp [factors, Factors.solveStagesTransposed, Factors.exchange, Factors.quotient,
    Factors.subtractTerms, Scalar.isFinite]

theorem product_fwd (a b : ℚ) : jacobian.product 2 .fwd #[a + 2 * b, b] = #[a, b] := by
  show #[0 + 1 * (a + 2 * b) + -2 * b, 0 + 1 * b] = #[a, b]
  congr 3 <;> ring_nf

theorem product_rev (a b : ℚ) : jacobian.product 2 .rev #[a, b + 2 * a] = #[a, b] := by
  show #[0 + 1 * a, 0 + -2 * a + 1 * (b + 2 * a)] = #[a, b]
  congr 3 <;> ring_nf

/-- Direct solves are exact for this Jacobian. -/
theorem solvesExactly {op : Operator ℚ} (hdim : op.dim = 2) (hmatrix : op.assembled = some jacobian)
    (happly : ∀ mode x, op.apply mode x = .ok (jacobian.product 2 mode x)) :
    LinearConfig.direct.SolvesExactly op := by
  have hfactors : Direct.factorize op = .ok factors := by
    simp only [Direct.factorize, Operator.diagonalBlock, hmatrix, hdim, factors_eq]
  refine Direct.solvesExactly hfactors hdim.symm fun mode rhs hrhs => ?_
  obtain ⟨a, b, rfl⟩ : ∃ a b, rhs = #[a, b] := by
    rw [hdim] at hrhs
    exact ⟨rhs[0], rhs[1], by
      refine Array.ext hrhs fun i h1 h2 => ?_
      have : i = 0 ∨ i = 1 := by
        rw [hrhs] at h1
        omega
      rcases this with rfl | rfl <;> rfl⟩
  cases mode with
  | fwd =>
    exact ⟨_, solve_factors_fwd a b, hdim.symm, (happly .fwd _).trans (by rw [product_fwd])⟩
  | rev =>
    exact ⟨_, solve_factors_rev a b, hdim.symm, (happly .rev _).trans (by rw [product_rev])⟩

/-- The problem with its derivatives refreshed. -/
def refreshed : Problem ℚ := stateAfter (linearizeAll problem)

theorem linearizeAll_eq : linearizeAll problem = .ok () refreshed :=
  (eq_ok_of_isResult (by with_unfolding_all decide)).choose_spec

theorem size_refreshed : refreshed.arrangement.size = 2 := by with_unfolding_all decide

theorem matrix_refreshed : (Jacobian.build refreshed.arrangement refreshed.assembly.units
    refreshed.order (.upTo refreshed.arrangement.size)).matrix = jacobian :=
  congrArg SparseMatrix.mk (by with_unfolding_all decide)

theorem isQuantity : model.IsQuantity "double.y" := by
  refine ⟨component, ?_, Variable.named "y", .inl ?_, ?_⟩
  · rw [units_model]
    exact Array.mem_singleton.2 rfl
  · rw [isDeclared.discipline]
    exact List.mem_singleton.2 rfl
  · rw [Model.pathOf, isDeclared.name]
    rfl

theorem isIndependent : model.IsIndependent "double.x" := by
  refine ⟨component, ?_, Variable.named "x", ?_, ?_, ?_⟩
  · rw [units_model]
    exact Array.mem_singleton.2 rfl
  · rw [isDeclared.discipline]
    exact List.mem_singleton.2 rfl
  · rw [Model.links_addUnit addUnit_eq]
    rfl
  · rw [Model.pathOf, isDeclared.name]
    rfl

theorem solvesExactly_refreshed :
    refreshed.options.totals.linear.SolvesExactly refreshed.totalOperator := by
  have hdirect : refreshed.options.totals.linear = .direct := by
    have hfollows : refreshed.options = problem.options := (linearizeAll_spec problem).1.options
    rw [hfollows, (Model.setup_spec built.sound setup_eq).options,
      Model.options_addUnit addUnit_eq]
    rfl
  have hjacobian := (start_invariant (Model.setup_spec built.sound setup_eq)).1
  have hbuilt := (linearizeAll_spec problem).2 () refreshed linearizeAll_eq hjacobian
  rw [hdirect, totalOperator_eq hbuilt]
  refine solvesExactly ?_ (congrArg some matrix_refreshed) fun mode x => ?_
  · exact size_refreshed
  · show Except.ok ((Jacobian.build refreshed.arrangement refreshed.assembly.units refreshed.order
      (.upTo refreshed.arrangement.size)).matrix.product _ mode x) = _
    rw [matrix_refreshed]
    exact congrArg (fun n => Except.ok (jacobian.product n mode x)) size_refreshed

/-- The totals of the output with respect to the input, with direct solves. -/
theorem totals_of_doubling : (∀ name ∈ ["double.y"], model.IsQuantity name) ∧
    (∀ name ∈ ["double.x"], model.IsIndependent name) ∧
    linearizeAll problem = .ok () refreshed ∧ refreshed.totalMatrix.det ≠ 0 ∧
    refreshed.options.totals.linear.SolvesExactly refreshed.totalOperator ∧
    ∃ rows cols c s, problem.resolveOf ["double.y"] = .ok rows ∧
      problem.resolveWrt ["double.x"] = .ok cols ∧
      coloring ["double.y"] ["double.x"] (problem, .absent) = .ok c s ∧
      totalsColored ["double.y"] ["double.x"] (problem, .absent) = .ok ⟨rows.names, cols.names,
        (rows.length, cols.length), Vec.rowMajor rows.length cols.length
          (totalAt refreshed.totalMatrix rows cols), c.fwd.length + c.rev.length⟩ s := by
  have hof : ∀ name ∈ ["double.y"], model.IsQuantity name := by
    intro name hname
    obtain rfl := List.mem_singleton.1 hname
    exact isQuantity
  have hwrt : ∀ name ∈ ["double.x"], model.IsIndependent name := by
    intro name hname
    obtain rfl := List.mem_singleton.1 hname
    exact isIndependent
  have hdet : refreshed.totalMatrix.det ≠ 0 := by
    rw [totalMatrix, matrix_refreshed]
    exact det_jacobian size_refreshed
  obtain ⟨c, hc⟩ := eq_ok_of_isResult
    (show isResult (coloring ["double.y"] ["double.x"] (problem, .absent)) = true by decide +kernel)
  obtain ⟨rows, cols, hrows, hcols, -, -, -, -, hcolored⟩ := totals_agree built setup_eq .start hof
    hwrt linearizeAll_eq hdet solvesExactly_refreshed
  have hrowsLength : rows.length = 1 := by
    have hlength : (okOr .empty (problem.resolveOf ["double.y"])).length = 1 := by
      with_unfolding_all decide
    rwa [hrows] at hlength
  have hcolsLength : cols.length = 1 := by
    have hlength : (okOr .empty (problem.resolveWrt ["double.x"])).length = 1 := by
      with_unfolding_all decide
    rwa [hcols] at hlength
  have hpattern : 0 ∈ c.pattern.row 0 := by
    have htest : (match coloring ["double.y"] ["double.x"] (problem, .absent) with
      | .ok c _ => (c.pattern.row 0).contains 0
      | .error _ _ => false) = true := by decide +kernel
    rw [hc] at htest
    simpa using htest
  refine ⟨hof, hwrt, linearizeAll_eq, hdet, solvesExactly_refreshed, rows, cols, c, _, hrows, hcols,
    hc, hcolored .absent (fun text s k h => by cases h) c _ hc ?_ fun i hi j hj _ => ?_⟩
  · rw [hrowsLength, hcolsLength]
    decide
  · obtain rfl : i = 0 := by omega
    obtain rfl : j = 0 := by omega
    exact hpattern

end Doubling

end Mdao
