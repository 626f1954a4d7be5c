import Mdao.Proofs.Model.Blocks
import Mdao.Proofs.Model.Totals

/-!
# Totals by one sweep

The totals operator has the outputs of the units first and the independent inputs last. A single
sweep from zero passes the units before the independent inputs have their values, forward; in
reverse it passes the independent inputs before the units have found what they ask of them. So with
exact diagonal blocks the totals by one sweep are those of a model in which nothing depends on
anything (`Problem.totals_runOnce`), also where no block of the model is coupled and exact solves
give others (`Doubling.totals_runOnce_ne`).
-/

namespace Mdao

open Vec Matrix Model

variable {α : Type} [ExactScalar α]

namespace Model

/-- In a model without coupled blocks, blocks that are solved exactly make the Jacobian
nonsingular. -/
theorem Placed.det_ne_zero_of_solves {m : Model α} {order : List Nat} {s : Store α}
    {l : Arrangement α} {units : Array (Component α)} (h : Placed m order s l units)
    (hff : m.FeedForward) {op : Operator α} (hop : op.IsMatrix (wholeMatrix order l units))
    {first last : List Span}
    (hends : Diagonal.EndsInIdentity op (wholeMatrix order l units) first last)
    (hfirst : first = (order.map fun u => (l.unit u).outputs).filter (Part.covers (.upTo l.size))) :
    (wholeMatrix order l units).det ≠ 0 := by
  refine h.det_ne_zero hff fun u hu k hk => ?_
  have hlt : k < l.size := (slot_cases h.laid).2.1 u hu k hk
  have hmem : (l.unit u).outputs ∈ op.blocks := by
    rw [hends.blocks, hfirst]
    exact List.mem_append_left _ (List.mem_filter.2
      ⟨List.mem_map.2 ⟨u, hu, rfl⟩, Part.covers_of_mem hk hlt⟩)
  obtain ⟨i, hi⟩ := List.getElem?_of_mem hmem
  exact (hends.solves (_, i) (List.mem_zipIdx_iff_getElem?.2 hi)).isUnit hop .fwd

end Model

namespace Problem

/-- A sweep that is set up: the blocks are those of the operator. -/
def SweepReady (op : Operator α) (mem : LinearMemory α) : Prop :=
  (LinearMemory.own mem).diagonal.Of op

theorem setup_runOnce (op : Operator α) : ∃ mem : LinearMemory α,
    LinearConfig.setup op .runOnce .blank = .ok () mem ∧ SweepReady op mem :=
  ⟨_, rfl, Diagonal.of_ofOperator op⟩

/-- A solve from what an earlier sweep left behind. -/
theorem solve_runOnce {op : Operator α} {mode : Mode} {rhs : Array α} {mem : LinearMemory α}
    {s : LinearSolution α} {d : Diagonal α}
    (h : Diagonal.runOnce op rhs mode (LinearMemory.own mem).diagonal = .ok s d) (hd : d.Of op) :
    ∃ mem', LinearConfig.solve op mode .runOnce rhs mem = .ok s mem' ∧ SweepReady op mem' := by
  refine ⟨{ LinearMemory.own mem with diagonal := d } :: LinearMemory.preconditioner mem, ?_, hd⟩
  simp only [LinearConfig.solve, h]

/-- **What a single sweep shows** at independent inputs is what was asked for, and nothing at other
slots. -/
theorem shows_runOnce {n : Nat} {J : Matrix (Fin n) (Fin n) α} {op : Operator α}
    {first last : List Span} (hop : op.IsMatrix J) (h : Diagonal.EndsInIdentity op J first last)
    {rows cols : Quantities α} (hrows : rows.Within n) (hcols : cols.Within n)
    (hlast : ∀ k ∈ cols.slots, ∃ s ∈ last, k ∈ s) (mode : Mode) :
    Shows .runOnce op (SweepReady op) rows cols (fun i k => if i = k then 1 else 0) mode := by
  have hunit : ∀ k, (unit op.dim k : Array α).size = n := fun k => by rw [size_unit, hop.dim]
  cases mode with
  | fwd =>
    intro k hk mem hmem
    have hasked : ∀ i, entry (unit op.dim k : Array α) i ≠ 0 → ∃ s ∈ last, i ∈ s := by
      intro i hi
      rw [entry_unit] at hi
      obtain rfl : k = i := by
        by_contra hne
        exact hi (if_neg fun h => hne h.1)
      exact hlast k hk
    obtain ⟨s, d, hrun, hd, hx⟩ := Diagonal.runOnce_fwd hop h hmem (hunit k) hasked
    obtain ⟨mem', hsolve, hmem'⟩ := solve_runOnce hrun hd
    refine ⟨s, mem', hsolve, hmem', fun i hi => ?_⟩
    rw [hx, entry_unit, hop.dim]
    simp only [hrows.of_mem_slots hi, and_true, eq_comm]
  | rev =>
    intro i hi mem hmem
    obtain ⟨s, d, hrun, hd, hx⟩ := Diagonal.runOnce_rev hop h hmem (hunit i)
    obtain ⟨mem', hsolve, hmem'⟩ := solve_runOnce hrun hd
    refine ⟨s, mem', hsolve, hmem', fun k hk => ?_⟩
    rw [hx k (hlast k hk), entry_unit, hop.dim]
    simp only [hcols.of_mem_slots hk, and_true]

variable [Shown α] {m : Model α} {start : Problem α}

omit [Shown α] in
/-- The units and slots of a problem, wherever it has been brought. -/
theorem placed_of_follows (hm : m.Sound) (hstart : IsSetUp m start) {q : Problem α}
    (hq : start.Follows q) : Placed m q.order start.store q.arrangement q.assembly.units := by
  rw [hq.order, hq.arrangement]
  refine ⟨hm, hstart.laid, hstart.order, ?_⟩
  rw [← hstart.units]
  exact hq.assembly.units

omit [Shown α] in
/-- The independent inputs of a problem have their slots in the last blocks of a sweep. -/
theorem slots_of_resolveWrt (hstart : IsSetUp m start) {q : Problem α} (hq : start.Follows q)
    {inputs : List String} (hwrt : ∀ name ∈ inputs, m.IsIndependent name) {cols : Quantities α}
    (hcols : q.resolveWrt inputs = .ok cols) {k : Nat} (hk : k ∈ cols.slots) :
    ∃ s ∈ q.arrangement.independents.filter (Part.covers (.upTo q.arrangement.size)), k ∈ s := by
  obtain ⟨cols', hcols', hslots⟩ := resolve_spec (q := .empty)
    (P := fun k => ∃ r ∈ start.arrangement.independents, k ∈ r ∧ k < start.arrangement.size)
    (fun name hname => by
      obtain ⟨r, hr, hlookup, hstop⟩ := independent_spec hstart.laid (hwrt name hname)
      exact ⟨r, 1, hlookup, fun k hk => ⟨r, hr, hk, hk.2.trans_le hstop⟩⟩)
    (by simp [Quantities.empty])
  rw [resolveWrt_congr hq.assembly.entries] at hcols
  obtain rfl : cols' = cols := Except.ok.inj (hcols'.symm.trans hcols)
  obtain ⟨e, he, rfl⟩ := List.mem_map.1 hk
  obtain ⟨r, hr, hmem, hlt⟩ := hslots e he
  rw [hq.arrangement]
  exact ⟨r, List.mem_filter.2 ⟨hr, Part.covers_of_mem hmem hlt⟩, hmem⟩

omit [Shown α] in
/-- So is the Jacobian at the derivatives that the units of a problem have. -/
theorem det_totalMatrix_ne_zero {order : List Nat} {s : Store α} {q : Problem α}
    (hplaced : Placed m order s q.arrangement q.assembly.units) (horder : q.order = order)
    {first last : List Span} (hop : q.totalOperator.IsMatrix q.totalMatrix)
    (h : Diagonal.EndsInIdentity q.totalOperator q.totalMatrix first last)
    (hfirst : first = (order.map fun u => (q.arrangement.unit u).outputs).filter
      (Part.covers (.upTo q.arrangement.size)))
    (hff : m.FeedForward) : q.totalMatrix.det ≠ 0 := by
  subst horder
  exact hplaced.det_ne_zero_of_solves hff hop h hfirst

/-- **Totals by one sweep are those of a model in which nothing depends on anything**: the factor of
a quantity where it has the slot of the input, and zero otherwise. In a model without coupled blocks
the exact totals exist, and these are the same only where each of them is such a factor or zero. -/
theorem totals_runOnce [BitPattern α] (hm : m.Built) (hsetup : m.setup = .ok start)
    {p q : Problem α} (hp : start.Reached p) {quantities inputs : List String}
    (hof : ∀ name ∈ quantities, m.IsQuantity name)
    (hwrt : ∀ name ∈ inputs, m.IsIndependent name) (hlinearize : linearizeAll p = .ok () q)
    (hlinear : q.options.totals.linear = .runOnce)
    (hsolves : ∀ block ∈ q.totalOperator.blocks.zipIdx,
      q.totalOperator.SolvesBlock block.2 block.1) :
    (m.FeedForward → q.totalMatrix.det ≠ 0) ∧
    ∃ rows cols, p.resolveOf quantities = .ok rows ∧ p.resolveWrt inputs = .ok cols ∧
      (∀ mode, totals quantities inputs mode p = .ok ⟨rows.names, cols.names,
        (rows.length, cols.length), scaledTable rows cols fun i k => if i = k then 1 else 0,
        solveCount rows cols mode⟩ q) ∧
      ((scaledTable rows cols fun i k => if i = k then 1 else 0) = exactTotals q.totalMatrix rows cols ↔
        ∀ i < rows.length, ∀ j < cols.length, totalAt q.totalMatrix rows cols i j =
          (rows.entries.getD i (0, 0)).2 *
            if (rows.entries.getD i (0, 0)).1 = cols.slots.getD j 0 then 1 else 0) := by
  have hstart := setup_spec hm.sound hsetup
  have hfollows := hp.follows
  obtain ⟨rows, cols, hrows, hcols, hrowsWithin, hcolsWithin⟩ :=
    resolve_of_follows hm.sound hstart hfollows hof hwrt
  have hlast := fun k => slots_of_resolveWrt hstart hfollows hwrt hcols (k := k)
  have hq : p.Follows q := by
    have := follows_linearizeAll p
    rwa [hlinearize] at this
  have hplaced := placed_of_follows hm.sound hstart (.trans _ _ _ hfollows hq)
  have hbuilt := (linearizeAll_spec p).2 () q hlinearize
    (hfollows.jacobian (start_invariant hstart).1)
  have hop : q.totalOperator.IsMatrix q.totalMatrix := isMatrix_totalOperator hbuilt
  have hblocks : q.totalOperator.blocks =
      (Part.partition q.arrangement q.order (.upTo q.arrangement.size)).map Part.range := by
    rw [totalOperator_eq hbuilt]
    show q.totalParts.map Part.range = _
    rw [hq.parts, hfollows.parts, hstart.parts, hq.arrangement, hfollows.arrangement, hq.order,
      hfollows.order]
  have hends : Diagonal.EndsInIdentity q.totalOperator q.totalMatrix _ _ :=
    hplaced.endsInIdentity hop.dim hblocks hsolves
  rw [← hq.arrangement] at hrowsWithin hcolsWithin hlast
  refine ⟨det_totalMatrix_ne_zero hplaced rfl hop hends rfl, rows, cols, hrows, hcols,
    fun mode => ?_, ?_⟩
  swap
  · rw [scaledTable, exactTotals, rowMajor_eq_iff]
    simp only [eq_comm]
  obtain ⟨mem, hmem, hready⟩ := setup_runOnce q.totalOperator
  obtain ⟨mem', hstep⟩ :=
    solveTotals_of_shows (shows_runOnce hop hends hrowsWithin hcolsWithin hlast mode) hready
  have hvalues : q.totalsAt rows cols mode = .ok ⟨rows.names, cols.names,
      (rows.length, cols.length), scaledTable rows cols fun i k => if i = k then 1 else 0,
      solveCount rows cols mode⟩ := by
    unfold totalsAt
    rw [hlinear]
    exact bind_eq_ok.2 ⟨_, withLinear_eq_ok hmem hstep, rfl⟩
  simp only [totals, prepareTotals, hrows, hcols, hlinearize, hvalues]

end Problem

/-! ### The totals of a model of one unit by one sweep -/

namespace Doubling

open Problem

/-- The model of `y = 2 x` with one sweep for its totals. -/
def sweptModel : Model ℚ :=
  model.withOptions { SolverOptions.default with
    totals := { TotalsOptions.default with linear := .runOnce } }

/-- It is ready to run. -/
def sweptProblem : Problem ℚ := okOr problem sweptModel.setup

theorem setup_swept : sweptModel.setup = .ok sweptProblem :=
  eq_ok_of_isOk _ (by with_unfolding_all decide)

/-- Its derivatives are refreshed. -/
def swept : Problem ℚ := stateAfter (linearizeAll sweptProblem)

theorem linearize_swept : linearizeAll sweptProblem = .ok () swept :=
  (eq_ok_of_isResult (by with_unfolding_all decide)).choose_spec

theorem size_swept : swept.arrangement.size = 2 := by with_unfolding_all decide

theorem matrix_swept : (Jacobian.build swept.arrangement swept.assembly.units swept.order
    (.upTo swept.arrangement.size)).matrix = jacobian :=
  congrArg SparseMatrix.mk (by with_unfolding_all decide)

theorem jacobian_swept : swept.totalJacobian = some (.build swept.arrangement swept.assembly.units
    swept.order (.upTo swept.arrangement.size)) :=
  (linearizeAll_spec sweptProblem).2 () swept linearize_swept
    (start_invariant (Model.setup_spec (built.withOptions _).sound setup_swept)).1

theorem operator_swept : swept.totalOperator.dim = 2 ∧
    swept.totalOperator.blocks.zipIdx = [(⟨0, 1⟩, 0), (⟨1, 2⟩, 1)] ∧
    swept.totalOperator.assembled = some jacobian ∧
    ∀ mode x, swept.totalOperator.apply mode x = .ok (jacobian.product 2 mode x) := by
  have hblocks : (swept.totalParts.map Part.range).zipIdx = [(⟨0, 1⟩, 0), (⟨1, 2⟩, 1)] := by
    with_unfolding_all decide
  rw [totalOperator_eq jacobian_swept]
  refine ⟨size_swept, hblocks, congrArg some matrix_swept, fun mode x => ?_⟩
  show Except.ok ((Jacobian.build swept.arrangement swept.assembly.units swept.order
    (.upTo swept.arrangement.size)).matrix.product _ mode x) = _
  rw [matrix_swept]
  exact congrArg (fun n => Except.ok (jacobian.product n mode x)) size_swept

theorem solve_one (v : ℚ) (mode : Mode) : (Factors.ofRows 1 [[1]]).solve #[v] mode = .ok #[v] := by
  have hfactors : Factors.ofRows 1 [[(1 : ℚ)]] = ⟨1, false, [⟨0, 1, [], []⟩]⟩ := by
    have hregular : (Factors.hasEmptyLine 1 [[(1 : ℚ)]] || Factors.isOverscaled 1 [[(1 : ℚ)]]) =
        false := by with_unfolding_all decide
    have hpivot : Factors.pivotIndex [(1 : ℚ)] = 0 := by with_unfolding_all decide
    rw [Factors.ofRows, hregular]
    simp [Factors.eliminate, hpivot, Factors.exchange]
  have hregular : (⟨1, false, [⟨0, 1, [], []⟩]⟩ : Factors ℚ).isSingular = false := by
    with_unfolding_all decide
  rw [hfactors, Factors.solve, hregular]
  cases mode with
  | fwd =>
    simp [Factors.groupStarts, Factors.solveStages, Factors.exchange, Factors.quotient,
      Factors.subtractProducts, Factors.subtractTerms, Factors.Pending.settled,
      Factors.Pending.of, Scalar.isFinite]
  | rev =>
    simp [Factors.groupStarts, Factors.solveStagesTransposed, Factors.exchange, Factors.quotient,
      Factors.subtractTerms, Scalar.isFinite]

/-- The unit leaves its block to factors. -/
theorem solveBlock_swept (i : Nat) (rhs : Array ℚ) (mode : Mode) :
    swept.totalOperator.solveBlock i rhs mode = none := by
  have hexplicit : swept.assembly.units.toList.all (fun c => !c.isImplicit) = true := by
    with_unfolding_all decide
  show Part.solve swept.assembly.units swept.totalParts i rhs mode = none
  unfold Part.solve
  split
  · rename_i u _
    cases hu : swept.assembly.units[u]? with
    | none => rfl
    | some c =>
      have hc := List.all_eq_true.1 hexplicit c (Array.mem_of_getElem? hu).val
      rw [Option.bind_some, Component.linearSolve]
      unfold Component.isImplicit at hc
      cases hd : c.discipline with
      | explicit d => rfl
      | implicit d => simp [hd, Discipline.isImplicit] at hc
  · rfl

/-- Both diagonal blocks are the number 1, and are solved exactly. -/
theorem solvesBlock_swept {block : Span × Nat} (h : block ∈ swept.totalOperator.blocks.zipIdx) :
    swept.totalOperator.SolvesBlock block.2 block.1 := by
  obtain ⟨hdim, hblocks, hmatrix, happly⟩ := operator_swept
  have hone : ∀ i range, range.size = 1 →
      Operator.blockOfMatrix jacobian range = [[1]] →
      ∀ b : Array ℚ, b.size = range.size → ∀ mode,
        ∃ v, b = #[v] ∧ swept.totalOperator.solveDiagonal i range b mode = .ok #[v] := by
    intro i range hsize hblock b hb mode
    obtain ⟨v, rfl⟩ := Array.size_eq_one_iff.1 (hb.trans hsize)
    refine ⟨v, rfl, ?_⟩
    simp only [Operator.solveDiagonal, solveBlock_swept, Operator.diagonalBlock, hmatrix, hblock,
      hsize, solve_one]
  intro mode b hb
  rw [hblocks] at h
  rcases List.mem_pair.1 h with rfl | rfl
  · obtain ⟨v, rfl, hsolve⟩ := hone 0 ⟨0, 1⟩ rfl (by with_unfolding_all decide) b hb mode
    refine ⟨#[v], hsolve, rfl, _, happly mode _, ?_⟩
    rw [hdim]
    cases mode with
    | fwd =>
      show #[0 + 1 * v + -2 * 0] = #[v]
      ring_nf
    | rev =>
      show #[0 + 1 * v] = #[v]
      ring_nf
  · obtain ⟨v, rfl, hsolve⟩ := hone 1 ⟨1, 2⟩ rfl (by with_unfolding_all decide) b hb mode
    refine ⟨#[v], hsolve, rfl, _, happly mode _, ?_⟩
    rw [hdim]
    cases mode with
    | fwd =>
      show #[0 + 1 * v] = #[v]
      ring_nf
    | rev =>
      show #[0 + -2 * 0 + 1 * v] = #[v]
      ring_nf

theorem linear_swept : swept.options.totals.linear = .runOnce := by
  have hfollows : swept.options = sweptProblem.options := (linearizeAll_spec sweptProblem).1.options
  rw [hfollows, (Model.setup_spec (built.withOptions _).sound setup_swept).options]
  rfl

theorem feedForward_swept : sweptModel.FeedForward := by
  have htest : sweptModel.graph.order.all (fun b => !b.isCoupled) = true := by
    with_unfolding_all decide
  intro b hb
  simpa using List.all_eq_true.1 htest b hb

theorem isMatrix_swept : swept.totalOperator.IsMatrix swept.totalMatrix :=
  isMatrix_totalOperator jacobian_swept

theorem det_swept : swept.totalMatrix.det ≠ 0 := by
  rw [totalMatrix, matrix_swept]
  exact det_jacobian size_swept

/-- The total of the input with respect to itself. -/
theorem totals_runOnce_input : (∀ name ∈ ["double.x"], sweptModel.IsQuantity name) ∧
    (∀ name ∈ ["double.x"], sweptModel.IsIndependent name) ∧
    linearizeAll sweptProblem = .ok () swept ∧ swept.options.totals.linear = .runOnce ∧
    (∀ block ∈ swept.totalOperator.blocks.zipIdx,
      swept.totalOperator.SolvesBlock block.2 block.1) ∧
    ∀ mode, ∃ t, totals ["double.x"] ["double.x"] mode sweptProblem = .ok t swept ∧
      t.values = #[1] := by
  have hwrt : ∀ name ∈ ["double.x"], sweptModel.IsIndependent name := by
    intro name hname
    obtain rfl := List.mem_singleton.1 hname
    exact isIndependent
  have hof : ∀ name ∈ ["double.x"], sweptModel.IsQuantity name := by
    intro name hname
    obtain ⟨c, hc, v, hv, -, hpath⟩ := hwrt name hname
    exact ⟨c, hc, v, .inr hv, hpath⟩
  obtain ⟨-, rows, cols, hrows, hcols, htotals, -⟩ := totals_runOnce (built.withOptions _)
    setup_swept .start hof hwrt linearize_swept linear_swept fun _ => solvesBlock_swept
  have hrowsEntries : rows.entries = [(1, 1)] := by
    have hentries : (okOr .empty (sweptProblem.resolveOf ["double.x"])).entries = [(1, 1)] := by
      with_unfolding_all decide
    rwa [hrows] at hentries
  have hcolsEntries : cols.entries = [(1, 1)] := by
    have hentries : (okOr .empty (sweptProblem.resolveWrt ["double.x"])).entries = [(1, 1)] := by
      with_unfolding_all decide
    rwa [hcols] at hentries
  refine ⟨hof, hwrt, linearize_swept, linear_swept, fun _ => solvesBlock_swept, fun mode =>
    ⟨_, htotals mode, ?_⟩⟩
  simp only [scaledTable, Quantities.slots, Quantities.length, hrowsEntries, hcolsEntries]
  with_unfolding_all decide

/-- **By one sweep the total of `y = 2 x` is zero**, in both modes, though no block of the model is
coupled, each diagonal block is solved exactly, and the exact total is 2. -/
theorem totals_runOnce_ne : sweptModel.FeedForward ∧ swept.options.totals.linear = .runOnce ∧
    linearizeAll sweptProblem = .ok () swept ∧
    (∀ block ∈ swept.totalOperator.blocks.zipIdx,
      swept.totalOperator.SolvesBlock block.2 block.1) ∧
    ∃ rows cols, sweptProblem.resolveOf ["double.y"] = .ok rows ∧
      sweptProblem.resolveWrt ["double.x"] = .ok cols ∧
      exactTotals swept.totalMatrix rows cols = #[2] ∧
      ∀ mode, ∃ t q, totals ["double.y"] ["double.x"] mode sweptProblem = .ok t q ∧
        t.values = #[0] := by
  obtain ⟨hdim, -, -, happly⟩ := operator_swept
  -- the solution for the input is the column of the inverse
  have hinverse : coeff swept.totalMatrix⁻¹ 0 1 = 2 := by
    have hproduct : swept.totalOperator.apply .fwd #[2, 1] = .ok (unit swept.arrangement.size 1) := by
      rw [happly, size_swept]
      exact congrArg Except.ok (by with_unfolding_all decide)
    have hsolution := eq_solution isMatrix_swept det_swept (x := #[2, 1]) size_swept.symm hproduct
    rw [show coeff swept.totalMatrix⁻¹ 0 1 = inverseAt swept.totalMatrix .fwd 0 1 from rfl,
      ← entry_solution_unit .fwd 1 (by rw [size_swept]; decide), ← hsolution]
    rfl
  refine ⟨feedForward_swept, linear_swept, linearize_swept, fun _ => solvesBlock_swept, _, _,
    eq_ok_of_isOk .empty (by with_unfolding_all decide),
    eq_ok_of_isOk .empty (by with_unfolding_all decide), ?_, fun mode => ?_⟩
  · have hrows : (okOr .empty (sweptProblem.resolveOf ["double.y"])).entries = [(0, 1)] := by
      with_unfolding_all decide
    have hcols : (okOr .empty (sweptProblem.resolveWrt ["double.x"])).entries = [(1, 1)] := by
      with_unfolding_all decide
    have htotal : totalAt swept.totalMatrix (okOr .empty (sweptProblem.resolveOf ["double.y"]))
        (okOr .empty (sweptProblem.resolveWrt ["double.x"])) 0 0 = 2 := by
      simp [totalAt, Quantities.length, Quantities.slots, hrows, hcols, hinverse]
    rw [exactTotals, Quantities.length, Quantities.length, hrows, hcols]
    show #[totalAt _ _ _ 0 0] = #[2]
    rw [htotal]
  · have hzero : ((resultOf (totals ["double.y"] ["double.x"] mode sweptProblem)).map
        Totals.values == some #[0]) = true := by
      cases mode <;> decide +kernel
    obtain ⟨t, ht, hvalues⟩ := Option.map_eq_some_iff.1 (beq_iff_eq.1 hzero)
    exact ⟨t, _, eq_ok_of_resultOf ht, hvalues⟩

end Doubling

end Mdao
