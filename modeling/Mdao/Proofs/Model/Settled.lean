import Mdao.Proofs.Linear.Settled
import Mdao.Proofs.Model.RunOnce
import Mdao.Proofs.Model.Triangular

/-!
# Feed-forward totals by two sweeps

In a model without coupled blocks no unit has coefficients in the outputs of a later one
(`Placed.fed`), and the independent inputs, whose rows are those of the identity, come last. So two
Gauss-Seidel sweeps solve the Jacobian over all slots from any vector, in both modes, and an iteration
of sweeps converges in no more than two (`Problem.gaussSeidel_settles`). One sweep is not enough
(`Doubling.totals_runOnce_ne`).
-/

namespace Mdao

open Vec Matrix

variable {α : Type} [ExactScalar α]

omit [ExactScalar α] in
/-- A part without a unit is an independent input. -/
theorem Part.mem_independents {l : Arrangement α} {order : List Nat} {n : Nat} {r : Span}
    (h : ⟨r, none⟩ ∈ partition l order (.upTo n)) : r ∈ l.independents := by
  unfold partition at h
  rcases List.mem_append.1 h with h | h
  · obtain ⟨u, -, hu⟩ := List.mem_filterMap.1 h
    simp only [Option.ite_none_right_eq_some, Option.some.injEq, Part.mk.injEq, reduceCtorEq,
      and_false] at hu
  · obtain ⟨s, hs, heq⟩ := List.mem_filterMap.1 h
    simp only [Option.ite_none_right_eq_some, Option.some.injEq, Part.mk.injEq, and_true] at heq
    obtain rfl : s = r := heq.2
    exact hs

namespace Model

variable {m : Model α} {order : List Nat} {s : Store α} {l : Arrangement α}
  {units : Array (Component α)} {op : Operator α}

/-- **No unit has coefficients in the outputs of a later one** when no block is coupled. -/
theorem Placed.fed (h : Placed m order s l units) (hff : m.FeedForward) :
    (order.map fun u => (l.unit u).outputs).Pairwise fun r t =>
      ∀ i ∈ r, ∀ k ∈ t, coeff (wholeMatrix order l units) i k = 0 := by
  obtain ⟨hind, hout, -⟩ := slot_cases h.laid
  obtain ⟨mid, hunits, -⟩ := h.laid.tiles
  refine List.pairwise_map.2 ((List.pairwise_map.1 hunits.pairwise).imp_of_mem ?_)
  intro u v hu hv hle i hi k hk
  by_contra hne
  rcases h.column_cases hu hi (hout v hv k hk) hne with hown | ⟨a, ha, hka⟩ | ⟨r, hr, hkr⟩
  · exact absurd (hown.2.trans_le hle) (not_lt.2 hk.1)
  · have hbefore := stop_le_start h.sound hff h.laid h.order hu ha
    exact absurd (hka.2.trans_le hbefore) (not_lt.2 ((hi.1.trans hi.2.le).trans (hle.trans hk.1)))
  · exact (hind r hr k hkr).2 v hv hk

/-- **Without coupled blocks the last blocks feed the others**: the parts of units are fed by earlier
ones and by independent inputs. -/
theorem Placed.fedByIdentity (h : Placed m order s l units) (hff : m.FeedForward)
    (hop : op.IsMatrix (wholeMatrix order l units))
    (hblocks : op.blocks = (Part.partition l order (.upTo l.size)).map Part.range)
    (hsolves : ∀ block ∈ op.blocks.zipIdx, op.SolvesBlock block.2 block.1) :
    Diagonal.FedByIdentity op (wholeMatrix order l units)
      ((order.map fun u => (l.unit u).outputs).filter (Part.covers (.upTo l.size)))
      (l.independents.filter (Part.covers (.upTo l.size))) := by
  obtain ⟨mid, hunits, hindependents⟩ := h.laid.tiles
  exact ⟨h.endsInIdentity hop.dim hblocks hsolves, hop,
    hblocks ▸ Part.tile_partition_all hunits hindependents, (h.fed hff).filter _⟩

end Model

namespace Problem

open Model

variable [Shown α] {m : Model α} {start q : Problem α} {j : Jacobian α}

/-- **Diagonal blocks of units are solved exactly.** -/
def UnitsSolve (q : Problem α) : Prop :=
  ∀ k r u, q.totalParts[k]? = some ⟨r, some u⟩ → q.totalOperator.SolvesBlock k r

omit [Shown α] in
/-- The Jacobian that a problem has is that of its units at some linearization. -/
theorem exists_placed (hm : m.Sound) (hstart : IsSetUp m start) (hq : start.Follows q)
    (hj : q.totalJacobian = some j) :
    ∃ units, Placed m q.order start.store q.arrangement units ∧
      j.matrix.toMatrix q.arrangement.size = wholeMatrix q.order q.arrangement units ∧
      q.totalOperator.IsMatrix (j.matrix.toMatrix q.arrangement.size) := by
  obtain ⟨units, halike, rfl⟩ := hq.jacobian (start_invariant hstart).1 j hj
  obtain ⟨hsound, hlaid, horder, hunits⟩ := placed_of_follows hm hstart hq
  refine ⟨units, ⟨hsound, hlaid, horder, hunits.trans halike⟩, rfl, ?_⟩
  rw [totalOperator_eq hj]
  exact Operator.isMatrix_of_product rfl (fun _ _ => rfl) fun e he => Jacobian.entries_lt he

omit [Shown α] in
/-- The parts of a problem are those of all its slots. -/
theorem parts_of_follows (hstart : IsSetUp m start) (hq : start.Follows q) :
    q.totalParts = Part.partition q.arrangement q.order (.upTo q.arrangement.size) := by
  rw [hq.parts, hstart.parts, hq.arrangement, hq.order]

omit [Shown α] in
/-- When the blocks of units are solved exactly, all are: those of independent inputs, with rows of the
identity, are left to factors. -/
theorem solvesBlock_of_units (hm : m.Sound) (hstart : IsSetUp m start) (hq : start.Follows q)
    (hj : q.totalJacobian = some j) (hunits : q.UnitsSolve)
    (hsmall : ∀ r ∈ q.arrangement.independents, r.size < 2 ^ 46) {block : Span × Nat}
    (hblock : block ∈ q.totalOperator.blocks.zipIdx) :
    q.totalOperator.SolvesBlock block.2 block.1 := by
  obtain ⟨units, hplaced, hmatrix, hop⟩ := exists_placed hm hstart hq hj
  have hlisted := List.mem_zipIdx_iff_getElem?.1 hblock
  rw [totalOperator_eq hj, List.getElem?_map] at hlisted
  obtain ⟨⟨r, unit⟩, hpart, hr⟩ := Option.map_eq_some_iff.1 hlisted
  obtain rfl : r = block.1 := hr
  cases unit with
  | some u => exact hunits _ _ u hpart
  | none =>
    have hindependent : block.1 ∈ q.arrangement.independents := by
      have hmem : ⟨block.1, none⟩ ∈ q.totalParts := List.mem_of_getElem? hpart
      rw [parts_of_follows hstart hq] at hmem
      exact Part.mem_independents hmem
    have hinside : block.1.stop ≤ q.arrangement.size := by
      obtain ⟨mid, -, hindependents⟩ := hplaced.laid.tiles
      exact (hindependents.bounds hindependent).2.2
    refine Operator.solvesBlock_of_identity hop hinside (fun b mode => ?_) ?_ (fun k hk => ?_)
      (hsmall _ hindependent)
    · show Part.solve q.assembly.units q.totalParts block.2 b mode = none
      simp only [Part.solve, hpart]
    · rw [totalOperator_eq hj]
      exact congrArg Except.ok (Operator.blockOfMatrix_eq_rowsOf j.matrix hinside)
    · rw [hmatrix]
      exact hplaced.isIdentityRow ⟨_, hindependent, hk⟩

/-- **Without coupled blocks two Gauss-Seidel sweeps solve the Jacobian over all slots** from any
vector, in both modes, if the diagonal blocks of the units are solved exactly. So with at least two
sweeps allowed a solve converges in no more than two, whatever is remembered from earlier ones. An
independent input of `2 ^ 46` entries is excluded: no machine can store its diagonal block, of
`2 ^ 92` entries, and factors would take even this identity matrix for singular. -/
theorem gaussSeidel_settles (hm : m.Built) (hsetup : m.setup = .ok start) (hq : start.Follows q)
    (hj : q.totalJacobian = some j) (hff : m.FeedForward) (hunits : q.UnitsSolve)
    (hsmall : ∀ r ∈ q.arrangement.independents, r.size < 2 ^ 46) :
    q.totalOperator.IsMatrix (j.matrix.toMatrix q.arrangement.size) ∧
    (j.matrix.toMatrix q.arrangement.size).det ≠ 0 ∧
    (∀ mode rhs x d, rhs.size = q.arrangement.size → x.size = q.arrangement.size →
      Diagonal.Of q.totalOperator d →
      ∃ x1 d1 x2 d2, Diagonal.sweep .gaussSeidel q.totalOperator rhs x mode d = .ok x1 d1 ∧
        Diagonal.sweep .gaussSeidel q.totalOperator rhs x1 mode d1 = .ok x2 d2 ∧
        x2 = solution (j.matrix.toMatrix q.arrangement.size) mode rhs) ∧
    ∀ s : SweepSettings α, 0 ≤ s.atol → 2 ≤ s.maxiter →
      (∀ mem, ∃ mem', (LinearConfig.blockGaussSeidel s).setup q.totalOperator mem = .ok () mem' ∧
        SweepReady q.totalOperator mem') ∧
      ∀ mem, SweepReady q.totalOperator mem → ∀ mode rhs, rhs.size = q.arrangement.size →
        ∃ sol mem', (LinearConfig.blockGaussSeidel s).solve q.totalOperator mode rhs mem =
          .ok sol mem' ∧ SweepReady q.totalOperator mem' ∧ sol.status = .converged ∧
          sol.iters ≤ 2 := by
  have hstart := setup_spec hm.sound hsetup
  have hsolves : ∀ block ∈ q.totalOperator.blocks.zipIdx,
      q.totalOperator.SolvesBlock block.2 block.1 := fun block hblock =>
    solvesBlock_of_units hm.sound hstart hq hj hunits hsmall hblock
  obtain ⟨units, hplaced, hmatrix, hop⟩ := exists_placed hm.sound hstart hq hj
  rw [hmatrix] at hop ⊢
  have hblocks : q.totalOperator.blocks =
      (Part.partition q.arrangement q.order (.upTo q.arrangement.size)).map Part.range := by
    rw [totalOperator_eq hj, parts_of_follows hstart hq]
  have hfed := hplaced.fedByIdentity hff hop hblocks hsolves
  have hdet := hplaced.det_ne_zero_of_solves hff hop hfed.toEndsInIdentity rfl
  refine ⟨hop, hdet, fun mode rhs x d hrhs hx hd => ?_, fun s hatol hmaxiter =>
    ⟨fun mem => ⟨_, rfl, Diagonal.of_ofOperator _⟩, fun mem hmem mode rhs hrhs =>
      LinearConfig.gaussSeidel_converges hfed hatol hmaxiter hmem mode hrhs⟩⟩
  obtain ⟨x1, d1, x2, d2, h1, -, h2, -, hx2, happly⟩ := hfed.sweeps_solve hrhs hx mode hd
  exact ⟨x1, d1, x2, d2, h1, h2, eq_solution hop hdet hx2 happly⟩

end Problem

/-! ### The model of one unit by two sweeps -/

namespace Doubling

open Problem

theorem follows_swept : sweptProblem.Follows swept := by
  have h := follows_linearizeAll sweptProblem
  rwa [linearize_swept] at h

theorem unitsSolve_swept : swept.UnitsSolve := by
  intro k r u hpart
  have hmem : (r, k) ∈ swept.totalOperator.blocks.zipIdx := by
    rw [List.mem_zipIdx_iff_getElem?, totalOperator_eq jacobian_swept, List.getElem?_map, hpart]
    rfl
  exact solvesBlock_swept hmem

theorem size_independents_swept : ∀ r ∈ swept.arrangement.independents, r.size < 2 ^ 46 := by
  have hindependents : swept.arrangement.independents = [⟨1, 2⟩] := by with_unfolding_all decide
  rw [hindependents]
  decide

/-- With the usual settings, solves for `y = 2 x` converge in two sweeps. -/
theorem gaussSeidel_swept : sweptProblem.Follows swept ∧ sweptModel.FeedForward ∧ swept.UnitsSolve ∧
    (∀ r ∈ swept.arrangement.independents, r.size < 2 ^ 46) ∧
    ∃ mem, (LinearConfig.blockGaussSeidel .default).setup swept.totalOperator .blank = .ok () mem ∧
      ∀ mode, ∃ sol mem', (LinearConfig.blockGaussSeidel .default).solve swept.totalOperator mode
        #[3, 5] mem = .ok sol mem' ∧ sol.status = .converged ∧ sol.iters ≤ 2 := by
  obtain ⟨-, -, -, hsolve⟩ := gaussSeidel_settles (built.withOptions _) setup_swept follows_swept
    jacobian_swept feedForward_swept unitsSolve_swept size_independents_swept
  obtain ⟨hsetup, hsolve⟩ := hsolve .default (by with_unfolding_all decide) (by decide)
  obtain ⟨mem, hmem, hready⟩ := hsetup .blank
  refine ⟨follows_swept, feedForward_swept, unitsSolve_swept, size_independents_swept, mem, hmem,
    fun mode => ?_⟩
  obtain ⟨sol, mem', hsol, -, hstatus, hiters⟩ := hsolve mem hready mode #[3, 5] size_swept.symm
  exact ⟨sol, mem', hsol, hstatus, hiters⟩

end Doubling

end Mdao
