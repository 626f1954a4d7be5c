import Mathlib
import Mdao.Proofs.Coloring.Samples
import Mdao.Proofs.Jacobian.Assembled
import Mdao.Proofs.Linear.Direct
import Mdao.Proofs.Model.Determined
import Mdao.Proofs.Model.Totals

/-!
# The structure of totals

A total derivative vanishes unless a chain of entries of the Jacobian leads from the slot of the
quantity to that of the input, whatever the values of the derivatives are (`Problem.totals_vanish`).
The random matrices from which the pattern of a coloring is detected have the pattern of the Jacobian,
so no place outside of these chains gets into it, and totals with and without this coloring agree on
the zeros there, at every point.
-/

namespace Mdao

open Vec Matrix Jacobian

variable {α : Type} [ExactScalar α]

namespace Problem

/-- **A matrix of totals vanishes at every place to which no chain of entries leads.** -/
structure Vanishes (pattern : List (Nat × Nat)) (rows cols : Quantities α) (values : Array α) :
    Prop where
  size : values.size = rows.length * cols.length
  zero : ∀ i < rows.length, ∀ k < cols.length,
    ¬ Leads pattern (rows.slots.getD i 0) (cols.slots.getD k 0) →
      entry values (i * cols.length + k) = 0

variable {n : Nat} {J : Matrix (Fin n) (Fin n) α} {pattern : List (Nat × Nat)}
  {rows cols : Quantities α}

/-- Exact totals vanish there. -/
theorem vanishes_exactTotals (hJ : J.det ≠ 0) (hsupport : Supported pattern J)
    (rows cols : Quantities α) : Vanishes pattern rows cols (exactTotals J rows cols) := by
  refine ⟨size_rowMajor _ _ _, fun i hi k hk hleads => ?_⟩
  have hslot : (rows.entries.getD i (0, 0)).1 = rows.slots.getD i 0 := by
    have hi' : i < rows.entries.length := hi
    simp [Quantities.slots, hi']
  rw [exactTotals, entry_rowMajor _ hi hk, totalAt_of_lt hk, hslot,
    coeff_inv_eq_zero hJ hsupport hleads, mul_zero]

/-! ### Direct solves -/

/-- **Totals by direct solves** are exact, in either mode, unless the factors count as singular and
there is something to solve for: then the first solve finds them so. -/
theorem solveTotals_direct {op : Operator α} (hop : op.IsMatrix J)
    (hblock : op.diagonalBlock (.upTo op.dim) = .ok (Factors.rowsOf J)) (hrows : rows.Within n)
    (hcols : cols.Within n) (mode : Mode) :
    (∃ m m', LinearConfig.direct.setup op .blank = .ok () m ∧
      solveTotals .direct op rows cols mode m = .ok (exactTotals J rows cols) m' ∧
      (J.det ≠ 0 ∨ (solvedFor rows cols mode).slots = [])) ∨
    ∃ m m', (Factors.ofRows n (Factors.rowsOf J)).isSingular = true ∧
      LinearConfig.direct.setup op .blank = .ok () m ∧
      solveTotals .direct op rows cols mode m = .error .singularJacobian m' := by
  cases hsingular : (Factors.ofRows n (Factors.rowsOf J)).isSingular with
  | false =>
    have hJ := Factors.det_ne_zero_of_regular hsingular
    obtain ⟨Ready, ⟨m, hsetup, hm⟩, hexact⟩ := Direct.solvesExactly_of_regular hop hblock hsingular
    obtain ⟨m', hvalues⟩ := solveTotals_of_shows (shows_coeff_inv hop hJ hexact hrows hcols mode) hm
    rw [scaledTable_coeff_inv] at hvalues
    exact .inl ⟨m, m', hsetup, hvalues, .inl hJ⟩
  | true =>
    obtain ⟨m, hsetup, hfails⟩ := Direct.setup_of_singular hop hblock hsingular
    cases hslots : (solvedFor rows cols mode).slots with
    | nil =>
      have hnothing : ∃ m', solveTotals .direct op rows cols mode m =
          .ok (scaledTable rows cols (coeff J⁻¹)) m' := solveTotals_of_nil hslots _ m
      obtain ⟨m', hvalues⟩ := hnothing
      rw [scaledTable_coeff_inv] at hvalues
      exact .inl ⟨m, m', hsetup, hvalues, .inr rfl⟩
    | cons k slots =>
      obtain ⟨m', hsolve⟩ := hfails mode (unit op.dim k) (size_unit _ _)
      exact .inr ⟨m, m', rfl, hsetup, solveTotals_of_error hslots hsolve⟩

/-! ### Samples -/

/-- A random matrix lies in the square of the Jacobian that it has the pattern of. -/
theorem entries_randomized {j : Jacobian α} (hj : j.Fits) {r : Random} {e : Nat × Nat × α}
    (he : e ∈ (randomized j.pattern r).1.entries) : e.1 < j.range.size ∧ e.2.1 < j.range.size := by
  obtain ⟨l, hl, rfl⟩ := List.mem_iff_getElem.1 he
  have hl' : l < j.pattern.length := by
    simp only [randomized, List.length_zipWith] at hl
    omega
  simp only [randomized, List.getElem_zipWith]
  exact hj _ (List.getElem_mem hl')

/-- **Every sample is exact** for its random matrix, which is regular unless there is no input to solve
for. -/
theorem exact_of_sampleTotals {j : Jacobian α} (hj : j.Fits) (hrows : rows.Within j.range.size)
    (hcols : cols.Within j.range.size) {r r' : Random} {values : Array α}
    (h : sampleTotals j rows cols r = .ok values r') :
    r' = (randomized (α := α) j.pattern r).2 ∧
      values = exactTotals ((randomized j.pattern r).1.toMatrix j.range.size) rows cols ∧
      (((randomized (α := α) j.pattern r).1.toMatrix j.range.size).det ≠ 0 ∨ cols.slots = []) := by
  let m := (randomized (α := α) j.pattern r).1
  let op : Operator α := .ofMatrix j.range.size m
  have hop : op.IsMatrix (m.toMatrix j.range.size) :=
    Operator.isMatrix_of_product rfl (fun _ _ => rfl) fun e he => entries_randomized hj he
  have hblock : op.diagonalBlock (.upTo op.dim) =
      .ok (Factors.rowsOf (m.toMatrix j.range.size)) :=
    congrArg Except.ok (Operator.blockOfMatrix_upTo m j.range.size)
  obtain ⟨hr, mem, hsolved⟩ : r' = (randomized (α := α) j.pattern r).2 ∧ ∃ mem, (do
      LinearConfig.direct.setup op
      solveTotals .direct op rows cols .fwd) LinearMemory.blank = .ok values mem := by
    dsimp only [sampleTotals] at h
    split at h
    · rename_i values' mem hvalues
      cases h
      exact ⟨rfl, mem, hvalues⟩
    · cases h
  refine ⟨hr, ?_⟩
  rcases solveTotals_direct hop hblock hrows hcols .fwd with
    ⟨m0, m1, hsetup, hvalues, hexact⟩ | ⟨m0, m1, -, hsetup, hfails⟩
  · rw [bind_of_ok _ hsetup, hvalues] at hsolved
    cases hsolved
    exact ⟨rfl, hexact⟩
  · rw [bind_of_ok _ hsetup, hfails] at hsolved
    cases hsolved

/-- **Every sample vanishes there.** -/
theorem vanishes_of_sampleTotals {j : Jacobian α} (hj : j.Fits) (hrows : rows.Within j.range.size)
    (hcols : cols.Within j.range.size) {r r' : Random} {values : Array α}
    (h : sampleTotals j rows cols r = .ok values r') : Vanishes j.pattern rows cols values := by
  obtain ⟨-, rfl, hJ | hslots⟩ := exact_of_sampleTotals hj hrows hcols h
  · exact vanishes_exactTotals hJ (supported_toMatrix _ _ _) rows cols
  · have hlength : cols.length = 0 := by
      rw [← Quantities.length_slots, hslots]
      rfl
    exact ⟨size_rowMajor _ _ _, fun i hi k hk => absurd hk (by omega)⟩

/-! ### Patterns of colorings -/

/-- What is colored is the pattern that was detected. -/
theorem detect_of_computeColoring {j : Jacobian α} {s : ColoringSettings α} {c : Coloring}
    (h : computeColoring s j rows cols = .ok c) : ∃ r, Pattern.detect rows.length cols.length s
      (sampleTotals j rows cols) (.seeded s.seed) = .ok c.pattern r ∧ s.validate = .ok () := by
  unfold computeColoring at h
  split at h
  · cases h
  · rename_i detected r hdetect
    have hvalidate := Coloring.validate_of_compute h
    obtain ⟨revRows, recovery, hpart⟩ := Coloring.compute_eq_partition detected hvalidate
    obtain rfl : Coloring.partition detected revRows recovery = c :=
      Except.ok.inj (hpart.symm.trans h)
    exact ⟨r, by rw [hdetect, Coloring.pattern_partition], hvalidate⟩

/-- **The pattern of a coloring has no place to which no chain of entries leads.** -/
theorem leads_of_computeColoring {j : Jacobian α} (hj : j.Fits) (hrows : rows.Within j.range.size)
    (hcols : cols.Within j.range.size) {s : ColoringSettings α} {c : Coloring}
    (h : computeColoring s j rows cols = .ok c) :
    c.pattern.places = rows.length * cols.length ∧ ∀ i < rows.length, ∀ k ∈ c.pattern.row i,
      Leads j.pattern (rows.slots.getD i 0) (cols.slots.getD k 0) := by
  obtain ⟨r, hdetect, hvalidate⟩ := detect_of_computeColoring h
  have htol : 0 ≤ s.tol := by
    unfold ColoringSettings.validate at hvalidate
    split_ifs at hvalidate with hbad
    simp only [Bool.or_eq_true, decide_eq_true_eq, not_or] at hbad
    exact not_lt.1 hbad.2
  obtain ⟨hwf, hnrows, hncols⟩ := Pattern.wellFormed_of_detect hdetect
  have hvanishes : ∀ r values r', sampleTotals j rows cols r = .ok values r' →
      Vanishes j.pattern rows cols values := fun r values r' hvalues =>
    vanishes_of_sampleTotals hj hrows hcols hvalues
  refine ⟨Pattern.places_of_detect (fun r values r' hvalues => (hvanishes r values r' hvalues).size)
    hdetect, fun i hi k hk => ?_⟩
  by_contra hleads
  refine Pattern.not_mem_of_detect (fun r values r' hvalues => ?_) htol hdetect hk
  exact (hvanishes r values r' hvalues).zero i hi k (hncols ▸ hwf.lt_ncols i k hk) hleads

/-- A coloring with a pattern that was detected for a Jacobian. -/
def Detected (j : Jacobian α) (rows cols : Quantities α) (c : Coloring) : Prop :=
  ∃ s k, computeColoring s j rows cols = .ok k ∧ c.pattern = k.pattern

/-- **Totals with a coloring are zero outside its pattern.** -/
theorem coloredTotalsAt_outside {p : Problem α} (hop : p.totalOperator.IsMatrix J)
    (hJ : J.det ≠ 0) (hsolve : p.options.totals.linear.SolvesExactly p.totalOperator)
    (hrows : rows.Within n) (hcols : cols.Within n) {c : Coloring} (hc : c.Separates)
    (hnrows : c.pattern.nrows = rows.length) (hncols : c.pattern.ncols = cols.length) :
    ∃ values, p.coloredTotalsAt rows cols c = .ok ⟨rows.names, cols.names,
      (rows.length, cols.length), values, c.solves⟩ ∧ values.size = c.pattern.places ∧
      ∀ i, ∀ k < cols.length, k ∉ c.pattern.row i → entry values (i * cols.length + k) = 0 := by
  obtain ⟨Ready, ⟨m, hsetup, hm⟩, hexact⟩ := hsolve
  obtain ⟨fwd, rev, hproducts, m', hstep⟩ : ∃ fwd rev, c.IsProducts (totalAt J rows cols) fwd rev ∧
      ∃ m', groupProducts p.options.totals.linear p.totalOperator rows cols c m =
        .ok (fwd, rev) m' :=
    ⟨_, _, isProducts_groups hc hrows hcols hnrows hncols,
      groupProducts_eq hop hJ hexact rows cols c hm⟩
  refine ⟨c.recoverReverse rev (c.recoverForward fwd),
    bind_eq_ok.2 ⟨(fwd, rev), withLinear_eq_ok hsetup hstep, ?_⟩, Coloring.size_recover,
    fun i k hk hout => ?_⟩
  · simp only [Coloring.recover_of_isProducts hproducts]
    rfl
  · rw [← hncols]
    exact Coloring.entry_recover hc.wellFormed (hncols.symm ▸ hk) hout

/-- **Totals with a coloring that was detected vanish there.** -/
theorem vanishes_coloredTotalsAt {p : Problem α} (hop : p.totalOperator.IsMatrix J)
    (hJ : J.det ≠ 0) (hsolve : p.options.totals.linear.SolvesExactly p.totalOperator)
    (hrows : rows.Within n) (hcols : cols.Within n) {c : Coloring} (hc : c.Separates)
    (hnrows : c.pattern.nrows = rows.length) (hncols : c.pattern.ncols = cols.length)
    (hplaces : c.pattern.places = rows.length * cols.length)
    (hleads : ∀ i < rows.length, ∀ k ∈ c.pattern.row i,
      Leads pattern (rows.slots.getD i 0) (cols.slots.getD k 0)) :
    ∃ values, p.coloredTotalsAt rows cols c = .ok ⟨rows.names, cols.names,
      (rows.length, cols.length), values, c.solves⟩ ∧ Vanishes pattern rows cols values := by
  obtain ⟨values, hvalues, hsize, hzero⟩ :=
    coloredTotalsAt_outside hop hJ hsolve hrows hcols hc hnrows hncols
  exact ⟨values, hvalues, hsize.trans hplaces, fun i hi k hk hout =>
    hzero i k hk fun hmem => hout (hleads i hi k hmem)⟩

/-! ### At every point -/

/-- The Jacobian over all slots, built from the derivatives that the units have. -/
def builtJacobian {β : Type} [Scalar β] (p : Problem β) : Jacobian β :=
  .build p.arrangement p.assembly.units p.order (.upTo p.arrangement.size)

theorem fits_builtJacobian (p : Problem α) : p.builtJacobian.Fits := fun e he => by
  obtain ⟨hr, hc, -⟩ := mem_patternOf.1 (show (e.1, e.2) ∈ p.builtJacobian.pattern from he)
  exact ⟨hr, hc⟩

/-- Direct solves for totals factorize the matrix of the Jacobian. -/
theorem diagonalBlock_totalOperator {q : Problem α} (h : q.totalJacobian = some q.builtJacobian) :
    q.totalOperator.diagonalBlock (.upTo q.totalOperator.dim) =
      .ok (Factors.rowsOf q.totalMatrix) := by
  rw [totalOperator_eq h]
  exact congrArg Except.ok (Operator.blockOfMatrix_upTo q.builtJacobian.matrix q.arrangement.size)

/-- **Direct solves for totals are exact** where the factors of the Jacobian are regular. -/
theorem solvesExactly_of_regular {q : Problem α} (h : q.totalJacobian = some q.builtJacobian)
    (hdirect : q.options.totals.linear = .direct) (hregular : (Factors.ofRows q.arrangement.size
      (Operator.blockOfMatrix q.builtJacobian.matrix (.upTo q.arrangement.size))).isSingular =
        false) :
    q.totalMatrix.det ≠ 0 ∧ q.options.totals.linear.SolvesExactly q.totalOperator := by
  have hrows : (Factors.ofRows q.arrangement.size (Factors.rowsOf q.totalMatrix)).isSingular =
      false := by
    rwa [totalMatrix, ← Operator.blockOfMatrix_upTo]
  refine ⟨Factors.det_ne_zero_of_regular hrows, ?_⟩
  rw [hdirect]
  exact Direct.solvesExactly_of_regular (isMatrix_totalOperator h) (diagonalBlock_totalOperator h)
    hrows

/-- The pattern of the Jacobian is the same at every point. -/
theorem Follows.pattern_eq {p q : Problem α} (h : p.Follows q) :
    q.builtJacobian.pattern = p.builtJacobian.pattern := by
  rw [builtJacobian, h.arrangement, h.order, pattern_build h.assembly.units]
  rfl

/-- What has been prepared for totals. -/
structure Prepared (quantities inputs : List String) (pattern : List (Nat × Nat))
    (rows cols : Quantities α) (p q : Problem α) : Prop where
  of : p.resolveOf quantities = .ok rows
  wrt : p.resolveWrt inputs = .ok cols
  prepare : prepareTotals quantities inputs p = .ok (rows, cols) q
  rows_within : rows.Within q.arrangement.size
  cols_within : cols.Within q.arrangement.size
  jacobian : q.totalJacobian = some q.builtJacobian
  pattern : q.builtJacobian.pattern = pattern
  cache : q.cache.Sound

variable [Shown α] {m : Model α} {start : Problem α} {quantities inputs : List String}

open Model

/-- The same quantities, inputs and pattern are prepared wherever a problem has been brought. -/
theorem prepared_of_reached [BitPattern α] (hm : m.Built) (hsetup : m.setup = .ok start)
    (hof : ∀ name ∈ quantities, m.IsQuantity name)
    (hwrt : ∀ name ∈ inputs, m.IsIndependent name) :
    ∃ rows cols, ∀ p q, start.Reached p → linearizeAll p = .ok () q →
      Prepared quantities inputs start.builtJacobian.pattern rows cols p q := by
  have hstart := setup_spec hm.sound hsetup
  obtain ⟨hjacobian, hcache⟩ := start_invariant hstart
  obtain ⟨rows, cols, hrows, hcols, hrowsWithin, hcolsWithin⟩ :=
    resolve_of_follows hm.sound hstart (.refl start) hof hwrt
  refine ⟨rows, cols, fun p q hp hlinearize => ?_⟩
  have hfollows := hp.follows
  have hq : p.Follows q := .of_linearizeAll hlinearize
  have hrows' : p.resolveOf quantities = .ok rows := by
    rw [resolveOf_congr hfollows.assembly.entries hfollows.links]
    exact hrows
  have hcols' : p.resolveWrt inputs = .ok cols := by
    rw [resolveWrt_congr hfollows.assembly.entries]
    exact hcols
  have harrangement : q.arrangement = start.arrangement :=
    hq.arrangement.trans hfollows.arrangement
  refine ⟨hrows', hcols', ?_, by rwa [harrangement], by rwa [harrangement],
    (linearizeAll_spec p).2 () q hlinearize (hfollows.jacobian hjacobian),
    (Follows.trans _ _ _ hfollows hq).pattern_eq, hq.cache (hfollows.cache hcache)⟩
  simp only [prepareTotals, hrows', hcols', hlinearize]

omit [Shown α] in
/-- A coloring that is not found is computed. -/
theorem Prepared.computed [BitPattern α] {p q : Problem α}
    (h : Prepared quantities inputs pattern rows cols p q) {file : ColoringFile}
    (hremembered : q.cache.remembered
      (totalsSignature q.options.totals.coloring q.builtJacobian.pattern rows cols) = none)
    (hstored : q.cache.stored
      (totalsSignature q.options.totals.coloring q.builtJacobian.pattern rows cols) file = none)
    {c : Coloring} {s : Problem α × ColoringFile}
    (hcoloring : coloring quantities inputs (p, file) = .ok c s) :
    ∃ k, computeColoring q.options.totals.coloring q.builtJacobian rows cols = .ok k ∧
      c.pattern = k.pattern := by
  simp only [coloring, h.prepare, coloringAt, h.jacobian] at hcoloring
  split at hcoloring
  · rename_i answer cache file' hget
    cases hcoloring
    obtain ⟨k, hk, hanswer⟩ :=
      ColoringCache.computed_of_getOrCompute hremembered hstored hget
    exact ⟨k, hk, by rw [hanswer]; rfl⟩
  · cases hcoloring

/-- **Totals vanish where no chain of entries of the Jacobian leads**, in both modes. The random
samples of totals vanish there too, so the pattern of a coloring that is detected from them has no
such place, and totals that are computed with this coloring vanish there as well, at every other
point that the problem is brought to. -/
theorem totals_vanish [BitPattern α] (hm : m.Built) (hsetup : m.setup = .ok start) {p q : Problem α}
    (hp : start.Reached p) (hof : ∀ name ∈ quantities, m.IsQuantity name)
    (hwrt : ∀ name ∈ inputs, m.IsIndependent name) (hlinearize : linearizeAll p = .ok () q) :
    ∃ j rows cols, q.totalJacobian = some j ∧ p.resolveOf quantities = .ok rows ∧
      p.resolveWrt inputs = .ok cols ∧
      (∀ r values r', sampleTotals j rows cols r = .ok values r' →
        Vanishes j.pattern rows cols values) ∧
      (∀ s c, computeColoring s j rows cols = .ok c → ∀ i < rows.length, ∀ k ∈ c.pattern.row i,
        Leads j.pattern (rows.slots.getD i 0) (cols.slots.getD k 0)) ∧
      (∀ file c s, coloring quantities inputs (p, file) = .ok c s →
        q.cache.remembered (totalsSignature q.options.totals.coloring j.pattern rows cols) = none →
        q.cache.stored (totalsSignature q.options.totals.coloring j.pattern rows cols) file = none →
        Detected j rows cols c) ∧
      ∀ p' q', start.Reached p' → linearizeAll p' = .ok () q' → q'.totalMatrix.det ≠ 0 →
        q'.options.totals.linear.SolvesExactly q'.totalOperator →
        (∀ mode, ∃ t, totals quantities inputs mode p' = .ok t q' ∧
          t.shape = (rows.length, cols.length) ∧ Vanishes j.pattern rows cols t.values) ∧
        ∀ file, file.Trusted → ∀ c s, coloring quantities inputs (p', file) = .ok c s →
          Detected j rows cols c →
          ∃ t, totalsColored quantities inputs (p', file) = .ok t s ∧
            t.shape = (rows.length, cols.length) ∧ Vanishes j.pattern rows cols t.values := by
  obtain ⟨rows, cols, hprepared⟩ := prepared_of_reached hm hsetup hof hwrt
  have hpq := hprepared p q hp hlinearize
  have hfits := fits_builtJacobian q
  refine ⟨q.builtJacobian, rows, cols, hpq.jacobian, hpq.of, hpq.wrt, fun r values r' h =>
      vanishes_of_sampleTotals hfits hpq.rows_within hpq.cols_within h,
    fun s c h => (leads_of_computeColoring hfits hpq.rows_within hpq.cols_within h).2,
    fun file c s h hremembered hstored => ⟨_, hpq.computed hremembered hstored h⟩,
    fun p' q' hp' hlinearize' hJ hsolve => ?_⟩
  have hpq' := hprepared p' q' hp' hlinearize'
  have hop : q'.totalOperator.IsMatrix q'.totalMatrix := isMatrix_totalOperator hpq'.jacobian
  have hsupport : Supported q.builtJacobian.pattern q'.totalMatrix := by
    rw [hpq.pattern, ← hpq'.pattern]
    exact supported_toMatrix _ _ _
  refine ⟨fun mode => ⟨⟨rows.names, cols.names, (rows.length, cols.length),
      exactTotals q'.totalMatrix rows cols, solveCount rows cols mode⟩, ?_, rfl,
      vanishes_exactTotals hJ hsupport rows cols⟩,
    fun file hfile c s hcoloring ⟨settings, k, hk, hpattern⟩ => ?_⟩
  · simp only [totals, hpq'.prepare,
      totalsAt_eq hop hJ hsolve hpq'.rows_within hpq'.cols_within mode]
  · obtain ⟨q'', file'⟩ := s
    have hcoloringAt := hcoloring
    simp only [coloring, hpq'.prepare] at hcoloringAt
    obtain ⟨⟨cache, rfl⟩, hsound, hnrows, hncols⟩ :=
      (coloringAt_spec q' hfile rows cols).2 c q'' file' hcoloringAt hpq'.cache
    obtain ⟨hplaces, hleads⟩ :=
      leads_of_computeColoring hfits hpq.rows_within hpq.cols_within hk
    rw [← hpattern] at hplaces hleads
    obtain ⟨values, hvalues, hvanishes⟩ := vanishes_coloredTotalsAt (p := { q' with cache := cache })
      hop hJ hsolve hpq'.rows_within hpq'.cols_within hsound.separates hnrows hncols hplaces hleads
    refine ⟨⟨rows.names, cols.names, (rows.length, cols.length), values, c.solves⟩, ?_, rfl,
      hvanishes⟩
    simp only [totalsColored, hpq'.prepare, hcoloringAt, hvalues]

end Problem

/-! ### Two units side by side -/

namespace Doubling

open Problem

theorem built_twoUnits : twoUnits.Built :=
  .addUnit built ⟨by with_unfolding_all decide, by with_unfolding_all decide⟩ declare_second
    addUnit_second

/-- Two doubling units that are not connected, ready to run. -/
def sideBySide : Problem ℚ := okOr problem twoUnits.setup

theorem setup_twoUnits : twoUnits.setup = .ok sideBySide :=
  eq_ok_of_isOk _ (by with_unfolding_all decide)

/-- Their derivatives are refreshed. -/
def refreshedSideBySide : Problem ℚ := stateAfter (linearizeAll sideBySide)

theorem linearize_sideBySide : linearizeAll sideBySide = .ok () refreshedSideBySide :=
  (eq_ok_of_isResult (by decide +kernel)).choose_spec

theorem jacobian_sideBySide :
    refreshedSideBySide.totalJacobian = some refreshedSideBySide.builtJacobian :=
  (linearizeAll_spec sideBySide).2 () _ linearize_sideBySide
    (start_invariant (Model.setup_spec built_twoUnits.sound setup_twoUnits)).1

/-- No chain leads from the output of the first unit to the input of the second. -/
theorem not_leads_sideBySide : ¬ Jacobian.Leads refreshedSideBySide.builtJacobian.pattern 0 3 := by
  have hpattern : refreshedSideBySide.builtJacobian.pattern =
      [(0, 0), (0, 2), (1, 1), (1, 3), (2, 2), (3, 3)] := by decide +kernel
  have hclosed : ∀ k, Jacobian.Leads refreshedSideBySide.builtJacobian.pattern 0 k →
      k = 0 ∨ k = 2 := by
    intro k hk
    induction hk with
    | refl => exact .inl rfl
    | tail _ hstep ih =>
      rw [hpattern] at hstep
      simp only [List.mem_cons, Prod.mk.injEq, List.not_mem_nil, or_false] at hstep
      omega
  intro h
  have := hclosed 3 h
  omega

theorem isQuantity_sideBySide : ∀ name ∈ ["double.y"], twoUnits.IsQuantity name := by
  intro name hname
  obtain rfl := List.mem_singleton.1 hname
  refine ⟨component, ?_, Variable.named "y", .inl ?_, ?_⟩
  · rw [Model.units_addUnit addUnit_second, units_model]
    exact Array.mem_push_of_mem _ (Array.mem_singleton.2 rfl)
  · rw [isDeclared.discipline]
    exact List.mem_singleton.2 rfl
  · rw [Model.pathOf, isDeclared.name]
    rfl

theorem isIndependent_sideBySide :
    ∀ name ∈ ["double.x", "second.x"], twoUnits.IsIndependent name := by
  have hlinks : ∀ input, twoUnits.links.lookup input = none := by
    intro input
    rw [Model.links_addUnit addUnit_second, Model.links_addUnit addUnit_eq]
    rfl
  intro name hname
  rcases List.mem_pair.1 hname with rfl | rfl
  · refine ⟨component, ?_, Variable.named "x", ?_, hlinks _, ?_⟩
    · rw [Model.units_addUnit addUnit_second, units_model]
      exact Array.mem_push_of_mem _ (Array.mem_singleton.2 rfl)
    · rw [isDeclared.discipline]
      exact List.mem_singleton.2 rfl
    · rw [Model.pathOf, isDeclared.name]
      rfl
  · refine ⟨second, ?_, Variable.named "x", ?_, hlinks _, ?_⟩
    · rw [Model.units_addUnit addUnit_second]
      exact Array.mem_push_self
    · rw [isDeclared_second.discipline]
      exact List.mem_singleton.2 rfl
    · rw [Model.pathOf, isDeclared_second.name]
      rfl

/-- Direct solves are exact for both units. -/
theorem regular_sideBySide : refreshedSideBySide.totalMatrix.det ≠ 0 ∧
    refreshedSideBySide.options.totals.linear.SolvesExactly refreshedSideBySide.totalOperator := by
  have hdirect : refreshedSideBySide.options.totals.linear = .direct := by
    rw [(linearizeAll_spec sideBySide).1.options (q := refreshedSideBySide),
      (Model.setup_spec built_twoUnits.sound setup_twoUnits).options,
      Model.options_addUnit addUnit_second, Model.options_addUnit addUnit_eq]
    rfl
  exact solvesExactly_of_regular jacobian_sideBySide hdirect (by decide +kernel)

theorem trusted_absent : ColoringFile.absent.Trusted := fun _ _ _ h => nomatch h

/-- No coloring has been kept yet. -/
theorem remembered_sideBySide (s : Signature) : refreshedSideBySide.cache.remembered s = none := by
  have hcache : refreshedSideBySide.cache.current = none := by decide +kernel
  rw [ColoringCache.remembered, hcache]
  rfl

theorem stored_sideBySide (s : Signature) :
    refreshedSideBySide.cache.stored s .absent = none := by
  unfold ColoringCache.stored
  split <;> rfl

/-- **The output of one unit does not depend on the input of the other**, with and without the
coloring that is detected. -/
theorem totals_of_sideBySide : (∀ name ∈ ["double.y"], twoUnits.IsQuantity name) ∧
    (∀ name ∈ ["double.x", "second.x"], twoUnits.IsIndependent name) ∧
    linearizeAll sideBySide = .ok () refreshedSideBySide ∧
    refreshedSideBySide.totalMatrix.det ≠ 0 ∧
    refreshedSideBySide.options.totals.linear.SolvesExactly refreshedSideBySide.totalOperator ∧
    (∀ mode, ∃ t, totals ["double.y"] ["double.x", "second.x"] mode sideBySide =
      .ok t refreshedSideBySide ∧ Vec.entry t.values 1 = 0) ∧
    ∃ c s t, coloring ["double.y"] ["double.x", "second.x"] (sideBySide, .absent) = .ok c s ∧
      totalsColored ["double.y"] ["double.x", "second.x"] (sideBySide, .absent) = .ok t s ∧
      Vec.entry t.values 1 = 0 := by
  obtain ⟨hdet, hsolve⟩ := regular_sideBySide
  obtain ⟨j, rows, cols, hj, hrows, hcols, -, -, hdetected, hat⟩ := totals_vanish built_twoUnits
    setup_twoUnits .start isQuantity_sideBySide isIndependent_sideBySide linearize_sideBySide
  obtain rfl : refreshedSideBySide.builtJacobian = j :=
    Option.some.inj (jacobian_sideBySide.symm.trans hj)
  have hrowsEntries : rows.entries = [(0, 1)] := by
    have hentries : (okOr .empty (sideBySide.resolveOf ["double.y"])).entries = [(0, 1)] := by
      decide +kernel
    rwa [hrows] at hentries
  have hcolsEntries : cols.entries = [(2, 1), (3, 1)] := by
    have hentries : (okOr .empty (sideBySide.resolveWrt ["double.x", "second.x"])).entries =
        [(2, 1), (3, 1)] := by decide +kernel
    rwa [hcols] at hentries
  have hzero : ∀ {values}, Vanishes refreshedSideBySide.builtJacobian.pattern rows cols values →
      Vec.entry values 1 = 0 := by
    intro values h
    have hentry := h.zero 0 (by simp [Quantities.length, hrowsEntries]) 1
      (by simp [Quantities.length, hcolsEntries])
    simp only [Quantities.slots, hrowsEntries, hcolsEntries, zero_mul, zero_add] at hentry
    exact hentry not_leads_sideBySide
  obtain ⟨htotals, hcolored⟩ := hat sideBySide refreshedSideBySide .start linearize_sideBySide hdet
    hsolve
  obtain ⟨c, hc⟩ := eq_ok_of_isResult (show isResult (coloring ["double.y"] ["double.x", "second.x"]
    (sideBySide, .absent)) = true by decide +kernel)
  obtain ⟨t, ht, -, hvanishes⟩ := hcolored .absent trusted_absent c _ hc
    (hdetected .absent c _ hc (remembered_sideBySide _) (stored_sideBySide _))
  refine ⟨isQuantity_sideBySide, isIndependent_sideBySide, linearize_sideBySide, hdet, hsolve,
    fun mode => ?_, c, _, t, hc, ht, hzero hvanishes⟩
  obtain ⟨t, ht, -, hvanishes⟩ := htotals mode
  exact ⟨t, ht, hzero hvanishes⟩

end Doubling

end Mdao
