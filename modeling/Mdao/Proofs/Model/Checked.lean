import Mathlib
import Mdao.Proofs.Model.Approximated
import Mdao.Proofs.Model.Differences

/-!
# Checks of totals

A check compares totals by solves with the Jacobian over all slots with totals that are found
otherwise: by runs of the whole model at changed inputs, or by solves with a Jacobian that is
assembled from approximated columns. In a model of affine units without coupled blocks all of them
are entries of the same inverse, so the check finds no error, at whatever point and by whatever
method (`Problem.checkTotals_exact`). What may happen instead is that a direct solve takes the
Jacobian for singular.
-/

namespace Mdao

open Vec Matrix

variable {α : Type} [ExactScalar α]

/-! ### Comparisons without error -/

/-- Compared with itself, a block has no error. -/
theorem DerivativeCheck.compare_self (quantity input : String) (b : DenseBlock α) :
    compare quantity input b b = ⟨quantity, input, b, b, 0, 0⟩ := by
  unfold compare
  simp only [norm_sub_self, zero_div, ite_self]

namespace Totals

/-- **A check in which totals pass**: there is one comparison for each pair of a quantity and an
input, of the block of the totals with an equal one. -/
structure Passes (t : Totals α) (quantities inputs : List String)
    (checks : List (DerivativeCheck α)) : Prop where
  pairs : checks.map (fun c => (c.quantity, c.input)) =
    quantities.flatMap fun name => inputs.map fun input => (name, input)
  analytic : ∀ c ∈ checks, t.get? c.quantity c.input = some c.analytic
  approx : ∀ c ∈ checks, c.approx = c.analytic
  absError : ∀ c ∈ checks, c.absError = 0

/-- Totals in which the block of each pair is found by its names pass a check against themselves. -/
theorem passes_self {t : Totals α}
    (h : ∀ r ∈ t.rows, ∀ c ∈ t.cols, t.get? r.1 c.1 = some (t.block r.2 c.2)) :
    t.Passes (t.rows.map Prod.fst) (t.cols.map Prod.fst)
      (t.blocks.filterMap fun (quantity, input, block) =>
        (t.get? quantity input).map fun b => DerivativeCheck.compare quantity input block b) := by
  have hblock : ∀ b ∈ t.blocks, t.get? b.1 b.2.1 = some b.2.2 := fun b hb => by
    obtain ⟨r, hr, hb⟩ := List.mem_flatMap.1 hb
    obtain ⟨c, hc, rfl⟩ := List.mem_map.1 hb
    exact h r hr c hc
  have hchecks : (t.blocks.filterMap fun (quantity, input, block) =>
      (t.get? quantity input).map fun b => DerivativeCheck.compare quantity input block b) =
      t.blocks.map fun b => ⟨b.1, b.2.1, b.2.2, b.2.2, 0, 0⟩ := by
    rw [← List.filterMap_eq_map]
    refine List.filterMap_congr fun b hb => ?_
    simp only [hblock b hb, Option.map_some, DerivativeCheck.compare_self, Function.comp_apply]
  rw [hchecks]
  refine ⟨?_, fun c hc => ?_, fun c hc => ?_, fun c hc => ?_⟩
  · simp only [blocks, List.map_flatMap, List.map_map, List.flatMap_map]
    rfl
  all_goals obtain ⟨b, hb, rfl⟩ := List.mem_map.1 hc
  · exact hblock b hb
  · rfl
  · rfl

end Totals

namespace Problem

open Model

/-- In exact totals, each pair of names with its entries finds its own block, also where a name is
there more than once. -/
theorem get?_exactTotals {n : Nat} {J : Matrix (Fin n) (Fin n) α} {rows cols : Quantities α}
    {t : Totals α} (ht : t = ⟨rows.names, cols.names, (rows.length, cols.length),
      exactTotals J rows cols, t.solves⟩)
    {lookupOf lookupWrt : String → Except StructureError (Span × α)}
    (hrows : TellsEach lookupOf rows) (hcols : TellsEach lookupWrt cols) {r w : String × Span}
    (hr : r ∈ rows.names) (hw : w ∈ cols.names) : t.get? r.1 w.1 = some (t.block r.2 w.2) := by
  obtain ⟨rowSpan, hrowSpan⟩ :=
    Option.isSome_iff_exists.1 (isSome_span? (List.mem_map.2 ⟨r, hr, rfl⟩))
  obtain ⟨colSpan, hcolSpan⟩ :=
    Option.isSome_iff_exists.1 (isSome_span? (List.mem_map.2 ⟨w, hw, rfl⟩))
  obtain ⟨s, scale, hlookup, hsize, -, hentries⟩ := hrows _ (mem_of_span? hrowSpan)
  obtain ⟨s', scale', hlookup', hsize', -, hentries'⟩ := hrows _ hr
  obtain ⟨v, factor, hfound, hwidth, -, hcolumns⟩ := hcols _ (mem_of_span? hcolSpan)
  obtain ⟨v', factor', hfound', hwidth', -, hcolumns'⟩ := hcols _ hw
  obtain ⟨rfl, rfl⟩ := Prod.mk.inj (Except.ok.inj (hlookup.symm.trans hlookup'))
  obtain ⟨rfl, rfl⟩ := Prod.mk.inj (Except.ok.inj (hfound.symm.trans hfound'))
  rw [block_exactTotals ht hsize' hentries' hwidth' hcolumns',
    ← block_exactTotals ht hsize hentries hwidth hcolumns, ht]
  simp only [Totals.get?, hrowSpan, hcolSpan]

/-! ### Numerical totals -/

variable {m : Model α} {start p q : Problem α} {f : String → Array α → Array α}
  {A : String → Nat → Nat → α} {names quantities inputs : List String} {rows cols : Quantities α}

/-- The factors of the Jacobian over all slots count as singular. -/
def CountsAsSingular (q : Problem α) : Prop :=
  (Factors.ofRows q.arrangement.size (Factors.rowsOf q.totalMatrix)).isSingular = true

/-- Direct solves with the Jacobian of a problem, from whatever operator has its rows. -/
theorem withLinear_direct {op : Operator α} (hop : op.IsMatrix q.totalMatrix)
    (hblock : op.diagonalBlock (.upTo op.dim) = .ok (Factors.rowsOf q.totalMatrix))
    (hrows : rows.Within q.arrangement.size) (hcols : cols.Within q.arrangement.size) (mode : Mode) :
    withLinear (do
      LinearConfig.direct.setup op
      solveTotals .direct op rows cols mode) = .ok (exactTotals q.totalMatrix rows cols) ∨
    q.CountsAsSingular ∧ withLinear (do
      LinearConfig.direct.setup op
      solveTotals .direct op rows cols mode) = .error (.linear .singularJacobian) := by
  rcases solveTotals_direct hop hblock hrows hcols mode with
    ⟨m0, m1, hsetup, hvalues, -⟩ | ⟨m0, m1, hsingular, hsetup, hfails⟩
  · exact .inl (withLinear_eq_ok hsetup hvalues)
  · refine .inr ⟨hsingular, ?_⟩
    rw [withLinear, bind_of_ok _ hsetup, hfails]

/-- So totals by direct solves are the exact totals. -/
theorem totalsAt_direct (hjacobian : q.totalJacobian = some q.builtJacobian)
    (hdirect : q.options.totals.linear = .direct) (hrows : rows.Within q.arrangement.size)
    (hcols : cols.Within q.arrangement.size) (mode : Mode) :
    q.totalsAt rows cols mode = .ok ⟨rows.names, cols.names, (rows.length, cols.length),
      exactTotals q.totalMatrix rows cols, solveCount rows cols mode⟩ ∨
    q.CountsAsSingular ∧ q.totalsAt rows cols mode = .error (.linear .singularJacobian) := by
  unfold totalsAt
  rw [hdirect]
  rcases withLinear_direct (isMatrix_totalOperator hjacobian)
    (diagonalBlock_totalOperator hjacobian) hrows hcols mode with hvalues | ⟨hsingular, hfails⟩
  · exact .inl (bind_eq_ok.2 ⟨_, hvalues, rfl⟩)
  · refine .inr ⟨hsingular, ?_⟩
    simp only [hfails]
    rfl

namespace Differentiated

/-- Totals from a Jacobian whose columns are approximated. -/
theorem approximateTotals_eq (h : Differentiated m start f A q)
    (hrows : rows.Within q.arrangement.size) (hcols : cols.Within q.arrangement.size)
    {method : Method α} (hmethod : method.StepNeZero) :
    (∃ p, approximateTotals rows cols method q = .ok (exactTotals q.totalMatrix rows cols) p) ∨
      q.CountsAsSingular ∧
        ∃ p, approximateTotals rows cols method q = .error (.linear .singularJacobian) p := by
  obtain ⟨matrix, p, happrox, harrangement, hmatrix, hentries⟩ := h.approximateJacobian_eq hmethod
  have hop : (Operator.ofMatrix q.arrangement.size matrix).IsMatrix q.totalMatrix :=
    hmatrix ▸ Operator.isMatrix_of_product rfl (fun _ _ => rfl) hentries
  have hblock : (Operator.ofMatrix q.arrangement.size matrix).diagonalBlock
      (.upTo q.arrangement.size) = .ok (Factors.rowsOf q.totalMatrix) :=
    hmatrix ▸ congrArg Except.ok (Operator.blockOfMatrix_upTo matrix q.arrangement.size)
  unfold approximateTotals
  simp only [happrox, harrangement]
  rcases withLinear_direct hop hblock hrows hcols .fwd with hvalues | ⟨hsingular, hfails⟩
  · exact .inl ⟨p, by rw [hvalues]⟩
  · exact .inr ⟨hsingular, p, by rw [hfails]⟩

/-- **Totals by any method are the exact totals.** -/
theorem numericalTotals_eq (h : Differentiated m start f A q) (hoptions : m.options = .default)
    (hff : m.FeedForward) (hnames : ∀ name ∈ names, m.IsQuantity name)
    (hresolve : start.resolveOf names = .ok rows) (hrows : rows.Within q.arrangement.size)
    (hcols : cols.Within q.arrangement.size)
    (hindependent : ∀ k ∈ cols.slots, k ∈ q.arrangement.independentsIn (.upTo q.arrangement.size))
    {method : Method α} (hmethod : method.StepNeZero) :
    (∃ p, numericalTotals names rows cols method q =
      .ok (exactTotals q.totalMatrix rows cols) p) ∨
      q.CountsAsSingular ∧
        ∃ p, numericalTotals names rows cols method q = .error (.linear .singularJacobian) p := by
  cases method with
  | exact =>
    exact .inl (h.differenceTotals_eq hoptions hff hnames hresolve hrows hindependent
      FdOptions.default_step_ne_zero)
  | fd o =>
    exact .inl (h.differenceTotals_eq hoptions hff hnames hresolve hrows hindependent hmethod)
  | cs step => exact h.approximateTotals_eq hrows hcols hmethod

/-- The totals by the Jacobian that the units have. -/
theorem totalsAt_eq_ok (h : Differentiated m start f A q) (hoptions : m.options = .default)
    (hrows : rows.Within q.arrangement.size) (hcols : cols.Within q.arrangement.size)
    (mode : Mode) :
    q.totalsAt rows cols mode = .ok ⟨rows.names, cols.names, (rows.length, cols.length),
      exactTotals q.totalMatrix rows cols, solveCount rows cols mode⟩ ∨
    q.CountsAsSingular ∧ q.totalsAt rows cols mode = .error (.linear .singularJacobian) := by
  have hdirect : q.options.totals.linear = .direct := by
    rw [h.follows.options, h.setUp.options, hoptions]
    rfl
  exact totalsAt_direct h.jacobian hdirect hrows hcols mode

/-- Once the derivatives are refreshed, a check finds no error, or a solve takes the Jacobian for
singular. -/
theorem checkTotals_eq (h : Differentiated m start f A q) (hp : start.Follows p)
    (hlinearize : linearizeAll p = .ok () q) (hoptions : m.options = .default)
    (hff : m.FeedForward) (hof : ∀ name ∈ quantities, m.IsQuantity name)
    (hwrt : ∀ name ∈ inputs, m.IsIndependent name) (mode : Mode) {method : Method α}
    (hmethod : method.StepNeZero) :
    (q.CountsAsSingular ∧ ∃ p',
      checkTotals quantities inputs mode method p = .error (.linear .singularJacobian) p') ∨
    ∃ t checks p', totals quantities inputs mode p = .ok t q ∧
      checkTotals quantities inputs mode method p = .ok checks p' ∧
      t.Passes quantities inputs checks := by
  obtain ⟨rows, cols, hrows, hcols, hrowsWithin, hcolsWithin⟩ :=
    resolve_of_follows h.built.sound h.setUp hp hof hwrt
  have harrangement : p.arrangement = q.arrangement :=
    hp.arrangement.trans h.follows.arrangement.symm
  rw [harrangement] at hrowsWithin hcolsWithin
  have hprepare : prepareTotals quantities inputs p = .ok (rows, cols) q := by
    simp only [prepareTotals, hrows, hcols, hlinearize]
  obtain ⟨hrowsTell, hrowNames⟩ := names_resolve (tells_empty _) hrows
  obtain ⟨hcolsTell, hcolNames⟩ := names_resolve (tells_empty _) hcols
  have hindependent : ∀ k ∈ cols.slots,
      k ∈ q.arrangement.independentsIn (.upTo q.arrangement.size) := fun k hk => by
    obtain ⟨r, hr, hkr⟩ := slots_of_resolveWrt h.setUp hp hwrt hcols hk
    rw [harrangement] at hr
    exact ((independentsIn_eq h.placed.laid).2 k).2 ⟨r, (List.mem_filter.1 hr).1, hkr⟩
  have hresolve : start.resolveOf quantities = .ok rows := by
    rw [← resolveOf_congr hp.assembly.entries hp.links]
    exact hrows
  obtain ⟨t, ht⟩ : ∃ t : Totals α, t = ⟨rows.names, cols.names, (rows.length, cols.length),
    exactTotals q.totalMatrix rows cols, solveCount rows cols mode⟩ := ⟨_, rfl⟩
  rcases h.totalsAt_eq_ok hoptions hrowsWithin hcolsWithin mode with hanalytic | ⟨hsingular, hfails⟩
  · rw [← ht] at hanalytic
    rcases h.numericalTotals_eq hoptions hff hof hresolve hrowsWithin hcolsWithin hindependent
      hmethod with ⟨p', hnumerical⟩ | ⟨hsingular, p', hfails⟩
    · have hsame : { t with values := exactTotals q.totalMatrix rows cols } = t := by rw [ht]
      have hpasses := Totals.passes_self fun r hr w hw => get?_exactTotals (t := t) (by rw [ht])
        hrowsTell hcolsTell (by rwa [ht] at hr) (by rwa [ht] at hw)
      rw [show t.rows = rows.names by rw [ht], show t.cols = cols.names by rw [ht], hrowNames,
        hcolNames] at hpasses
      refine .inr ⟨t, _, p', ?_, ?_, hpasses⟩
      · simp only [totals, hprepare, hanalytic]
      · simp only [checkTotals, hprepare, hanalytic, hnumerical, hsame]
    · refine .inl ⟨hsingular, p', ?_⟩
      simp only [checkTotals, hprepare, hanalytic, hfails]
  · refine .inl ⟨hsingular, q, ?_⟩
    simp only [checkTotals, hprepare, hfails]

end Differentiated

/-- **A check of totals finds no error in a model of affine units without coupled blocks**, however
the problem has been used and whatever its slots are, converged or not: for any quantities, also
connected inputs in their own units of measure, with respect to any independent inputs, in both
modes, and by every method with a step other than zero. There is one comparison for each pair,
unless a direct solve takes the Jacobian for singular. -/
theorem checkTotals_exact [BitPattern α] [Shown α] (hm : m.Built) (hoptions : m.options = .default)
    (hff : m.FeedForward) (haffine : ∀ c ∈ m.units, c.AffineWith (f c.name) (A c.name))
    (hcovers : ∀ c ∈ m.units, c.LinearizesTo (A c.name)) :
    ∃ start, m.setup = .ok start ∧ ∀ p, start.Reached p → ∀ slots,
      slots.size = p.store.slots.size → ∀ quantities inputs,
      (∀ name ∈ quantities, m.IsQuantity name) → (∀ name ∈ inputs, m.IsIndependent name) →
      ∀ (mode : Mode) (method : Method α), method.StepNeZero →
        ∃ q, linearizeAll (p.withSlots slots) = .ok () q ∧
          ((q.CountsAsSingular ∧ ∃ p', checkTotals quantities inputs mode method
            (p.withSlots slots) = .error (.linear .singularJacobian) p') ∨
          ∃ t checks p', totals quantities inputs mode (p.withSlots slots) = .ok t q ∧
            checkTotals quantities inputs mode method (p.withSlots slots) = .ok checks p' ∧
            t.Passes quantities inputs checks) := by
  obtain ⟨start, hstart, h⟩ := setup_of_default hm.sound hoptions
  refine ⟨start, hstart, fun p hp slots hslots quantities inputs hof hwrt mode method hmethod => ?_⟩
  have haged : start.Aged (p.withSlots slots) :=
    ((keptByUse_aged hm.sound h).withSlots p hslots).2 (hp.aged hm.sound h)
  have hstrict : start.options.strictPartials = none := by
    rw [h.options, hoptions]
    rfl
  obtain ⟨q, hq, hdifferentiated⟩ :=
    exists_differentiated hm h hstrict haffine hcovers haged
  exact ⟨q, hq, hdifferentiated.checkTotals_eq haged.follows hq hoptions hff hof hwrt mode hmethod⟩

end Problem

/-! ### A chain of two units -/

namespace Doubling

open Problem

/-- A component of the doubling discipline. -/
structure IsDoubling (c : Component ℚ) : Prop where
  discipline : c.discipline = .explicit discipline
  inputs : c.inputs = single "x"
  outputs : c.outputs = single "y"
  constant : c.partials.blocks.all PartialBlock.constant = true
  groups : c.approximationGroups.isEmpty = true
  entries : (c.partials.blocks.toList.flatMap (c.blockEntries 1)).map
    (fun e => (e.row, e.column, e.value)) = [(0, .input 0, 2)]

/-- Both units of the chain double. -/
theorem isDoubling_chain : ∀ c ∈ chain.units, IsDoubling c := by
  rw [units_chain]
  intro c hc
  rcases List.mem_cons.1 (Array.mem_toList_iff.2 hc) with rfl | hc
  · exact ⟨isDeclared.discipline, by with_unfolding_all decide, by with_unfolding_all decide,
      by with_unfolding_all decide, by with_unfolding_all decide, by with_unfolding_all decide⟩
  · obtain rfl := List.mem_singleton.1 hc
    exact ⟨isDeclared_second.discipline, by with_unfolding_all decide,
      by with_unfolding_all decide, by with_unfolding_all decide, by with_unfolding_all decide,
      by with_unfolding_all decide⟩

namespace IsDoubling

variable {c : Component ℚ} (h : IsDoubling c)

include h

/-- The doubling discipline is affine with the slope 2. -/
theorem affineWith : c.AffineWith double fun _ _ => 2 where
  computes := computes_double h.discipline h.inputs h.outputs
  change x x' _ _ i hi := by
    rw [h.outputs] at hi
    obtain rfl : i = 0 := Nat.lt_one_iff.1 hi
    rw [h.inputs]
    simp [double, single, entry]
    ring
  complex d hd' hcomplex := by
    rw [h.discipline] at hd'
    cases hd'
    cases hcomplex

/-- It writes no derivatives of its own. -/
theorem ownLinearization_eq (x y : Array ℚ) : c.ownLinearization x y = .nothing := by
  unfold Component.ownLinearization
  rw [h.discipline]
  rfl

/-- A linearization leaves its component as it is. -/
theorem linearize_eq (x y : Array ℚ) : c.linearize x y none = .ok ⟨⟩ c := by
  have hlinearize : c.linearizeOwn x y = .ok ⟨⟩ c := by
    rw [Component.linearizeOwn_eq, h.ownLinearization_eq]
    rfl
  have hprobed : c.linearizeProbed x y = .ok ⟨⟩ c := by
    unfold Component.linearizeProbed Component.capabilities
    rw [h.discipline]
    rfl
  have happroximate : c.approximate x y = .ok ⟨⟩ c := by
    unfold Component.approximate
    simp only [h.groups, if_true]
  simp only [Component.linearize, hlinearize, hprobed, happroximate]

/-- Its constant derivative is the slope. -/
theorem hasSlopes : c.HasSlopes fun _ _ => 2 := by
  intro dx hdx i hi
  rw [h.outputs] at hi
  obtain rfl : i = 0 := Nat.lt_one_iff.1 hi
  rw [differential_eq h.entries, h.inputs]
  simp [single]

/-- It is there after every linearization. -/
theorem linearizesTo : c.LinearizesTo fun _ _ => 2 := by
  have hafresh : c.LinearizesAfresh := by
    refine Component.linearizesAfresh_of_exact (fun x y _ _ _ j i hji => ?_)
      (fun x y _ _ w hw => ?_) fun x y _ _ => ?_
    · obtain ⟨b, hb, hfalse, -⟩ := hji
      have htrue := Array.all_eq_true'.1 h.constant b (Array.mem_of_getElem? hb)
      rw [hfalse] at htrue
      cases htrue
    · rw [h.ownLinearization_eq] at hw
      cases hw
    · rw [h.ownLinearization_eq]
      rfl
  exact hafresh.linearizesTo fun x y _ _ => ⟨c, h.linearize_eq x y, h.hasSlopes⟩

end IsDoubling

theorem affineWith_chain : ∀ c ∈ chain.units, c.AffineWith double fun _ _ => 2 := fun c hc =>
  (isDoubling_chain c hc).affineWith

theorem linearizesTo_chain : ∀ c ∈ chain.units, c.LinearizesTo fun _ _ => 2 := fun c hc =>
  (isDoubling_chain c hc).linearizesTo

theorem isQuantity_chain : ∀ name ∈ ["second.y", "second.x"], chain.IsQuantity name := by
  have hmem : second ∈ chain.units := by
    rw [units_chain]
    exact Array.mem_of_getElem? (i := 1) rfl
  intro name hname
  rcases List.mem_cons.1 hname with rfl | hname
  · refine ⟨second, hmem, Variable.named "y", .inl ?_, ?_⟩
    · rw [isDeclared_second.discipline]
      exact List.mem_singleton.2 rfl
    · rw [Model.pathOf, isDeclared_second.name]
      rfl
  · obtain rfl := List.mem_singleton.1 hname
    refine ⟨second, hmem, Variable.named "x", .inr ?_, ?_⟩
    · rw [isDeclared_second.discipline]
      exact List.mem_singleton.2 rfl
    · rw [Model.pathOf, isDeclared_second.name]
      rfl

theorem isIndependent_chain : ∀ name ∈ ["double.x"], chain.IsIndependent name := by
  intro name hname
  obtain rfl := List.mem_singleton.1 hname
  refine ⟨component, ?_, Variable.named "x", ?_, ?_, ?_⟩
  · rw [units_chain]
    exact Array.mem_of_getElem? (i := 0) rfl
  · rw [isDeclared.discipline]
    exact List.mem_singleton.2 rfl
  · decide +kernel
  · rw [Model.pathOf, isDeclared.name]
    rfl

/-- From slots at which no residual vanishes, a check by complex steps, which neither unit supports,
finds no error in the totals of the last output and of the connected input. -/
theorem checkTotals_chain : chain.Built ∧ chain.options = .default ∧ chain.FeedForward ∧
    (∀ c ∈ chain.units, c.AffineWith double fun _ _ => 2) ∧
    (∀ c ∈ chain.units, c.LinearizesTo fun _ _ => 2) ∧ ∃ start, chain.setup = .ok start ∧
      ∃ t checks p' q, totals ["second.y", "second.x"] ["double.x"] .rev
          (start.withSlots #[5, 7, 3]) = .ok t q ∧
        checkTotals ["second.y", "second.x"] ["double.x"] .rev (.cs 3)
          (start.withSlots #[5, 7, 3]) = .ok checks p' ∧
        t.Passes ["second.y", "second.x"] ["double.x"] checks := by
  obtain ⟨start, hstart, hchecks⟩ := checkTotals_exact (f := fun _ => double)
    (A := fun _ _ _ => 2) built_chain options_chain feedForward_chain affineWith_chain
    linearizesTo_chain
  refine ⟨built_chain, options_chain, feedForward_chain, affineWith_chain, linearizesTo_chain, start,
    hstart, ?_⟩
  have hset : okOr problem chain.setup = start := by rw [hstart]; rfl
  have hsize : start.store.slots.size = 3 := by
    rw [← hset]
    decide +kernel
  have hresult : isResult (checkTotals ["second.y", "second.x"] ["double.x"] .rev (.cs 3)
      (start.withSlots #[5, 7, 3])) = true := by
    rw [← hset]
    decide +kernel
  obtain ⟨q, -, ⟨-, p', hfails⟩ | ⟨t, checks, p', htotals, hcheck, hpasses⟩⟩ := hchecks start .start
    #[5, 7, 3] hsize.symm _ _ isQuantity_chain isIndependent_chain .rev (.cs 3)
    (show (3 : ℚ) ≠ 0 by norm_num)
  · rw [hfails] at hresult
    cases hresult
  · exact ⟨t, checks, p', q, htotals, hcheck, hpasses⟩

end Doubling

end Mdao
