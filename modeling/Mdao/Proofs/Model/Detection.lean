import Mathlib
import Mdao.Proofs.Model.Structure

/-!
# What the pattern of totals depends on

The random matrices of detection have the pattern of the Jacobian and nothing else of it. A column is
kept for an entry of the totals if the mean magnitude of that entry over these matrices is above the
tolerance, and the factor of the quantity is part of what is averaged
(`Problem.row_of_computeColoring`).

So an input that is connected with a conversion gets the columns of its source where the factor does
not carry a mean across the tolerance: always with a tolerance of zero or a factor of magnitude one.
Otherwise it may lose some of them or get more, and what it has lost is zero in totals with this
coloring (`Problem.columns_of_connected`).
-/

namespace Mdao

open Vec Matrix

variable {α : Type} [ExactScalar α]

/-! ### Means over samples -/

namespace Pattern

variable {ρ : Type} {sample : EStateM String ρ (Array α)} {next : ρ → ρ}

/-- The entries of samples that are told by the state before each. -/
theorem Draws.map_entry {n k : Nat} {f : ρ → α} {drawn : List (Array α)} {r r' : ρ}
    (h : Draws sample n r drawn r')
    (hsample : ∀ r values r', sample r = .ok values r' → r' = next r ∧ entry values k = f r) :
    drawn.map (fun x => |entry x k|) = (List.iterate next r drawn.length).map fun r => |f r| := by
  induction h with
  | nil r => rfl
  | cons first size others ih =>
    obtain ⟨rfl, hf⟩ := hsample _ _ _ first
    rw [List.map_cons, ih, hf]
    rfl

/-- **A detected row has the columns whose mean magnitude is above the tolerance.** -/
theorem row_of_detect {nrows ncols i : Nat} {s : ColoringSettings α} {r r' : ρ} {p : Pattern}
    {f : Nat → ρ → α} (h : detect nrows ncols s sample r = .ok p r') (hi : i < nrows)
    (hsample : ∀ r values r', sample r = .ok values r' →
      r' = next r ∧ ∀ k < ncols, entry values (i * ncols + k) = f k r) :
    p.row i = (List.range ncols).filter fun k => decide (s.tol <
      ((List.iterate next r (max s.numFullJacs 1)).map fun r => |f k r|).sum *
        (1 / ((max s.numFullJacs 1 : Nat) : α))) := by
  obtain ⟨drawn, hdrawn, hlength, rfl⟩ := detect_iff.1 h
  rw [row_aboveMean hi]
  refine List.filter_congr fun k hk => ?_
  have hentries := hdrawn.map_entry fun r values r' hvalues =>
    (hsample r values r' hvalues).imp_right fun hentry => hentry k (List.mem_range.1 hk)
  rw [meanMagnitude, hentries, hlength, mul_one_div]

end Pattern

namespace Problem

open Model

/-- The random matrices of the samples. -/
def sampledMatrices (pattern : List (Nat × Nat)) (s : ColoringSettings α) : List (SparseMatrix α) :=
  (List.iterate (fun r => (randomized (α := α) pattern r).2) (.seeded s.seed)
    (max s.numFullJacs 1)).map fun r => (randomized pattern r).1

/-- The mean magnitude of an entry of the inverse over these matrices. -/
noncomputable def meanInverse (pattern : List (Nat × Nat)) (s : ColoringSettings α)
    (n row col : Nat) : α :=
  ((sampledMatrices pattern s).map fun m => |coeff (m.toMatrix n)⁻¹ row col|).sum *
    (1 / ((max s.numFullJacs 1 : Nat) : α))

variable {rows cols : Quantities α}

/-- **The columns of an entry of the totals**: those for which the mean magnitude of the entry of the
inverse, times that of the factor of the quantity, is above the tolerance. -/
theorem row_of_computeColoring {j : Jacobian α} (hj : j.Fits) (hrows : rows.Within j.range.size)
    (hcols : cols.Within j.range.size) {s : ColoringSettings α} {c : Coloring}
    (h : computeColoring s j rows cols = .ok c) {i slot : Nat} {scale : α}
    (hentry : rows.entries[i]? = some (slot, scale)) :
    c.pattern.row i = (List.range cols.length).filter fun k => decide (s.tol <
      |scale| * meanInverse j.pattern s j.range.size slot (cols.slots.getD k 0)) := by
  have hi : i < rows.length := (List.getElem?_eq_some_iff.1 hentry).1
  obtain ⟨r, hdetect, -⟩ := detect_of_computeColoring h
  have hsample : ∀ r values r', sampleTotals j rows cols r = .ok values r' →
      r' = (randomized (α := α) j.pattern r).2 ∧ ∀ k < cols.length,
        entry values (i * cols.length + k) = scale *
          coeff ((randomized j.pattern r).1.toMatrix j.range.size)⁻¹ slot (cols.slots.getD k 0) := by
    intro r values r' hvalues
    obtain ⟨hr, rfl, -⟩ := exact_of_sampleTotals hj hrows hcols hvalues
    refine ⟨hr, fun k hk => ?_⟩
    rw [exactTotals, entry_rowMajor _ hi hk, totalAt_of_lt hk, List.getD_eq_getElem?_getD, hentry,
      Option.getD_some]
  rw [Pattern.row_of_detect hdetect hi hsample]
  refine List.filter_congr fun k _ => ?_
  simp only [abs_mul, List.sum_map_mul_left, mul_assoc, meanInverse, sampledMatrices, List.map_map,
    Function.comp_def]

/-! ### Inputs and their sources -/

/-- **The columns of a source and those of an input that it feeds**, given the factor of the
conversion on the way and the mean magnitudes of the entries of the inverse for the source. -/
structure CarriedOver (tol scale : α) (mean : Nat → α) (ncols : Nat) (given taken : List Nat) :
    Prop where
  mem_given : ∀ k, k ∈ given ↔ k < ncols ∧ tol < mean k
  mem_taken : ∀ k, k ∈ taken ↔ k < ncols ∧ tol < |scale| * mean k
  same : |scale| = 1 ∨ tol = 0 ∧ scale ≠ 0 → taken = given

theorem carriedOver_filter (tol scale : α) (mean : Nat → α) (ncols : Nat) :
    CarriedOver tol scale mean ncols ((List.range ncols).filter fun k => decide (tol < mean k))
      ((List.range ncols).filter fun k => decide (tol < |scale| * mean k)) := by
  refine ⟨fun k => ?_, fun k => ?_, fun h => List.filter_congr fun k _ => ?_⟩
  · rw [List.mem_filter, List.mem_range, decide_eq_true_iff]
  · rw [List.mem_filter, List.mem_range, decide_eq_true_iff]
  · rcases h with h | ⟨rfl, h⟩
    · rw [h, one_mul]
    · exact decide_eq_decide.2 (mul_pos_iff_of_pos_left (abs_pos.2 h))

variable {m : Model α} {start p q : Problem α} {quantities inputs : List String}

/-- An input and its source are read from the same slots, the input with the factor of the link. -/
theorem quantities_of_link (hm : m.Sound) (hstart : IsSetUp m start) (hfollows : start.Follows p)
    {c : Component α} {v : Variable α} {link : Link α} (hc : c ∈ m.units)
    (hv : v ∈ c.discipline.inputs) (hlink : m.links.lookup ⟨c.name, v.name⟩ = some link) :
    ∃ slots, slots.size = v.size ∧ p.quantity link.source.path = .ok (slots, 1) ∧
      p.quantity (pathOf c v) = .ok (slots, link.scale) := by
  obtain ⟨slots, hslots, hsize⟩ := hstart.laid.fed c hc v hv
  have hfeed : m.feedOf c v = (link.source.path, link.scale, link.offset) := by
    simp only [feedOf, hlink]
  rw [quantity_congr hfollows.assembly.entries hfollows.links]
  refine ⟨slots, hsize, ?_, ?_⟩
  · rw [hfeed] at hslots
    exact quantity_of_slotsOf hslots
  · rw [quantity_of_feed hm hstart.laid hstart.links hc hv hslots, hfeed]

/-- A quantity of interest has a run of rows, one for each of its slots. -/
theorem run_of_resolveOf (h : p.resolveOf quantities = .ok rows) {name : String}
    (hname : name ∈ quantities) {slots : Span} {scale : α}
    (hquantity : p.quantity name = .ok (slots, scale)) :
    ∃ span, Quantities.span? rows.names name = some span ∧ span.size = slots.size ∧
      ∀ d < slots.size, rows.entries[span.start + d]? = some (slots.start + d, scale) := by
  obtain ⟨htells, hfound⟩ := tells_resolve (tells_empty _) h
  obtain ⟨span, hspan⟩ := Option.isSome_iff_exists.1 (hfound name (.inl hname))
  obtain ⟨r, scale', hr, hsize, -, hentries⟩ := htells name span hspan
  obtain ⟨rfl, rfl⟩ := Prod.mk.inj (Except.ok.inj (hr.symm.trans hquantity))
  exact ⟨span, hspan, hsize, hentries⟩

variable [Shown α]

/-- **A connected input gets those columns of its source whose mean magnitude is above the tolerance
also after the conversion.** The mean magnitudes are those of entries of the inverse with random
numbers in the pattern of the Jacobian, which is the same at every point, so both rows are the same
if the factor has magnitude one or the tolerance is zero; a column of the source is lost if the
factor takes its mean down to the tolerance. A coloring that is found neither in memory nor in the
file is detected so, and totals with a coloring are zero in every column that a row has lost. -/
theorem columns_of_connected [BitPattern α] (hm : m.Built) (hsetup : m.setup = .ok start)
    (hp : start.Reached p) (hof : ∀ name ∈ quantities, m.IsQuantity name)
    (hwrt : ∀ name ∈ inputs, m.IsIndependent name) (hlinearize : linearizeAll p = .ok () q)
    {c : Component α} {v : Variable α} {link : Link α} (hc : c ∈ m.units)
    (hv : v ∈ c.discipline.inputs) (hlink : m.links.lookup ⟨c.name, v.name⟩ = some link)
    (htaken : pathOf c v ∈ quantities) (hgiven : link.source.path ∈ quantities) :
    ∃ rows cols slots taken given, p.resolveOf quantities = .ok rows ∧
      p.resolveWrt inputs = .ok cols ∧ p.quantity link.source.path = .ok (slots, 1) ∧
      p.quantity (pathOf c v) = .ok (slots, link.scale) ∧ slots.size = v.size ∧
      Quantities.span? rows.names link.source.path = some given ∧ given.size = v.size ∧
      Quantities.span? rows.names (pathOf c v) = some taken ∧ taken.size = v.size ∧
      (∀ s k, computeColoring s q.builtJacobian rows cols = .ok k → ∀ d < v.size,
        CarriedOver s.tol link.scale (fun j => meanInverse start.builtJacobian.pattern s
            start.arrangement.size (slots.start + d) (cols.slots.getD j 0)) cols.length
          (k.pattern.row (given.start + d)) (k.pattern.row (taken.start + d))) ∧
      (∀ file k s, coloring quantities inputs (p, file) = .ok k s →
        q.cache.remembered (totalsSignature q.options.totals.coloring q.builtJacobian.pattern rows
          cols) = none →
        q.cache.stored (totalsSignature q.options.totals.coloring q.builtJacobian.pattern rows
          cols) file = none →
        ∃ k', computeColoring q.options.totals.coloring q.builtJacobian rows cols = .ok k' ∧
          k.pattern = k'.pattern) ∧
      (q.totalMatrix.det ≠ 0 → q.options.totals.linear.SolvesExactly q.totalOperator →
        ∀ file, file.Trusted → ∀ k s, coloring quantities inputs (p, file) = .ok k s →
          ∃ t, totalsColored quantities inputs (p, file) = .ok t s ∧
            t.shape = (rows.length, cols.length) ∧ ∀ i, ∀ j < cols.length, j ∉ k.pattern.row i →
              entry t.values (i * cols.length + j) = 0) := by
  obtain ⟨rows, cols, hprepared⟩ := prepared_of_reached hm hsetup hof hwrt
  have hpq := hprepared p q hp hlinearize
  have hfits := fits_builtJacobian q
  have hq : start.Follows q := .trans _ _ _ hp.follows (.of_linearizeAll hlinearize)
  -- both are read from the slots of the source
  obtain ⟨slots, hsize, hsource, hinput⟩ := quantities_of_link hm.sound
    (setup_spec hm.sound hsetup) hp.follows hc hv hlink
  obtain ⟨given, hgivenSpan, hgivenSize, hgivenEntries⟩ := run_of_resolveOf hpq.of hgiven hsource
  obtain ⟨taken, htakenSpan, htakenSize, htakenEntries⟩ := run_of_resolveOf hpq.of htaken hinput
  rw [hsize] at hgivenSize hgivenEntries htakenSize htakenEntries
  refine ⟨rows, cols, slots, taken, given, hpq.of, hpq.wrt, hsource, hinput, hsize, hgivenSpan,
    hgivenSize, htakenSpan, htakenSize, fun s k hk d hd => ?_, fun file k s h hremembered hstored =>
      hpq.computed hremembered hstored h, fun hJ hsolve file hfile k s hcoloring => ?_⟩
  · have hrange : q.builtJacobian.range.size = start.arrangement.size :=
      congrArg Arrangement.size hq.arrangement
    have hrow : ∀ i scale, rows.entries[i]? = some (slots.start + d, scale) → k.pattern.row i =
        (List.range cols.length).filter fun j => decide (s.tol < |scale| *
          meanInverse start.builtJacobian.pattern s start.arrangement.size (slots.start + d)
            (cols.slots.getD j 0)) := by
      intro i scale hentry
      rw [row_of_computeColoring hfits hpq.rows_within hpq.cols_within hk hentry, hpq.pattern, hrange]
    rw [hrow _ _ (hgivenEntries d hd), hrow _ _ (htakenEntries d hd)]
    simpa only [abs_one, one_mul] using carriedOver_filter s.tol link.scale _ cols.length
  · obtain ⟨q', file'⟩ := s
    have hcoloringAt := hcoloring
    simp only [coloring, hpq.prepare] at hcoloringAt
    obtain ⟨⟨cache, rfl⟩, hsound, hnrows, hncols⟩ :=
      (coloringAt_spec q hfile rows cols).2 k q' file' hcoloringAt hpq.cache
    obtain ⟨values, hvalues, -, hzero⟩ := coloredTotalsAt_outside (p := { q with cache := cache })
      (isMatrix_totalOperator hpq.jacobian) hJ hsolve hpq.rows_within hpq.cols_within
      hsound.separates hnrows hncols
    refine ⟨⟨rows.names, cols.names, (rows.length, cols.length), values, k.solves⟩, ?_, rfl, hzero⟩
    simp only [totalsColored, hpq.prepare, hcoloringAt, hvalues]

end Problem

/-! ### A conversion with a small factor -/

namespace Converting

open Doubling Problem Model

/-- A variable in a unit of measure. -/
def measured (name : String) (units : Option String) : Variable ℚ :=
  { (Variable.named name : Variable ℚ) with units := units }

/-- `y` is a multiple of `x`, each in a unit of its own. -/
def discipline (gain : ℚ) (wanted given : Option String) : ExplicitDiscipline ℚ :=
  { (ExplicitDiscipline.blank : ExplicitDiscipline ℚ) with
    inputs := [measured "x" wanted]
    outputs := [measured "y" given]
    partials := [{ PartialDeclaration.dense "y" "x" with constant := some #[gain] }]
    compute := fun inputs outputs =>
      .ok ⟨⟩ (outputs.setEntry "y" 0 (gain * inputs.value "x")).data }

theorem addressable (gain : ℚ) (wanted given : Option String) :
    (Discipline.explicit (discipline gain wanted given)).Addressable := by
  have hsize : ([Count.product [1]] : List Nat).sum < Count.modulus := by decide
  exact ⟨hsize, hsize⟩

/-- A steep unit. -/
def first : Component ℚ :=
  okOr component (Component.declare "first" (.explicit (discipline (10 ^ 12) none none)))

/-- One as steep, with its output in a high power of a metre. -/
def second : Component ℚ :=
  okOr component (Component.declare "second" (.explicit (discipline (10 ^ 12) none (some "m**9"))))

/-- One with its input in the same power of a kilometre. -/
def third : Component ℚ :=
  okOr component (Component.declare "third" (.explicit (discipline 1 (some "km**9") none)))

/-- The first unit, the first two and all three. -/
def one : Model ℚ := okOr .empty (Model.empty.addUnit first)
def two : Model ℚ := okOr .empty (one.addUnit second)
def three : Model ℚ := okOr .empty (two.addUnit third)

/-- The second unit behind the first, and then the third. -/
def joined : Model ℚ := okOr .empty (three.connect "first.y" "second.x")
def model : Model ℚ := okOr .empty (joined.connect "second.y" "third.x")

/-- The model ready to run. -/
def problem : Problem ℚ := okOr Doubling.problem model.setup

/-- Its derivatives are refreshed. -/
def refreshed : Problem ℚ := stateAfter (linearizeAll problem)

/-- The output of the second unit, and what the third one gets of it. -/
def quantities : List String := ["second.y", "third.x"]

/-- The input of the first unit. -/
def inputs : List String := ["first.x"]

/-- **Every step succeeds**: declaring the units, adding and connecting them, setting the model up and
refreshing its derivatives. -/
theorem steps :
    (Component.declare "first" (.explicit (discipline (10 ^ 12) none none)) = .ok first ∧
      Component.declare "second" (.explicit (discipline (10 ^ 12) none (some "m**9"))) = .ok second ∧
      Component.declare "third" (.explicit (discipline 1 (some "km**9") none)) = .ok third) ∧
    (Model.empty.addUnit first = .ok one ∧ one.addUnit second = .ok two ∧
      two.addUnit third = .ok three) ∧
    (three.connect "first.y" "second.x" = .ok joined ∧
      joined.connect "second.y" "third.x" = .ok model) ∧
    model.setup = .ok problem ∧ linearizeAll problem = .ok () refreshed := by
  have hall : ((Component.declare "first" (.explicit (discipline (10 ^ 12) none none))).isOk = true ∧
      (Component.declare "second" (.explicit (discipline (10 ^ 12) none (some "m**9")))).isOk = true ∧
      (Component.declare "third" (.explicit (discipline 1 (some "km**9") none))).isOk = true) ∧
      ((Model.empty.addUnit first).isOk = true ∧ (one.addUnit second).isOk = true ∧
      (two.addUnit third).isOk = true) ∧ ((three.connect "first.y" "second.x").isOk = true ∧
      (joined.connect "second.y" "third.x").isOk = true) ∧ model.setup.isOk = true ∧
      isResult (linearizeAll problem) = true := by decide +kernel
  obtain ⟨⟨hfirst, hsecond, hthird⟩, ⟨hone, htwo, hthree⟩, ⟨hjoined, hmodel⟩, hproblem, hrefreshed⟩ :=
    hall
  exact ⟨⟨eq_ok_of_isOk _ hfirst, eq_ok_of_isOk _ hsecond, eq_ok_of_isOk _ hthird⟩,
    ⟨eq_ok_of_isOk _ hone, eq_ok_of_isOk _ htwo, eq_ok_of_isOk _ hthree⟩,
    ⟨eq_ok_of_isOk _ hjoined, eq_ok_of_isOk _ hmodel⟩, eq_ok_of_isOk _ hproblem,
    (eq_ok_of_isResult hrefreshed).choose_spec⟩

theorem built : model.Built := by
  obtain ⟨⟨hfirst, hsecond, hthird⟩, ⟨haddFirst, haddSecond, haddThird⟩, ⟨hjoined, hmodel⟩, -, -⟩ :=
    steps
  have hone : one.Built := .addUnit .empty (addressable _ _ _) hfirst haddFirst
  have htwo : two.Built := .addUnit hone (addressable _ _ _) hsecond haddSecond
  have hthree : three.Built := .addUnit htwo (addressable _ _ _) hthird haddThird
  exact .connect (.connect hthree hjoined) hmodel

theorem setup_eq : model.setup = .ok problem := steps.2.2.2.1

theorem linearizeAll_eq : linearizeAll problem = .ok () refreshed := steps.2.2.2.2

theorem jacobian_refreshed : refreshed.totalJacobian = some refreshed.builtJacobian :=
  (linearizeAll_spec problem).2 () _ linearizeAll_eq
    (start_invariant (setup_spec built.sound setup_eq)).1

/-- The units and the options of the model are those that went into it. -/
theorem model_eq : model.units = #[first, second, third] ∧ model.options = .default := by
  obtain ⟨-, ⟨hfirst, hsecond, hthird⟩, ⟨hjoined, hmodel⟩, -, -⟩ := steps
  obtain ⟨_, _, _, _, _, _, hthirdJoins⟩ := joins_of_connect hmodel
  obtain ⟨_, _, _, _, _, _, hsecondJoins⟩ := joins_of_connect hjoined
  rw [hthirdJoins.result]
  show joined.units = _ ∧ joined.options = _
  rw [hsecondJoins.result]
  show three.units = _ ∧ three.options = _
  rw [units_addUnit hthird, units_addUnit hsecond, units_addUnit hfirst, options_addUnit hthird,
    options_addUnit hsecond, options_addUnit hfirst]
  exact ⟨rfl, rfl⟩

/-- The pattern of the totals has a column in the first row and none in the second. -/
theorem pattern_coloring : (resultOf (coloring quantities inputs (problem, .absent))).map
    (fun c => (c.pattern.row 0, c.pattern.row 1)) = some ([0], []) := by
  decide +kernel

/-- **The third unit loses what the second one keeps**, with settings by default: the factor of the
conversion takes the mean below the tolerance, and the coloring makes the total zero. -/
theorem coloring_loses :
    (model.links.lookup ⟨"third", "x"⟩).map (fun link => link.scale) = some (1 / 10 ^ 27) ∧
    (resultOf (coloring quantities inputs (problem, .absent))).map
      (fun c => (c.pattern.row 0, c.pattern.row 1)) = some ([0], []) ∧
    (resultOf (totals quantities inputs .fwd problem)).map (fun t => t.values) =
      some #[10 ^ 24, 1 / 1000] ∧
    (resultOf (totalsColored quantities inputs (problem, .absent))).map (fun t => t.values) =
      some #[10 ^ 24, 0] :=
  ⟨by decide +kernel, pattern_coloring, by decide +kernel⟩

theorem isDeclared_first :
    Component.IsDeclared "first" (.explicit (discipline (10 ^ 12) none none)) first :=
  Component.isDeclared_of_declare steps.1.1 (addressable _ _ _)

theorem isDeclared_second :
    Component.IsDeclared "second" (.explicit (discipline (10 ^ 12) none (some "m**9"))) second :=
  Component.isDeclared_of_declare steps.1.2.1 (addressable _ _ _)

theorem isDeclared_third :
    Component.IsDeclared "third" (.explicit (discipline 1 (some "km**9") none)) third :=
  Component.isDeclared_of_declare steps.1.2.2 (addressable _ _ _)

/-- The input that is connected with a conversion. -/
theorem mem_inputs_third : third ∈ model.units ∧
    measured "x" (some "km**9") ∈ third.discipline.inputs ∧
    pathOf third (measured "x" (some "km**9")) = "third.x" := by
  refine ⟨?_, ?_, ?_⟩
  · rw [model_eq.1]
    simp
  · rw [isDeclared_third.discipline]
    exact List.mem_singleton.2 rfl
  · rw [pathOf, isDeclared_third.name]
    rfl

theorem isQuantity : ∀ name ∈ quantities, model.IsQuantity name := by
  intro name hname
  rcases List.mem_pair.1 hname with rfl | rfl
  · refine ⟨second, ?_, measured "y" (some "m**9"), .inl ?_, ?_⟩
    · rw [model_eq.1]
      simp
    · rw [isDeclared_second.discipline]
      exact List.mem_singleton.2 rfl
    · rw [pathOf, isDeclared_second.name]
      rfl
  · obtain ⟨hthird, hinput, hpath⟩ := mem_inputs_third
    exact ⟨third, hthird, _, .inr hinput, hpath.symm⟩

theorem isIndependent : ∀ name ∈ inputs, model.IsIndependent name := by
  intro name hname
  obtain rfl := List.mem_singleton.1 hname
  refine ⟨first, ?_, measured "x" none, ?_, ?_, ?_⟩
  · rw [model_eq.1]
    simp
  · rw [isDeclared_first.discipline]
    exact List.mem_singleton.2 rfl
  · rw [isDeclared_first.name]
    exact Option.isNone_iff_eq_none.1 (by decide +kernel)
  · rw [pathOf, isDeclared_first.name]
    rfl

theorem regular_refreshed : refreshed.totalMatrix.det ≠ 0 ∧
    refreshed.options.totals.linear.SolvesExactly refreshed.totalOperator := by
  have hdirect : refreshed.options.totals.linear = .direct := by
    rw [(linearizeAll_spec problem).1.options (q := refreshed),
      (setup_spec built.sound setup_eq).options, model_eq.2]
    rfl
  exact solvesExactly_of_regular jacobian_refreshed hdirect (by decide +kernel)

/-- **The mean magnitude is above the tolerance and comes down to it by the conversion**, so the total
of the third unit is zero. -/
theorem columns_of_third : (∀ name ∈ quantities, model.IsQuantity name) ∧
    (∀ name ∈ inputs, model.IsIndependent name) ∧ linearizeAll problem = .ok () refreshed ∧
    third ∈ model.units ∧ measured "x" (some "km**9") ∈ third.discipline.inputs ∧
    pathOf third (measured "x" (some "km**9")) ∈ quantities ∧
    ∃ link, model.links.lookup ⟨third.name, "x"⟩ = some link ∧ link.source.path ∈ quantities ∧
      (∃ mean, refreshed.options.totals.coloring.tol < mean ∧
        |link.scale| * mean ≤ refreshed.options.totals.coloring.tol) ∧
      ∃ t s, totalsColored quantities inputs (problem, .absent) = .ok t s ∧
        entry t.values 1 = 0 := by
  obtain ⟨hthird, hinput, hpath⟩ := mem_inputs_third
  have htaken : pathOf third (measured "x" (some "km**9")) ∈ quantities := by
    rw [hpath]
    simp [quantities]
  have hlinkPath : (model.links.lookup ⟨third.name, "x"⟩).map (fun link => link.source.path) =
      some "second.y" := by
    rw [isDeclared_third.name]
    decide +kernel
  obtain ⟨link, hlink, hsource⟩ := Option.map_eq_some_iff.1 hlinkPath
  have hgiven : link.source.path ∈ quantities := by
    rw [hsource]
    simp [quantities]
  obtain ⟨hdet, hsolve⟩ := regular_refreshed
  obtain ⟨rows, cols, slots, taken, given, hrows, hcols, -, -, -, hgivenSpan, -, htakenSpan, -,
      hcolumns, hcomputed, htotals⟩ :=
    columns_of_connected built setup_eq .start isQuantity isIndependent linearizeAll_eq hthird hinput
      hlink htaken hgiven
  -- the rows of the two quantities
  have hnames : rows.names = [("second.y", ⟨0, 1⟩), ("third.x", ⟨1, 2⟩)] := by
    have htest : (okOr .empty (problem.resolveOf quantities)).names =
        [("second.y", ⟨0, 1⟩), ("third.x", ⟨1, 2⟩)] := by decide +kernel
    rwa [hrows] at htest
  obtain rfl : ⟨0, 1⟩ = given := by
    rw [hsource, hnames] at hgivenSpan
    exact Option.some.inj hgivenSpan
  obtain rfl : ⟨1, 2⟩ = taken := by
    rw [hpath, hnames] at htakenSpan
    exact Option.some.inj htakenSpan
  have hncols : cols.length = 1 := by
    have htest : (okOr .empty (problem.resolveWrt inputs)).length = 1 := by decide +kernel
    rwa [hcols] at htest
  -- the coloring is detected
  obtain ⟨k, hk, hpattern⟩ := Option.map_eq_some_iff.1 pattern_coloring
  replace hk := eq_ok_of_resultOf hk
  obtain ⟨hkept, hlost⟩ := Prod.mk.inj hpattern
  have hempty : refreshed.cache.current = none := by decide +kernel
  obtain ⟨k', hk', hsame⟩ := hcomputed .absent k _ hk
    (by rw [ColoringCache.remembered, hempty]; rfl) (by unfold ColoringCache.stored; split <;> rfl)
  have hcarried := hcolumns _ k' hk' 0 (by decide)
  rw [← hsame] at hcarried
  have hmean := (hcarried.mem_given 0).1 (by
    show 0 ∈ k.pattern.row 0
    rw [hkept]
    exact List.mem_singleton_self 0)
  have hbelow : ¬_ := fun h => absurd ((hcarried.mem_taken 0).2 ⟨hmean.1, h⟩) (by
    show 0 ∉ k.pattern.row 1
    rw [hlost]
    exact List.not_mem_nil)
  obtain ⟨t, ht, -, hzero⟩ := htotals hdet hsolve .absent trusted_absent k _ hk
  have hentry := hzero 1 0 (by omega) (by rw [hlost]; exact List.not_mem_nil)
  rw [hncols] at hentry
  exact ⟨isQuantity, isIndependent, linearizeAll_eq, hthird, hinput, htaken, link, hlink, hgiven,
    ⟨_, hmean.2, not_lt.1 hbelow⟩, t, _, ht, hentry⟩

end Converting

end Mdao
