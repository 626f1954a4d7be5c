import Mathlib
import Mdao.Proofs.Linear.Regular
import Mdao.Proofs.Model.Checked
import Mdao.Proofs.Model.Triangular

/-!
# When totals of explicit units exist

In a model of explicit units without coupled blocks the Jacobian over all slots is never singular: up
to the order of the slots it is triangular with ones on the diagonal, whatever the derivatives are. A
direct solve takes it for singular nonetheless where one, measured against the largest entry, counts as
zero (`Problem.Overscaled`), and for no other reason: elsewhere the totals of all quantities with
respect to all independent inputs exist, in both modes (`Problem.totals_of_explicit`). A single unit
with a steep slope is overscaled (`Steep.totals_fail`).
-/

namespace Mdao

open Vec Matrix

variable {α : Type} [ExactScalar α]

namespace Problem

open Model

variable {m : Model α} {start p q : Problem α} {rows cols : Quantities α}

/-- **One counts as zero** against the largest entry of the Jacobian over all slots. -/
def Overscaled (q : Problem α) : Prop :=
  ∃ i k, 1 ≤ 64 * (q.arrangement.size : α) * Scalar.epsilon * |q.totalMatrix i k|

/-- A direct solve takes the Jacobian for singular where it is, and where it is overscaled. -/
theorem countsAsSingular_iff : q.CountsAsSingular ↔ q.totalMatrix.det = 0 ∨ q.Overscaled :=
  Factors.isSingular_iff.trans (or_congr_right Factors.isOverscaled_iff)

/-! ### Resolved names -/

/-- What is found for names are slots of the problem. -/
theorem within_of_resolve (h : IsSetUp m start)
    {lookup : String → Except StructureError (Span × α)} (hlookup : ∀ name r scale,
      lookup name = .ok (r, scale) → ∃ i, start.store.slots? i = some r) {names : List String}
    {found : Quantities α} (hresolve : resolve lookup .empty names = .ok found) :
    found.Within start.arrangement.size := by
  have hslots : ∀ name r scale, lookup name = .ok (r, scale) → ∀ k ∈ r,
      k < start.arrangement.size := fun name r scale hfound k hk => by
    obtain ⟨i, hslots⟩ := hlookup name r scale hfound
    obtain ⟨e, he, hr⟩ := Option.bind_eq_some_iff.1 hslots
    exact hk.2.trans_le (h.laid.stop_le he hr)
  exact forall_of_resolve hslots (by simp [Quantities.empty]) hresolve

theorem within_of_resolveOf (h : IsSetUp m start) (hp : start.Follows p) {names : List String}
    (hresolve : p.resolveOf names = .ok rows) : rows.Within p.arrangement.size := by
  rw [resolveOf_congr hp.assembly.entries hp.links] at hresolve
  rw [hp.arrangement]
  exact within_of_resolve h (fun _ _ _ => slots_of_quantity) hresolve

theorem within_of_resolveWrt (h : IsSetUp m start) (hp : start.Follows p) {names : List String}
    (hresolve : p.resolveWrt names = .ok cols) : cols.Within p.arrangement.size := by
  rw [resolveWrt_congr hp.assembly.entries] at hresolve
  rw [hp.arrangement]
  exact within_of_resolve h (fun _ _ _ => slots_of_independent) hresolve

/-! ### Totals that fail -/

omit [ExactScalar α] in
/-- Refreshing the derivatives fails in a unit only. -/
theorem eval_of_linearizeAll [Scalar α] {e : ModelError α}
    {p q : Problem α} (h : linearizeAll p = .error e q) : ∃ cause, e = .eval cause := by
  unfold linearizeAll onAssembly at h
  dsimp only at h
  cases hstep : Assembly.linearizeAll p.arrangement p.options.strictPartials p.order p.assembly with
  | ok _ a =>
    rw [hstep] at h
    cases h
  | error cause a =>
    rw [hstep] at h
    cases h
    exact ⟨cause, rfl⟩

omit [ExactScalar α] in
/-- Where a linear solve of totals fails, the names were resolved and the derivatives refreshed. -/
theorem prepared_of_totals [Scalar α] {p q : Problem α} {quantities inputs : List String}
    {mode : Mode} {e : LinearError} (h : totals quantities inputs mode p = .error (.linear e) q) :
    ∃ rows cols, p.resolveOf quantities = .ok rows ∧ p.resolveWrt inputs = .ok cols ∧
      linearizeAll p = .ok () q ∧ q.totalsAt rows cols mode = .error (.linear e) := by
  unfold totals prepareTotals at h
  cases hrows : p.resolveOf quantities with
  | error cause =>
    rw [hrows] at h
    cases h
  | ok rows =>
    cases hcols : p.resolveWrt inputs with
    | error cause =>
      rw [hrows, hcols] at h
      cases h
    | ok cols =>
      rw [hrows, hcols] at h
      cases hlinearize : linearizeAll p with
      | error cause p' =>
        rw [hlinearize] at h
        obtain ⟨_, rfl⟩ := eval_of_linearizeAll hlinearize
        cases h
      | ok _ p' =>
        rw [hlinearize] at h
        dsimp only at h
        split at h
        · cases h
        · rename_i hvalues
          cases h
          exact ⟨rows, cols, rfl, rfl, rfl, hvalues⟩

/-! ### Totals of explicit units -/

variable [BitPattern α] [Shown α]

omit [BitPattern α] [Shown α] in
/-- Where the derivatives have been refreshed, direct solves give the exact totals of resolved names or
take the Jacobian for singular. -/
theorem totalsAt_refreshed (h : IsSetUp m start) (hdirect : m.options.totals.linear = .direct)
    (hp : start.Follows p) (hlinearize : linearizeAll p = .ok () q) {quantities inputs : List String}
    (hrows : p.resolveOf quantities = .ok rows) (hcols : p.resolveWrt inputs = .ok cols) (mode : Mode) :
    q.totalsAt rows cols mode = .ok ⟨rows.names, cols.names, (rows.length, cols.length),
        exactTotals q.totalMatrix rows cols, solveCount rows cols mode⟩ ∨
      q.CountsAsSingular ∧ q.totalsAt rows cols mode = .error (.linear .singularJacobian) := by
  have hq : p.Follows q := .of_linearizeAll hlinearize
  have hmatrix := (linearizeAll_spec p).2 () q hlinearize (hp.jacobian (start_invariant h).1)
  have hlinear : q.options.totals.linear = .direct := by
    rw [hq.options, hp.options, h.options, hdirect]
  have hwithin : rows.Within q.arrangement.size := by
    rw [hq.arrangement]
    exact within_of_resolveOf h hp hrows
  have hwithin' : cols.Within q.arrangement.size := by
    rw [hq.arrangement]
    exact within_of_resolveWrt h hp hcols
  exact totalsAt_direct hmatrix hlinear hwithin hwithin' mode

omit [BitPattern α] [Shown α] in
/-- **Without coupled blocks the Jacobian of explicit units is triangular** with ones on the diagonal,
up to the order of the slots. -/
theorem isUnitTriangular_totalMatrix (hm : m.Built) (h : IsSetUp m start) (hff : m.FeedForward)
    (hexplicit : ∀ c ∈ m.units, c.isImplicit = false) (hq : start.Follows q) :
    IsUnitTriangular q.totalMatrix :=
  (placed_of_follows hm.sound h hq).isUnitTriangular hff hexplicit hm.readsInputs

/-- **Totals of explicit units without coupled blocks**, however the problem has been used, by direct
solves, fail for a singular Jacobian only where it is overscaled. Once the derivatives are refreshed,
the Jacobian is triangular with ones on the diagonal up to the order of the slots, and its determinant
is one; and unless it is overscaled, the exact totals of all quantities with respect to all independent
inputs are there, in both modes. -/
theorem totals_of_explicit (hm : m.Built) (hff : m.FeedForward)
    (hexplicit : ∀ c ∈ m.units, c.isImplicit = false) (hdirect : m.options.totals.linear = .direct)
    (hsetup : m.setup = .ok start) (hp : start.Reached p) :
    (∀ quantities inputs mode q,
      totals quantities inputs mode p = .error (.linear .singularJacobian) q → q.Overscaled) ∧
    ∀ q, linearizeAll p = .ok () q → IsUnitTriangular q.totalMatrix ∧ q.totalMatrix.det = 1 ∧
      (¬ q.Overscaled → ∀ quantities inputs, (∀ name ∈ quantities, m.IsQuantity name) →
        (∀ name ∈ inputs, m.IsIndependent name) → ∃ rows cols, p.resolveOf quantities = .ok rows ∧
          p.resolveWrt inputs = .ok cols ∧ ∀ mode, totals quantities inputs mode p =
            .ok ⟨rows.names, cols.names, (rows.length, cols.length),
              exactTotals q.totalMatrix rows cols, solveCount rows cols mode⟩ q) := by
  have hstart := setup_spec hm.sound hsetup
  have hfollows := hp.follows
  have htriangular : ∀ {q}, linearizeAll p = .ok () q → IsUnitTriangular q.totalMatrix := fun h =>
    isUnitTriangular_totalMatrix hm hstart hff hexplicit (.trans _ _ _ hfollows (.of_linearizeAll h))
  have hregular : ∀ {q}, linearizeAll p = .ok () q → q.CountsAsSingular → q.Overscaled := fun h hs =>
    (countsAsSingular_iff.1 hs).resolve_left ((htriangular h).det_eq_one.trans_ne one_ne_zero)
  refine ⟨fun quantities inputs mode q hfails => ?_, fun q h => ⟨htriangular h,
    (htriangular h).det_eq_one, fun hscale quantities inputs hof hwrt => ?_⟩⟩
  · obtain ⟨rows, cols, hrows, hcols, h, hvalues⟩ := prepared_of_totals hfails
    rcases totalsAt_refreshed hstart hdirect hfollows h hrows hcols mode with
      hok | ⟨hsingular, -⟩
    · rw [hok] at hvalues
      cases hvalues
    · exact hregular h hsingular
  · obtain ⟨rows, cols, hrows, hcols, -, -⟩ :=
      resolve_of_follows hm.sound hstart hfollows hof hwrt
    refine ⟨rows, cols, hrows, hcols, fun mode => ?_⟩
    rcases totalsAt_refreshed hstart hdirect hfollows h hrows hcols mode with
      hok | ⟨hsingular, -⟩
    · simp only [totals, prepareTotals, hrows, hcols, h, hok]
    · exact absurd (hregular h hsingular) hscale

end Problem

/-! ### A chain of two units -/

namespace Doubling

open Problem

/-- The totals of the last output and of the connected input of the chain, in both modes. -/
theorem totals_of_chain : chain.Built ∧ chain.FeedForward ∧
    (∀ c ∈ chain.units, c.isImplicit = false) ∧ chain.options.totals.linear = .direct ∧
    ∃ start q, chain.setup = .ok start ∧ linearizeAll start = .ok () q ∧
      (∀ name ∈ ["second.y", "second.x"], chain.IsQuantity name) ∧
      (∀ name ∈ ["double.x"], chain.IsIndependent name) ∧ ¬ q.Overscaled ∧
      q.totalMatrix.det = 1 ∧ ∀ mode, ∃ t, t.values = #[4, 2] ∧
        totals ["second.y", "second.x"] ["double.x"] mode start = .ok t q := by
  have hexplicit : ∀ c ∈ chain.units, c.isImplicit = false := fun c hc =>
    (computes_chain c hc).isImplicit
  have hdirect : chain.options.totals.linear = .direct := by
    rw [options_chain]
    rfl
  have hsetup : chain.setup = .ok (okOr problem chain.setup) :=
    eq_ok_of_isOk _ (by with_unfolding_all decide)
  generalize hstart : okOr problem chain.setup = start at hsetup
  have hlinearize : linearizeAll start = .ok () (stateAfter (linearizeAll start)) := by
    rw [← hstart]
    exact (eq_ok_of_isResult (by with_unfolding_all decide)).choose_spec
  have hscale : ¬ (stateAfter (linearizeAll start)).Overscaled := by
    intro h
    have htest := Factors.isOverscaled_iff.2 h
    rw [totalMatrix, ← Operator.blockOfMatrix_upTo, ← hstart] at htest
    revert htest
    decide +kernel
  obtain ⟨-, hall⟩ :=
    totals_of_explicit built_chain feedForward_chain hexplicit hdirect hsetup (.start)
  obtain ⟨-, hdet, htotals⟩ := hall _ hlinearize
  obtain ⟨rows, cols, -, -, hvalues⟩ := htotals hscale _ _ isQuantity_chain isIndependent_chain
  refine ⟨built_chain, feedForward_chain, hexplicit, hdirect, start, _, hsetup, hlinearize,
    isQuantity_chain, isIndependent_chain, hscale, hdet, fun mode => ⟨_, ?_, hvalues mode⟩⟩
  have htest : (resultOf (totals ["second.y", "second.x"] ["double.x"] mode start)).map
      Totals.values = some #[4, 2] := by
    rw [← hstart]
    cases mode <;> exact beq_iff_eq.1 (by decide +kernel)
  rw [hvalues mode] at htest
  exact Option.some.inj htest

end Doubling

/-! ### A steep unit -/

namespace Steep

open Problem Doubling

/-- `y = 10¹⁵ x`, with the derivative fixed by the declaration. -/
def discipline : ExplicitDiscipline ℚ :=
  { (ExplicitDiscipline.blank : ExplicitDiscipline ℚ) with
    inputs := [Variable.named "x"]
    outputs := [Variable.named "y"]
    partials := [{ PartialDeclaration.dense "y" "x" with constant := some #[10 ^ 15] }]
    compute := fun inputs outputs =>
      .ok ⟨⟩ (outputs.setEntry "y" 0 (10 ^ 15 * inputs.value "x")).data }

/-- The unit. -/
def component : Component ℚ :=
  okOr ⟨"", .explicit discipline, .empty, .empty, .empty, none, #[]⟩
    (Component.declare "steep" (.explicit discipline))

theorem declare_eq : Component.declare "steep" (.explicit discipline) = .ok component :=
  eq_ok_of_isOk _ (by with_unfolding_all decide)

theorem isDeclared : Component.IsDeclared "steep" (.explicit discipline) component :=
  Component.isDeclared_of_declare declare_eq ⟨by with_unfolding_all decide, by decide +kernel⟩

/-- The model of this unit. -/
def model : Model ℚ := okOr .empty (Model.empty.addUnit component)

theorem addUnit_eq : Model.empty.addUnit component = .ok model :=
  eq_ok_of_isOk _ (by with_unfolding_all decide)

theorem built : model.Built :=
  .addUnit .empty ⟨by with_unfolding_all decide, by decide +kernel⟩ declare_eq addUnit_eq

/-- The model ready to run. -/
def problem : Problem ℚ := okOr Doubling.problem model.setup

theorem setup_eq : model.setup = .ok problem := eq_ok_of_isOk _ (by with_unfolding_all decide)

theorem feedForward : model.FeedForward := by
  have htest : model.graph.order.all (fun b => !b.isCoupled) = true := by with_unfolding_all decide
  intro b hb
  simpa using List.all_eq_true.1 htest b hb

/-- Whether a result is the error of a singular Jacobian. -/
def failsAsSingular {σ β : Type} : EStateM.Result (ModelError ℚ) σ β → Bool
  | .error (.linear .singularJacobian) _ => true
  | _ => false

theorem exists_of_failsAsSingular {σ β : Type} {r : EStateM.Result (ModelError ℚ) σ β}
    (h : failsAsSingular r = true) : ∃ s, r = .error (.linear .singularJacobian) s := by
  unfold failsAsSingular at h
  split at h
  · exact ⟨_, rfl⟩
  · cases h

/-- **The totals of a steep unit fail**, in both modes, though its Jacobian has determinant one. -/
theorem totals_fail : model.Built ∧ model.options = .default ∧ model.FeedForward ∧
    (∀ c ∈ model.units, c.isImplicit = false) ∧ model.setup = .ok problem ∧
    model.IsQuantity "steep.y" ∧ model.IsIndependent "steep.x" ∧
    ∀ mode, ∃ q, q.totalMatrix.det = 1 ∧ totals ["steep.y"] ["steep.x"] mode problem =
      .error (.linear .singularJacobian) q := by
  have hunits : model.units = #[component] := Model.units_addUnit addUnit_eq
  have hmem : component ∈ model.units := by
    rw [hunits]
    exact Array.mem_singleton.2 rfl
  have hexplicit : ∀ c ∈ model.units, c.isImplicit = false := by
    rw [hunits]
    intro c hc
    obtain rfl := Array.mem_singleton.1 hc
    rw [Component.isImplicit, isDeclared.discipline]
    rfl
  refine ⟨built, Model.options_addUnit addUnit_eq, feedForward, hexplicit, setup_eq,
    ⟨component, hmem, Variable.named "y", .inl ?_, ?_⟩,
    ⟨component, hmem, Variable.named "x", ?_, ?_, ?_⟩, fun mode => ?_⟩
  · rw [isDeclared.discipline]
    exact List.mem_singleton.2 rfl
  · rw [Model.pathOf, isDeclared.name]
    rfl
  · rw [isDeclared.discipline]
    exact List.mem_singleton.2 rfl
  · rw [Model.links_addUnit addUnit_eq]
    rfl
  · rw [Model.pathOf, isDeclared.name]
    rfl
  · have hfails : failsAsSingular (totals ["steep.y"] ["steep.x"] mode problem) = true := by
      cases mode <;> with_unfolding_all decide
    obtain ⟨q, htotals⟩ := exists_of_failsAsSingular hfails
    obtain ⟨-, -, -, -, hlinearize, -⟩ := prepared_of_totals htotals
    refine ⟨q, ?_, htotals⟩
    exact (isUnitTriangular_totalMatrix built (Model.setup_spec built.sound setup_eq) feedForward
      hexplicit (.of_linearizeAll hlinearize)).det_eq_one

end Steep

end Mdao
