import Mathlib
import Mdao.Proofs.Model.Slopes

/-!
# The Jacobian of approximated columns

A check by a complex step assembles the Jacobian over all slots a second time, from columns that are
approximated one by one, each put at the slot that it is routed from. Columns of affine units are those
of their slopes, so each row of this Jacobian makes of a vector what the row of the first one does
(`Jacobian.sum_columnEntries`), and the two are the same matrix
(`Differentiated.approximateJacobian_eq`).
-/

namespace Mdao

open Vec Matrix

variable {α : Type} [ExactScalar α]

/-! ### The columns of one unit -/

namespace Jacobian

open Component

variable {p : Placement α} {c : Component α} {A : Nat → Nat → α}

/-- What an explicit unit adds to the Jacobian by columns of its slopes: ones for its own outputs, and
each column, converted, at the slot that its input is routed from. -/
def columnEntries (p : Placement α) (c : Component α) (A : Nat → Nat → α) :
    List ((Nat × Nat) × α) :=
  (p.outputs.indices.map fun s => ((s, s), 1)) ++
    (List.range p.routes.size).flatMap fun k =>
      Problem.columnContributions p (slotOf p (.input k)).1 (-1 * (slotOf p (.input k)).2)
        (slopeColumn c A k)

omit [ExactScalar α] in
/-- A column, entry by entry. -/
theorem zipIdx_slopeColumn (c : Component α) (A : Nat → Nat → α) (k : Nat) :
    (slopeColumn c A k).toList.zipIdx = (List.range c.outputs.size).map fun r => (A r k, r) := by
  refine List.ext_getElem (by simp [slopeColumn]) fun r h1 h2 => ?_
  simp [slopeColumn, tabulate]

/-- What one column adds to a row. -/
theorem sum_columnContributions (hsize : p.outputs.size = c.outputs.size) (slot : Nat) (factor : α)
    (k : Nat) (x : Array α) (i : Nat) :
    ((Problem.columnContributions p slot factor (slopeColumn c A k)).map fun e =>
      e.2 * if e.1.1 = i then entry x e.1.2 else 0).sum =
      if i ∈ p.outputs then factor * A (i - p.outputs.start) k * entry x slot else 0 := by
  rw [Problem.columnContributions, sum_map_filterMap, zipIdx_slopeColumn, List.map_map]
  have hterm : ∀ r ∈ List.range c.outputs.size,
      ((fun e : α × Nat => (if e.1 == 0 then none else
          some ((p.outputs.start + e.2, slot), factor * e.1) : Option ((Nat × Nat) × α)).elim 0
        fun e => e.2 * if e.1.1 = i then entry x e.1.2 else 0) ∘ fun r => (A r k, r)) r =
        if p.outputs.start + r = i then factor * A r k * entry x slot else 0 := fun r _ => by
    simp only [Function.comp_apply, beq_iff_eq]
    split_ifs with hzero hplace
    · simp [hzero]
    · rfl
    · simp [*]
    · simp [*]
  rw [List.map_congr_left hterm, sum_map_range]
  by_cases hi : i ∈ p.outputs
  · rw [if_pos hi, Finset.sum_eq_single_of_mem (i - p.outputs.start)
      (Finset.mem_range.2 (hsize ▸ Span.sub_start_lt hi)) fun r _ hne => ?_]
    · rw [if_pos (Span.start_add_sub hi)]
    · exact if_neg fun heq => hne (by omega)
  · rw [if_neg hi]
    refine Finset.sum_eq_zero fun r hr => if_neg fun heq => hi ?_
    rw [← heq]
    exact Span.start_add_mem (hsize ▸ Finset.mem_range.1 hr)

/-- **Columns of slopes make of a vector what the derivatives of the unit make of it.** -/
theorem sum_columnEntries (hsize : p.outputs.size = c.outputs.size) (x : Array α) (i : Nat) :
    ((columnEntries p c A).map fun e => e.2 * if e.1.1 = i then entry x e.1.2 else 0).sum =
      unitRow p A x i := by
  have hdiagonal : ((p.outputs.indices.map fun s => (((s, s), 1) : (Nat × Nat) × α)).map fun e =>
      e.2 * if e.1.1 = i then entry x e.1.2 else 0).sum = if i ∈ p.outputs then entry x i else 0 := by
    rw [List.map_map, ← List.sum_toFinset _ (by simpa [Span.indices] using List.nodup_range')]
    simp only [Function.comp_apply, one_mul, Finset.sum_ite_eq', List.mem_toFinset, Span.mem_indices]
  rw [columnEntries, List.map_append, List.sum_append, hdiagonal, sum_map_flatMap, unitRow]
  simp only [sum_columnContributions hsize]
  rw [sum_map_range]
  split_ifs with hi
  · rw [sub_eq_add_neg, ← Finset.sum_neg_distrib]
    refine congrArg (entry x i + ·) (Finset.sum_congr rfl fun k _ => ?_)
    ring
  · rw [Finset.sum_const_zero, add_zero]

/-- They lie inside the square of all slots. -/
theorem columnEntries_lt {n : Nat} (hsize : p.outputs.size = c.outputs.size)
    (hstop : p.outputs.stop ≤ n) (hroutes : ∀ route ∈ p.routes, route.slot < n)
    {e : (Nat × Nat) × α} (he : e ∈ columnEntries p c A) : e.1.1 < n ∧ e.1.2 < n := by
  rcases List.mem_append.1 he with he | he
  · obtain ⟨s, hs, rfl⟩ := List.mem_map.1 he
    have hlt := (Span.mem_indices.1 hs).2.trans_le hstop
    exact ⟨hlt, hlt⟩
  · obtain ⟨k, hk, he⟩ := List.mem_flatMap.1 he
    have hk' := List.mem_range.1 hk
    rw [Problem.columnContributions, zipIdx_slopeColumn] at he
    obtain ⟨v, hv, he⟩ := List.mem_filterMap.1 he
    obtain ⟨r, hr, rfl⟩ := List.mem_map.1 hv
    dsimp only at he
    split_ifs at he
    cases he
    have hrow : p.outputs.start + r ∈ p.outputs :=
      Span.start_add_mem (hsize ▸ List.mem_range.1 hr)
    refine ⟨hrow.2.trans_le hstop, ?_⟩
    show (slotOf p (.input k)).1 < n
    rw [slotOf_input hk']
    exact hroutes _ (Array.getElem_mem hk')

end Jacobian

/-! ### Problems -/

namespace Problem

open Jacobian Component Assembly Model

/-- The columns of an explicit unit are those of its inputs. -/
theorem slotColumns_eq {p : Placement α} {c : Component α} (hexplicit : c.isImplicit = false) :
    slotColumns p c = (List.range p.routes.size).map fun k =>
      (Column.input k, (slotOf p (.input k)).1, -1 * (slotOf p (.input k)).2) := by
  simp only [slotColumns, hexplicit, Bool.false_eq_true, if_false, List.append_nil]
  refine List.ext_getElem (by simp) fun k h1 h2 => ?_
  have hk : k < p.routes.size := by simpa using h2
  simp [slotOf_input hk]

/-- **Approximating an affine unit** gives the columns of its slopes. -/
theorem approximateUnit_eq {a : Assembly α} {p : Placement α} {c : Component α}
    {f : Array α → Array α} {A : Nat → Nat → α} (hc : c.AffineWith f A)
    (hroutes : p.routes.size = c.inputs.size) (hinputs : p.inputs.size = c.inputs.size)
    {method : Method α} (hmethod : method.StepNeZero) :
    approximateUnit a p c method = .ok (columnEntries p c A) := by
  have hexplicit := hc.computes.isImplicit
  have hcolumns : c.columns (a.inputsOf p) (a.outputsOf p) (c.supported method)
      ((slotColumns p c).map Prod.fst) =
        .ok ((List.range p.routes.size).map (slopeColumn c A)) := by
    rw [slotColumns_eq hexplicit, List.map_map]
    refine hc.columns_eq ?_ hmethod fun k hk => hroutes ▸ List.mem_range.1 hk
    rw [inputsOf, size_slice, hinputs]
  refine bind_eq_ok.2 ⟨_, hcolumns, congrArg Except.ok ?_⟩
  simp only [hexplicit, Bool.false_eq_true, if_false]
  rw [columnEntries, List.flatMap_def, slotColumns_eq hexplicit, List.zipWith_map, List.zipWith_self]

variable {m : Model α} {start q : Problem α} {f : String → Array α → Array α}
  {A : String → Nat → Nat → α} {method : Method α}

namespace Differentiated

/-- What the units of a problem add to the Jacobian by columns of their slopes. -/
def unitColumns (q : Problem α) (A : String → Nat → Nat → α) (u : Nat) : List ((Nat × Nat) × α) :=
  (q.assembly.units[u]?).elim [] fun c => columnEntries (q.arrangement.unit u) c (A c.name)

/-- **Approximating units one after the other**, each at what has been transferred to it. -/
theorem approximateUnits_eq (h : Differentiated m start f A q) (hmethod : method.StepNeZero)
    {us : List Nat} {a : Assembly α} (ha : a.units = q.assembly.units) :
    ∃ a', approximateUnits q.arrangement method us a = .ok (us.flatMap (unitColumns q A)) a' := by
  induction us generalizing a with
  | nil => exact ⟨a, rfl⟩
  | cons u us ih =>
    obtain ⟨a', hrest⟩ := ih (a := a.transfer (q.arrangement.unit u)) ha
    have hunit : (a.transfer (q.arrangement.unit u)).units[u]? = q.assembly.units[u]? :=
      congrArg (·[u]?) ha
    refine ⟨a', ?_⟩
    rw [List.flatMap_cons, unitColumns]
    simp only [approximateUnits, hunit]
    cases hc : q.assembly.units[u]? with
    | none => simp only [hrest, Option.elim_none]
    | some c =>
      obtain ⟨-, haffine, hhosts, -⟩ := h.unit hc
      simp only [approximateUnit_eq haffine hhosts.fits.size_routes hhosts.inputs hmethod, hrest,
        Option.elim_some]

/-- They lie inside the square of all slots. -/
theorem unitColumns_lt (h : Differentiated m start f A q) {u : Nat} {e : (Nat × Nat) × α}
    (he : e ∈ unitColumns q A u) : e.1.1 < q.arrangement.size ∧ e.1.2 < q.arrangement.size := by
  unfold unitColumns at he
  cases hc : q.assembly.units[u]? with
  | none =>
    rw [hc] at he
    cases he
  | some c =>
    rw [hc] at he
    obtain ⟨hu, -, hhosts, -⟩ := h.unit hc
    exact columnEntries_lt hhosts.fits.size_outputs
      (hhosts.outputs_le.trans (h.size_slots h.follows).le)
      (fun route hroute => h.placed.route_lt (h.mem_order.1 hu) hroute) he

/-- In each row they make of a vector what the units do. -/
theorem sum_unitColumns (h : Differentiated m start f A q) (x : Array α) (i : Nat) :
    ((q.order.flatMap (unitColumns q A)).map fun e =>
      e.2 * if e.1.1 = i then entry x e.1.2 else 0).sum = q.unitRows A x i := by
  rw [sum_map_flatMap, unitRows]
  refine congrArg List.sum (List.map_congr_left fun u _ => ?_)
  unfold unitColumns
  cases hc : q.assembly.units[u]? with
  | none => rfl
  | some c =>
    obtain ⟨-, -, hhosts, -⟩ := h.unit hc
    exact sum_columnEntries hhosts.fits.size_outputs x i

/-- **The approximated Jacobian is the Jacobian.** -/
theorem approximateJacobian_eq (h : Differentiated m start f A q) (hmethod : method.StepNeZero) :
    ∃ matrix p, approximateJacobian method q = .ok matrix p ∧
      p.arrangement = q.arrangement ∧
      matrix.toMatrix q.arrangement.size = q.totalMatrix ∧
      ∀ e ∈ matrix.entries, e.1 < q.arrangement.size ∧ e.2.1 < q.arrangement.size := by
  obtain ⟨a, ha⟩ : ∃ a, approximateUnits q.arrangement method q.order q.assembly =
      .ok (q.order.flatMap (unitColumns q A)) a := h.approximateUnits_eq hmethod rfl
  let cs := identityContributions q.arrangement (.upTo q.arrangement.size) ++
    q.order.flatMap (unitColumns q A)
  have hlt : ∀ e ∈ cs, e.1.1 < q.arrangement.size ∧ e.1.2 < q.arrangement.size := fun e he => by
    rcases List.mem_append.1 he with he | he
    · exact identityContributions_lt he
    · obtain ⟨u, -, he⟩ := List.mem_flatMap.1 he
      exact h.unitColumns_lt he
  refine ⟨matrixOf q.arrangement.size cs, { q with assembly := a }, ?_, rfl, ?_,
    fun _ => entries_matrixOf_lt⟩
  · simp only [approximateJacobian, ha]
    rfl
  · refine Matrix.ext fun i k => ?_
    rw [h.totalMatrix_apply, ← h.sum_unitColumns, ← List.sum_append, ← List.map_append]
    exact toMatrix_matrixOf hlt i k

end Differentiated

end Problem

end Mdao
