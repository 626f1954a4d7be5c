import Mdao.Proofs.Model.Determined
import Mdao.Proofs.Model.Reached
import Mdao.Proofs.Model.Setup
import Mdao.Proofs.Scalar.Order

/-!
# Lists of residuals

The residuals of a problem are listed by the outputs whose norm exceeds a tolerance, the largest first.
The list is what is left of all outputs, in the order of registration, after a filter and a stable sort
(`pairwise_mergeSort`), so outputs of equal norm stay in order.

**Whatever a problem has been through, the list has each output once, in order and with its norm, and
the outputs that are not listed have a norm within the tolerance or an undefined one**
(`Problem.listResiduals_spec`). An undefined norm is not above any tolerance, so an output whose residual
is undefined is not listed, as after a division by zero (`Undefined.not_listed`).
-/

namespace Mdao

/-! ### Stable sorting -/

/-- **A sorted list is in order, and what ties is in the order of the original list.** -/
theorem pairwise_mergeSort {β : Type} {le : β → β → Bool}
    (htrans : ∀ a b c, le a b = true → le b c = true → le a c = true)
    (htotal : ∀ a b, (le a b || le b a) = true) {R : β → β → Prop} {l : List β} (hR : l.Pairwise R) :
    (l.mergeSort le).Pairwise fun a b => le a b = true ∧ (le b a = true → R a b) := by
  -- sorting with positions breaks ties by them
  rw [← List.mergeSort_zipIdx, List.pairwise_map]
  have hperm := List.mergeSort_perm l.zipIdx (List.zipIdxLE le)
  have hsorted := List.pairwise_mergeSort (List.zipIdxLE_trans htrans) (List.zipIdxLE_total htotal) l.zipIdx
  have hpositions : (l.zipIdx.mergeSort (List.zipIdxLE le)).Pairwise fun p q => p.2 ≠ q.2 := by
    refine List.pairwise_map.1 ((hperm.map Prod.snd).nodup_iff.2 ?_)
    rw [List.zipIdx_map_snd]
    exact List.nodup_range'
  refine (hsorted.and hpositions).imp_of_mem fun {p q} hp hq ⟨hle, hne⟩ => ?_
  have hpositions : ∀ {c k}, (c, k) ∈ l.zipIdx.mergeSort (List.zipIdxLE le) → l[k]? = some c :=
    fun h => List.mem_zipIdx_iff_getElem?.1 (hperm.mem_iff.1 h)
  obtain ⟨a, i⟩ := p
  obtain ⟨b, j⟩ := q
  simp only [List.zipIdxLE] at hle
  split_ifs at hle with hab hba
  · refine ⟨hab, fun _ => ?_⟩
    have hij : i < j := lt_of_le_of_ne (of_decide_eq_true hle) hne
    obtain ⟨hi, rfl⟩ := List.getElem?_eq_some_iff.1 (hpositions hp)
    obtain ⟨hj, rfl⟩ := List.getElem?_eq_some_iff.1 (hpositions hq)
    exact List.pairwise_iff_getElem.1 hR i j hi hj hij
  · exact ⟨hab, fun h => absurd h hba⟩

namespace Problem

variable {α : Type} [Scalar α]

/-! ### What calls lead to -/

/-- **The problems that calls lead to**, in any order, also through calls that fail, and whatever a
coloring file holds. -/
inductive Arrives [BitPattern α] (start : Problem α) : Problem α → Prop where
  | start : Arrives start start
  | set {p q : Problem α} {name : String} {value : Array α} :
    Arrives start p → p.set name value = .ok q → Arrives start q
  | setInUnits {p q : Problem α} {name units : String} {value : Array α} :
    Arrives start p → p.setInUnits name value units = .ok q → Arrives start q
  | run {p : Problem α} {ω : Type} (observer : Observer (NonlinearEvent α) ω) (w : ω) :
    Arrives start p → Arrives start (stateAfter (runObserved observer (p, w))).1
  | totals {p : Problem α} (quantities inputs : List String) (mode : Mode) :
    Arrives start p → Arrives start (stateAfter (totals quantities inputs mode p))
  | coloring {p : Problem α} (quantities inputs : List String) (file : ColoringFile) :
    Arrives start p → Arrives start (stateAfter (coloring quantities inputs (p, file))).1
  | totalsColored {p : Problem α} (quantities inputs : List String) (file : ColoringFile) :
    Arrives start p → Arrives start (stateAfter (totalsColored quantities inputs (p, file))).1
  | checkPartials {p : Problem α} (method : Method α) :
    Arrives start p → Arrives start (stateAfter (checkPartials method p))
  | checkTotals {p : Problem α} (quantities inputs : List String) (mode : Mode)
      (method : Method α) :
    Arrives start p → Arrives start (stateAfter (checkTotals quantities inputs mode method p))

/-- The variables of a problem and the lengths of its buffers are kept. -/
theorem keptByUse_shape : KeptByUse fun p q : Problem α => p.store.SameShape q.store where
  refl _ := .refl _
  trans _ _ _ h h' := h.trans h'
  changed _ _ h := h.follows.store
  runBlock observer k b p w _ := (follows_runBlock observer k b (p, w)).assembly.store
  jacobian _ := .refl _
  cache _ _ _ := .refl _
  shape _ _ h := h
  withStore _ _ h _ := h

/-- The coloring of prepared totals changes nothing but the cache. -/
theorem store_coloringAt [BitPattern α] (p : Problem α) (file : ColoringFile)
    (rows cols : Quantities α) : (stateAfter (coloringAt rows cols (p, file))).1.store = p.store := by
  unfold coloringAt
  dsimp only
  cases p.totalJacobian with
  | none => rfl
  | some j =>
    dsimp only
    cases ColoringCache.getOrCompute
        (totalsSignature p.options.totals.coloring j.pattern rows cols)
        (fun _ => computeColoring p.options.totals.coloring j rows cols) (p.cache, file) <;> rfl

/-- **No call adds or moves a variable.** -/
theorem Arrives.shape [BitPattern α] {start p : Problem α} (hp : start.Arrives p) :
    start.store.SameShape p.store := by
  have hat : ∀ (file : ColoringFile) (q : Problem α) (rows cols : Quantities α),
      q.store.SameShape (stateAfter (coloringAt rows cols (q, file))).1.store :=
    fun file q rows cols => by rw [store_coloringAt]; exact .refl _
  induction hp with
  | start => exact .refl _
  | set _ hset ih => exact ih.trans (keptByUse_shape.set hset)
  | setInUnits _ hset ih => exact ih.trans (keptByUse_shape.setInUnits hset)
  | run observer w _ ih => exact ih.trans (keptByUse_shape.runObserved observer _ w)
  | totals quantities inputs mode _ ih =>
    exact ih.trans (keptByUse_shape.totals quantities inputs mode _)
  | coloring quantities inputs file _ ih =>
    exact ih.trans (keptByUse_shape.coloring_of (hat file) quantities inputs _)
  | totalsColored quantities inputs file _ ih =>
    exact ih.trans (keptByUse_shape.totalsColored_of (hat file) quantities inputs _)
  | checkPartials method _ ih => exact ih.trans (keptByUse_shape.checkPartials method _)
  | checkTotals quantities inputs mode method _ ih =>
    exact ih.trans (keptByUse_shape.checkTotals quantities inputs mode method _)

/-! ### The residuals of outputs -/

/-- The residual of an output: its name, and the norm of the residuals of its slots. -/
def IsResidual (p : Problem α) (a : ResidualEntry α) : Prop :=
  ∃ e ∈ p.store.entries, e.kind = .output ∧ e.name = a.name ∧
    ∃ x, p.store.residual e.name = .ok x ∧ a.norm = Vec.norm x

/-- An output was registered before another. -/
def Precedes (p : Problem α) (a b : ResidualEntry α) : Prop :=
  ∃ i j, i < j ∧ p.store.id a.name = .ok i ∧ p.store.id b.name = .ok j

variable {p : Problem α} {a b : ResidualEntry α} {i : Nat} {tol : α}

theorem residualEntry_eq_some : p.residualEntry i = some a ↔
    ∃ e, p.store.entries[i]? = some e ∧ e.kind = .output ∧
      ∃ r, e.slots? = some r ∧ ⟨e.name, Vec.norm (Vec.slice p.store.residuals r)⟩ = a := by
  unfold residualEntry Store.isInput Store.slots? Store.nameOf
  cases he : p.store.entries[i]? with
  | none => simp
  | some e =>
    cases hkind : e.kind <;> simp [hkind]

/-- Every output has its residual under its id. -/
theorem isResidual_iff (hnames : p.store.names.Nodup) :
    p.IsResidual a ↔ ∃ i, p.residualEntry i = some a := by
  simp only [residualEntry_eq_some]
  constructor
  · rintro ⟨e, he, hkind, hname, x, hx, hnorm⟩
    obtain ⟨i, hi⟩ := Array.getElem?_of_mem he
    obtain ⟨j, hj, hslots⟩ := bind_eq_ok.1 hx
    obtain rfl : j = i := Option.some.inj
      ((Store.id_eq_ok.1 hj).symm.trans (Store.find?_name hnames hi))
    have hplace : p.store.slots? j = e.slots? := by rw [Store.slots?, hi, Option.bind_some]
    rw [hplace] at hslots
    cases hr : e.slots? with
    | none =>
      rw [hr] at hslots
      cases hslots
    | some r =>
      rw [hr] at hslots
      cases hslots
      exact ⟨j, e, hi, hkind, r, hr, by rw [hname, ← hnorm]⟩
  · rintro ⟨i, e, hi, hkind, r, hr, rfl⟩
    have hslots : p.store.slotsOf e.name = some r := (Store.slotsOf_name hnames hi).trans hr
    exact ⟨e, Array.mem_of_getElem? hi, hkind, rfl, _, Store.residual_of_slotsOf hslots, rfl⟩

/-- The name of a residual is that of its output. -/
theorem id_of_residualEntry (hnames : p.store.names.Nodup) (h : p.residualEntry i = some a) :
    p.store.id a.name = .ok i := by
  obtain ⟨e, hi, -, r, -, rfl⟩ := residualEntry_eq_some.1 h
  exact Store.id_eq_ok.2 (Store.find?_name hnames hi)

theorem pairwise_residuals (hnames : p.store.names.Nodup) :
    (p.store.ids.filterMap p.residualEntry).Pairwise p.Precedes := by
  rw [List.pairwise_filterMap]
  exact List.pairwise_lt_range.imp fun hij _ ha _ hb =>
    ⟨_, _, hij, id_of_residualEntry hnames ha, id_of_residualEntry hnames hb⟩

/-- An output is listed if its norm exceeds the tolerance. -/
theorem mem_listResiduals (hnames : p.store.names.Nodup) :
    a ∈ p.listResiduals tol ↔ p.IsResidual a ∧ tol < a.norm := by
  have hids : (∃ i ∈ p.store.ids, p.residualEntry i = some a) ↔ ∃ i, p.residualEntry i = some a := by
    refine ⟨fun ⟨i, _, h⟩ => ⟨i, h⟩, fun ⟨i, h⟩ => ⟨i, ?_, h⟩⟩
    obtain ⟨e, he, -⟩ := residualEntry_eq_some.1 h
    exact List.mem_range.2 (Array.getElem?_eq_some_iff.1 he).1
  rw [listResiduals, List.mem_mergeSort, List.mem_filter, List.mem_filterMap, hids,
    ← isResidual_iff hnames, decide_eq_true_iff]

/-! ### The list -/

/-- **What a list of residuals says.** -/
structure Lists (p : Problem α) (tol : α) (list : List (ResidualEntry α)) : Prop where
  /-- Each output occurs once at most. -/
  nodup : (list.map ResidualEntry.name).Nodup
  /-- Norms do not grow, and equal ones are in the order of registration. -/
  sorted : list.Pairwise fun a b => b.norm ≤ a.norm ∧ (a.norm ≤ b.norm → p.Precedes a b)
  /-- The outputs whose norms exceed the tolerance are listed, each with its norm, and no other. -/
  listed : ∀ a, a ∈ list ↔ p.IsResidual a ∧ tol < a.norm
  /-- Every output has a norm, -/
  outputs : ∀ e ∈ p.store.entries, e.kind = .output → ∃ a, p.IsResidual a ∧ a.name = e.name
  /-- which is within the tolerance or undefined if the output is not listed. -/
  hidden : ∀ a, p.IsResidual a → a ∉ list → a.norm ≤ tol ∨ Scalar.isUndefined a.norm = true

/-- Names differ, and every output has slots. -/
structure Listable (s : Store α) : Prop where
  names : s.names.Nodup
  slots : ∀ e ∈ s.entries, e.kind = .output → ∃ r, e.slots? = some r

omit [Scalar α] in
theorem Precedes.name_ne (h : p.Precedes a b) : a.name ≠ b.name := by
  obtain ⟨i, j, hij, hi, hj⟩ := h
  intro hname
  rw [hname, hj] at hi
  cases hi
  exact absurd hij (lt_irrefl _)

/-- What exceeds a tolerance is positive. -/
theorem zero_lt_of_lt [LinearScalar α] {x : α} (htol : (0 : α) ≤ tol) (h : tol < x) : 0 < x := by
  obtain ⟨hle, hnot⟩ := (LinearScalar.lt_iff_le_not_le _ _).1 h
  exact (LinearScalar.lt_iff_le_not_le _ _).2 ⟨LinearScalar.le_trans _ _ _ htol hle,
    fun hx => hnot (LinearScalar.le_trans _ _ _ hx htol)⟩

/-- **Lists of residuals** of a problem whose outputs have slots. -/
theorem lists_listResiduals [RankedScalar α] (hs : Listable p.store) (htol : (0 : α) ≤ tol) :
    p.Lists tol (p.listResiduals tol) where
  nodup := by
    refine ((List.mergeSort_perm _ _).map ResidualEntry.name).nodup_iff.2 (List.pairwise_map.2 ?_)
    exact ((pairwise_residuals hs.names).filter _).imp Precedes.name_ne
  sorted := by
    have htrans : ∀ a b c : ResidualEntry α, Scalar.totalLe b.norm a.norm = true →
        Scalar.totalLe c.norm b.norm = true → Scalar.totalLe c.norm a.norm = true :=
      fun _ _ _ hab hbc => RankedScalar.totalLe_trans _ _ _ hbc hab
    have htotal : ∀ a b : ResidualEntry α,
        (Scalar.totalLe b.norm a.norm || Scalar.totalLe a.norm b.norm) = true :=
      fun _ _ => RankedScalar.totalLe_total _ _
    have hsorted := pairwise_mergeSort htrans htotal
      ((pairwise_residuals hs.names).filter fun a => decide (tol < a.norm))
    refine hsorted.imp_of_mem fun {a b} ha hb ⟨hle, hties⟩ => ?_
    have hpos : ∀ c ∈ p.listResiduals tol, 0 < c.norm := fun c hc =>
      zero_lt_of_lt htol ((mem_listResiduals hs.names).1 hc).2
    rw [RankedScalar.totalLe_iff _ _ (hpos b hb) (hpos a ha)] at hle
    rw [RankedScalar.totalLe_iff _ _ (hpos a ha) (hpos b hb)] at hties
    exact ⟨hle, hties⟩
  listed _ := mem_listResiduals hs.names
  outputs e he hkind := by
    obtain ⟨r, hr⟩ := hs.slots e he hkind
    obtain ⟨i, hi⟩ := Array.getElem?_of_mem he
    have hslots : p.store.slotsOf e.name = some r := (Store.slotsOf_name hs.names hi).trans hr
    exact ⟨⟨e.name, _⟩, ⟨e, he, hkind, rfl, _, Store.residual_of_slotsOf hslots, rfl⟩, rfl⟩
  hidden a ha hnot := by
    have hle : ¬ tol < a.norm := fun h => hnot ((mem_listResiduals hs.names).2 ⟨ha, h⟩)
    have htol' := (OrderedScalar.isUndefined_of_le _ _ htol).2
    cases hundefined : Scalar.isUndefined a.norm with
    | true => exact .inr rfl
    | false => exact .inl (OrderedScalar.le_of_not_lt _ _ htol' hundefined hle)

/-- The outputs of a model that is laid out have slots, since they are outputs of its units. -/
theorem listable_of_laid {m : Model α} {order : List Nat} {s : Store α} {l : Arrangement α}
    (h : Model.Laid m order s l) : Listable s := by
  refine ⟨h.sound.names, fun e he hkind => ?_⟩
  have hunique : ∀ e' ∈ s.entries, e'.name = e.name → e' = e := fun e' he' hname =>
    eq_of_key_eq h.sound.names he' he hname
  have hname : e.name ∈ s.names := List.mem_map.2 ⟨e, by simpa using he, rfl⟩
  rw [h.names] at hname
  rcases List.mem_append.1 hname with hname | hname
  · obtain ⟨u, -, c, hc, v, hv, hpath⟩ := Model.mem_outputPaths hname
    obtain ⟨r, hr⟩ := Variable.exists_placed (l.unit u).outputs.start hv
    obtain ⟨i, e', he', hout⟩ := (h.outputs u c hc).1 v r hr
    obtain rfl := hunique e' (Array.mem_of_getElem? he') (hout.name.trans hpath)
    exact ⟨r, hout.slots⟩
  · obtain ⟨c, hc, hpath⟩ := List.mem_flatMap.1 hname
    obtain ⟨v, hv, hpath⟩ := List.mem_map.1 hpath
    obtain ⟨i, e', he', hin⟩ := h.inputs c (Array.mem_toList_iff.1 hc) v hv
    obtain rfl := hunique e' (Array.mem_of_getElem? he') (hin.name.trans hpath)
    exact absurd (hkind.symm.trans hin.kind) (by decide)

/-- **Whatever a problem has been through, its list of residuals** has each output once at most, in the
order of norms and, where these are equal, of registration; each with the norm of its residuals; and an
output that is not listed has a norm within the tolerance or an undefined one. -/
theorem listResiduals_spec [RankedScalar α] [BitPattern α] [Shown α] {m : Model α}
    {start p : Problem α} {tol : α} (hm : m.Built) (hstart : m.setup = .ok start)
    (hp : start.Arrives p) (htol : (0 : α) ≤ tol) : p.Lists tol (p.listResiduals tol) := by
  refine lists_listResiduals ?_ htol
  have hlistable := listable_of_laid (Model.setup_spec hm.sound hstart).laid
  have hshape := hp.shape
  refine ⟨?_, ?_⟩
  · rw [Store.names, hshape.entries]
    exact hlistable.names
  · rw [hshape.entries]
    exact hlistable.slots

end Problem

namespace Doubling

/-- Two doubling units in a row, ready to run. -/
def chainProblem : Problem ℚ := okOr problem chain.setup

/-- The same after a check of totals: the units have been evaluated where they were never run. -/
def checkedChain : Problem ℚ :=
  stateAfter (chainProblem.checkTotals ["second.y"] ["double.x"] .fwd (.fd ⟨.forward, 1 / 2, .abs⟩))

/-- Both outputs have a residual of 1, so they are listed as they were registered. -/
theorem lists_checkedChain : chain.Built ∧ chain.setup = .ok chainProblem ∧
    chainProblem.Arrives checkedChain ∧ (0 : ℚ) ≤ 1 / 2 ∧
    checkedChain.Lists (1 / 2) (checkedChain.listResiduals (1 / 2)) ∧
    checkedChain.store.ids.map (fun i => (checkedChain.residualEntry i).map fun a => (a.name, a.norm)) =
      [some ("double.y", 1), some ("second.y", 1), none, none] := by
  have hsetup : chain.setup = .ok chainProblem := eq_ok_of_isOk _ (by decide +kernel)
  have hcheck : chainProblem.Arrives checkedChain := .checkTotals _ _ _ _ .start
  have htol : (0 : ℚ) ≤ 1 / 2 := by norm_num
  exact ⟨built_chain, hsetup, hcheck, htol,
    Problem.listResiduals_spec built_chain hsetup hcheck htol, by decide +kernel⟩

end Doubling

/-! ### A division by zero -/

namespace Undefined

open Doubling (okOr eq_ok_of_isOk)

/-- `y = 1 / x`. -/
def discipline (α : Type) [Scalar α] : ExplicitDiscipline α :=
  { (ExplicitDiscipline.blank : ExplicitDiscipline α) with
    inputs := [Variable.named "x"]
    outputs := [Variable.named "y"]
    compute := fun inputs outputs =>
      .ok ⟨⟩ (outputs.setEntry "y" 0 (1 / inputs.value "x")).data }

/-- The unit. -/
def component : Component Float :=
  okOr ⟨"", .explicit (discipline Float), .empty, .empty, .empty, none, #[]⟩
    (Component.declare "u" (.explicit (discipline Float)))

theorem declare_eq : Component.declare "u" (.explicit (discipline Float)) = .ok component :=
  eq_ok_of_isOk _ (by decide +kernel)

/-- The model of this unit, with default options. -/
def plain : Model Float := okOr .empty (Model.empty.addUnit component)

theorem addUnit_eq : Model.empty.addUnit component = .ok plain :=
  eq_ok_of_isOk _ (by decide +kernel)

/-- The model with a tolerance of 1 for the sparsity of totals, which are not computed here: the default
one is rounded from a decimal, and that does not evaluate. -/
def model : Model Float :=
  plain.withOptions ⟨none, [], ⟨.direct, ⟨.auto, .direct, 1, 3, 11⟩, none⟩, none⟩

theorem built : model.Built :=
  .withOptions _ (.addUnit .empty ⟨by decide +kernel, by decide +kernel⟩ declare_eq addUnit_eq)

/-- The model ready to run. -/
def problem : Problem Float :=
  okOr ⟨⟨#[], .empty⟩, .empty, #[], [], .default, [], [], none, .inMemory⟩ model.setup

theorem setup_eq : model.setup = .ok problem := eq_ok_of_isOk _ (by decide +kernel)

/-- With an input at which the unit divides by zero. -/
def moved : Problem Float := okOr problem (problem.set "u.x" #[0])

theorem set_eq : problem.set "u.x" #[0] = .ok moved := eq_ok_of_isOk _ (by decide +kernel)

/-- A run from there. -/
def outcome : EStateM.Result (ModelError Float) (Problem Float × Unit) (RunReport Float) :=
  Problem.runObserved .silent (moved, ())

/-- The problem after the run. -/
def ran : Problem Float := (stateAfter outcome).1

/-- **An output whose residual is undefined is not listed**: the unit divides by zero, so its residual is
the difference of two infinities. The run reports that it did not converge, and the list is empty. -/
theorem not_listed : model.Built ∧ model.setup = .ok problem ∧ problem.Arrives ran ∧
    (0 : Float) ≤ 1e-8 ∧ (resultOf outcome).map RunReport.isConverged = some false ∧
    ran.listResiduals 1e-8 = [] ∧ ∃ a, ran.IsResidual a ∧ a.name = "u.y" ∧ ¬a.norm ≤ 1e-8 := by
  have harrives : problem.Arrives ran := .run .silent () (.set .start set_eq)
  have htol : (0 : Float) ≤ 1e-8 := by decide +kernel
  have hnames : ran.store.names.Nodup := by decide +kernel
  have hentry : (ran.residualEntry 0).map (fun a => (a.name, decide (a.norm ≤ 1e-8))) =
      some ("u.y", false) := by decide +kernel
  obtain ⟨a, ha, hname⟩ := Option.map_eq_some_iff.1 hentry
  obtain ⟨hname, hnorm⟩ := Prod.mk.inj hname
  have hresidual : ran.IsResidual a := (Problem.isResidual_iff hnames).2 ⟨0, ha⟩
  have hnone : ((ran.store.ids.filterMap ran.residualEntry).filter fun a =>
      decide (1e-8 < a.norm)).isEmpty = true := by decide +kernel
  refine ⟨built, setup_eq, harrives, htol, by decide +kernel, ?_, a, hresidual, hname,
    of_decide_eq_false hnorm⟩
  rw [Problem.listResiduals, List.isEmpty_iff.1 hnone, List.mergeSort_nil]

end Undefined

end Mdao
