import Mathlib
import Mdao.Proofs.Model.FeedForward
import Mdao.Proofs.Model.Restored
import Mdao.Proofs.Model.Sensitivity
import Mdao.Proofs.Model.Slopes

/-!
# Totals by differences of runs

In a model of affine units without coupled blocks, a run from any slots ends where all residuals
vanish and the independent inputs are as given (`Differentiated.runAt_eq`). Two such ends differ by
what the inverse Jacobian makes of the differences of the independent inputs, whatever the slots were
that the runs started from; so a difference of runs over any step other than zero is a column of exact
totals, in every form, and all of them are the exact totals (`Differentiated.differenceTotals_eq`).
-/

namespace Mdao

open Vec Matrix

variable {α : Type} [ExactScalar α]

namespace Problem

open Assembly Model

variable {m : Model α} {start p q : Problem α} {f : String → Array α → Array α}
  {A : String → Nat → Nat → α} {names : List String} {rows cols : Quantities α}

/-! ### Reading quantities -/

/-- What quantities read from slots: each entry scaled by its factor and moved by an offset. -/
def readings (es : List (Nat × α)) (offsets : List α) (slots : Array α) : Array α :=
  (List.zipWith (fun e o => e.2 * entry slots e.1 + o) es offsets).toArray

theorem size_readings {es : List (Nat × α)} {offsets : List α} (h : offsets.length = es.length)
    (slots : Array α) : (readings es offsets slots).size = es.length := by
  simp [readings, h]

theorem entry_readings {es : List (Nat × α)} {offsets : List α} (h : offsets.length = es.length)
    (slots : Array α) {i : Nat} (hi : i < es.length) : entry (readings es offsets slots) i =
      (es.getD i (0, 0)).2 * entry slots (es.getD i (0, 0)).1 + offsets.getD i 0 := by
  rw [readings, entry_toArray, List.getD_eq_getElem _ _ (by simp [h, hi]), List.getElem_zipWith,
    List.getD_eq_getElem _ _ hi, List.getD_eq_getElem _ _ (h ▸ hi)]

theorem readings_append {es es' : List (Nat × α)} {offsets offsets' : List α}
    (h : offsets.length = es.length) (slots : Array α) :
    readings (es ++ es') (offsets ++ offsets') slots =
      readings es offsets slots ++ readings es' offsets' slots := by
  rw [readings, List.zipWith_append h.symm, ← List.append_toArray]
  rfl

/-- The readings of one quantity. -/
theorem readings_span (r : Span) (scale offset : α) (slots : Array α) :
    readings (r.indices.map fun s => (s, scale)) (List.replicate r.size offset) slots =
      (slice slots r).map fun y => scale * y + offset := by
  have hsize : (List.replicate r.size offset).length = (r.indices.map fun s => (s, scale)).length := by
    simp
  refine ext_entry (by rw [size_readings hsize]; simp) fun i hi => ?_
  have hlt : i < r.size := by
    rw [size_readings hsize] at hi
    simpa using hi
  rw [entry_readings hsize _ (by simpa using hlt), entry_map_slice _ _ hlt]
  simp [Span.indices, hlt]

/-- **All quantities are read from their slots**, wherever the units have received their inputs. -/
theorem readAll_of_resolve (hm : m.Sound) (h : IsSetUp m start)
    (hnames : ∀ name ∈ names, m.IsQuantity name) {quantities : Quantities α}
    (hrows : resolve start.quantity quantities names = .ok rows) :
    ∃ es offsets, rows.entries = quantities.entries ++ es ∧ offsets.length = es.length ∧
      ∀ p : Problem α, start.Follows p → (∀ u < m.units.size,
        p.assembly.inputsOf (start.arrangement.unit u) =
          received start.arrangement u p.store.slots) →
        p.readAll names = .ok (readings es offsets p.store.slots) := by
  induction names generalizing quantities with
  | nil =>
    cases hrows
    exact ⟨[], [], (List.append_nil _).symm, rfl, fun p _ _ => rfl⟩
  | cons name names ih =>
    obtain ⟨r, scale, offset, hlookup, -, hvalue⟩ :=
      h.quantity_value hm (hnames name List.mem_cons_self)
    simp only [resolve, hlookup] at hrows
    obtain ⟨es, offsets, hentries, hlength, hread⟩ :=
      ih (fun other hother => hnames other (List.mem_cons_of_mem _ hother)) hrows
    have hown : (List.replicate r.size offset).length =
        (r.indices.map fun s => (s, scale)).length := by simp
    refine ⟨(r.indices.map fun s => (s, scale)) ++ es, List.replicate r.size offset ++ offsets, ?_, ?_,
      fun p hp hreceived => ?_⟩
    · rw [hentries, Quantities.push, List.append_assoc]
    · rw [List.length_append, List.length_append, hown, hlength]
    · have hget : p.get name = .ok ((slice p.store.slots r).map fun y => scale * y + offset) := by
        rw [Problem.get, store, hvalue p.assembly hp.assembly hreceived]
        rfl
      rw [readAll, hget, hread p hp hreceived, readings_append hown, readings_span]
      rfl

/-! ### Where runs end -/

/-- Slots at which all residuals vanish, with the independent inputs of other slots. -/
structure SettledFrom (q : Problem α) (base s : Array α) : Prop where
  size : s.size = q.arrangement.size
  vanishes : ∀ (u : Nat) (c : Component α), q.assembly.units[u]? = some c →
    Jacobian.VanishesAt q.arrangement u c s
  kept : ∀ k ∈ q.arrangement.independentsIn (.upTo q.arrangement.size), entry s k = entry base k

namespace Differentiated

/-- The residuals of units vanish once one pass has settled them. -/
theorem settledFrom_of_passed (h : Differentiated m start f A q) {base : Array α} {a : Assembly α}
    (ha : Passed m f start base start.order a) : q.SettledFrom base a.store.slots := by
  have hq := h.follows
  refine ⟨?_, fun u c hc => ?_, fun k hk => ?_⟩
  · rw [hq.arrangement, h.setUp.laid.size]
    exact ha.follows.store.slots
  · obtain ⟨hu, haffine, hhosts, -⟩ := h.unit hc
    have hlt := h.mem_order.1 hu
    have hreceived := hhosts.size_received a.store.slots
    have hslice : (slice a.store.slots (q.arrangement.unit u).outputs).size = c.outputs.size := by
      rw [size_slice, hhosts.fits.size_outputs]
    have hunits : Component.AllAlike m.units q.assembly.units := h.setUp.units ▸ hq.assembly.units
    have hname := (hunits.alike u _ _ (Array.getElem?_eq_getElem hlt) hc).name
    have hsettled := ha.settled u (hq.order ▸ hu) _ (Array.getElem?_eq_getElem hlt)
    rw [← hq.arrangement, ← hname] at hsettled
    refine ⟨zeros c.outputs.size, size_zeros _, ?_⟩
    rw [haffine.computes.residuals_eq hreceived hslice (size_zeros _), ← hsettled]
    refine congrArg (EStateM.Result.ok _) (ext_entry (by rw [size_sub rfl, hslice, size_zeros])
      fun i _ => ?_)
    rw [entry_sub rfl, sub_self, entry_zeros]
  · rw [hq.arrangement] at hk
    obtain ⟨r, hr, hkr⟩ := ((independentsIn_eq h.setUp.laid).2 k).1 hk
    exact ha.kept r hr k hkr

/-- **A run from any slots** ends where all residuals vanish and the independent inputs are as given,
and reads the quantities there. -/
theorem runAt_eq (h : Differentiated m start f A q) (hoptions : m.options = .default)
    (hff : m.FeedForward) {es : List (Nat × α)} {offsets : List α}
    (hread : ∀ p : Problem α, start.Follows p → (∀ u < m.units.size,
      p.assembly.inputsOf (start.arrangement.unit u) =
        received start.arrangement u p.store.slots) →
      p.readAll names = .ok (readings es offsets p.store.slots))
    (hp : start.Follows p) {base : Array α} (hbase : base.size = q.arrangement.size) :
    ∃ s p', runAt names base p = .ok (readings es offsets s) p' ∧ start.Follows p' ∧
      q.SettledFrom base s := by
  have hslots : start.Follows (p.withSlots base) :=
    .trans _ _ _ hp (.withSlots p (hbase.trans (h.size_slots hp).symm))
  obtain ⟨p', hrun, hp', hpassed, hreceived⟩ := run_of_follows .silent () h.built.sound h.setUp
    hoptions hff (fun c hc => (h.affine c hc).computes) hslots
  refine ⟨p'.store.slots, p', ?_, hp', h.settledFrom_of_passed hpassed⟩
  simp only [runAt, run, hrun, hread p' hp' hreceived]

/-- **Two ends of runs differ by what the inverse Jacobian makes of a change of one independent
input.** -/
theorem entry_of_settled (h : Differentiated m start f A q) (hff : m.FeedForward)
    {base s s' : Array α} {k : Nat} {d : α} (hs : q.SettledFrom base s)
    (hs' : q.SettledFrom (base.modify k (· + d)) s') (hbase : base.size = q.arrangement.size)
    (hk : k ∈ q.arrangement.independentsIn (.upTo q.arrangement.size)) {i : Nat}
    (hi : i < q.arrangement.size) :
    entry s' i = entry s i + coeff q.totalMatrix⁻¹ i k * d := by
  obtain ⟨p, hp, hq⟩ := h.refreshed
  have hsize : s'.size = s.size := hs'.size.trans hs.size.symm
  have hsub := entry_sub_of_solved h.built h.setUp hp hq (fun u c hc =>
    ((h.unit hc).2.1).isAffine (h.slopes u c hc) _ _) (h.det_ne_zero hff) hs.size hs'.size hs.vanishes
    hs'.vanishes hi
  obtain ⟨hnodup, hmem⟩ := independentsIn_eq h.placed.laid
  obtain ⟨hindependents, -, -⟩ := slot_cases h.placed.laid
  have hchange : ∀ j ∈ q.arrangement.independentsIn (.upTo q.arrangement.size),
      entry (sub s' s) j = if k = j then d else 0 := fun j hj => by
    obtain ⟨r, hr, hjr⟩ := (hmem j).1 hj
    have hlt : j < base.size := by
      rw [hbase]
      exact (hindependents r hr j hjr).1
    rw [entry_sub hsize, hs'.kept j hj, hs.kept j hj, entry_modify_add _ _ _ _ hlt,
      add_sub_cancel_left]
  rw [← sub_eq_iff_eq_add', ← entry_sub hsize, hsub, ← List.sum_toFinset _ hnodup,
    Finset.sum_eq_single_of_mem k (List.mem_toFinset.2 hk) fun j hj hne => ?_]
  · rw [hchange k hk, if_pos rfl]
  · rw [hchange j (List.mem_toFinset.1 hj), if_neg hne.symm, mul_zero]

/-! ### Columns -/

/-- A column of exact totals. -/
noncomputable def totalColumn (q : Problem α) (rows : Quantities α) (k : Nat) : Array α :=
  (rows.entries.map fun e => e.2 * coeff q.totalMatrix⁻¹ e.1 k).toArray

theorem totalColumn_eq_tabulate (q : Problem α) (rows : Quantities α) (k : Nat) :
    totalColumn q rows k = tabulate rows.length fun i => (rows.entries.getD i (0, 0)).2 *
      coeff q.totalMatrix⁻¹ (rows.entries.getD i (0, 0)).1 k :=
  congrArg List.toArray (map_eq_map_range rows.entries (0, 0) _)

/-- What the runs of a check read, wherever they end. -/
structure Reads (start : Problem α) (m : Model α) (names : List String) (rows : Quantities α)
    (offsets : List α) : Prop where
  length : offsets.length = rows.length
  read : ∀ p : Problem α, start.Follows p → (∀ u < m.units.size,
    p.assembly.inputsOf (start.arrangement.unit u) = received start.arrangement u p.store.slots) →
      p.readAll names = .ok (readings rows.entries offsets p.store.slots)

variable {offsets : List α} {base s : Array α} {k : Nat}

/-- The readings at the end of a run with one independent input changed. -/
theorem entry_readings_of_settled (h : Differentiated m start f A q) (hff : m.FeedForward)
    (hreads : Reads start m names rows offsets) (hrows : rows.Within q.arrangement.size)
    (hs : q.SettledFrom base s) (hbase : base.size = q.arrangement.size)
    (hk : k ∈ q.arrangement.independentsIn (.upTo q.arrangement.size)) {d : α} {s' : Array α}
    (hs' : q.SettledFrom (base.modify k (· + d)) s') {i : Nat} (hi : i < rows.length) :
    entry (readings rows.entries offsets s') i = entry (readings rows.entries offsets s) i +
      (rows.entries.getD i (0, 0)).2 *
        coeff q.totalMatrix⁻¹ (rows.entries.getD i (0, 0)).1 k * d := by
  have hlt : (rows.entries.getD i (0, 0)).1 < q.arrangement.size := hrows.entry hi
  rw [entry_readings hreads.length _ hi, entry_readings hreads.length _ hi,
    h.entry_of_settled hff hs hs' hbase hk hlt]
  ring

/-- **A difference of runs is a column of exact totals**, in every form and over any step other than
zero. -/
theorem differenceColumn_eq (h : Differentiated m start f A q) (hoptions : m.options = .default)
    (hff : m.FeedForward) (hreads : Reads start m names rows offsets)
    (hrows : rows.Within q.arrangement.size) (hs : q.SettledFrom base s)
    (hbase : base.size = q.arrangement.size)
    (hk : k ∈ q.arrangement.independentsIn (.upTo q.arrangement.size)) {o : FdOptions α}
    (ho : o.step ≠ 0) (hp : start.Follows p) :
    ∃ p', differenceColumn names o base (readings rows.entries offsets s) k p =
      .ok (totalColumn q rows k) p' ∧ start.Follows p' := by
  have hstep : o.stepFor (entry base k) ≠ 0 := FdOptions.stepFor_ne_zero ho _
  generalize hd : o.stepFor (entry base k) = d at hstep
  have hsize : ∀ s : Array α, (readings rows.entries offsets s).size = rows.length := fun s =>
    size_readings hreads.length s
  have hmoved : ∀ d : α, (base.modify k (· + d)).size = q.arrangement.size := fun d => by simpa
  rw [totalColumn_eq_tabulate]
  unfold differenceColumn
  simp only [hd]
  cases o.form with
  | forward =>
    obtain ⟨s', p', hrun, hp', hs'⟩ := h.runAt_eq hoptions hff hreads.read hp (hmoved d)
    refine ⟨p', (bind_of_ok _ hrun).trans ?_, hp'⟩
    refine congrArg (EStateM.Result.ok · p') (zipWith_eq_tabulate (hsize _) (hsize _) fun i hi => ?_)
    rw [h.entry_readings_of_settled hff hreads hrows hs hbase hk hs' hi]
    field_simp
    ring
  | backward =>
    obtain ⟨s', p', hrun, hp', hs'⟩ := h.runAt_eq hoptions hff hreads.read hp (hmoved (-d))
    refine ⟨p', (bind_of_ok _ hrun).trans ?_, hp'⟩
    refine congrArg (EStateM.Result.ok · p') (zipWith_eq_tabulate (hsize _) (hsize _) fun i hi => ?_)
    rw [h.entry_readings_of_settled hff hreads hrows hs hbase hk hs' hi]
    field_simp
    ring
  | central =>
    obtain ⟨s1, p1, hrun1, hp1, hs1⟩ := h.runAt_eq hoptions hff hreads.read hp (hmoved d)
    obtain ⟨s2, p2, hrun2, hp2, hs2⟩ := h.runAt_eq hoptions hff hreads.read hp1 (hmoved (-d))
    refine ⟨p2, ((bind_of_ok _ hrun1).trans (bind_of_ok _ hrun2)).trans ?_, hp2⟩
    refine congrArg (EStateM.Result.ok · p2) (zipWith_eq_tabulate (hsize _) (hsize _) fun i hi => ?_)
    rw [h.entry_readings_of_settled hff hreads hrows hs hbase hk hs1 hi,
      h.entry_readings_of_settled hff hreads hrows hs hbase hk hs2 hi, two_eq]
    field_simp
    ring

/-- Columns one after the other. -/
theorem differenceColumns_eq (h : Differentiated m start f A q) (hoptions : m.options = .default)
    (hff : m.FeedForward) (hreads : Reads start m names rows offsets)
    (hrows : rows.Within q.arrangement.size) (hs : q.SettledFrom base s)
    (hbase : base.size = q.arrangement.size) {o : FdOptions α} (ho : o.step ≠ 0) {ks : List Nat}
    (hks : ∀ k ∈ ks, k ∈ q.arrangement.independentsIn (.upTo q.arrangement.size))
    (hp : start.Follows p) :
    ∃ p', differenceColumns names o base (readings rows.entries offsets s) ks p =
      .ok (ks.map (totalColumn q rows)) p' ∧ start.Follows p' := by
  induction ks generalizing p with
  | nil => exact ⟨p, rfl, hp⟩
  | cons k ks ih =>
    obtain ⟨p1, hcolumn, hp1⟩ := h.differenceColumn_eq hoptions hff hreads hrows hs hbase
      (hks k List.mem_cons_self) ho hp
    obtain ⟨p2, hcolumns, hp2⟩ := ih (fun j hj => hks j (List.mem_cons_of_mem _ hj)) hp1
    refine ⟨p2, ?_, hp2⟩
    rw [differenceColumns, bind_of_ok _ hcolumn, bind_of_ok _ hcolumns]
    rfl

/-- **Totals by differences of runs are the exact totals**, from any slots. -/
theorem differenceTotals_eq (h : Differentiated m start f A q) (hoptions : m.options = .default)
    (hff : m.FeedForward) (hnames : ∀ name ∈ names, m.IsQuantity name)
    (hresolve : start.resolveOf names = .ok rows) (hrows : rows.Within q.arrangement.size)
    (hcols : ∀ k ∈ cols.slots, k ∈ q.arrangement.independentsIn (.upTo q.arrangement.size))
    {o : FdOptions α} (ho : o.step ≠ 0) :
    ∃ p, differenceTotals names cols o q = .ok (exactTotals q.totalMatrix rows cols) p := by
  obtain ⟨es, offsets, hentries, hlength, hread⟩ :=
    readAll_of_resolve h.built.sound h.setUp hnames hresolve
  obtain rfl : es = rows.entries := hentries.symm
  have hreads : Reads start m names rows offsets := ⟨hlength, hread⟩
  have hbase : q.store.slots.size = q.arrangement.size := h.size_slots h.follows
  obtain ⟨s, p1, hcenter, hp1, hs⟩ := h.runAt_eq hoptions hff hreads.read h.follows hbase
  obtain ⟨p2, hcolumns, hp2⟩ :=
    h.differenceColumns_eq hoptions hff hreads hrows hs hbase ho hcols hp1
  have hdifferences : differences names cols o q.store.slots q =
      .ok (exactTotals q.totalMatrix rows cols) p2 := by
    rw [differences, bind_of_ok _ hcenter, bind_of_ok _ hcolumns, size_readings hlength,
      ← scaledTable_coeff_inv]
    exact congrArg (EStateM.Result.ok · p2) (ofColumns_eq_scaledTable rows cols _)
  -- the evaluation at the end cannot fail
  have hback : start.Follows (p2.withSlots q.store.slots) :=
    .trans _ _ _ hp2 (.withSlots p2 (hbase.trans (h.size_slots hp2).symm))
  obtain ⟨_, p3, heval⟩ : ∃ b p3, evaluateAll (p2.withSlots q.store.slots) = .ok b p3 :=
    ⟨_, _, (eq_ok_of_isResult (isEvaluable_of_total h.built.sound h.setUp hback
      (fun c hc x y r hx hy hr => ⟨_, (h.affine c hc).computes.residuals_eq hx hy hr⟩) _ (.refl _)
      rfl)).choose_spec⟩
  refine ⟨p3, ?_⟩
  unfold differenceTotals
  simp only [hdifferences, heval]

end Differentiated

end Problem

end Mdao
