import Mdao.Proofs.Model.Determined
import Mdao.Proofs.Model.Perturbed
import Mdao.Proofs.Model.WellFormed

/-!
# Totals of affine models

Where all units are affine, with exact derivatives, totals are not only rates of change: between any
two states of a model in which all residuals vanish, every quantity changes by what its totals make
of the changes of the independent inputs (`Problem.change_eq_totals`), whether units depend on each
other or not, and with connected inputs read in their own units of measure.
-/

namespace Mdao

open Vec Matrix

variable {α : Type}

/-! ### Blocks of totals -/

namespace Totals

variable [ExactScalar α] {t : Totals α}

/-- An entry of a block of totals. -/
theorem entry_block {rows cols : Span} {i j : Nat} (hi : i < rows.size) (hj : j < cols.size) :
    entry (t.block rows cols).values (i * cols.size + j) =
      entry t.values ((rows.start + i) * t.shape.2 + (cols.start + j)) := by
  have hvalues : (t.block rows cols).values = rowMajor rows.size cols.size fun i j =>
      entry t.values ((rows.start + i) * t.shape.2 + (cols.start + j)) := by
    rw [← flatMap_range_eq]
    simp only [block, Span.indices, List.range'_eq_map_range, List.flatMap_map, List.map_map]
    rfl
  rw [hvalues, entry_rowMajor _ hi hj]

/-- **A change is what the totals make of the changes of the inputs.** For each input there is a
block of totals, with a row for each entry of the quantity and a column for each entry of the input;
the quantity changes by the sum of the products of the blocks with the changes of the inputs. -/
def Explains (t : Totals α) (inputs : List String) (name : String)
    (given given' : String → Option (Array α)) (y y' : Array α) : Prop :=
  ∃ (x x' : String → Array α) (b : String → DenseBlock α),
    (∀ input ∈ inputs, given input = some (x input) ∧ given' input = some (x' input) ∧
      (x' input).size = (x input).size ∧ t.get? name input = some (b input) ∧
      (b input).shape = (y.size, (x input).size)) ∧
    y'.size = y.size ∧ ∀ i < y.size, entry y' i - entry y i =
      (inputs.map fun input => ∑ j ∈ Finset.range (x input).size,
        entry (b input).values (i * (x input).size + j) *
          (entry (x' input) j - entry (x input) j)).sum

end Totals

namespace Model

open Assembly

variable [ExactScalar α] {m : Model α} {start : Problem α}

/-! ### Quantities and their slots -/

/-- **Every quantity is read from its slots**, scaled by its factor and moved by an offset, in every
state in which the units have received their inputs. -/
theorem IsSetUp.quantity_value (hm : m.Sound) (h : IsSetUp m start) {name : String}
    (hname : m.IsQuantity name) : ∃ r scale offset, start.quantity name = .ok (r, scale) ∧
      r.stop ≤ start.arrangement.size ∧ ∀ a : Assembly α, start.assembly.Follows a →
        (∀ u < m.units.size, a.inputsOf (start.arrangement.unit u) =
          received start.arrangement u a.store.slots) →
        a.store.get name = .ok ((slice a.store.slots r).map fun y => scale * y + offset) := by
  have hstop : ∀ {name r}, start.store.slotsOf name = some r → r.stop ≤ start.arrangement.size :=
    fun hr => by
      obtain ⟨i, e, he, -, hslots⟩ := Store.entry_of_slotsOf hr
      exact h.laid.stop_le he hslots
  obtain ⟨c, hc, v, hv, rfl⟩ := hname
  obtain ⟨u, hu⟩ := Array.getElem?_of_mem hc
  rcases hv with hv | hv
  · obtain ⟨place, hplace⟩ := Variable.exists_placed 0 hv
    have hr := h.laid.slotsOf_output hu hplace
    refine ⟨_, 1, 0, Problem.quantity_of_slotsOf hr, hstop hr, fun a ha _ => ?_⟩
    have hidentity : (fun y : α => (1 : α) * y + 0) = id := by
      funext y
      rw [one_mul, add_zero, id]
    rw [hidentity, Array.map_id]
    refine Store.get_of_slotsOf ?_ ?_
    · rw [Store.placeOf_congr ha.entries]
      exact h.laid.placeOf_output hm hu hv
    · rw [Store.slotsOf_congr ha.entries]
      exact hr
  · obtain ⟨place, hplace⟩ := Variable.exists_placed 0 hv
    obtain ⟨r, hr, -⟩ := h.laid.fed c hc v hv
    refine ⟨r, _, (m.feedOf c v).2.2, Problem.quantity_of_feed hm h.laid h.links hc hv hr, hstop hr,
      fun a ha hreceived => ?_⟩
    rw [h.get_input hm ha hu hplace, hreceived u (Array.getElem?_eq_some_iff.1 hu).1,
      h.slice_received hu hplace hr]

/-- An independent input is looked up in its slots. -/
theorem slotsOf_of_independent {p : Problem α} {name : String} {r : Span} {scale : α}
    (h : p.independent name = .ok (r, scale)) : p.store.slotsOf name = some r := by
  obtain ⟨i, hi, h⟩ := bind_eq_ok.1 h
  rw [Store.slotsOf, Store.id_eq_ok.1 hi, Option.bind_some]
  split at h
  · rename_i slots _ hslots
    cases h
    exact hslots
  · cases h

omit [ExactScalar α] in
/-- The unconnected inputs are independent. -/
theorem Sound.isIndependent_of_mem [Scalar α] (hm : m.Sound) {input : String}
    (h : input ∈ m.unconnectedInputs) : m.IsIndependent input := by
  rw [hm.unconnectedInputs_eq, independentPaths] at h
  obtain ⟨c, hc, h⟩ := List.mem_flatMap.1 h
  obtain ⟨v, hv, rfl⟩ := List.mem_map.1 h
  obtain ⟨hv, hlink⟩ := List.mem_filter.1 hv
  exact ⟨c, by simpa using hc, v, hv, by simpa using hlink, rfl⟩

/-- A sum over the independent slots goes through the unconnected inputs. -/
theorem IsSetUp.sum_independents [Shown α] (hm : m.Sound) (h : IsSetUp m start) (φ : Nat → α) :
    ((start.arrangement.independentsIn (.upTo start.arrangement.size)).map φ).sum =
      (m.unconnectedInputs.map fun input =>
        ∑ j ∈ Finset.range ((start.store.slotsOf input).getD ⟨0, 0⟩).size,
          φ (((start.store.slotsOf input).getD ⟨0, 0⟩).start + j)).sum := by
  have hslots : start.arrangement.independents =
      m.unconnectedInputs.map fun input => (start.store.slotsOf input).getD ⟨0, 0⟩ := by
    have hmap := congrArg (List.map (·.getD ⟨0, 0⟩)) h.laid.independents
    rw [List.map_map, List.map_map, ← hm.unconnectedInputs_eq] at hmap
    exact (List.map_id _).symm.trans hmap
  have hall : start.arrangement.independentsIn (.upTo start.arrangement.size) =
      start.arrangement.independents.flatMap Span.indices := by
    refine List.filter_eq_self.2 fun k hk => ?_
    obtain ⟨r, hr, hk⟩ := List.mem_flatMap.1 hk
    have hlt := ((slot_cases h.laid).1 r hr k (Span.mem_indices.1 hk)).1
    exact Span.contains_iff.2 ⟨Nat.zero_le _, hlt⟩
  rw [hall, sum_map_flatMap, hslots, List.map_map]
  refine congrArg List.sum (List.map_congr_left fun input _ => ?_)
  simp only [Function.comp_apply, Span.indices, List.range'_eq_map_range, List.map_map]
  rfl

end Model

namespace Problem

open Assembly Model

/-- A problem evaluated at other slots, where the residuals of all units vanish. -/
structure SolvedAt [Scalar α] (p : Problem α) (slots : Array α) (a : Problem α) : Prop where
  size : slots.size = p.store.slots.size
  evaluates : evaluateAll (p.withSlots slots) = .ok () a
  residual : ∀ c ∈ p.assembly.units, ∀ v ∈ c.discipline.outputs,
    a.residual (pathOf c v) = .ok (zeros v.size)

variable [ExactScalar α] {m : Model α} {start p q a : Problem α} {s : Array α}

/-- What evaluating a problem at other slots does. -/
theorem SolvedAt.evaluated (hm : m.Sound) (h : IsSetUp m start) (hq : start.Follows q)
    (hs : q.SolvedAt s a) :
    Evaluated start.arrangement start.order (q.withSlots s).assembly a.assembly := by
  have hstep := assembly_of_onAssembly hs.evaluates
  have hfollows : q.Follows (q.withSlots s) := .withSlots q hs.size
  have harrangement : (q.withSlots s).arrangement = start.arrangement :=
    hfollows.arrangement.trans hq.arrangement
  have horder : (q.withSlots s).order = start.order := hfollows.order.trans hq.order
  rw [harrangement, horder] at hstep
  exact h.evaluated hm (.trans _ _ _ hq.assembly hfollows.assembly) hstep

/-- The residuals of a unit vanish where those of each output do. -/
theorem residualsOf_eq_zeros (hm : m.Sound) (h : IsSetUp m start)
    (ha : start.assembly.Follows a.assembly) {u : Nat} {c : Component α} (hu : m.units[u]? = some c)
    (hzero : ∀ v ∈ c.discipline.outputs, a.residual (pathOf c v) = .ok (zeros v.size)) :
    a.assembly.residualsOf (start.arrangement.unit u) = zeros c.outputs.size := by
  have hsize : (a.assembly.residualsOf (start.arrangement.unit u)).size = c.outputs.size := by
    rw [residualsOf, size_slice, (h.laid.fits hm hu).size_outputs]
  refine ext_entry (hsize.trans (size_zeros _).symm) fun k hk => ?_
  have htile := Variable.tile_placed 0 c.discipline.outputs
  rw [Nat.zero_add, ← (hm.declared c (Array.mem_of_getElem? hu)).size_outputs] at htile
  obtain ⟨place, hplace, hmem⟩ := htile.cover (Nat.zero_le k) (hsize ▸ hk)
  obtain ⟨⟨v, place⟩, hv, rfl⟩ := List.mem_map.1 hplace
  have hresidual := hzero v (Variable.mem_of_placed hv)
  rw [Problem.residual, show a.store.residual (pathOf c v) = _ from
    h.residual_output hm ha hu hv] at hresidual
  have hslice : slice (a.assembly.residualsOf (start.arrangement.unit u)) place = zeros v.size :=
    Except.ok.inj hresidual
  have hentry := congrArg (entry · (k - place.start)) hslice
  simp only [entry_slice, if_pos (Span.sub_start_lt hmem), Span.start_add_sub hmem,
    entry_zeros] at hentry
  rw [hentry, entry_zeros]

/-- At the slots of a solved state, the residuals of every unit vanish. -/
theorem SolvedAt.vanishes (hm : m.Sound) (h : IsSetUp m start) (hq : start.Follows q)
    (hs : q.SolvedAt s a) {u : Nat} {c : Component α} (hc : q.assembly.units[u]? = some c) :
    Jacobian.VanishesAt q.arrangement u c s := by
  have hunits : Component.AllAlike m.units q.assembly.units := h.units ▸ hq.assembly.units
  have hlt : u < m.units.size := hunits.size ▸ (Array.getElem?_eq_some_iff.1 hc).1
  have hdeclared := Array.getElem?_eq_getElem hlt
  have halike := hunits.alike u _ _ hdeclared hc
  have hevaluated := hs.evaluated hm h hq
  have ha : start.assembly.Follows a.assembly := .trans _ _ _ hq.assembly
    (.trans _ _ _ (Follows.withSlots q hs.size).assembly hevaluated.follows)
  obtain ⟨r, hr, hresiduals⟩ := hevaluated.residuals u
    ((h.perm hm).mem_iff.2 (List.mem_range.2 hlt)) c hc
  have hzero := residualsOf_eq_zeros hm h ha hdeclared fun v hv => by
    have := hs.residual c (Array.mem_of_getElem? hc) v (halike.discipline ▸ hv)
    rwa [pathOf, halike.name] at this
  rw [hzero, ← halike.outputs] at hresiduals
  exact ⟨r, hr, hq.arrangement ▸ hresiduals⟩

/-- The value of a quantity in a solved state. -/
theorem SolvedAt.get_eq (hm : m.Sound) (h : IsSetUp m start) (hq : start.Follows q)
    (hs : q.SolvedAt s a) {name : String} {r : Span} {scale offset : α}
    (hvalue : ∀ a : Assembly α, start.assembly.Follows a →
      (∀ u < m.units.size, a.inputsOf (start.arrangement.unit u) =
        received start.arrangement u a.store.slots) →
      a.store.get name = .ok ((slice a.store.slots r).map fun y => scale * y + offset)) :
    a.get name = .ok ((slice s r).map fun y => scale * y + offset) := by
  have hevaluated := hs.evaluated hm h hq
  have hbefore : start.assembly.Follows (q.withSlots s).assembly :=
    .trans _ _ _ hq.assembly (Follows.withSlots q hs.size).assembly
  have hslots : a.assembly.store.slots = s := hevaluated.slots
  have hsize : m.units.size = (q.withSlots s).assembly.units.size := by
    rw [hbefore.units.size, h.units]
  have hget := hvalue a.assembly (.trans _ _ _ hbefore hevaluated.follows) fun u hu => by
    rw [hslots]
    exact hevaluated.inputs u ((h.perm hm).mem_iff.2 (List.mem_range.2 hu)) (hsize ▸ hu)
  rw [hslots] at hget
  exact get_eq_ok hget

omit [ExactScalar α] in
theorem entry_map_slice [Zero α] (f : α → α) (x : Array α) {r : Span} {i : Nat} (hi : i < r.size) :
    entry ((slice x r).map f) i = f (entry x (r.start + i)) := by
  have hlt : i < (slice x r).size := by simpa using hi
  rw [entry_eq_getElem (by simpa using hi), Array.getElem_map, ← entry_eq_getElem hlt, entry_slice,
    if_pos hi]

/-! ### Totals by name -/

/-- **A block of exact totals** in the entries of a quantity and of an input. -/
theorem block_exactTotals {n : Nat} {J : Matrix (Fin n) (Fin n) α} {rows cols : Quantities α}
    {t : Totals α} (ht : t = ⟨rows.names, cols.names, (rows.length, cols.length),
      exactTotals J rows cols, t.solves⟩) {rowSpan colSpan r w : Span} {scale factor : α}
    (hsize : rowSpan.size = r.size)
    (hentries : ∀ i < r.size, rows.entries[rowSpan.start + i]? = some (r.start + i, scale))
    (hsize' : colSpan.size = w.size)
    (hentries' : ∀ j < w.size, cols.entries[colSpan.start + j]? = some (w.start + j, factor)) :
    t.block rowSpan colSpan = ⟨(r.size, w.size), rowMajor r.size w.size fun i j =>
      scale * coeff J⁻¹ (r.start + i) (w.start + j)⟩ := by
  have hvalues : (t.block rowSpan colSpan).values = rowMajor r.size w.size fun i j =>
      scale * coeff J⁻¹ (r.start + i) (w.start + j) := by
    refine eq_rowMajor ?_ fun i hi j hj => ?_
    · simp [Totals.block, hsize, hsize']
    have hrow := hentries i hi
    have hcol := hentries' j hj
    have hrowLt : rowSpan.start + i < rows.length := (List.getElem?_eq_some_iff.1 hrow).1
    have hcolLt : colSpan.start + j < cols.length := (List.getElem?_eq_some_iff.1 hcol).1
    rw [← hsize', Totals.entry_block (hsize ▸ hi) (hsize' ▸ hj), ht]
    refine (entry_rowMajor _ hrowLt hcolLt).trans ?_
    rw [totalAt_of_lt hcolLt, List.getD_eq_getElem?_getD, hrow, List.getD_eq_getElem?_getD,
      Quantities.slots, List.getElem?_map, hcol]
    rfl
  rw [← hvalues, ← hsize, ← hsize']
  rfl

/-- A block of exact totals, by the names of a quantity and an input. -/
theorem exists_block {n : Nat} {J : Matrix (Fin n) (Fin n) α} {rows cols : Quantities α}
    {t : Totals α} (ht : t = ⟨rows.names, cols.names, (rows.length, cols.length),
      exactTotals J rows cols, t.solves⟩)
    {lookupOf lookupWrt : String → Except StructureError (Span × α)} (hrows : Tells lookupOf rows)
    (hcols : Tells lookupWrt cols) {name input : String}
    (hname : (Quantities.span? rows.names name).isSome)
    (hinput : (Quantities.span? cols.names input).isSome) {r w : Span} {scale factor : α}
    (hr : lookupOf name = .ok (r, scale)) (hw : lookupWrt input = .ok (w, factor)) :
    ∃ b, t.get? name input = some b ∧ b.shape = (r.size, w.size) ∧
      ∀ i < r.size, ∀ j < w.size, entry b.values (i * w.size + j) =
        scale * coeff J⁻¹ (r.start + i) (w.start + j) := by
  obtain ⟨rowSpan, hrowSpan⟩ := Option.isSome_iff_exists.1 hname
  obtain ⟨colSpan, hcolSpan⟩ := Option.isSome_iff_exists.1 hinput
  obtain ⟨r', scale', hr', hsize, -, hentries⟩ := hrows name rowSpan hrowSpan
  obtain ⟨w', factor', hw', hsize', -, hentries'⟩ := hcols input colSpan hcolSpan
  obtain ⟨rfl, rfl⟩ := Prod.mk.inj (Except.ok.inj (hr.symm.trans hr'))
  obtain ⟨rfl, rfl⟩ := Prod.mk.inj (Except.ok.inj (hw.symm.trans hw'))
  refine ⟨⟨(r.size, w.size), rowMajor r.size w.size fun i j =>
    scale * coeff J⁻¹ (r.start + i) (w.start + j)⟩, ?_, rfl, fun i hi j hj => entry_rowMajor _ hi hj⟩
  rw [← block_exactTotals ht hsize hentries hsize' hentries', ht]
  simp only [Totals.get?, hrowSpan, hcolSpan]

/-! ### Changes between solved states -/

/-- An unconnected input is looked up in its slots, and these hold what is put there. -/
theorem slots_of_unconnected (hm : m.Sound) (h : IsSetUp m start) (hq : start.Follows q)
    {input : String} (hinput : input ∈ m.unconnectedInputs) :
    start.independent input = .ok ((start.store.slotsOf input).getD ⟨0, 0⟩, 1) ∧
      ∀ slots, slots.size = q.store.slots.size → (q.withSlots slots).store.held input =
        some (slice slots ((start.store.slotsOf input).getD ⟨0, 0⟩)) := by
  obtain ⟨w, -, hlookup, -⟩ := independent_spec h.laid (hm.isIndependent_of_mem hinput)
  have hslots := slotsOf_of_independent hlookup
  refine ⟨by rw [hslots, hlookup, Option.getD_some], fun slots hsize => ?_⟩
  have hentries : (q.withSlots slots).store.entries = start.store.entries :=
    (Follows.withSlots q hsize).assembly.entries.trans hq.assembly.entries
  rw [Store.held, Store.slotsOf_congr hentries, hslots, Option.map_some, Option.getD_some]
  rfl

variable [Shown α]

/-- **A quantity changes between two solved states** by what the inverse Jacobian makes of the changes
of the unconnected inputs, scaled. -/
theorem change_of_solved (hm : m.Built) (h : IsSetUp m start) (hp : start.Follows p)
    (hlinearize : linearizeAll p = .ok () q)
    (haffine : ∀ u (c : Component α), q.assembly.units[u]? = some c →
      c.IsAffine (q.assembly.inputsOf (q.arrangement.unit u))
        (q.assembly.outputsOf (q.arrangement.unit u)))
    (hJ : q.totalMatrix.det ≠ 0) {s' : Array α} {a' : Problem α} (hs : q.SolvedAt s a)
    (hs' : q.SolvedAt s' a') {r : Span} (hstop : r.stop ≤ start.arrangement.size)
    (scale offset : α) {i : Nat} (hi : i < r.size) :
    entry ((slice s' r).map fun y => scale * y + offset) i -
        entry ((slice s r).map fun y => scale * y + offset) i =
      (m.unconnectedInputs.map fun input =>
        ∑ j ∈ Finset.range ((start.store.slotsOf input).getD ⟨0, 0⟩).size,
          scale * coeff q.totalMatrix⁻¹ (r.start + i)
              (((start.store.slotsOf input).getD ⟨0, 0⟩).start + j) *
            (entry (slice s' ((start.store.slotsOf input).getD ⟨0, 0⟩)) j -
              entry (slice s ((start.store.slotsOf input).getD ⟨0, 0⟩)) j)).sum := by
  have hq : start.Follows q := .trans _ _ _ hp (.of_linearizeAll hlinearize)
  have hsize : s'.size = s.size := hs'.size.trans hs.size.symm
  have hlength : s.size = q.arrangement.size := by
    rw [hs.size, hq.arrangement, h.laid.size]
    exact hq.assembly.store.slots
  have hslot : r.start + i < q.arrangement.size := by
    rw [hq.arrangement]
    exact (Span.start_add_mem hi).2.trans_le hstop
  have hindependents : q.arrangement.independentsIn (.upTo q.arrangement.size) =
      start.arrangement.independentsIn (.upTo start.arrangement.size) := by
    rw [hq.arrangement]
  have hsub := entry_sub_of_solved hm h hp hlinearize haffine hJ hlength (hsize.trans hlength)
    (fun u c => hs.vanishes hm.sound h hq) (fun u c => hs'.vanishes hm.sound h hq) hslot
  rw [hindependents, h.sum_independents hm.sound] at hsub
  calc
    _ = scale * entry (sub s' s) (r.start + i) := by
      rw [entry_sub hsize, entry_map_slice _ _ hi, entry_map_slice _ _ hi]
      ring
    _ = _ := by
      rw [hsub, ← List.sum_map_mul_left]
      refine congrArg List.sum (List.map_congr_left fun input _ => ?_)
      rw [Finset.mul_sum]
      refine Finset.sum_congr rfl fun j hj => ?_
      rw [entry_slice, if_pos (Finset.mem_range.1 hj), entry_slice,
        if_pos (Finset.mem_range.1 hj), ← entry_sub hsize, mul_assoc]

/-- **Totals are the sensitivities of solved models.** Where all units are affine, with exact
derivatives, and the Jacobian is nonsingular, the totals with respect to all unconnected inputs
explain the change of every quantity between any two states in which the residuals of all units
vanish, in both modes. -/
theorem change_eq_totals [BitPattern α] (hm : m.Built) (hsetup : m.setup = .ok start)
    (hp : start.Reached p) (hlinearize : linearizeAll p = .ok () q)
    (haffine : ∀ u (c : Component α), q.assembly.units[u]? = some c →
      c.IsAffine (q.assembly.inputsOf (q.arrangement.unit u))
        (q.assembly.outputsOf (q.arrangement.unit u)))
    (hJ : q.totalMatrix.det ≠ 0)
    (hsolve : q.options.totals.linear.SolvesExactly q.totalOperator) {names : List String}
    (hof : ∀ name ∈ names, m.IsQuantity name) (mode : Mode) :
    ∃ t, totals names m.unconnectedInputs mode p = .ok t q ∧
      ∀ s s' a a', q.SolvedAt s a → q.SolvedAt s' a' → ∀ name ∈ names, ∃ y y',
        a.get name = .ok y ∧ a'.get name = .ok y' ∧ t.Explains m.unconnectedInputs name
          (q.withSlots s).store.held (q.withSlots s').store.held y y' := by
  have h := setup_spec hm.sound hsetup
  have hfollows := hp.follows
  have hpq : p.Follows q := by
    have := follows_linearizeAll p
    rwa [hlinearize] at this
  have hq : start.Follows q := .trans _ _ _ hfollows hpq
  obtain ⟨rows, cols, hrows, hcols, hrowsWithin, hcolsWithin⟩ :=
    resolve_of_follows hm.sound h hfollows hof fun input => hm.sound.isIndependent_of_mem
  rw [← hpq.arrangement] at hrowsWithin hcolsWithin
  have hop : q.totalOperator.IsMatrix q.totalMatrix := isMatrix_totalOperator
    ((linearizeAll_spec p).2 () q hlinearize (hfollows.jacobian (start_invariant h).1))
  obtain ⟨t, ht⟩ : ∃ t : Totals α, t = ⟨rows.names, cols.names, (rows.length, cols.length),
    exactTotals q.totalMatrix rows cols, solveCount rows cols mode⟩ := ⟨_, rfl⟩
  refine ⟨t, ?_, fun s s' a a' hs hs' name hname => ?_⟩
  · have hprepare : prepareTotals names m.unconnectedInputs p = .ok (rows, cols) q := by
      simp only [prepareTotals, hrows, hcols, hlinearize]
    simp only [totals, hprepare, totalsAt_eq hop hJ hsolve hrowsWithin hcolsWithin mode, ht]
  obtain ⟨r, scale, offset, hquantity, hstop, hvalue⟩ :=
    h.quantity_value hm.sound (hof name hname)
  -- the block of totals for each input
  obtain ⟨hrowsTell, hrowsFind⟩ := tells_resolve (tells_empty _) hrows
  obtain ⟨hcolsTell, hcolsFind⟩ := tells_resolve (tells_empty _) hcols
  rw [quantity_congr hfollows.assembly.entries hfollows.links] at hrowsTell
  rw [independent_congr hfollows.assembly.entries] at hcolsTell
  have hinput := fun input (hmem : input ∈ m.unconnectedInputs) =>
    slots_of_unconnected hm.sound h hq hmem
  have hblock := fun input hmem => exists_block (J := q.totalMatrix) (t := t) (by rw [ht])
    hrowsTell hcolsTell (hrowsFind name (.inl hname)) (hcolsFind input (.inl hmem)) hquantity
    (hinput input hmem).1
  have : Nonempty (DenseBlock α) := ⟨⟨(0, 0), #[]⟩⟩
  choose! b hget hshape hentry using hblock
  have hslice : ∀ slots : Array α, ((slice slots r).map fun y => scale * y + offset).size = r.size :=
    fun slots => by simp
  refine ⟨_, _, hs.get_eq hm.sound h hq hvalue, hs'.get_eq hm.sound h hq hvalue, _, _, b,
    fun input hmem => ⟨(hinput input hmem).2 s hs.size, (hinput input hmem).2 s' hs'.size, by simp,
      hget input hmem, ?_⟩, by simp, fun i hi => ?_⟩
  · rw [hshape input hmem, hslice, size_slice]
  rw [hslice] at hi
  refine (change_of_solved hm h hfollows hlinearize haffine hJ hs hs' hstop scale offset hi).trans
    (congrArg List.sum (List.map_congr_left fun input hmem => ?_))
  rw [size_slice]
  refine Finset.sum_congr rfl fun j hj => ?_
  rw [hentry input hmem i hi j (Finset.mem_range.1 hj)]

end Problem

/-! ### A model of one unit at two inputs -/

namespace Doubling

open Problem Model

/-- The refreshed problem with other slots, its residuals evaluated. -/
def evaluatedAt (slots : Array ℚ) : Problem ℚ := stateAfter (evaluateAll (refreshed.withSlots slots))

/-- The unit of the refreshed problem. -/
def refreshedUnit : Component ℚ := refreshed.assembly.units.getD 0 component

theorem units_refreshed : refreshed.assembly.units.toList = [refreshedUnit] := by
  have hsize : refreshed.assembly.units.size = 1 := by with_unfolding_all decide
  obtain ⟨c, hc⟩ := Array.size_eq_one_iff.1 hsize
  rw [refreshedUnit, hc]
  rfl

theorem alike_refreshedUnit : component.Alike refreshedUnit := by
  have hfollows : problem.assembly.Follows refreshed.assembly :=
    (Follows.of_linearizeAll linearizeAll_eq).assembly
  have hunits := (setup_spec built.sound setup_eq).units ▸ hfollows.units
  rw [units_model] at hunits
  refine hunits.alike 0 _ _ rfl ?_
  rw [← Array.getElem?_toList, units_refreshed]
  rfl

/-- What a unit makes of a change of its input, with the derivative 2 as its only entry. -/
theorem differential_eq {c : Component ℚ}
    (hentries : (c.partials.blocks.toList.flatMap (c.blockEntries 1)).map
      (fun e => (e.row, e.column, e.value)) = [(0, .input 0, 2)]) (dInputs dOutputs : Array ℚ) :
    c.differential dInputs dOutputs 0 = 2 * Vec.entry dInputs 0 := by
  have hsum := congrArg (fun es => (es.map fun e : Nat × Column × ℚ => if e.1 = 0 then
    e.2.2 * Component.entryAt dInputs dOutputs e.2.1 else 0).sum) hentries
  rw [List.map_map] at hsum
  refine hsum.trans ?_
  simp [Component.entryAt]

/-- The unit of the refreshed problem doubles, with the derivative 2. -/
theorem isAffine_refreshedUnit (x y : Array ℚ) : refreshedUnit.IsAffine x y := by
  have halike := alike_refreshedUnit
  have hin : refreshedUnit.inputs = single "x" := halike.inputs.trans (by with_unfolding_all decide)
  have hout : refreshedUnit.outputs = single "y" := 
    halike.outputs.trans (by with_unfolding_all decide)
  have hentries : (refreshedUnit.partials.blocks.toList.flatMap (refreshedUnit.blockEntries 1)).map
      (fun e => (e.row, e.column, e.value)) = [(0, .input 0, 2)] := by with_unfolding_all decide
  refine .explicit double
    (computes_double (halike.discipline.trans isDeclared.discipline) hin hout)
    fun x x' hx hx' i hi => ?_
  rw [hout] at hi
  obtain rfl : i = 0 := Nat.lt_one_iff.1 hi
  rw [differential_eq hentries, Vec.entry_sub (hx'.trans hx.symm)]
  simp [double, Vec.entry]
  ring

/-- Slots at which the residual of the output vanishes. -/
theorem solvedAt {slots : Array ℚ} (hslots : slots.size = 2)
    (hresult : isResult (evaluateAll (refreshed.withSlots slots)) = true)
    (hzero : ((evaluatedAt slots).residual "double.y").toOption = some #[0]) :
    refreshed.SolvedAt slots (evaluatedAt slots) := by
  refine ⟨?_, (eq_ok_of_isResult hresult).choose_spec, fun c hc v hv => ?_⟩
  · have hsize : refreshed.store.slots.size = 2 := by with_unfolding_all decide
    rw [hslots, hsize]
  · obtain rfl : c = refreshedUnit := by
      rw [← Array.mem_toList_iff, units_refreshed] at hc
      exact List.mem_singleton.1 hc
    rw [alike_refreshedUnit.discipline, isDeclared.discipline] at hv
    obtain rfl := List.mem_singleton.1 hv
    have hpath : pathOf refreshedUnit (Variable.named "y" : Variable ℚ) = "double.y" := by
      with_unfolding_all decide
    rw [hpath, eq_ok_of_toOption hzero]
    rfl

/-- Between the inputs 1 and 3, the output changes by what the totals make of the change. -/
theorem change_of_doubling : (∀ u (c : Component ℚ), refreshed.assembly.units[u]? = some c →
      c.IsAffine (refreshed.assembly.inputsOf (refreshed.arrangement.unit u))
        (refreshed.assembly.outputsOf (refreshed.arrangement.unit u))) ∧
    refreshed.totalMatrix.det ≠ 0 ∧
    refreshed.options.totals.linear.SolvesExactly refreshed.totalOperator ∧
    (∀ name ∈ ["double.y"], model.IsQuantity name) ∧
    refreshed.SolvedAt #[2, 1] (evaluatedAt #[2, 1]) ∧
    refreshed.SolvedAt #[6, 3] (evaluatedAt #[6, 3]) ∧
    ∃ t, totals ["double.y"] model.unconnectedInputs .rev problem = .ok t refreshed ∧ ∃ y y',
      (evaluatedAt #[2, 1]).get "double.y" = .ok y ∧
      (evaluatedAt #[6, 3]).get "double.y" = .ok y' ∧
      t.Explains model.unconnectedInputs "double.y" (refreshed.withSlots #[2, 1]).store.held
        (refreshed.withSlots #[6, 3]).store.held y y' := by
  have haffine : ∀ u (c : Component ℚ), refreshed.assembly.units[u]? = some c →
      c.IsAffine (refreshed.assembly.inputsOf (refreshed.arrangement.unit u))
        (refreshed.assembly.outputsOf (refreshed.arrangement.unit u)) := fun u c hc => by
    obtain rfl : c = refreshedUnit := by
      have hmem := Array.mem_of_getElem? hc
      rw [← Array.mem_toList_iff, units_refreshed] at hmem
      exact List.mem_singleton.1 hmem
    exact isAffine_refreshedUnit _ _
  have hdet : refreshed.totalMatrix.det ≠ 0 := by
    rw [totalMatrix, matrix_refreshed]
    exact det_jacobian size_refreshed
  have hof : ∀ name ∈ ["double.y"], model.IsQuantity name := by
    intro name hname
    obtain rfl := List.mem_singleton.1 hname
    exact isQuantity
  have hone : refreshed.SolvedAt #[2, 1] (evaluatedAt #[2, 1]) :=
    solvedAt rfl (by with_unfolding_all decide) (by with_unfolding_all decide)
  have hthree : refreshed.SolvedAt #[6, 3] (evaluatedAt #[6, 3]) :=
    solvedAt rfl (by with_unfolding_all decide) (by with_unfolding_all decide)
  obtain ⟨t, ht, hchange⟩ := change_eq_totals built setup_eq .start linearizeAll_eq haffine hdet
    solvesExactly_refreshed hof .rev
  exact ⟨haffine, hdet, solvesExactly_refreshed, hof, hone, hthree, t, ht,
    hchange _ _ _ _ hone hthree "double.y" (List.mem_singleton.2 rfl)⟩

end Doubling

end Mdao
