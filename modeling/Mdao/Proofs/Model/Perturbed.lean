import Mdao.Proofs.Component.Affine
import Mdao.Proofs.Model.Linearized
import Mdao.Proofs.Model.Totals

/-!
# Between two vectors of slots

Let units be affine, with exact derivatives, and take two vectors of slots that differ in a range
alone. What a unit receives differs by its routes' scales times the difference of the slots, as
offsets cancel, so the rows of a unit in the Jacobian over the range make of this difference that of
its residuals (`Jacobian.entry_product_sub`). The rows of independent inputs are those of the
identity. So where the residuals of all units vanish at both vectors, their difference is known from
the independent slots alone (`Problem.entry_sub_of_solved`).
-/

namespace Mdao

open Vec Matrix

variable {α : Type} [ExactScalar α]

/-! ### Differences of slots -/

section Differences

variable {l : Arrangement α} {range t : Span} {s s' : Array α} {u : Nat}

/-- The difference over a range, at a slot of the range. -/
theorem entry_sub_slice {k : Nat} (hk : k ∈ range) :
    entry (sub (slice s' range) (slice s range)) (k - range.start) = entry s' k - entry s k := by
  rw [entry_sub (by simp), entry_slice, entry_slice, if_pos (Span.sub_start_lt hk),
    if_pos (Span.sub_start_lt hk), Span.start_add_sub hk]

/-- Seeds are differences of what a unit receives, where nothing changes outside the range. -/
theorem map_seedOf_sub (hothers : ∀ k, k ∉ range → entry s' k = entry s k) :
    (l.unit u).routes.map (MatrixFree.seedOf range (sub (slice s' range) (slice s range))) =
      sub (Assembly.received l u s') (Assembly.received l u s) := by
  have hreceived : (Assembly.received l u s').size = (Assembly.received l u s).size := by
    simp [Assembly.received]
  refine ext_entry (by rw [size_sub hreceived]; simp [Assembly.received]) fun k hk => ?_
  have hlt : k < (l.unit u).routes.size := by simpa using hk
  have hroute := Array.getElem?_eq_getElem hlt
  rw [entry_sub hreceived, Assembly.entry_received hroute, Assembly.entry_received hroute,
    entry_eq_getElem hk, Array.getElem_map, MatrixFree.seedOf, Assembly.carried, Assembly.carried]
  generalize (l.unit u).routes[k] = route
  -- the offset of the route cancels
  rw [add_sub_add_right_eq_sub, ← mul_sub]
  split_ifs with hin
  · rw [entry_sub_slice (Span.contains_iff.1 hin)]
  · rw [hothers _ (mt Span.contains_iff.2 hin), sub_self, mul_zero]

/-- The part of a difference that belongs to a unit. -/
theorem slice_sub_slice (ht : t.LiesIn range) :
    slice (sub (slice s' range) (slice s range)) (t.relativeTo range.start) =
      sub (slice s' t) (slice s t) := by
  have hslices : (slice s' t).size = (slice s t).size := by simp
  refine ext_entry (by simp [MatrixFree.size_relativeTo ht]) fun k hk => ?_
  have hlt : k < t.size := by simpa [MatrixFree.size_relativeTo ht] using hk
  obtain ⟨hmem, hplace⟩ : t.start + k ∈ range ∧
      t.start - range.start + k = t.start + k - range.start := by
    simp only [Span.LiesIn, Span.size] at ht hlt
    exact ⟨⟨by omega, by omega⟩, by omega⟩
  rw [entry_slice, if_pos (by rwa [MatrixFree.size_relativeTo ht]), entry_sub hslices, entry_slice,
    entry_slice, if_pos hlt, if_pos hlt, ← entry_sub_slice hmem, ← hplace]
  rfl

end Differences

/-! ### The Jacobian on a difference -/

namespace Jacobian

/-- The residuals of a unit at some slots are those in a buffer. -/
def ResidualsAt (l : Arrangement α) (u : Nat) (c : Component α) (s r : Array α) : Prop :=
  ∃ before, before.size = c.outputs.size ∧
    c.residuals (Assembly.received l u s) (slice s (l.unit u).outputs) before =
      .ok ⟨⟩ (slice r (l.unit u).outputs)

/-- The residuals of a unit vanish at some slots. -/
def VanishesAt (l : Arrangement α) (u : Nat) (c : Component α) (s : Array α) : Prop :=
  ∃ r, r.size = c.outputs.size ∧
    c.residuals (Assembly.received l u s) (slice s (l.unit u).outputs) r =
      .ok ⟨⟩ (zeros c.outputs.size)

variable {op : MatrixFree α} {s s' r r' : Array α}

/-- Residuals that vanish are those in a buffer without entries. -/
theorem VanishesAt.residualsAt {l : Arrangement α} {u : Nat} {c : Component α}
    (h : VanishesAt l u c s) (hfits : (l.unit u).Fits c) : ResidualsAt l u c s #[] := by
  have hzeros : slice #[] (l.unit u).outputs = (zeros c.outputs.size : Array α) := by
    refine ext_entry (by rw [size_slice, size_zeros, hfits.size_outputs]) fun k _ => ?_
    rw [entry_slice, entry_zeros, entry_of_size_le (x := #[]) (Nat.zero_le _), ite_self]
  obtain ⟨before, hbefore, hzero⟩ := h
  exact ⟨before, hbefore, hzero.trans (by rw [hzeros])⟩

/-- A unit that is affine, with the residuals at two vectors of slots. -/
structure Between (op : MatrixFree α) (s r s' r' : Array α) (u : Nat) (c : Component α) :
    Prop where
  acts : op.Acts u c
  reads : c.ReadsInputs
  affine : c.IsAffine (slice op.inputs (op.arrangement.unit u).inputs)
    (slice op.slots (op.arrangement.unit u).outputs)
  residuals : ResidualsAt op.arrangement u c s r
  residuals' : ResidualsAt op.arrangement u c s' r'

/-- **What an affine unit contributes to the rows of the Jacobian** makes of the difference of two
vectors of slots that of its residuals. -/
theorem Between.sum_unitContributions {u : Nat} {c : Component α} (h : Between op s r s' r' u c)
    (hc : op.units[u]? = some c) (hothers : ∀ k, k ∉ op.range → entry s' k = entry s k) (i : Nat) :
    ((unitContributions op.arrangement op.range op.units u).map fun q =>
      q.2 * if q.1.1 = i then entry (sub (slice s' op.range) (slice s op.range)) q.1.2
        else 0).sum =
      if op.range.start + i ∈ (op.arrangement.unit u).outputs then
        entry r' (op.range.start + i) - entry r (op.range.start + i) else 0 := by
  obtain ⟨hacts, hreads, haffine, ⟨b, hb, hr⟩, ⟨b', hb', hr'⟩⟩ := h
  have hfits := hacts.fits
  have hlies := hacts.liesIn
  have hreceived : ∀ slots, (Assembly.received op.arrangement u slots).size = c.inputs.size :=
    fun slots => by
      rw [Assembly.received, Array.size_map]
      exact hfits.size_routes
  have hslice : ∀ slots : Array α,
      (slice slots (op.arrangement.unit u).outputs).size = c.outputs.size := fun slots => by
    rw [size_slice, hfits.size_outputs]
  have hrow := fun {k} => haffine.sum_entries_sub hreads hacts.acts (hreceived s) (hslice s) hb
    (hreceived s') (hslice s') hb' hr hr' (i := k)
  have hsize := hfits.size_outputs
  rw [hacts.sum_row hc, map_seedOf_sub hothers, slice_sub_slice hlies]
  generalize (op.arrangement.unit u).outputs = t at *
  split_ifs with hi
  · -- the row of the slot among those of the unit
    have hk : op.range.start + i - t.start < c.outputs.size := hsize ▸ Span.sub_start_lt hi
    have hslot : t.start + (op.range.start + i - t.start) = op.range.start + i :=
      Span.start_add_sub hi
    obtain ⟨hstart, hstop⟩ := hi
    have hplace : ∀ e : Component.Entry α,
        t.start - op.range.start + e.row = i ↔ e.row = op.range.start + i - t.start := fun e => by
      simp only [Span.LiesIn, Span.size] at hlies
      omega
    simp only [hplace]
    rw [hrow hk, entry_slice, entry_slice, if_pos (hsize ▸ hk), if_pos (hsize ▸ hk), hslot]
  · refine List.sum_eq_zero fun v hv => ?_
    obtain ⟨e, he, rfl⟩ := List.mem_map.1 hv
    have hlt := hacts.acts.row_lt e he
    refine if_neg fun heq => hi ?_
    simp only [Span.LiesIn, Span.size] at hlies hsize
    exact ⟨by omega, by omega⟩

/-- **The Jacobian on a difference of slots**, when nothing changes outside its range: in each row
the difference of the residuals of the unit that the slot belongs to, or that of the independent
slot. -/
theorem entry_product_sub (op : MatrixFree α)
    (hothers : ∀ k, k ∉ op.range → entry s' k = entry s k)
    (h : ∀ u ∈ op.unitIds, ∃ c, op.units[u]? = some c ∧ Between op s r s' r' u c) {i : Nat}
    (hi : i < op.range.size) :
    entry ((build op.arrangement op.units op.unitIds op.range).matrix.product op.range.size .fwd
      (sub (slice s' op.range) (slice s op.range))) i =
      added ((op.arrangement.independentsIn op.range).map fun k =>
        (k - op.range.start, entry s' k - entry s k)) i +
      (op.unitIds.map fun u =>
        if op.range.start + i ∈ (op.arrangement.unit u).outputs then
          entry r' (op.range.start + i) - entry r (op.range.start + i) else 0).sum := by
  have hunits : ((op.unitIds.flatMap
      (unitContributions op.arrangement op.range op.units)).map fun q =>
        q.2 * if q.1.1 = i then entry (sub (slice s' op.range) (slice s op.range)) q.1.2
          else 0).sum =
      (op.unitIds.map fun u =>
        if op.range.start + i ∈ (op.arrangement.unit u).outputs then
          entry r' (op.range.start + i) - entry r (op.range.start + i) else 0).sum := by
    rw [sum_map_flatMap]
    refine congrArg List.sum (List.map_congr_left fun u hu => ?_)
    obtain ⟨c, hc, hbetween⟩ := h u hu
    exact hbetween.sum_unitContributions hc hothers i
  rw [SparseMatrix.entry_product_fwd _ hi,
    sum_entries _ _ _ _ fun place => if place.1 = i then
      entry (sub (slice s' op.range) (slice s op.range)) place.2 else 0,
    contributions, List.map_append, List.sum_append, hunits, added_map, identityContributions,
    List.map_map]
  refine congrArg (· + _) (congrArg List.sum (List.map_congr_left fun k hk => ?_))
  have hin : k ∈ op.range := Span.contains_iff.1 (List.mem_filter.1 hk).2
  simp only [Function.comp_apply, one_mul, entry_sub_slice hin]

/-- **The Jacobian on the difference of two solved states** has the differences of the independent
slots, and nothing else. -/
theorem product_sub (op : MatrixFree α) (hsize : s'.size = s.size)
    (hrange : op.range = .upTo s.size)
    (h : ∀ u ∈ op.unitIds, ∃ c, op.units[u]? = some c ∧ Between op s #[] s' #[] u c) :
    (build op.arrangement op.units op.unitIds op.range).matrix.product s.size .fwd (sub s' s) =
      scatter (zeros s.size) ((op.arrangement.independentsIn op.range).map fun k =>
        (k, entry (sub s' s) k)) := by
  have hwhole : ∀ x : Array α, x.size = s.size → slice x op.range = x := fun x hx => by
    refine ext_entry (by simp [hrange, Span.upTo, Span.size, hx]) fun k hk => ?_
    rw [entry_slice, if_pos (by simpa using hk), hrange]
    exact congrArg (entry x) (Nat.zero_add k)
  have hothers : ∀ k, k ∉ op.range → entry s' k = entry s k := fun k hk => by
    have hout : s.size ≤ k := by
      rw [hrange] at hk
      exact not_lt.1 fun hlt => hk ⟨Nat.zero_le k, hlt⟩
    rw [entry_of_size_le (hsize ▸ hout), entry_of_size_le hout]
  have hdim : op.range.size = s.size := by rw [hrange]; rfl
  have hproduct := fun {i} => entry_product_sub op hothers h (i := i)
  simp only [hdim, hwhole s' hsize, hwhole s rfl] at hproduct
  refine ext_entry (by simp) fun i hi => ?_
  have hlt : i < s.size := by simpa using hi
  rw [hproduct hlt, entry_scatter _ _ _ (by simpa using hlt), entry_zeros, zero_add]
  simp [hrange, Span.upTo, entry_sub hsize]

end Jacobian

/-! ### Problems -/

namespace Problem

open Model

variable {m : Model α} {start p q : Problem α} {s s' : Array α}

/-- Units that are affine where they have been linearized act by their entries there, and so between
two states in which their residuals vanish. -/
theorem between_of_solved (hm : m.Built) (h : IsSetUp m start) (hp : start.Follows p)
    (hlinearize : linearizeAll p = .ok () q)
    (haffine : ∀ u (c : Component α), q.assembly.units[u]? = some c →
      c.IsAffine (q.assembly.inputsOf (q.arrangement.unit u))
        (q.assembly.outputsOf (q.arrangement.unit u)))
    (hs : ∀ u c, q.assembly.units[u]? = some c → Jacobian.VanishesAt q.arrangement u c s)
    (hs' : ∀ u c, q.assembly.units[u]? = some c → Jacobian.VanishesAt q.arrangement u c s')
    {u : Nat} (hu : u ∈ q.order) :
    ∃ c, q.assembly.units[u]? = some c ∧ Jacobian.Between ⟨q.arrangement, q.assembly.units, q.order,
      .upTo q.arrangement.size, q.assembly.store.slots, q.assembly.store.inputs⟩ s #[] s' #[] u c := by
  have hstart : start.Follows q := .trans _ _ _ hp (.of_linearizeAll hlinearize)
  have hunits : Component.AllAlike m.units q.assembly.units := h.units ▸ hstart.assembly.units
  have hlinearized : start.Linearized q.assembly start.order :=
    h.linearized hm.sound hp hlinearize fun u c hc => by
      rw [← hstart.arrangement]
      exact (haffine u c hc).productsAreLinear
  have hlies : ∀ u ∈ start.order,
      (start.arrangement.unit u).outputs.LiesIn (.upTo start.arrangement.size) := fun u hu => by
    obtain ⟨mid, houts, hindependents⟩ := h.laid.tiles
    exact .inr ⟨Nat.zero_le _,
      (houts.bounds (List.mem_map.2 ⟨u, hu, rfl⟩)).2.2.trans hindependents.le⟩
  have hmem : u ∈ start.order := hstart.order ▸ hu
  have hlt : u < m.units.size := List.mem_range.1 ((h.perm hm.sound).mem_iff.1 hmem)
  have hdeclared := Array.getElem?_eq_getElem hlt
  have hc := Array.getElem?_eq_getElem (hunits.size ▸ hlt)
  have hreads := (hm.readsInputs _ (Array.mem_of_getElem? hdeclared)).alike
    (hunits.alike u _ _ hdeclared hc)
  have hacts := acts_of_linearized hm.sound h hlinearized hlies hmem hc
  rw [← hstart.arrangement, ← hstart.order] at hacts
  exact ⟨_, hc, hacts, hreads, haffine u _ hc, (hs u _ hc).residualsAt hacts.fits,
    (hs' u _ hc).residualsAt hacts.fits⟩

/-- **The difference of two solved states** is what the inverse Jacobian makes of the differences of
the independent slots. -/
theorem entry_sub_of_solved (hm : m.Built) (h : IsSetUp m start) (hp : start.Follows p)
    (hlinearize : linearizeAll p = .ok () q)
    (haffine : ∀ u (c : Component α), q.assembly.units[u]? = some c →
      c.IsAffine (q.assembly.inputsOf (q.arrangement.unit u))
        (q.assembly.outputsOf (q.arrangement.unit u)))
    (hJ : q.totalMatrix.det ≠ 0) (hsize : s.size = q.arrangement.size)
    (hsize' : s'.size = q.arrangement.size)
    (hs : ∀ u c, q.assembly.units[u]? = some c → Jacobian.VanishesAt q.arrangement u c s)
    (hs' : ∀ u c, q.assembly.units[u]? = some c → Jacobian.VanishesAt q.arrangement u c s')
    {i : Nat} (hi : i < q.arrangement.size) :
    entry (sub s' s) i =
      ((q.arrangement.independentsIn (.upTo q.arrangement.size)).map fun k =>
        coeff q.totalMatrix⁻¹ i k * entry (sub s' s) k).sum := by
  have hproduct := Jacobian.product_sub ⟨q.arrangement, q.assembly.units, q.order,
    .upTo q.arrangement.size, q.assembly.store.slots, q.assembly.store.inputs⟩
    (hsize'.trans hsize.symm) (congrArg Span.upTo hsize.symm) fun _ =>
      between_of_solved hm h hp hlinearize haffine hs hs'
  have hbuilt := (linearizeAll_spec p).2 () q hlinearize
    (hp.jacobian (start_invariant h).1)
  have hop : q.totalOperator.IsMatrix q.totalMatrix := isMatrix_totalOperator hbuilt
  have happly : q.totalOperator.apply .fwd (sub s' s) = .ok (scatter (zeros q.arrangement.size)
      ((q.arrangement.independentsIn (.upTo q.arrangement.size)).map fun k =>
        (k, entry (sub s' s) k))) := by
    rw [totalOperator_eq hbuilt]
    rw [hsize] at hproduct
    exact congrArg Except.ok hproduct
  have hsolution := eq_solution hop hJ
    ((size_sub (hsize'.trans hsize.symm)).trans hsize) happly
  rw [hsolution, entry_solution .fwd _ hi, List.map_map, ← hsolution]
  rfl

end Problem

end Mdao
