import Mathlib
import Mdao.Proofs.Component.Affine
import Mdao.Proofs.Model.Blocks

/-!
# The Jacobian of explicit units without coupled blocks

An explicit unit has the rows of the identity in its own columns, less its derivatives in the columns
that its inputs are routed from (`Jacobian.sum_unitContributions_explicit`). Without coupled blocks
these are columns of earlier units and of independent inputs (`Placed.stop_le_start`). So with the
independent inputs first the Jacobian over all slots is triangular with ones on the diagonal, whatever
the derivatives are (`Placed.isUnitTriangular`), and its determinant is one.
-/

namespace Mdao

open Vec Matrix

variable {α : Type} [ExactScalar α]

/-! ### Triangular matrices -/

section Triangular

variable {n : Nat} {J : Matrix (Fin n) (Fin n) α}

/-- Up to the order of the indices, lower triangular with ones on the diagonal. -/
def IsUnitTriangular (J : Matrix (Fin n) (Fin n) α) : Prop :=
  ∃ σ : Equiv.Perm (Fin n), (∀ i, J (σ i) (σ i) = 1) ∧ (J.submatrix σ σ).IsLowerTriangular

theorem IsUnitTriangular.det_eq_one (h : IsUnitTriangular J) : J.det = 1 := by
  obtain ⟨σ, hdiagonal, htriangular⟩ := h
  rw [← Matrix.det_submatrix_equiv_self σ J, Matrix.det_of_isLowerTriangular _ htriangular]
  exact Finset.prod_eq_one fun i _ => hdiagonal i

/-- The indices from `mid` on, and then those below. -/
def rotation {mid : Nat} (hmid : mid ≤ n) : Equiv.Perm (Fin n) :=
  (finCongr (Nat.sub_add_cancel hmid).symm).trans
    (finAddFlip.trans (finCongr (Nat.add_sub_cancel' hmid)))

theorem val_rotation {mid : Nat} (hmid : mid ≤ n) (j : Fin n) :
    (rotation hmid j : Nat) = if (j : Nat) < n - mid then mid + j else j - (n - mid) := by
  have hj : (j : Nat) < n - mid + mid := by omega
  have hflip : (rotation hmid j : Nat) =
      (finAddFlip (⟨j, hj⟩ : Fin (n - mid + mid)) : Fin (mid + (n - mid))) := rfl
  rw [hflip]
  split_ifs with hlt
  · rw [finAddFlip_apply_mk_left hlt]
  · rw [finAddFlip_apply_mk_right (not_lt.1 hlt) hj]

/-- Rows of the identity from `mid` on, and before them rows with a one on the diagonal and entries in
earlier columns and in those from `mid` on. -/
theorem isUnitTriangular_of_rows {mid : Nat} (hmid : mid ≤ n) (hdiagonal : ∀ i, J i i = 1)
    (hrows : ∀ i k, J i k ≠ 0 → k = i ∨ (i : Nat) < mid ∧ (k < i ∨ mid ≤ (k : Nat))) :
    IsUnitTriangular J := by
  refine ⟨rotation hmid, fun i => hdiagonal _, fun i k hik => ?_⟩
  have hik : (i : Nat) < k := hik
  by_contra hne
  rcases hrows _ _ hne with heq | ⟨hlow, hbefore⟩
  · exact hik.ne' (congrArg Fin.val ((rotation hmid).injective heq))
  · -- behind the rotation the columns from `mid` on come first, and the earlier ones stay earlier
    rw [Fin.lt_def, val_rotation, val_rotation] at hbefore
    rw [val_rotation] at hlow
    split_ifs at hlow hbefore <;> omega

end Triangular

/-! ### Explicit units -/

namespace Jacobian

open Component MatrixFree

/-- **What an explicit unit contributes to a row**: the entry of the vector less what the derivatives
of the unit make of what its inputs receive. -/
theorem sum_unitContributions_explicit {op : MatrixFree α} {u n : Nat} {c : Component α}
    (hrange : op.range = .upTo n) (hc : op.units[u]? = some c) (hacts : op.Acts u c)
    (hexplicit : c.isImplicit = false) (hreads : c.ReadsInputs) (x : Array α) (i : Nat) :
    ((unitContributions op.arrangement op.range op.units u).map fun q =>
      q.2 * if q.1.1 = i then entry x q.1.2 else 0).sum =
      if i ∈ (op.arrangement.unit u).outputs then
        entry x i - c.differential ((op.arrangement.unit u).routes.map (seedOf (.upTo n) x))
          (zeros c.outputs.size) (i - (op.arrangement.unit u).outputs.start)
      else 0 := by
  rw [hacts.sum_row hc x i]
  obtain ⟨hfits, hin, hrows⟩ := hacts
  generalize op.arrangement.unit u = p at hfits hin hrows
  have hown : p.outputs.relativeTo op.range.start = p.outputs := by
    rw [hrange]
    rfl
  rw [hown, hrange]
  split_ifs with hi
  · have hr : i - p.outputs.start < c.outputs.size := by
      rw [← hfits.size_outputs]
      exact Span.sub_start_lt hi
    have hplace : ∀ r, p.outputs.start - (Span.upTo n).start + r = i ↔
        r = i - p.outputs.start := fun r => by
      have hstart : (Span.upTo n).start = 0 := rfl
      have := hi.1
      omega
    simp only [hplace]
    rw [sum_entries_explicit hexplicit _ _ hr,
      differential_of_readsInputs hreads hexplicit _ _ (zeros c.outputs.size), entry_slice,
      if_pos (by rwa [hfits.size_outputs]), Span.start_add_sub hi]
  · refine List.sum_eq_zero fun v hv => ?_
    obtain ⟨e, he, rfl⟩ := List.mem_map.1 hv
    refine if_neg fun heq => hi ?_
    rw [← heq]
    exact Span.start_add_mem (hfits.size_outputs ▸ hrows.row_lt e he)

end Jacobian

namespace Model

variable {m : Model α} {order : List Nat} {s : Store α} {l : Arrangement α}
  {units : Array (Component α)}

/-! ### The rows of a unit -/

/-- The ones of independent inputs are not in the row of another slot. -/
theorem Placed.identityRow_eq_zero (h : Placed m order s l units) {i : Nat}
    (hi : ∀ r ∈ l.independents, i ∉ r) (x : Array α) :
    ((Jacobian.identityContributions l (.upTo l.size)).map fun c =>
      c.2 * if c.1.1 = i then entry x c.1.2 else 0).sum = 0 := by
  refine List.sum_eq_zero fun v hv => ?_
  obtain ⟨c, hc, rfl⟩ := List.mem_map.1 hv
  obtain ⟨k, hk, rfl⟩ := List.mem_map.1 hc
  obtain ⟨r, hr, hkr⟩ := ((independentsIn_eq h.laid).2 k).1 hk
  have hne : k ≠ i := fun heq => hi r hr (heq ▸ hkr)
  exact mul_eq_zero_of_right _ (if_neg hne)

theorem Placed.mem_order_iff (h : Placed m order s l units) {u : Nat} :
    u ∈ order ↔ u < m.units.size := by
  rw [h.order, h.sound.isExecutionOrder.perm.mem_iff, List.mem_range]

/-- **In the row of an output only its unit has something.** -/
theorem Placed.coeff_eq_sum (h : Placed m order s l units) {u : Nat} (hu : u ∈ order) {i k : Nat}
    (hi : i ∈ (l.unit u).outputs) (hk : k < l.size) : coeff (wholeMatrix order l units) i k =
      ((Jacobian.unitContributions l (.upTo l.size) units u).map fun c =>
        c.2 * if c.1.1 = i then entry (Vec.unit l.size k) c.1.2 else 0).sum := by
  obtain ⟨hindependents, houtputs, -⟩ := slot_cases h.laid
  obtain ⟨mid, hunits, -⟩ := h.laid.tiles
  have hin : i < l.size := houtputs u hu i hi
  have hnodup : order.Nodup := by
    rw [h.order, h.sound.isExecutionOrder.perm.nodup_iff]
    exact List.nodup_range
  -- duplicates in the assembled matrix are summed, so an entry is the sum over all contributions
  have hmatrix : coeff (wholeMatrix order l units) i k =
      ((Jacobian.contributions l units order (.upTo l.size)).map fun c =>
        c.2 * if c.1.1 = i then entry (Vec.unit l.size k) c.1.2 else 0).sum :=
    (coeff_fin (wholeMatrix order l units) ⟨i, hin⟩ ⟨k, hk⟩).trans
      (Jacobian.toMatrix_build l units order (.upTo l.size) ⟨i, hin⟩ ⟨k, hk⟩)
  rw [hmatrix, Jacobian.contributions, List.map_append, List.sum_append,
    h.identityRow_eq_zero fun r hr hir => (hindependents r hr i hir).2 u hu hi, zero_add,
    sum_map_flatMap, ← List.sum_toFinset _ hnodup,
    Finset.sum_eq_single_of_mem u (List.mem_toFinset.2 hu) fun w hw hne => ?_]
  refine List.sum_eq_zero fun v hv => ?_
  obtain ⟨c, hc, rfl⟩ := List.mem_map.1 hv
  have hrow : c.1.1 ≠ i := fun heq => hne <|
    hunits.eq_of_mem (List.mem_toFinset.1 hw) hu (heq ▸ (h.column_of_unit hc).1) hi
  rw [if_neg hrow, mul_zero]

/-- An explicit unit acts by its entries. -/
theorem Placed.acts (h : Placed m order s l units) {u : Nat} {c : Component α}
    (hc : units[u]? = some c) (hexplicit : c.isImplicit = false) (slots inputs : Array α) :
    MatrixFree.Acts ⟨l, units, order, .upTo l.size, slots, inputs⟩ u c := by
  have hlt : u < m.units.size := h.units.size ▸ (Array.getElem?_eq_some_iff.1 hc).1
  have hdeclared := Array.getElem?_eq_getElem hlt
  have halike := h.units.alike u _ _ hdeclared hc
  have hfits := h.laid.fits h.sound hdeclared
  have hsound := ((h.sound.declared _ (Array.getElem_mem hlt)).sound).alike halike
  obtain ⟨mid, hunits, hindependents⟩ := h.laid.tiles
  have hstop := (hunits.bounds (List.mem_map.2 ⟨u, h.mem_order_iff.2 hlt, rfl⟩)).2.2
  refine ⟨⟨?_, ?_⟩, .inr ⟨Nat.zero_le _, hstop.trans hindependents.le⟩,
    hsound.actsByEntries (Component.applyLinear_of_explicit hexplicit) _ _⟩
  · rw [halike.outputs]
    exact hfits.size_outputs
  · rw [halike.inputs]
    exact hfits.size_routes

/-- **The block of an explicit unit is the identity**, where it is not routed from itself. -/
theorem Placed.coeff_own (h : Placed m order s l units) {u : Nat} {c : Component α}
    (hc : units[u]? = some c) (hexplicit : c.isImplicit = false) (hreads : c.ReadsInputs)
    (hroutes : ∀ route ∈ (l.unit u).routes, route.slot ∉ (l.unit u).outputs) {i k : Nat}
    (hi : i ∈ (l.unit u).outputs) (hk : k ∈ (l.unit u).outputs) :
    coeff (wholeMatrix order l units) i k = if i = k then 1 else 0 := by
  have hu : u ∈ order :=
    h.mem_order_iff.2 (h.units.size ▸ (Array.getElem?_eq_some_iff.1 hc).1)
  have hkn : k < l.size := (slot_cases h.laid).2.1 u hu k hk
  -- the inputs receive nothing of a unit vector at a slot of the unit
  have hreceived : ∀ j, entry ((l.unit u).routes.map
      (MatrixFree.seedOf (.upTo l.size) (Vec.unit l.size k))) j = 0 := by
    intro j
    by_cases hj : j < (l.unit u).routes.size
    · have hne : k ≠ (l.unit u).routes[j].slot := fun heq =>
        hroutes _ (Array.getElem_mem hj) (heq ▸ hk)
      rw [entry_eq_getElem (by simpa using hj), Array.getElem_map, MatrixFree.seedOf]
      split_ifs
      · rw [entry_unit, if_neg fun heq => hne heq.1, mul_zero]
      · rfl
    · exact entry_of_size_le (by simpa using hj)
  have hrow := Jacobian.sum_unitContributions_explicit rfl hc (h.acts hc hexplicit #[] #[]) hexplicit
    hreads (Vec.unit l.size k) i
  rw [h.coeff_eq_sum hu hi hkn, hrow, if_pos hi,
    Component.differential_eq_zero hreads hexplicit hreceived, sub_zero, entry_unit]
  by_cases hik : i = k
  · rw [if_pos ⟨hik.symm, hik ▸ hkn⟩, if_pos hik]
  · rw [if_neg fun heq => hik heq.1.symm, if_neg hik]

/-! ### Models without coupled blocks -/

omit [ExactScalar α] in
/-- The slots of a unit that feeds another one come before those of the other. -/
theorem stop_le_start [Scalar α] (hm : m.Sound) (hff : m.FeedForward) (hlaid : Laid m order s l)
    (horder : order = m.placedUnits.flatten) {a u : Nat} (hu : u ∈ order)
    (ha : (a, u) ∈ m.graph.edges) : (l.unit a).outputs.stop ≤ (l.unit u).outputs.start := by
  obtain ⟨pre, post, hsplit⟩ := List.append_of_mem hu
  have hpre : a ∈ pre := hm.fed_before hff (horder.symm.trans hsplit) ha
  obtain ⟨mid, hunits, -⟩ := hlaid.tiles
  have hpairs := List.pairwise_map.1 hunits.pairwise
  rw [hsplit] at hpairs
  exact (List.pairwise_append.1 hpairs).2.2 a hpre u List.mem_cons_self

/-- So a unit is not routed from itself, and its block is the identity. -/
theorem Placed.coeff_of_explicit (h : Placed m order s l units) (hff : m.FeedForward)
    (hexplicit : ∀ c ∈ m.units, c.isImplicit = false) (hreads : ∀ c ∈ m.units, c.ReadsInputs)
    {u : Nat} (hu : u ∈ order) {i k : Nat} (hi : i ∈ (l.unit u).outputs)
    (hk : k ∈ (l.unit u).outputs) :
    coeff (wholeMatrix order l units) i k = if i = k then 1 else 0 := by
  have hlt : u < m.units.size := h.mem_order_iff.1 hu
  have hlt' : u < units.size := h.units.size ▸ hlt
  have hdeclared := Array.getElem?_eq_getElem hlt
  have hc := Array.getElem?_eq_getElem hlt'
  have hmem := Array.getElem_mem hlt
  have halike := h.units.alike u _ _ hdeclared hc
  have hkind : units[u].isImplicit = false := by
    rw [Component.isImplicit, halike.discipline]
    exact hexplicit _ hmem
  refine h.coeff_own hc hkind ((hreads _ hmem).alike halike) (fun route hroute hslot => ?_) hi hk
  rcases source_of_route h.sound h.laid hdeclared hroute with ⟨a, ha, hfrom⟩ | ⟨r, hr, hfrom⟩
  · have hbefore := stop_le_start h.sound hff h.laid h.order hu ha
    exact absurd (hfrom.2.trans_le hbefore) (not_lt.2 hslot.1)
  · exact ((slot_cases h.laid).1 r hr _ hfrom).2 u hu hslot

/-- **With the independent inputs first, the Jacobian of explicit units is triangular with ones on the
diagonal**, whatever their derivatives are. -/
theorem Placed.isUnitTriangular (h : Placed m order s l units) (hff : m.FeedForward)
    (hexplicit : ∀ c ∈ m.units, c.isImplicit = false) (hreads : ∀ c ∈ m.units, c.ReadsInputs) :
    IsUnitTriangular (wholeMatrix order l units) := by
  have hcases := (slot_cases h.laid).2.2
  obtain ⟨mid, hunits, hlast⟩ := h.laid.tiles
  have hlow : ∀ u ∈ order, ∀ i ∈ (l.unit u).outputs, i < mid := fun u hu i hi =>
    hi.2.trans_le (hunits.bounds (List.mem_map.2 ⟨u, hu, rfl⟩)).2.2
  refine isUnitTriangular_of_rows hlast.le (fun i => ?_) fun i k hik => ?_
  · rw [← coeff_fin (wholeMatrix order l units)]
    rcases hcases i i.2 with ⟨u, hu, hi⟩ | hi
    · rw [h.coeff_of_explicit hff hexplicit hreads hu hi hi, if_pos rfl]
    · rw [h.isIdentityRow hi i i.2, if_pos rfl]
  · rw [← coeff_fin (wholeMatrix order l units)] at hik
    rcases hcases i i.2 with ⟨u, hu, hi⟩ | hi
    · rcases h.column_cases hu hi k.2 hik with hk | ⟨a, ha, hk⟩ | ⟨r, hr, hk⟩
      · rw [h.coeff_of_explicit hff hexplicit hreads hu hi hk, ite_ne_right_iff] at hik
        exact .inl (Fin.ext hik.1.symm)
      · have hearlier : (k : Nat) < i :=
          hk.2.trans_le ((stop_le_start h.sound hff h.laid h.order hu ha).trans hi.1)
        exact .inr ⟨hlow u hu i hi, .inl hearlier⟩
      · exact .inr ⟨hlow u hu i hi, .inr ((hlast.bounds hr).1.trans hk.1)⟩
    · rw [h.isIdentityRow hi k k.2, ite_ne_right_iff] at hik
      exact .inl (Fin.ext hik.1.symm)

end Model

end Mdao
