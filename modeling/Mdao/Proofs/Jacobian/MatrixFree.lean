import Mathlib
import Mdao.Jacobian.MatrixFree
import Mdao.Proofs.Jacobian.Assembled

/-!
# The assembled and the matrix-free Jacobian agree

A component acts by its entries at a point when its products there are those of the entries it
contributes to an assembled matrix (`Component.ActsByEntries`). If that holds of all units whose
outputs lie in a range of slots, the propagation of seeds unit by unit is the product with the
assembled matrix, forward and in reverse (`MatrixFree.apply_eq_product`). Both sides are sums over
the same entries: forward, a unit adds at each of its slots; in reverse, what it adds to its inputs
is carried along the routes, where several inputs may share a slot.
-/

namespace Mdao

open Vec

variable {α : Type} [ExactScalar α]

namespace Component

/-- The products of a component at a point are those of its entries. -/
structure ActsByEntries (c : Component α) (inputs outputs : Array α) : Prop where
  /-- Every row belongs to an output. -/
  row_lt : ∀ e ∈ c.entries, e.row < c.outputs.size
  /-- Every column of an output belongs to an output. -/
  output_lt : ∀ e ∈ c.entries, ∀ k, e.column = .output k → k < c.outputs.size
  /-- The product adds up the entries of each row. -/
  forward : ∀ dInputs dOutputs dResiduals : Array α, dInputs.size = c.inputs.size →
    dOutputs.size = c.outputs.size → dResiduals.size = c.outputs.size →
    c.applyForward inputs outputs dInputs dOutputs dResiduals =
      .ok (scatter dResiduals (c.entries.map fun e =>
        (e.row, e.value * entryAt dInputs dOutputs e.column)))
  /-- The transposed products add up the entries of each column. -/
  reverse : ∀ dResiduals dInputs dOutputs : Array α, dResiduals.size = c.outputs.size →
    dInputs.size = c.inputs.size → dOutputs.size = c.outputs.size →
    c.applyReverse inputs outputs dResiduals dInputs dOutputs =
      .ok (scatter dInputs (inputContributions dResiduals c.entries),
        scatter dOutputs (outputContributions dResiduals c.entries))

end Component

/-- A placement has the sizes of its component. -/
structure Placement.Fits (p : Placement α) (c : Component α) : Prop where
  size_outputs : p.outputs.size = c.outputs.size
  size_routes : p.routes.size = c.inputs.size

/-- A run of slots is empty or lies in a range. -/
def Span.LiesIn (s range : Span) : Prop :=
  s.size = 0 ∨ range.start ≤ s.start ∧ s.stop ≤ range.stop

namespace Jacobian

theorem slotOf_output (p : Placement α) (i : Nat) :
    slotOf p (.output i) = (p.outputs.start + i, 1) := rfl

theorem slotOf_input {p : Placement α} {i : Nat} (h : i < p.routes.size) :
    slotOf p (.input i) = (p.routes[i].slot, p.routes[i].scale) := by
  simp only [slotOf, Array.getElem?_eq_getElem h]

theorem slotOf_input_of_le {p : Placement α} {i : Nat} (h : p.routes.size ≤ i) :
    slotOf p (.input i) = (p.outputs.start, 0) := by
  simp only [slotOf, Array.getElem?_eq_none h]

/-- The weighted sum of what a unit contributes is a sum over the unit's entries. -/
theorem sum_unitContributions {l : Arrangement α} {range : Span} {units : Array (Component α)}
    {u : Nat} {c : Component α} (hc : units[u]? = some c) (w : Nat × Nat → α) :
    ((unitContributions l range units u).map fun q => q.2 * w q.1).sum =
      (c.entries.map fun e => (placeOf range (l.unit u) e).elim 0 fun place =>
        e.value * (slotOf (l.unit u) e.column).2 * w place).sum := by
  simp only [unitContributions_eq, hc, Option.elim_some]
  rw [sum_map_filterMap]
  refine congrArg List.sum (List.map_congr_left fun e _ => ?_)
  cases placeOf range (l.unit u) e <;> rfl

/-- An entry whose row lies in the range has a place there if its column's slot does. -/
theorem placeOf_eq {range : Span} {p : Placement α} (hp : p.outputs.LiesIn range)
    {e : Component.Entry α} (he : e.row < p.outputs.size) :
    placeOf range p e = if range.contains (slotOf p e.column).1 then
      some (p.outputs.start - range.start + e.row, (slotOf p e.column).1 - range.start)
    else none := by
  have hsize : p.outputs.size = p.outputs.stop - p.outputs.start := rfl
  rcases hp with h0 | ⟨h1, h2⟩
  · omega
  · have hrow : range.contains (p.outputs.start + e.row) = true :=
      Span.contains_iff.2 ⟨by omega, by omega⟩
    have hsub : p.outputs.start + e.row - range.start = p.outputs.start - range.start + e.row := by
      omega
    simp only [placeOf, hrow, Bool.true_and, hsub]

end Jacobian

namespace MatrixFree

/-- A unit has the sizes of its place, lies in the range, and acts by its entries at the point. -/
structure Acts (op : MatrixFree α) (u : Nat) (c : Component α) : Prop where
  fits : (op.arrangement.unit u).Fits c
  liesIn : (op.arrangement.unit u).outputs.LiesIn op.range
  acts : c.ActsByEntries (slice op.inputs (op.arrangement.unit u).inputs)
    (slice op.slots (op.arrangement.unit u).outputs)

variable {op : MatrixFree α} {u : Nat} {c : Component α}

/-- The seed of an input entry: what its slot has, scaled by the route. -/
def seedOf (range : Span) (x : Array α) (route : Route α) : α :=
  if range.contains route.slot then route.scale * entry x (route.slot - range.start) else 0

/-- The seed of a column is what the slot of the column has, times the factor of its derivatives. -/
theorem entryAt_seeds {range : Span} {p : Placement α} (hp : p.outputs.LiesIn range) (x : Array α)
    {k : Column} (hk : ∀ i, k = .output i → i < p.outputs.size) :
    Component.entryAt (p.routes.map (seedOf range x))
        (slice x (p.outputs.relativeTo range.start)) k =
      if range.contains (Jacobian.slotOf p k).1 then
        (Jacobian.slotOf p k).2 * entry x ((Jacobian.slotOf p k).1 - range.start)
      else 0 := by
  have hsize : p.outputs.size = p.outputs.stop - p.outputs.start := rfl
  cases k with
  | input i =>
    simp only [Component.entryAt]
    by_cases hi : i < p.routes.size
    · rw [entry_eq_getElem (by simpa using hi), Array.getElem_map, Jacobian.slotOf_input hi]
      rfl
    · rw [entry_of_size_le (by simpa using hi), Jacobian.slotOf_input_of_le (by omega)]
      simp
  | output i =>
    have hi := hk i rfl
    rcases hp with h0 | ⟨h1, h2⟩
    · omega
    · have hin : range.contains (p.outputs.start + i) = true :=
        Span.contains_iff.2 ⟨by omega, by omega⟩
      have hown : i < (p.outputs.relativeTo range.start).size := by
        simp only [Span.relativeTo, Span.size]
        omega
      have hsub : p.outputs.start + i - range.start = p.outputs.start - range.start + i := by omega
      rw [Jacobian.slotOf_output, if_pos hin, one_mul, hsub]
      exact (entry_slice x _ i).trans (if_pos hown)

theorem size_relativeTo {s range : Span} (h : s.LiesIn range) :
    (s.relativeTo range.start).size = s.size := by
  simp only [Span.LiesIn, Span.relativeTo, Span.size] at h ⊢
  omega

theorem mem_relativeTo {s range : Span} (h : s.LiesIn range) {i k : Nat} (hk : k < s.size) :
    (i ∈ s.relativeTo range.start ∧ k = i - (s.relativeTo range.start).start) ↔
      s.start - range.start + k = i := by
  simp only [Span.LiesIn, Span.size] at h hk
  show ((s.start - range.start ≤ i ∧ i < s.stop - range.start) ∧
    k = i - (s.start - range.start)) ↔ _
  omega

/-- What is added up at a unit's own indices and then to its slots is added up at the slots. -/
theorem added_own {range : Span} {p : Placement α} (hp : p.outputs.LiesIn range)
    {cs : List (Nat × α)} (hcs : ∀ e ∈ cs, e.1 < p.outputs.size) (i : Nat) :
    added ((p.outputs.relativeTo range.start).indices.zip
      (scatter (zeros p.outputs.size) cs).toList) i =
      (cs.map fun e => if p.outputs.start - range.start + e.1 = i then e.2 else 0).sum := by
  have hown := size_relativeTo hp
  rw [added_zip_indices _ _ (by rw [size_scatter, size_zeros, hown])]
  split_ifs with hi
  · have hlt : i - (p.outputs.relativeTo range.start).start < p.outputs.size := by
      obtain ⟨h1, h2⟩ := hi
      rw [← hown, Span.size]
      omega
    rw [entry_scatter _ _ _ (by simpa using hlt), entry_zeros, zero_add]
    refine congrArg List.sum (List.map_congr_left fun e he => ?_)
    have hiff := mem_relativeTo (i := i) hp (hcs e he)
    simp only [hi, true_and] at hiff
    simp only [hiff]
  · refine (List.sum_eq_zero fun v hv => ?_).symm
    obtain ⟨e, he, rfl⟩ := List.mem_map.1 hv
    exact if_neg fun hplace => hi ((mem_relativeTo hp (hcs e he)).2 hplace).1

theorem addForward_of_ok {x y product : Array α} {p : Placement α}
    (h : c.applyForward (slice op.inputs p.inputs) (slice op.slots p.outputs)
      (p.routes.map (seedOf op.range x)) (slice x (p.outputs.relativeTo op.range.start))
      (zeros p.outputs.size) = .ok product) :
    op.addForward x y p c =
      .ok (scatter y ((p.outputs.relativeTo op.range.start).indices.zip product.toList)) := by
  have hbind : op.addForward x y p c =
      (c.applyForward (slice op.inputs p.inputs) (slice op.slots p.outputs)
        (p.routes.map (seedOf op.range x)) (slice x (p.outputs.relativeTo op.range.start))
        (zeros p.outputs.size) >>= fun product =>
          .ok (scatter y ((p.outputs.relativeTo op.range.start).indices.zip product.toList))) := rfl
  rw [hbind, h]
  rfl

/-- What a unit contributes to a row is what the row of its entries makes of the seeds. -/
theorem Acts.sum_row (h : op.Acts u c) (hc : op.units[u]? = some c) (x : Array α) (i : Nat) :
    ((Jacobian.unitContributions op.arrangement op.range op.units u).map fun q =>
      q.2 * if q.1.1 = i then entry x q.1.2 else 0).sum =
      (c.entries.map fun e =>
        if (op.arrangement.unit u).outputs.start - op.range.start + e.row = i then
          e.value * Component.entryAt ((op.arrangement.unit u).routes.map (seedOf op.range x))
            (slice x ((op.arrangement.unit u).outputs.relativeTo op.range.start)) e.column
        else 0).sum := by
  obtain ⟨hfits, hin, hacts⟩ := h
  rw [Jacobian.sum_unitContributions hc fun place => if place.1 = i then entry x place.2 else 0]
  generalize op.arrangement.unit u = p at hfits hin hacts
  refine congrArg List.sum (List.map_congr_left fun e he => ?_)
  have hrow : e.row < p.outputs.size := by
    rw [hfits.size_outputs]
    exact hacts.row_lt e he
  rw [Jacobian.placeOf_eq hin hrow, entryAt_seeds hin x fun k hk => by
    rw [hfits.size_outputs]
    exact hacts.output_lt e he k hk]
  split_ifs <;> simp_all [mul_assoc]

/-- **A unit's product adds, at each slot, the unit's contributions to the row.** -/
theorem entry_addForward (h : op.Acts u c) (hc : op.units[u]? = some c) (x y : Array α) :
    ∃ y', op.addForward x y (op.arrangement.unit u) c = .ok y' ∧ y'.size = y.size ∧
      ∀ i < y.size, entry y' i = entry y i +
        ((Jacobian.unitContributions op.arrangement op.range op.units u).map fun q =>
          q.2 * if q.1.1 = i then entry x q.1.2 else 0).sum := by
  have hrows := fun i => h.sum_row hc x i
  obtain ⟨hfits, hin, hacts⟩ := h
  generalize hp : op.arrangement.unit u = p at hfits hin hacts hrows
  have hown := size_relativeTo hin
  have hproduct := hacts.forward (p.routes.map (seedOf op.range x))
    (slice x (p.outputs.relativeTo op.range.start)) (zeros p.outputs.size)
    (by simpa using hfits.size_routes) (by rw [size_slice, hown, hfits.size_outputs])
    (by rw [size_zeros, hfits.size_outputs])
  refine ⟨_, addForward_of_ok hproduct, by simp, fun i hi => ?_⟩
  rw [entry_scatter _ _ _ hi, hrows, added_own hin, List.map_map]
  · rfl
  · intro e he
    obtain ⟨d, hd, rfl⟩ := List.mem_map.1 he
    rw [hfits.size_outputs]
    exact hacts.row_lt d hd

/-- What a route carries back from an input to a slot of the range. -/
def backOf (range : Span) (route : Route α) (d : α) : Option (Nat × α) :=
  if range.contains route.slot then some (route.slot - range.start, route.scale * d) else none

theorem addReverse_of_ok {x y dInputs dOutputs : Array α} {p : Placement α}
    (h : c.applyReverse (slice op.inputs p.inputs) (slice op.slots p.outputs)
      (slice x (p.outputs.relativeTo op.range.start)) (zeros p.routes.size)
      (zeros p.outputs.size) = .ok (dInputs, dOutputs)) :
    op.addReverse x y p c = .ok (scatter
      (scatter y ((p.outputs.relativeTo op.range.start).indices.zip dOutputs.toList))
      ((p.routes.toList.zip dInputs.toList).filterMap fun q => backOf op.range q.1 q.2)) := by
  have hbind : op.addReverse x y p c =
      (c.applyReverse (slice op.inputs p.inputs) (slice op.slots p.outputs)
        (slice x (p.outputs.relativeTo op.range.start)) (zeros p.routes.size)
        (zeros p.outputs.size) >>= fun d => .ok (scatter
          (scatter y ((p.outputs.relativeTo op.range.start).indices.zip d.2.toList))
          ((p.routes.toList.zip d.1.toList).filterMap fun q => backOf op.range q.1 q.2))) := rfl
  rw [hbind, h]
  rfl

/-- The factor with which an input's derivative is carried back to index `i` of the range. -/
def backFactor (range : Span) (p : Placement α) (i k : Nat) : α :=
  if range.contains (Jacobian.slotOf p (.input k)).1 ∧
      (Jacobian.slotOf p (.input k)).1 - range.start = i then (Jacobian.slotOf p (.input k)).2 else 0

/-- What is carried back from all inputs to an index of the range. -/
theorem added_back {range : Span} {p : Placement α} {d : Array α} (hd : d.size = p.routes.size)
    (i : Nat) :
    added ((p.routes.toList.zip d.toList).filterMap fun q => backOf range q.1 q.2) i =
      ∑ k ∈ Finset.range p.routes.size, backFactor range p i k * entry d k := by
  rw [added_filterMap, sum_zip p.routes.toList d (by simpa using hd)
    fun route v => (backOf range route v).elim 0 fun c => if c.1 = i then c.2 else 0]
  rw [Array.length_toList]
  refine Finset.sum_congr rfl fun k hk => ?_
  have hk' : k < p.routes.size := Finset.mem_range.1 hk
  rw [Array.getElem?_toList, Array.getElem?_eq_getElem hk', Option.elim_some, backFactor,
    Jacobian.slotOf_input hk']
  unfold backOf
  by_cases hin : range.contains p.routes[k].slot = true
  · rw [if_pos hin, Option.elim_some]
    simp only [hin, true_and, ite_mul, zero_mul]
  · rw [if_neg hin, Option.elim_none]
    simp [hin]

/-- The output that an entry is a derivative with respect to. -/
theorem mem_outputContributions {seed : Array α} {es : List (Component.Entry α)} {d : Nat × α}
    (hd : d ∈ Component.outputContributions seed es) : ∃ e ∈ es, e.column = .output d.1 := by
  obtain ⟨e, he, hsome⟩ := List.mem_filterMap.1 hd
  refine ⟨e, he, ?_⟩
  cases hcol : e.column with
  | input k => simp [hcol] at hsome
  | output k =>
    rw [hcol] at hsome
    rw [← Option.some.inj hsome]

/-- What the outputs' side of a transposed product adds to an index of the range, entry by entry. -/
theorem added_outputs {range : Span} {p : Placement α} (hp : p.outputs.LiesIn range)
    {es : List (Component.Entry α)}
    (hes : ∀ e ∈ es, ∀ k, e.column = .output k → k < p.outputs.size) (seed : Array α) (i : Nat) :
    added ((p.outputs.relativeTo range.start).indices.zip
      (scatter (zeros p.outputs.size) (Component.outputContributions seed es)).toList) i =
      (es.map fun e => e.column.casesOn (fun _ => 0) fun k =>
        if p.outputs.start - range.start + k = i then e.value * entry seed e.row else 0).sum := by
  have hlt : ∀ d ∈ Component.outputContributions seed es, d.1 < p.outputs.size := fun d hd => by
    obtain ⟨e, he, hcol⟩ := mem_outputContributions hd
    exact hes e he _ hcol
  rw [added_own hp hlt, Component.outputContributions, sum_map_filterMap]
  refine congrArg List.sum (List.map_congr_left fun e _ => ?_)
  cases e.column <;> rfl

/-- What the inputs' side adds, carried back along the routes, entry by entry. -/
theorem added_inputs (range : Span) (p : Placement α) (es : List (Component.Entry α))
    (seed : Array α) (i : Nat) :
    added ((p.routes.toList.zip (scatter (zeros p.routes.size)
      (Component.inputContributions seed es)).toList).filterMap fun q => backOf range q.1 q.2) i =
      (es.map fun e => e.column.casesOn
        (fun k => backFactor range p i k * (e.value * entry seed e.row)) fun _ => 0).sum := by
  rw [added_back (by simp), sum_mul_scatter, Component.inputContributions, sum_map_filterMap]
  refine congrArg List.sum (List.map_congr_left fun e _ => ?_)
  cases e.column with
  | output k => rfl
  | input k =>
    simp only [Option.elim_some]
    split_ifs with hk
    · rfl
    · rw [backFactor, Jacobian.slotOf_input_of_le (by omega), ite_self, zero_mul]

/-- Both sides together are what an entry makes of the vector at its place. -/
theorem back_eq {range : Span} {p : Placement α} (hp : p.outputs.LiesIn range)
    {e : Component.Entry α} (hrow : e.row < p.outputs.size)
    (hcol : ∀ k, e.column = .output k → k < p.outputs.size) (x : Array α) (i : Nat) :
    ((e.column.casesOn (fun _ => 0) fun k => if p.outputs.start - range.start + k = i then
        e.value * entry (slice x (p.outputs.relativeTo range.start)) e.row else 0 : α) +
      e.column.casesOn (fun k => backFactor range p i k *
        (e.value * entry (slice x (p.outputs.relativeTo range.start)) e.row)) fun _ => 0) =
      (Jacobian.placeOf range p e).elim 0 fun place =>
        e.value * (Jacobian.slotOf p e.column).2 * if place.2 = i then entry x place.1 else 0 := by
  have hread : entry (slice x (p.outputs.relativeTo range.start)) e.row =
      entry x (p.outputs.start - range.start + e.row) := by
    rw [entry_slice, if_pos (by rw [size_relativeTo hp]; exact hrow)]
    rfl
  rw [Jacobian.placeOf_eq hp hrow, hread]
  cases hcolumn : e.column with
  | input k =>
    simp only [zero_add, backFactor]
    by_cases hslot : range.contains (Jacobian.slotOf p (.input k)).1 = true
    · rw [if_pos hslot, Option.elim_some]
      simp only [hslot, true_and]
      split_ifs
      · ring
      · simp
    · rw [if_neg hslot, if_neg fun h => hslot h.1, zero_mul, Option.elim_none]
  | output k =>
    have hk := hcol k hcolumn
    have hslot : range.contains (p.outputs.start + k) = true := by
      simp only [Span.LiesIn, Span.size] at hp hk
      exact Span.contains_iff.2 ⟨by omega, by omega⟩
    have hsub : p.outputs.start + k - range.start = p.outputs.start - range.start + k := by
      simp only [Span.LiesIn, Span.size] at hp hk
      omega
    rw [add_zero, Jacobian.slotOf_output, if_pos hslot, Option.elim_some, hsub, mul_one]
    simp only [mul_ite, mul_zero]

/-- **A unit's transposed product adds, at each slot, the unit's contributions to the column.** -/
theorem entry_addReverse (h : op.Acts u c) (hc : op.units[u]? = some c) (x y : Array α) :
    ∃ y', op.addReverse x y (op.arrangement.unit u) c = .ok y' ∧ y'.size = y.size ∧
      ∀ i < y.size, entry y' i = entry y i +
        ((Jacobian.unitContributions op.arrangement op.range op.units u).map fun q =>
          q.2 * if q.1.2 = i then entry x q.1.1 else 0).sum := by
  obtain ⟨hfits, hin, hacts⟩ := h
  generalize hp : op.arrangement.unit u = p at hfits hin hacts
  have hrow : ∀ e ∈ c.entries, e.row < p.outputs.size := fun e he => by
    rw [hfits.size_outputs]
    exact hacts.row_lt e he
  have hcol : ∀ e ∈ c.entries, ∀ k, e.column = .output k → k < p.outputs.size :=
    fun e he k hk => by
      rw [hfits.size_outputs]
      exact hacts.output_lt e he k hk
  have hproduct := hacts.reverse (slice x (p.outputs.relativeTo op.range.start))
    (zeros p.routes.size) (zeros p.outputs.size)
    (by rw [size_slice, size_relativeTo hin, hfits.size_outputs])
    (by rw [size_zeros, hfits.size_routes]) (by rw [size_zeros, hfits.size_outputs])
  refine ⟨_, addReverse_of_ok hproduct, by simp, fun i hi => ?_⟩
  rw [entry_scatter _ _ _ (by simpa using hi), entry_scatter _ _ _ hi,
    Jacobian.sum_unitContributions hc fun place => if place.2 = i then entry x place.1 else 0, hp,
    add_assoc, added_outputs hin hcol, added_inputs, ← List.sum_map_add]
  refine congrArg (entry y i + ·) (congrArg List.sum (List.map_congr_left fun e he => ?_))
  exact back_eq hin (hrow e he) (hcol e he) x i

/-! ### All units -/

/-- The weight of a place in the product at index `i`. -/
def weight (mode : Mode) (x : Array α) (i : Nat) (place : Nat × Nat) : α :=
  match mode with
  | .fwd => if place.1 = i then entry x place.2 else 0
  | .rev => if place.2 = i then entry x place.1 else 0

/-- What contributions to the Jacobian make of a vector has been added, at each index. -/
structure Adds (mode : Mode) (x y y' : Array α) (cs : List ((Nat × Nat) × α)) : Prop where
  size : y'.size = y.size
  entry_eq : ∀ i < y.size, entry y' i = entry y i + (cs.map fun q => q.2 * weight mode x i q.1).sum

theorem Adds.nil (mode : Mode) (x y : Array α) : Adds mode x y y [] :=
  ⟨rfl, fun _ _ => (add_zero _).symm⟩

theorem Adds.append {mode : Mode} {x y y1 y2 : Array α} {cs ds : List ((Nat × Nat) × α)}
    (h : Adds mode x y y1 cs) (h' : Adds mode x y1 y2 ds) : Adds mode x y y2 (cs ++ ds) := by
  refine ⟨h'.size.trans h.size, fun i hi => ?_⟩
  rw [h'.entry_eq i (by rwa [h.size]), h.entry_eq i hi, List.map_append, List.sum_append, add_assoc]

/-- A unit without slots in the range contributes nothing. -/
theorem Acts.unitContributions_eq_nil (h : op.Acts u c) (hc : op.units[u]? = some c)
    (hout : ¬op.range.contains (op.arrangement.unit u).outputs.start = true) :
    Jacobian.unitContributions op.arrangement op.range op.units u = [] := by
  have hempty : (op.arrangement.unit u).outputs.size = 0 := by
    rcases h.liesIn with h0 | ⟨h1, h2⟩
    · exact h0
    · by_contra hne
      refine hout (Span.contains_iff.2 ⟨h1, ?_⟩)
      simp only [Span.size] at hne
      omega
  have hnil : c.entries = [] := by
    rw [List.eq_nil_iff_forall_not_mem]
    intro e he
    have hlt := h.acts.row_lt e he
    rw [← h.fits.size_outputs, hempty] at hlt
    omega
  simp only [Jacobian.unitContributions_eq, hc, hnil, Option.elim_some, List.filterMap_nil]

/-- What one unit adds is what it contributes. -/
theorem Acts.adds (h : op.Acts u c) (hc : op.units[u]? = some c) (mode : Mode) (x y : Array α)
    (us : List Nat) : ∃ y', op.addUnits mode x y (u :: us) = op.addUnits mode x y' us ∧
      Adds mode x y y' (Jacobian.unitContributions op.arrangement op.range op.units u) := by
  by_cases hin : op.range.contains (op.arrangement.unit u).outputs.start = true
  · cases mode with
    | fwd =>
      obtain ⟨y', hy', hsize, hentry⟩ := entry_addForward h hc x y
      exact ⟨y', by simp only [addUnits, hc, hin, if_true, hy'], hsize, hentry⟩
    | rev =>
      obtain ⟨y', hy', hsize, hentry⟩ := entry_addReverse h hc x y
      exact ⟨y', by simp only [addUnits, hc, hin, if_true, hy'], hsize, hentry⟩
  · refine ⟨y, by simp only [addUnits, hc, if_neg hin], ?_⟩
    rw [h.unitContributions_eq_nil hc hin]
    exact .nil mode x y

/-- What all units add is what they contribute. -/
theorem adds_addUnits (mode : Mode) (x : Array α) {us : List Nat} {y : Array α}
    (h : ∀ u ∈ us, ∀ c, op.units[u]? = some c → op.Acts u c) :
    ∃ y', op.addUnits mode x y us = .ok y' ∧ Adds mode x y y'
      (us.flatMap (Jacobian.unitContributions op.arrangement op.range op.units)) := by
  induction us generalizing y with
  | nil => exact ⟨y, rfl, .nil mode x y⟩
  | cons u us ih =>
    have hrest := fun y => ih (y := y) fun v hv => h v (List.mem_cons_of_mem _ hv)
    rw [List.flatMap_cons]
    cases hc : op.units[u]? with
    | none =>
      have hnone : Jacobian.unitContributions op.arrangement op.range op.units u = [] := by
        simp only [Jacobian.unitContributions_eq, hc, Option.elim_none]
      rw [hnone, List.nil_append]
      simp only [addUnits, hc]
      exact hrest y
    | some c =>
      obtain ⟨y1, hstep, hadds⟩ := (h u List.mem_cons_self c hc).adds hc mode x y us
      obtain ⟨y2, hy2, hadds2⟩ := hrest y1
      exact ⟨y2, hstep.trans hy2, hadds.append hadds2⟩

/-- **The matrix-free product is the product with the assembled matrix**, forward and in reverse. -/
theorem apply_eq_product (h : ∀ u ∈ op.unitIds, ∀ c, op.units[u]? = some c → op.Acts u c)
    (mode : Mode) (x : Array α) :
    op.apply mode x = .ok ((Jacobian.build op.arrangement op.units op.unitIds op.range).matrix.product
      op.range.size mode x) := by
  obtain ⟨y, hy, hsize, hentry⟩ := adds_addUnits mode x h
    (y := scatter (zeros op.range.size) ((op.arrangement.independentsIn op.range).map fun s =>
      (s - op.range.start, entry x (s - op.range.start))))
  rw [size_scatter, size_zeros] at hsize hentry
  refine (show op.apply mode x = .ok y from hy).trans (congrArg Except.ok ?_)
  refine ext_entry (by rw [hsize, SparseMatrix.size_product]) fun i hi => ?_
  rw [hsize] at hi
  have hproduct : entry ((Jacobian.build op.arrangement op.units op.unitIds op.range).matrix.product
      op.range.size mode x) i =
      ((Jacobian.contributions op.arrangement op.units op.unitIds op.range).map fun q =>
        q.2 * weight mode x i q.1).sum := by
    rw [← Jacobian.sum_entries]
    cases mode with
    | fwd => exact SparseMatrix.entry_product_fwd _ hi x
    | rev => exact SparseMatrix.entry_product_rev _ hi x
  rw [hentry i hi, hproduct, Jacobian.contributions, List.map_append, List.sum_append]
  congr 1
  rw [entry_scatter _ _ _ (by simpa using hi), entry_zeros, zero_add, added_map,
    Jacobian.identityContributions, List.map_map]
  refine congrArg List.sum (List.map_congr_left fun s _ => ?_)
  cases mode <;> simp [weight]

end MatrixFree

end Mdao
