import Mdao.Proofs.Component.Places
import Mdao.Proofs.Jacobian.MatrixFree

/-!
# What is assembled, and what a refresh keeps

The pattern of an assembled Jacobian is known from declarations and routes: `MayDepend` says, by
slots and without a range, which residual may depend on which slot, and the pattern is the part
inside the range (`mem_pattern`), row by row (`pairwise_pattern`). The value at a place is the sum
of everything that belongs there (`entries_build`, `sum_contributions_at`).

A Jacobian is refreshed from units that have been linearized since, any number of times and at any
points. `Event` is one step of this; each step keeps a Jacobian that was built from units which
differ from the present ones in derivatives only (`BuiltFrom.perform`), and so does a whole run
(`BuiltFrom.run`). Refreshing such a Jacobian is building it anew (`BuiltFrom.refresh_eq`), although
the refresh adds by position what it visits and never asks for a place.
-/

namespace Mdao

namespace Jacobian

open Component Vec

/-! ### Which residuals may depend on which slots -/

section Pattern

variable {β : Type} [Scalar β] {l : Arrangement β} {units : Array (Component β)}
  {unitIds : List Nat} {range : Span}

/-- A column of a unit stands for a slot: one of the unit, or the one that an input is routed
from. -/
def StandsFor (p : Placement β) (slot : Nat) : Column → Prop
  | .output i => slot = p.outputs.start + i
  | .input i => ∃ route, p.routes[i]? = some route ∧ slot = route.slot

/-- **The residual of one slot may depend on another slot**, by declarations and routes. -/
inductive MayDepend (l : Arrangement β) (units : Array (Component β)) (unitIds : List Nat) :
    Nat → Nat → Prop where
  /-- A unit declares an entry, whose column stands for the slot. -/
  | entry {u : Nat} {c : Component β} {r : Nat} {k : Column} {slot : Nat} (hu : u ∈ unitIds)
      (hc : units[u]? = some c) (hplace : c.HasPlace r k) (hslot : StandsFor (l.unit u) slot k) :
      MayDepend l units unitIds ((l.unit u).outputs.start + r) slot
  /-- An independent slot depends on itself. -/
  | independent {slot : Nat} (h : l.isIndependent slot = true) : MayDepend l units unitIds slot slot

/-- One place comes before another row by row. -/
def Precedes (p q : Nat × Nat) : Prop := p.1 < q.1 ∨ p.1 = q.1 ∧ p.2 < q.2

theorem slotOf_eq_iff {p : Placement β} {c : Component β} (hp : p.Fits c) {k : Column}
    (hk : c.HasColumn k) {slot : Nat} : (slotOf p k).1 = slot ↔ StandsFor p slot k := by
  cases k with
  | output i => exact eq_comm
  | input i =>
    have hi : i < p.routes.size := hp.size_routes ▸ hk
    simp only [slotOf, StandsFor, Array.getElem?_eq_getElem hi, Option.some.injEq, exists_eq_left']
    exact eq_comm

/-- An entry lies at a place when its slots are those of the place. -/
theorem placeOf_eq_some {p : Placement β} {e : Component.Entry β} {r k : Nat}
    (hr : r < range.size) (hk : k < range.size) : placeOf range p e = some (r, k) ↔
      p.outputs.start + e.row = range.start + r ∧ (slotOf p e.column).1 = range.start + k := by
  simp only [placeOf, Bool.and_eq_true, Span.contains_iff]
  simp only [Span.size] at hr hk
  constructor
  · intro h
    split_ifs at h with hin
    obtain ⟨⟨h1, -⟩, h2, -⟩ := hin
    simp only [Option.some.injEq, Prod.mk.injEq] at h
    omega
  · rintro ⟨h1, h2⟩
    rw [h1, h2, if_pos ⟨⟨by omega, by omega⟩, by omega, by omega⟩]
    simp

omit [Scalar β] in
theorem mem_independentsIn {slot : Nat} :
    slot ∈ l.independentsIn range ↔ l.isIndependent slot = true ∧ slot ∈ range := by
  simp only [Arrangement.independentsIn, List.mem_filter, List.mem_flatMap, Span.contains_iff,
    Arrangement.isIndependent, List.any_eq_true, Span.mem_indices]

/-- The places of the ones. -/
theorem mem_map_fst_identity {r k : Nat} (hr : r < range.size) :
    (r, k) ∈ (identityContributions l range).map Prod.fst ↔
      r = k ∧ l.isIndependent (range.start + r) = true := by
  simp only [identityContributions, List.map_map, List.mem_map, Function.comp_apply,
    Prod.mk.injEq, mem_independentsIn]
  constructor
  · rintro ⟨s, ⟨hindependent, hs⟩, rfl, rfl⟩
    rw [Span.start_add_sub hs]
    exact ⟨rfl, hindependent⟩
  · rintro ⟨rfl, hindependent⟩
    exact ⟨range.start + r, ⟨hindependent, Span.start_add_mem hr⟩, by simp⟩

/-- The units are sound and have their places in an arrangement. -/
def AllFit (l : Arrangement β) (units : Array (Component β)) : Prop :=
  ∀ (u : Nat) (c : Component β), units[u]? = some c → c.Sound ∧ (l.unit u).Fits c

/-- Where a pass over the units comes by. -/
theorem some_mem_map_fst_visits (h : AllFit l units) {r k : Nat} (hr : r < range.size)
    (hk : k < range.size) : some (r, k) ∈ (visits l units unitIds range).map Prod.fst ↔
      ∃ u ∈ unitIds, ∃ c, units[u]? = some c ∧ ∃ i column, c.HasPlace i column ∧
        (l.unit u).outputs.start + i = range.start + r ∧
          StandsFor (l.unit u) (range.start + k) column := by
  rw [visits, List.map_flatMap, List.mem_flatMap]
  refine exists_congr fun u => and_congr_right fun _ => ?_
  rw [map_fst_unitVisits]
  cases hc : units[u]? with
  | none => simp
  | some c =>
    obtain ⟨hsound, hfits⟩ := h u c hc
    simp only [Option.elim_some, List.mem_map, Option.some.injEq, exists_eq_left']
    constructor
    · rintro ⟨q, ⟨e, he, rfl⟩, hq⟩
      have hplace : c.HasPlace e.row e.column := hsound.mem_places.1 (List.mem_map_of_mem he)
      obtain ⟨hrow, hcol⟩ := (placeOf_eq_some hr hk).1 hq
      exact ⟨_, _, hplace, hrow, (slotOf_eq_iff hfits (hsound.hasPlace_inside hplace).2).1 hcol⟩
    · rintro ⟨i, column, hplace, hrow, hcol⟩
      obtain ⟨e, he, heq⟩ := List.mem_map.1 (hsound.mem_places.2 hplace)
      exact ⟨(i, column), ⟨e, he, heq⟩, (placeOf_eq_some hr hk).2
        ⟨hrow, (slotOf_eq_iff hfits (hsound.hasPlace_inside hplace).2).2 hcol⟩⟩

/-- **The pattern** of a built Jacobian is where residuals may depend on slots, inside the range. -/
theorem mem_pattern (h : AllFit l units) {r k : Nat} :
    (r, k) ∈ (build l units unitIds range).pattern ↔ r < range.size ∧ k < range.size ∧
      MayDepend l units unitIds (range.start + r) (range.start + k) := by
  have hpattern : (build l units unitIds range).pattern =
      patternOf range.size ((contributions l units unitIds range).map Prod.fst) := rfl
  rw [hpattern, mem_patternOf]
  refine and_congr_right fun hr => and_congr_right fun hk => ?_
  have hvisited : (r, k) ∈ ((visits l units unitIds range).map Prod.fst).filterMap id ↔
      some (r, k) ∈ (visits l units unitIds range).map Prod.fst := by
    simp only [List.mem_filterMap, id_eq, exists_eq_right]
  rw [map_fst_contributions, List.mem_append, mem_map_fst_identity hr, hvisited,
    some_mem_map_fst_visits h hr hk]
  constructor
  · rintro (⟨rfl, hindependent⟩ | ⟨u, hu, c, hc, i, column, hplace, hrow, hcol⟩)
    · exact .independent hindependent
    · rw [← hrow]
      exact .entry hu hc hplace hcol
  · intro hdepend
    generalize hrow : range.start + r = row at hdepend ⊢
    generalize hcol : range.start + k = col at hdepend ⊢
    cases hdepend with
    | entry hu hc hplace hslot => exact .inr ⟨_, hu, _, hc, _, _, hplace, rfl, hslot⟩
    | independent hindependent => exact .inl ⟨by omega, hindependent⟩

/-- It lists its places row by row and once each. -/
theorem pairwise_pattern (l : Arrangement β) (units : Array (Component β)) (unitIds : List Nat)
    (range : Span) : (build l units unitIds range).pattern.Pairwise Precedes := by
  refine List.pairwise_flatMap.2 ⟨fun r _ => ?_, ?_⟩
  · refine List.pairwise_map.2 ((List.pairwise_lt_range.filter _).imp fun hlt => ?_)
    exact .inr ⟨rfl, hlt⟩
  · refine List.pairwise_lt_range.imp fun hlt p hp q hq => ?_
    obtain ⟨_, -, rfl⟩ := List.mem_map.1 hp
    obtain ⟨_, -, rfl⟩ := List.mem_map.1 hq
    exact .inl hlt

theorem nodup_pattern (l : Arrangement β) (units : Array (Component β)) (unitIds : List Nat)
    (range : Span) : (build l units unitIds range).pattern.Nodup :=
  (pairwise_pattern l units unitIds range).imp fun hpq => by
    rintro rfl
    simp [Precedes] at hpq

end Pattern

/-! ### Sums at places -/

section Values

variable {α : Type} [ExactScalar α] {l : Arrangement α} {units : Array (Component α)}
  {unitIds : List Nat} {range : Span}

/-- The value at a place is the sum of the contributions to it. -/
theorem entry_valuesOf {pattern : List (Nat × Nat)} (hnodup : pattern.Nodup)
    (cs : List ((Nat × Nat) × α)) {i : Nat} (hi : i < pattern.length) :
    entry (valuesOf pattern cs) i = (cs.map fun c => if c.1 = pattern[i] then c.2 else 0).sum := by
  rw [valuesOf, entry_scatter _ _ _ (by simpa using hi), entry_zeros, zero_add, added_map]
  refine congrArg List.sum (List.map_congr_left fun c _ => ?_)
  have hidx : pattern.idxOf c.1 = i ↔ c.1 = pattern[i] := by
    constructor
    · rintro rfl
      exact (List.getElem_idxOf hi).symm
    · intro heq
      rw [heq]
      exact hnodup.idxOf_getElem i hi
  simp only [hidx]

/-- **The entries** of a built Jacobian are the sums of the contributions at its places. -/
theorem entries_build (l : Arrangement α) (units : Array (Component α)) (unitIds : List Nat)
    (range : Span) : (build l units unitIds range).matrix.entries =
      (build l units unitIds range).pattern.map fun place => (place.1, place.2,
        ((contributions l units unitIds range).map fun c => if c.1 = place then c.2 else 0).sum) := by
  have hsize : (build l units unitIds range).values.size =
      (build l units unitIds range).pattern.length := by
    rw [values_build, size_valuesOf]
  refine List.ext_getElem (by simp [matrix, hsize]) fun i h1 h2 => ?_
  have hi : i < (build l units unitIds range).pattern.length := by simpa using h2
  have hsome : i < (build l units unitIds range).values.size := hsize ▸ hi
  have hvalue : (build l units unitIds range).values[i] =
      ((contributions l units unitIds range).map fun c =>
        if c.1 = (build l units unitIds range).pattern[i] then c.2 else 0).sum := by
    rw [← entry_eq_getElem, values_build]
    exact entry_valuesOf (nodup_pattern l units unitIds range) _ hi
  simp only [matrix, List.getElem_zipWith, List.getElem_map, Array.getElem_toList]
  rw [hvalue]

/-- What a unit adds for the residual of one slot and another slot. -/
def unitTotal (p : Placement α) (c : Component α) (row col : Nat) : α :=
  (c.entries.map fun e =>
    if p.outputs.start + e.row = row ∧ (slotOf p e.column).1 = col then
      e.value * (slotOf p e.column).2
    else 0).sum

/-- **The sum of everything that belongs to the residual of one slot and another slot**: a one where
both are the same independent slot, and what the units add. -/
def total (l : Arrangement α) (units : Array (Component α)) (unitIds : List Nat)
    (row col : Nat) : α :=
  (if row = col ∧ l.isIndependent row = true then 1 else 0) +
    (unitIds.map fun u => units[u]?.elim 0 fun c => unitTotal (l.unit u) c row col).sum

/-- The contributions of a unit to a place. -/
theorem sum_unitContributions_at (u : Nat) {r k : Nat} (hr : r < range.size)
    (hk : k < range.size) :
    ((unitContributions l range units u).map fun c => if c.1 = (r, k) then c.2 else 0).sum =
      units[u]?.elim 0 fun c => unitTotal (l.unit u) c (range.start + r) (range.start + k) := by
  rw [unitContributions_eq]
  cases units[u]? with
  | none => rfl
  | some c =>
    simp only [Option.elim_some]
    rw [sum_map_filterMap, unitTotal]
    refine congrArg List.sum (List.map_congr_left fun e _ => ?_)
    by_cases hplace : placeOf range (l.unit u) e = some (r, k)
    · rw [if_pos ((placeOf_eq_some hr hk).1 hplace), hplace]
      simp
    · rw [if_neg fun h => hplace ((placeOf_eq_some hr hk).2 h)]
      cases hp : placeOf range (l.unit u) e with
      | none => rfl
      | some place =>
        have hne : place ≠ (r, k) := fun heq => hplace (heq ▸ hp)
        simp [hne]

/-- The ones at a place. -/
theorem sum_identityContributions_at (hnodup : (l.independents.flatMap Span.indices).Nodup)
    {r k : Nat} (hr : r < range.size) :
    ((identityContributions l range).map fun c => if c.1 = (r, k) then c.2 else 0).sum =
      if range.start + r = range.start + k ∧ l.isIndependent (range.start + r) = true then 1
      else 0 := by
  have hterm : ∀ s ∈ (l.independentsIn range).toFinset,
      (if (s - range.start, s - range.start) = (r, k) then (1 : α) else 0) =
        if s = range.start + r then if r = k then 1 else 0 else 0 := by
    intro s hs
    obtain ⟨hs, -⟩ := (mem_independentsIn.1 (List.mem_toFinset.1 hs)).2
    have hplace : (s - range.start, s - range.start) = (r, k) ↔ s = range.start + r ∧ r = k := by
      rw [Prod.mk.injEq]
      omega
    simp only [hplace, ite_and]
  have honce : (l.independentsIn range).Nodup := hnodup.filter _
  rw [identityContributions, List.map_map]
  show ((l.independentsIn range).map fun s =>
    if (s - range.start, s - range.start) = (r, k) then (1 : α) else 0).sum = _
  rw [← List.sum_toFinset _ honce, Finset.sum_congr rfl hterm, Finset.sum_ite_eq']
  simp only [List.mem_toFinset, mem_independentsIn, Span.start_add_mem hr, and_true,
    Nat.add_left_cancel_iff, and_comm (a := r = k), ite_and]

/-- **The contributions to a place** are everything that belongs to its two slots. -/
theorem sum_contributions_at (hnodup : (l.independents.flatMap Span.indices).Nodup) {r k : Nat}
    (hr : r < range.size) (hk : k < range.size) :
    ((contributions l units unitIds range).map fun c => if c.1 = (r, k) then c.2 else 0).sum =
      total l units unitIds (range.start + r) (range.start + k) := by
  rw [contributions, List.map_append, List.sum_append, sum_identityContributions_at hnodup hr,
    sum_map_flatMap, total]
  exact congrArg _ (congrArg List.sum
    (List.map_congr_left fun u _ => sum_unitContributions_at u hr hk))

end Values

/-! ### Runs of linearizations and refreshes -/

section Runs

variable {β : Type} [Scalar β] {l : Arrangement β} {units : Array (Component β)}
  {unitIds : List Nat} {range : Span} {s : Jacobian β × Array (Component β)}

/-- A linearization of one of some units, at a point. -/
structure Linearizing (α : Type) where
  /-- The unit. -/
  unit : Nat
  /-- Its inputs at the point. -/
  inputs : Array α
  /-- Its outputs at the point. -/
  outputs : Array α
  /-- The tolerance of the check of the declared structure, if there is one. -/
  strict : Option α

/-- The units after a linearization; after a failure the unit has what was written before. -/
def linearized (units : Array (Component β)) (p : Linearizing β) : Array (Component β) :=
  units.modify p.unit fun c => stateAfter (c.linearize p.inputs p.outputs p.strict)

/-- What happens to a Jacobian and its units. -/
inductive Event (α : Type) where
  /-- A unit is linearized. -/
  | linearize (p : Linearizing α)
  /-- The Jacobian is refreshed from the units. -/
  | refresh

/-- A Jacobian and its units after an event. -/
def perform (l : Arrangement β) (s : Jacobian β × Array (Component β)) :
    Event β → Jacobian β × Array (Component β)
  | .linearize p => (s.1, linearized s.2 p)
  | .refresh => (s.1.refresh l s.2, s.2)

/-- A Jacobian that is built after some linearizations of the units, and the units, after a run. -/
def afterRun (l : Arrangement β) (units : Array (Component β)) (unitIds : List Nat) (range : Span)
    (before : List (Linearizing β)) (events : List (Event β)) :
    Jacobian β × Array (Component β) :=
  let units := before.foldl linearized units
  events.foldl (perform l) (.build l units unitIds range, units)

/-- A linearization changes derivatives only. -/
theorem allAlike_linearized (units : Array (Component β)) (p : Linearizing β) :
    AllAlike units (linearized units p) := by
  refine ⟨by simp [linearized], fun u c c' hc hc' => ?_⟩
  rw [linearized, Array.getElem?_modify, hc] at hc'
  split_ifs at hc'
  · cases hc'
    exact alike_linearize c p.inputs p.outputs p.strict
  · cases hc'
    exact .refl c

/-- So do any number of them. -/
theorem allAlike_foldl_linearized (units : Array (Component β)) (ps : List (Linearizing β)) :
    AllAlike units (ps.foldl linearized units) := by
  induction ps generalizing units with
  | nil => exact .refl units
  | cons p ps ih => exact (allAlike_linearized units p).trans (ih _)

/-- A Jacobian was built from units that differ from given ones in derivatives only, and so do the
present ones. -/
structure BuiltFrom (l : Arrangement β) (units : Array (Component β)) (unitIds : List Nat)
    (range : Span) (s : Jacobian β × Array (Component β)) : Prop where
  present : AllAlike units s.2
  jacobian : ∃ units', AllAlike units units' ∧ s.1 = build l units' unitIds range

namespace BuiltFrom

/-- **Refreshing such a Jacobian is building it anew.** -/
theorem refresh_eq (h : BuiltFrom l units unitIds range s) :
    s.1.refresh l s.2 = build l s.2 unitIds range := by
  obtain ⟨units', hunits', hs⟩ := h.jacobian
  rw [hs, refresh_build (hunits'.symm.trans h.present)]

/-- **An event keeps this.** -/
theorem perform (h : BuiltFrom l units unitIds range s) (e : Event β) :
    BuiltFrom l units unitIds range (perform l s e) := by
  cases e with
  | linearize p => exact ⟨h.present.trans (allAlike_linearized s.2 p), h.jacobian⟩
  | refresh => exact ⟨h.present, s.2, h.present, h.refresh_eq⟩

/-- **So does a run.** -/
theorem run (h : BuiltFrom l units unitIds range s) (events : List (Event β)) :
    BuiltFrom l units unitIds range (events.foldl (Jacobian.perform l) s) := by
  induction events generalizing s with
  | nil => exact h
  | cons e events ih => exact ih (h.perform e)

/-- The pattern is the one of the units as declared. -/
theorem pattern_eq (h : BuiltFrom l units unitIds range s) :
    s.1.pattern = (build l units unitIds range).pattern := by
  obtain ⟨units', hunits', hs⟩ := h.jacobian
  rw [hs, pattern_build hunits']

end BuiltFrom

/-- **A run keeps a Jacobian that was built**, whatever is linearized before and in between. -/
theorem builtFrom_afterRun (l : Arrangement β) (units : Array (Component β)) (unitIds : List Nat)
    (range : Span) (before : List (Linearizing β)) (events : List (Event β)) :
    BuiltFrom l units unitIds range (afterRun l units unitIds range before events) := by
  have hunits := allAlike_foldl_linearized units before
  have hbuilt : BuiltFrom l units unitIds range
      (.build l (before.foldl linearized units) unitIds range, before.foldl linearized units) :=
    ⟨hunits, _, hunits, rfl⟩
  exact hbuilt.run events

end Runs

/-- **What is assembled is exact and stays so**, for a Jacobian and the present units. -/
structure Reassembles {α : Type} [ExactScalar α] (l : Arrangement α)
    (declared : Array (Component α)) (unitIds : List Nat) (range : Span)
    (s : Jacobian α × Array (Component α)) : Prop where
  /-- The pattern is where residuals may depend on slots by declarations, inside the range. -/
  pattern : ∀ r k, (r, k) ∈ s.1.pattern ↔ r < range.size ∧ k < range.size ∧
    MayDepend l declared unitIds (range.start + r) (range.start + k)
  /-- It lists its places row by row and once each. -/
  sorted : s.1.pattern.Pairwise Precedes
  /-- A refresh gives the Jacobian that would be built from the units as they are. -/
  refresh : s.1.refresh l s.2 = build l s.2 unitIds range
  /-- Its entries are the sums of everything that belongs to their slots. -/
  entries : (s.1.refresh l s.2).matrix.entries = s.1.pattern.map fun place =>
    (place.1, place.2, total l s.2 unitIds (range.start + place.1) (range.start + place.2))

/-- A Jacobian that was built from units in their places is exact and stays so. -/
theorem BuiltFrom.reassembles {α : Type} [ExactScalar α] {l : Arrangement α}
    {units : Array (Component α)} {unitIds : List Nat} {range : Span}
    {s : Jacobian α × Array (Component α)} (h : BuiltFrom l units unitIds range s)
    (hfit : AllFit l units) (hnodup : (l.independents.flatMap Span.indices).Nodup) :
    Reassembles l units unitIds range s := by
  refine ⟨fun r k => ?_, ?_, h.refresh_eq, ?_⟩
  · rw [h.pattern_eq]
    exact mem_pattern hfit
  · rw [h.pattern_eq]
    exact pairwise_pattern l units unitIds range
  · rw [h.refresh_eq, entries_build, pattern_build h.present, h.pattern_eq]
    refine List.map_congr_left fun place hplace => ?_
    obtain ⟨hr, hk, -⟩ := (mem_pattern hfit).1 hplace
    rw [sum_contributions_at hnodup hr hk]

end Jacobian

end Mdao
