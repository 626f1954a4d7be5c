import Mdao.Proofs.Model.Layout

/-!
# The runs of blocks and parts

The outputs of the units follow one another in execution order, so each group of units has one run
of slots, from its first unit to its last, and the runs of the groups follow one another
(`tile_spanOf`). The parts of a run are what it has of the outputs of units and of independent
inputs, less the empty runs, and they follow one another as well (`Part.tile_partition`). The bounds
of a group are as many as its outputs (`size_boundsOf`).
-/

namespace Mdao

variable {α : Type}

/-! ### Parts -/

namespace Part

theorem filterMap_ite {β γ δ : Type} (f : β → γ) (c : γ → Bool) (g : γ → δ) (bs : List β) :
    (bs.filterMap fun b => if c (f b) then some (g (f b)) else none) =
      ((bs.map f).filter c).map g := by
  induction bs with
  | nil => rfl
  | cons b bs ih =>
    rw [List.filterMap_cons, List.map_cons, List.filter_cons, ih]
    split_ifs <;> rfl

/-- The parts of a range are the runs of slots in it that are not empty. -/
theorem map_range_partition (l : Arrangement α) (unitIds : List Nat) (range : Span) :
    (partition l unitIds range).map Part.range =
      ((unitIds.map fun u => (l.unit u).outputs).filter (covers range) ++
        l.independents.filter (covers range)).map fun s => s.relativeTo range.start := by
  unfold partition
  simp only
  rw [List.map_append, List.map_append, List.map_filterMap, List.map_filterMap]
  refine congrArg₂ (· ++ ·) ?_ ?_
  · rw [← filterMap_ite]
    refine List.filterMap_congr fun u _ => ?_
    split_ifs <;> rfl
  · rw [← List.map_id l.independents, ← filterMap_ite, List.map_id]
    refine List.filterMap_congr fun r _ => ?_
    simp only [id]
    split_ifs <;> rfl

theorem covers_iff {range s : Span} :
    covers range s = true ↔ s.start < s.stop ∧ s.start ∈ range := by
  rw [covers, Bool.and_eq_true, Span.contains_iff]
  simp [Span.isEmpty]

/-- A run of slots that has an index is covered. -/
theorem covers_of_mem {n k : Nat} {r : Span} (hk : k ∈ r) (hn : k < n) :
    covers (.upTo n) r = true :=
  covers_iff.2 ⟨hk.1.trans_lt hk.2, Nat.zero_le _, hk.1.trans_lt hn⟩

/-- Runs inside a range follow one another also without the empty ones. -/
theorem tile_filter_covers {range : Span} {start stop : Nat} {ss : List Span}
    (h : Span.Tile start ss stop) (hstart : range.start ≤ start) (hstop : stop ≤ range.stop) :
    Span.Tile (start - range.start)
      ((ss.filter (covers range)).map fun s => s.relativeTo range.start) (stop - range.start) := by
  induction ss generalizing start with
  | nil => exact congrArg (· - range.start) h
  | cons s ss ih =>
    obtain ⟨rfl, hs, hrest⟩ := h
    have hlast := hrest.le
    have htail := ih hrest (hstart.trans hs)
    rw [List.filter_cons]
    split_ifs with hcovers
    · exact ⟨rfl, Nat.sub_le_sub_right hs _, htail⟩
    · have hempty : s.stop = s.start := by
        by_contra hne
        exact hcovers (covers_iff.2 ⟨by omega, hstart, by omega⟩)
      rwa [hempty] at htail

/-- A range has no part of what lies behind it. -/
theorem filter_covers_behind {range : Span} {ss : List Span}
    (h : ∀ s ∈ ss, range.stop ≤ s.start) : ss.filter (covers range) = [] := by
  refine List.filter_eq_nil_iff.2 fun s hs hcovers => ?_
  have := (covers_iff.1 hcovers).2.2
  have := h s hs
  omega

/-- **The parts of a group's run of slots follow one another.** -/
theorem tile_partition {l : Arrangement α} {unitIds : List Nat} {range : Span}
    (h : Span.Tile range.start (unitIds.map fun u => (l.unit u).outputs) range.stop)
    (hbehind : ∀ s ∈ l.independents, range.stop ≤ s.start) :
    Span.Tile 0 ((partition l unitIds range).map Part.range) range.size := by
  have htile := tile_filter_covers h le_rfl le_rfl
  rw [Nat.sub_self] at htile
  rw [map_range_partition, filter_covers_behind hbehind, List.append_nil]
  exact htile

/-- **The parts of all slots follow one another.** -/
theorem tile_partition_all {l : Arrangement α} {order : List Nat} {mid : Nat}
    (h : Span.Tile 0 (order.map fun u => (l.unit u).outputs) mid)
    (hindependents : Span.Tile mid l.independents l.size) :
    Span.Tile 0 ((partition l order (.upTo l.size)).map Part.range) l.size := by
  have htile := tile_filter_covers (h.append hindependents) (le_refl (Span.upTo l.size).start) le_rfl
  rw [map_range_partition, ← List.filter_append]
  exact htile

end Part

namespace Model

/-! ### Groups -/

/-- The last of some runs ends where all end. -/
theorem stop_getLast {f : Nat → Span} {start stop : Nat} {us : List Nat} {u : Nat}
    (h : Span.Tile start (us.map f) stop) (hu : us.getLast? = some u) : (f u).stop = stop := by
  obtain ⟨us, rfl⟩ := List.getLast?_eq_some_iff.1 hu
  rw [List.map_append, Span.tile_append] at h
  obtain ⟨mid, -, -, -, hstop⟩ := h
  exact hstop

/-- A group whose units follow one another has the run from the first to the last. -/
theorem spanOf_eq {l : Arrangement α} {us : List Nat} {start stop : Nat} (hne : us ≠ [])
    (h : Span.Tile start (us.map fun u => (l.unit u).outputs) stop) :
    spanOf l us = ⟨start, stop⟩ := by
  cases us with
  | nil => exact absurd rfl hne
  | cons u us =>
    have hlast := List.getLast?_eq_some_getLast (List.cons_ne_nil u us)
    simp only [spanOf, List.head?_cons, hlast]
    rw [stop_getLast h hlast, h.1]

/-- **The runs of groups follow one another**, and each is that of the outputs of its units. -/
theorem tile_spanOf {l : Arrangement α} {gs : List (List Nat)} {start stop : Nat}
    (hne : ∀ g ∈ gs, g ≠ [])
    (h : Span.Tile start (gs.flatten.map fun u => (l.unit u).outputs) stop) :
    Span.Tile start (gs.map (spanOf l)) stop ∧ ∀ g ∈ gs,
      Span.Tile (spanOf l g).start (g.map fun u => (l.unit u).outputs) (spanOf l g).stop := by
  induction gs generalizing start with
  | nil => exact ⟨h, by simp⟩
  | cons g gs ih =>
    rw [List.flatten_cons, List.map_append, Span.tile_append] at h
    obtain ⟨mid, hfirst, hrest⟩ := h
    have hspan := spanOf_eq (hne g List.mem_cons_self) hfirst
    obtain ⟨htile, hall⟩ := ih (fun g' hg' => hne g' (List.mem_cons_of_mem _ hg')) hrest
    refine ⟨?_, fun g' hg' => ?_⟩
    · rw [List.map_cons, hspan]
      exact ⟨rfl, hfirst.le, htile⟩
    · rcases List.mem_cons.1 hg' with rfl | hg'
      · rw [hspan]
        exact hfirst
      · exact hall g' hg'

variable [Scalar α] {m : Model α}

/-- **The bounds of a group are as many as the slots of its outputs.** -/
theorem size_boundsOf {order : List Nat} {s : Store α} {l : Arrangement α}
    (hlaid : Laid m order s l) (hm : m.Sound) (bound : Variable α → Option α) {us : List Nat}
    (hus : ∀ u ∈ us, u < m.units.size) {range : Span}
    (h : Span.Tile range.start (us.map fun u => (l.unit u).outputs) range.stop) :
    (m.boundsOf bound us).size = range.size := by
  rw [Span.size, h.stop_eq, Nat.add_sub_cancel_left, boundsOf, List.size_toArray,
    List.length_flatMap, List.map_map]
  refine congrArg List.sum (List.map_congr_left fun u hu => ?_)
  have hget := Array.getElem?_eq_getElem (hus u hu)
  have hsize := (hlaid.fits hm hget).size_outputs
  simp only [Function.comp_apply, hget, hsize, (hm.declared _ (Array.getElem_mem _)).size_outputs,
    List.length_flatMap, List.length_replicate]

end Model

end Mdao
