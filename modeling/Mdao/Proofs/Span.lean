import Mathlib
import Mdao.Span
import Mdao.Variable

/-!
# Runs one after the other

Variables, units, blocks and parts take runs of places one after the other. `Span.Tile start ss stop`
says that the runs `ss` follow one another from `start` to `stop`; then every place between the ends
is in exactly one of them (`Tile.cover`, `Tile.eq_of_mem`). `Variable.placed` are the runs of given
variables.
-/

namespace Mdao

/-- Runs that follow one another from `start` to `stop`. -/
def Span.Tile : Nat → List Span → Nat → Prop
  | start, [], stop => start = stop
  | start, s :: rest, stop => s.start = start ∧ s.start ≤ s.stop ∧ Tile s.stop rest stop

namespace Span

theorem start_add_mem {s : Span} {i : Nat} (h : i < s.size) : s.start + i ∈ s := by
  rw [size] at h
  exact ⟨by omega, by omega⟩

theorem sub_start_lt {s : Span} {k : Nat} (h : k ∈ s) : k - s.start < s.size := by
  obtain ⟨h1, h2⟩ := h
  rw [size]
  omega

theorem start_add_sub {s : Span} {k : Nat} (h : k ∈ s) : s.start + (k - s.start) = k :=
  Nat.add_sub_cancel' h.1

theorem Tile.le {start stop : Nat} {ss : List Span} (h : Tile start ss stop) : start ≤ stop := by
  induction ss generalizing start with
  | nil => exact le_of_eq h
  | cons s ss ih =>
    obtain ⟨rfl, hs, hrest⟩ := h
    exact hs.trans (ih hrest)

theorem Tile.append {start mid stop : Nat} {ss ts : List Span} (h : Tile start ss mid)
    (h' : Tile mid ts stop) : Tile start (ss ++ ts) stop := by
  induction ss generalizing start with
  | nil =>
    obtain rfl : start = mid := h
    exact h'
  | cons s ss ih =>
    obtain ⟨hstart, hs, hrest⟩ := h
    exact ⟨hstart, hs, ih hrest⟩

/-- Each of the runs lies between the ends. -/
theorem Tile.bounds {start stop : Nat} {ss : List Span} (h : Tile start ss stop) {s : Span}
    (hs : s ∈ ss) : start ≤ s.start ∧ s.start ≤ s.stop ∧ s.stop ≤ stop := by
  induction ss generalizing start with
  | nil => cases hs
  | cons t ss ih =>
    obtain ⟨rfl, ht, hrest⟩ := h
    rcases List.mem_cons.1 hs with rfl | hs
    · exact ⟨le_rfl, ht, hrest.le⟩
    · obtain ⟨h1, h2, h3⟩ := ih hrest hs
      exact ⟨ht.trans h1, h2, h3⟩

/-- The runs together have the indices between the ends. -/
theorem Tile.indices {start stop : Nat} {ss : List Span} (h : Tile start ss stop) :
    ss.flatMap Span.indices = List.range' start (stop - start) := by
  induction ss generalizing start with
  | nil =>
    obtain rfl : start = stop := h
    simp
  | cons s ss ih =>
    obtain ⟨rfl, hs, hrest⟩ := h
    have hlast := hrest.le
    have hsize : stop - s.start = (s.stop - s.start) + (stop - s.stop) := by omega
    have hstop : s.stop = s.start + (s.stop - s.start) := by omega
    rw [List.flatMap_cons, ih hrest, Span.indices, Span.size, hsize, ← List.range'_append_1]
    rw [← hstop]

/-- Every index between the ends is in a run. -/
theorem Tile.cover {start stop : Nat} {ss : List Span} (h : Tile start ss stop) {k : Nat}
    (h1 : start ≤ k) (h2 : k < stop) : ∃ s ∈ ss, k ∈ s := by
  have hk : k ∈ ss.flatMap Span.indices := by
    rw [h.indices, List.mem_range'_1]
    omega
  obtain ⟨s, hs, hks⟩ := List.mem_flatMap.1 hk
  exact ⟨s, hs, mem_indices.1 hks⟩

/-- An index is in one run only. -/
theorem Tile.eq_of_mem {β : Type} {f : β → Span} {start stop : Nat} {us : List β}
    (h : Tile start (us.map f) stop) {u v : β} (hu : u ∈ us) (hv : v ∈ us) {k : Nat}
    (hku : k ∈ f u) (hkv : k ∈ f v) : u = v := by
  induction us generalizing start with
  | nil => cases hu
  | cons w us ih =>
    obtain ⟨-, -, hrest⟩ := h
    have hlater : ∀ w' ∈ us, k ∈ f w' → k ∉ f w := fun w' hw' hk hkw =>
      absurd hkw.2 (not_lt.2 ((hrest.bounds (List.mem_map.2 ⟨w', hw', rfl⟩)).1.trans hk.1))
    rcases List.mem_cons.1 hu with rfl | hu'
    · rcases List.mem_cons.1 hv with rfl | hv'
      · rfl
      · exact absurd hku (hlater v hv' hkv)
    · rcases List.mem_cons.1 hv with rfl | hv'
      · exact absurd hkv (hlater u hu' hku)
      · exact ih hrest hu' hv'

/-- A run ends before a later one starts. -/
theorem Tile.pairwise {start stop : Nat} {ss : List Span} (h : Tile start ss stop) :
    ss.Pairwise fun s t => s.stop ≤ t.start := by
  induction ss generalizing start with
  | nil => exact .nil
  | cons s ss ih =>
    obtain ⟨-, -, hrest⟩ := h
    exact .cons (fun t ht => (hrest.bounds ht).1) (ih hrest)

/-- Runs from `start` on end where their sizes say. -/
theorem Tile.stop_eq {start stop : Nat} {ss : List Span} (h : Tile start ss stop) :
    stop = start + (ss.map Span.size).sum := by
  induction ss generalizing start with
  | nil => exact Eq.symm h
  | cons s ss ih =>
    obtain ⟨rfl, hs, hrest⟩ := h
    have hsize : s.size = s.stop - s.start := rfl
    rw [ih hrest, List.map_cons, List.sum_cons]
    omega

/-- Runs that follow one another in two stretches. -/
theorem tile_append {start stop : Nat} {ss ts : List Span} :
    Tile start (ss ++ ts) stop ↔ ∃ mid, Tile start ss mid ∧ Tile mid ts stop := by
  refine ⟨fun h => ?_, fun ⟨mid, h, h'⟩ => h.append h'⟩
  induction ss generalizing start with
  | nil => exact ⟨start, rfl, h⟩
  | cons s ss ih =>
    obtain ⟨hstart, hs, hrest⟩ := h
    obtain ⟨mid, h1, h2⟩ := ih hrest
    exact ⟨mid, ⟨hstart, hs, h1⟩, h2⟩

end Span

namespace Variable

variable {α : Type}

/-- Variables with runs of their sizes, one after the other from `start`. -/
def placed (start : Nat) : List (Variable α) → List (Variable α × Span)
  | [] => []
  | v :: vs => (v, ⟨start, start + v.size⟩) :: placed (start + v.size) vs

@[simp] theorem map_fst_placed (start : Nat) (vs : List (Variable α)) :
    (placed start vs).map Prod.fst = vs := by
  induction vs generalizing start with
  | nil => rfl
  | cons v vs ih => rw [placed, List.map_cons, ih]

theorem tile_placed (start : Nat) (vs : List (Variable α)) :
    Span.Tile start ((placed start vs).map Prod.snd) (start + (vs.map Variable.size).sum) := by
  induction vs generalizing start with
  | nil => rfl
  | cons v vs ih =>
    refine ⟨rfl, Nat.le_add_right _ _, ?_⟩
    rw [List.map_cons, List.sum_cons, ← Nat.add_assoc]
    exact ih _

variable {start : Nat} {v : Variable α} {r : Span} {vs : List (Variable α)}

theorem mem_of_placed (h : (v, r) ∈ placed start vs) : v ∈ vs := by
  rw [← map_fst_placed start vs]
  exact List.mem_map.2 ⟨_, h, rfl⟩

theorem exists_placed (start : Nat) (h : v ∈ vs) : ∃ r, (v, r) ∈ placed start vs := by
  rw [← map_fst_placed start vs] at h
  obtain ⟨⟨v, r⟩, hr, rfl⟩ := List.mem_map.1 h
  exact ⟨r, hr⟩

theorem stop_placed (h : (v, r) ∈ placed start vs) : r.stop = r.start + v.size := by
  induction vs generalizing start with
  | nil => cases h
  | cons w vs ih =>
    rcases List.mem_cons.1 h with heq | h
    · cases heq
      rfl
    · exact ih h

theorem size_placed (h : (v, r) ∈ placed start vs) : r.size = v.size := by
  rw [Span.size, stop_placed h, Nat.add_sub_cancel_left]

/-- The runs of variables lie between their ends. -/
theorem bounds_placed (h : (v, r) ∈ placed start vs) :
    start ≤ r.start ∧ r.start ≤ r.stop ∧ r.stop ≤ start + (vs.map Variable.size).sum :=
  (tile_placed start vs).bounds (List.mem_map.2 ⟨_, h, rfl⟩)

/-- Runs that start elsewhere are the same runs, moved. -/
theorem placed_add (start d : Nat) (vs : List (Variable α)) :
    placed (start + d) vs =
      (placed start vs).map fun p => (p.1, ⟨p.2.start + d, p.2.stop + d⟩) := by
  induction vs generalizing start with
  | nil => rfl
  | cons v vs ih =>
    have hnext : start + d + v.size = start + v.size + d := Nat.add_right_comm _ _ _
    rw [placed, placed, List.map_cons, hnext, ih]

/-- Where each variable contributes as many items as it has entries, they are found in its run. -/
theorem getElem?_flatMap_placed {β : Type} {f : Variable α → List β}
    (hf : ∀ w ∈ vs, (f w).length = w.size) (h : (v, r) ∈ placed start vs) {k : Nat}
    (hk : k < v.size) : (vs.flatMap f)[r.start - start + k]? = (f v)[k]? := by
  induction vs generalizing start with
  | nil => cases h
  | cons w vs ih =>
    have hw := hf w List.mem_cons_self
    rw [List.flatMap_cons]
    rcases List.mem_cons.1 h with heq | h
    · cases heq
      rw [Nat.sub_self, Nat.zero_add, List.getElem?_append_left (by omega)]
    · have hbounds := (bounds_placed h).1
      rw [List.getElem?_append_right (by omega), hw]
      have hindex : r.start - start + k - w.size = r.start - (start + w.size) + k := by omega
      rw [hindex]
      exact ih (fun x hx => hf x (List.mem_cons_of_mem _ hx)) h

end Variable

end Mdao
