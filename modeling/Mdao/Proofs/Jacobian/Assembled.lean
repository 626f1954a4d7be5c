import Mathlib
import Mdao.Jacobian.Assembled
import Mdao.Proofs.Component.Declared
import Mdao.Proofs.Vec

/-!
# The entries of an assembled Jacobian

The assembled Jacobian keeps one value for each place of its pattern, and contributions to one place
add up there. `sum_entries` removes this layer: a sum over the entries of the matrix, each value
weighted by its place, is the same sum over the contributions of the units. Products with the
matrix and with its transpose are such sums (`entry_product_fwd`, `entry_product_rev`), and so are
its diagonal blocks.

An entry of the inverse of a sparse matrix can only differ from zero where a chain of entries of the
matrix leads from its row to its column (`Jacobian.coeff_inv_eq_zero`): the slots to which chains lead
from a row are closed under the entries, so the matrix is block triangular for them and what is left,
and so is its inverse. The entries may form cycles. The pattern of a Jacobian depends on declarations
and routes alone, so these chains are the same for all values of the derivatives.
-/

namespace Mdao

open Vec

variable {α : Type} [ExactScalar α]

namespace SparseMatrix

/-- The entry of a product is a sum over the entries of the matrix. -/
theorem entry_product_fwd (m : SparseMatrix α) {n i : Nat} (hi : i < n) (x : Array α) :
    entry (m.product n .fwd x) i =
      (m.entries.map fun e => e.2.2 * if e.1 = i then entry x e.2.1 else 0).sum := by
  rw [product, entry_scatter _ _ _ (by simpa using hi), entry_zeros, zero_add, contributions,
    added_map]
  simp only [mul_ite, mul_zero]

/-- The entry of a product with the transpose is a sum over the entries of the matrix. -/
theorem entry_product_rev (m : SparseMatrix α) {n i : Nat} (hi : i < n) (x : Array α) :
    entry (m.product n .rev x) i =
      (m.entries.map fun e => e.2.2 * if e.2.1 = i then entry x e.1 else 0).sum := by
  rw [product, entry_scatter _ _ _ (by simpa using hi), entry_zeros, zero_add, contributions,
    added_map]
  simp only [mul_ite, mul_zero]

@[simp] theorem size_product (m : SparseMatrix α) (n : Nat) (mode : Mode) (x : Array α) :
    (m.product n mode x).size = n := by
  simp [product]

open Matrix

/-- The matrix in `n` dimensions; entries at one place add up. -/
def toMatrix (m : SparseMatrix α) (n : Nat) : Matrix (Fin n) (Fin n) α :=
  fun i k => (m.entries.map fun e => if e.1 = (i : Nat) ∧ e.2.1 = (k : Nat) then e.2.2 else 0).sum

/-- The entries with rows and columns exchanged. -/
def transposed (m : SparseMatrix α) : SparseMatrix α :=
  ⟨m.entries.map fun e => (e.2.1, e.1, e.2.2)⟩

theorem product_rev_eq (m : SparseMatrix α) (n : Nat) (x : Array α) :
    m.product n .rev x = m.transposed.product n .fwd x := by
  simp only [product, contributions, transposed, List.map_map]
  rfl

theorem toMatrix_transposed (m : SparseMatrix α) (n : Nat) :
    m.transposed.toMatrix n = (m.toMatrix n)ᵀ := by
  ext i k
  simp only [toMatrix, transposed, Matrix.transpose_apply, List.map_map]
  refine congrArg List.sum (List.map_congr_left fun e _ => ?_)
  simp only [Function.comp_apply, and_comm]

/-- A product with the matrix of entries is a sum over the entries. -/
theorem mulVec_toMatrix {n : Nat} {es : List (Nat × Nat × α)} (hes : ∀ e ∈ es, e.2.1 < n)
    (x : Array α) (i : Fin n) : (toMatrix ⟨es⟩ n *ᵥ toFun n x) i =
      (es.map fun e => e.2.2 * if e.1 = (i : Nat) then entry x e.2.1 else 0).sum := by
  simp only [Matrix.mulVec, dotProduct, toMatrix, toFun]
  induction es with
  | nil => simp
  | cons e es ih =>
    have hcol : e.2.1 < n := hes e List.mem_cons_self
    have hhead : ∑ k : Fin n, (if e.1 = (i : Nat) ∧ e.2.1 = (k : Nat) then e.2.2 else 0) *
        entry x k = e.2.2 * if e.1 = (i : Nat) then entry x e.2.1 else 0 := by
      rw [Finset.sum_eq_single_of_mem ⟨e.2.1, hcol⟩ (Finset.mem_univ _) fun k _ hne => ?_]
      · simp only [and_true, ite_mul, zero_mul, mul_ite, mul_zero]
      · rw [if_neg, zero_mul]
        rintro ⟨-, hk⟩
        exact hne (Fin.ext hk.symm)
    simp only [List.map_cons, List.sum_cons, add_mul, Finset.sum_add_distrib]
    rw [hhead, ih fun e he => hes e (List.mem_cons_of_mem _ he)]

/-- **A product with the entries is a product with the matrix.** -/
theorem toFun_product_fwd {m : SparseMatrix α} {n : Nat}
    (hm : ∀ e ∈ m.entries, e.1 < n ∧ e.2.1 < n) (x : Array α) :
    toFun n (m.product n .fwd x) = m.toMatrix n *ᵥ toFun n x := by
  funext i
  rw [mulVec_toMatrix (fun e he => (hm e he).2)]
  exact entry_product_fwd m i.2 x

/-- In reverse it is a product with the transpose. -/
theorem toFun_product_rev {m : SparseMatrix α} {n : Nat}
    (hm : ∀ e ∈ m.entries, e.1 < n ∧ e.2.1 < n) (x : Array α) :
    toFun n (m.product n .rev x) = (m.toMatrix n)ᵀ *ᵥ toFun n x := by
  rw [product_rev_eq, ← toMatrix_transposed]
  refine toFun_product_fwd (fun e he => ?_) x
  obtain ⟨e', he', rfl⟩ := List.mem_map.1 he
  exact (hm e' he').symm

end SparseMatrix

namespace Jacobian

/-! ### Patterns -/

/-- A place of a contribution is in the pattern when it lies in the square. -/
theorem mem_patternOf {n : Nat} {places : List (Nat × Nat)} {r c : Nat} :
    (r, c) ∈ patternOf n places ↔ r < n ∧ c < n ∧ (r, c) ∈ places := by
  simp only [patternOf, List.mem_flatMap, List.mem_range, List.mem_map, List.mem_filter,
    List.contains_iff_mem, List.mem_filterMap, Prod.mk.injEq]
  constructor
  · rintro ⟨r', hr, c', ⟨hc, p, hp, hpc⟩, rfl, rfl⟩
    split_ifs at hpc with h
    cases hpc
    exact ⟨hr, hc, by rw [← h]; exact hp⟩
  · rintro ⟨hr, hc, hp⟩
    exact ⟨r, hr, c, ⟨hc, (r, c), hp, if_pos rfl⟩, rfl, rfl⟩

/-- A place of a pattern has a position in it. -/
theorem idxOf?_of_mem {pattern : List (Nat × Nat)} {place : Nat × Nat} (h : place ∈ pattern) :
    pattern.idxOf? place = some (pattern.idxOf place) := by
  rw [List.idxOf?, List.findIdx?_eq_some_iff_findIdx_eq]
  exact ⟨List.idxOf_lt_length_iff.2 h, rfl⟩

/-- **Replayed at the positions recorded for it, a pass adds at the places it visits.** -/
theorem replay_recorded {β : Type} {vs : List (Option (Nat × Nat) × β)} {pattern : List (Nat × Nat)}
    (hpattern : ∀ v ∈ vs, ∀ place ∈ v.1, place ∈ pattern) :
    replay (vs.map fun v => v.1.bind pattern.idxOf?) vs =
      (vs.filterMap fun v => v.1.map fun place => (place, v.2)).map
        fun c => (pattern.idxOf c.1, c.2) := by
  have hzip : (vs.map fun v => v.1.bind pattern.idxOf?).zip vs =
      vs.map fun v => (v.1.bind pattern.idxOf?, v) := by
    simpa using List.zip_map' (f := fun v : Option (Nat × Nat) × β => v.1.bind pattern.idxOf?)
      (g := id) (l := vs)
  rw [replay, hzip, List.filterMap_map, List.map_filterMap]
  refine List.filterMap_congr fun v hv => ?_
  obtain ⟨place?, value⟩ := v
  cases place? with
  | none => rfl
  | some place =>
    simp only [Function.comp_apply, Option.bind_some, Option.map_some,
      idxOf?_of_mem (hpattern _ hv place rfl)]

section Passes

variable {β : Type} [Scalar β] {l : Arrangement β} {units units' : Array (Component β)}
  {unitIds : List Nat} {range : Span}

/-- A place of a unit's entry lies in the square of the range. -/
theorem placeOf_lt {p : Placement β} {e : Component.Entry β} {place : Nat × Nat}
    (h : placeOf range p e = some place) : place.1 < range.size ∧ place.2 < range.size := by
  simp only [placeOf] at h
  split_ifs at h with hin
  cases h
  obtain ⟨hr, hc⟩ := Bool.and_eq_true_iff.1 hin
  obtain ⟨hr1, hr2⟩ := Span.contains_iff.1 hr
  obtain ⟨hc1, hc2⟩ := Span.contains_iff.1 hc
  simp only [Span.size]
  omega

/-- The ones of independent inputs lie in the square of the range. -/
theorem identityContributions_lt {c : (Nat × Nat) × β}
    (h : c ∈ identityContributions l range) : c.1.1 < range.size ∧ c.1.2 < range.size := by
  obtain ⟨s, hs, rfl⟩ := List.mem_map.1 h
  obtain ⟨h1, h2⟩ := Span.contains_iff.1 (List.mem_filter.1 hs).2
  simp only [Span.size]
  omega

/-- What a unit adds, read off its entries. -/
theorem unitContributions_eq (l : Arrangement β) (range : Span) (units : Array (Component β))
    (u : Nat) : unitContributions l range units u = units[u]?.elim [] fun c =>
      c.entries.filterMap fun e => (placeOf range (l.unit u) e).map fun place =>
        (place, e.value * (slotOf (l.unit u) e.column).2) := by
  unfold unitContributions unitVisits
  cases units[u]? with
  | none => rfl
  | some c =>
    rw [List.filterMap_map]
    rfl

/-- Every contribution lies in the square of the range. -/
theorem contributions_lt {c : (Nat × Nat) × β} (h : c ∈ contributions l units unitIds range) :
    c.1.1 < range.size ∧ c.1.2 < range.size := by
  rcases List.mem_append.1 h with h | h
  · exact identityContributions_lt h
  · obtain ⟨u, -, hu⟩ := List.mem_flatMap.1 h
    rw [unitContributions_eq] at hu
    cases hc : units[u]? with
    | none => simp [hc] at hu
    | some comp =>
      simp only [hc, Option.elim_some, List.mem_filterMap, Option.map_eq_some_iff] at hu
      obtain ⟨e, -, place, hplace, rfl⟩ := hu
      exact placeOf_lt hplace

/-! ### Passes over the units -/

/-- Where an entry of a unit at a place contributes. -/
def spot (range : Span) (p : Placement β) (q : Nat × Column) : Option (Nat × Nat) :=
  placeOf range p ⟨q.1, q.2, 0⟩

/-- The places that a pass over a unit visits depend on its declarations and routes alone. -/
theorem map_fst_unitVisits (range : Span) (u : Nat) :
    (unitVisits l range units u).map Prod.fst = units[u]?.elim [] fun c =>
      (c.entries.map Component.Entry.place).map (spot range (l.unit u)) := by
  unfold unitVisits
  cases units[u]? with
  | none => rfl
  | some c =>
    simp only [List.map_map, Option.elim_some]
    rfl

/-- **A pass over the same units with other derivatives visits the same places in the same
order.** -/
theorem map_fst_visits (h : Component.AllAlike units units') (unitIds : List Nat) (range : Span) :
    (visits l units' unitIds range).map Prod.fst =
      (visits l units unitIds range).map Prod.fst := by
  rw [visits, visits, List.map_flatMap, List.map_flatMap]
  refine List.flatMap_congr fun u _ => ?_
  rw [map_fst_unitVisits, map_fst_unitVisits]
  by_cases hu : u < units.size
  · have hu' : u < units'.size := by
      rw [h.size]
      exact hu
    have hc := Array.getElem?_eq_getElem hu
    have hc' := Array.getElem?_eq_getElem hu'
    rw [hc, hc']
    simp only [Option.elim_some, (h.alike u _ _ hc hc').places]
  · have hu' : ¬ u < units'.size := by
      rw [h.size]
      exact hu
    rw [Array.getElem?_eq_none (by omega), Array.getElem?_eq_none (by omega)]

/-- The contributions are the ones and what a pass visits inside the range. -/
theorem contributions_eq (l : Arrangement β) (units : Array (Component β)) (unitIds : List Nat)
    (range : Span) : contributions l units unitIds range = identityContributions l range ++
      (visits l units unitIds range).filterMap fun v => v.1.map fun place => (place, v.2) := by
  rw [contributions, visits, List.filterMap_flatMap]
  rfl

/-- The places of contributions are the diagonal of independent slots and the places visited. -/
theorem map_fst_contributions (l : Arrangement β) (units : Array (Component β))
    (unitIds : List Nat) (range : Span) :
    (contributions l units unitIds range).map Prod.fst =
      (identityContributions l range).map Prod.fst ++
        ((visits l units unitIds range).map Prod.fst).filterMap id := by
  rw [contributions_eq, List.map_append, List.map_filterMap, List.filterMap_map]
  refine congrArg _ (List.filterMap_congr fun v _ => ?_)
  rw [Option.map_map]
  exact Option.map_id'

end Passes

/-! ### Values -/

@[simp] theorem size_valuesOf (pattern : List (Nat × Nat)) (cs : List ((Nat × Nat) × α)) :
    (valuesOf pattern cs).size = pattern.length := by
  simp [valuesOf]

/-- Contributions with places in the pattern are summed up by its values. -/
theorem sum_valuesOf {pattern : List (Nat × Nat)} {cs : List ((Nat × Nat) × α)}
    (h : ∀ c ∈ cs, c.1 ∈ pattern) (w : Nat × Nat → α) :
    ((List.zipWith (fun p v => (p.1, p.2, v)) pattern (valuesOf pattern cs).toList).map
        fun e => e.2.2 * w (e.1, e.2.1)).sum = (cs.map fun c => c.2 * w c.1).sum := by
  have hzip : (List.zipWith (fun p v => (p.1, p.2, v)) pattern (valuesOf pattern cs).toList).map
      (fun e => e.2.2 * w (e.1, e.2.1)) =
      (pattern.zip (valuesOf pattern cs).toList).map fun q => q.2 * w q.1 := by
    rw [List.zip, List.map_zipWith, List.map_zipWith]
  rw [hzip, sum_zip pattern (valuesOf pattern cs) (by simp) fun p v => v * w p]
  have hterm : ∀ k ∈ Finset.range pattern.length,
      ((pattern[k]?).elim 0 fun p => entry (valuesOf pattern cs) k * w p) =
        w (pattern.getD k (0, 0)) * entry (valuesOf pattern cs) k := by
    intro k hk
    have hk' : k < pattern.length := Finset.mem_range.1 hk
    rw [List.getElem?_eq_getElem hk', Option.elim_some, List.getD_eq_getElem _ _ hk', mul_comm]
  rw [Finset.sum_congr rfl hterm, valuesOf,
    sum_mul_scatter pattern.length fun k => w (pattern.getD k (0, 0)), List.map_map]
  refine congrArg List.sum (List.map_congr_left fun c hc => ?_)
  have hidx : pattern.idxOf c.1 < pattern.length := List.idxOf_lt_length_iff.2 (h c hc)
  simp only [Function.comp_apply]
  rw [if_pos hidx, List.getD_eq_getElem _ _ hidx, List.getElem_idxOf, mul_comm]

section MatrixOf

variable {n : Nat} {cs : List ((Nat × Nat) × α)}

/-- Its entries are weighted like the contributions, where these lie in the square. -/
theorem sum_matrixOf (hcs : ∀ c ∈ cs, c.1.1 < n ∧ c.1.2 < n) (w : Nat × Nat → α) :
    ((matrixOf n cs).entries.map fun e => e.2.2 * w (e.1, e.2.1)).sum =
      (cs.map fun c => c.2 * w c.1).sum :=
  sum_valuesOf (fun c hc =>
    mem_patternOf.2 ⟨(hcs c hc).1, (hcs c hc).2, List.mem_map.2 ⟨c, hc, rfl⟩⟩) w

/-- Its entries lie in the square. -/
theorem entries_matrixOf_lt {e : Nat × Nat × α} (h : e ∈ (matrixOf n cs).entries) :
    e.1 < n ∧ e.2.1 < n := by
  simp only [matrixOf, List.mem_iff_getElem, List.getElem_zipWith] at h
  obtain ⟨k, hk, rfl⟩ := h
  rw [List.length_zipWith] at hk
  have hlt : k < (patternOf n (cs.map Prod.fst)).length := by omega
  obtain ⟨hr, hc, -⟩ := mem_patternOf.1 (List.getElem_mem hlt)
  exact ⟨hr, hc⟩

open Matrix in
/-- An entry of the matrix is what its row makes of a unit vector. -/
theorem toMatrix_matrixOf (hcs : ∀ c ∈ cs, c.1.1 < n ∧ c.1.2 < n) (i k : Fin n) :
    (matrixOf n cs).toMatrix n i k =
      (cs.map fun c => c.2 * if c.1.1 = (i : Nat) then entry (Vec.unit n k) c.1.2 else 0).sum := by
  have hsum := sum_matrixOf hcs
    fun place => if place.1 = (i : Nat) ∧ place.2 = (k : Nat) then 1 else 0
  simp only [mul_ite, mul_one, mul_zero] at hsum
  refine hsum.trans (congrArg List.sum (List.map_congr_left fun c hc => ?_))
  have hlt := (hcs c hc).2
  simp only [entry_unit, hlt, and_true, ← ite_and, mul_ite, mul_one, mul_zero,
    eq_comm (a := (k : Nat))]

end MatrixOf

/-! ### Building and refreshing -/

section Build

variable {β : Type} [Scalar β] {l : Arrangement β} {units units' : Array (Component β)}
  {unitIds : List Nat} {range : Span}

/-- Contributions have their places in the pattern of a built Jacobian. -/
theorem mem_pattern_build {c : (Nat × Nat) × β} (h : c ∈ contributions l units unitIds range) :
    c.1 ∈ (build l units unitIds range).pattern :=
  mem_patternOf.2 ⟨(contributions_lt h).1, (contributions_lt h).2, List.mem_map_of_mem h⟩

/-- **The values of a built Jacobian are the sums of the contributions.** -/
theorem values_build (l : Arrangement β) (units : Array (Component β)) (unitIds : List Nat)
    (range : Span) : (build l units unitIds range).values =
      valuesOf (build l units unitIds range).pattern (contributions l units unitIds range) := by
  have hmem : ∀ c ∈ contributions l units unitIds range,
      c.1 ∈ (build l units unitIds range).pattern := fun _ => mem_pattern_build
  have hones : ((identityContributions l range).filterMap fun c =>
        (build l units unitIds range).pattern.idxOf? c.1).map (fun k => (k, (1 : β))) =
      (identityContributions l range).map
        fun c => ((build l units unitIds range).pattern.idxOf c.1, c.2) := by
    rw [List.map_filterMap, ← List.filterMap_eq_map]
    refine List.filterMap_congr fun c hc => ?_
    rw [idxOf?_of_mem (hmem c (List.mem_append_left _ hc))]
    obtain ⟨s, -, rfl⟩ := List.mem_map.1 hc
    rfl
  have hreplay := replay_recorded
    fun v (hv : v ∈ visits l units unitIds range) place hplace => hmem (place, v.2) (by
      rw [contributions_eq]
      exact List.mem_append_right _ (List.mem_filterMap.2 ⟨v, hv, by rw [hplace]; rfl⟩))
  calc (build l units unitIds range).values
    _ = Vec.scatter (Vec.zeros (build l units unitIds range).pattern.length) _ :=
      congrArg _ (congrArg₂ (· ++ ·) hones hreplay)
    _ = valuesOf (build l units unitIds range).pattern (contributions l units unitIds range) := by
      rw [← List.map_append, ← contributions_eq]
      rfl

/-- So its matrix is theirs. -/
theorem matrix_build (l : Arrangement β) (units : Array (Component β)) (unitIds : List Nat)
    (range : Span) : (build l units unitIds range).matrix =
      matrixOf range.size (contributions l units unitIds range) := by
  rw [matrix, values_build]
  rfl

/-- **Refreshing a Jacobian with other derivatives of the same units is building it anew.** -/
theorem refresh_build (h : Component.AllAlike units units') (unitIds : List Nat)
    (range : Span) :
    (build l units unitIds range).refresh l units' = build l units' unitIds range := by
  have hvisits := @map_fst_visits β _ l _ _ h unitIds range
  have hplaces : (contributions l units' unitIds range).map Prod.fst =
      (contributions l units unitIds range).map Prod.fst := by
    rw [map_fst_contributions, map_fst_contributions, hvisits]
  have hpositions : ∀ pattern : List (Nat × Nat),
      (visits l units' unitIds range).map (fun v => v.1.bind pattern.idxOf?) =
        (visits l units unitIds range).map fun v => v.1.bind pattern.idxOf? := by
    intro pattern
    have hbound := congrArg
      (List.map fun place? : Option (Nat × Nat) => place?.bind pattern.idxOf?) hvisits
    rw [List.map_map, List.map_map] at hbound
    exact hbound
  simp only [build, refresh, hplaces, hpositions]

/-- So the pattern depends on declarations and routes alone. -/
theorem pattern_build (h : Component.AllAlike units units') (unitIds : List Nat) (range : Span) :
    (build l units' unitIds range).pattern = (build l units unitIds range).pattern := by
  rw [← refresh_build h]
  rfl

end Build

section Entries

variable {l : Arrangement α} {units : Array (Component α)} {unitIds : List Nat} {range : Span}

/-- The entries of a built Jacobian are weighted like the contributions. -/
theorem sum_entries (l : Arrangement α) (units : Array (Component α)) (unitIds : List Nat)
    (range : Span) (w : Nat × Nat → α) :
    ((build l units unitIds range).matrix.entries.map fun e => e.2.2 * w (e.1, e.2.1)).sum =
      ((contributions l units unitIds range).map fun c => c.2 * w c.1).sum := by
  rw [matrix_build]
  exact sum_matrixOf (fun _ hc => contributions_lt hc) w

/-- The entries of a built Jacobian lie in the square of its range. -/
theorem entries_lt {e : Nat × Nat × α} (h : e ∈ (build l units unitIds range).matrix.entries) :
    e.1 < range.size ∧ e.2.1 < range.size := by
  rw [matrix_build] at h
  exact entries_matrixOf_lt h

/-- An entry of a built Jacobian is what the contributions of its row make of a unit vector. -/
theorem toMatrix_build (l : Arrangement α) (units : Array (Component α)) (unitIds : List Nat)
    (range : Span) (i k : Fin range.size) :
    (build l units unitIds range).matrix.toMatrix range.size i k =
      ((contributions l units unitIds range).map fun c =>
        c.2 * if c.1.1 = (i : Nat) then entry (Vec.unit range.size k) c.1.2 else 0).sum := by
  rw [matrix_build]
  exact toMatrix_matrixOf (fun _ hc => contributions_lt hc) i k

end Entries

/-! ### Diagonal blocks -/

/-- A diagonal block of a matrix holds, at each place, what the entries at this place add up to. -/
theorem blockOfMatrix_eq (m : SparseMatrix α) (range : Span) :
    Operator.blockOfMatrix m range = (List.range range.size).map fun i =>
      (List.range range.size).map fun j => (m.entries.map fun e => e.2.2 *
        if e.1 = range.start + i ∧ e.2.1 = range.start + j then 1 else 0).sum := by
  unfold Operator.blockOfMatrix
  refine List.map_congr_left fun i hi => List.map_congr_left fun j hj => ?_
  rw [List.mem_range] at hi hj
  have hplace := place_lt hi hj
  rw [entry_scatter _ _ _ (by simpa using hplace), entry_zeros, zero_add, added_filterMap]
  refine congrArg List.sum (List.map_congr_left fun e _ => ?_)
  obtain ⟨r, c, v⟩ := e
  simp only
  by_cases hin : (range.contains r && range.contains c) = true
  · rw [if_pos hin, Option.elim_some]
    obtain ⟨hr, hc⟩ := Bool.and_eq_true_iff.1 hin
    obtain ⟨hr1, hr2⟩ := Span.contains_iff.1 hr
    obtain ⟨hc1, hc2⟩ := Span.contains_iff.1 hc
    have hiff : (r - range.start) * range.size + (c - range.start) = i * range.size + j ↔
        r = range.start + i ∧ c = range.start + j := by
      constructor
      · intro h
        have hlt : c - range.start < range.size := by
          simp only [Span.size]
          omega
        obtain ⟨h1, h2⟩ := place_inj hlt hj h
        omega
      · rintro ⟨rfl, rfl⟩
        simp
    simp only [hiff, mul_ite, mul_one, mul_zero]
  · rw [if_neg hin, Option.elim_none, if_neg, mul_zero]
    rintro ⟨rfl, rfl⟩
    refine hin (Bool.and_eq_true_iff.2 ⟨Span.contains_iff.2 ?_, Span.contains_iff.2 ?_⟩)
    · exact ⟨by omega, by simp only [Span.size] at hi; omega⟩
    · exact ⟨by omega, by simp only [Span.size] at hj; omega⟩

/-- An operator without a matrix that forms the products of one has the diagonal blocks of that
matrix. -/
theorem diagonalBlock_of_apply {op : Operator α} {m : SparseMatrix α} (hnone : op.assembled = none)
    (happly : ∀ x, op.apply .fwd x = .ok (m.product op.dim .fwd x))
    (hlt : ∀ e ∈ m.entries, e.1 < op.dim ∧ e.2.1 < op.dim) (range : Span) :
    op.diagonalBlock range = .ok (Operator.blockOfMatrix m range) := by
  have hprobe : ∀ cols, op.probe range cols =
      .ok (cols.map fun c => slice (m.product op.dim .fwd (unit op.dim c)) range) := by
    intro cols
    induction cols with
    | nil => rfl
    | cons c cols ih =>
      rw [Operator.probe, happly, ih]
      rfl
  rw [Operator.diagonalBlock, hnone]
  simp only [hprobe]
  refine congrArg Except.ok ?_
  rw [blockOfMatrix_eq, Operator.rowsOfColumns]
  refine List.map_congr_left fun i hi => ?_
  rw [List.mem_range] at hi
  rw [List.map_map]
  refine List.ext_getElem (by simp) fun j h1 h2 => ?_
  have hj : j < range.indices.length := by simpa using h1
  have hcol : range.indices[j] = range.start + j := by simp [Span.indices]
  simp only [List.getElem_map, Function.comp_apply, List.getElem_range]
  rw [hcol, entry_slice, if_pos hi]
  by_cases hrow : range.start + i < op.dim
  · rw [SparseMatrix.entry_product_fwd _ hrow]
    refine congrArg List.sum (List.map_congr_left fun e he => ?_)
    have := (hlt e he).2
    simp only [entry_unit, ← ite_and]
    congr 2
    exact propext ⟨fun h => ⟨h.1, h.2.1.symm⟩, fun h => ⟨h.1, h.2.symm, this⟩⟩
  · rw [entry_of_size_le (by simpa using hrow)]
    refine (List.sum_eq_zero fun v hv => ?_).symm
    obtain ⟨e, he, rfl⟩ := List.mem_map.1 hv
    have := (hlt e he).1
    rw [if_neg fun h => by omega, mul_zero]

end Jacobian

/-! ### Chains of entries -/

section Chains

open Matrix

namespace Jacobian

/-- **A chain of entries of a pattern leads from a row to a column.** -/
def Leads (pattern : List (Nat × Nat)) : Nat → Nat → Prop :=
  Relation.ReflTransGen fun r c => (r, c) ∈ pattern

variable {α : Type} [ExactScalar α] {n : Nat} {J : Matrix (Fin n) (Fin n) α}
  {pattern : List (Nat × Nat)}

/-- A matrix has no entries but at the places of a pattern. -/
def Supported (pattern : List (Nat × Nat)) (J : Matrix (Fin n) (Fin n) α) : Prop :=
  ∀ i k, J i k ≠ 0 → ((i : Nat), (k : Nat)) ∈ pattern

/-- **An entry of the inverse is zero unless a chain of entries leads to it.** -/
theorem coeff_inv_eq_zero (hJ : J.det ≠ 0) (hsupport : Supported pattern J) {r c : Nat}
    (h : ¬ Leads pattern r c) : coeff J⁻¹ r c = 0 := by
  classical
  have : Invertible J := Matrix.invertibleOfIsUnitDet J (isUnit_iff_ne_zero.2 hJ)
  -- the places to which chains lead from `r` come last
  let b : Fin n → Nat := fun i => if Leads pattern r i then 1 else 0
  have htriangular : J.BlockTriangular b := by
    intro i k hlt
    by_contra hne
    have hi : Leads pattern r i := by
      by_contra hi
      simp [b, hi] at hlt
    have hk : Leads pattern r k := hi.tail (hsupport i k hne)
    simp [b, hi, hk] at hlt
  unfold coeff
  split_ifs with hin
  · refine Matrix.blockTriangular_inv_of_blockTriangular htriangular ?_
    show (if Leads pattern r c then 1 else 0) < if Leads pattern r r then 1 else 0
    rw [if_neg h, if_pos .refl]
    exact Nat.one_pos
  · rfl

/-- The places of the pattern of a Jacobian lie in the square of its range. -/
def Fits {β : Type} (j : Jacobian β) : Prop :=
  ∀ e ∈ j.pattern, e.1 < j.range.size ∧ e.2 < j.range.size

/-- Values at the places of a pattern are the entries of a matrix that has no others. -/
theorem supported_toMatrix (pattern : List (Nat × Nat)) (values : List α) (n : Nat) :
    Supported pattern (SparseMatrix.toMatrix ⟨List.zipWith (fun p v => (p.1, p.2, v)) pattern values⟩ n) := by
  intro i k hne
  by_contra hout
  refine hne (List.sum_eq_zero fun v hv => ?_)
  obtain ⟨e, he, rfl⟩ := List.mem_map.1 hv
  obtain ⟨l, hl, rfl⟩ := List.mem_iff_getElem.1 he
  refine if_neg fun hplace => hout ?_
  rw [List.length_zipWith] at hl
  rw [← hplace.1, ← hplace.2, List.getElem_zipWith]
  exact List.getElem_mem (by omega)

end Jacobian

end Chains

end Mdao
