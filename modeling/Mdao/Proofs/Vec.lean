import Mdao.Proofs.Exact
import Mdao.Proofs.Span

/-!
# Entries of vectors

Each operation on vectors is described by the entries of its result (`entry_slice`, `entry_splice`,
`entry_scatter`), and two vectors of one length are equal when all their entries are (`ext_entry`).
What a scatter adds at an index is `added`, a sum over the contributions, so that linear algebra on
vectors becomes algebra of finite sums.
-/

namespace Mdao.Vec

section Entries

variable {α : Type} [Zero α]

theorem entry_eq_getElem {x : Array α} {i : Nat} (h : i < x.size) : entry x i = x[i] := by
  simp [entry, h]

theorem entry_of_size_le {x : Array α} {i : Nat} (h : x.size ≤ i) : entry x i = 0 := by
  simp [entry, h]

/-- Vectors of one length with the same entries are equal. -/
theorem ext_entry {x y : Array α} (hs : x.size = y.size)
    (h : ∀ i, i < x.size → entry x i = entry y i) : x = y := by
  refine Array.ext hs fun i hx hy => ?_
  rw [← entry_eq_getElem hx, ← entry_eq_getElem hy]
  exact h i hx

@[simp] theorem entry_zeros (n i : Nat) : entry (zeros n : Array α) i = 0 := by
  by_cases h : i < n
  · rw [entry_eq_getElem (by simpa using h)]
    simp [zeros]
  · exact entry_of_size_le (by simpa using h)

theorem entry_tabulate (n : Nat) (f : Nat → α) (i : Nat) :
    entry (tabulate n f) i = if i < n then f i else 0 := by
  split_ifs with h
  · rw [entry_eq_getElem (by simpa using h)]
    simp [tabulate]
  · exact entry_of_size_le (by simpa using h)

theorem entry_toArray (xs : List α) (i : Nat) : entry xs.toArray i = xs.getD i 0 := by
  simp [entry, Array.getD_eq_getD_getElem?]

theorem entry_setIfInBounds (x : Array α) (k : Nat) (v : α) (i : Nat) :
    entry (x.setIfInBounds k v) i = if k = i ∧ i < x.size then v else entry x i := by
  by_cases hi : i < x.size
  · rw [entry_eq_getElem (by simpa using hi), entry_eq_getElem hi, Array.getElem_setIfInBounds hi]
    simp [hi]
  · rw [entry_of_size_le (by simpa using hi), entry_of_size_le (by omega), if_neg (by omega)]

@[simp] theorem size_unit [One α] (n i : Nat) : (unit n i : Array α).size = n := by
  simp [unit]

theorem entry_unit [One α] (n k i : Nat) :
    entry (unit n k : Array α) i = if k = i ∧ i < n then 1 else 0 := by
  rw [unit, entry_setIfInBounds, entry_zeros, size_zeros]

theorem entry_slice (x : Array α) (s : Span) (i : Nat) :
    entry (slice x s) i = if i < s.size then entry x (s.start + i) else 0 := by
  split_ifs with h
  · rw [entry_eq_getElem (by simpa using h)]
    simp [slice, Span.indices]
  · exact entry_of_size_le (by simpa using h)

theorem entry_splice (x : Array α) (s : Span) (y : Array α) (i : Nat) :
    entry (splice x s y) i =
      if i ∈ s ∧ i - s.start < y.size ∧ i < x.size then entry y (i - s.start) else entry x i := by
  by_cases hi : i < x.size
  · rw [entry_eq_getElem (by simpa using hi), entry_eq_getElem hi]
    by_cases hs : i ∈ s
    · by_cases hy : i - s.start < y.size
      · simp [splice, Span.contains_iff.2 hs, hs, hy, hi, entry_eq_getElem hy]
      · simp [splice, Span.contains_iff.2 hs, hy]
    · simp [splice, mt Span.contains_iff.1 hs, hs]
  · rw [entry_of_size_le (by simpa using hi), if_neg fun h => hi h.2.2,
      entry_of_size_le (by omega)]

theorem entry_zipWith {β : Type} [Zero β] (f : α → α → β) (x y : Array α) (i : Nat)
    (hx : i < x.size) (hy : i < y.size) :
    entry (Array.zipWith f x y) i = f (entry x i) (entry y i) := by
  rw [entry_eq_getElem (by simp [hx, hy]), entry_eq_getElem hx, entry_eq_getElem hy]
  simp

omit [Zero α] in
/-- A vector of the right length is laid over whole. -/
theorem overlay_of_size {x y : Array α} (h : y.size = x.size) : overlay x y = y := by
  refine Array.ext (by simpa using h.symm) fun i hx hy => ?_
  simp [overlay, hy]

/-- The entries of a matrix, row by row. -/
def rowMajor (nrows ncols : Nat) (m : Nat → Nat → α) : Array α :=
  tabulate (nrows * ncols) fun i => m (i / ncols) (i % ncols)

omit [Zero α] in
@[simp] theorem size_rowMajor (nrows ncols : Nat) (m : Nat → Nat → α) :
    (rowMajor nrows ncols m).size = nrows * ncols := size_tabulate _ _

/-- The index of a place in a matrix given row by row. -/
theorem place_lt {nrows ncols i j : Nat} (hi : i < nrows) (hj : j < ncols) :
    i * ncols + j < nrows * ncols := by
  calc i * ncols + j < i * ncols + ncols := by omega
    _ = (i + 1) * ncols := by ring
    _ ≤ nrows * ncols := Nat.mul_le_mul_right _ hi

/-- Different places have different indices. -/
theorem place_inj {ncols i j i' j' : Nat} (hj : j < ncols) (hj' : j' < ncols)
    (h : i * ncols + j = i' * ncols + j') : i = i' ∧ j = j' := by
  have hrow : ∀ a b : Nat, b < ncols → (a * ncols + b) / ncols = a := by
    intro a b hb
    rw [Nat.add_comm, Nat.add_mul_div_right _ _ (by omega), Nat.div_eq_of_lt hb, Nat.zero_add]
  have hii : i = i' := by rw [← hrow i j hj, h, hrow i' j' hj']
  subst hii
  exact ⟨rfl, by omega⟩

theorem entry_rowMajor {nrows ncols i j : Nat} (m : Nat → Nat → α) (hi : i < nrows)
    (hj : j < ncols) : entry (rowMajor nrows ncols m) (i * ncols + j) = m i j := by
  rw [rowMajor, entry_tabulate, if_pos (place_lt hi hj), Nat.add_comm,
    Nat.add_mul_div_right _ _ (by omega), Nat.div_eq_of_lt hj, Nat.zero_add,
    Nat.add_mul_mod_self_right, Nat.mod_eq_of_lt hj]

/-- A vector with the entries of a matrix, row by row. -/
theorem eq_rowMajor {nrows ncols : Nat} {m : Nat → Nat → α} {x : Array α}
    (hs : x.size = nrows * ncols)
    (h : ∀ i < nrows, ∀ j < ncols, entry x (i * ncols + j) = m i j) :
    x = rowMajor nrows ncols m := by
  refine ext_entry (by simpa using hs) fun p hp => ?_
  have hpos : 0 < ncols := Nat.pos_of_ne_zero fun h0 => by simp [hs, h0] at hp
  have hi : p / ncols < nrows := by
    rw [Nat.div_lt_iff_lt_mul hpos, ← hs]
    exact hp
  rw [← Nat.div_add_mod' p ncols, h _ hi _ (Nat.mod_lt _ hpos),
    entry_rowMajor m hi (Nat.mod_lt _ hpos)]

/-- Matrices with the same entries are the same row by row, and only these are. -/
theorem rowMajor_eq_iff {nrows ncols : Nat} {m m' : Nat → Nat → α} :
    rowMajor nrows ncols m = rowMajor nrows ncols m' ↔
      ∀ i < nrows, ∀ j < ncols, m i j = m' i j := by
  refine ⟨fun h i hi j hj => ?_, fun h => eq_rowMajor (by simp) fun i hi j hj => ?_⟩
  · rw [← entry_rowMajor m hi hj, h, entry_rowMajor m' hi hj]
  · rw [entry_rowMajor m hi hj, h i hi j hj]

theorem flatMap_range_eq (nrows ncols : Nat) (m : Nat → Nat → α) :
    ((List.range nrows).flatMap fun i => (List.range ncols).map (m i)).toArray =
      rowMajor nrows ncols m := by
  have hlen : ∀ n, ((List.range n).flatMap fun i => (List.range ncols).map (m i)).length =
      n * ncols := by
    intro n
    simp [List.length_flatMap]
  refine eq_rowMajor (by simp) fun i hi j hj => ?_
  rw [entry_toArray]
  induction nrows with
  | zero => omega
  | succ n ih =>
    rw [List.range_succ, List.flatMap_append]
    by_cases hin : i < n
    · rw [List.getD_append _ _ _ _ (by rw [hlen]; exact place_lt hin hj), ih hin]
    · obtain rfl : i = n := by omega
      rw [List.getD_append_right _ _ _ _ (by rw [hlen]; omega), hlen, Nat.add_sub_cancel_left]
      simp [hj]

/-- Writing entries of a matrix at their places changes these and no others. -/
theorem entry_foldl_write {ncols : Nat} (m : Nat → Nat → α) (es : List (Nat × Nat))
    (hes : ∀ e ∈ es, e.2 < ncols) (x : Array α) {i j : Nat} (hj : j < ncols)
    (hx : i * ncols + j < x.size) :
    entry (es.foldl (fun x e => x.setIfInBounds (e.1 * ncols + e.2) (m e.1 e.2)) x)
        (i * ncols + j) =
      if (i, j) ∈ es then m i j else entry x (i * ncols + j) := by
  induction es generalizing x with
  | nil => simp
  | cons e es ih =>
    have he := hes e (by simp)
    rw [List.foldl_cons, ih (fun e he => hes e (by simp [he])) _ (by simpa using hx),
      entry_setIfInBounds]
    by_cases hmem : (i, j) ∈ es
    · simp [hmem]
    · rw [if_neg hmem]
      by_cases hplace : e.1 * ncols + e.2 = i * ncols + j
      · obtain ⟨hi', hj'⟩ := place_inj he hj hplace
        have heq : (i, j) = e := Prod.ext hi'.symm hj'.symm
        rw [if_pos ⟨hplace, hx⟩, if_pos (by simp [heq]), hi', hj']
      · have hne : (i, j) ≠ e := fun h => hplace (by rw [← h])
        rw [if_neg fun h => hplace h.1, if_neg (by simp [hmem, hne])]

omit [Zero α] in
theorem size_foldl_write {ι : Type} (place : ι → Nat) (v : ι → α) (es : List ι) (x : Array α) :
    (es.foldl (fun x e => x.setIfInBounds (place e) (v e)) x).size = x.size := by
  induction es generalizing x with
  | nil => rfl
  | cons e es ih => rw [List.foldl_cons, ih, Array.size_setIfInBounds]

/-! ### Slices of vectors that are written to -/

/-- What has been written to a run is read from it. -/
theorem slice_splice_self {x y : Array α} {s : Span} (hsize : y.size = s.size)
    (hstop : s.stop ≤ x.size) : slice (splice x s y) s = y := by
  refine ext_entry (by simpa using hsize.symm) fun i hi => ?_
  have hlt : i < s.size := by simpa using hi
  have hspan : s.size = s.stop - s.start := rfl
  have hmem : s.start + i ∈ s := ⟨Nat.le_add_right _ _, by omega⟩
  rw [entry_slice, if_pos hlt, entry_splice, if_pos ⟨hmem, by omega, by omega⟩,
    Nat.add_sub_cancel_left]

/-- What is written elsewhere does not change an entry. -/
theorem entry_splice_of_notMem {x y : Array α} {s : Span} {k : Nat} (hk : k ∉ s) :
    entry (splice x s y) k = entry x k := by
  rw [entry_splice, if_neg fun h => hk h.1]

/-- Slices are equal where the entries are. -/
theorem slice_congr {x y : Array α} {r : Span} (h : ∀ k ∈ r, entry x k = entry y k) :
    slice x r = slice y r := by
  unfold slice
  exact congrArg List.toArray (List.map_congr_left fun k hk => h k (Span.mem_indices.1 hk))

/-- A run of a slice is a run of the whole. -/
theorem slice_slice {x : Array α} {s r : Span} (h : r.stop ≤ s.size) :
    slice (slice x s) r = slice x ⟨r.start + s.start, r.stop + s.start⟩ := by
  have hsize : r.size = r.stop - r.start := rfl
  have hmoved : (⟨r.start + s.start, r.stop + s.start⟩ : Span).size = r.size :=
    Nat.add_sub_add_right _ _ _
  refine ext_entry (by rw [size_slice, size_slice, hmoved]) fun i hi => ?_
  have hlt : i < r.size := by simpa using hi
  have hindex : s.start + (r.start + i) = r.start + s.start + i := by omega
  rw [entry_slice, if_pos hlt, entry_slice, if_pos (by omega), entry_slice,
    if_pos (hmoved ▸ hlt), hindex]

/-- A run that is written over with its own entries. -/
theorem splice_slice_self (x : Array α) (s : Span) : splice x s (slice x s) = x := by
  refine ext_entry (size_splice _ _ _) fun i _ => ?_
  rw [entry_splice]
  split_ifs with h
  · obtain ⟨hi, -, -⟩ := h
    rw [entry_slice, if_pos (Span.sub_start_lt hi), Span.start_add_sub hi]
  · rfl

/-! ### Slices of vectors that are put together -/

theorem entry_append (x y : Array α) (i : Nat) :
    entry (x ++ y) i = if i < x.size then entry x i else entry y (i - x.size) := by
  simp only [entry, Array.getD_eq_getD_getElem?, Array.getElem?_append]
  split_ifs <;> rfl

/-- A run inside the first part. -/
theorem slice_append_left {x : Array α} (y : Array α) {s : Span} (h : s.stop ≤ x.size) :
    slice (x ++ y) s = slice x s :=
  slice_congr fun k hk => by rw [entry_append, if_pos (hk.2.trans_le h)]

/-- The second part is the run behind the first. -/
theorem slice_append_right (x y : Array α) : slice (x ++ y) ⟨x.size, x.size + y.size⟩ = y := by
  have hsize : (⟨x.size, x.size + y.size⟩ : Span).size = y.size := Nat.add_sub_cancel_left _ _
  refine ext_entry (by rw [size_slice, hsize]) fun i hi => ?_
  have hlt : i < y.size := by simpa [hsize] using hi
  rw [entry_slice, if_pos (hsize.symm ▸ hlt), entry_append, if_neg (by dsimp only; omega),
    Nat.add_sub_cancel_left]

/-- Two runs one after the other are one. -/
theorem slice_append_slice (x : Array α) {a b c : Nat} (hab : a ≤ b) (hbc : b ≤ c) :
    slice x ⟨a, b⟩ ++ slice x ⟨b, c⟩ = slice x ⟨a, c⟩ := by
  have hindices : (⟨a, b⟩ : Span).indices ++ (⟨b, c⟩ : Span).indices = (⟨a, c⟩ : Span).indices := by
    have hb : b = a + (b - a) := by omega
    have hc : c - a = (b - a) + (c - b) := by omega
    simp only [Span.indices, Span.size]
    rw [hc, ← List.range'_append_1, ← hb]
  rw [slice, slice, slice, ← hindices, List.map_append, List.append_toArray]

/-- The whole vector is a run. -/
theorem slice_upTo_size (x : Array α) : slice x ⟨0, x.size⟩ = x := by
  refine ext_entry (size_slice _ _) fun i hi => ?_
  have hlt : i < (⟨0, x.size⟩ : Span).size := by simpa using hi
  rw [entry_slice, if_pos hlt, Nat.zero_add]

end Entries

section Sums

variable {α : Type} [ExactScalar α]

@[simp] theorem size_sub {x y : Array α} (h : x.size = y.size) : (sub x y).size = y.size := by
  simp [sub, h]

/-- The entries of a difference. -/
theorem entry_sub {x y : Array α} (h : x.size = y.size) (i : Nat) :
    entry (sub x y) i = entry x i - entry y i := by
  by_cases hi : i < y.size
  · exact entry_zipWith _ _ _ _ (h ▸ hi) hi
  · rw [entry_of_size_le (by rw [size_sub h]; omega), entry_of_size_le (x := x) (by omega),
      entry_of_size_le (x := y) (by omega), sub_zero]

/-- The entries of a multiple. -/
theorem entry_map_mul (x : Array α) (f : α) (i : Nat) :
    entry (x.map (· * f)) i = entry x i * f := by
  by_cases hi : i < x.size
  · rw [entry_eq_getElem (by simpa using hi), entry_eq_getElem hi, Array.getElem_map]
  · rw [entry_of_size_le (by simpa using hi), entry_of_size_le (by omega), zero_mul]

/-- What contributions add at an index. -/
def added (cs : List (Nat × α)) (i : Nat) : α := (cs.map fun c => if c.1 = i then c.2 else 0).sum

@[simp] theorem added_nil (i : Nat) : added ([] : List (Nat × α)) i = 0 := rfl

theorem added_cons (c : Nat × α) (cs : List (Nat × α)) (i : Nat) :
    added (c :: cs) i = (if c.1 = i then c.2 else 0) + added cs i := rfl

theorem entry_modify_add (x : Array α) (k : Nat) (v : α) (i : Nat) (hi : i < x.size) :
    entry (x.modify k (· + v)) i = entry x i + if k = i then v else 0 := by
  rw [entry_eq_getElem (by simpa using hi), entry_eq_getElem hi, Array.getElem_modify]
  split_ifs <;> simp

/-- **The entries of a scatter**: the old entry and what is added at its index. -/
theorem entry_scatter (x : Array α) (cs : List (Nat × α)) (i : Nat) (hi : i < x.size) :
    entry (scatter x cs) i = entry x i + added cs i := by
  induction cs generalizing x with
  | nil => simp [scatter]
  | cons c cs ih =>
    have hstep : scatter x (c :: cs) = scatter (x.modify c.1 (· + c.2)) cs := rfl
    rw [hstep, ih _ (by simpa using hi), entry_modify_add x c.1 c.2 i hi, added_cons, add_assoc]

/-- Sums over the first numbers, as lists and as finite sets. -/
theorem sum_map_range (n : Nat) (f : Nat → α) :
    ((List.range n).map f).sum = ∑ k ∈ Finset.range n, f k := rfl

/-- A sum over what is kept of a list. -/
theorem sum_map_filterMap {β γ : Type} (l : List β) (f : β → Option γ) (g : γ → α) :
    ((l.filterMap f).map g).sum = (l.map fun b => (f b).elim 0 g).sum := by
  induction l with
  | nil => rfl
  | cons b l ih =>
    cases hb : f b with
    | none => rw [List.filterMap_cons_none hb, ih, List.map_cons, List.sum_cons, hb,
        Option.elim_none, zero_add]
    | some c => rw [List.filterMap_cons_some hb, List.map_cons, List.sum_cons, ih, List.map_cons,
        List.sum_cons, hb, Option.elim_some]

theorem sum_map_flatMap {β γ : Type} (l : List β) (f : β → List γ) (g : γ → α) :
    ((l.flatMap f).map g).sum = (l.map fun b => ((f b).map g).sum).sum := by
  induction l with
  | nil => rfl
  | cons b l ih => rw [List.flatMap_cons, List.map_append, List.sum_append, ih, List.map_cons,
      List.sum_cons]

theorem added_filterMap {β : Type} (l : List β) (f : β → Option (Nat × α)) (i : Nat) :
    added (l.filterMap f) i = (l.map fun b => (f b).elim 0 fun c => if c.1 = i then c.2 else 0).sum :=
  sum_map_filterMap l f _

theorem added_map {β : Type} (l : List β) (f : β → Nat × α) (i : Nat) :
    added (l.map f) i = (l.map fun b => if (f b).1 = i then (f b).2 else 0).sum := by
  rw [added, List.map_map]
  rfl

/-- **A weighted sum over a scatter into zeros** is the sum of the weighted contributions. -/
theorem sum_mul_scatter (n : Nat) (w : Nat → α) (cs : List (Nat × α)) :
    ∑ k ∈ Finset.range n, w k * entry (scatter (zeros n) cs) k =
      (cs.map fun c => if c.1 < n then w c.1 * c.2 else 0).sum := by
  have hentry : ∀ k ∈ Finset.range n, w k * entry (scatter (zeros n) cs) k = w k * added cs k := by
    intro k hk
    rw [entry_scatter _ _ _ (by simpa using hk), entry_zeros, zero_add]
  rw [Finset.sum_congr rfl hentry]
  clear hentry
  induction cs with
  | nil => simp
  | cons c cs ih =>
    simp only [added_cons, mul_add, Finset.sum_add_distrib, ih, List.map_cons, List.sum_cons,
      mul_ite, mul_zero, Finset.sum_ite_eq, Finset.mem_range]

/-- A sum over the pairs of a list with the entries of a vector of its length. -/
theorem sum_zip {β : Type} (l : List β) (x : Array α) (hx : x.size = l.length) (g : β → α → α) :
    ((l.zip x.toList).map fun q => g q.1 q.2).sum =
      ∑ k ∈ Finset.range l.length, (l[k]?).elim 0 fun b => g b (entry x k) := by
  rw [← sum_map_range]
  congr 1
  refine List.ext_getElem (by simp [hx]) fun k h1 h2 => ?_
  have hk : k < l.length := by simpa using h2
  have hkx : k < x.size := by omega
  simp [hk, entry_eq_getElem hkx]

/-- What the entries of a vector add when they are put at the indices of a span. -/
theorem added_zip_indices (s : Span) (x : Array α) (hx : x.size = s.size) (i : Nat) :
    added (s.indices.zip x.toList) i = if i ∈ s then entry x (i - s.start) else 0 := by
  have hsum := sum_zip s.indices x (by simpa using hx) fun b v => if b = i then v else 0
  rw [added, hsum, Span.length_indices]
  have hterm : ∀ k ∈ Finset.range s.size,
      ((s.indices[k]?).elim 0 fun b => if b = i then entry x k else 0) =
        if i - s.start = k ∧ i ∈ s then entry x k else 0 := by
    intro k hk
    have hk' : k < s.size := Finset.mem_range.1 hk
    have hlen : k < s.indices.length := by simpa using hk'
    rw [List.getElem?_eq_getElem hlen, Option.elim_some]
    have hval : s.indices[k] = s.start + k := by simp [Span.indices]
    rw [hval]
    have hsize : s.size = s.stop - s.start := rfl
    have hiff : s.start + k = i ↔ i - s.start = k ∧ i ∈ s := by
      constructor
      · intro h
        exact ⟨by omega, show s.start ≤ i ∧ i < s.stop by omega⟩
      · rintro ⟨h, hi, -⟩
        omega
    simp only [hiff]
  rw [Finset.sum_congr rfl hterm]
  split_ifs with hi
  · have hmem : i - s.start ∈ Finset.range s.size := by
      obtain ⟨h1, h2⟩ := hi
      rw [Finset.mem_range, Span.size]
      omega
    simp only [hi, and_true, Finset.sum_ite_eq, hmem, if_true]
  · simp [hi]

end Sums

section Matrices

open Matrix

variable {α : Type} [Field α] {nrows ncols n : Nat}

/-- The entries of a vector as a function on the first `n` indices. -/
def toFun (n : Nat) (x : Array α) : Fin n → α := fun i => entry x i

/-- A vector from a function on its indices. -/
def ofFun (f : Fin n → α) : Array α := Array.ofFn f

omit [Field α] in
@[simp] theorem size_ofFun (f : Fin n → α) : (ofFun f).size = n := Array.size_ofFn

@[simp] theorem toFun_zeros (n k : Nat) : toFun n (zeros k : Array α) = 0 := by
  funext i
  simp [toFun]

theorem entry_ofFn (f : Fin n → α) {i : Nat} (hi : i < n) :
    entry (Array.ofFn f) i = f ⟨i, hi⟩ := by
  rw [entry_eq_getElem (by simpa using hi), Array.getElem_ofFn]

@[simp] theorem toFun_ofFun (f : Fin n → α) : toFun n (ofFun f) = f := by
  funext i
  exact entry_ofFn f i.2

theorem eq_ofFun {x : Array α} {f : Fin n → α} (hx : x.size = n) (h : toFun n x = f) :
    x = ofFun f := by
  refine ext_entry (by simpa using hx) fun i hi => ?_
  have hin : i < n := hx ▸ hi
  rw [ofFun, entry_ofFn f hin]
  exact congrFun h ⟨i, hin⟩

/-- The entry of a matrix at a place, zero outside. -/
def coeff (M : Matrix (Fin nrows) (Fin ncols) α) (i j : Nat) : α :=
  if h : i < nrows ∧ j < ncols then M ⟨i, h.1⟩ ⟨j, h.2⟩ else 0

theorem coeff_fin (M : Matrix (Fin nrows) (Fin ncols) α) (i : Fin nrows) (j : Fin ncols) :
    coeff M i j = M i j := dif_pos ⟨i.2, j.2⟩

theorem coeff_transpose (M : Matrix (Fin nrows) (Fin ncols) α) (i j : Nat) :
    coeff Mᵀ i j = coeff M j i := by
  unfold coeff
  simp only [Matrix.transpose_apply, and_comm]

/-- An entry of a product is a sum over a row of the matrix. -/
theorem mulVec_toFun (M : Matrix (Fin n) (Fin n) α) (x : Array α) (i : Fin n) :
    (M *ᵥ toFun n x) i = ∑ k ∈ Finset.range n, coeff M i k * entry x k := by
  rw [Finset.sum_range]
  show ∑ k : Fin n, M i k * entry x k = _
  refine Finset.sum_congr rfl fun k _ => ?_
  rw [coeff_fin]

theorem rowMajor_coeff (M : Matrix (Fin nrows) (Fin ncols) α) :
    rowMajor nrows ncols (coeff M) = Array.ofFn fun i => M i.divNat i.modNat := by
  refine (eq_rowMajor (by simp) fun i hi j hj => ?_).symm
  have hplace := place_lt hi hj
  rw [entry_eq_getElem (by simpa using hplace), Array.getElem_ofFn,
    ← coeff_fin M (Fin.divNat _) (Fin.modNat _)]
  simp only [Fin.coe_divNat, Fin.coe_modNat]
  rw [Nat.add_comm, Nat.add_mul_div_right _ _ (by omega), Nat.div_eq_of_lt hj, Nat.zero_add,
    Nat.add_mul_mod_self_right, Nat.mod_eq_of_lt hj]

end Matrices

end Mdao.Vec
