import Mathlib
import Mdao.Proofs.Linear.Direct
import Mdao.Proofs.Scalar.Order

/-!
# Elimination of nonsingular matrices

The pivot of a stage has the largest magnitude in its column, so it is zero only where the whole
column is (`Factors.pivotIndex_spec`). That cannot be while no vector other than zero has product zero
with every row, and a stage leaves rows of which the same is true (`Factors.Faithful.reduced`). So
without rounding a nonsingular matrix has a pivot in every stage, and its factors count as singular
for one reason only: that one, measured against the largest entry, counts as zero
(`Factors.isSingular_iff`).
-/

namespace Mdao

open Vec Matrix

variable {α : Type} [ExactScalar α]

namespace Factors

/-! ### Pivots -/

/-- The search for the largest magnitude starts from the best one so far and ends with that one, or
with the magnitude of an entry. -/
theorem largest_spec (best : Nat × α) (i : Nat) (column : List α) :
    best.2 ≤ (largest best i column).2 ∧ (∀ x ∈ column, |x| ≤ (largest best i column).2) ∧
      (largest best i column = best ∨
        ∃ k x, column[k]? = some x ∧ largest best i column = (i + k, |x|)) := by
  induction column generalizing best i with
  | nil => exact ⟨le_rfl, by simp, .inl rfl⟩
  | cons x column ih =>
    have hshift : ∀ {r : Nat × α}, (∃ k y, column[k]? = some y ∧ r = (i + 1 + k, |y|)) →
        ∃ k y, (x :: column)[k]? = some y ∧ r = (i + k, |y|) := by
      rintro r ⟨k, y, hk, rfl⟩
      exact ⟨k + 1, y, hk, by rw [Nat.add_assoc, Nat.add_comm 1 k]⟩
    rw [largest, ExactScalar.abs_eq]
    split_ifs with hless
    · obtain ⟨hbest, hcolumn, hfound⟩ := ih (i, |x|) (i + 1)
      refine ⟨hless.le.trans hbest, List.forall_mem_cons.2 ⟨hbest, hcolumn⟩, .inr ?_⟩
      rcases hfound with hfound | hfound
      · exact ⟨0, x, rfl, hfound⟩
      · exact hshift hfound
    · obtain ⟨hbest, hcolumn, hfound⟩ := ih best (i + 1)
      exact ⟨hbest, List.forall_mem_cons.2 ⟨(not_lt.1 hless).trans hbest, hcolumn⟩,
        hfound.imp_right hshift⟩

/-- The pivot has the largest magnitude in its column, unless the column is zero. -/
theorem pivotIndex_spec (column : List α) : (∀ x ∈ column, x = 0) ∨
    ∃ x, column[pivotIndex column]? = some x ∧ ∀ y ∈ column, |y| ≤ |x| := by
  obtain ⟨-, hcolumn, hfound⟩ := largest_spec (0, (0 : α)) 0 column
  rcases hfound with hfound | ⟨k, x, hk, hfound⟩
  · rw [hfound] at hcolumn
    exact .inl fun x hx => abs_nonpos_iff.1 (hcolumn x hx)
  · rw [hfound] at hcolumn
    refine .inr ⟨x, ?_, hcolumn⟩
    rw [pivotIndex, hfound, Nat.zero_add]
    exact hk

theorem head?_exchange {β : Type} {i : Nat} {l : List β} {x : β} (h : l[i]? = some x) :
    (exchange i l).head? = some x := by
  cases l with
  | nil => simp at h
  | cons y rest =>
    cases i with
    | zero => exact h
    | succ k =>
      have hk : rest[k]? = some x := by simpa using h
      simp only [exchange, hk, List.head?_cons]

/-- Where the pivot of a stage is zero, all leading entries are. -/
theorem headD_eq_zero {rows below : List (List α)} {t : List α}
    (h : exchange (pivotIndex (rows.map fun r => r.headD 0)) rows = (0 :: t) :: below) :
    ∀ r ∈ rows, r.headD 0 = 0 := by
  intro r hr
  have hmem : r.headD 0 ∈ rows.map fun r => r.headD 0 := List.mem_map.2 ⟨r, hr, rfl⟩
  rcases pivotIndex_spec (rows.map fun r => r.headD 0) with hzero | ⟨x, hx, hlargest⟩
  · exact hzero _ hmem
  · rw [List.getElem?_map, Option.map_eq_some_iff] at hx
    obtain ⟨top, htop, rfl⟩ := hx
    have hhead := head?_exchange htop
    rw [h, List.head?_cons] at hhead
    obtain rfl := Option.some.inj hhead
    have hle := hlargest _ hmem
    rw [List.headD_cons, abs_zero] at hle
    exact abs_nonpos_iff.1 hle

theorem swap_of_eliminate {n : Nat} {rows : List (List α)} {s : Stage α} {rest : List (Stage α)}
    (h : eliminate (n + 1) rows = s :: rest) :
    s.swap = pivotIndex (rows.map fun r => r.headD 0) := by
  unfold eliminate at h
  dsimp only at h
  split at h
  · cases h
  · cases h
    rfl

/-! ### Nonsingular rows -/

/-- No vector other than zero has product zero with every row. -/
def Faithful (n : Nat) (rows : List (List α)) : Prop :=
  ∀ x : List α, x.length = n → (∀ r ∈ rows, inner r x = 0) → ∀ v ∈ x, v = 0

theorem inner_replicate_zero (r : List α) (n : Nat) : inner r (List.replicate n 0) = 0 := by
  refine List.sum_eq_zero fun v hv => ?_
  obtain ⟨e, he, rfl⟩ := List.mem_map.1 hv
  rw [List.eq_of_mem_replicate (List.of_mem_zip he).2, mul_zero]

/-- So the first column is not zero. -/
theorem Faithful.exists_headD_ne_zero {n : Nat} {rows : List (List α)}
    (h : Faithful (n + 1) rows) (hsquare : Square (n + 1) rows) : ∃ r ∈ rows, r.headD 0 ≠ 0 := by
  by_contra hzero
  push Not at hzero
  refine one_ne_zero (α := α) (h (1 :: List.replicate n 0) (by simp) (fun r hr => ?_) 1
    List.mem_cons_self)
  obtain ⟨a, t, rfl⟩ := List.exists_cons_of_length_eq_add_one (hsquare.row r hr)
  have ha : a = 0 := hzero _ hr
  rw [inner_cons, ha, zero_mul, inner_replicate_zero, add_zero]

/-- **A stage leaves rows of which the same is true**: a vector with product zero with all of them
is continued by the unknown of the pivot to one with product zero with all rows before. -/
theorem Faithful.reduced {n i : Nat} {rows : List (List α)} {a : α} {t : List α}
    {below : List (α × List α)} (h : Faithful (n + 1) rows) (ha : a ≠ 0)
    (hexchange : exchange i rows = (a :: t) :: below.map fun b => b.1 :: b.2)
    (ht : t.length = n) (htails : ∀ b ∈ below, b.2.length = n) :
    Faithful n (Factors.reduced (t.map (· * (1 / a))) below) := by
  intro x hx hzero v hv
  -- the unknown for which the row of the pivot has product zero
  let y := -inner (t.map (· * (1 / a))) x
  refine h (y :: x) (by rw [List.length_cons, hx]) (fun r hr => ?_) v (List.mem_cons_of_mem _ hv)
  rw [← (perm_exchange i rows).mem_iff, hexchange] at hr
  rcases List.mem_cons.1 hr with rfl | hr
  · rw [inner_cons, show y = -(1 / a * inner t x) from congrArg Neg.neg (inner_map_mul _ _ _)]
    field_simp
    ring
  · obtain ⟨b, hb, rfl⟩ := List.mem_map.1 hr
    have hbelow := hzero _ (List.mem_map.2 ⟨b, hb, rfl⟩)
    rw [inner_subtractScaled (by rw [htails b hb, List.length_map, ht])] at hbelow
    rw [inner_cons]
    linear_combination hbelow

/-- **Every stage finds a pivot.** -/
theorem Faithful.pivot_ne_zero {n : Nat} {rows : List (List α)} (h : Faithful n rows)
    (hsquare : Square n rows) : ∀ s ∈ eliminate n rows, s.pivot ≠ 0 := by
  -- the invariant of the stages: the rows that are left are faithful
  induction n generalizing rows with
  | zero => intro s hs; simp [eliminate] at hs
  | succ n ih =>
    obtain ⟨i, a, t, below, hexchange, ht, -, htails, hrest, heliminate⟩ := eliminate_succ hsquare
    have hi : i = pivotIndex (rows.map fun r => r.headD 0) := swap_of_eliminate heliminate
    have ha : a ≠ 0 := by
      rintro rfl
      obtain ⟨r, hr, hne⟩ := h.exists_headD_ne_zero hsquare
      exact hne (headD_eq_zero (hi ▸ hexchange) r hr)
    rw [heliminate]
    exact List.forall_mem_cons.2 ⟨ha, ih (h.reduced ha hexchange ht htails) hrest⟩

/-! ### Factors of a nonsingular matrix -/

variable {n : Nat} {M : Matrix (Fin n) (Fin n) α}

/-- The rows of a nonsingular matrix. -/
theorem faithful_rowsOf (hM : M.det ≠ 0) : Faithful n (rowsOf M) := by
  intro x hx hzero v hv
  have hproduct : M *ᵥ toFun n x.toArray = 0 := funext fun i =>
    (inner_ofFn i hx).symm.trans (hzero _ (List.mem_ofFn.2 ⟨i, rfl⟩))
  have hvector := Matrix.eq_zero_of_mulVec_eq_zero hM hproduct
  obtain ⟨k, hk, rfl⟩ := List.mem_iff_getElem.1 hv
  have hentry : entry x.toArray k = 0 := congrFun hvector ⟨k, hx ▸ hk⟩
  rwa [entry_toArray, List.getD_eq_getElem _ _ hk] at hentry

/-- No row and no column of a nonsingular matrix is zero. -/
theorem hasEmptyLine_rowsOf (hM : M.det ≠ 0) : hasEmptyLine n (rowsOf M) = false := by
  refine Bool.or_eq_false_iff.2 ⟨List.any_eq_false.2 fun r hr hzero => ?_,
    List.any_eq_false.2 fun j hj hzero => ?_⟩
  · obtain ⟨i, rfl⟩ := List.mem_ofFn.1 hr
    refine hM (Matrix.det_eq_zero_of_row_eq_zero i fun j => ?_)
    exact beq_iff_eq.1 (List.all_eq_true.1 hzero _ (List.mem_ofFn.2 ⟨j, rfl⟩))
  · have hj := List.mem_range.1 hj
    refine hM (Matrix.det_eq_zero_of_column_eq_zero ⟨j, hj⟩ fun i => ?_)
    have hentry := beq_iff_eq.1 (List.all_eq_true.1 hzero _ (List.mem_ofFn.2 ⟨i, rfl⟩))
    rwa [List.getD_eq_getElem _ _ (by simpa using hj), List.getElem_ofFn] at hentry

/-- The largest of some magnitudes and of one more. -/
theorem foldl_maxNum_spec (m : α) (vs : List α) :
    m ≤ vs.foldl (fun m v => Scalar.maxNum m (Scalar.abs v)) m ∧
      (∀ v ∈ vs, |v| ≤ vs.foldl (fun m v => Scalar.maxNum m (Scalar.abs v)) m) ∧
      (vs.foldl (fun m v => Scalar.maxNum m (Scalar.abs v)) m = m ∨
        ∃ v ∈ vs, vs.foldl (fun m v => Scalar.maxNum m (Scalar.abs v)) m = |v|) := by
  induction vs generalizing m with
  | nil => exact ⟨le_rfl, by simp, .inl rfl⟩
  | cons v vs ih =>
    rw [List.foldl_cons, Scalar.maxNum_eq_max, ExactScalar.abs_eq]
    obtain ⟨hm, hvs, hfound⟩ := ih (max m |v|)
    refine ⟨(le_max_left _ _).trans hm, List.forall_mem_cons.2 ⟨(le_max_right _ _).trans hm, hvs⟩, ?_⟩
    rcases hfound with hfound | ⟨w, hw, hfound⟩
    · rw [hfound]
      exact (max_choice m |v|).imp_right fun h => ⟨v, List.mem_cons_self, h⟩
    · exact .inr ⟨w, List.mem_cons_of_mem _ hw, hfound⟩

/-- **One counts as zero** where some entry, times the rounding errors of the dimension, reaches it. -/
theorem isOverscaled_iff : isOverscaled n (rowsOf M) = true ↔
    ∃ i k, 1 ≤ 64 * (n : α) * Scalar.epsilon * |M i k| := by
  have hliteral : (64.0 : α) = 64 := by
    rw [ExactScalar.ofScientific_eq]
    norm_num
  have hfactor : 0 ≤ 64 * (n : α) * Scalar.epsilon := by
    unfold Scalar.epsilon
    positivity
  obtain ⟨-, hentries, hfound⟩ := foldl_maxNum_spec (0 : α) (rowsOf M).flatten
  rw [isOverscaled, Bool.and_eq_true, decide_eq_true_iff, decide_eq_true_iff, hliteral]
  constructor
  · rintro ⟨-, hle⟩
    rcases hfound with hzero | ⟨v, hv, hlargest⟩
    · rw [magnitude, hzero, mul_zero] at hle
      exact absurd hle (not_le.2 one_pos)
    · obtain ⟨r, hr, hvr⟩ := List.mem_flatten.1 hv
      obtain ⟨i, rfl⟩ := List.mem_ofFn.1 hr
      obtain ⟨k, rfl⟩ := List.mem_ofFn.1 hvr
      rw [magnitude, hlargest] at hle
      exact ⟨i, k, hle⟩
  · rintro ⟨i, k, hle⟩
    refine ⟨i.pos, hle.trans (mul_le_mul_of_nonneg_left (hentries _ ?_) hfactor)⟩
    exact List.mem_flatten.2 ⟨_, List.mem_ofFn.2 ⟨i, rfl⟩, List.mem_ofFn.2 ⟨k, rfl⟩⟩

/-- **The factors of a matrix count as singular where it is, and where one, measured against its
largest entry, counts as zero.** -/
theorem isSingular_iff : (ofRows n (rowsOf M)).isSingular = true ↔
    M.det = 0 ∨ isOverscaled n (rowsOf M) = true := by
  constructor
  · intro h
    by_contra hnot
    push Not at hnot
    obtain ⟨hM, hscale⟩ := hnot
    -- with a pivot in every stage and no empty line only the test of the scale is left
    have hpivot := (faithful_rowsOf hM).pivot_ne_zero (square_rowsOf M)
    rcases Bool.or_eq_true_iff.1 h with hentries | hzero
    · rw [ofRows, hasEmptyLine_rowsOf hM, Bool.false_or] at hentries
      exact hscale hentries
    · obtain ⟨s, hs, hzero⟩ := List.any_eq_true.1 hzero
      exact hpivot s hs (beq_iff_eq.1 hzero)
  · rintro (hM | hscale)
    · by_contra hregular
      exact det_ne_zero_of_regular (Bool.eq_false_iff.2 hregular) hM
    · have hentries : (ofRows n (rowsOf M)).singular = true := by
        rw [ofRows, hscale, Bool.or_true]
      rw [isSingular, hentries, Bool.true_or]

end Factors

end Mdao
