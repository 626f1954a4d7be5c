import Mathlib
import Mdao.Linear.Gmres
import Mdao.Proofs.Linear.Direct
import Mdao.Proofs.Linear.Frames
import Mdao.Proofs.Scalar.Euclidean

/-!
# Cycles of GMRES

The state of a cycle is explained by a frame that is never computed (`Krylov.Explained`): the basis,
turned by the rotations made so far. In this frame the images of the directions have the columns of
the triangular matrix as coordinates, and the residual from which the cycle starts has the targets,
and the remainder along one more vector.

An inner iteration takes a new image apart along the basis (`Krylov.orthogonalize_spec`) and turns
the vector that is left over into the frame (`Krylov.Open.extend`), or ends the cycle where nothing
is left over (`Krylov.Open.close`). The coefficients solve the triangular system row by row
(`Krylov.coefficientsFrom_spec`), except for a last row with diagonal zero. So what the correction
leaves of the residual is the remainder, or together with it the last target, and in both cases a
part of the residual in the frame (`Krylov.Explained.norm_left_over`).
-/

namespace Mdao

open Vec Matrix Frames

variable {α : Type} {n : Nat}

/-! ### Vectors as functions -/

section

variable [ExactScalar α]

theorem toFun_zipWith_sub_mul {w v : Array α} (hw : w.size = n) (hv : v.size = n) (h : α) :
    toFun n (Array.zipWith (fun a b => a - h * b) w v) = toFun n w - h • toFun n v := by
  funext i
  exact entry_zipWith _ _ _ _ (hw.symm ▸ i.2) (hv.symm ▸ i.2)

theorem toFun_zipWith_add_mul {u z : Array α} (hu : u.size = n) (hz : z.size = n) (c : α) :
    toFun n (Array.zipWith (fun a b => a + c * b) u z) = toFun n u + c • toFun n z := by
  funext i
  exact entry_zipWith _ _ _ _ (hu.symm ▸ i.2) (hz.symm ▸ i.2)

theorem toFun_map_div {w : Array α} (hw : w.size = n) (c : α) :
    toFun n (w.map (· / c)) = c⁻¹ • toFun n w := by
  funext i
  have hi : (i : Nat) < w.size := hw.symm ▸ i.2
  show entry _ _ = c⁻¹ * entry _ _
  rw [entry_eq_getElem (by simpa using hi), entry_eq_getElem hi, Array.getElem_map, div_eq_inv_mul]

end

namespace Krylov

/-! ### The basis -/

section

variable [ExactScalar α]

/-- **A vector is taken apart along a frame**: it is the combination with the coefficients that are
found and what is left, and what is left is at a right angle to the frame. -/
theorem orthogonalize_spec {vs : List (Array α)} (hvs : ∀ v ∈ vs, v.size = n)
    (hframe : IsFrame (vs.map (toFun n))) {w : Array α} (hw : w.size = n) :
    (orthogonalize w vs).1.length = vs.length ∧ (orthogonalize w vs).2.size = n ∧
      toFun n w = combine (orthogonalize w vs).1 (vs.map (toFun n)) +
        toFun n (orthogonalize w vs).2 ∧
      ∀ v ∈ vs, toFun n v ⬝ᵥ toFun n (orthogonalize w vs).2 = 0 := by
  induction vs generalizing w with
  | nil => exact ⟨rfl, hw, (zero_add _).symm, by simp⟩
  | cons v vs ih =>
    obtain ⟨hv, hvs⟩ := List.forall_mem_cons.1 hvs
    obtain ⟨hunit, hunits⟩ := List.forall_mem_cons.1 hframe.unit
    obtain ⟨hlater, hapart⟩ := List.pairwise_cons.1 hframe.apart
    -- what is left along the first vector
    have hfirst := toFun_zipWith_sub_mul hw hv (dot v w)
    have hsize : (Array.zipWith (fun a b => a - dot v w * b) w v).size = n := by simp [hw, hv]
    obtain ⟨hlength, hrest, hsum, hangle⟩ := ih hvs ⟨hunits, hapart⟩ hsize
    rw [hfirst] at hsum
    refine ⟨congrArg (· + 1) hlength, hrest, ?_, List.forall_mem_cons.2 ⟨?_, hangle⟩⟩
    · show toFun n w = (dot v w • toFun n v + combine _ _) + _
      rw [add_assoc]
      exact sub_eq_iff_eq_add'.1 hsum
    · -- later vectors of the frame do not bring back a part along the first
      have hprojected : toFun n v ⬝ᵥ (toFun n w - dot v w • toFun n v) = 0 := by
        rw [dotProduct_sub, dotProduct_smul, hunit, dot_eq hv hw, smul_eq_mul, mul_one, sub_self]
      rw [hsum, dotProduct_add, dotProduct_combine hlater, zero_add] at hprojected
      exact hprojected

/-- **Coordinates turned as the vectors are give the same sum.** -/
theorem rotate_spec {rotations : List (α × α)} (hrotations : AreRotations rotations)
    {rest : List α} {vs : List (Fin n → α)} (hrest : rest.length = rotations.length)
    (hvs : vs.length = rotations.length) (carried : α) (q : Fin n → α) :
    (rotate carried rotations rest).1.length = rotations.length ∧
      combine (rotate carried rotations rest).1 (turn q rotations vs).1 +
        (rotate carried rotations rest).2 • (turn q rotations vs).2 =
          carried • q + combine rest vs := by
  induction rotations generalizing carried q rest vs with
  | nil =>
    obtain rfl := List.length_eq_zero_iff.1 hrest
    simp [rotate, turn]
  | cons p rotations ih =>
    obtain ⟨c, s⟩ := p
    cases rest with
    | nil => simp at hrest
    | cons next rest =>
      cases vs with
      | nil => simp at hvs
      | cons v vs =>
        obtain ⟨hcs, hrotations⟩ := List.forall_mem_cons.1 hrotations
        obtain ⟨hlength, hsum⟩ := ih hrotations (Nat.succ.inj hrest) (Nat.succ.inj hvs)
          (-s * carried + c * next) (turnPair c s q v).2
        refine ⟨congrArg (· + 1) hlength, ?_⟩
        simp only [rotate, turn, combine_cons]
        rw [add_assoc, hsum, ← add_assoc, turnPair_sum hcs, add_assoc]

end

/-- The rotation that turns `(a, b)` into a multiple of `(1, 0)`, unless both are zero. -/
theorem rotation_spec [EuclideanScalar α] (a : α) {b : α} (hb : b ≠ 0) :
    (rotation a b).1 * (rotation a b).1 + (rotation a b).2 * (rotation a b).2 = 1 ∧
      -(rotation a b).2 * a + (rotation a b).1 * b = 0 ∧
      (rotation a b).1 * a + (rotation a b).2 * b ≠ 0 := by
  have hpos : 0 < a * a + b * b :=
    add_pos_of_nonneg_of_pos (mul_self_nonneg a) (mul_self_pos.2 hb)
  have hsquare : Scalar.hypot a b * Scalar.hypot a b = a * a + b * b := by
    rw [EuclideanScalar.hypot_eq, EuclideanScalar.sqrt_mul_self _ hpos.le]
  have hne : Scalar.hypot a b ≠ 0 := fun hzero => by
    rw [hzero, zero_mul] at hsquare
    exact hpos.ne hsquare
  have hrotation : rotation a b = (a / Scalar.hypot a b, b / Scalar.hypot a b) := by
    rw [rotation, if_neg fun h => hb (eq_of_beq h)]
  have hdiagonal : a / Scalar.hypot a b * a + b / Scalar.hypot a b * b = Scalar.hypot a b := by
    field_simp
    linear_combination -hsquare
  rw [hrotation]
  refine ⟨?_, ?_, fun hzero => hne (hdiagonal.symm.trans hzero)⟩
  · field_simp
    linear_combination -hsquare
  · field_simp
    ring

/-! ### The coefficients -/

section

variable [ExactScalar α]

/-- Row `i` of a matrix given by its columns. -/
def row (columns : List (List α)) (i : Nat) : List α := columns.map fun col => col.getD i 0

/-- The diagonal entry of a column. -/
def diagonal (columns : List (List α)) (i : Nat) : α := (columns.getD i []).getD i 0

/-- Column `i` has `i + 1` entries. -/
def IsTriangular (columns : List (List α)) : Prop :=
  ∀ i (h : i < columns.length), columns[i].length = i + 1

/-- Where the columns end above a row, the row is empty. -/
theorem inner_row_of_short {columns : List (List α)} {i : Nat}
    (h : ∀ col ∈ columns, col.length ≤ i) (ys : List α) :
    Factors.inner (row columns i) ys = 0 := by
  induction columns generalizing ys with
  | nil => simp [row, Factors.inner]
  | cons col columns ih =>
    obtain ⟨hcol, hcolumns⟩ := List.forall_mem_cons.1 h
    cases ys with
    | nil => simp [Factors.inner]
    | cons y ys =>
      show Factors.inner (col.getD i 0 :: row columns i) (y :: ys) = 0
      rw [Factors.inner_cons, ih hcolumns, List.getD_eq_default _ _ hcol, zero_mul, zero_add]

/-- Row `i` of a triangular matrix begins with the diagonal entry. -/
theorem IsTriangular.inner_row {columns : List (List α)} (h : IsTriangular columns) {ys : List α}
    (hys : ys.length = columns.length) {i : Nat} (hi : i < columns.length) :
    Factors.inner (row columns i) ys = diagonal columns i * ys.getD i 0 +
      Factors.inner (row (columns.drop (i + 1)) i) (ys.drop (i + 1)) := by
  have hinner : ∀ (as bs cs ds : List α), as.length = cs.length →
      Factors.inner (as ++ bs) (cs ++ ds) = Factors.inner as cs + Factors.inner bs ds := by
    intro as bs cs ds hlength
    rw [Factors.inner, List.zip_append hlength, List.map_append, List.sum_append]
    rfl
  have hiys : i < ys.length := hys.symm ▸ hi
  have hcolumns : row columns i =
      row (columns.take i) i ++ diagonal columns i :: row (columns.drop (i + 1)) i := by
    conv_lhs => rw [← List.take_append_drop i columns, List.drop_eq_getElem_cons hi]
    rw [row, List.map_append, List.map_cons, diagonal,
      (List.getElem_eq_getD (h := hi) []).symm]
    rfl
  have hsplit : ys = ys.take i ++ ys.getD i 0 :: ys.drop (i + 1) := by
    conv_lhs => rw [← List.take_append_drop i ys, List.drop_eq_getElem_cons hiys]
    simp [hiys]
  have hshort : ∀ col ∈ columns.take i, col.length ≤ i := fun col hcol => by
    obtain ⟨j, hj, rfl⟩ := List.getElem_of_mem hcol
    rw [List.length_take] at hj
    rw [List.getElem_take, h j (by omega)]
    omega
  conv_lhs => rw [hcolumns, hsplit]
  rw [hinner _ _ _ _ (by simp [row, hys]), Factors.inner_cons, inner_row_of_short hshort, zero_add]

/-- The unknown with number `i`, from those behind it. -/
def coefficient (columns : List (List α)) (targets : List α) (i : Nat) (found : List α) : α :=
  if 0 < Scalar.abs (diagonal columns i) then
    Factors.subtractProducts (targets.getD i 0) (row (columns.drop (i + 1)) i) found /
      diagonal columns i
  else 0

theorem coefficientsFrom_succ (columns : List (List α)) (targets : List α) (i : Nat)
    (found : List α) : coefficientsFrom columns targets (i + 1) found =
      coefficientsFrom columns targets i (coefficient columns targets i found :: found) := rfl

/-- **The coefficients solve the system row by row**, from the last row up to the first; a row whose
diagonal entry is zero is left out and has coefficient zero. -/
theorem coefficientsFrom_spec {columns : List (List α)} (hcolumns : IsTriangular columns)
    (targets : List α) {i : Nat} {found : List α} (h : i + found.length = columns.length) :
    (coefficientsFrom columns targets i found).length = columns.length ∧
      (coefficientsFrom columns targets i found).drop i = found ∧
      ∀ j < i, if diagonal columns j = 0
        then (coefficientsFrom columns targets i found).getD j 0 = 0
        else Factors.inner (row columns j) (coefficientsFrom columns targets i found) =
          targets.getD j 0 := by
  induction i generalizing found with
  | zero => exact ⟨(Nat.zero_add _).symm.trans h, rfl, nofun⟩
  | succ i ih =>
    rw [coefficientsFrom_succ]
    have hnext : i + (coefficient columns targets i found :: found).length = columns.length := by
      rw [List.length_cons]
      omega
    obtain ⟨hlength, hfound, hrows⟩ := ih hnext
    generalize coefficientsFrom columns targets i _ = ys at hlength hfound hrows ⊢
    have hbehind : ys.drop (i + 1) = found := by
      rw [← List.drop_drop, hfound, List.drop_one, List.tail_cons]
    have hget : ys.getD i 0 = coefficient columns targets i found := by
      have := congrArg (fun l => l.getD 0 0) hfound
      simpa [List.getElem?_drop] using this
    refine ⟨hlength, hbehind, fun j hj => ?_⟩
    rcases Nat.lt_succ_iff_lt_or_eq.1 hj with hj | rfl
    · exact hrows j hj
    · rw [hget, hcolumns.inner_row hlength (by omega), hbehind, hget, coefficient,
        ExactScalar.abs_eq, Factors.subtractProducts_eq]
      split_ifs with hdiagonal hpos
      · exact absurd hdiagonal (abs_pos.1 hpos)
      · rfl
      · rw [mul_div_cancel₀ _ hdiagonal, sub_add_cancel]
      · exact absurd (abs_pos.2 hdiagonal) ‹_›

end

/-! ### The correction -/

section

variable [ExactScalar α]

/-- The coefficients of a combination of combinations are the products with the rows. -/
theorem combine_columns {us : List (Fin n → α)} {columns : List (List α)}
    (hcolumns : ∀ col ∈ columns, col.length ≤ us.length) (ys : List α) :
    combine ys (columns.map fun col => combine col us) =
      ∑ i ∈ Finset.range us.length, Factors.inner (row columns i) ys • us.getD i 0 := by
  induction columns generalizing ys with
  | nil => simp [combine, row, Factors.inner]
  | cons col columns ih =>
    obtain ⟨hcol, hcolumns⟩ := List.forall_mem_cons.1 hcolumns
    cases ys with
    | nil => simp [Factors.inner]
    | cons y ys =>
      rw [List.map_cons, combine_cons, ih hcolumns, combine_eq_sum hcol, Finset.smul_sum,
        ← Finset.sum_add_distrib]
      refine Finset.sum_congr rfl fun i _ => ?_
      show _ = Factors.inner (col.getD i 0 :: row columns i) (y :: ys) • us.getD i 0
      rw [Factors.inner_cons, add_smul, smul_smul, mul_comm y]

theorem toFun_foldl_add {zs : List (Array α)} (hzs : ∀ z ∈ zs, z.size = n) (cs : List α)
    {u : Array α} (hu : u.size = n) :
    ((cs.zip zs).foldl (fun u p => Array.zipWith (fun a b => a + p.1 * b) u p.2) u).size = n ∧
      toFun n ((cs.zip zs).foldl (fun u p => Array.zipWith (fun a b => a + p.1 * b) u p.2) u) =
        toFun n u + combine cs (zs.map (toFun n)) := by
  induction zs generalizing cs u with
  | nil => simp [hu, combine]
  | cons z zs ih =>
    obtain ⟨hz, hzs⟩ := List.forall_mem_cons.1 hzs
    cases cs with
    | nil => simp [hu]
    | cons c cs =>
      obtain ⟨hsize, hsum⟩ := ih hzs cs
        (u := Array.zipWith (fun a b => a + c * b) u z) (by simp [hu, hz])
      refine ⟨hsize, hsum.trans ?_⟩
      rw [toFun_zipWith_add_mul hu hz, List.map_cons, combine_cons, add_assoc]

/-- The correction is the combination of the directions with the coefficients. -/
theorem toFun_update {k : Krylov α} (hsizes : ∀ z ∈ k.directions, z.size = n) :
    (k.update n).size = n ∧
      toFun n (k.update n) = combine k.coefficients (k.directions.map (toFun n)) := by
  obtain ⟨hsize, hsum⟩ := toFun_foldl_add hsizes k.coefficients (u := zeros n) (by simp)
  exact ⟨hsize, by rw [update, hsum, toFun_zeros, zero_add]⟩

/-- The last diagonal entry of the triangular matrix. -/
def lastDiagonal (k : Krylov α) : α := diagonal k.columns (k.columns.length - 1)

/-- **The state of a cycle, explained by a frame** and one more vector, of length one or, where
nothing remains, of any length. -/
structure Explained (A : Matrix (Fin n) (Fin n) α) (b : Fin n → α) (k : Krylov α)
    (us : List (Fin n → α)) (q : Fin n → α) : Prop where
  frame : IsFrame us
  apart : ∀ u ∈ us, u ⬝ᵥ q = 0
  unit : q ⬝ᵥ q = 1 ∨ k.remainder = 0
  sizes : ∀ z ∈ k.directions, z.size = n
  /-- The columns are the coordinates of the images of the directions. -/
  images : k.directions.map (fun z => A *ᵥ toFun n z) = k.columns.map fun col => combine col us
  triangular : IsTriangular k.columns
  columns : k.columns.length = us.length
  targets : k.targets.length = us.length
  /-- The targets and the remainder are the coordinates of the residual. -/
  start : b = combine k.targets us + k.remainder • q
  regular : ∀ i, i + 1 < k.columns.length → diagonal k.columns i ≠ 0

variable {A : Matrix (Fin n) (Fin n) α} {b : Fin n → α} {k : Krylov α} {us : List (Fin n → α)}
  {q : Fin n → α}

namespace Explained

/-- **A row of the triangular system is solved, or it is the last one** and left out as a whole. -/
theorem row_coefficients (h : Explained A b k us q) {i : Nat} (hi : i < us.length) :
    Factors.inner (row k.columns i) k.coefficients = k.targets.getD i 0 ∨
      k.lastDiagonal = 0 ∧ Factors.inner (row k.columns i) k.coefficients = 0 := by
  have hall : k.columns.length + ([] : List α).length = k.columns.length := rfl
  obtain ⟨hlength, -, hrows⟩ := coefficientsFrom_spec h.triangular k.targets hall
  have hi : i < k.columns.length := h.columns.symm ▸ hi
  have hrow := hrows i hi
  split_ifs at hrow with hdiagonal
  · have hlast : k.columns.length = i + 1 := by
      by_contra hne
      exact h.regular i (by omega) hdiagonal
    refine .inr ⟨by rw [lastDiagonal, hlast]; exact hdiagonal, ?_⟩
    rw [coefficients, h.triangular.inner_row hlength hi, hdiagonal, zero_mul, zero_add, ← hlast,
      List.drop_length]
    simp [row, Factors.inner]
  · exact .inl hrow

/-- **What the correction leaves** has the coordinates that the coefficients leave of the targets,
and the remainder. -/
theorem left_over (h : Explained A b k us q) {gaps : List α} (hgaps : gaps =
      (List.range us.length).map fun i =>
        k.targets.getD i 0 - Factors.inner (row k.columns i) k.coefficients) :
    b - A *ᵥ toFun n (k.update n) = combine gaps us + k.remainder • q := by
  have hshort : ∀ col ∈ k.columns, col.length ≤ us.length := fun col hcol => by
    obtain ⟨i, hi, rfl⟩ := List.getElem_of_mem hcol
    rw [h.triangular i hi, ← h.columns]
    omega
  have himage : A *ᵥ toFun n (k.update n) =
      ∑ i ∈ Finset.range us.length,
        Factors.inner (row k.columns i) k.coefficients • us.getD i 0 := by
    rw [(toFun_update h.sizes).2, mulVec_combine, List.map_map, ← combine_columns hshort,
      ← h.images]
    rfl
  have hsum : combine gaps us = combine k.targets us - A *ᵥ toFun n (k.update n) := by
    rw [himage, combine_eq_sum h.targets.le, combine_eq_sum (by simp [hgaps]),
      ← Finset.sum_sub_distrib]
    refine Finset.sum_congr rfl fun i hi => ?_
    rw [← sub_smul, hgaps, List.getD_eq_getElem _ _ (by simpa using hi)]
    simp
  rw [hsum, h.start]
  abel

end Explained

end

/-- **A cycle does not make the residual worse, and knows what it leaves**: the norm of what is left
is the remainder, up to sign, unless the last row could not be solved. -/
theorem Explained.norm_left_over [EuclideanScalar α] {A : Matrix (Fin n) (Fin n) α} {k : Krylov α}
    {us : List (Fin n → α)} {q : Fin n → α} {r w : Array α} (hr : r.size = n)
    (h : Explained A (toFun n r) k us q) (hw : w.size = n)
    (himage : toFun n w = A *ᵥ toFun n (k.update n)) :
    (k.lastDiagonal ≠ 0 → |k.remainder| = norm (sub r w)) ∧ norm (sub r w) ≤ norm r := by
  obtain ⟨gaps, hgaps⟩ : ∃ gaps, gaps = (List.range us.length).map fun i =>
    k.targets.getD i 0 - Factors.inner (row k.columns i) k.coefficients := ⟨_, rfl⟩
  have hsize : (sub r w).size = n := (size_sub (hr.trans hw.symm)).trans hw
  have hleft : toFun n (sub r w) = combine gaps us + k.remainder • q := by
    rw [← h.left_over hgaps, ← himage]
    funext i
    exact entry_sub (hr.trans hw.symm) i
  have hgap : ∀ i ∈ Finset.range us.length, gaps.getD i 0 =
      k.targets.getD i 0 - Factors.inner (row k.columns i) k.coefficients := fun i hi => by
    rw [hgaps, List.getD_eq_getElem _ _ (by simpa using hi)]
    simp
  have hlength : gaps.length ≤ us.length := by simp [hgaps]
  have hsquare := h.frame.add_mul_self h.apart hlength k.remainder
  rw [← hleft] at hsquare
  constructor
  · intro hlast
    refine (norm_eq_abs hsize ?_).symm
    rw [hsquare, Finset.sum_eq_zero fun i hi => ?_, zero_add]
    · rcases h.unit with hunit | hzero
      · rw [hunit, mul_one]
      · rw [hzero, zero_mul, zero_mul]
    · rcases h.row_coefficients (Finset.mem_range.1 hi) with hrow | ⟨hzero, -⟩
      · rw [hgap i hi, hrow, sub_self, zero_mul]
      · exact absurd hzero hlast
  · refine norm_le_norm hsize hr ?_
    rw [hsquare, h.start, h.frame.add_mul_self h.apart h.targets.le]
    refine add_le_add_left (Finset.sum_le_sum fun i hi => ?_) _
    rcases h.row_coefficients (Finset.mem_range.1 hi) with hrow | ⟨-, hrow⟩
    · rw [hgap i hi, hrow, sub_self, zero_mul]
      exact mul_self_nonneg _
    · rw [hgap i hi, hrow, sub_zero]

/-! ### Inner iterations -/

section

variable [EuclideanScalar α] {A : Matrix (Fin n) (Fin n) α} {b : Fin n → α} {k : Krylov α}

/-- The basis of a cycle, turned by its rotations. -/
def turned (n : Nat) (k : Krylov α) : List (Fin n → α) × (Fin n → α) :=
  turn (toFun n (k.basis.headD #[])) k.rotations (k.basis.tail.map (toFun n))

/-- A cycle that may go on: its basis is a frame that explains it once it is turned, and every
diagonal entry can be divided by. -/
structure Open (A : Matrix (Fin n) (Fin n) α) (b : Fin n → α) (k : Krylov α) : Prop where
  explained : Explained A b k (k.turned n).1 (k.turned n).2
  unit : (k.turned n).2 ⬝ᵥ (k.turned n).2 = 1
  diagonal : ∀ i < k.columns.length, diagonal k.columns i ≠ 0
  sizes : ∀ v ∈ k.basis, v.size = n
  basis : IsFrame (k.basis.map (toFun n))
  rotations : AreRotations k.rotations
  length : k.basis.length = k.rotations.length + 1

/-- A vector divided by its norm has length one. -/
theorem direction_spec {w : Array α} (hw : w.size = n) (hnorm : norm w ≠ 0) :
    (w.map (· / norm w)).size = n ∧ toFun n w = norm w • toFun n (w.map (· / norm w)) ∧
      toFun n (w.map (· / norm w)) ⬝ᵥ toFun n (w.map (· / norm w)) = 1 := by
  have hv : toFun n (w.map (· / norm w)) = (norm w)⁻¹ • toFun n w := toFun_map_div hw _
  refine ⟨by rw [Array.size_map, hw], ?_, ?_⟩
  · rw [hv, smul_smul, mul_inv_cancel₀ hnorm, one_smul]
  · rw [hv, smul_dotProduct, dotProduct_smul, ← norm_mul_self hw]
    simp only [smul_eq_mul]
    field_simp

/-- A cycle begins with the direction of the residual. -/
theorem open_start (A : Matrix (Fin n) (Fin n) α) {r : Array α} (hr : r.size = n)
    (hnorm : norm r ≠ 0) : Open A (toFun n r) (.start r (norm r)) := by
  obtain ⟨hsize, hdirection, hunit⟩ := direction_spec hr hnorm
  refine ⟨⟨isFrame_nil, nofun, .inl hunit, nofun, rfl, nofun, rfl, rfl, ?_, nofun⟩, hunit, nofun,
    List.forall_mem_singleton.2 hsize,
    ⟨List.forall_mem_singleton.2 hunit, List.pairwise_singleton _ _⟩, nofun, rfl⟩
  exact hdirection.trans (zero_add _).symm

/-- A cycle with one more column: the finished entries, and the last two, which a new rotation
unites. -/
def extended (k : Krylov α) (z : Array α) (done : List α) (last wNorm : α) : Krylov α :=
  { k with
    directions := k.directions ++ [z]
    columns := k.columns ++
      [done ++ [(rotation last wNorm).1 * last + (rotation last wNorm).2 * wNorm]]
    rotations := k.rotations ++ [rotation last wNorm]
    targets := k.targets ++ [k.remainder * (rotation last wNorm).1]
    remainder := -(rotation last wNorm).2 * k.remainder }

/-- The basis of an open cycle: a vector, and one for each rotation. -/
theorem Open.exists_basis (h : Open A b k) : ∃ first rest, k.basis = first :: rest ∧
    rest.length = k.rotations.length ∧
      k.turned n = turn (toFun n first) k.rotations (rest.map (toFun n)) := by
  cases hbasis : k.basis with
  | nil => simpa [hbasis] using h.length
  | cons first rest =>
    exact ⟨first, rest, rfl, by simpa [hbasis] using h.length, by rw [turned, hbasis]; rfl⟩

/-- What is at a right angle to the basis is so to the turned basis. -/
theorem Open.dotProduct_turned (h : Open A b k) {x : Fin n → α}
    (hx : ∀ v ∈ k.basis, x ⬝ᵥ toFun n v = 0) :
    (∀ u ∈ (k.turned n).1, u ⬝ᵥ x = 0) ∧ (k.turned n).2 ⬝ᵥ x = 0 := by
  obtain ⟨first, rest, hbasis, -, hturned⟩ := h.exists_basis
  rw [hbasis] at hx
  obtain ⟨hfirst, hrest⟩ := List.forall_mem_cons.1 hx
  obtain ⟨hus, hq⟩ := dotProduct_turn hfirst (List.forall_mem_map.2 hrest) k.rotations
  rw [← hturned] at hus hq
  exact ⟨fun u hu => (dotProduct_comm _ _).trans (hus u hu), (dotProduct_comm _ _).trans hq⟩

/-- **A new image has coordinates in the turned basis**, but for what is at a right angle to it. -/
theorem Open.image (h : Open A b k) (z : Array α) {w : Array α} (hw : w.size = n) :
    ∃ done last w', k.extend z w = (k.extended z done last (norm w'), w', norm w') ∧
      done.length = k.columns.length ∧ w'.size = n ∧
      toFun n w = combine done (k.turned n).1 + last • (k.turned n).2 + toFun n w' ∧
      ∀ v ∈ k.basis, toFun n w' ⬝ᵥ toFun n v = 0 := by
  obtain ⟨first, rest, hbasis, hrest, hturned⟩ := h.exists_basis
  obtain ⟨hlength, hsize, hsum, hangle⟩ := orthogonalize_spec h.sizes h.basis hw
  have hright : ∀ v ∈ k.basis, toFun n (orthogonalize w k.basis).2 ⬝ᵥ toFun n v = 0 :=
    fun v hv => (dotProduct_comm _ _).trans (hangle v hv)
  cases hs : (orthogonalize w k.basis).1 with
  | nil =>
    rw [hs, hbasis] at hlength
    cases hlength
  | cons c cs =>
    have hcs : cs.length = k.rotations.length := by
      rw [hs, hbasis] at hlength
      exact (Nat.succ.inj hlength).trans hrest
    have hvs : (rest.map (toFun n)).length = k.rotations.length := by rw [List.length_map, hrest]
    obtain ⟨hdone, hrotate⟩ := rotate_spec h.rotations hcs hvs c (toFun n first)
    refine ⟨(rotate c k.rotations cs).1, (rotate c k.rotations cs).2, (orthogonalize w k.basis).2,
      ?_, ?_, hsize, ?_, hright⟩
    · rw [Krylov.extend]
      simp only [hs]
      rfl
    · rw [hdone, h.explained.columns, hturned, length_turn _ hvs.symm, hvs]
    · rw [hturned, hrotate, hsum, hs, hbasis]
      rfl

theorem diagonal_append {columns : List (List α)} {i : Nat} (hi : i < columns.length)
    (col : List α) : Krylov.diagonal (columns ++ [col]) i = Krylov.diagonal columns i := by
  rw [Krylov.diagonal, Krylov.diagonal, List.getD_append _ _ _ _ hi]

theorem diagonal_concat {columns : List (List α)} {done : List α}
    (hdone : done.length = columns.length) (last : α) :
    Krylov.diagonal (columns ++ [done ++ [last]]) columns.length = last := by
  rw [Krylov.diagonal, List.getD_append_right _ _ _ _ le_rfl, Nat.sub_self, List.getD_cons_zero,
    List.getD_append_right _ _ _ _ hdone.le, hdone, Nat.sub_self, List.getD_cons_zero]

/-- A column more, in a frame with a vector more. -/
theorem Explained.extended {us : List (Fin n → α)} {q u q' : Fin n → α}
    (h : Explained A b k us q) (hdiagonal : ∀ i < k.columns.length, Krylov.diagonal k.columns i ≠ 0)
    {z : Array α} (hz : z.size = n) {done : List α} (hdone : done.length = k.columns.length)
    {last wNorm c s : α} (hrotation : rotation last wNorm = (c, s))
    (hframe : IsFrame (us ++ [u])) (hapart : ∀ v ∈ us ++ [u], v ⬝ᵥ q' = 0)
    (hunit : q' ⬝ᵥ q' = 1 ∨ -s * k.remainder = 0)
    (himage : A *ᵥ toFun n z = combine (done ++ [c * last + s * wNorm]) (us ++ [u]))
    (hstart : k.remainder • q = (k.remainder * c) • u + (-s * k.remainder) • q') :
    Explained A b (k.extended z done last wNorm) (us ++ [u]) q' := by
  have hshort : ∀ col ∈ k.columns, col.length ≤ us.length := fun col hcol => by
    obtain ⟨i, hi, rfl⟩ := List.getElem_of_mem hcol
    rw [h.triangular i hi, ← h.columns]
    omega
  rw [Krylov.extended, hrotation]
  refine ⟨hframe, hapart, hunit, ?_, ?_, fun i hi => ?_, ?_, ?_, ?_, fun i hi => ?_⟩
  · exact List.forall_mem_append.2 ⟨h.sizes, List.forall_mem_singleton.2 hz⟩
  · rw [List.map_append, List.map_append, h.images, List.map_singleton, List.map_singleton, himage]
    refine congrArg (· ++ _) (List.map_congr_left fun col hcol => ?_)
    exact (combine_append_right (hshort col hcol) _).symm
  · rcases Nat.lt_succ_iff_lt_or_eq.1 ((List.length_append ..).symm ▸ hi) with hi | rfl
    · rw [List.getElem_append_left hi]
      exact h.triangular i hi
    · simp [hdone]
  · simp [h.columns]
  · simp [h.targets]
  · show b = combine (k.targets ++ [k.remainder * c]) (us ++ [u]) + (-s * k.remainder) • q'
    rw [combine_append h.targets, h.start, hstart, combine_cons, combine_nil, add_zero, add_assoc]
  · have hi : i < k.columns.length := by simpa using hi
    exact (diagonal_append hi _).symm ▸ hdiagonal i hi

/-- A new basis vector is turned into the frame by the new rotation. -/
theorem Open.turned_extended (h : Open A b k) (z v : Array α) (done : List α) {last wNorm c s : α}
    (hrotation : rotation last wNorm = (c, s)) :
    turned n { k.extended z done last wNorm with basis := k.basis ++ [v] } =
      ((k.turned n).1 ++ [(turnPair c s (k.turned n).2 (toFun n v)).1],
        (turnPair c s (k.turned n).2 (toFun n v)).2) := by
  obtain ⟨first, rest, hbasis, hrest, hturned⟩ := h.exists_basis
  rw [hturned, ← turn_concat _ _ _ _ (by rw [List.length_map, hrest]), ← hrotation, turned,
    Krylov.extended, hbasis, List.cons_append, List.tail_cons, List.map_append]
  rfl

/-- **The cycle goes on** with the direction of what is left over of an image, if anything is. -/
theorem Open.extend (h : Open A b k) {z w : Array α} (hz : z.size = n) (hw : w.size = n)
    (himage : toFun n w = A *ᵥ toFun n z) (hnorm : (k.extend z w).2.2 ≠ 0) :
    Open A b { (k.extend z w).1 with
      basis := k.basis ++ [(k.extend z w).2.1.map (· / (k.extend z w).2.2)] } := by
  obtain ⟨done, last, w', hextend, hdone, hw', hsum, hright⟩ := h.image z hw
  rw [hextend] at hnorm ⊢
  dsimp only at hnorm ⊢
  -- the new basis vector
  obtain ⟨hvsize, hwv, hunit⟩ := direction_spec hw' hnorm
  generalize w'.map (· / norm w') = v at hvsize hwv hunit ⊢
  have hvright : ∀ u ∈ k.basis, toFun n v ⬝ᵥ toFun n u = 0 := fun u hu => by
    have hzero := hright u hu
    rw [hwv, smul_dotProduct] at hzero
    exact (mul_eq_zero.1 hzero).resolve_left hnorm
  obtain ⟨hus, hq⟩ := h.dotProduct_turned hvright
  -- the new rotation
  obtain ⟨hcs, hzero, hpositive⟩ := rotation_spec last hnorm
  obtain ⟨⟨c, s⟩, hrotation⟩ : ∃ p, rotation last (norm w') = p := ⟨_, rfl⟩
  rw [hrotation] at hcs hzero hpositive
  dsimp only at hcs hzero hpositive
  have hturned := h.turned_extended z v done hrotation
  obtain ⟨hframe, hqunit, hapart⟩ :=
    h.explained.frame.turnPair hcs h.unit hunit hq h.explained.apart hus
  have hcolumn : A *ᵥ toFun n z = combine (done ++ [c * last + s * norm w'])
      ((k.turned n).1 ++ [(turnPair c s (k.turned n).2 (toFun n v)).1]) := by
    have hsplit := turnPair_sum hcs (k.turned n).2 (toFun n v) last (norm w')
    rw [hzero, zero_smul, add_zero] at hsplit
    rw [← himage, hsum, combine_append (hdone.trans h.explained.columns), combine_cons,
      combine_nil, add_zero, hsplit, hwv, add_assoc]
  have hstart : k.remainder • (k.turned n).2 =
      (k.remainder * c) • (turnPair c s (k.turned n).2 (toFun n v)).1 +
        (-s * k.remainder) • (turnPair c s (k.turned n).2 (toFun n v)).2 := by
    have hsplit := turnPair_sum hcs (k.turned n).2 (toFun n v) k.remainder 0
    rw [zero_smul, add_zero] at hsplit
    rw [← hsplit, mul_zero, mul_zero, add_zero, add_zero, mul_comm c]
  have hexplained := h.explained.extended h.diagonal hz hdone hrotation hframe hapart
    (.inl hqunit) hcolumn hstart
  refine ⟨?_, ?_, fun i hi => ?_, ?_, ?_, ?_, ?_⟩
  · rw [hturned]
    exact { hexplained with }
  · rw [hturned]
    exact hqunit
  · rw [Krylov.extended, hrotation] at hi ⊢
    rcases Nat.lt_succ_iff_lt_or_eq.1 ((List.length_append ..).symm ▸ hi) with hi | rfl
    · exact (diagonal_append hi _).symm ▸ h.diagonal i hi
    · exact (diagonal_concat hdone _).symm ▸ hpositive
  · exact List.forall_mem_append.2 ⟨h.sizes, List.forall_mem_singleton.2 hvsize⟩
  · rw [List.map_append]
    refine h.basis.concat hunit fun u hu => ?_
    obtain ⟨u', hu', rfl⟩ := List.mem_map.1 hu
    exact (dotProduct_comm _ _).trans (hvright u' hu')
  · exact List.forall_mem_append.2 ⟨h.rotations, List.forall_mem_singleton.2 (hrotation ▸ hcs)⟩
  · simp [Krylov.extended, h.length]

/-- **The cycle ends** where nothing is left over of an image: the vector that was carried belongs
to the frame as it is. -/
theorem Open.close (h : Open A b k) {z w : Array α} (hz : z.size = n) (hw : w.size = n)
    (himage : toFun n w = A *ᵥ toFun n z) (hnorm : (k.extend z w).2.2 = 0) :
    ∃ us q, Explained A b (k.extend z w).1 us q := by
  obtain ⟨done, last, w', hextend, hdone, hw', hsum, -⟩ := h.image z hw
  rw [hextend] at hnorm ⊢
  dsimp only at hnorm ⊢
  have hzero : toFun n w' = 0 := by
    refine dotProduct_self_eq_zero.1 ?_
    rw [← norm_mul_self hw', hnorm, zero_mul]
  have hrotation : rotation last (norm w') = (1, 0) := by
    rw [hnorm, rotation, if_pos (beq_self_eq_true _)]
  refine ⟨(k.turned n).1 ++ [(k.turned n).2], 0, ?_⟩
  refine h.explained.extended h.diagonal hz hdone hrotation
    (h.explained.frame.concat h.unit h.explained.apart) (fun _ _ => dotProduct_zero _) (.inr ?_)
    ?_ ?_
  · rw [neg_zero, zero_mul]
  · rw [← himage, hsum, hzero, combine_append (hdone.trans h.explained.columns), combine_cons,
      combine_nil, one_mul, zero_mul, add_zero, add_zero, add_zero]
  · rw [mul_one, smul_zero, add_zero]

/-- **Whatever an inner iteration finds**, the cycle may end after it. -/
theorem Open.explained_extend (h : Open A b k) {z w : Array α} (hz : z.size = n) (hw : w.size = n)
    (himage : toFun n w = A *ᵥ toFun n z) : ∃ us q, Explained A b (k.extend z w).1 us q := by
  by_cases hnorm : (k.extend z w).2.2 = 0
  · exact h.close hz hw himage hnorm
  · exact ⟨_, _, { (h.extend hz hw himage hnorm).explained with }⟩

end

end Krylov

end Mdao
