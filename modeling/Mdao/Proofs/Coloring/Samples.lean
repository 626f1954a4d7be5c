import Mathlib
import Mdao.Proofs.Coloring.Pattern
import Mdao.Proofs.Step
import Mdao.Proofs.Vec

/-!
# Patterns from samples

A pattern is detected from matrices that are sampled one after the other, each from the state that
the one before has left behind (`Pattern.Draws`). Detection succeeds exactly if all samples do and
have an entry for each place, and it keeps the places whose mean magnitude over the samples is above
the tolerance (`Pattern.detect_iff`). With a tolerance of zero these are the places where some sample
is not zero (`Pattern.meanMagnitude_pos_iff`).
-/

namespace Mdao.Pattern

open Vec

/-! ### Drawing samples -/

section Draws

variable {β ρ : Type} (sample : EStateM String ρ (Array β)) (n : Nat)

/-- Matrices of `n` entries, sampled one after the other between two states. -/
inductive Draws : ρ → List (Array β) → ρ → Prop
  | nil (r : ρ) : Draws r [] r
  | cons {r r' r'' : ρ} {values : Array β} {rest : List (Array β)} (first : sample r = .ok values r')
      (size : values.size = n) (others : Draws r' rest r'') : Draws r (values :: rest) r''

variable {sample n} {r r' : ρ} {drawn : List (Array β)}

theorem Draws.size (h : Draws sample n r drawn r') : ∀ x ∈ drawn, x.size = n := by
  induction h with
  | nil r => simp
  | cons first size others ih => exact List.forall_mem_cons.2 ⟨size, ih⟩

/-- As many matrices drawn from one state are the same matrices. -/
theorem Draws.eq_of_length (h : Draws sample n r drawn r') {drawn' : List (Array β)} {r'' : ρ}
    (h' : Draws sample n r drawn' r'') (hlength : drawn.length = drawn'.length) :
    drawn = drawn' ∧ r' = r'' := by
  induction h generalizing drawn' with
  | nil r =>
    obtain rfl := List.length_eq_zero_iff.1 hlength.symm
    cases h'
    exact ⟨rfl, rfl⟩
  | cons first size others ih =>
    cases h' with
    | nil => cases hlength
    | cons first' size' others' =>
      obtain ⟨rfl, rfl⟩ := EStateM.Result.ok.inj (first.symm.trans first')
      obtain ⟨rfl, rfl⟩ := ih others' (Nat.succ.inj hlength)
      exact ⟨rfl, rfl⟩

theorem Draws.exists_of_mem (h : Draws sample n r drawn r') :
    ∀ x ∈ drawn, ∃ r1 r2, sample r1 = .ok x r2 := by
  induction h with
  | nil r => simp
  | cons first size others ih => exact List.forall_mem_cons.2 ⟨⟨_, _, first⟩, ih⟩

variable [Scalar β]

/-- The sums with the magnitudes of one more matrix. -/
def addMagnitudes (sums values : Array β) : Array β :=
  Array.zipWith (fun a v => a + Scalar.abs v) sums values

/-- **Sums of samples are the sums of what is drawn.** -/
theorem sumSamples_eq_ok {count : Nat} {sums sums' : Array β} :
    sumSamples n sample count sums r = .ok sums' r' ↔ ∃ drawn, Draws sample n r drawn r' ∧
      drawn.length = count ∧ drawn.foldl addMagnitudes sums = sums' := by
  induction count generalizing sums r with
  | zero =>
    constructor
    · intro h
      cases h
      exact ⟨[], .nil _, rfl, rfl⟩
    · rintro ⟨drawn, hdrawn, hlength, rfl⟩
      obtain rfl := List.length_eq_zero_iff.1 hlength
      cases hdrawn
      rfl
  | succ count ih =>
    constructor
    · intro h
      dsimp only [sumSamples] at h
      cases hvalues : sample r with
      | error e r1 =>
        rw [hvalues] at h
        cases h
      | ok values r1 =>
        rw [hvalues] at h
        dsimp only at h
        split_ifs at h with hsize
        obtain ⟨drawn, hdrawn, hlength, hsums⟩ := ih.1 h
        exact ⟨values :: drawn, .cons hvalues (not_not.1 hsize) hdrawn,
          congrArg (· + 1) hlength, hsums⟩
    · rintro ⟨drawn, hdrawn, hlength, rfl⟩
      cases hdrawn with
      | nil => cases hlength
      | cons first size others =>
        dsimp only [sumSamples]
        rw [first]
        dsimp only
        rw [if_neg (not_not.2 size)]
        exact ih.2 ⟨_, others, Nat.succ.inj hlength, rfl⟩

/-- **What a detected pattern is made from.** -/
theorem detect_eq_ok {nrows ncols : Nat} {s : ColoringSettings β} {p : Pattern} :
    detect nrows ncols s sample r = .ok p r' ↔ ∃ drawn,
      Draws sample (Count.mul nrows ncols) r drawn r' ∧ drawn.length = max s.numFullJacs 1 ∧
      ofDense nrows ncols ((drawn.foldl addMagnitudes (zeros (Count.mul nrows ncols))).map
        (· * (1 / ((max s.numFullJacs 1 : Nat) : β)))) s.tol = .ok p := by
  constructor
  · intro h
    obtain ⟨sums, r1, hsums, hp⟩ := exists_of_bind_eq_ok h
    obtain ⟨drawn, hdrawn, hlength, rfl⟩ := sumSamples_eq_ok.1 hsums
    cases hdense : ofDense nrows ncols ((drawn.foldl addMagnitudes
        (zeros (Count.mul nrows ncols))).map (· * (1 / ((max s.numFullJacs 1 : Nat) : β)))) s.tol with
    | error e =>
      simp only [hdense] at hp
      cases hp
    | ok q =>
      simp only [hdense] at hp
      cases hp
      exact ⟨drawn, hdrawn, hlength, hdense⟩
  · rintro ⟨drawn, hdrawn, hlength, hp⟩
    have hsums : sumSamples (Count.mul nrows ncols) sample (max s.numFullJacs 1)
        (zeros (Count.mul nrows ncols)) r =
          .ok (drawn.foldl addMagnitudes (zeros (Count.mul nrows ncols))) r' :=
      sumSamples_eq_ok.2 ⟨drawn, hdrawn, hlength, rfl⟩
    rw [detect, bind_of_ok _ hsums]
    simp only [hp]
    rfl

/-- A pattern detected from samples is well formed and has the shape of the samples. -/
theorem wellFormed_of_detect {nrows ncols : Nat} {s : ColoringSettings β} {p : Pattern}
    (h : detect nrows ncols s sample r = .ok p r') :
    p.WellFormed ∧ p.nrows = nrows ∧ p.ncols = ncols := by
  obtain ⟨drawn, -, -, hdense⟩ := detect_eq_ok.1 h
  exact wellFormed_of_ofDense hdense

end Draws

/-! ### Mean magnitudes -/

variable {α ρ : Type} [ExactScalar α] {sample : EStateM String ρ (Array α)} {n : Nat} {r r' : ρ}
  {drawn : List (Array α)}

/-- The mean magnitude of an entry over some matrices. -/
def meanMagnitude (drawn : List (Array α)) (k : Nat) : α :=
  (drawn.map fun x => |entry x k|).sum / (drawn.length : α)

theorem size_addMagnitudes {x y : Array α} (hx : x.size = n) (hy : y.size = n) :
    (addMagnitudes x y).size = n := by
  rw [addMagnitudes, Array.size_zipWith, hx, hy, min_self]

theorem size_foldl_addMagnitudes {sums : Array α} (hsums : sums.size = n)
    (hdrawn : ∀ x ∈ drawn, x.size = n) : (drawn.foldl addMagnitudes sums).size = n := by
  induction drawn generalizing sums with
  | nil => exact hsums
  | cons x rest ih =>
    obtain ⟨hx, hrest⟩ := List.forall_mem_cons.1 hdrawn
    exact ih (size_addMagnitudes hsums hx) hrest

theorem entry_addMagnitudes {x y : Array α} (h : x.size = y.size) (k : Nat) :
    entry (addMagnitudes x y) k = entry x k + |entry y k| := by
  unfold addMagnitudes
  by_cases hk : k < x.size
  · rw [entry_zipWith _ _ _ _ hk (h ▸ hk), ExactScalar.abs_eq]
  · rw [entry_of_size_le (by rw [Array.size_zipWith, ← h, min_self]; omega),
      entry_of_size_le (x := x) (by omega), entry_of_size_le (x := y) (by omega), abs_zero, add_zero]

/-- **The sums of what is drawn, entry by entry.** -/
theorem entry_foldl_addMagnitudes {sums : Array α} (hsums : sums.size = n)
    (hdrawn : ∀ x ∈ drawn, x.size = n) (k : Nat) : entry (drawn.foldl addMagnitudes sums) k =
      entry sums k + (drawn.map fun x => |entry x k|).sum := by
  induction drawn generalizing sums with
  | nil => simp
  | cons x rest ih =>
    obtain ⟨hx, hrest⟩ := List.forall_mem_cons.1 hdrawn
    rw [List.foldl_cons, ih (size_addMagnitudes hsums hx) hrest,
      entry_addMagnitudes (hsums.trans hx.symm), List.map_cons, List.sum_cons, add_assoc]

theorem meanMagnitude_nonneg (drawn : List (Array α)) (k : Nat) : 0 ≤ meanMagnitude drawn k := by
  refine div_nonneg (List.sum_nonneg fun x hx => ?_) (Nat.cast_nonneg _)
  obtain ⟨y, -, rfl⟩ := List.mem_map.1 hx
  exact abs_nonneg _

/-- **The mean magnitude of an entry is not zero exactly if the entry is not zero in some sample.** -/
theorem meanMagnitude_pos_iff {k : Nat} :
    0 < meanMagnitude drawn k ↔ ∃ x ∈ drawn, entry x k ≠ 0 := by
  have hnonneg : ∀ y ∈ drawn.map fun x => |entry x k|, 0 ≤ y := by
    intro y hy
    obtain ⟨x, -, rfl⟩ := List.mem_map.1 hy
    exact abs_nonneg _
  constructor
  · intro h
    by_contra hnone
    have hzero : ∀ x ∈ drawn, entry x k = 0 := fun x hx =>
      not_not.1 fun hne => hnone ⟨x, hx, hne⟩
    have hsum : (drawn.map fun x => |entry x k|).sum = 0 :=
      List.sum_eq_zero fun y hy => by
        obtain ⟨x, hx, rfl⟩ := List.mem_map.1 hy
        rw [hzero x hx, abs_zero]
    rw [meanMagnitude, hsum, zero_div] at h
    exact h.false
  · rintro ⟨x, hx, hne⟩
    have hlength : 0 < (drawn.length : α) := Nat.cast_pos.2 (List.length_pos_of_mem hx)
    have hsum := List.single_le_sum hnonneg _ (List.mem_map_of_mem hx)
    exact div_pos ((abs_pos.2 hne).trans_le hsum) hlength

/-- The pattern of the places whose mean magnitude over some matrices is above a tolerance. -/
def aboveMean (nrows ncols : Nat) (tol : α) (drawn : List (Array α)) : Pattern :=
  ⟨nrows, ncols, tabulate nrows fun i => (List.range ncols).filter fun k =>
    decide (tol < meanMagnitude drawn (i * ncols + k))⟩

theorem row_aboveMean {nrows ncols i : Nat} {tol : α} (hi : i < nrows) :
    (aboveMean nrows ncols tol drawn).row i = (List.range ncols).filter fun k =>
      decide (tol < meanMagnitude drawn (i * ncols + k)) := by
  simp [row, aboveMean, tabulate, hi]

theorem mem_row_aboveMean {nrows ncols i k : Nat} {tol : α} :
    k ∈ (aboveMean nrows ncols tol drawn).row i ↔
      i < nrows ∧ k < ncols ∧ tol < meanMagnitude drawn (i * ncols + k) := by
  by_cases hi : i < nrows
  · simp [row_aboveMean hi, hi]
  · simp [row, aboveMean, tabulate, hi]

/-- **What detection gives**: it succeeds exactly if samples are drawn with an entry for each place,
and it keeps the places whose mean magnitude is above the tolerance. -/
theorem detect_iff {nrows ncols : Nat} {s : ColoringSettings α} {p : Pattern} :
    detect nrows ncols s sample r = .ok p r' ↔ ∃ drawn,
      Draws sample (Count.mul nrows ncols) r drawn r' ∧ drawn.length = max s.numFullJacs 1 ∧
      aboveMean nrows ncols s.tol drawn = p := by
  rw [detect_eq_ok]
  refine exists_congr fun drawn => and_congr_right fun hdrawn => and_congr_right fun hlength => ?_
  have hzeros : (zeros (Count.mul nrows ncols) : Array α).size = Count.mul nrows ncols :=
    size_zeros _
  have hentry : ∀ k, Scalar.abs (entry ((drawn.foldl addMagnitudes
      (zeros (Count.mul nrows ncols))).map (· * (1 / ((max s.numFullJacs 1 : Nat) : α)))) k) =
        meanMagnitude drawn k := by
    intro k
    rw [entry_map_mul, entry_foldl_addMagnitudes hzeros hdrawn.size, entry_zeros, zero_add,
      ← hlength, mul_one_div, ExactScalar.abs_eq]
    exact abs_of_nonneg (meanMagnitude_nonneg drawn k)
  simp only [ofDense, hentry]
  rw [if_neg (not_not.2 (by rw [Array.size_map, size_foldl_addMagnitudes hzeros hdrawn.size]))]
  rw [Except.ok.injEq]
  rfl

/-- **A place where all samples vanish is not in the pattern**, unless the tolerance is negative. -/
theorem not_mem_of_detect {nrows ncols i k : Nat} {s : ColoringSettings α} {p : Pattern}
    (hsample : ∀ r values r', sample r = .ok values r' → entry values (i * ncols + k) = 0)
    (htol : 0 ≤ s.tol) (h : detect nrows ncols s sample r = .ok p r') : k ∉ p.row i := by
  obtain ⟨drawn, hdrawn, -, rfl⟩ := detect_iff.1 h
  intro hmem
  obtain ⟨-, -, hlt⟩ := mem_row_aboveMean.1 hmem
  obtain ⟨x, hx, hne⟩ := meanMagnitude_pos_iff.1 (htol.trans_lt hlt)
  obtain ⟨r1, r2, hvalues⟩ := hdrawn.exists_of_mem x hx
  exact hne (hsample r1 x r2 hvalues)

/-- Samples that have an entry for each place are no more than can be counted. -/
theorem places_of_detect {nrows ncols : Nat} {s : ColoringSettings α} {p : Pattern}
    (hsample : ∀ r values r', sample r = .ok values r' →
      values.size = nrows * ncols) (h : detect nrows ncols s sample r = .ok p r') :
    p.places = nrows * ncols := by
  obtain ⟨drawn, hdrawn, hlength, rfl⟩ := detect_iff.1 h
  obtain ⟨x, hx⟩ : ∃ x, x ∈ drawn := List.exists_mem_of_length_pos (by omega)
  obtain ⟨r1, r2, hvalues⟩ := hdrawn.exists_of_mem x hx
  exact (hdrawn.size x hx).symm.trans (hsample r1 x r2 hvalues)

end Mdao.Pattern
