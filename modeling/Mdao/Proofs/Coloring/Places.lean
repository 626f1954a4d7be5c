import Mathlib
import Mdao.Proofs.Coloring.Samples

/-!
# Patterns as sets of places

However a pattern is made, from entries, from a dense matrix or from samples, it represents a set of
places: its rows and its columns list them in increasing order and once each, bisection finds exactly
these, and the transposed pattern represents the transposed set (`Pattern.Represents`). Two patterns
of one shape with the same places are equal, so a pattern that is made from entries depends on the
set of entries only (`Pattern.toOption_ofEntries_congr`), and transposing twice changes nothing.
-/

namespace Mdao.Pattern

variable {p : Pattern} {nrows ncols : Nat}

/-! ### Transposed patterns -/

/-- **The transposed pattern has the transposed places.** -/
theorem WellFormed.mem_row_transpose (hp : p.WellFormed) {r c : Nat} :
    r ∈ p.transpose.row c ↔ c ∈ p.row r := by
  by_cases hc : c < p.ncols
  · exact mem_columns hc
  · have hempty : p.transpose.row c = [] := row_of_size_le (by simpa [transpose] using hc)
    rw [hempty]
    exact iff_of_false List.not_mem_nil fun h => hc (hp.lt_ncols r c h)

theorem WellFormed.transpose (hp : p.WellFormed) : p.transpose.WellFormed where
  size_rows := size_columns p
  increasing c := by
    by_cases hc : c < p.ncols
    · exact hp.pairwise_columns hc
    · rw [row_of_size_le (by simpa [Pattern.transpose] using hc)]
      exact List.Pairwise.nil
  lt_ncols c r hr := hp.lt_nrows (hp.mem_row_transpose.1 hr)

/-- **Transposing twice changes nothing.** -/
theorem WellFormed.transpose_transpose (hp : p.WellFormed) : p.transpose.transpose = p :=
  hp.transpose.transpose.ext hp rfl rfl fun r c => by
    rw [hp.transpose.mem_row_transpose, hp.mem_row_transpose]

/-! ### Patterns of entries -/

/-- Entries make a pattern exactly if all of them lie inside the shape. -/
theorem exists_ofEntries_iff {es : List (Nat × Nat)} :
    (∃ p, ofEntries nrows ncols es = .ok p) ↔ ∀ e ∈ es, e.1 < nrows ∧ e.2 < ncols := by
  constructor
  · rintro ⟨p, hp⟩ ⟨r, c⟩ he
    obtain ⟨hwf, ⟨rfl, rfl⟩, hmem⟩ := wellFormed_of_ofEntries hp
    have hrow := (hmem r c).2 he
    exact ⟨hwf.lt_nrows hrow, hwf.lt_ncols r c hrow⟩
  · exact insertAll_eq_ok (p := empty nrows ncols)

/-- **A pattern depends on the set of its entries only**, not on their order or how often they are
given. -/
theorem toOption_ofEntries_congr {es es' : List (Nat × Nat)} (h : ∀ e, e ∈ es ↔ e ∈ es') :
    (ofEntries nrows ncols es).toOption = (ofEntries nrows ncols es').toOption := by
  by_cases hin : ∀ e ∈ es, e.1 < nrows ∧ e.2 < ncols
  · obtain ⟨p, hp⟩ := exists_ofEntries_iff.2 hin
    obtain ⟨q, hq⟩ := exists_ofEntries_iff.2 fun e he => hin e ((h e).2 he)
    obtain ⟨hpwf, ⟨hpr, hpc⟩, hpmem⟩ := wellFormed_of_ofEntries hp
    obtain ⟨hqwf, ⟨hqr, hqc⟩, hqmem⟩ := wellFormed_of_ofEntries hq
    have hpq : p = q := hpwf.ext hqwf (hpr.trans hqr.symm) (hpc.trans hqc.symm) fun r c => by
      rw [hpmem, hqmem, h]
    rw [hp, hq, hpq]
  · have hnone : ∀ {fs : List (Nat × Nat)}, (¬ ∀ e ∈ fs, e.1 < nrows ∧ e.2 < ncols) →
        (ofEntries nrows ncols fs).toOption = none := by
      intro fs hout
      cases hq : ofEntries nrows ncols fs with
      | error e => rfl
      | ok q => exact absurd (exists_ofEntries_iff.1 ⟨q, hq⟩) hout
    rw [hnone hin, hnone fun hin' => hin fun e he => hin' e ((h e).1 he)]

/-! ### All patterns -/

/-- **The patterns that can be made**, with their shape. -/
inductive Made (nrows ncols : Nat) : Pattern → Prop
  | ofEntries {es : List (Nat × Nat)} {p : Pattern} (h : ofEntries nrows ncols es = .ok p) :
    Made nrows ncols p
  | ofDense {α : Type} [Scalar α] {values : Array α} {tol : α} {p : Pattern}
    (h : ofDense nrows ncols values tol = .ok p) : Made nrows ncols p
  | detect {α ρ : Type} [Scalar α] {s : ColoringSettings α} {sample : EStateM String ρ (Array α)}
    {r r' : ρ} {p : Pattern} (h : detect nrows ncols s sample r = .ok p r') : Made nrows ncols p

/-- A pattern that was made is well formed and has the shape that was asked for. -/
theorem Made.wellFormed (h : Made nrows ncols p) :
    p.WellFormed ∧ p.nrows = nrows ∧ p.ncols = ncols := by
  cases h with
  | ofEntries h => exact ⟨(wellFormed_of_ofEntries h).1, (wellFormed_of_ofEntries h).2.1⟩
  | ofDense h => exact wellFormed_of_ofDense h
  | detect h => exact wellFormed_of_detect h

/-- **How a pattern represents a set of places.** -/
structure Represents (nrows ncols : Nat) (p : Pattern) : Prop where
  nrows_eq : p.nrows = nrows
  ncols_eq : p.ncols = ncols
  /-- There is a list for each row. -/
  size_rows : p.rows.size = nrows
  /-- The columns of a row increase. -/
  increasing_row : ∀ r, (p.row r).Pairwise (· < ·)
  /-- There is no column beyond the last. -/
  lt_ncols : ∀ r, ∀ c ∈ p.row r, c < ncols
  /-- Bisection finds the entries. -/
  contains_iff_entry : ∀ r c, p.contains r c = true ↔ (r, c) ∈ p.entries
  /-- The pattern is the one that its entries make. -/
  ofEntries_entries : ofEntries nrows ncols p.entries = .ok p
  /-- There is a list for each column. -/
  size_columns : p.columns.size = ncols
  /-- Bisection finds the rows of a column. -/
  contains_iff_column : ∀ r, ∀ c < ncols, p.contains r c = true ↔ r ∈ p.columns.getD c []
  /-- The rows of a column increase. -/
  increasing_column : ∀ c < ncols, (p.columns.getD c []).Pairwise (· < ·)
  /-- Rows and columns change places in the transposed pattern. -/
  transpose : p.transpose.nrows = ncols ∧ p.transpose.ncols = nrows ∧
    ∀ r c, p.transpose.contains c r = p.contains r c
  /-- Transposing twice changes nothing. -/
  transpose_transpose : p.transpose.transpose = p

theorem WellFormed.represents (hp : p.WellFormed) : p.Represents p.nrows p.ncols where
  nrows_eq := rfl
  ncols_eq := rfl
  size_rows := hp.size_rows
  increasing_row := hp.increasing
  lt_ncols := hp.lt_ncols
  contains_iff_entry r c := hp.contains_iff.trans mem_entries.symm
  ofEntries_entries := hp.ofEntries_entries
  size_columns := size_columns p
  contains_iff_column r c hc := hp.contains_iff.trans (mem_columns hc).symm
  increasing_column c hc := hp.pairwise_columns hc
  transpose := ⟨rfl, rfl, fun r c => Bool.eq_iff_iff.2 (by
    rw [hp.transpose.contains_iff, hp.contains_iff, hp.mem_row_transpose])⟩
  transpose_transpose := hp.transpose_transpose

/-! ### What patterns are made of -/

theorem contains_of_ofEntries {es : List (Nat × Nat)} (h : ofEntries nrows ncols es = .ok p)
    (r c : Nat) : p.contains r c = true ↔ (r, c) ∈ es := by
  obtain ⟨hwf, -, hmem⟩ := wellFormed_of_ofEntries h
  rw [hwf.contains_iff, hmem]

section Detect

variable {α ρ : Type} [ExactScalar α] {s : ColoringSettings α}
  {sample : EStateM String ρ (Array α)} {r r' : ρ}

/-- **The places that a pattern keeps** of some matrices. -/
structure KeepsAbove (p : Pattern) (tol : α) (drawn : List (Array α)) : Prop where
  /-- A place is kept if its mean magnitude is above the tolerance. -/
  contains_iff : ∀ i < p.nrows, ∀ k < p.ncols,
    p.contains i k = true ↔ tol < meanMagnitude drawn (i * p.ncols + k)
  /-- Without a tolerance a place is kept if some matrix is not zero there. -/
  contains_iff_of_zero : tol = 0 → ∀ i < p.nrows, ∀ k < p.ncols,
    p.contains i k = true ↔ ∃ x ∈ drawn, Vec.entry x (i * p.ncols + k) ≠ 0

/-- **A detected place is one whose mean magnitude is above the tolerance.** -/
theorem keepsAbove_of_detect (h : detect nrows ncols s sample r = .ok p r') :
    ∃ drawn, Draws sample (Count.mul nrows ncols) r drawn r' ∧
      drawn.length = max s.numFullJacs 1 ∧ p.KeepsAbove s.tol drawn := by
  have hwf := (wellFormed_of_detect h).1
  obtain ⟨drawn, hdrawn, hlength, rfl⟩ := detect_iff.1 h
  have hmean : ∀ i < nrows, ∀ k < ncols, (aboveMean nrows ncols s.tol drawn).contains i k = true ↔
      s.tol < meanMagnitude drawn (i * ncols + k) := by
    intro i hi k hk
    rw [hwf.contains_iff, mem_row_aboveMean]
    exact ⟨fun h => h.2.2, fun h => ⟨hi, hk, h⟩⟩
  refine ⟨drawn, hdrawn, hlength, hmean, fun htol i hi k hk => ?_⟩
  rw [hmean i hi k hk, htol, meanMagnitude_pos_iff]
  rfl

end Detect

/-- **Every pattern represents a set of places.** However it is made, it is the pattern of its
entries, its rows and its columns list its places in increasing order and once each, bisection finds
exactly these, and transposing swaps rows and columns and is undone by transposing again. Entries make
a pattern exactly if all of them lie inside; it has these entries and depends on nothing but the set
of them. A pattern is detected exactly if samples with an entry for each place are drawn one after the
other, and then has the places whose mean magnitude is above the tolerance; with a tolerance of zero
these are the places where some sample is not zero. -/
theorem made_represents (α : Type) [ExactScalar α] :
    (∀ nrows ncols p, Made nrows ncols p → p.Represents nrows ncols) ∧
    (∀ nrows ncols es, ((∃ p, ofEntries nrows ncols es = .ok p) ↔
        ∀ e ∈ es, e.1 < nrows ∧ e.2 < ncols) ∧
      (∀ p, ofEntries nrows ncols es = .ok p → ∀ r c, p.contains r c = true ↔ (r, c) ∈ es) ∧
      ∀ es', (∀ e, e ∈ es ↔ e ∈ es') →
        (ofEntries nrows ncols es).toOption = (ofEntries nrows ncols es').toOption) ∧
    ∀ (ρ : Type) nrows ncols (s : ColoringSettings α) (sample : EStateM String ρ (Array α))
      (r r' : ρ), ((∃ p, detect nrows ncols s sample r = .ok p r') ↔
        ∃ drawn, Draws sample (Count.mul nrows ncols) r drawn r' ∧
          drawn.length = max s.numFullJacs 1) ∧
      ∀ p, detect nrows ncols s sample r = .ok p r' → ∃ drawn,
        Draws sample (Count.mul nrows ncols) r drawn r' ∧ drawn.length = max s.numFullJacs 1 ∧
        p.KeepsAbove s.tol drawn := by
  refine ⟨fun nrows ncols p h => ?_, fun nrows ncols es => ⟨exists_ofEntries_iff,
    fun p => contains_of_ofEntries, fun es' => toOption_ofEntries_congr⟩,
    fun ρ nrows ncols s sample r r' => ⟨?_, fun p => keepsAbove_of_detect⟩⟩
  · obtain ⟨hwf, rfl, rfl⟩ := h.wellFormed
    exact hwf.represents
  · simp only [detect_iff]
    exact ⟨fun ⟨p, drawn, hdrawn, hlength, _⟩ => ⟨drawn, hdrawn, hlength⟩,
      fun ⟨drawn, hdrawn, hlength⟩ => ⟨_, drawn, hdrawn, hlength, rfl⟩⟩

namespace Vanishing

/-- A sample that is zero in its first entry when it is drawn first, and in its second one always. -/
def sample : EStateM String Nat (Array ℚ) := fun n => .ok #[(n : ℚ), 0] (n + 1)

/-- Two samples and no tolerance. -/
def settings : ColoringSettings ℚ := ⟨.auto, .direct, 0, 2, 0⟩

/-- A place that vanishes in one sample is detected from the other one. -/
theorem detect_of_vanishing : ∃ p, detect 1 2 settings sample 0 = .ok p 2 ∧ p.Represents 1 2 ∧
    p.contains 0 0 = true ∧ p.contains 0 1 = false := by
  obtain ⟨hrepresents, -, hdetect⟩ := made_represents ℚ
  obtain ⟨hexists, hcontains⟩ := hdetect Nat 1 2 settings sample 0 2
  have hsamples : Draws sample 2 0 [#[0, 0], #[1, 0]] 2 :=
    .cons rfl rfl (.cons rfl rfl (.nil 2))
  obtain ⟨p, hp⟩ := hexists.2 ⟨_, hsamples, rfl⟩
  obtain ⟨drawn, hdrawn, hlength, hkeeps⟩ := hcontains p hp
  obtain ⟨rfl, -⟩ := hdrawn.eq_of_length hsamples hlength
  have hshape := hrepresents 1 2 p (.detect hp)
  have hplaces := hkeeps.contains_iff_of_zero rfl
  rw [hshape.nrows_eq, hshape.ncols_eq] at hplaces
  have hfirst := hplaces 0 one_pos 0 two_pos
  have hsecond := hplaces 0 one_pos 1 one_lt_two
  exact ⟨p, hp, hshape, hfirst.2 (by decide),
    Bool.eq_false_iff.2 fun h => absurd (hsecond.1 h) (by decide)⟩

end Vanishing

end Mdao.Pattern
