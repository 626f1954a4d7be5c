import Mathlib

/-!
# Frames and plane rotations

A frame is a list of vectors of length one, each at a right angle to the others. `combine` adds
vectors up with coefficients. `turn` carries a vector through a list of plane rotations: each turns
it together with the next vector of a list, leaves one of the two results behind and carries on with
the other.

Coordinates turned with the same cosines and sines make the same sum (`turnPair_sum`), so a
combination of vectors may be read off the turned ones, where its length is that of its coordinates
(`IsFrame.add_mul_self`).
-/

namespace Mdao.Frames

open Matrix

variable {α : Type} [Field α] {n : Nat}

/-! ### Combinations -/

/-- The sum of vectors with coefficients, as far as both lists reach. -/
def combine (cs : List α) (us : List (Fin n → α)) : Fin n → α :=
  (List.zipWith (fun c u => c • u) cs us).sum

@[simp] theorem combine_nil (us : List (Fin n → α)) : combine [] us = 0 := rfl

@[simp] theorem combine_cons (c : α) (cs : List α) (u : Fin n → α) (us : List (Fin n → α)) :
    combine (c :: cs) (u :: us) = c • u + combine cs us := rfl

theorem combine_append {cs ds : List α} {us vs : List (Fin n → α)} (h : cs.length = us.length) :
    combine (cs ++ ds) (us ++ vs) = combine cs us + combine ds vs := by
  rw [combine, List.zipWith_append h, List.sum_append]
  rfl

/-- Vectors without coefficients do not count. -/
theorem combine_append_right {cs : List α} {us : List (Fin n → α)} (h : cs.length ≤ us.length)
    (vs : List (Fin n → α)) : combine cs (us ++ vs) = combine cs us := by
  induction cs generalizing us with
  | nil => rfl
  | cons c cs ih =>
    cases us with
    | nil => simp at h
    | cons u us => rw [List.cons_append, combine_cons, combine_cons, ih (by simpa using h)]

/-- A combination as a sum over the numbers of the vectors. -/
theorem combine_eq_sum {cs : List α} {us : List (Fin n → α)} (h : cs.length ≤ us.length) :
    combine cs us = ∑ i ∈ Finset.range us.length, cs.getD i 0 • us.getD i 0 := by
  induction us generalizing cs with
  | nil =>
    obtain rfl : cs = [] := List.length_eq_zero_iff.1 (by simpa using h)
    rfl
  | cons u us ih =>
    rw [List.length_cons, Finset.sum_range_succ']
    cases cs with
    | nil => simp
    | cons c cs =>
      rw [combine_cons, ih (by simpa using h), add_comm]
      simp

/-- A matrix takes a combination to the combination of the images. -/
theorem mulVec_combine (A : Matrix (Fin n) (Fin n) α) (cs : List α) (us : List (Fin n → α)) :
    A *ᵥ combine cs us = combine cs (us.map (A *ᵥ ·)) := by
  induction us generalizing cs with
  | nil => simp [combine]
  | cons u us ih =>
    cases cs with
    | nil => simp
    | cons c cs => rw [combine_cons, mulVec_add, mulVec_smul, ih, List.map_cons, combine_cons]

/-- A vector at a right angle to some is at a right angle to their combinations. -/
theorem dotProduct_combine {x : Fin n → α} {us : List (Fin n → α)} (h : ∀ u ∈ us, x ⬝ᵥ u = 0)
    (cs : List α) : x ⬝ᵥ combine cs us = 0 := by
  induction us generalizing cs with
  | nil => simp [combine]
  | cons u us ih =>
    cases cs with
    | nil => simp
    | cons c cs =>
      rw [combine_cons, dotProduct_add, dotProduct_smul, h u List.mem_cons_self, smul_zero,
        zero_add, ih fun w hw => h w (List.mem_cons_of_mem _ hw)]

/-! ### Frames -/

/-- Vectors of length one, each at a right angle to the others. -/
structure IsFrame (us : List (Fin n → α)) : Prop where
  unit : ∀ u ∈ us, u ⬝ᵥ u = 1
  apart : us.Pairwise fun u v => u ⬝ᵥ v = 0

theorem isFrame_nil : IsFrame ([] : List (Fin n → α)) := ⟨by simp, .nil⟩

/-- A frame with one more vector. -/
theorem IsFrame.concat {us : List (Fin n → α)} (h : IsFrame us) {q : Fin n → α}
    (hunit : q ⬝ᵥ q = 1) (hapart : ∀ u ∈ us, u ⬝ᵥ q = 0) : IsFrame (us ++ [q]) where
  unit u hu := by
    rcases List.mem_append.1 hu with hu | hu
    · exact h.unit u hu
    · obtain rfl := List.mem_singleton.1 hu
      exact hunit
  apart := List.pairwise_append.2 ⟨h.apart, List.pairwise_singleton _ _, fun u hu v hv => by
    obtain rfl := List.mem_singleton.1 hv
    exact hapart u hu⟩

/-- **The square of the length of a combination** of vectors of a frame is the sum of the squares of
the coefficients. -/
theorem IsFrame.combine_mul_self {us : List (Fin n → α)} (h : IsFrame us) {cs : List α}
    (hcs : cs.length ≤ us.length) : combine cs us ⬝ᵥ combine cs us =
      ∑ i ∈ Finset.range us.length, cs.getD i 0 * cs.getD i 0 := by
  induction us generalizing cs with
  | nil => simp [combine]
  | cons u us ih =>
    obtain ⟨hunit, hunits⟩ := List.forall_mem_cons.1 h.unit
    obtain ⟨hlater, hapart⟩ := List.pairwise_cons.1 h.apart
    cases cs with
    | nil => simp
    | cons c cs =>
      have hright : u ⬝ᵥ combine cs us = 0 := dotProduct_combine hlater cs
      rw [List.length_cons, Finset.sum_range_succ', combine_cons]
      simp only [List.getD_cons_succ, List.getD_cons_zero]
      rw [← ih ⟨hunits, hapart⟩ (by simpa using hcs), add_dotProduct, dotProduct_add,
        dotProduct_add, smul_dotProduct, dotProduct_smul, smul_dotProduct, dotProduct_smul, hunit,
        hright, dotProduct_comm _ u, hright]
      simp only [smul_eq_mul]
      ring

/-- The length of a combination with a vector at a right angle to the frame. -/
theorem IsFrame.add_mul_self {us : List (Fin n → α)} (h : IsFrame us) {q : Fin n → α}
    (hq : ∀ u ∈ us, u ⬝ᵥ q = 0) {cs : List α} (hcs : cs.length ≤ us.length) (c : α) :
    (combine cs us + c • q) ⬝ᵥ (combine cs us + c • q) =
      ∑ i ∈ Finset.range us.length, cs.getD i 0 * cs.getD i 0 + c * c * (q ⬝ᵥ q) := by
  have hright : q ⬝ᵥ combine cs us = 0 :=
    dotProduct_combine (fun u hu => (dotProduct_comm q u).trans (hq u hu)) cs
  rw [add_dotProduct, dotProduct_add, dotProduct_add, smul_dotProduct, dotProduct_smul,
    smul_dotProduct, dotProduct_smul, h.combine_mul_self hcs, hright, dotProduct_comm _ q, hright]
  simp only [smul_eq_mul]
  ring

/-! ### Rotations -/

/-- Two vectors turned by a plane rotation: the one that is left behind, and the one carried on. -/
def turnPair (c s : α) (q v : Fin n → α) : (Fin n → α) × (Fin n → α) :=
  (c • q + s • v, -s • q + c • v)

/-- A vector carried through rotations, each with the next vector of a list. -/
def turn (q : Fin n → α) : List (α × α) → List (Fin n → α) → List (Fin n → α) × (Fin n → α)
  | (c, s) :: rotations, v :: vs =>
    let (us, out) := turn (turnPair c s q v).2 rotations vs
    ((turnPair c s q v).1 :: us, out)
  | _, _ => ([], q)

/-- Cosines and sines. -/
def AreRotations (rotations : List (α × α)) : Prop :=
  ∀ p ∈ rotations, p.1 * p.1 + p.2 * p.2 = 1

/-- Coordinates and vectors turned alike make the same sum. -/
theorem turnPair_sum {c s : α} (h : c * c + s * s = 1) (q v : Fin n → α) (a b : α) :
    (c * a + s * b) • (turnPair c s q v).1 + (-s * a + c * b) • (turnPair c s q v).2 =
      a • q + b • v := by
  funext i
  simp only [turnPair, Pi.add_apply, Pi.smul_apply, smul_eq_mul]
  linear_combination (a * q i + b * v i) * h

theorem length_turn (q : Fin n → α) {rotations : List (α × α)} {vs : List (Fin n → α)}
    (h : rotations.length = vs.length) : (turn q rotations vs).1.length = vs.length := by
  induction rotations generalizing q vs with
  | nil =>
    obtain rfl := List.length_eq_zero_iff.1 h.symm
    rfl
  | cons p rotations ih =>
    cases vs with
    | nil => simp at h
    | cons v vs => simpa [turn] using ih _ (by simpa using h)

/-- One more rotation turns what has been carried out. -/
theorem turn_concat (q v : Fin n → α) (c s : α) {rotations : List (α × α)}
    {vs : List (Fin n → α)} (h : rotations.length = vs.length) :
    turn q (rotations ++ [(c, s)]) (vs ++ [v]) =
      ((turn q rotations vs).1 ++ [(turnPair c s (turn q rotations vs).2 v).1],
        (turnPair c s (turn q rotations vs).2 v).2) := by
  induction rotations generalizing q vs with
  | nil =>
    obtain rfl := List.length_eq_zero_iff.1 h.symm
    rfl
  | cons p rotations ih =>
    cases vs with
    | nil => simp at h
    | cons w vs =>
      simp only [List.cons_append, turn, ih _ (Nat.succ.inj h)]

/-- What is at a right angle to all vectors is so to the turned ones. -/
theorem dotProduct_turn {x q : Fin n → α} (hq : x ⬝ᵥ q = 0) {vs : List (Fin n → α)}
    (hvs : ∀ v ∈ vs, x ⬝ᵥ v = 0) (rotations : List (α × α)) :
    (∀ u ∈ (turn q rotations vs).1, x ⬝ᵥ u = 0) ∧ x ⬝ᵥ (turn q rotations vs).2 = 0 := by
  induction rotations generalizing q vs with
  | nil => exact ⟨by simp [turn], hq⟩
  | cons p rotations ih =>
    cases vs with
    | nil => exact ⟨by simp [turn], hq⟩
    | cons v vs =>
      obtain ⟨c, s⟩ := p
      have hv := hvs v List.mem_cons_self
      obtain ⟨hrest, hout⟩ := ih (q := (turnPair c s q v).2)
        (by simp [turnPair, dotProduct_add, hq, hv]) fun w hw => hvs w (List.mem_cons_of_mem _ hw)
      refine ⟨List.forall_mem_cons.2 ⟨?_, hrest⟩, hout⟩
      simp [turnPair, dotProduct_add, hq, hv]

/-- **A frame and a vector at a right angle to it, turned by one more rotation**, are a larger frame
and such a vector. -/
theorem IsFrame.turnPair {us : List (Fin n → α)} (h : IsFrame us) {q v : Fin n → α} {c s : α}
    (hcs : c * c + s * s = 1) (hq : q ⬝ᵥ q = 1) (hv : v ⬝ᵥ v = 1) (hqv : q ⬝ᵥ v = 0)
    (hapart : ∀ u ∈ us, u ⬝ᵥ q = 0) (hnew : ∀ u ∈ us, u ⬝ᵥ v = 0) :
    IsFrame (us ++ [(turnPair c s q v).1]) ∧
      (turnPair c s q v).2 ⬝ᵥ (turnPair c s q v).2 = 1 ∧
      ∀ u ∈ us ++ [(turnPair c s q v).1], u ⬝ᵥ (turnPair c s q v).2 = 0 := by
  have hvq : v ⬝ᵥ q = 0 := (dotProduct_comm v q).trans hqv
  refine ⟨h.concat ?_ fun u hu => ?_, ?_, fun u hu => ?_⟩
  · simp [Frames.turnPair, dotProduct_add, add_dotProduct, hq, hv, hqv, hvq, hcs]
  · simp [Frames.turnPair, dotProduct_add, hapart u hu, hnew u hu]
  · simp [Frames.turnPair, dotProduct_add, add_dotProduct, hq, hv, hqv, hvq, add_comm, hcs]
  · rcases List.mem_append.1 hu with hu | hu
    · simp [Frames.turnPair, dotProduct_add, hapart u hu, hnew u hu]
    · obtain rfl := List.mem_singleton.1 hu
      simp [Frames.turnPair, dotProduct_add, add_dotProduct, hq, hv, hqv, hvq, mul_comm]

end Mdao.Frames
