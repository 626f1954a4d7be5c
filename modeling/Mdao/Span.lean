/-!
# Spans of consecutive indices

Variables, units and solver blocks each own a run of consecutive places in some buffer. A `Span`
is such a run, from `start` up to and without `stop`.
-/

namespace Mdao

/-- The indices from `start` up to and without `stop`. -/
structure Span where
  /-- The first index. -/
  start : Nat
  /-- The first index after the run. -/
  stop : Nat
  deriving DecidableEq, Repr, Inhabited

namespace Span

/-- The number of indices. -/
def size (s : Span) : Nat := s.stop - s.start

/-- Whether there are no indices. -/
def isEmpty (s : Span) : Bool := s.stop ≤ s.start

/-- Membership, decided by two comparisons. -/
def contains (s : Span) (i : Nat) : Bool := s.start ≤ i && i < s.stop

instance : Membership Nat Span := ⟨fun s i => s.start ≤ i ∧ i < s.stop⟩

instance (s : Span) (i : Nat) : Decidable (i ∈ s) :=
  inferInstanceAs (Decidable (s.start ≤ i ∧ i < s.stop))

/-- The indices in increasing order. -/
def indices (s : Span) : List Nat := List.range' s.start s.size

/-- The run moved down so that index `origin` becomes 0. -/
def relativeTo (s : Span) (origin : Nat) : Span := ⟨s.start - origin, s.stop - origin⟩

/-- The first `n` indices. -/
def upTo (n : Nat) : Span := ⟨0, n⟩

theorem contains_iff {s : Span} {i : Nat} : s.contains i = true ↔ i ∈ s := by
  show (decide (s.start ≤ i) && decide (i < s.stop)) = true ↔ s.start ≤ i ∧ i < s.stop
  simp

theorem mem_indices {s : Span} {i : Nat} : i ∈ s.indices ↔ i ∈ s := by
  show i ∈ List.range' s.start (s.stop - s.start) ↔ s.start ≤ i ∧ i < s.stop
  simp only [List.mem_range'_1]
  omega

@[simp] theorem length_indices (s : Span) : s.indices.length = s.size := by
  simp [indices]

end Span

end Mdao
