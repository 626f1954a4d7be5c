import Mdao.Scalar
import Mdao.Span

/-!
# Flat vectors

A vector is an array of scalars; an entry outside the array reads as zero. The one way in which
this library adds into a vector is `scatter`: a list of contributions, each an index and a number,
is added one after the other. Matrix products, assembled matrices and transposed products are all
scatters, so one lemma about the entries of a scatter serves them all.
-/

namespace Mdao.Vec

variable {α : Type}

/-- The vector of `n` zeros. -/
def zeros [Zero α] (n : Nat) : Array α := Array.replicate n 0

/-- The entry at an index, zero outside. -/
def entry [Zero α] (x : Array α) (i : Nat) : α := x.getD i 0

/-- The vector of the first `n` values of a function. -/
def tabulate (n : Nat) (f : Nat → α) : Array α := ((List.range n).map f).toArray

/-- The sum from left to right. It starts at minus zero, the number whose addition changes no other
number. -/
def sum [Scalar α] (x : List α) : α := x.foldl (· + ·) (-0)

/-- The sum of the products of corresponding entries. -/
def dot [Scalar α] (x y : Array α) : α :=
  sum (List.zipWith (· * ·) x.toList y.toList)

/-- The Euclidean norm. -/
def norm [Scalar α] (x : Array α) : α :=
  Scalar.sqrt (sum (x.toList.map fun v => v * v))

/-- The difference of two vectors. -/
def sub [Scalar α] (x y : Array α) : Array α := Array.zipWith (· - ·) x y

/-- The sum of two vectors. -/
def add [Scalar α] (x y : Array α) : Array α := Array.zipWith (· + ·) x y

/-- The unit vector of length `n` in direction `i`. -/
def unit [Zero α] [One α] (n i : Nat) : Array α := (zeros n).setIfInBounds i 1

/-- Adds each contribution to the entry at its index, one after the other. -/
def scatter [Add α] (x : Array α) (contributions : List (Nat × α)) : Array α :=
  contributions.foldl (fun y c => y.modify c.1 (· + c.2)) x

/-- The entries of a span. -/
def slice [Zero α] (x : Array α) (s : Span) : Array α :=
  (s.indices.map (entry x)).toArray

/-- Writes `y` over the entries of a span; where `y` ends early the old entries stay. -/
def splice [Zero α] (x : Array α) (s : Span) (y : Array α) : Array α :=
  x.mapIdx fun i v => if s.contains i then y.getD (i - s.start) v else v

/-- The entries of `y` in the length of `x`; where `y` ends early those of `x` stay. -/
def overlay (x y : Array α) : Array α := x.mapIdx fun i v => y.getD i v

/-- The contributions of a matrix, given by its rows, to a product. -/
def rowContributions [Scalar α] (m : List (List α)) (x : Array α) : List (Nat × α) :=
  m.zipIdx.flatMap fun (row, r) => row.zipIdx.map fun (v, c) => (r, v * entry x c)

/-- The contributions of a matrix, given by its rows, to a product with its transpose. -/
def columnContributions [Scalar α] (m : List (List α)) (x : Array α) : List (Nat × α) :=
  m.zipIdx.flatMap fun (row, r) => row.zipIdx.map fun (v, c) => (c, v * entry x r)

@[simp] theorem size_zeros [Zero α] (n : Nat) : (zeros n : Array α).size = n := by
  simp [zeros]

@[simp] theorem size_tabulate (n : Nat) (f : Nat → α) : (tabulate n f).size = n := by
  simp [tabulate]

@[simp] theorem size_scatter [Add α] (x : Array α) (cs : List (Nat × α)) :
    (scatter x cs).size = x.size := by
  unfold scatter
  induction cs generalizing x with
  | nil => rfl
  | cons c cs ih => simp [List.foldl_cons, ih]

@[simp] theorem size_slice [Zero α] (x : Array α) (s : Span) : (slice x s).size = s.size := by
  simp [slice]

@[simp] theorem size_splice [Zero α] (x : Array α) (s : Span) (y : Array α) :
    (splice x s y).size = x.size := by
  simp [splice]

@[simp] theorem size_overlay (x y : Array α) : (overlay x y).size = x.size := by
  simp [overlay]

end Mdao.Vec
