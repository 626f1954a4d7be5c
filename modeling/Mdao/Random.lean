import Mdao.Scalar

/-!
# Random numbers

A small generator of 64-bit words: a counter in steps of an odd constant, each value mixed by shifts
and products. It serves to fill matrices with numbers that satisfy no equation by accident.
-/

namespace Mdao

/-- The state of a generator. -/
structure Random where
  /-- The counter. -/
  counter : UInt64
  deriving DecidableEq, Repr

namespace Random

/-- The generator of a seed. -/
def seeded (seed : UInt64) : Random := ⟨seed⟩

/-- The words of a counter are mixed so that nearby counters give unrelated words. -/
def mix (z : UInt64) : UInt64 :=
  let z := (z ^^^ (z >>> 30)) * 0xBF58476D1CE4E5B9
  let z := (z ^^^ (z >>> 27)) * 0x94D049BB133111EB
  z ^^^ (z >>> 31)

/-- The next word. -/
def word (r : Random) : UInt64 × Random :=
  let counter := r.counter + 0x9E3779B97F4A7C15
  (mix counter, ⟨counter⟩)

variable {α : Type} [Scalar α]

/-- A number from 1 up to and without 2, by the 53 leading bits of a word. -/
def between1and2 (r : Random) : α × Random :=
  let (w, r) := r.word
  (1 + ((w >>> 11).toNat : α) / ((Nat.pow 2 53 : Nat) : α), r)

/-- A list of numbers from 1 up to and without 2. -/
def listBetween1and2 (r : Random) : Nat → List α × Random
  | 0 => ([], r)
  | n + 1 =>
    let (x, next) := (r.between1and2 : α × Random)
    let (xs, last) := next.listBetween1and2 n
    (x :: xs, last)

end Random

end Mdao
