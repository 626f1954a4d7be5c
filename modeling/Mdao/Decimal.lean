import Mdao.Scalar.Binary64

/-!
# Decimals of doubles

A `Decimal` is `± digits · 10 ^ exponent`. Three ways lead to one from a finite double, all by
exact arithmetic on its binary parts:

* `Decimal.significant` keeps a number of leading digits, a tie to the even neighbor;
* `Decimal.fixed` keeps a number of places after the point, with the same rule for ties;
* `Decimal.shortest` keeps the fewest digits that read back as the same double.

`Decimal.positional` and `Decimal.scientific` write one as text.
-/

namespace Mdao

/-- The number `± digits · 10 ^ exponent`. -/
structure Decimal where
  /-- Whether a minus sign stands in front. -/
  negative : Bool
  /-- The digits as one whole number. -/
  digits : Nat
  /-- The power of ten of the last digit. -/
  exponent : Int
  deriving DecidableEq, Repr, Inhabited

namespace Decimal

/-- The nearest whole number to `num / den`, a tie to the even one. -/
def roundDiv (num den : Nat) : Nat :=
  let q := num / den
  let r := num % den
  if den < 2 * r || (den == 2 * r && q % 2 == 1) then q + 1 else q

/-- The double nearest to a decimal. -/
def toFloat (d : Decimal) : Float :=
  let x := Binary64.ofDecimal d.digits d.exponent
  if d.negative then -x else x

/-- A number `m · 2 ^ q` as a quotient of whole numbers. -/
def ratio (m : Nat) (q : Int) : Nat × Nat :=
  if q < 0 then (m, Nat.pow 2 q.natAbs) else (m * Nat.pow 2 q.natAbs, 1)

/-- `num / den` in units of `10 ^ e`, as a quotient. -/
def inUnits (num den : Nat) (e : Int) : Nat × Nat :=
  if e < 0 then (num * Nat.pow 10 e.natAbs, den) else (num, den * Nat.pow 10 e.natAbs)

/-- The number of decimal digits of a whole number, at least one. -/
def digitCount (n : Nat) : Nat :=
  (Nat.toDigits 10 n).length

/-- The power of ten of the leading digit of `num / den`, for positive `num` and `den`. -/
def leadingPower (num den : Nat) : Int :=
  if den ≤ num then digitCount (num / den) - 1
  else
    -- The reciprocal lies in `[10 ^ k, 10 ^ (k + 1))`, so the number in `(10 ^ -(k + 1), 10 ^ -k]`.
    let k := digitCount (den / num) - 1
    if num * Nat.pow 10 k = den then -(k : Int) else -(k : Int) - 1

/-- The `n` leading digits of `num / den`, rounded. -/
def leadingDigits (n : Nat) (negative : Bool) (num den : Nat) : Decimal :=
  if num = 0 then ⟨negative, 0, 0⟩
  else
    let e := leadingPower num den - (n : Int) + 1
    let (a, b) := inUnits num den e
    ⟨negative, roundDiv a b, e⟩

/-- The `n` leading digits of a finite double, rounded from its exact value. -/
def significant (n : Nat) (x : Float) : Decimal :=
  let (negative, m, q) := Binary64.parts x
  let (num, den) := ratio m q
  leadingDigits n negative num den

/-- A finite double with `places` digits after the point, rounded from its exact value. -/
def fixed (places : Nat) (x : Float) : Decimal :=
  let (negative, m, q) := Binary64.parts x
  let (num, den) := ratio m q
  ⟨negative, roundDiv (num * Nat.pow 10 places) den, -(places : Int)⟩

/-- The decimals with `n` leading digits next to `num / den`, the nearer one first. -/
def neighbors (n : Nat) (negative : Bool) (num den : Nat) : List Decimal :=
  let e := leadingPower num den - (n : Int) + 1
  let (a, b) := inUnits num den e
  let below := a / b
  let r := a % b
  let up := b < 2 * r || (b == 2 * r && below % 2 == 1)
  if up then [⟨negative, below + 1, e⟩, ⟨negative, below, e⟩]
  else [⟨negative, below, e⟩, ⟨negative, below + 1, e⟩]

/-- The first of a list of digit counts that has a neighbor which reads back as `x`. -/
def shortestFrom (x : Float) (negative : Bool) (num den : Nat) : List Nat → Decimal
  | [] => leadingDigits 17 negative num den
  | n :: rest =>
    match (neighbors n negative num den).find? (fun d => d.toFloat.toBits == x.toBits) with
    | some d => d
    | none => shortestFrom x negative num den rest

/-- Drops zeros at the end of the digits. -/
def trimZeros : Nat → Decimal → Decimal
  | 0, d => d
  | fuel + 1, d =>
    if d.digits ≠ 0 ∧ d.digits % 10 = 0 then
      trimZeros fuel ⟨d.negative, d.digits / 10, d.exponent + 1⟩
    else d

/-- A decimal without zeros at the end of its digits. -/
def trimmed (d : Decimal) : Decimal :=
  trimZeros (digitCount d.digits) d

/-- The fewest digits that read back as the finite double `x`. -/
def shortest (x : Float) : Decimal :=
  let (negative, m, q) := Binary64.parts x
  if m = 0 then ⟨negative, 0, 0⟩
  else
    let (num, den) := ratio m q
    trimmed (shortestFrom x negative num den (List.range' 1 17))

/-- The digits as text. -/
def digitText (d : Decimal) : String :=
  String.ofList (Nat.toDigits 10 d.digits)

/-- A run of zeros. -/
def zeros (n : Nat) : String :=
  String.ofList (List.replicate n '0')

/-- The magnitude in positional notation, with a point only when a digit follows it. -/
def magnitude (d : Decimal) : String :=
  let s := digitText d
  if 0 ≤ d.exponent then
    if d.digits = 0 then "0" else s ++ zeros d.exponent.natAbs
  else
    let places := d.exponent.natAbs
    let s := if s.length ≤ places then zeros (places + 1 - s.length) ++ s else s
    let whole := s.toList.take (s.length - places)
    let part := s.toList.drop (s.length - places)
    String.ofList (whole ++ '.' :: part)

/-- Positional notation. -/
def positional (d : Decimal) : String :=
  if d.negative then "-" ++ magnitude d else magnitude d

/-- One digit, a point, the other digits, and the exponent after `e`. -/
def scientific (d : Decimal) : String :=
  let cs := Nat.toDigits 10 d.digits
  let e : Int := d.exponent + (cs.length : Int) - 1
  let mantissa := match cs with
    | [c] => String.ofList [c]
    | c :: rest => String.ofList (c :: '.' :: rest)
    | [] => "0"
  let sign := if d.negative then "-" else ""
  let power := if e < 0 then "-" ++ toString e.natAbs else toString e.natAbs
  sign ++ mantissa ++ "e" ++ power

/-- A double in positional notation with the fewest digits that read back. -/
def display (x : Float) : String :=
  if x.isNaN then "NaN"
  else if x.isInf then if x < 0 then "-inf" else "inf"
  else positional (shortest x)

/-- A decimal as data formats write it: always with a point or an exponent, positional for exponents
from `10⁻⁵` to `10¹⁵`. -/
def compact (d : Decimal) : String :=
  let sign := if d.negative then "-" else ""
  let n : Int := (digitText d).length
  let point := n + d.exponent
  if d.digits = 0 then sign ++ "0.0"
  else if 0 ≤ d.exponent && point ≤ 16 then sign ++ magnitude d ++ ".0"
  else if -5 < point && point ≤ 16 then sign ++ magnitude d
  else scientific d

end Decimal

/-- Numbers that can be written in a message. -/
class Shown (α : Type) where
  /-- The text of a number. -/
  shown : α → String

instance : Shown Float := ⟨Decimal.display⟩

end Mdao
