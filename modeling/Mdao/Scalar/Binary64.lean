import Mdao.Scalar

/-!
# Double precision as scalars

The numbers a program runs with. A finite double is `± m · 2 ^ q` with whole `m` and `q`, and
`parts` takes it apart; `ofRatio` and `ofDecimal` go the other way and round to the nearest double,
a tie to the even one, by exact arithmetic on natural numbers.
-/

namespace Mdao.Binary64

/-- The double nearest to `num / den`, a tie to the even neighbor. -/
def ofRatio (num den : Nat) : Float :=
  if num = 0 then 0 else
    let guess : Int := (num.log2 : Int) - (den.log2 : Int) - 53
    let quotient (q : Int) : Nat × Nat × Nat :=
      let n := if q < 0 then num * Nat.pow 2 q.natAbs else num
      let d := if q < 0 then den else den * Nat.pow 2 q.natAbs
      (n / d, n % d, d)
    let q := if (quotient guess).1 < Nat.pow 2 53 then guess else guess + 1
    let q := if q < -1074 then -1074 else q
    let (m, r, d) := quotient q
    let up := d < 2 * r || (d == 2 * r && m % 2 == 1)
    (Float.ofNat (if up then m + 1 else m)).scaleB q

/-- The double nearest to `m · 10 ^ e`. -/
def ofDecimal (m : Nat) (e : Int) : Float :=
  if e < 0 then
    -- Below every positive double there is nothing left to tell apart.
    if m < Nat.pow 10 400 ∧ e < -1000 then 0 else ofRatio m (Nat.pow 10 e.natAbs)
  else if m = 0 then 0
  else if 400 < e then 1.0 / 0.0
  else ofRatio (m * Nat.pow 10 e.natAbs) 1

/-- Sign, mantissa and binary exponent of a finite double: `(negative, m, q)` for `± m · 2 ^ q`. -/
def parts (x : Float) : Bool × Nat × Int :=
  let bits := x.toBits.toNat
  let fraction : Nat := bits % Nat.pow 2 52
  let exponent : Nat := bits / Nat.pow 2 52 % Nat.pow 2 11
  (bits / Nat.pow 2 63 == 1,
    if exponent = 0 then fraction else Nat.pow 2 52 + fraction,
    if exponent = 0 then -1074 else (exponent : Int) - 1075)

/-- The place of a double in the total order: undefined numbers and both zeros have one, too. -/
def rank (x : Float) : Int :=
  let bits := x.toBits.toNat
  if bits < Nat.pow 2 63 then bits else -((bits - Nat.pow 2 63 : Nat) : Int) - 1

/-- Square root of the sum of two squares with one correction step, for legs `0 ≤ y ≤ x` whose
squares neither overflow nor vanish. -/
def hypotCore (x y : Float) : Float :=
  let h := (x * x + y * y).sqrt
  let excess :=
    if h ≤ 2.0 * y then
      let d := h - y
      x * (2.0 * d - x) + (d - 2.0 * (x - y)) * d
    else
      let d := h - x
      2.0 * d * (x - 2.0 * y) + ((4.0 * d - y) * y + d * d)
  h - excess / (2.0 * h)

/-- The length of the hypotenuse, without overflow or loss in between. -/
def hypot (a b : Float) : Float :=
  if !a.isFinite || !b.isFinite then
    if a.isInf || b.isInf then 1.0 / 0.0 else a + b
  else
    let a := a.abs
    let b := b.abs
    let x := if a < b then b else a
    let y := if a < b then a else b
    let tiny := (1.0 : Float).scaleB (-54)
    if (1.0 : Float).scaleB 511 < x then
      if y ≤ x * tiny then x + y
      else hypotCore (x.scaleB (-600)) (y.scaleB (-600)) |>.scaleB 600
    else if y < (1.0 : Float).scaleB (-459) then
      if y / tiny ≤ x then x + y
      else hypotCore (x.scaleB 600) (y.scaleB 600) |>.scaleB (-600)
    else if y ≤ x * tiny then x + y
    else hypotCore x y

instance : Scalar Float where
  zero := 0
  one := 1
  natCast := Float.ofNat
  ofScientific m negative e := ofDecimal m (if negative then -(e : Int) else e)
  decLt := inferInstance
  decLe := inferInstance
  abs := Float.abs
  sqrt := Float.sqrt
  hypot := hypot
  isFinite := Float.isFinite
  isUndefined := Float.isNaN
  lowest? := some (-1.0 / 0.0)
  highest? := some (1.0 / 0.0)
  totalLe x y := rank x ≤ rank y

instance : Elementary Float where
  sin := Float.sin
  cos := Float.cos
  exp := Float.exp
  sinh := Float.sinh
  cosh := Float.cosh
  atan2 := Float.atan2
  isSignPositive x := x.toBits < 0x8000000000000000
  isInfinite := Float.isInf
  undefined := 0.0 / 0.0

end Mdao.Binary64
