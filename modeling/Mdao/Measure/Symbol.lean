import Mdao.Scalar

/-!
# Unit symbols and dimensions

The dimension of a quantity is an exponent for each of six base dimensions. Exponents are 32 bit
words, so a power that leaves their range wraps around. The known symbols come with their size in base
units, the zero point of those that measure from one, and their dimension.
-/

namespace Mdao

/-- Exponents of the six base dimensions. -/
structure Dimension where
  /-- Exponent of length. -/
  length : Int32 := 0
  /-- Exponent of mass. -/
  mass : Int32 := 0
  /-- Exponent of time. -/
  time : Int32 := 0
  /-- Exponent of temperature. -/
  temperature : Int32 := 0
  /-- Exponent of plane angle. -/
  angle : Int32 := 0
  /-- Exponent of electric current. -/
  current : Int32 := 0
  deriving DecidableEq, Repr, Inhabited

namespace Dimension

/-- The dimension of a plain number. -/
def none : Dimension := {}

/-- The dimension of a product. -/
def mul (a b : Dimension) : Dimension :=
  ⟨a.length + b.length, a.mass + b.mass, a.time + b.time, a.temperature + b.temperature,
    a.angle + b.angle, a.current + b.current⟩

/-- The dimension of a power. -/
def pow (a : Dimension) (n : Int32) : Dimension :=
  ⟨a.length * n, a.mass * n, a.time * n, a.temperature * n, a.angle * n, a.current * n⟩

end Dimension

/-- A unit symbol: `scale · (value + offset / scale)` base units are `value` of this unit. -/
structure UnitSymbol (α : Type) where
  /-- How the unit is written. -/
  name : String
  /-- The size of the unit in base units. -/
  scale : α
  /-- The zero point of the unit in base units. -/
  offset : α
  /-- What the unit measures. -/
  dimension : Dimension

namespace UnitSymbol

variable {α : Type} [Scalar α]

/-- The ratio of a circle's circumference to its diameter, in double precision. -/
def pi : α := 3.141592653589793

/-- Every known symbol. -/
def all : List (UnitSymbol α) :=
  let length : Dimension := { length := 1 }
  let mass : Dimension := { mass := 1 }
  let time : Dimension := { time := 1 }
  let temperature : Dimension := { temperature := 1 }
  let angle : Dimension := { angle := 1 }
  let current : Dimension := { current := 1 }
  let frequency : Dimension := { time := -1 }
  let force : Dimension := { length := 1, mass := 1, time := -2 }
  let pressure : Dimension := { length := -1, mass := 1, time := -2 }
  let energy : Dimension := { length := 2, mass := 1, time := -2 }
  let power : Dimension := { length := 2, mass := 1, time := -3 }
  let voltage : Dimension := { length := 2, mass := 1, time := -3, current := -1 }
  [⟨"unitless", 1.0, 0.0, .none⟩,
    ⟨"percent", 0.01, 0.0, .none⟩,
    ⟨"m", 1.0, 0.0, length⟩,
    ⟨"cm", 0.01, 0.0, length⟩,
    ⟨"mm", 1e-3, 0.0, length⟩,
    ⟨"km", 1e3, 0.0, length⟩,
    ⟨"inch", 0.0254, 0.0, length⟩,
    ⟨"ft", 0.3048, 0.0, length⟩,
    ⟨"mi", 1609.344, 0.0, length⟩,
    ⟨"kg", 1.0, 0.0, mass⟩,
    ⟨"g", 1e-3, 0.0, mass⟩,
    ⟨"lbm", 0.45359237, 0.0, mass⟩,
    ⟨"s", 1.0, 0.0, time⟩,
    ⟨"ms", 1e-3, 0.0, time⟩,
    ⟨"min", 60.0, 0.0, time⟩,
    ⟨"h", 3600.0, 0.0, time⟩,
    ⟨"K", 1.0, 0.0, temperature⟩,
    ⟨"degR", 5.0 / 9.0, 0.0, temperature⟩,
    ⟨"degC", 1.0, 273.15, temperature⟩,
    ⟨"degF", 5.0 / 9.0, 459.67 * 5.0 / 9.0, temperature⟩,
    ⟨"rad", 1.0, 0.0, angle⟩,
    ⟨"deg", pi / 180.0, 0.0, angle⟩,
    ⟨"A", 1.0, 0.0, current⟩,
    ⟨"Hz", 1.0, 0.0, frequency⟩,
    ⟨"N", 1.0, 0.0, force⟩,
    ⟨"kN", 1e3, 0.0, force⟩,
    ⟨"lbf", 4.4482216152605, 0.0, force⟩,
    ⟨"Pa", 1.0, 0.0, pressure⟩,
    ⟨"kPa", 1e3, 0.0, pressure⟩,
    ⟨"MPa", 1e6, 0.0, pressure⟩,
    ⟨"bar", 1e5, 0.0, pressure⟩,
    ⟨"atm", 101325.0, 0.0, pressure⟩,
    ⟨"psi", 6894.757293168361, 0.0, pressure⟩,
    ⟨"J", 1.0, 0.0, energy⟩,
    ⟨"kJ", 1e3, 0.0, energy⟩,
    ⟨"W", 1.0, 0.0, power⟩,
    ⟨"kW", 1e3, 0.0, power⟩,
    ⟨"V", 1.0, 0.0, voltage⟩]

/-- The symbol written as `name`. -/
def find? (name : String) : Option (UnitSymbol α) :=
  all.find? (fun s => s.name == name)

end UnitSymbol

end Mdao
