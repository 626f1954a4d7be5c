import Mdao.Scalar

/-!
# Complex numbers over scalars

A complex number is a pair of scalars. A formula evaluated at `x + i h` carries its derivative in
the imaginary part, which is what the complex step reads off; the definitions below keep a real
argument real and keep a tiny imaginary part exact as far as the operation allows.
-/

namespace Mdao

/-- A complex number by its parts. -/
structure Complex (α : Type) where
  /-- Real part. -/
  re : α
  /-- Imaginary part. -/
  im : α
  deriving Inhabited

namespace Complex

variable {α : Type}

/-- A real number as a complex one. -/
def ofReal [Scalar α] (x : α) : Complex α := ⟨x, 0⟩

instance [Scalar α] : Zero (Complex α) := ⟨ofReal 0⟩

instance [Scalar α] : Add (Complex α) := ⟨fun a b => ⟨a.re + b.re, a.im + b.im⟩⟩

instance [Scalar α] : Sub (Complex α) := ⟨fun a b => ⟨a.re - b.re, a.im - b.im⟩⟩

instance [Scalar α] : Neg (Complex α) := ⟨fun a => ⟨-a.re, -a.im⟩⟩

instance [Scalar α] : Mul (Complex α) :=
  ⟨fun a b => ⟨a.re * b.re - a.im * b.im, a.re * b.im + a.im * b.re⟩⟩

/-- Division multiplies by the conjugate and divides by the squared length. -/
instance [Scalar α] : Div (Complex α) :=
  ⟨fun a b =>
    let n := b.re * b.re + b.im * b.im
    ⟨(a.re * b.re + a.im * b.im) / n, (a.im * b.re - a.re * b.im) / n⟩⟩

variable [Elementary α]

/-- The number of length `r` at angle `θ`. -/
def polar (r θ : α) : Complex α :=
  ⟨r * Elementary.cos θ, r * Elementary.sin θ⟩

/-- The sine. -/
def sin (a : Complex α) : Complex α :=
  ⟨Elementary.sin a.re * Elementary.cosh a.im, Elementary.cos a.re * Elementary.sinh a.im⟩

/-- The cosine. -/
def cos (a : Complex α) : Complex α :=
  ⟨Elementary.cos a.re * Elementary.cosh a.im, -Elementary.sin a.re * Elementary.sinh a.im⟩

/-- The exponential; an infinite or undefined real part keeps a real argument real. -/
def exp (a : Complex α) : Complex α :=
  if Elementary.isInfinite a.re && a.re < 0 && !Scalar.isFinite a.im then ⟨0, 0⟩
  else if Elementary.isInfinite a.re && !(a.re < 0) && (a.im == 0 || !Scalar.isFinite a.im) then
    ⟨a.re, if Elementary.isInfinite a.im then Elementary.undefined else a.im⟩
  else if Scalar.isUndefined a.re && a.im == 0 then a
  else polar (Elementary.exp a.re) a.im

/-- The principal square root, on the cut along the negative axis by the sign of the imaginary
zero. -/
def sqrt (a : Complex α) : Complex α :=
  if a.im == 0 then
    if Elementary.isSignPositive a.re then ⟨Scalar.sqrt a.re, a.im⟩
    else
      let s := Scalar.sqrt (-a.re)
      ⟨0, if Elementary.isSignPositive a.im then s else -s⟩
  else if a.re == 0 then
    let s := Scalar.sqrt (Scalar.abs a.im / 2.0)
    ⟨s, if Elementary.isSignPositive a.im then s else -s⟩
  else
    polar (Scalar.sqrt (Scalar.hypot a.re a.im)) (Elementary.atan2 a.im a.re / 2.0)

end Complex

end Mdao
