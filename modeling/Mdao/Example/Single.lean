import Mdao.Complex
import Mdao.Discipline

/-!
# Single units

A paraboloid with exact derivatives, a unit with a bound that a Newton step runs into, and a wavy
function whose derivative is approximated.
-/

namespace Mdao.Example

variable {α : Type} [Elementary α]

/-- `f = (x - 3)² + x y + (y + 4)² - 3`. -/
def paraboloid : ExplicitDiscipline α :=
  { (ExplicitDiscipline.blank : ExplicitDiscipline α) with
    inputs := [Variable.named "x", Variable.named "y"]
    outputs := [Variable.named "f"]
    partials := [.dense "f" "*"]
    compute := fun inputs outputs =>
      let x := inputs.value "x"
      let y := inputs.value "y"
      .ok ⟨⟩ (outputs.setEntry "f" 0
        ((x - 3.0) * (x - 3.0) + x * y + (y + 4.0) * (y + 4.0) - 3.0)).data
    linearize := fun inputs =>
      let x := inputs.value "x"
      let y := inputs.value "y"
      ⟨[.block "f" "x" #[2.0 * x - 6.0 + y], .block "f" "y" #[2.0 * y + 8.0 + x]],
        none, none⟩ }

/-- `z² - 4 = 0` with `z ≤ 1.5`, and `w - 3 = 0` without a bound. -/
def bounded : ImplicitDiscipline α :=
  { (ImplicitDiscipline.blank : ImplicitDiscipline α) with
    outputs :=
      [((Variable.named "z").withValue #[1]).withUpper 1.5, (Variable.named "w").withValue #[0]]
    partials := [.dense "z" "z", { PartialDeclaration.dense "w" "w" with constant := some #[1] }]
    residuals := fun _ outputs residuals =>
      let z := outputs.value "z"
      let w := outputs.value "w"
      .ok ⟨⟩ ((residuals.setEntry "z" 0 (z * z - 4.0)).setEntry "w" 0 (w - 3.0)).data
    linearize := fun _ outputs =>
      ⟨[.block "z" "z" #[2.0 * outputs.value "z"]], none, none⟩ }

/-- `y = eˣ sin x`, its derivative approximated by a method. -/
def wavy (method : Method α) : ExplicitDiscipline α :=
  { (ExplicitDiscipline.blank : ExplicitDiscipline α) with
    inputs := [(Variable.named "x").withValue #[0.7]]
    outputs := [Variable.named "y"]
    partials := [{ PartialDeclaration.dense "y" "x" with method := method }]
    complexStep := true
    compute := fun inputs outputs =>
      let x := inputs.value "x"
      .ok ⟨⟩ (outputs.setEntry "y" 0 (Elementary.exp x * Elementary.sin x)).data
    computeComplex := fun inputs outputs =>
      let x := inputs.value "x"
      .ok ⟨⟩ (outputs.setEntry "y" 0 (Complex.exp x * Complex.sin x)).data }

/-- The derivative of `eˣ sin x`. -/
def wavySlope (x : α) : α := Elementary.exp x * (Elementary.sin x + Elementary.cos x)

/-- `y = 2 x` with a dense derivative that is never written, and only the capabilities given. -/
def doubling (complexStep : Bool) : ExplicitDiscipline α :=
  { (ExplicitDiscipline.blank : ExplicitDiscipline α) with
    inputs := [Variable.named "x"]
    outputs := [Variable.named "y"]
    partials := [.dense "y" "x"]
    complexStep := complexStep
    compute := fun inputs outputs =>
      .ok ⟨⟩ (outputs.setEntry "y" 0 (2.0 * inputs.value "x")).data }

/-- `y - 2 x = 0` with dense derivatives that are never written, and only the capabilities given. -/
def doubleBalance (capabilities : Capabilities) : ImplicitDiscipline α :=
  { (ImplicitDiscipline.blank : ImplicitDiscipline α) with
    inputs := [Variable.named "x"]
    outputs := [Variable.named "y"]
    partials := [.dense "y" "*"]
    capabilities := capabilities
    residuals := fun inputs outputs residuals =>
      .ok ⟨⟩ (residuals.setEntry "y" 0 (outputs.value "y" - 2.0 * inputs.value "x")).data }

end Mdao.Example
