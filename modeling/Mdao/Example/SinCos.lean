import Mdao.Complex
import Mdao.Discipline

/-!
# A cycle of two units

The discipline `sine` computes `z = sin y`, and `cosBalance` determines `y` from
`cos (x y) = z y`. Connected to each other they ask for the root of `cos (x y) = y sin y`, which
`referenceRoot` finds by itself.
-/

namespace Mdao.Example

variable {α : Type} [Elementary α]

/-- `z = sin y`, also at complex points. -/
def sine : ExplicitDiscipline α :=
  { (ExplicitDiscipline.blank : ExplicitDiscipline α) with
    inputs := [(Variable.named "y").withValue #[1]]
    outputs := [Variable.named "z"]
    partials := [.dense "z" "y"]
    complexStep := true
    compute := fun inputs outputs =>
      .ok ⟨⟩ (outputs.setEntry "z" 0 (Elementary.sin (inputs.value "y"))).data
    computeComplex := fun inputs outputs =>
      .ok ⟨⟩ (outputs.setEntry "z" 0 (Complex.sin (inputs.value "y"))).data
    linearize := fun inputs =>
      ⟨[.block "z" "y" #[Elementary.cos (inputs.value "y")]], none, none⟩ }

/-- `cos (x y) - z y = 0`, which determines `y`. -/
def cosBalance : ImplicitDiscipline α :=
  { (ImplicitDiscipline.blank : ImplicitDiscipline α) with
    inputs := [(Variable.named "x").withValue #[1], Variable.named "z"]
    outputs := [(Variable.named "y").withValue #[1]]
    partials := [.dense "y" "*"]
    residuals := fun inputs outputs residuals =>
      let x := inputs.value "x"
      let z := inputs.value "z"
      let y := outputs.value "y"
      .ok ⟨⟩ (residuals.setEntry "y" 0 (Elementary.cos (x * y) - z * y)).data
    linearize := fun inputs outputs =>
      let x := inputs.value "x"
      let z := inputs.value "z"
      let y := outputs.value "y"
      let s := Elementary.sin (x * y)
      ⟨[.block "y" "x" #[-y * s], .block "y" "z" #[-y], .block "y" "y" #[-x * s - z]],
        none, none⟩ }

/-- One Newton step for the root of `cos (x y) - y sin y`. -/
def rootStep (x y : α) : α :=
  let r := Elementary.cos (x * y) - Elementary.sin y * y
  let slope := -x * Elementary.sin (x * y) - Elementary.cos y * y - Elementary.sin y
  y - r / slope

/-- The root of `cos (x y) - y sin y` by fifty Newton steps from one. -/
def referenceRoot (x : α) : α := Nat.repeat (rootStep x) 50 1

end Mdao.Example
