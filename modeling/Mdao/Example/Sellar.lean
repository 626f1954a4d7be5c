import Mdao.Decimal
import Mdao.Discipline

/-!
# Two coupled disciplines and an objective

The Sellar problem: `design` hands the design variables on, `discipline1` and `discipline2` depend
on each other, and `objective` is what an optimizer would minimize.
-/

namespace Mdao.Example

/-- A dense block whose values the declaration fixes. -/
def constantBlock {α : Type} (output wrt : String) (values : Array α) : PartialDeclaration α :=
  { PartialDeclaration.dense output wrt with constant := some values }

variable {α : Type} [Elementary α]

/-- A variable of two entries. -/
def pair (name : String) : Variable α := (Variable.named name).withShape [2]

/-- Hands `x` and `z` on. -/
def design : ExplicitDiscipline α :=
  { (ExplicitDiscipline.blank : ExplicitDiscipline α) with
    inputs := [(Variable.named "x").withValue #[1], (pair "z").withValue #[5.0, 2.0]]
    outputs := [Variable.named "x_out", pair "z_out"]
    partials :=
      [constantBlock "x_out" "x" #[1],
        { constantBlock "z_out" "z" #[1, 1] with sparsity := .sparse [0, 1] [0, 1] }]
    compute := fun inputs outputs =>
      let outputs := outputs.setEntry "x_out" 0 (inputs.value "x")
      .ok ⟨⟩ (outputs.set "z_out" ((inputs.get? "z").getD #[])).data }

/-- `y1 = z₁² + z₂ + x - 0.2 y2`. -/
def discipline1 : ExplicitDiscipline α :=
  { (ExplicitDiscipline.blank : ExplicitDiscipline α) with
    inputs := [pair "z", Variable.named "x", (Variable.named "y2").withValue #[1]]
    outputs := [(Variable.named "y1").withValue #[1]]
    partials :=
      [.dense "y1" "z", constantBlock "y1" "x" #[1], constantBlock "y1" "y2" #[-0.2]]
    compute := fun inputs outputs =>
      let z := inputs.entry "z"
      .ok ⟨⟩ (outputs.setEntry "y1" 0
        (z 0 * z 0 + z 1 + inputs.value "x" - 0.2 * inputs.value "y2")).data
    linearize := fun inputs =>
      ⟨[.block "y1" "z" #[2.0 * inputs.entry "z" 0, 1]], none, none⟩ }

/-- `y2 = √y1 + z₁ + z₂`, for `y1` that is not negative. -/
def discipline2 [Shown α] : ExplicitDiscipline α :=
  { (ExplicitDiscipline.blank : ExplicitDiscipline α) with
    inputs := [pair "z", (Variable.named "y1").withValue #[1]]
    outputs := [(Variable.named "y2").withValue #[1]]
    partials := [constantBlock "y2" "z" #[1, 1], .dense "y2" "y1"]
    compute := fun inputs outputs =>
      let y1 := inputs.value "y1"
      let shown := Shown.shown y1
      if y1 < 0 then .error (.analysis "" s!"y1 = {shown} is negative") outputs.data
      else
        .ok ⟨⟩ (outputs.setEntry "y2" 0
          (Scalar.sqrt y1 + inputs.entry "z" 0 + inputs.entry "z" 1)).data
    linearize := fun inputs =>
      ⟨[.block "y2" "y1" #[0.5 / Scalar.sqrt (inputs.value "y1")]], none, none⟩ }

/-- `obj = x² + z₂ + y1 + e^(-y2)`. -/
def objective : ExplicitDiscipline α :=
  { (ExplicitDiscipline.blank : ExplicitDiscipline α) with
    inputs := [Variable.named "x", pair "z", Variable.named "y1", Variable.named "y2"]
    outputs := [Variable.named "obj"]
    partials :=
      [.dense "obj" "x", constantBlock "obj" "z" #[0, 1], constantBlock "obj" "y1" #[1],
        .dense "obj" "y2"]
    compute := fun inputs outputs =>
      let x := inputs.value "x"
      .ok ⟨⟩ (outputs.setEntry "obj" 0
        (x * x + inputs.entry "z" 1 + inputs.value "y1"
          + Elementary.exp (-inputs.value "y2"))).data
    linearize := fun inputs =>
      ⟨[.block "obj" "x" #[2.0 * inputs.value "x"],
        .block "obj" "y2" #[-Elementary.exp (-inputs.value "y2")]], none, none⟩ }

end Mdao.Example
