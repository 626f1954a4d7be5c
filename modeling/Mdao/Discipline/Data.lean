import Mdao.Discipline
import Mdao.Text.Datum
import Mdao.Text.Reading

/-!
# Declarations as data

What a discipline declares, written as data and read from it: variables, methods of differentiation,
partial derivatives and capabilities. A field that is missing has its default.
-/

namespace Mdao

/-- The words for formulas of finite differences. -/
def FdForm.words : List (String × FdForm) :=
  [("forward", .forward), ("backward", .backward), ("central", .central)]

/-- The word for a formula of finite differences. -/
def FdForm.word : FdForm → String
  | .forward => "forward"
  | .backward => "backward"
  | .central => "central"

/-- The words for scales of steps. -/
def StepScale.words : List (String × StepScale) := [("abs", .abs), ("rel", .rel)]

/-- The word for a scale of steps. -/
def StepScale.word : StepScale → String
  | .abs => "abs"
  | .rel => "rel"

namespace Method

open Reading

/-- Reads a method, a variant with the tag `method`. -/
def ofDatum? (d : Datum) : Option (Method Float) := do
  let (name, rest) ← tagged? "method" d
  match name with
  | "exact" => if isBare rest then some .exact else none
  | "fd" =>
    let o : FdOptions Float := .default
    let r ← rest.record? ["form", "step", "step_calc"] embedded.extraItems
    return .fd ⟨← field? r 0 o.form (embedded.word? FdForm.words), ← field? r 1 o.step number?,
      ← field? r 2 o.scale (embedded.word? StepScale.words)⟩
  | "cs" =>
    let r ← rest.record? ["step"] embedded.extraItems
    match r.get 0 with
    | some step => (number? step).map .cs
    | none => some .csDefault
  | _ => none

/-- Reads a method; what names none is exact. -/
def ofDatum (d : Datum) : Method Float := (ofDatum? d).getD .exact

/-- A method as data, its numbers written by `number`. -/
def toDatum (number : Float → Datum) : Method Float → Datum
  | .exact => .table [("method", .text "exact")]
  | .fd o =>
    .table [("method", .text "fd"), ("form", .text o.form.word), ("step", number o.step),
      ("step_calc", .text o.scale.word)]
  | .cs step => .table [("method", .text "cs"), ("step", number step)]

end Method

namespace Variable

/-- Reads a variable: what is given is set in the order shape, units, value, bounds, tags. -/
def ofDatum (d : Datum) : Variable Float :=
  let set {β : Type} (v : Variable Float) (name : String) (value : Datum → β)
      (change : Variable Float → β → Variable Float) : Variable Float :=
    match d.given? name value with
    | some b => change v b
    | none => v
  let v : Variable Float := .named (d.field "name").string
  let v := set v "shape" Datum.naturals withShape
  let v := set v "units" Datum.string withUnits
  let v := set v "value" Datum.reals withValue
  let v := set v "lower" Datum.real withLower
  let v := set v "upper" Datum.real withUpper
  (d.field "tags").strings.foldl withTag v

/-- A variable as data, its numbers written by `number`. -/
def toDatum (number : Float → Datum) (v : Variable Float) : Datum :=
  .table
    [("name", .text v.name), ("shape", .ofNats v.shape), ("units", .ofOption Datum.text v.units),
      ("value", .list (v.value.toList.map number)), ("lower", .ofOption number v.lower),
      ("upper", .ofOption number v.upper), ("tags", .ofTexts v.tags)]

end Variable

/-- Reads a declaration of partial derivatives: places only where rows are given. -/
def PartialDeclaration.ofDatum (d : Datum) : PartialDeclaration Float :=
  let sparsity : Sparsity := match d.given? "rows" Datum.naturals with
    | some rows => .sparse rows (d.field "cols").naturals
    | none => .dense
  ⟨(d.field "of").string, (d.field "wrt").string, sparsity, d.given? "constant" Datum.reals,
    (d.given? "method" Method.ofDatum).getD .exact⟩

/-- Reads capabilities. -/
def Capabilities.ofDatum (d : Datum) : Capabilities :=
  ⟨(d.field "solve_nonlinear").isTrue, (d.field "solve_linear").isTrue,
    (d.field "apply_linear").isTrue, (d.field "complex_step").isTrue⟩

end Mdao
