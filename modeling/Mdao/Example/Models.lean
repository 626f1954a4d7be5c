import Mdao.Example.Sellar
import Mdao.Example.SinCos
import Mdao.Model.Basic

/-!
# Example models

The cycle of `sine` and `cosBalance`, and the Sellar problem with all its connections.
-/

namespace Mdao.Example

variable {α : Type} [Elementary α]

/-- Adds named disciplines to a model. -/
def addAll (m : Model α) : List (String × Discipline α) → Except (ModelError α) (Model α)
  | [] => .ok m
  | (name, d) :: rest =>
    match Component.declare name d with
    | .error e => .error (.core e)
    | .ok c =>
      match m.addUnit c with
      | .ok m => addAll m rest
      | .error e => .error e

/-- Makes connections, each from an output to an input. -/
def connectAll (m : Model α) : List (String × String) → Except (ModelError α) (Model α)
  | [] => .ok m
  | (source, target) :: rest =>
    match m.connect source target with
    | .ok m => connectAll m rest
    | .error e => .error e

/-- `cos (x y) = y sin y` as a cycle of two units. -/
def sinCosModel : Except (ModelError α) (Model α) := do
  let m ← addAll .empty [("sine", .explicit sine), ("balance", .implicit cosBalance)]
  connectAll m [("balance.y", "sine.y"), ("sine.z", "balance.z")]

/-- The Sellar problem. -/
def sellarModel [Shown α] : Except (ModelError α) (Model α) := do
  let m ← addAll .empty
    [("dv", .explicit design), ("d1", .explicit discipline1), ("d2", .explicit discipline2),
      ("obj", .explicit objective)]
  connectAll m
    [("dv.z_out", "d1.z"), ("dv.z_out", "d2.z"), ("dv.z_out", "obj.z"), ("dv.x_out", "d1.x"),
      ("dv.x_out", "obj.x"), ("d1.y1", "d2.y1"), ("d2.y2", "d1.y2"), ("d1.y1", "obj.y1"),
      ("d2.y2", "obj.y2")]

end Mdao.Example
