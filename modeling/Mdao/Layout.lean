import Mdao.Count
import Mdao.Vec

/-!
# Layouts

A `Layout` places named variables one after the other in a flat buffer. `Layout.push` appends a
variable and refuses a name that is taken, so the spans tile the buffer in the order of the pushes;
`Layout.locate` goes back from an index of the buffer to a variable and an offset. A `View` is a
buffer read through a layout.
-/

namespace Mdao

/-- A named span of a buffer. -/
structure Layout.Field where
  /-- The name of the variable. -/
  name : String
  /-- The entries of the variable. -/
  span : Span
  deriving DecidableEq, Repr, Inhabited

/-- Named variables, one after the other in a flat buffer. -/
structure Layout where
  /-- The variables in the order in which they were added. -/
  fields : Array Layout.Field
  /-- The length of the buffer. -/
  size : Nat
  deriving DecidableEq, Repr, Inhabited

namespace Layout

/-- The layout without variables. -/
def empty : Layout := ⟨#[], 0⟩

/-- The number of variables. -/
def length (l : Layout) : Nat := l.fields.size

/-- The names in order. -/
def names (l : Layout) : List String := l.fields.toList.map Field.name

/-- The position of a variable. -/
def position? (l : Layout) (name : String) : Option Nat :=
  l.fields.findIdx? (fun f => f.name == name)

/-- Appends a variable of `size` entries; gives no layout if the name is taken. -/
def push? (l : Layout) (name : String) (size : Nat) : Option Layout :=
  if (l.position? name).isSome then none
  else
    let stop := Count.add l.size size
    some ⟨l.fields.push ⟨name, ⟨l.size, stop⟩⟩, stop⟩

/-- The variable at a position, an empty one of no name outside. -/
def fieldAt (l : Layout) (position : Nat) : Field :=
  l.fields.getD position ⟨"", ⟨0, 0⟩⟩

/-- The span of the variable at a position. -/
def spanAt (l : Layout) (position : Nat) : Span := (l.fieldAt position).span

/-- The name of the variable at a position. -/
def nameAt (l : Layout) (position : Nat) : String := (l.fieldAt position).name

/-- The span of a variable. -/
def span? (l : Layout) (name : String) : Option Span := (l.position? name).map l.spanAt

/-- The position of the variable that holds an index of the buffer, and the offset in it. -/
def locate (l : Layout) (index : Nat) : Option (Nat × Nat) :=
  (l.fields.findIdx? (fun f => f.span.contains index)).map fun p =>
    (p, index - (l.spanAt p).start)

end Layout

/-- A buffer read through a layout. -/
structure View (β : Type) where
  /-- Where the variables are. -/
  layout : Layout
  /-- The entries of all variables. -/
  data : Array β
  deriving Inhabited

namespace View

variable {β : Type} [Zero β]

/-- The entries of a variable. -/
def get? (v : View β) (name : String) : Option (Array β) :=
  (v.layout.span? name).map (Vec.slice v.data)

/-- One entry of a variable, zero where there is none. -/
def entry (v : View β) (name : String) (i : Nat) : β :=
  match v.layout.span? name with
  | some s => if i < s.size then Vec.entry v.data (s.start + i) else 0
  | none => 0

/-- The first entry of a variable. -/
def value (v : View β) (name : String) : β := v.entry name 0

/-- Writes the entries of a variable; an unknown name changes nothing. -/
def set (v : View β) (name : String) (values : Array β) : View β :=
  match v.layout.span? name with
  | some s => { v with data := Vec.splice v.data s values }
  | none => v

/-- Writes one entry of a variable; a place that does not exist changes nothing. -/
def setEntry (v : View β) (name : String) (i : Nat) (x : β) : View β :=
  match v.layout.span? name with
  | some s => if i < s.size then { v with data := v.data.setIfInBounds (s.start + i) x } else v
  | none => v

/-- Writes the same number to every entry of a variable. -/
def fill (v : View β) (name : String) (x : β) : View β :=
  match v.layout.span? name with
  | some s => { v with data := Vec.splice v.data s (Array.replicate s.size x) }
  | none => v

end View

end Mdao
