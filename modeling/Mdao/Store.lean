import Mdao.Variable
import Mdao.Vec
import Mdao.Error

/-!
# The variable store

The store keeps the values of all variables of a model in three flat buffers:

* `slots`, every output and every independent input, the unknowns of the linear system;
* `residuals`, one entry for each slot;
* `inputs`, every input as last transferred from its source.

A variable is registered once, by name; an input gets slots of its own when it is made independent,
and then it lives in both buffers, so that a write goes to both. `id` finds a variable, and all
access is by name or by id.
-/

namespace Mdao

/-- A registered variable and where it lives. -/
structure Store.Entry (α : Type) where
  /-- The name in the model. -/
  name : String
  /-- Input or output. -/
  kind : VariableKind
  /-- The declaration. -/
  declared : Variable α
  /-- Its place among the inputs. -/
  inputs? : Option Span
  /-- Its place among the slots. -/
  slots? : Option Span

/-- The values of all variables of a model. -/
structure Store (α : Type) where
  /-- The variables in the order of registration; a variable's id is its position. -/
  entries : Array (Store.Entry α)
  /-- Outputs and independent inputs. -/
  slots : Array α
  /-- One residual for each slot. -/
  residuals : Array α
  /-- Inputs as last transferred. -/
  inputs : Array α

namespace Store

variable {α : Type} [Scalar α]

/-- The store without variables. -/
def empty : Store α := ⟨#[], #[], #[], #[]⟩

/-- The id of a variable, if the name is known. -/
def find? (s : Store α) (name : String) : Option Nat :=
  s.entries.findIdx? (fun e => e.name == name)

/-- The id of a variable. -/
def id (s : Store α) (name : String) : Except StructureError Nat :=
  match s.find? name with
  | some i => .ok i
  | none => .error (.unknownVariable name)

/-- A vector with zeros appended up to a length. -/
def padTo (x : Array α) (n : Nat) : Array α := x ++ Vec.zeros (n - x.size)

/-- Appends an entry under a new name. -/
def register (s : Store α) (e : Entry α) : Except StructureError (Store α × Nat) :=
  match s.find? e.name with
  | some _ => .error (.duplicateVariable e.name)
  | none => .ok ({ s with entries := s.entries.push e }, s.entries.size)

/-- Registers an output and allocates slots with its default value. -/
def addOutput (s : Store α) (name : String) (v : Variable α) :
    Except StructureError (Store α × Nat) :=
  let start := s.slots.size
  match s.register ⟨name, .output, v, none, some ⟨start, start + v.size⟩⟩ with
  | .error e => .error e
  | .ok (s, i) =>
    let slots := s.slots ++ v.value
    .ok ({ s with slots := slots, residuals := padTo s.residuals slots.size }, i)

/-- Registers an input with its default value. -/
def addInput (s : Store α) (name : String) (v : Variable α) :
    Except StructureError (Store α × Nat) :=
  let start := s.inputs.size
  match s.register ⟨name, .input, v, some ⟨start, start + v.size⟩, none⟩ with
  | .error e => .error e
  | .ok (s, i) => .ok ({ s with inputs := s.inputs ++ v.value }, i)

/-- The slots of a variable. -/
def slots? (s : Store α) (i : Nat) : Option Span := s.entries[i]?.bind Entry.slots?

/-- The place of a variable among the inputs. -/
def inputs? (s : Store α) (i : Nat) : Option Span := s.entries[i]?.bind Entry.inputs?

/-- Gives an input slots of its own, with its present value, and returns them; slots that a
variable has already are returned as they are. -/
def makeIndependent (s : Store α) (i : Nat) : Store α × Span :=
  match s.slots? i with
  | some r => (s, r)
  | none =>
    let source := (s.inputs? i).getD ⟨0, 0⟩
    let range : Span := ⟨s.slots.size, s.slots.size + source.size⟩
    let slots := s.slots ++ Vec.slice s.inputs source
    ({ s with
        slots := slots
        residuals := padTo s.residuals slots.size
        entries := s.entries.modify i fun e => { e with slots? := some range } }, range)

/-- The name of a variable. -/
def nameOf (s : Store α) (i : Nat) : String :=
  match s.entries[i]? with
  | some e => e.name
  | none => ""

/-- Whether a variable is an input. -/
def isInput (s : Store α) (i : Nat) : Bool :=
  match s.entries[i]? with
  | some e => e.kind == .input
  | none => false

/-- Whether a variable is an input with slots of its own. -/
def isIndependent (s : Store α) (i : Nat) : Bool := s.isInput i && (s.slots? i).isSome

/-- The declared size of a variable. -/
def sizeOf (s : Store α) (i : Nat) : Nat :=
  match s.entries[i]? with
  | some e => e.declared.size
  | none => 0

/-- The value of an entry: an input's is the transferred one. -/
def valueOf (s : Store α) (i : Nat) : Array α :=
  match s.inputs? i, s.slots? i with
  | some r, _ => Vec.slice s.inputs r
  | none, some r => Vec.slice s.slots r
  | none, none => #[]

/-- The value of a variable. -/
def get (s : Store α) (name : String) : Except StructureError (Array α) :=
  match s.id name with
  | .ok i => .ok (s.valueOf i)
  | .error e => .error e

/-- Writes the value of a variable wherever it lives. -/
def setById (s : Store α) (i : Nat) (value : Array α) : Except StructureError (Store α) :=
  let expected := s.sizeOf i
  if value.size ≠ expected then .error (.shapeMismatch (s.nameOf i) expected value.size)
  else
    let inputs := match s.inputs? i with
      | some r => Vec.splice s.inputs r value
      | none => s.inputs
    let slots := match s.slots? i with
      | some r => Vec.splice s.slots r value
      | none => s.slots
    .ok { s with inputs := inputs, slots := slots }

/-- Writes the value of a variable. -/
def set (s : Store α) (name : String) (value : Array α) : Except StructureError (Store α) :=
  match s.id name with
  | .ok i => s.setById i value
  | .error e => .error e

/-- The units in which a variable is declared, for a conversion from or to `requested`. -/
def declaredUnits (s : Store α) (i : Nat) (requested : String) : Except StructureError String :=
  match s.entries[i]?.bind (fun e => e.declared.units) with
  | some u => .ok u
  | none => .error (.units (.incompatible "None" requested))

/-- The conversion between two unit expressions, with its error as one of structure. -/
def converter (origin target : String) : Except StructureError (Conversion α) :=
  match Measure.conversion origin target with
  | .ok c => .ok c
  | .error e => .error (.units e)

/-- The value of a variable in other units. -/
def getInUnits (s : Store α) (name units : String) : Except StructureError (Array α) := do
  let i ← s.id name
  let declared ← s.declaredUnits i units
  let c ← converter declared units
  return (s.valueOf i).map c.apply

/-- Writes the value of a variable, given in other units. -/
def setInUnits (s : Store α) (name : String) (value : Array α) (units : String) :
    Except StructureError (Store α) := do
  let i ← s.id name
  let declared ← s.declaredUnits i units
  let c ← converter units declared
  s.setById i (value.map c.apply)

/-- The residual of a variable that has slots. -/
def residual (s : Store α) (name : String) : Except StructureError (Array α) := do
  let i ← s.id name
  match s.slots? i with
  | some r => return Vec.slice s.residuals r
  | none => throw (.unknownVariable s!"{name} (residual)")

/-- The values of some variables, one after the other. -/
def toVector (s : Store α) (ids : List Nat) : Array α :=
  ids.foldl (fun x i => x ++ s.valueOf i) #[]

/-- Writes consecutive pieces of a flat vector, from `offset` on, to variables. -/
def scatterVector (s : Store α) (flat : Array α) (offset : Nat) :
    List Nat → Except StructureError (Store α)
  | [] => .ok s
  | i :: rest =>
    let n := s.sizeOf i
    match s.setById i (Vec.slice flat ⟨offset, offset + n⟩) with
    | .ok s => s.scatterVector flat (offset + n) rest
    | .error e => .error e

/-- Writes a flat vector made by `toVector` back. -/
def ofVector (s : Store α) (ids : List Nat) (flat : Array α) : Except StructureError (Store α) :=
  let expected := ids.foldr (fun i n => s.sizeOf i + n) 0
  if flat.size ≠ expected then
    .error (.shapeMismatch (", ".intercalate (ids.map s.nameOf)) expected flat.size)
  else s.scatterVector flat 0 ids

/-- Copies the slots of independent inputs into the input buffer. -/
def syncIndependents (s : Store α) : Store α :=
  { s with
    inputs := s.entries.foldl
      (fun inputs e => match e.kind, e.slots?, e.inputs? with
        | .input, some source, some target => Vec.splice inputs target (Vec.slice s.slots source)
        | _, _, _ => inputs)
      s.inputs }

/-- The ids in order of registration. -/
def ids (s : Store α) : List Nat := List.range s.entries.size

end Store

end Mdao
