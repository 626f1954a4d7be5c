import Mdao.Text.Datum

/-!
# Reading records

A record of known fields is written as a table or as the list of its values in order. In a table
unknown names are ignored and a known name may occur once; in a list the last values may be
missing, and values beyond the last field are an error or ignored, as the format has it. A moment
counts as a table without any of the names.

Formats differ in small ways (`Reading`): which lists may be longer than a record, how a word may
be written as a table, and whether a variant within a variant may be named by its number. A variant
is a record with an entry that names it, its tag; the other entries are its settings.
-/

namespace Mdao

/-! ### Records -/

/-- The form in which a record is written, with the values that are given. -/
inductive RecordForm where
  /-- By names: the value of each field that occurs. -/
  | byName (values : List (Option Datum))
  /-- By places: the values of the first fields. -/
  | byPlace (values : List (Option Datum))

namespace RecordForm

/-- The values of the fields, in order. -/
def values : RecordForm → List (Option Datum)
  | byName vs => vs
  | byPlace vs => vs

/-- The value of the field with a number. -/
def get (r : RecordForm) (i : Nat) : Option Datum := r.values.getD i none

end RecordForm

namespace Datum

/-- Whether a name occurs at most once. -/
def occursOnce (fields : List (String × Datum)) (name : String) : Bool :=
  (fields.filter fun f => f.1 == name).length ≤ 1

/-- Reads a record with the given field names; `extra` allows values beyond the last field in a
list. -/
def record? (names : List String) (extra : Bool) : Datum → Option RecordForm
  | table fields =>
    if names.all (occursOnce fields) then some (.byName (names.map fun n => fields.lookup n))
    else none
  | list items =>
    if items.length ≤ names.length || extra then
      some (.byPlace (names.zipIdx.map fun (_, i) => items[i]?))
    else none
  | moment => some (.byName (names.map fun _ => none))
  | _ => none

/-- Reads every item of a list. -/
def listOf? {β : Type} (item : Datum → Option β) : Datum → Option (List β)
  | list items => items.mapM item
  | _ => none

/-- Reads an optional value: nothing, or a value. -/
def optional? {β : Type} (value : Datum → Option β) : Datum → Option (Option β)
  | null => some none
  | d => (value d).map some

end Datum

/-! ### Ways of reading -/

/-- How liberally records and words are read. -/
structure Reading where
  /-- Whether a list may hold more values than its record has fields. -/
  extraItems : Bool
  /-- What counts as nothing: a word may be the name of a table with that as its one entry. -/
  isNothing : Datum → Bool
  /-- Whether a variant within a variant may be named by its number. -/
  numberedTags : Bool

namespace Reading

/-- Whether a value is null. -/
def isNull : Datum → Bool
  | .null => true
  | _ => false

/-- Whether a value is a table or a list without entries. -/
def isVoid : Datum → Bool
  | .table [] => true
  | .list [] => true
  | _ => false

/-- Whether a value is null or a table without entries. -/
def isNullOrEmpty : Datum → Bool
  | .null => true
  | .table [] => true
  | _ => false

/-- JSON. -/
def json : Reading := ⟨false, isNull, true⟩

/-- TOML. -/
def toml : Reading := ⟨true, isVoid, false⟩

/-- What stands inside a variant, in either format. -/
def embedded : Reading := ⟨false, isNullOrEmpty, false⟩

/-- Reads a word out of a list of words with meanings. -/
def word? {β : Type} (r : Reading) (words : List (String × β)) : Datum → Option β
  | .text s => words.lookup s
  | .table [(s, d)] => if r.isNothing d then words.lookup s else none
  | _ => none

/-- Reads a number, which has to be finite where it is written with digits. -/
def number? (d : Datum) : Option Float :=
  match d, d.toFloat? with
  | .decimal _, some x => if x.isInf then none else some x
  | _, x => x

/-- The value of a field, or its default where the field is missing. -/
def field? {β : Type} (form : RecordForm) (i : Nat) (default : β) (value : Datum → Option β) :
    Option β :=
  match form.get i with
  | some d => value d
  | none => some default

/-- Splits a variant into its name and its settings: the entry `tag` of a table, or the first item
of a list. All of a variant has to be readable, also what is not used. -/
def tagged? (tag : String) (d : Datum) : Option (String × Datum) :=
  if !d.isReadable then none
  else
    match d with
    | .table fields =>
      match fields.filter (fun f => f.1 == tag) with
      | [(_, .text name)] => some (name, .table (fields.filter fun f => f.1 != tag))
      | _ => none
    | .list (.text name :: rest) => some (name, .list rest)
    | _ => none

/-- Whether settings fit a variant without any: entries are ignored, items are not allowed. -/
def isBare : Datum → Bool
  | .list items => items.isEmpty
  | _ => true

end Reading

end Mdao
