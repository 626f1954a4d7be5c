import Mdao.Decimal

/-!
# Data trees

What a text in a data format denotes: truth values, numbers, texts, lists, and tables of named
entries in the order of the text. Numbers keep their exact decimal value. A part of a text may be
well formed and yet denote nothing; it stands in the tree as `unreadable`, and whoever has no use
for it never notices.

Descriptions are read with a default for everything that is missing or of another kind: nothing for
a field, zero for a number, no items for a list. A number may also be given by the names `nan`,
`inf` and `-inf`.
-/

namespace Mdao

/-- A tree of data. -/
inductive Datum where
  /-- Nothing. -/
  | null
  /-- A truth value. -/
  | truth (b : Bool)
  /-- A whole number of 64 bits. -/
  | whole (n : Int)
  /-- Any other number. -/
  | decimal (d : Decimal)
  /-- An infinite number. -/
  | infinite (negative : Bool)
  /-- A number that is none. -/
  | undefined
  /-- A date, a time or both, which settings have no use for. -/
  | moment
  /-- A well-formed part of a text that denotes no value. -/
  | unreadable
  /-- A text. -/
  | text (s : String)
  /-- A list. -/
  | list (items : List Datum)
  /-- Named entries. -/
  | table (fields : List (String × Datum))
  deriving Repr, Inhabited

namespace Datum

/-- The first entry of a name. -/
def field? (d : Datum) (name : String) : Option Datum :=
  match d with
  | table fields => fields.lookup name
  | _ => none

/-- A whole number that is not negative. -/
def ofNat (n : Nat) : Datum := whole n

/-- A whole number of 64 bits, or a decimal where it does not fit. -/
def ofInt (n : Int) : Datum :=
  if -(Nat.pow 2 63 : Int) ≤ n ∧ n < (Nat.pow 2 64 : Int) then whole n
  else decimal ⟨n < 0, n.natAbs, 0⟩

/-- A double; what is no finite number has no decimal. -/
def ofFloat (x : Float) : Datum :=
  if x.isNaN then undefined
  else if x.isInf then infinite (x < 0)
  else decimal (Decimal.shortest x)

/-- A list of whole numbers. -/
def ofNats (xs : List Nat) : Datum := list (xs.map ofNat)

/-- A list of texts. -/
def ofTexts (xs : List String) : Datum := list (xs.map text)

/-- A value that may be missing. -/
def ofOption {β : Type} (value : β → Datum) : Option β → Datum
  | some b => value b
  | none => null

/-- The double nearest to a number. -/
def toFloat? : Datum → Option Float
  | whole n => some (Decimal.toFloat ⟨n < 0, n.natAbs, 0⟩)
  | decimal d => some d.toFloat
  | infinite negative => some (if negative then -1.0 / 0.0 else 1.0 / 0.0)
  | undefined => some (0.0 / 0.0)
  | _ => none

/-- A text. -/
def toText? : Datum → Option String
  | text s => some s
  | _ => none

/-- A whole number that is not negative. -/
def toNat? : Datum → Option Nat
  | whole n => if 0 ≤ n then some n.toNat else none
  | _ => none

/-- A truth value. -/
def toBool? : Datum → Option Bool
  | truth b => some b
  | _ => none

/-- The items of a list. -/
def toList? : Datum → Option (List Datum)
  | list items => some items
  | _ => none

mutual

/-- Whether every part of a tree denotes a value; a number that is written with digits has to be
finite as a double. -/
def isReadable : Datum → Bool
  | unreadable => false
  | decimal d => !d.toFloat.isInf
  | list items => areReadable items
  | table fields => areReadableFields fields
  | _ => true

/-- The same for the items of a list. -/
def areReadable : List Datum → Bool
  | [] => true
  | d :: rest => isReadable d && areReadable rest

/-- The same for the entries of a table. -/
def areReadableFields : List (String × Datum) → Bool
  | [] => true
  | (_, d) :: rest => isReadable d && areReadableFields rest

end

mutual

/-- The tree with the last entry only where a table has several of one name. -/
def lastEntries : Datum → Datum
  | list items => list (lastEntriesOfItems items)
  | table fields => table (lastEntriesOfFields fields)
  | d => d

/-- The same for the items of a list. -/
def lastEntriesOfItems : List Datum → List Datum
  | [] => []
  | d :: rest => lastEntries d :: lastEntriesOfItems rest

/-- The same for the entries of a table. -/
def lastEntriesOfFields : List (String × Datum) → List (String × Datum)
  | [] => []
  | (name, d) :: rest =>
    if rest.any fun f => f.1 == name then lastEntriesOfFields rest
    else (name, lastEntries d) :: lastEntriesOfFields rest

end

/-! ### Fields with defaults -/

/-- The field of a name. -/
def field (d : Datum) (name : String) : Datum := (d.field? name).getD null

/-- Whether a field is there and holds something. -/
def isGiven (d : Datum) (name : String) : Bool :=
  match d.field name with
  | null => false
  | _ => true

/-- A text. -/
def string (d : Datum) : String := d.toText?.getD ""

/-- A list. -/
def items (d : Datum) : List Datum := d.toList?.getD []

/-- A list of texts. -/
def strings (d : Datum) : List String := d.items.map string

/-- A whole number that is not negative. -/
def natural (d : Datum) : Nat := d.toNat?.getD 0

/-- A list of whole numbers. -/
def naturals (d : Datum) : List Nat := d.items.map natural

/-- A truth value. -/
def isTrue (d : Datum) : Bool := d.toBool?.getD false

/-- A double. -/
def real (d : Datum) : Float :=
  match d with
  | text "nan" => 0.0 / 0.0
  | text "inf" => 1.0 / 0.0
  | text "-inf" => -1.0 / 0.0
  | d => d.toFloat?.getD 0.0

/-- A vector of doubles. -/
def reals (d : Datum) : Array Float := (d.items.map real).toArray

/-- What a field holds, if it is given. -/
def given? {β : Type} (d : Datum) (name : String) (value : Datum → β) : Option β :=
  if d.isGiven name then some (value (d.field name)) else none

end Datum

end Mdao
