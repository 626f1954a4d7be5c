import Mdao.Text.Datum

/-!
# JSON

`Json.parse?` reads a JSON text, `Json.render` writes one without blanks. Whole numbers of 64 bits
are told apart from other numbers; a fraction, an exponent or a minus sign before zero make a number
a decimal one. Entries of a table keep their order, and a name may occur more than once.

Three things are well formed and denote nothing: a text with a surrogate that is not one of a pair,
a table with such a name, and a list or table inside 127 others. They stand in the tree as
unreadable parts; `Json.document?` reads texts without any.
-/

namespace Mdao.Json

/-- The characters that may stand between tokens. -/
def isSpace (c : Char) : Bool := c == ' ' || c == '\n' || c == '\t' || c == '\r'

/-- The input without leading blanks. -/
def skip (cs : List Char) : List Char := cs.dropWhile isSpace

/-- The value of a hexadecimal digit. -/
def hexDigit? (c : Char) : Option Nat :=
  let n := c.toNat
  if 48 ≤ n ∧ n ≤ 57 then some (n - 48)
  else if 65 ≤ n ∧ n ≤ 70 then some (n - 55)
  else if 97 ≤ n ∧ n ≤ 102 then some (n - 87)
  else none

/-- The number with the given hexadecimal digits. -/
def hexNumber? (cs : List Char) : Option Nat :=
  cs.foldl (fun n c => do return 16 * (← n) + (← hexDigit? c)) (some 0)

/-- The character that a letter stands for after a backslash. -/
def escaped? : Char → Option Char
  | '"' => some '"'
  | '\\' => some '\\'
  | '/' => some '/'
  | 'b' => some '\x08'
  | 'f' => some '\x0c'
  | 'n' => some '\n'
  | 'r' => some '\r'
  | 't' => some '\t'
  | _ => none

/-- A piece of a text: a character, or a number of 16 bits given by its digits. -/
inductive Piece where
  | char (c : Char)
  | half (n : Nat)
  deriving Repr

/-- The pieces of a text up to the closing quote, and the input after it. -/
def pieces : List Char → Option (List Piece × List Char)
  | [] => none
  | '"' :: rest => some ([], rest)
  | '\\' :: 'u' :: a :: b :: c :: d :: rest =>
    match hexNumber? [a, b, c, d], pieces rest with
    | some n, some (ps, rest) => some (.half n :: ps, rest)
    | _, _ => none
  | '\\' :: c :: rest =>
    match escaped? c, pieces rest with
    | some c, some (ps, rest) => some (.char c :: ps, rest)
    | _, _ => none
  | c :: rest =>
    if c.toNat < 32 then none
    else
      match pieces rest with
      | some (ps, rest) => some (.char c :: ps, rest)
      | none => none

/-- Joins pieces to characters; a surrogate has to be one of a pair. -/
def join : List Piece → Option (List Char)
  | [] => some []
  | .char c :: rest => (join rest).map (c :: ·)
  | .half n :: rest =>
    if n < 0xD800 ∨ 0xE000 ≤ n then (join rest).map (Char.ofNat n :: ·)
    else
      match rest with
      | .half m :: rest =>
        if n < 0xDC00 ∧ 0xDC00 ≤ m ∧ m < 0xE000 then
          (join rest).map (Char.ofNat (0x10000 + (n - 0xD800) * 0x400 + (m - 0xDC00)) :: ·)
        else none
      | _ => none

/-- The text up to the closing quote, if it denotes one, and the input after it. -/
def text? (cs : List Char) : Option (Option String × List Char) :=
  (pieces cs).map fun (ps, rest) => ((join ps).map String.ofList, rest)

/-- The value of a run of decimal digits. -/
def digitsValue (cs : List Char) : Nat :=
  cs.foldl (fun n c => 10 * n + (c.toNat - '0'.toNat)) 0

/-- A run of at least one digit, and the input after it. -/
def digits? (cs : List Char) : Option (List Char × List Char) :=
  match cs.takeWhile Char.isDigit with
  | [] => none
  | ds => some (ds, cs.dropWhile Char.isDigit)

/-- The digits after a point, if there is one, and the input after them. -/
def fraction? : List Char → Option (List Char × List Char)
  | '.' :: rest => digits? rest
  | rest => some ([], rest)

/-- The exponent, if there is one, and the input after it. -/
def exponent? (cs : List Char) : Option (Option Int × List Char) :=
  match cs with
  | e :: rest =>
    if e = 'e' ∨ e = 'E' then
      let (negative, rest) := match rest with
        | '+' :: rest => (false, rest)
        | '-' :: rest => (true, rest)
        | rest => (false, rest)
      (digits? rest).map fun (ds, rest) =>
        let n : Int := digitsValue ds
        (some (if negative then -n else n), rest)
    else some (none, cs)
  | [] => some (none, [])

/-- A number, and the input after it. -/
def number? (cs : List Char) : Option (Datum × List Char) := do
  let (negative, cs) := match cs with
    | '-' :: rest => (true, rest)
    | rest => (false, rest)
  let (ds, cs) ← digits? cs
  if ds.length > 1 ∧ ds.head? = some '0' then none
  let (part, cs) ← fraction? cs
  let (power, cs) ← exponent? cs
  let value := digitsValue (ds ++ part)
  if part.isEmpty ∧ power.isNone ∧ ¬(negative ∧ value = 0) then
    return (.ofInt (if negative then -(value : Int) else value), cs)
  return (.decimal ⟨negative, value, power.getD 0 - (part.length : Int)⟩, cs)

/-- The input after a word. -/
def word? : List Char → List Char → Option (List Char)
  | [], rest => some rest
  | c :: word, d :: rest => if c = d then word? word rest else none
  | _ :: _, [] => none

/-- A value other than a list or a table, and the input after it. -/
def scalar? : List Char → Option (Datum × List Char)
  | 'n' :: rest => (word? ['u', 'l', 'l'] rest).map fun rest => (.null, rest)
  | 't' :: rest => (word? ['r', 'u', 'e'] rest).map fun rest => (.truth true, rest)
  | 'f' :: rest => (word? ['a', 'l', 's', 'e'] rest).map fun rest => (.truth false, rest)
  | '"' :: rest => (text? rest).map fun (s, rest) => ((s.map Datum.text).getD .unreadable, rest)
  | rest => number? rest

/-- The name of an entry with the colon after it, and the input after that. -/
def name? (cs : List Char) : Option (Option String × List Char) :=
  match skip cs with
  | '"' :: rest =>
    match text? rest with
    | some (name, rest) =>
      match skip rest with
      | ':' :: rest => some (name, rest)
      | _ => none
    | none => none
  | _ => none

/-- What comes next where a value is passed over. -/
inductive Upcoming where
  /-- A value. -/
  | value
  /-- The name of an entry. -/
  | name
  /-- A comma, or the end of what is open. -/
  | comma
  deriving Repr

/-- The input after a value that is passed over, however deep it nests: `opened` holds, for every
list and table that is open, whether it is a table. -/
def passOver : (fuel : Nat) → Upcoming → (opened : List Bool) → List Char → Option (List Char)
  | 0, _, _, _ => none
  | fuel + 1, .value, opened, cs =>
    match skip cs with
    | '[' :: rest =>
      match skip rest with
      | ']' :: rest => passOver fuel .comma opened rest
      | rest => passOver fuel .value (false :: opened) rest
    | '{' :: rest =>
      match skip rest with
      | '}' :: rest => passOver fuel .comma opened rest
      | rest => passOver fuel .name (true :: opened) rest
    | rest =>
      match scalar? rest with
      | some (_, rest) => passOver fuel .comma opened rest
      | none => none
  | fuel + 1, .name, opened, cs =>
    match name? cs with
    | some (_, rest) => passOver fuel .value opened rest
    | none => none
  | _ + 1, .comma, [], cs => some cs
  | fuel + 1, .comma, isTable :: opened, cs =>
    match skip cs, isTable with
    | ',' :: rest, false => passOver fuel .value (isTable :: opened) rest
    | ',' :: rest, true => passOver fuel .name (isTable :: opened) rest
    | ']' :: rest, false => passOver fuel .comma opened rest
    | '}' :: rest, true => passOver fuel .comma opened rest
    | _, _ => none

/-- The table of entries, if all their names denote texts. -/
def tableOf (fields : List (Option String × Datum)) : Datum :=
  match fields.mapM fun f => f.1.map fun name => (name, f.2) with
  | some fields => .table fields
  | none => .unreadable

mutual

/-- A value, and the input after it; `depth` bounds the lists and tables that are read, and `fuel`
the number of steps. -/
def value (depth : Nat) : (fuel : Nat) → List Char → Option (Datum × List Char)
  | 0, _ => none
  | fuel + 1, cs =>
    match skip cs with
    | '[' :: rest =>
      if depth ≤ 1 then
        (passOver fuel .value [] cs).map fun rest => (.unreadable, rest)
      else
        match skip rest with
        | ']' :: rest => some (.list [], rest)
        | rest => (items (depth - 1) fuel rest).map fun (xs, rest) => (.list xs, rest)
    | '{' :: rest =>
      if depth ≤ 1 then
        (passOver fuel .value [] cs).map fun rest => (.unreadable, rest)
      else
        match skip rest with
        | '}' :: rest => some (.table [], rest)
        | rest => (fields (depth - 1) fuel rest).map fun (xs, rest) => (tableOf xs, rest)
    | rest => scalar? rest

/-- One or more values up to the closing bracket. -/
def items (depth : Nat) : (fuel : Nat) → List Char → Option (List Datum × List Char)
  | 0, _ => none
  | fuel + 1, cs =>
    match value depth fuel cs with
    | none => none
    | some (x, rest) =>
      match skip rest with
      | ',' :: rest => (items depth fuel rest).map fun (xs, rest) => (x :: xs, rest)
      | ']' :: rest => some ([x], rest)
      | _ => none

/-- One or more entries up to the closing brace. -/
def fields (depth : Nat) :
    (fuel : Nat) → List Char → Option (List (Option String × Datum) × List Char)
  | 0, _ => none
  | fuel + 1, cs =>
    match name? cs with
    | none => none
    | some (name, rest) =>
      match value depth fuel rest with
      | none => none
      | some (x, rest) =>
        match skip rest with
        | ',' :: rest => (fields depth fuel rest).map fun (xs, rest) => ((name, x) :: xs, rest)
        | '}' :: rest => some ([(name, x)], rest)
        | _ => none

end

/-- Reads a text that holds one value and nothing else. -/
def parse? (s : String) : Option Datum :=
  let cs := s.toList
  match value 128 (2 * cs.length + 2) cs with
  | some (x, rest) => if (skip rest).isEmpty then some x else none
  | none => none

/-- Reads a text that holds one value, all parts of which denote something; of the entries of one
name in a table the last counts. -/
def document? (s : String) : Option Datum :=
  match parse? s with
  | some d => if d.isReadable then some d.lastEntries else none
  | none => none

/-- A hexadecimal digit. -/
def hexChar (n : Nat) : Char := (Nat.toDigits 16 n).headD '0'

/-- A character inside quotes. -/
def quotedChar (c : Char) : List Char :=
  if c = '"' then ['\\', '"']
  else if c = '\\' then ['\\', '\\']
  else if c = '\n' then ['\\', 'n']
  else if c = '\r' then ['\\', 'r']
  else if c = '\t' then ['\\', 't']
  else if c.toNat = 8 then ['\\', 'b']
  else if c.toNat = 12 then ['\\', 'f']
  else if c.toNat < 32 then
    ['\\', 'u', '0', '0', hexChar (c.toNat / 16), hexChar (c.toNat % 16)]
  else [c]

/-- A text in quotes. -/
def quoted (s : String) : String := "\"" ++ String.ofList (s.toList.flatMap quotedChar) ++ "\""

mutual

/-- The tokens of a value; a number that is not finite is written as nothing. -/
def tokens : Datum → List String
  | .null => ["null"]
  | .truth b => [if b then "true" else "false"]
  | .whole n => [toString n]
  | .decimal d => [d.compact]
  | .infinite _ => ["null"]
  | .undefined => ["null"]
  | .moment => ["null"]
  | .unreadable => ["null"]
  | .text s => [quoted s]
  | .list xs => "[" :: tokensOfItems xs ++ ["]"]
  | .table xs => "\x7b" :: tokensOfFields xs ++ ["\x7d"]

/-- The items of a list with commas between. -/
def tokensOfItems : List Datum → List String
  | [] => []
  | [x] => tokens x
  | x :: rest => tokens x ++ "," :: tokensOfItems rest

/-- The entries of a table with commas between. -/
def tokensOfFields : List (String × Datum) → List String
  | [] => []
  | [(name, x)] => quoted name :: ":" :: tokens x
  | (name, x) :: rest => quoted name :: ":" :: tokens x ++ "," :: tokensOfFields rest

end

/-- A value as text, without blanks. -/
def render (d : Datum) : String := String.join (tokens d)

end Mdao.Json
