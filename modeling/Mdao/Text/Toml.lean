import Mdao.Text.Json

/-!
# TOML

`Toml.parse?` reads a TOML text. The text is a list of statements, each a header or an assignment to
a key path (`Toml.statements`), which build a tree of tables one after the other
(`Toml.Node.build?`). A table may be spelled out only once: the tree remembers whether a table came
from a header, from the path to another header, or from a dotted key.

The readers take a list of characters and give what they have read with the rest.
-/

namespace Mdao.Toml

/-- A reader of one thing. -/
abbrev Reader (β : Type) : Type := List Char → Option (β × List Char)

/-- A blank within a line. -/
def isBlank (c : Char) : Bool := c == ' ' || c == '\t'

/-- The input without blanks in front. -/
def skip (cs : List Char) : List Char := cs.dropWhile isBlank

/-- Whether a character may stand in a comment. -/
def isCommentChar (c : Char) : Bool :=
  c == '\t' || (0x20 ≤ c.toNat && c.toNat != 0x7F)

/-- The input after a comment, if one stands in front. -/
def skipComment : List Char → List Char
  | '#' :: rest => rest.dropWhile isCommentChar
  | rest => rest

/-- The input after a line break. -/
def lineBreak? : List Char → Option (List Char)
  | '\n' :: rest => some rest
  | '\r' :: '\n' :: rest => some rest
  | _ => none

/-- The input after blanks, comments and line breaks; `fuel` bounds the number of lines. -/
def skipLines : (fuel : Nat) → List Char → List Char
  | 0, cs => cs
  | fuel + 1, cs =>
    let cs := skipComment (skip cs)
    match lineBreak? cs with
    | some rest => skipLines fuel rest
    | none => cs

/-! ### Texts -/

/-- Whether a character may stand in a text between single quotes. -/
def isLiteralChar (c : Char) : Bool := isCommentChar c && c != '\''

/-- Whether a character may stand in a text between double quotes by itself. -/
def isPlainChar (c : Char) : Bool := isCommentChar c && c != '"' && c != '\\'

/-- The character that a letter stands for after a backslash. -/
def escaped? : Char → Option Char
  | 'b' => some '\x08'
  | 't' => some '\t'
  | 'n' => some '\n'
  | 'f' => some '\x0c'
  | 'r' => some '\r'
  | '"' => some '"'
  | '\\' => some '\\'
  | _ => none

/-- The character with the number given by hexadecimal digits. -/
def numbered? (digits : List Char) : Option Char := do
  let n ← Json.hexNumber? digits
  if n < 0xD800 ∨ (0xE000 ≤ n ∧ n < 0x110000) then some (Char.ofNat n) else none

/-- A character written with a backslash, after the backslash. -/
def escape? : Reader Char
  | 'u' :: a :: b :: c :: d :: rest => (numbered? [a, b, c, d]).map fun c => (c, rest)
  | 'U' :: a :: b :: c :: d :: e :: f :: g :: h :: rest =>
    (numbered? [a, b, c, d, e, f, g, h]).map fun c => (c, rest)
  | c :: rest => (escaped? c).map fun c => (c, rest)
  | [] => none

/-- The rest of a text up to the closing double quote. -/
def basic : (fuel : Nat) → Reader (List Char)
  | 0, _ => none
  | _ + 1, '"' :: rest => some ([], rest)
  | fuel + 1, '\\' :: rest => do
    let (c, rest) ← escape? rest
    let (cs, rest) ← basic fuel rest
    return (c :: cs, rest)
  | fuel + 1, c :: rest =>
    if isPlainChar c then (basic fuel rest).map fun (cs, rest) => (c :: cs, rest) else none
  | _ + 1, [] => none

/-- The rest of a text up to the closing single quote. -/
def literal (cs : List Char) : Option (List Char × List Char) :=
  match cs.dropWhile isLiteralChar with
  | '\'' :: rest => some (cs.takeWhile isLiteralChar, rest)
  | _ => none

/-- The quotes that close a text of several lines: three, and up to two before them that belong to
the text. -/
def closing? (q : Char) (cs : List Char) : Option (List Char × List Char) :=
  let n := (cs.takeWhile (· == q)).length
  if 3 ≤ n then
    let k := min n 5
    some (List.replicate (k - 3) q, cs.drop k)
  else none

/-- The input after blanks and at least one line break, if a backslash in front of it ends a
line. -/
def continued? (fuel : Nat) (cs : List Char) : Option (List Char) :=
  match lineBreak? (skip cs) with
  | none => none
  | some rest =>
    let rec onward : Nat → List Char → List Char
      | 0, cs => cs
      | n + 1, cs =>
        match lineBreak? (skip cs) with
        | some rest => onward n rest
        | none => skip cs
    some (onward fuel rest)

/-- The rest of a text of several lines up to the closing double quotes. -/
def basicLines : (fuel : Nat) → Reader (List Char)
  | 0, _ => none
  | fuel + 1, cs =>
    match closing? '"' cs with
    | some found => some found
    | none =>
      match cs with
      | [] => none
      | '\\' :: rest =>
        match continued? rest.length rest with
        | some rest => basicLines fuel rest
        | none => do
          let (c, rest) ← escape? rest
          let (cs, rest) ← basicLines fuel rest
          return (c :: cs, rest)
      | c :: rest =>
        match lineBreak? cs with
        | some rest => (basicLines fuel rest).map fun (cs, rest) => ('\n' :: cs, rest)
        | none =>
          if isPlainChar c || c == '"' then
            (basicLines fuel rest).map fun (cs, rest) => (c :: cs, rest)
          else none

/-- The rest of a text of several lines up to the closing single quotes. -/
def literalLines : (fuel : Nat) → Reader (List Char)
  | 0, _ => none
  | fuel + 1, cs =>
    match closing? '\'' cs with
    | some found => some found
    | none =>
      match cs with
      | [] => none
      | c :: rest =>
        match lineBreak? cs with
        | some rest => (literalLines fuel rest).map fun (cs, rest) => ('\n' :: cs, rest)
        | none =>
          if isCommentChar c then
            (literalLines fuel rest).map fun (cs, rest) => (c :: cs, rest)
          else none

/-- The input without a line break in front. -/
def dropLineBreak (cs : List Char) : List Char := (lineBreak? cs).getD cs

/-- A text in quotes of any kind. -/
def text? (cs : List Char) : Option (String × List Char) :=
  let read : Option (List Char × List Char) := match cs with
    | '"' :: '"' :: '"' :: rest => basicLines (rest.length + 1) (dropLineBreak rest)
    | '"' :: rest => basic (rest.length + 1) rest
    | '\'' :: '\'' :: '\'' :: rest => literalLines (rest.length + 1) (dropLineBreak rest)
    | '\'' :: rest => literal rest
    | _ => none
  read.map fun (cs, rest) => (String.ofList cs, rest)

/-! ### Numbers and moments -/

/-- The digits of a run in which single underscores may stand between digits. -/
def groupedDigits? (isDigit : Char → Bool) : List Char → Option (List Char)
  | [] => none
  | [c] => if isDigit c then some [c] else none
  | c :: '_' :: rest =>
    if isDigit c then (groupedDigits? isDigit rest).map (c :: ·) else none
  | c :: rest => if isDigit c then (groupedDigits? isDigit rest).map (c :: ·) else none

/-- A sign in front, and what follows it. -/
def signed : List Char → Bool × List Char
  | '+' :: rest => (false, rest)
  | '-' :: rest => (true, rest)
  | rest => (false, rest)

/-- A whole number of 64 bits with a sign. -/
def whole? (negative : Bool) (n : Nat) : Option Datum :=
  let z : Int := if negative then -(n : Int) else n
  if -(Nat.pow 2 63 : Int) ≤ z ∧ z < (Nat.pow 2 63 : Int) then some (.whole z) else none

/-- The value of digits to some base. -/
def digitsValue (base : Nat) (ds : List Char) : Nat :=
  ds.foldl (fun n c => base * n + (Json.hexDigit? c).getD 0) 0

/-- A whole number to some base, given by its digits. -/
def based? (base : Nat) (cs : List Char) : Option Datum := do
  let isDigit (c : Char) : Bool := match Json.hexDigit? c with
    | some d => d < base
    | none => false
  let ds ← groupedDigits? isDigit cs
  whole? false (digitsValue base ds)

/-- The digits of a whole part, which starts with zero only if it is zero. -/
def wholePart? (cs : List Char) : Option (List Char) := do
  let ds ← groupedDigits? Char.isDigit cs
  if ds.length > 1 ∧ ds.head? = some '0' then none
  return ds

/-- A decimal whole number. -/
def decimal? (cs : List Char) : Option Datum := do
  let (negative, cs) := signed cs
  let ds ← wholePart? cs
  whole? negative (digitsValue 10 ds)

/-- A number with a fraction or an exponent; it has to be finite unless it is negative. -/
def fractional? (cs : List Char) : Option Datum := do
  let (negative, cs) := signed cs
  let isMark (c : Char) : Bool := c == 'e' || c == 'E'
  let mantissa := cs.takeWhile fun c => !isMark c
  let power : Int ← match cs.dropWhile fun c => !isMark c with
    | _ :: rest => do
      let (negative, rest) := signed rest
      let ds ← groupedDigits? Char.isDigit rest
      let n : Int := digitsValue 10 ds
      pure (if negative then -n else n)
    | [] => pure 0
  let whole ← wholePart? (mantissa.takeWhile (· != '.'))
  let part ← match mantissa.dropWhile (· != '.') with
    | _ :: rest => groupedDigits? Char.isDigit rest
    | [] => if mantissa.length = cs.length then none else pure []
  let d : Decimal := ⟨negative, digitsValue 10 (whole ++ part), power - (part.length : Int)⟩
  if d.toFloat.isInf then if negative then return .infinite true else none
  return .decimal d

/-- An infinite number or one that is none. -/
def special? (cs : List Char) : Option Datum :=
  let (negative, cs) := signed cs
  if cs = ['i', 'n', 'f'] then some (.infinite negative)
  else if cs = ['n', 'a', 'n'] then some .undefined
  else none

/-- The value of a run of exactly `n` digits. -/
def fixedDigits? (n : Nat) (cs : List Char) : Option Nat :=
  if cs.length = n ∧ cs.all Char.isDigit then some (digitsValue 10 cs) else none

/-- Whether characters spell a date that exists. -/
def isDate (cs : List Char) : Bool :=
  match cs with
  | [a, b, c, d, '-', e, f, '-', g, h] =>
    match fixedDigits? 4 [a, b, c, d], fixedDigits? 2 [e, f], fixedDigits? 2 [g, h] with
    | some year, some month, some day =>
      let leap := year % 4 == 0 && (year % 100 != 0 || year % 400 == 0)
      let days := if month == 2 then if leap then 29 else 28
        else if month == 4 || month == 6 || month == 9 || month == 11 then 30 else 31
      1 ≤ month && month ≤ 12 && 1 ≤ day && day ≤ days
    | _, _, _ => false
  | _ => false

/-- Whether characters spell a time of day. -/
def isTime (cs : List Char) : Bool :=
  match cs with
  | a :: b :: ':' :: c :: d :: ':' :: e :: f :: rest =>
    match fixedDigits? 2 [a, b], fixedDigits? 2 [c, d], fixedDigits? 2 [e, f] with
    | some h, some m, some s =>
      h ≤ 23 && m ≤ 59 && s ≤ 60 && match rest with
        | [] => true
        | '.' :: ds => !ds.isEmpty && ds.all Char.isDigit
        | _ => false
    | _, _, _ => false
  | _ => false

/-- Whether characters spell an offset of hours and minutes. -/
def isOffset (cs : List Char) : Bool :=
  match cs with
  | [a, b, ':', c, d] =>
    match fixedDigits? 2 [a, b], fixedDigits? 2 [c, d] with
    | some h, some m => h ≤ 23 && m ≤ 59
    | _, _ => false
  | _ => false

/-- Whether characters spell a time of day that an offset may follow. -/
def isTimeWithOffset (cs : List Char) : Bool :=
  let time := cs.takeWhile fun c => c.isDigit || c == ':' || c == '.'
  isTime time && match cs.drop time.length with
    | [] => true
    | ['Z'] => true
    | ['z'] => true
    | '+' :: rest => isOffset rest
    | '-' :: rest => isOffset rest
    | _ => false

/-- Whether characters spell a date, a time of day or both. -/
def isMoment (cs : List Char) : Bool :=
  isTime cs || isDate cs ||
    (isDate (cs.take 10) && match cs.drop 10 with
      | c :: rest => (c == 'T' || c == 't' || c == ' ') && isTimeWithOffset rest
      | [] => false)

/-- Whether a character may stand in a number, a moment or a word. -/
def isTokenChar (c : Char) : Bool :=
  c.isAlphanum || c == '+' || c == '-' || c == '_' || c == '.' || c == ':'

/-- The characters of a number, a moment or a word; one blank may follow a date. -/
def token (cs : List Char) : List Char × List Char :=
  let first := cs.takeWhile isTokenChar
  match cs.dropWhile isTokenChar with
  | ' ' :: c :: rest =>
    if isDate first && c.isDigit then
      (first ++ ' ' :: (c :: rest).takeWhile isTokenChar, (c :: rest).dropWhile isTokenChar)
    else (first, ' ' :: c :: rest)
  | rest => (first, rest)

/-- The meaning of a number, a moment or a word. -/
def scalar? (cs : List Char) : Option Datum :=
  if cs = ['t', 'r', 'u', 'e'] then some (.truth true)
  else if cs = ['f', 'a', 'l', 's', 'e'] then some (.truth false)
  else if isMoment cs then some .moment
  else
    match cs with
    | '0' :: 'x' :: ds => based? 16 ds
    | '0' :: 'o' :: ds => based? 8 ds
    | '0' :: 'b' :: ds => based? 2 ds
    | _ => special? cs <|> fractional? cs <|> decimal? cs

/-! ### Tables under construction -/

/-- How a table came about. -/
inductive Form where
  /-- On the path to a header. -/
  | implied
  /-- By a header of its own. -/
  | headed
  /-- On the path of a dotted key. -/
  | dotted
  deriving DecidableEq, Repr

/-- A node of the tree that statements build. -/
inductive Node where
  /-- A value, which no statement changes any more. -/
  | value (d : Datum)
  /-- A table. -/
  | table (form : Form) (fields : List (String × Node))
  /-- A list of tables, the last one first. -/
  | tables (last : List (String × Node)) (before : List (List (String × Node)))
  deriving Inhabited

/-- The entries of a table. -/
abbrev Fields : Type := List (String × Node)

namespace Node

/-- Puts a node under a name, in the place of the one of that name. -/
def put (fields : Fields) (name : String) (n : Node) : Fields :=
  if (fields.lookup name).isSome then
    fields.map fun f => if f.1 == name then (name, n) else f
  else fields ++ [(name, n)]

/-- Puts a value under a dotted key. -/
def assign (d : Datum) : List String → Fields → Option Fields
  | [], _ => none
  | [name], fields =>
    if (fields.lookup name).isSome then none else some (put fields name (.value d))
  | name :: path, fields =>
    match fields.lookup name with
    | none => do
      let below ← assign d path []
      return put fields name (.table .dotted below)
    | some (.table .dotted below) => do
      let below ← assign d path below
      return put fields name (.table .dotted below)
    | some (.table .implied below) => do
      -- A table on the path to a header may be passed through but not added to.
      if path.length ≤ 1 then none
      let below ← assign d path below
      return put fields name (.table .implied below)
    | some (.tables last before) => do
      if path.length ≤ 1 then none
      let last ← assign d path last
      return put fields name (.tables last before)
    | some _ => none

mutual

/-- The data of a node. -/
def toDatum : Node → Datum
  | value d => d
  | table _ fields => .table (fieldsData fields)
  | tables last before => .list (tablesData before [.table (fieldsData last)])

/-- The data of entries. -/
def fieldsData : List (String × Node) → List (String × Datum)
  | [] => []
  | (name, n) :: rest => (name, toDatum n) :: fieldsData rest

/-- The data of tables, the last one first, in front of those that follow them. -/
def tablesData : List (List (String × Node)) → List Datum → List Datum
  | [], after => after
  | fields :: rest, after => tablesData rest (.table (fieldsData fields) :: after)

end

end Node

/-! ### Keys and values -/

/-- Whether a character may stand in a key without quotes. -/
def isKeyChar (c : Char) : Bool := c.isAlphanum || c == '_' || c == '-'

/-- One part of a key. -/
def keyPart? (cs : List Char) : Option (String × List Char) :=
  match cs with
  | '"' :: rest => (basic (rest.length + 1) rest).map fun (cs, rest) => (String.ofList cs, rest)
  | '\'' :: rest => (literal rest).map fun (cs, rest) => (String.ofList cs, rest)
  | _ =>
    let part := cs.takeWhile isKeyChar
    if part.isEmpty then none else some (String.ofList part, cs.dropWhile isKeyChar)

/-- A key of one or more parts with points between; blanks may stand around each. -/
def key : (fuel : Nat) → Reader (List String)
  | 0, _ => none
  | fuel + 1, cs => do
    let (part, rest) ← keyPart? (skip cs)
    match skip rest with
    | '.' :: rest => (key fuel rest).map fun (parts, rest) => (part :: parts, rest)
    | rest => return ([part], rest)

/-- The bound on the depth of values and on the number of parts of a key; both stay below it. -/
def maxDepth : Nat := 80

/-- A key that is not too deep. -/
def path? (cs : List Char) : Option (List String × List Char) :=
  (key (cs.length + 1) cs).filter fun k => k.1.length < maxDepth

mutual

/-- A value; `depth` bounds the nesting and `fuel` the number of steps. -/
def value (depth : Nat) : (fuel : Nat) → Reader Datum
  | 0, _ => none
  | fuel + 1, cs =>
    match cs with
    | '"' :: _ => (text? cs).map fun (s, rest) => (.text s, rest)
    | '\'' :: _ => (text? cs).map fun (s, rest) => (.text s, rest)
    | '[' :: rest =>
      if depth ≤ 1 then none
      else (items (depth - 1) fuel rest).map fun (xs, rest) => (.list xs, rest)
    | '{' :: rest =>
      if depth ≤ 1 then none
      else
        match skip rest with
        | '}' :: rest => some (.table [], rest)
        | rest =>
          (fields (depth - 1) fuel [] rest).map fun (xs, rest) =>
            (.table (Node.fieldsData xs), rest)
    | _ =>
      let (cs, rest) := token cs
      (scalar? cs).map fun d => (d, rest)

/-- The items of a list up to the closing bracket; a comma may stand after the last. -/
def items (depth : Nat) : (fuel : Nat) → Reader (List Datum)
  | 0, _ => none
  | fuel + 1, cs =>
    match skipLines cs.length cs with
    | ']' :: rest => some ([], rest)
    | cs =>
      match value depth fuel cs with
      | none => none
      | some (x, rest) =>
        match skipLines rest.length rest with
        | ',' :: rest => (items depth fuel rest).map fun (xs, rest) => (x :: xs, rest)
        | ']' :: rest => some ([x], rest)
        | _ => none

/-- One or more assignments up to the closing brace, after the given entries. -/
def fields (depth : Nat) : (fuel : Nat) → Fields → Reader Fields
  | 0, _, _ => none
  | fuel + 1, done, cs =>
    match path? cs with
    | some (path, '=' :: rest) =>
      match value depth fuel (skip rest) with
      | none => none
      | some (x, rest) =>
        match Node.assign x path done with
        | none => none
        | some done =>
          match skip rest with
          | ',' :: rest => fields depth fuel done rest
          | '}' :: rest => some (done, rest)
          | _ => none
    | _ => none

end

/-! ### Statements -/

/-- A line of a text. -/
inductive Statement where
  /-- The header of a table. -/
  | header (path : List String)
  /-- The header of one more table of a list. -/
  | item (path : List String)
  /-- An assignment within the table of the last header. -/
  | assign (path : List String) (value : Datum)
  deriving Repr

/-- The statement at the start of a line that is not empty. -/
def statement? (cs : List Char) : Option (Statement × List Char) :=
  match cs with
  | '[' :: '[' :: rest =>
    match path? rest with
    | some (path, ']' :: ']' :: rest) => some (.item path, rest)
    | _ => none
  | '[' :: rest =>
    match path? rest with
    | some (path, ']' :: rest) => some (.header path, rest)
    | _ => none
  | _ =>
    match path? cs with
    | some (path, '=' :: rest) =>
      (value maxDepth (2 * (cs.length + 1)) (skip rest)).map fun (x, rest) => (.assign path x, rest)
    | _ => none

/-- The statements of a text; `fuel` bounds the number of lines. -/
def statements : (fuel : Nat) → List Char → Option (List Statement)
  | 0, _ => none
  | fuel + 1, cs =>
    match skipLines cs.length cs with
    | [] => some []
    | cs =>
      match statement? cs with
      | none => none
      | some (s, rest) =>
        match skipComment (skip rest) with
        | [] => some [s]
        | rest =>
          match lineBreak? rest with
          | some rest => (statements fuel rest).map (s :: ·)
          | none => none

/-! ### The tree of tables -/

namespace Node

/-- Changes the entries of the table at a path of headers, and makes the tables on the way. -/
def descend (change : Fields → Option Fields) : List String → Fields → Option Fields
  | [], fields => change fields
  | name :: path, fields =>
    match fields.lookup name with
    | none => do
      let below ← descend change path []
      return put fields name (.table .implied below)
    | some (.table form below) => do
      let below ← descend change path below
      return put fields name (.table form below)
    | some (.tables last before) => do
      let last ← descend change path last
      return put fields name (.tables last before)
    | some (.value _) => none

/-- Opens the table of a header. -/
def openTable (name : String) (fields : Fields) : Option Fields :=
  match fields.lookup name with
  | none => some (put fields name (.table .headed []))
  | some (.table .implied below) => some (put fields name (.table .headed below))
  | some _ => none

/-- Opens one more table of a list. -/
def openItem (name : String) (fields : Fields) : Option Fields :=
  match fields.lookup name with
  | none => some (put fields name (.tables [] []))
  | some (.tables last before) => some (put fields name (.tables [] (last :: before)))
  | some _ => none

/-- Carries out statements in order; `current` is the path of the last header. -/
def build? (current : List String) (root : Fields) : List Statement → Option Fields
  | [] => some root
  | .header path :: rest =>
    match path.getLast?, descend (openTable (path.getLastD "")) path.dropLast root with
    | some _, some root => build? path root rest
    | _, _ => none
  | .item path :: rest =>
    match path.getLast?, descend (openItem (path.getLastD "")) path.dropLast root with
    | some _, some root => build? path root rest
    | _, _ => none
  | .assign path d :: rest =>
    match descend (assign d path) current root with
    | some root => build? current root rest
    | none => none

end Node

/-- Reads a text as a table. -/
def parse? (s : String) : Option Datum := do
  let cs := match s.toList with
    | '\uFEFF' :: rest => rest
    | cs => cs
  let ss ← statements (cs.length + 1) cs
  let root ← Node.build? [] [] ss
  return .table (Node.fieldsData root)

end Mdao.Toml
