import OperationTree.Json.Reader
import OperationTree.Text.Utf8

/-! Rows of a database as JSON objects.  The type of a column decides how its cells are read; a cell
that cannot be read is null. -/

namespace OperationTree.Sql

/-- A cell as the database sends it. -/
inductive Cell where
  | null
  | integer (value : Int)
  | double (value : Double)
  | bytes (value : List UInt8)
  /-- The parts of a date or time, from the largest on; missing parts are zero. -/
  | parts (value : List Nat)

/-- How the cells of a column are read. -/
inductive Kind where
  | bool
  | integer
  | single
  | double
  | text
  | bytes
  | date
  | moment
  | time
  | json
  | bit
  deriving DecidableEq, Repr

def occurs (pattern : List Char) : List Char → Bool
  | [] => pattern.isEmpty
  | c :: rest => pattern.isPrefixOf (c :: rest) || occurs pattern rest

/-- The kind of a column by the name of its type. -/
def Kind.ofType? (type : String) : Option Kind :=
  let has (part : String) := occurs part.toList type.toList
  if type.endsWith " UNSIGNED" then some integer
  else
    match type with
    | "BOOLEAN" => some bool
    | "TINYINT" | "SMALLINT" | "MEDIUMINT" | "INT" | "BIGINT" | "YEAR" => some integer
    | "FLOAT" => some single
    | "DOUBLE" => some double
    | "DECIMAL" | "ENUM" | "SET" => some text
    | "DATE" => some date
    | "DATETIME" | "TIMESTAMP" => some moment
    | "TIME" => some time
    | "JSON" => some json
    | "BIT" => some bit
    | _ =>
      if has "BLOB" || has "BINARY" then some bytes
      else if has "CHAR" || has "TEXT" then some text
      else none

/-- The decimal digits of a number, with leading zeros up to a width. -/
def padded (width n : Nat) : String :=
  let digits := toString n
  String.ofList (List.replicate (width - digits.length) '0') ++ digits

def isLeapYear (year : Nat) : Bool := year % 4 == 0 && (year % 100 != 0 || year % 400 == 0)

def daysInMonth (year month : Nat) : Nat :=
  if month = 2 then if isLeapYear year then 29 else 28
  else if [4, 6, 9, 11].contains month then 30
  else 31

def isDate (year month day : Nat) : Bool :=
  1 ≤ month && month ≤ 12 && 1 ≤ day && day ≤ daysInMonth year month

def isTime (hour minute second microsecond : Nat) : Bool :=
  hour < 24 && minute < 60 && second < 60 && microsecond < 1000000

def dateText (year month day : Nat) : String :=
  padded 4 year ++ "-" ++ padded 2 month ++ "-" ++ padded 2 day

def timeText (hour minute second : Nat) : String :=
  padded 2 hour ++ ":" ++ padded 2 minute ++ ":" ++ padded 2 second

/-- A calendar date, if the parts are one. -/
def date? (parts : List Nat) : Option String :=
  let part (i : Nat) := parts.getD i 0
  if isDate (part 0) (part 1) (part 2) then some (dateText (part 0) (part 1) (part 2)) else none

/-- A moment of UTC in milliseconds, if the parts are one. -/
def moment? (parts : List Nat) : Option String :=
  let part (i : Nat) := parts.getD i 0
  if isTime (part 3) (part 4) (part 5) (part 6) then
    (date? parts).map fun date =>
      date ++ "T" ++ timeText (part 3) (part 4) (part 5) ++ "." ++ padded 3 (part 6 / 1000) ++ "Z"
  else none

/-- A time of day, if the parts after the sign are one; whole days are none. -/
def time? (parts : List Nat) : Option String :=
  let part (i : Nat) := parts.getD i 0
  if part 1 = 0 && isTime (part 2) (part 3) (part 4) (part 5) then
    some (timeText (part 2) (part 3) (part 4))
  else none

def text? (bytes : List UInt8) : Option String := (Utf8.decode bytes).toOption

def Kind.read? : Kind → Cell → Option Json
  | bool, .integer n => some (.bool (n != 0))
  | integer, .integer n => some (.ofInt n)
  | single, .double x => x.toSingle?.map fun x => .number (.double x)
  | double, .double x => some (.number (.double x))
  | text, .bytes b => (text? b).map .string
  | bytes, .bytes b => some (.ofOctets b)
  | date, .parts p => (date? p).map .string
  | moment, .parts p => (moment? p).map .string
  | time, .parts p => (time? p).map .string
  | json, .bytes b => (text? b).map fun s => (Json.parse? s).getD (.string s)
  | bit, .bytes [b] => some (.bool (b != 0))
  | bit, .bytes b => some (.ofOctets b)
  | _, _ => none

def cellValue (type : String) (cell : Cell) : Json :=
  ((Kind.ofType? type).bind (·.read? cell)).getD .null

/-- What the database answers: columns with their types, and rows of cells. -/
structure Table where
  columns : List (String × String)
  rows : List (List Cell)

namespace Table

def rowValue (columns : List (String × String)) (cells : List Cell) : Json :=
  .object <| Members.ofList <|
    List.zipWith (fun column cell => (column.1, cellValue column.2 cell)) columns cells

/-- All rows, or with `single` the only row; no row and several rows are then an empty object. -/
def value (single : Bool) (t : Table) : Json :=
  let rows := t.rows.map (rowValue t.columns)
  if !single then .array rows
  else
    match rows with
    | [row] => row
    | _ => .object []

end Table
end OperationTree.Sql
