import OperationTree.Json.Value
import OperationTree.Numeric.Shortest

/-! JSON text of a value, compact or with one member or element to a line. -/

namespace OperationTree

/-- Numbers from `0.00001` up to below `10 ^ 16` are written positionally. -/
def Number.layout : Decimal.Layout := ⟨-5, 15⟩

def Number.chars : Number → List Char
  | int n => if n < 0 then '-' :: Nat.toDigits 10 n.natAbs else Nat.toDigits 10 n.natAbs
  | double x => x.text Number.layout

namespace Json

/-- A character within quotes.  Only the quote, the backslash and controls are escaped. -/
def escaped (c : Char) : List Char :=
  if c = '"' then ['\\', '"']
  else if c = '\\' then ['\\', '\\']
  else if c = '\x08' then ['\\', 'b']
  else if c = '\x0c' then ['\\', 'f']
  else if c = '\n' then ['\\', 'n']
  else if c = '\r' then ['\\', 'r']
  else if c = '\t' then ['\\', 't']
  else if c.toNat < 0x20 then
    ['\\', 'u', '0', '0', Nat.digitChar (c.toNat / 16), Nat.digitChar (c.toNat % 16)]
  else [c]

def quoted (cs : List Char) : List Char := '"' :: (cs.flatMap escaped ++ ['"'])

mutual

/-- The compact text: no blanks. -/
def compactChars : Json → List Char
  | null => ['n', 'u', 'l', 'l']
  | bool true => ['t', 'r', 'u', 'e']
  | bool false => ['f', 'a', 'l', 's', 'e']
  | number n => n.chars
  | string s => quoted s.toList
  | array items => '[' :: (compactItems items ++ [']'])
  | object members => '\x7b' :: (compactMembers members ++ ['\x7d'])

def compactItems : List Json → List Char
  | [] => []
  | [x] => compactChars x
  | x :: rest => compactChars x ++ ',' :: compactItems rest

def compactMembers : List (String × Json) → List Char
  | [] => []
  | [(k, x)] => quoted k.toList ++ ':' :: compactChars x
  | (k, x) :: rest => quoted k.toList ++ ':' :: compactChars x ++ ',' :: compactMembers rest

end

/-- The compact JSON text of a value. -/
def compact (value : Json) : String := String.ofList value.compactChars

/-- A line break and the blanks of `depth` levels. -/
def lineBreak (depth : Nat) : List Char := '\n' :: List.replicate (2 * depth) ' '

mutual

/-- The text with one item to a line, two blanks to a level; empty containers stay closed. -/
def prettyChars (depth : Nat) : Json → List Char
  | array [] => ['[', ']']
  | object [] => ['\x7b', '\x7d']
  | array items => '[' :: (prettyItems (depth + 1) items ++ lineBreak depth ++ [']'])
  | object members =>
    '\x7b' :: (prettyMembers (depth + 1) members ++ lineBreak depth ++ ['\x7d'])
  | scalar => scalar.compactChars

def prettyItems (depth : Nat) : List Json → List Char
  | [] => []
  | [x] => lineBreak depth ++ prettyChars depth x
  | x :: rest => lineBreak depth ++ prettyChars depth x ++ ',' :: prettyItems depth rest

def prettyMembers (depth : Nat) : List (String × Json) → List Char
  | [] => []
  | [(k, x)] => lineBreak depth ++ quoted k.toList ++ ':' :: ' ' :: prettyChars depth x
  | (k, x) :: rest =>
    lineBreak depth ++ quoted k.toList ++ ':' :: ' ' :: prettyChars depth x ++
      ',' :: prettyMembers depth rest

end

/-- The indented JSON text of a value. -/
def pretty (value : Json) : String := String.ofList (value.prettyChars 0)

end Json
end OperationTree
