import OperationTree.Json.Numeral
import OperationTree.Text.Hexadecimal

/-! Reading JSON text.  Containers nest at most `nestingLimit` deep.  A text that is only skipped
over is held to the grammar alone: its numbers may overflow and its surrogate escapes need no
partner. -/

namespace OperationTree.Json

/-- How deep the containers of a text may nest. -/
def nestingLimit : Nat := 127

namespace Reader

/-- Whether a text is read for its value or skipped over. -/
inductive Purpose where
  | value
  | skip
  deriving DecidableEq, Repr

def isBlank (c : Char) : Bool := c == ' ' || c == '\n' || c == '\t' || c == '\r'

def skipBlanks (cs : List Char) : List Char := cs.dropWhile isBlank

/-- The number that four hexadecimal digits denote. -/
def codeUnit? (a b c d : Char) : Option Nat := do
  return (← Text.hexDigit? a) * 4096 + (← Text.hexDigit? b) * 256 + (← Text.hexDigit? c) * 16 +
    (← Text.hexDigit? d)

def isHighSurrogate (unit : Nat) : Bool := 0xD800 ≤ unit && unit < 0xDC00

def isLowSurrogate (unit : Nat) : Bool := 0xDC00 ≤ unit && unit < 0xE000

/-- The character that a pair of surrogates encodes. -/
def ofSurrogates (high low : Nat) : Char :=
  Char.ofNat (0x10000 + (high - 0xD800) * 1024 + (low - 0xDC00))

/-- The character that a backslash and one letter stand for. -/
def escape? : Char → Option Char
  | '"' => some '"'
  | '\\' => some '\\'
  | '/' => some '/'
  | 'b' => some '\x08'
  | 'f' => some '\x0c'
  | 'n' => some '\n'
  | 'r' => some '\r'
  | 't' => some '\t'
  | _ => none

/-- The characters up to the closing quote, and the rest after it. -/
def chars (purpose : Purpose) : List Char → Option (List Char × List Char)
  | [] => none
  | '"' :: rest => some ([], rest)
  | '\\' :: 'u' :: a :: b :: c :: d :: rest =>
    match codeUnit? a b c d with
    | none => none
    | some unit =>
      if purpose = .value && isHighSurrogate unit then
        match rest with
        | '\\' :: 'u' :: e :: f :: g :: h :: rest =>
          match codeUnit? e f g h with
          | none => none
          | some low =>
            if isLowSurrogate low then
              (chars purpose rest).map fun (cs, rest) => (ofSurrogates unit low :: cs, rest)
            else none
        | _ => none
      else if purpose = .value && isLowSurrogate unit then none
      else (chars purpose rest).map fun (cs, rest) => (Char.ofNat unit :: cs, rest)
  | '\\' :: c :: rest =>
    match escape? c with
    | none => none
    | some x => (chars purpose rest).map fun (cs, rest) => (x :: cs, rest)
  | c :: rest =>
    if c.toNat < 0x20 then none
    else (chars purpose rest).map fun (cs, rest) => (c :: cs, rest)

/-- A value that is no container, and the rest. -/
def scalar (purpose : Purpose) (cs : List Char) : Option (Json × List Char) :=
  match skipBlanks cs with
  | 'n' :: 'u' :: 'l' :: 'l' :: rest => some (null, rest)
  | 't' :: 'r' :: 'u' :: 'e' :: rest => some (bool true, rest)
  | 'f' :: 'a' :: 'l' :: 's' :: 'e' :: rest => some (bool false, rest)
  | '"' :: rest => (chars purpose rest).map fun (cs, rest) => (string (String.ofList cs), rest)
  | cs =>
    match Numeral.scan cs with
    | none => none
    | some (numeral, rest) =>
      match numeral.number?, purpose with
      | some n, _ => some (number n, rest)
      | none, .skip => some (null, rest)
      | none, .value => none

/-- Items separated by commas up to the closing bracket, at least one. -/
def items {α : Type} (item : List Char → Option (α × List Char)) (close : Char) :
    Nat → List Char → Option (List α × List Char)
  | 0, _ => none
  | fuel + 1, cs =>
    match item cs with
    | none => none
    | some (x, rest) =>
      match skipBlanks rest with
      | [] => none
      | c :: rest =>
        if c = ',' then (items item close fuel rest).map fun (xs, rest) => (x :: xs, rest)
        else if c = close then some ([x], rest)
        else none

/-- The items of a container after its opening bracket. -/
def container {α : Type} (item : List Char → Option (α × List Char)) (close : Char)
    (cs : List Char) : Option (List α × List Char) :=
  match skipBlanks cs with
  | [] => none
  | c :: rest => if c = close then some ([], rest) else items item close cs.length (c :: rest)

/-- A member: its key, a colon and what `field` reads for that key. -/
def member {α : Type} (purpose : Purpose) (field : String → List Char → Option (α × List Char))
    (cs : List Char) : Option ((String × α) × List Char) :=
  match skipBlanks cs with
  | '"' :: rest =>
    match chars purpose rest with
    | none => none
    | some (key, rest) =>
      match skipBlanks rest with
      | ':' :: rest =>
        (field (String.ofList key) rest).map fun (x, rest) => ((String.ofList key, x), rest)
      | _ => none
  | _ => none

/-- A value whose containers nest at most `depth` deep, and the rest. -/
def value (purpose : Purpose) : Nat → List Char → Option (Json × List Char)
  | 0, cs => scalar purpose cs
  | depth + 1, cs =>
    match skipBlanks cs with
    | '[' :: rest =>
      (container (value purpose depth) ']' rest).map fun (xs, rest) => (array xs, rest)
    | '{' :: rest =>
      (container (member purpose fun _ => value purpose depth) '\x7d' rest).map
        fun (members, rest) => (object (Members.ofList members), rest)
    | cs => scalar purpose cs

/-- What `read` gives for a whole text. -/
def whole {α : Type} (read : List Char → Option (α × List Char)) (cs : List Char) : Option α :=
  match read cs with
  | none => none
  | some (x, rest) => if (skipBlanks rest).isEmpty then some x else none

end Reader

/-- The value that a text denotes, with containers nested at most `depth` deep. -/
def parseWithin? (depth : Nat) (text : String) : Option Json :=
  Reader.whole (Reader.value .value depth) text.toList

/-- The value that a JSON text denotes. -/
def parse? (text : String) : Option Json := parseWithin? nestingLimit text

end OperationTree.Json
