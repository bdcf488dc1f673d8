import OperationTree.Pattern.Mode
import OperationTree.Text.Hexadecimal

/-! The smallest parts of a pattern: characters, classes that have a name, and edges.  Most of them
are written with a backslash.  A pattern stands between braces and ends where the first one closes,
so an escape with braces of its own is never complete. -/

namespace OperationTree.Pattern

inductive Element where
  /-- A character, and whether it is written as an octet of two digits. -/
  | character (c : Char) (isOctet : Bool)
  /-- Any character but the end of a line. -/
  | any
  /-- An end of a line or of the text. -/
  | edge
  /-- An edge of a word, or any place that is none. -/
  | wordEdge
  /-- Digits, blanks or word characters, or all others. -/
  | shorthand (isNegated : Bool)
  /-- The characters with a property. -/
  | property
  deriving DecidableEq, Repr

namespace Element

/-- Whether an element may stand by itself.  An edge of a word needs to know the words of ASCII
only, and every other element must not match a part of a character. -/
def isPart (m : Mode) : Element → Bool
  | character c isOctet => m.isUnicode || !isOctet || c.toNat < 0x80
  | any | property => m.isUnicode
  | edge => true
  | wordEdge => !m.isUnicode
  | shorthand isNegated => m.allows isNegated

/-- Whether an element may stand in brackets. -/
def isMember (m : Mode) : Element → Bool
  | character c _ => m.isUnicode || c.toNat < 0x80
  | any | edge | wordEdge => false
  | shorthand isNegated => m.allows isNegated
  | property => m.isUnicode

end Element

/-- Reads the digits of a number to the base sixteen. -/
def readHex (m : Mode) : (digits value : Nat) → List Char → Option (Nat × List Char)
  | 0, value, cs => some (value, cs)
  | digits + 1, value, cs =>
    match m.skip cs with
    | [] => none
    | c :: rest => (Text.hexDigit? c).bind fun digit => readHex m digits (value * 16 + digit) rest

/-- Reads a character that is written as a number. -/
def readCode (m : Mode) (digits : Nat) (cs : List Char) : Option (Element × List Char) :=
  (readHex m digits 0 cs).bind fun (code, rest) =>
    if code.isValidChar then some (.character (Char.ofNat code) (digits == 2), rest) else none

/-- The letters that name a property: the main categories, in either case. -/
def propertyLetters : List Char := "clmnpszCLMNPSZ".toList

def readProperty (m : Mode) (cs : List Char) : Option (Element × List Char) :=
  match m.skip cs with
  | [] => none
  | c :: rest => if propertyLetters.contains c then some (.property, rest) else none

/-- The control characters that a letter stands for. -/
def controls : List (Char × Nat) :=
  [('a', 0x07), ('t', 0x09), ('n', 0x0A), ('v', 0x0B), ('f', 0x0C), ('r', 0x0D)]

/-- The characters of ASCII that stand for themselves behind a backslash: all but letters and
digits. -/
def isPlain (c : Char) : Bool := c.toNat < 0x80 && !c.isAlphanum

/-- Reads what follows a backslash. -/
def readEscape (m : Mode) : List Char → Option (Element × List Char)
  | [] => none
  | c :: rest =>
    if c = 'x' then readCode m 2 rest
    else if c = 'u' then readCode m 4 rest
    else if c = 'U' then readCode m 8 rest
    else if c = 'p' || c = 'P' then readProperty m rest
    else if ['d', 's', 'w'].contains c then some (.shorthand false, rest)
    else if ['D', 'S', 'W'].contains c then some (.shorthand true, rest)
    else if ['b', 'B', '<', '>'].contains c then some (.wordEdge, rest)
    else if ['A', 'z'].contains c then some (.edge, rest)
    else if isPlain c then some (.character c false, rest)
    else (controls.lookup c).map fun code => (.character (Char.ofNat code) false, rest)

end OperationTree.Pattern
