import OperationTree.Json.Plain

/-! Percent-encoding of one URL component.  The unreserved characters stand for themselves, and
every other character is written as the bytes of its UTF-8 form, each as `%` and two upper-case
hexadecimal digits. -/

namespace OperationTree.Url

/-- Letters, digits and `- _ . ! ~ * ' ( )` need no encoding. -/
def isUnreserved (c : Char) : Bool :=
  c.isAlphanum || ['-', '_', '.', '!', '~', '*', '\x27', '(', ')'].contains c

/-- The upper-case hexadecimal digit of a number below 16. -/
def upperHexDigit (n : Nat) : Char := (Nat.digitChar n).toUpper

def percentByte (b : UInt8) : List Char :=
  ['%', upperHexDigit (b.toNat / 16), upperHexDigit (b.toNat % 16)]

def encodeChar (c : Char) : List Char :=
  if isUnreserved c then [c] else (String.utf8EncodeChar c).flatMap percentByte

def encodeChars (cs : List Char) : List Char := cs.flatMap encodeChar

/-- The encoding of a text as one component. -/
def encodeComponent (text : String) : String := String.ofList (encodeChars text.toList)

/-- The encoded plain text of a parameter value; null and objects leave nothing. -/
def encodeParam (value : Json) : List Char :=
  match value with
  | .null | .object _ => []
  | value => encodeChars value.plainChars

end OperationTree.Url
