import OperationTree.Json.Value
import OperationTree.Text.Utf8

/-! The forms in which the content of a file is handed over. -/

namespace OperationTree.File

inductive Encoding where
  | utf8
  /-- Each octet is the character with its number. -/
  | latin1
  /-- As `latin1`, with the highest bit of each octet dropped. -/
  | ascii
  /-- Two lower-case hexadecimal digits for each octet. -/
  | hex
  deriving DecidableEq, Repr

namespace Encoding

/-- The encoding with a name, in any letter case. -/
def ofName? (name : String) : Option Encoding :=
  match name.toLower with
  | "utf8" | "utf-8" => some utf8
  | "latin1" | "binary" => some latin1
  | "ascii" => some ascii
  | "hex" => some hex
  | _ => none

def hexChars (b : UInt8) : List Char :=
  [Nat.digitChar (b.toNat / 16), Nat.digitChar (b.toNat % 16)]

/-- The text of the given octets; only UTF-8 can be malformed. -/
def decode (encoding : Encoding) (bytes : List UInt8) : Except Utf8.Fault String :=
  match encoding with
  | utf8 => Utf8.decode bytes
  | latin1 => .ok (String.ofList (bytes.map fun b => Char.ofNat b.toNat))
  | ascii => .ok (String.ofList (bytes.map fun b => Char.ofNat (b.toNat % 128)))
  | hex => .ok (String.ofList (bytes.flatMap hexChars))

end Encoding

/-- The content of a file in an encoding, or as its octets. -/
def decode (encoding : Option Encoding) (bytes : List UInt8) : Except Utf8.Fault Json :=
  match encoding with
  | none => .ok (.ofOctets bytes)
  | some encoding => (encoding.decode bytes).map .string

end OperationTree.File
