/-! UTF-8 decoding that says where and how a text goes wrong.  Overlong forms, surrogates and values
above U+10FFFF are no characters. -/

namespace OperationTree.Utf8

/-- A place at which octets stop being UTF-8. -/
inductive Fault where
  /-- The `length` octets from `index` on are no character and no start of one. -/
  | malformed (index length : Nat)
  /-- The text ends inside the character that starts at `index`. -/
  | incomplete (index : Nat)
  deriving DecidableEq, Repr

def Fault.message : Fault → String
  | malformed index length =>
    "invalid utf-8 sequence of " ++ toString length ++ " bytes from index " ++ toString index
  | incomplete index => "incomplete utf-8 byte sequence from index " ++ toString index

/-- An octet that continues a character. -/
def isTail (b : UInt8) : Bool := 0x80 ≤ b && b < 0xC0

/-- The six bits that a continuing octet holds. -/
def tailBits (b : UInt8) : Nat := b.toNat % 64

/-- How many octets a character has that starts with this one. -/
def width? (lead : UInt8) : Option Nat :=
  if lead < 0x80 then some 1
  else if lead < 0xC2 then none
  else if lead < 0xE0 then some 2
  else if lead < 0xF0 then some 3
  else if lead < 0xF5 then some 4
  else none

/-- Whether the second octet of a character may follow the first one. -/
def canFollow (lead second : UInt8) : Bool :=
  if lead = 0xE0 then 0xA0 ≤ second && second < 0xC0
  else if lead = 0xED then 0x80 ≤ second && second < 0xA0
  else if lead = 0xF0 then 0x90 ≤ second && second < 0xC0
  else if lead = 0xF4 then 0x80 ≤ second && second < 0x90
  else isTail second

/-- The characters that octets encode, the first of which stands at `index`. -/
def decodeFrom (index : Nat) : List UInt8 → Except Fault (List Char)
  | [] => .ok []
  | b :: rest =>
    match width? b with
    | some 1 => (decodeFrom (index + 1) rest).map (Char.ofNat b.toNat :: ·)
    | some 2 =>
      match rest with
      | [] => .error (.incomplete index)
      | c :: rest =>
        if !canFollow b c then .error (.malformed index 1)
        else
          (decodeFrom (index + 2) rest).map (Char.ofNat (b.toNat % 32 * 64 + tailBits c) :: ·)
    | some 3 =>
      match rest with
      | [] => .error (.incomplete index)
      | [c] => .error (if canFollow b c then .incomplete index else .malformed index 1)
      | c :: d :: rest =>
        if !canFollow b c then .error (.malformed index 1)
        else if !isTail d then .error (.malformed index 2)
        else
          (decodeFrom (index + 3) rest).map
            (Char.ofNat (b.toNat % 16 * 4096 + tailBits c * 64 + tailBits d) :: ·)
    | some _ =>
      match rest with
      | [] => .error (.incomplete index)
      | [c] => .error (if canFollow b c then .incomplete index else .malformed index 1)
      | [c, d] =>
        .error <|
          if !canFollow b c then .malformed index 1
          else if !isTail d then .malformed index 2
          else .incomplete index
      | c :: d :: e :: rest =>
        if !canFollow b c then .error (.malformed index 1)
        else if !isTail d then .error (.malformed index 2)
        else if !isTail e then .error (.malformed index 3)
        else
          (decodeFrom (index + 4) rest).map
            (Char.ofNat
              (b.toNat % 8 * 262144 + tailBits c * 4096 + tailBits d * 64 + tailBits e) :: ·)
    | none => .error (.malformed index 1)

def decode (bytes : List UInt8) : Except Fault String :=
  (decodeFrom 0 bytes).map String.ofList

end OperationTree.Utf8
