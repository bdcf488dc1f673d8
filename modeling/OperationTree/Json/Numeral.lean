import OperationTree.Json.Value

/-! The numerals of JSON and the numbers that they denote.  A numeral without fraction and exponent
is an integer when it fits 64 bits.  Any other numeral is read in two steps, each of which rounds:
as many leading digits as fit an unsigned 64-bit significand, then one product or quotient with a
power of ten. -/

namespace OperationTree

/-- A numeral by its parts; `whole` and `fraction` list digit values. -/
structure Numeral where
  negative : Bool
  whole : List Nat
  fraction : Option (List Nat)
  exponent : Option Int
  deriving DecidableEq, Repr

namespace Numeral

/-- Appends digits to a significand while the result fits 64 bits, and counts them. -/
def absorb (significand : Nat) : List Nat → Nat × Nat
  | [] => (significand, 0)
  | d :: rest =>
    if significand * 10 + d < 0x10000000000000000 then
      let (s, n) := absorb (significand * 10 + d) rest
      (s, n + 1)
    else (significand, 0)

/-- The natural number with the given digits. -/
def ofDigits (digits : List Nat) : Nat := digits.foldl (fun (acc d : Nat) => acc * 10 + d) 0

/-- The binary64 number nearest to `10 ^ k`. -/
def power? (k : Nat) : Option Double := Double.ofNat? (Nat.pow 10 k)

/-- `x` divided `n` times by `10 ^ 308`, rounded each time. -/
def divideOut : Nat → Double → Option Double
  | 0, x => some x
  | n + 1, x => ((power? 308).bind x.div?).bind (divideOut n)

/-- `x * 10 ^ k` with one rounding for the power and one for the product or quotient.  Below
`10 ^ (-308)` whole powers `10 ^ 308` are divided out first; three of them leave zero. -/
def scale (x : Double) (k : Int) : Option Double :=
  if x.isZero then some x
  else if 308 < k then none
  else if 0 ≤ k then (power? k.toNat).bind x.mul?
  else
    let steps := min 3 (((-k).toNat - 1) / 308)
    (divideOut steps x).bind fun y =>
      if y.isZero then some y else (power? ((-k).toNat - 308 * steps)).bind y.div?

/-- The binary64 number that a numeral denotes, or `none` beyond the greatest one. -/
def double? (n : Numeral) : Option Double :=
  let (head, taken) := absorb 0 n.whole
  let (significand, places) := absorb head (n.fraction.getD [])
  let exponent : Int := (n.whole.length - taken : Nat) - (places : Int) + n.exponent.getD 0
  ((Double.ofNat? significand).bind (scale · exponent)).map fun x =>
    if n.negative then x.neg else x

/-- The number that a numeral denotes.  Minus zero is no integer. -/
def number? (n : Numeral) : Option Number :=
  let magnitude := ofDigits n.whole
  if n.fraction.isNone ∧ n.exponent.isNone ∧
      (if n.negative then 0 < magnitude ∧ magnitude ≤ 0x8000000000000000
        else magnitude < 0x10000000000000000) then
    some (.int (if n.negative then -(magnitude : Int) else magnitude))
  else n.double?.map .double

def digitValue (c : Char) : Nat := c.toNat - '0'.toNat

/-- The digits at the front of a text, and the rest. -/
def digits (cs : List Char) : List Nat × List Char :=
  ((cs.takeWhile Char.isDigit).map digitValue, cs.dropWhile Char.isDigit)

/-- An optional fraction: a point and at least one digit. -/
def scanFraction : List Char → Option (Option (List Nat) × List Char)
  | '.' :: rest =>
    match digits rest with
    | ([], _) => none
    | (ds, rest) => some (some ds, rest)
  | cs => some (none, cs)

/-- The digits of an exponent after its sign, at least one. -/
def scanExponentDigits (negative : Bool) (cs : List Char) : Option (Option Int × List Char) :=
  match digits cs with
  | ([], _) => none
  | (ds, rest) =>
    some (some (if negative then -(ofDigits ds : Int) else ofDigits ds), rest)

/-- An optional exponent: `e` or `E`, an optional sign, and digits. -/
def scanExponent : List Char → Option (Option Int × List Char)
  | 'e' :: '+' :: rest | 'E' :: '+' :: rest => scanExponentDigits false rest
  | 'e' :: '-' :: rest | 'E' :: '-' :: rest => scanExponentDigits true rest
  | 'e' :: rest | 'E' :: rest => scanExponentDigits false rest
  | cs => some (none, cs)

/-- The numeral at the front of a text, after its sign.  Only a lone zero starts with zero. -/
def scanMagnitude (negative : Bool) (cs : List Char) : Option (Numeral × List Char) :=
  match digits cs with
  | ([], _) => none
  | (0 :: _ :: _, _) => none
  | (whole, rest) =>
    match scanFraction rest with
    | none => none
    | some (fraction, rest) =>
      (scanExponent rest).map fun (exponent, rest) =>
        (⟨negative, whole, fraction, exponent⟩, rest)

/-- The numeral at the front of a text, and the rest. -/
def scan : List Char → Option (Numeral × List Char)
  | '-' :: rest => scanMagnitude true rest
  | cs => scanMagnitude false cs

end Numeral
end OperationTree
