/-! Finite IEEE 754 binary64 numbers, given by sign, significand and exponent.  `Double.ofRatio`
rounds an exact ratio to the nearest of them, with ties to the even significand, and the products
and quotients here are exact results rounded once. -/

namespace OperationTree

/-- The number `significand * 2 ^ exponent`, negated when `negative`.  Its form is unique: either
the significand has all 53 bits or the exponent is the least one. -/
structure Double where
  negative : Bool
  significand : Nat
  exponent : Int
  canonical : significand < 0x20000000000000 ∧ -1074 ≤ exponent ∧ exponent ≤ 971 ∧
    (0x10000000000000 ≤ significand ∨ exponent = -1074)
  deriving DecidableEq, Repr

namespace Double

/-- The number with these parts, when they are in canonical form. -/
def mk? (negative : Bool) (significand : Nat) (exponent : Int) : Option Double :=
  if h : significand < 0x20000000000000 ∧ -1074 ≤ exponent ∧ exponent ≤ 971 ∧
      (0x10000000000000 ≤ significand ∨ exponent = -1074) then
    some ⟨negative, significand, exponent, h⟩
  else none

/-- Zero, which has either sign. -/
def zero (negative : Bool) : Double := ⟨negative, 0, -1074, by decide⟩

def isZero (x : Double) : Bool := x.significand == 0

def neg (x : Double) : Double := { x with negative := !x.negative }

/-- `num / den` rounded to the nearest natural number, ties to even. -/
def roundDiv (num den : Nat) : Nat :=
  let low := num / den
  let twice := 2 * (num % den)
  if twice < den then low else if den < twice then low + 1 else low + low % 2

/-- The greatest `e` with `2 ^ e ≤ num / den`, for a positive ratio. -/
def floorLog2 (num den : Nat) : Int :=
  let e : Int := (num.log2 : Int) - (den.log2 : Int)
  if den <<< e.toNat ≤ num <<< (-e).toNat then e else e - 1

/-- The binary64 number nearest to `num / den`, or `none` when that is beyond the greatest one. -/
def ofRatio (negative : Bool) (num den : Nat) : Option Double :=
  if num = 0 then some (zero negative)
  else
    let exponent := max (-1074) (floorLog2 num den - 52)
    let significand := roundDiv (num <<< (-exponent).toNat) (den <<< exponent.toNat)
    if significand = 0x20000000000000 then mk? negative 0x10000000000000 (exponent + 1)
    else mk? negative significand exponent

def ofNat? (n : Nat) : Option Double := ofRatio false n 1

/-- The number's magnitude as a ratio of natural numbers. -/
def ratio (x : Double) : Nat × Nat :=
  (x.significand <<< x.exponent.toNat, 1 <<< (-x.exponent).toNat)

/-- The rounded product, or `none` when it overflows. -/
def mul? (x y : Double) : Option Double :=
  ofRatio (x.negative != y.negative) (x.ratio.1 * y.ratio.1) (x.ratio.2 * y.ratio.2)

/-- The rounded quotient, or `none` when it overflows. -/
def div? (x y : Double) : Option Double :=
  ofRatio (x.negative != y.negative) (x.ratio.1 * y.ratio.2) (x.ratio.2 * y.ratio.1)

/-- The number rounded to a significand of 24 bits, as single precision holds it. -/
def toSingle? (x : Double) : Option Double :=
  if x.isZero then some x
  else
    let (num, den) := x.ratio
    let exponent := max (-149) (floorLog2 num den - 23)
    let significand := roundDiv (num <<< (-exponent).toNat) (den <<< exponent.toNat)
    if 0x1000000 ≤ significand ∧ 104 ≤ exponent then none
    else ofRatio x.negative (significand <<< exponent.toNat) (1 <<< (-exponent).toNat)

/-- Every number is in canonical form, so its parts give it back. -/
theorem mk?_parts (x : Double) : mk? x.negative x.significand x.exponent = some x :=
  dif_pos x.canonical

end Double
end OperationTree
