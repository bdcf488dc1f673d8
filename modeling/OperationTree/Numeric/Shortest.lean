import OperationTree.Numeric.Double

/-! The shortest decimal that lies within the rounding interval of a binary64 number, and how a
decimal is laid out in positional or exponent form. -/

namespace OperationTree

/-- The number `d₀.d₁d₂… * 10 ^ exponent`, where `digits` lists `d₀, d₁, d₂, …`. -/
structure Decimal where
  digits : List Nat
  exponent : Int
  deriving DecidableEq, Repr

namespace Decimal

/-- How many decimal digits `n` has; zero has none. -/
def width (n : Nat) : Nat := if n = 0 then 0 else (Nat.toDigits 10 n).length

/-- The decimal `n * 10 ^ k`, without trailing zeros. -/
def ofNat (n : Nat) (k : Int) : Decimal :=
  let digits := (Nat.toDigits 10 n).map fun c => c.toNat - '0'.toNat
  ⟨(digits.reverse.dropWhile (· == 0)).reverse, k + digits.length - 1⟩

/-- Which exponents are written positionally; any other decimal is written with an exponent. -/
structure Layout where
  least : Int
  greatest : Int
  deriving DecidableEq, Repr

def digitChars (ds : List Nat) : List Char := ds.map Nat.digitChar

/-- The text of a decimal.  A positional text always has a fraction, and an exponent always has a
sign. -/
def layout (style : Layout) (d : Decimal) : List Char :=
  let chars := digitChars d.digits
  if style.least ≤ d.exponent ∧ d.exponent ≤ style.greatest then
    if d.exponent < 0 then
      '0' :: '.' :: (List.replicate ((-d.exponent).toNat - 1) '0' ++ chars)
    else
      let whole := d.exponent.toNat + 1
      let fraction := chars.drop whole
      chars.take whole ++ List.replicate (whole - chars.length) '0' ++
        '.' :: (if fraction.isEmpty then ['0'] else fraction)
  else
    let fraction := chars.drop 1
    chars.take 1 ++ (if fraction.isEmpty then [] else '.' :: fraction) ++
      'e' :: (if d.exponent < 0 then '-' else '+') :: Nat.toDigits 10 d.exponent.natAbs

end Decimal

namespace Double

/-- The greatest `e` with `10 ^ e ≤ num / den`, for a positive ratio. -/
def floorLog10 (num den : Nat) : Int :=
  if den ≤ num then (Decimal.width (num / den) : Int) - 1
  else -((Decimal.width ((den - 1) / num) : Nat) : Int)

/-- The reals that round to a positive number, in quarters of its last place: they lie between
`low` and `high`, ends included when `closed`, around `middle`. -/
structure Interval where
  low : Nat
  middle : Nat
  high : Nat
  closed : Bool

/-- The rounding interval of a number's magnitude.  Below a power of two the numbers lie twice as
dense. -/
def interval (x : Double) : Interval where
  low := 4 * x.significand -
    (if x.significand = 0x10000000000000 ∧ -1074 < x.exponent then 1 else 2)
  middle := 4 * x.significand
  high := 4 * x.significand + 2
  closed := x.significand % 2 == 0

def Interval.contains (i : Interval) (low high point : Nat) : Bool :=
  if i.closed then low ≤ point && point ≤ high else low < point && point < high

/-- The multiple of `10 ^ k` nearest to the magnitude of `x` among those in its rounding interval,
divided by `10 ^ k`. -/
def nearestMultiple? (x : Double) (k : Int) : Option Nat :=
  let i := x.interval
  let quarter := x.exponent - 2
  let scaled (n : Nat) : Nat := n <<< quarter.toNat * Nat.pow 10 (-k).toNat
  let unit := Nat.pow 10 k.toNat <<< (-quarter).toNat
  let below := scaled i.middle / unit
  let holds (d : Nat) : Bool := i.contains (scaled i.low) (scaled i.high) (d * unit)
  let gapBelow := scaled i.middle - below * unit
  let gapAbove := (below + 1) * unit - scaled i.middle
  if holds below && (!holds (below + 1) || gapBelow < gapAbove ||
      (gapBelow == gapAbove && below % 2 == 0)) then some below
  else if holds (below + 1) then some (below + 1)
  else none

/-- The shortest decimal in the rounding interval of a nonzero number's magnitude, nearest to it
among those: the coarsest grid with a point in the interval decides.  Seventeen digits always
suffice. -/
def shortest (x : Double) : Decimal :=
  let top := floorLog10 x.ratio.1 x.ratio.2
  let found := (List.range 17).findSome? fun (n : Nat) =>
    (nearestMultiple? x (top - n)).map fun d => Decimal.ofNat d (top - n)
  found.getD ⟨[0], 0⟩

/-- The text of a number by its shortest decimal; zero is `0.0`. -/
def text (style : Decimal.Layout) (x : Double) : List Char :=
  let sign := if x.negative then ['-'] else []
  if x.isZero then sign ++ ['0', '.', '0'] else sign ++ x.shortest.layout style

end Double
end OperationTree
