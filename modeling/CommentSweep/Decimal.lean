/-!
Shortest decimals. A binary64 number is written with the fewest digits that read back as the same
number; of two such decimals the nearer one is taken. All of it is exact arithmetic on the
significand and exponent.
-/

namespace CommentSweep

/-- The number `significand * 2 ^ exponent`, or its opposite. -/
structure Binary where
  negative : Bool
  significand : Nat
  exponent : Int
  deriving DecidableEq, Repr

namespace Binary

def signBit : Nat := 0x8000000000000000

/-- The weight of the lowest bit of the exponent: significands of full length start here. -/
def significandBase : Nat := 0x10000000000000

/-- The least exponent. Significands that are not of full length have it. -/
def leastExponent : Int := -1074

def endless : Nat := 0x7FF

def isNegative (x : Float) : Bool :=
  decide (signBit ≤ x.toBits.toNat)

/-- The number that a float stands for, unless it is infinite or no number. -/
def ofFloat? (x : Float) : Option Binary :=
  let bits := x.toBits.toNat % signBit
  let biased : Nat := bits / significandBase
  let fraction := bits % significandBase
  if biased == endless then none
  else if biased == 0 then some ⟨isNegative x, fraction, leastExponent⟩
  else some ⟨isNegative x, significandBase + fraction, leastExponent + biased - 1⟩

def truncate (b : Binary) : Int :=
  let size : Nat :=
    if b.exponent < 0 then b.significand / Nat.pow 2 (-b.exponent).toNat
    else b.significand * Nat.pow 2 b.exponent.toNat
  if b.negative then -size else size

end Binary

/-- The decimal `digits * 10 ^ exponent`. -/
structure Decimal where
  digits : Nat
  exponent : Int
  deriving DecidableEq, Repr

namespace Decimal

structure Ratio where
  num : Nat
  den : Nat

namespace Ratio

def le (x y : Ratio) : Bool :=
  decide (x.num * y.den ≤ y.num * x.den)

def lt (x y : Ratio) : Bool :=
  decide (x.num * y.den < y.num * x.den)

/-- The fraction `n * base ^ e`. -/
def scaled (n base : Nat) (e : Int) : Ratio :=
  if e < 0 then ⟨n, base.pow (-e).toNat⟩ else ⟨n * base.pow e.toNat, 1⟩

/-- How often `10 ^ e` goes into the fraction. -/
def countPow (x : Ratio) (e : Int) : Nat :=
  if e < 0 then x.num * Nat.pow 10 (-e).toNat / x.den else x.num / (x.den * Nat.pow 10 e.toNat)

/-- The exponent of the highest power of ten that is not above a positive fraction. -/
def magnitude (x : Ratio) : Int :=
  let e : Int := (Nat.toDigits 10 x.num).length - (Nat.toDigits 10 x.den).length
  if le (scaled 1 10 e) x then e else e - 1

def distance (x y : Ratio) : Ratio :=
  let a := x.num * y.den
  let b := y.num * x.den
  ⟨(a - b) + (b - a), x.den * y.den⟩

end Ratio

def toRatio (d : Decimal) : Ratio :=
  Ratio.scaled d.digits 10 d.exponent

/-- The numbers that round to one binary number. -/
structure Cell where
  centre : Ratio
  low : Ratio
  high : Ratio
  closed : Bool

/-- The cell of a positive number. Below a power of two the neighbours lie twice as close, except at
the least exponent. -/
def Cell.ofBinary (b : Binary) : Cell :=
  let m := b.significand
  let q := b.exponent - 2
  let atPower := m == Binary.significandBase && b.exponent != Binary.leastExponent
  { centre := Ratio.scaled (4 * m) 2 q
    low := Ratio.scaled (if atPower then 4 * m - 1 else 4 * m - 2) 2 q
    high := Ratio.scaled (4 * m + 2) 2 q
    closed := m % 2 == 0 }

def Cell.contains (cell : Cell) (x : Ratio) : Bool :=
  if cell.closed then cell.low.le x && x.le cell.high else cell.low.lt x && x.lt cell.high

/-- The nearer of the cell's decimals with the given exponent, if one of the centre's two neighbours
lies in the cell. A tie goes to the even one. -/
def Cell.decimal? (cell : Cell) (exponent : Int) : Option Decimal :=
  let n := cell.centre.countPow exponent
  let lower : Decimal := ⟨n, exponent⟩
  let upper : Decimal := ⟨n + 1, exponent⟩
  match cell.contains lower.toRatio, cell.contains upper.toRatio with
  | false, false => none
  | true, false => some lower
  | false, true => some upper
  | true, true =>
      let toLower := Ratio.distance cell.centre lower.toRatio
      let toUpper := Ratio.distance cell.centre upper.toRatio
      if toLower.lt toUpper then some lower
      else if toUpper.lt toLower then some upper
      else if n % 2 == 0 then some lower else some upper

/-- The shortest decimal in the cell of a positive binary number. Seventeen digits always suffice.
-/
def Cell.shortest (cell : Cell) : Decimal :=
  let top := cell.centre.magnitude
  let grids := (List.range 17).map fun (k : Nat) => top - k
  match grids.findSome? cell.decimal? with
  | some d => d
  | none => ⟨cell.centre.countPow (top - 16), top - 16⟩

def trimZeros (d : Decimal) : Decimal :=
  let zeros := ((Nat.toDigits 10 d.digits).reverse.takeWhile (· == '0')).length
  ⟨d.digits / Nat.pow 10 zeros, d.exponent + zeros⟩

def ofBinary (b : Binary) : Decimal :=
  (Cell.ofBinary b).shortest.trimZeros

end Decimal

end CommentSweep
