namespace Stencil

-- A finite number `mantissa * 2 ^ exponent`, sign left out.
structure Magnitude where
  mantissa : Nat
  exponent : Int
  -- Just above a power of two the number below is only half as far away as the one above.
  narrowBelow : Bool
deriving DecidableEq, Repr

namespace Magnitude

def exponentField (bits : UInt64) : Nat :=
  ((bits >>> 52) &&& 0x7FF).toNat

def fractionField (bits : UInt64) : Nat :=
  (bits &&& 0xFFFFFFFFFFFFF).toNat

def isFinite (bits : UInt64) : Bool :=
  exponentField bits ≠ 0x7FF

-- Reads the fields of a finite number; below the normal range the exponent stays at its least.
def ofBits (bits : UInt64) : Magnitude :=
  let e := exponentField bits
  let f := fractionField bits
  if e = 0 then ⟨f, -1074, false⟩ else ⟨0x10000000000000 + f, (e : Int) - 1075, f = 0 && 1 < e⟩

-- Quarters of the gap above: the ends of the interval that rounds to this number.
def low (x : Magnitude) : Nat :=
  if x.narrowBelow then 4 * x.mantissa - 1 else 4 * x.mantissa - 2

def high (x : Magnitude) : Nat :=
  4 * x.mantissa + 2

-- An end of the interval rounds to this number exactly when the mantissa is even.
def closed (x : Magnitude) : Bool :=
  x.mantissa % 2 = 0

end Magnitude

structure Decimal where
  digits : Nat
  exponent : Int
deriving DecidableEq, Repr

namespace Decimal

-- A power of two or ten. One with a negative exponent counts on the other side of a comparison.
def power (base : Nat) (n : Int) : Nat :=
  base.pow n.toNat

-- `quarters * 2 ^ (x.exponent - 2)`, in the unit that makes it comparable with grid points.
def scaled (x : Magnitude) (grid : Int) (quarters : Nat) : Nat :=
  quarters * power 2 (x.exponent - 2) * power 10 (-grid)

-- The distance of two neighbours on the grid of multiples of `10 ^ grid`, in the same unit.
def step (x : Magnitude) (grid : Int) : Nat :=
  power 10 grid * power 2 (2 - x.exponent)

-- Does `digits * 10 ^ grid` round to `x`?
def readsBack (x : Magnitude) (grid : Int) (digits : Nat) : Bool :=
  let point := digits * step x grid
  let low := scaled x grid x.low
  let high := scaled x grid x.high
  (low < point || x.closed && low = point) && (point < high || x.closed && point = high)

-- The point of the grid that reads back and lies nearest to `x`, if one does. Of two points equally
-- near the upper one is taken.
def onGrid? (x : Magnitude) (grid : Int) : Option Decimal :=
  let value := scaled x grid (4 * x.mantissa)
  let below := value / step x grid
  let toBelow := value % step x grid
  let below? := readsBack x grid below
  let above? := readsBack x grid (below + 1)
  if above? && (!below? || step x grid ≤ 2 * toBelow) then some ⟨below + 1, grid⟩
  else if below? then some ⟨below, grid⟩
  else none

-- A power of ten above `x`: its binary logarithm times a little more than `log10 2`, and two more.
def coarsest (x : Magnitude) : Int :=
  ((x.mantissa.log2 : Int) + x.exponent) * 30103 / 100000 + 2

-- The decimal with the fewest digits that reads back: the coarsest grid with such a point decides.
-- Seventeen digits always suffice; the exact value stands where no grid was tried that far.
def shortest (x : Magnitude) : Decimal :=
  let found := (List.range 22).findSome? fun (n : Nat) => onGrid? x (coarsest x - (n : Int))
  found.getD ⟨x.mantissa * power 2 x.exponent * power 5 (-x.exponent), min x.exponent 0⟩

def toText (d : Decimal) : String :=
  let digits := Nat.toDigits 10 d.digits
  let places := (-d.exponent).toNat
  if places = 0 then String.ofList (digits ++ List.replicate d.exponent.toNat '0')
  else
    let padded := List.replicate (places + 1 - digits.length) '0' ++ digits
    let whole := padded.length - places
    String.ofList (padded.take whole ++ '.' :: padded.drop whole)

end Decimal

-- The text of a floating point number: the shortest decimal that reads back. Both zeros are `0`.
def floatText (x : Float) : String :=
  let bits := x.toBits
  let negative := bits >>> 63 = 1
  let magnitude := Magnitude.ofBits bits
  if Magnitude.isFinite bits then
    if magnitude.mantissa = 0 then "0"
    else (if negative then "-" else "") ++ (Decimal.shortest magnitude).toText
  else if Magnitude.fractionField bits ≠ 0 then "NaN"
  else if negative then "-Infinity" else "Infinity"

end Stencil
