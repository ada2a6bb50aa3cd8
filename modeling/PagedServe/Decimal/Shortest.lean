/-
PagedServe/Decimal/Shortest.lean

The shortest decimal that reads back as a given 64-bit float.

A finite positive float stands for all reals that round to it, which form an
interval (`Interval`). Powers of ten are tried as a grid from the coarsest on,
and of each grid the two points beside the float. The first grid with a point in
the interval gives the fewest digits; of two such points the nearer one is taken,
and of two equally near ones the even one.

All comparisons are between natural numbers over one denominator.
-/
namespace PagedServe.Decimal

/-- The reals that round to a value, as numerators over one denominator. The ends
belong to the interval if it is closed. -/
structure Interval where
  low : Nat
  value : Nat
  high : Nat
  denominator : Nat
  closed : Bool

namespace Interval

/-- The interval of a finite non-negative float, from its bits. Halfway to the
neighbour above is two quarters of a unit in the last place; the neighbour below
a power of two is only half as far away. -/
def ofBits (bits : UInt64) : Interval :=
  let exponent := (bits >>> 52).toNat % (1 <<< 11)
  let fraction := bits.toNat % (1 <<< 52)
  let mantissa := if exponent = 0 then fraction else (1 <<< 52) + fraction
  -- one quarter of a unit in the last place is 2 ^ (scale - 1077)
  let scale := max exponent 1
  let below := if fraction = 0 ∧ 1 < exponent then 1 else 2
  let factor := 1 <<< (scale - 1077)
  { low := (4 * mantissa - below) * factor
    value := 4 * mantissa * factor
    high := (4 * mantissa + 2) * factor
    denominator := 1 <<< (1077 - scale)
    closed := mantissa % 2 = 0 }

/-- The same interval with all numerators multiplied. -/
def stretch (i : Interval) (factor : Nat) : Interval :=
  { i with low := i.low * factor, value := i.value * factor, high := i.high * factor }

/-- A numerator lies in the interval. -/
def contains (i : Interval) (n : Nat) : Bool :=
  (i.low < n || i.closed && i.low == n) && (n < i.high || i.closed && n == i.high)

/-- The best multiple of a grid step in the interval, if one lies in it. -/
def pick (i : Interval) (step : Nat) : Option Nat :=
  let down := i.value / step
  let up := down + 1
  let toDown := i.value - down * step
  let toUp := up * step - i.value
  match i.contains (down * step), i.contains (up * step) with
  | true, false => some down
  | false, true => some up
  | false, false => none
  | true, true =>
    if toDown < toUp ∨ toDown = toUp ∧ down % 2 = 0 then some down else some up

/-- The best multiple of a power of ten in the interval. -/
def pickPower (i : Interval) (power : Int) : Option Nat :=
  (i.stretch (Nat.pow 10 (-power).toNat)).pick (i.denominator * Nat.pow 10 power.toNat)

/-- The first of `count` powers of ten, from `power` on down, with a multiple in
the interval. -/
def search (i : Interval) (power : Int) : Nat → Option (Nat × Int)
  | 0 => none
  | count + 1 =>
    match i.pickPower power with
    | some digits => some (digits, power)
    | none => i.search (power - 1) count

end Interval

/-- No float is as large as this power of ten. -/
def topPower : Int := 309

/-- Steps from the top power of ten to one that divides every float. -/
def powerCount : Nat := 1384

/-- Digits and a power of ten whose product is the shortest decimal that reads
back as this float, which must be finite and not negative. -/
def shortest (x : Float) : Nat × Int :=
  if x.toBits = 0 then (0, 0)
  else ((Interval.ofBits x.toBits).search topPower powerCount).getD (0, 0)

/-- So many zeros. -/
def zeros (count : Nat) : List Char := List.replicate count '0'

/-- The text of a decimal: with a point while the leading digit stands between
the fifth place after it and the sixteenth before it, and with an exponent
otherwise. -/
def layout (digits : Nat) (power : Int) : List Char :=
  let ds := Nat.toDigits 10 digits
  let point := (ds.length : Int) + power
  if digits = 0 then "0.0".toList
  else if 0 ≤ power ∧ point ≤ 16 then ds ++ zeros power.toNat ++ ".0".toList
  else if 0 < point ∧ point ≤ 16 then ds.take point.toNat ++ '.' :: ds.drop point.toNat
  else if -5 < point ∧ point ≤ 0 then "0.".toList ++ zeros (-point).toNat ++ ds
  else
    let exponent := 'e' :: (toString (point - 1)).toList
    if ds.length = 1 then ds ++ exponent
    else ds.take 1 ++ '.' :: ds.drop 1 ++ exponent

/-- The text of a finite float that is not negative. -/
def floatText (x : Float) : String :=
  let (digits, power) := shortest x
  String.ofList (layout digits power)

end PagedServe.Decimal
