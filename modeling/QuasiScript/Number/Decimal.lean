import QuasiScript.Number.Double

/-!
# Decimal numbers

A decimal number is a coefficient and a power of ten. `Decimal.toDouble` rounds one to the nearest double, and
`Decimal.shortest` goes the other way: of the decimals that round to a given double it picks one with the fewest digits,
and of these the nearest.
-/
namespace QuasiScript

/-- The number `coefficient * 10 ^ exponent`. -/
structure Decimal where
  coefficient : Nat
  exponent : Int
deriving DecidableEq

namespace Decimal

def digits (x : Decimal) : List Char := Nat.toDigits 10 x.coefficient

def length (n : Nat) : Nat := (Nat.toDigits 10 n).length

/-- The power of ten of the leading digit. -/
def leadingExponent (x : Decimal) : Int := x.exponent + length x.coefficient - 1

/-- The nearest double. Beyond `10 ^ 310` every double is infinite and below `10 ^ (-330)` every double is zero, so the
power of ten is formed only in between. -/
def toDouble (negative : Bool) (x : Decimal) : Double :=
  if x.coefficient = 0 then .ofMagnitude negative 0
  else if 310 < x.leadingExponent then .ofMagnitude negative Double.infinityBits
  else if x.leadingExponent < -330 then .ofMagnitude negative 0
  else if 0 ≤ x.exponent then .ofRatio negative (x.coefficient * 10 ^ x.exponent.toNat) 1
  else .ofRatio negative x.coefficient (10 ^ (-x.exponent).toNat)

/-! ## The shortest decimal of a double

The reals that round to `m * 2 ^ q` form an interval around it. Its upper end is half a unit above; its lower end is half
a unit below, or a quarter where the next smaller double is twice as near. The ends belong to it when `m` is even. All
three are multiples of `2 ^ (q - 2)`. -/

/-- The interval of reals that round to a double: the three numerators over the one denominator. -/
structure Interval where
  low : Nat
  value : Nat
  high : Nat
  den : Nat
  closed : Bool

def interval (m : Nat) (q : Int) : Interval :=
  let unit := 2 ^ (q - 2).toNat
  let gap := if m = 2 ^ 52 ∧ -1074 < q then 1 else 2
  ⟨(4 * m - gap) * unit, 4 * m * unit, (4 * m + 2) * unit, 2 ^ (2 - q).toNat, m % 2 == 0⟩

/-- The least `p` with `value < 10 ^ p`: where the decimal point stands before the digits. -/
def Interval.point (i : Interval) : Int :=
  if i.den ≤ i.value then length (i.value / i.den) else 1 - length ((i.den - 1) / i.value)

/-- A decimal of `k` digits inside the interval: one of the two neighbours of the value on that grid. If both lie inside
it is the nearer one, and of two equally near the one with an even last digit. -/
def Interval.nearby? (i : Interval) (k : Nat) : Option Decimal :=
  let t := i.point - k
  let a := i.den * 10 ^ t.toNat
  let b := 10 ^ (-t).toNat
  let inside := fun n =>
    if i.closed then decide (i.low * b ≤ n * a) && decide (n * a ≤ i.high * b)
    else decide (i.low * b < n * a) && decide (n * a < i.high * b)
  let below := i.value * b / a
  let above := below + 1
  let up := if above = 10 ^ k then ⟨1, i.point⟩ else ⟨above, t⟩
  match inside below, inside above with
  | true, true =>
    let down := i.value * b - below * a
    let gap := above * a - i.value * b
    if down < gap ∨ (down = gap ∧ below % 2 = 0) then some ⟨below, t⟩ else some up
  | true, false => some ⟨below, t⟩
  | false, true => some up
  | false, false => none

/-- The shortest decimal that rounds to `m * 2 ^ q`. Seventeen digits always suffice. -/
def shortest (m : Nat) (q : Int) : Decimal :=
  if m = 0 then ⟨0, 0⟩
  else ((List.range' 1 17).findSome? (interval m q).nearby?).getD ⟨0, 0⟩

end Decimal
end QuasiScript
