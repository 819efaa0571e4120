/-!
# Double-precision numbers

A number is held as the 64 bits of its binary interchange format: a sign, eleven bits of exponent and fifty-two of
fraction. `Double.view` reads them as a sign and a value `m * 2 ^ q`; `Double.ofRatio` rounds a ratio of naturals to the
nearest double, a tie going to the even neighbour. Everything is exact arithmetic on naturals.
-/
namespace QuasiScript

/-- A power of naturals is `Nat.pow`, whatever other powers are in scope. -/
@[default_instance high] instance (priority := high) powNat : Pow Nat Nat := instPowNat

/-- A double-precision number, by its bits. -/
structure Double where
  bits : UInt64
deriving DecidableEq

namespace Double

inductive View where
  | nan
  | infinite (negative : Bool)
  /-- The value `m * 2 ^ q`, negated when `negative`. -/
  | finite (negative : Bool) (m : Nat) (q : Int)
deriving DecidableEq

def view (x : Double) : View :=
  let n := x.bits.toNat
  let negative := decide (2 ^ 63 ≤ n)
  let exponent : Nat := n / 2 ^ 52 % 2 ^ 11
  let fraction : Nat := n % 2 ^ 52
  if exponent = 2047 then if fraction = 0 then .infinite negative else .nan
  else if exponent = 0 then .finite negative fraction (-1074)
  else .finite negative (2 ^ 52 + fraction) ((exponent : Int) - 1075)

/-! ## Rounding -/

/-- The natural nearest to `num / den`; of two equally near, the even one. -/
def nearest (num den : Nat) : Nat :=
  let k := num / den
  let r := num % den
  if 2 * r < den then k else if den < 2 * r then k + 1 else k + k % 2

/-- The ratio `num / den / 2 ^ q` as a numerator and a denominator. -/
def scale (num den : Nat) (q : Int) : Nat × Nat :=
  if 0 ≤ q then (num, den * 2 ^ q.toNat) else (num * 2 ^ (-q).toNat, den)

/-- The greatest `e` with `2 ^ e ≤ num / den`, for a positive ratio. -/
def binaryExponent (num den : Nat) : Int :=
  let e : Int := (num.log2 : Int) - (den.log2 : Int)
  let (a, b) := scale num den e
  if b ≤ a then e else e - 1

/-- The bit pattern of infinity, which is also where rounding stops. -/
def infinityBits : Nat := 2047 * 2 ^ 52

/-- The bits of the double nearest to a ratio, sign excluded. In units of `2 ^ q` a double has at most 53 bits, so that
the exponent field and the fraction add up to one number and a carry out of the fraction lands in the exponent. -/
def magnitudeBits (num den : Nat) : Nat :=
  if num = 0 then 0
  else
    let q := max (binaryExponent num den - 52) (-1074)
    let (a, b) := scale num den q
    min ((q + 1074).toNat * 2 ^ 52 + nearest a b) infinityBits

def ofMagnitude (negative : Bool) (bits : Nat) : Double :=
  ⟨UInt64.ofNat (bits + if negative then 2 ^ 63 else 0)⟩

/-- The double nearest to `num / den`, negated when `negative`. -/
def ofRatio (negative : Bool) (num den : Nat) : Double := ofMagnitude negative (magnitudeBits num den)

end Double
end QuasiScript
