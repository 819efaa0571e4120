import QuasiScript.Number.Decimal

/-!
# Writing decimals

A style says which numbers are written with all their digits in place and how the exponent of the others looks.
-/
namespace QuasiScript

/-- How decimals are written: positionally while the leading digit's power of ten lies between `lowest` and `highest`,
otherwise with an exponent of at least `exponentWidth` digits. -/
structure DecimalStyle where
  lowest : Int
  highest : Int
  exponentWidth : Nat

namespace DecimalStyle

def zeros (n : Nat) : List Char := List.replicate n '0'

def positional (x : Decimal) : List Char :=
  let ds := x.digits
  let whole := x.leadingExponent + 1
  if 0 ≤ x.exponent then ds ++ zeros x.exponent.toNat
  else if 0 < whole then ds.take whole.toNat ++ '.' :: ds.drop whole.toNat
  else '0' :: '.' :: zeros (-whole).toNat ++ ds

def scientific (width : Nat) (x : Decimal) : List Char :=
  let e := x.leadingExponent
  let ds := Nat.toDigits 10 e.natAbs
  let fraction := match x.digits.drop 1 with
    | [] => []
    | rest => '.' :: rest
  x.digits.take 1 ++ fraction ++ 'e' :: (if e < 0 then '-' else '+') :: zeros (width - ds.length) ++ ds

def write (s : DecimalStyle) (x : Decimal) : List Char :=
  if s.lowest ≤ x.leadingExponent ∧ x.leadingExponent ≤ s.highest then positional x
  else scientific s.exponentWidth x

end DecimalStyle
end QuasiScript
