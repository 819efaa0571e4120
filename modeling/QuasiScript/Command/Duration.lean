import QuasiScript.Number.Arithmetic
import QuasiScript.Number.Numeral

/-!
# Durations

A duration is an optional sign and then `0` or a sequence of decimal numbers, each with a unit, as in `1h15m30.5s`. It is
held in 64 bits as a number of nanoseconds, which limits every term and every sum on the way. The part of a term after the
point is worked out in double precision.
-/
namespace QuasiScript
namespace Command

def unitSize? (name : List Char) : Option Nat :=
  match String.ofList name with
  | "ns" => some 1
  | "us" | "µs" | "μs" => some 1000
  | "ms" => some 1000000
  | "s" => some 1000000000
  | "m" => some 60000000000
  | "h" => some 3600000000000
  | _ => none

def isUnitChar (c : Char) : Bool := !(c.isDigit || c == '.')

/-- Neither a term nor a sum of terms may exceed this many nanoseconds. -/
def longest : Nat := 2 ^ 63

/-! ## One term -/

/-- The digits after the point as a number, and how many they are. Digits count as long as the number stays within
`longest`; the first that takes it further and all after it are left out. -/
def fractionFrom (n places : Nat) : List Char → Nat × Nat
  | [] => (n, places)
  | c :: cs =>
    let more := 10 * n + Numeral.digitValue c
    if more ≤ longest then fractionFrom more (places + 1) cs else (n, places)

/-- A power of ten as a product of tens in double precision. -/
def powerOfTen : Nat → Double
  | 0 => .ofNat 1
  | k + 1 => (powerOfTen k).mul (.ofNat 10)

def fractionSize (digits : List Char) (size : Nat) : Nat :=
  let (n, places) := fractionFrom 0 0 digits
  ((Double.ofNat n).mul ((Double.ofNat size).div (powerOfTen places))).whole

def within? (n : Nat) : Option Nat := if n ≤ longest then some n else none

def term? (cs : List Char) : Option (Nat × List Char) :=
  let digits := cs.takeWhile Char.isDigit
  let (fraction, rest) := Numeral.splitFraction (cs.dropWhile Char.isDigit)
  if digits = [] ∧ fraction = [] then none
  else
    match unitSize? (rest.takeWhile isUnitChar) with
    | none => none
    | some size =>
      (within? (Numeral.ofDigits digits * size + fractionSize fraction size)).map (·, rest.dropWhile isUnitChar)

/-! ## Sums of terms -/

/-- The sum of two numbers of nanoseconds. It is formed in 64 bits before it is held against the limit, so that twice
`longest` comes to nothing. -/
def add? (a b : Nat) : Option Nat := within? ((a + b) % 2 ^ 64)

/-- Adds terms, each of which begins with a digit or a point, to a sum, within `fuel` terms. -/
def terms? : Nat → Nat → List Char → Option Nat
  | _, sum, [] => some sum
  | 0, _, _ => none
  | fuel + 1, sum, cs =>
    match term? cs with
    | none => none
    | some (n, rest) => (add? sum n).bind (terms? fuel · rest)

/-- The nanoseconds that a text stands for. Of negative ones there is one more than of positive ones. -/
def duration? (s : String) : Option Int :=
  let (negative, body) := Numeral.splitSign s.toList
  if body = ['0'] then some 0
  else if body = [] then none
  else
    match terms? body.length 0 body with
    | some n => if negative then some (-n) else if n < longest then some n else none
    | none => none

end Command
end QuasiScript
